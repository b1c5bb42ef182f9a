import ClassRules.Sheet.Walk

/-!
# Moving nodes

A node that is moved leaves the children of its parent and comes to stand among those of another
node, with everything under it.

## What this module delivers

- `Sheet.detach`: takes a node out.
- `Sheet.append`, `Sheet.insertAfter`: move a node to the end of a parent's children, or behind one
  of them. A node cannot move to a place under itself; `MoveFault` says which of the two was asked
  for that, and the sheet stays as it was.
- `Sheet.replaceWith`: puts a node in the place of another.
-/

set_option autoImplicit false

namespace ClassRules

/-- A node was to move to a place under itself. -/
inductive MoveFault where
  /-- To the end of the children of a node under it. -/
  | append
  /-- Behind a node, among the children of a node under it. -/
  | insertAfter
  deriving DecidableEq, Repr

/-- The words for a fault. -/
def MoveFault.message : MoveFault → String
  | .append => "a node cannot be appended to a node under it"
  | .insertAfter => "a node cannot be inserted into a node under it"

namespace Sheet

/-- Takes a node out of its parent's children. What hangs on it stays on it. -/
def detach (s : Sheet) (id : NodeId) : Sheet :=
  match s.parent id with
  | some parent =>
    (s.modify id fun n => { n with parent := none }).modify parent fun n =>
      { n with children := n.children.filter (· ≠ id) }
  | none => s

/-- Takes a node out of the sheet's text. -/
def remove (s : Sheet) (id : NodeId) : Sheet :=
  s.detach id

/-- Hangs a node that was taken out on a parent whose children become `place` of those before. -/
def attach (s : Sheet) (parent id : NodeId) (place : List NodeId → List NodeId) : Sheet :=
  (s.modify parent fun n => { n with children := place n.children }).modify id fun n =>
    { n with parent := some parent }

/-- Moves a node to the end of the children of `parent`. -/
def append (s : Sheet) (parent id : NodeId) : Except MoveFault Sheet :=
  if s.isAncestorOrSelf id parent then .error .append
  else .ok ((s.detach id).attach parent id (· ++ [id]))

/-- Puts `id` behind `anchor` in a list, or at its end if `anchor` is not there. -/
def placeAfter (anchor id : NodeId) : List NodeId → List NodeId
  | [] => [id]
  | c :: cs => if c = anchor then c :: id :: cs else c :: placeAfter anchor id cs

/-- Moves a node behind `anchor` among the children of `container`, or to their end if `anchor` is
not one of them. A node stays where it is if it is to stand behind itself. -/
def insertAfter (s : Sheet) (container anchor id : NodeId) : Except MoveFault Sheet :=
  if id = anchor then .ok s
  else if s.isAncestorOrSelf id container then .error .insertAfter
  else .ok ((s.detach id).attach container id (placeAfter anchor id))

/-- Puts `new` in the place of `old`, which is taken out. Nothing changes if `old` has no parent or
is `new` itself. -/
def replaceWith (s : Sheet) (old new : NodeId) : Sheet :=
  if old = new then s
  else match s.parent old with
    | none => s
    | some parent =>
      -- If both hang on the same parent, the place is looked up after `new` has left its own.
      ((s.detach new).attach parent new (·.replace old new)).modify old fun n =>
        { n with parent := none }

end Sheet

end ClassRules
