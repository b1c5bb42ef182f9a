import ClassRules.Sheet

/-!
# Walks through a sheet

## What this module delivers

- `Sheet.lineage`: a node, its parent, the parent's parent, and so on.
- `Sheet.isAttached`: whether the root is in a node's lineage.
- `Sheet.descendants`: the nodes below a node in document order, by a stack of nodes to visit.
- `Sheet.attachedCount`: the number of nodes of the text, the root included.
-/

set_option autoImplicit false

namespace ClassRules.Sheet

/-- The first `fuel` nodes on the way from a node up. -/
def lineageTo (s : Sheet) : Nat → NodeId → List NodeId
  | 0, _ => []
  | fuel + 1, id =>
    id :: match s.parent id with
      | some parent => s.lineageTo fuel parent
      | none => []

/-- The nodes on the way from a node up, itself first. There are no more than the sheet has. -/
def lineage (s : Sheet) (id : NodeId) : List NodeId :=
  s.lineageTo s.nodes.size id

/-- Whether a node hangs on the root. -/
def isAttached (s : Sheet) (id : NodeId) : Bool :=
  root ∈ s.lineage id

/-- Whether `candidate` is `id` or one of the nodes that it hangs on. -/
def isAncestorOrSelf (s : Sheet) (candidate id : NodeId) : Bool :=
  candidate ∈ s.lineage id

/-- The number of nodes that a node hangs on, directly or not. -/
def depth (s : Sheet) (id : NodeId) : Nat :=
  (s.lineage id).length - 1

/-- The first `fuel` nodes of a walk that visits the nodes on a stack, and the children of each
right behind it. -/
def walkStack (s : Sheet) : Nat → List NodeId → List NodeId
  | _, [] => []
  | 0, _ :: _ => []
  | fuel + 1, id :: stack => id :: s.walkStack fuel (s.children id ++ stack)

/-- The nodes below a node in document order. There are no more than the sheet has. -/
def descendants (s : Sheet) (id : NodeId) : List NodeId :=
  s.walkStack s.nodes.size (s.children id)

/-- The at-rules below a node in document order. -/
def atRules (s : Sheet) (id : NodeId) : List NodeId :=
  (s.descendants id).filter fun n => s.kind n == .atRule

/-- The number of nodes that hang on the root, itself included. -/
def attachedCount (s : Sheet) : Nat :=
  (s.descendants root).length + 1

end ClassRules.Sheet
