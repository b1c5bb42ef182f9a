import ClassRules.Diagnostic
import ClassRules.Options
import ClassRules.Sheet.Move

/-!
# The progress of a run

A run lowers at-rules one after the other. Between two of them there is a sheet, the warnings so
far, and counts of what was lowered; a run that stops leaves these as they are at that moment.

## What this module delivers

- `Lowering.Context`: the conventions and shortcuts that hold throughout a run.
- `Lowering.Stats`, `Lowering.Progress`: what a run has done.
- `Lowering.Fault`, `Lowering.Stopped`: why a run stops, and how far it came.
- `Lowering.Context.find`: the at-rules of a kind below a node.
- `Progress.warn`, `Progress.stop`: a warning about a node, and a stop at one.
- `Progress.append`, `insertAfter`, `moveChildren`: moves within a run.
-/

set_option autoImplicit false

namespace ClassRules.Lowering

/-- What holds throughout a run. -/
structure Context where
  convention : Convention
  shortcuts : Shortcuts

/-- The context that options give. -/
def Context.ofOptions (o : Options) : Context :=
  ⟨o.convention, o.shortcuts⟩

/-- How many at-rules of each kind were lowered. -/
structure Stats where
  utilities : Nat := 0
  namespaces : Nat := 0
  components : Nat := 0
  modifiers : Nat := 0
  descendents : Nat := 0
  states : Nat := 0
  deriving DecidableEq, Repr

/-- What a run has done. -/
structure Progress where
  sheet : Sheet
  warnings : List Warning := []
  stats : Stats := {}
  deriving DecidableEq, Repr

/-- Why a run stops. -/
inductive Fault where
  | misuse (fault : SyntaxFault)
  | move (fault : MoveFault)
  /-- A node was to be named by its place, and its line or column is too large for that. -/
  | place
  deriving DecidableEq, Repr

/-- Why a run stopped, and how far it came. -/
structure Stopped where
  fault : Fault
  progress : Progress
  deriving DecidableEq, Repr

/-- Whether a node is an at-rule of a kind. -/
def Context.isA (cx : Context) (s : Sheet) (kind : RuleKind) (id : NodeId) : Bool :=
  (s.content id).name?.any (cx.shortcuts.names kind)

/-- The at-rules of a kind below a node, in document order. -/
def Context.find (cx : Context) (s : Sheet) (scope : NodeId) (kind : RuleKind) : List NodeId :=
  (s.atRules scope).filter (cx.isA s kind)

namespace Progress

/-- The place that a node comes from, or a stop if it cannot be given. -/
def locate (p : Progress) (id : NodeId) : Except Stopped (Option Location) :=
  if p.sheet.isLocatable id then .ok (p.sheet.location? id) else .error ⟨.place, p⟩

/-- Stops the run for a wrong use of the at-rule `id`. -/
def stop {α : Type} (p : Progress) (id : NodeId) (reason : String) : Except Stopped α := do
  let location ← p.locate id
  throw ⟨.misuse ⟨reason, location⟩, p⟩

/-- Notes a warning about a node. -/
def warn (p : Progress) (id : NodeId) (message : String) : Except Stopped Progress := do
  let location ← p.locate id
  return { p with warnings := p.warnings ++ [⟨message, location⟩] }

/-- Changes the counts. -/
def count (p : Progress) (f : Stats → Stats) : Progress :=
  { p with stats := f p.stats }

/-- Goes on with the sheet that a move gives, or stops where it is. -/
def moved (p : Progress) : Except MoveFault Sheet → Except Stopped Progress
  | .ok sheet => .ok { p with sheet := sheet }
  | .error fault => .error ⟨.move fault, p⟩

/-- Moves a node to the end of a parent's children. -/
def append (p : Progress) (parent id : NodeId) : Except Stopped Progress :=
  p.moved (p.sheet.append parent id)

/-- Moves a node behind another among the children of `container`. -/
def insertAfter (p : Progress) (container anchor id : NodeId) : Except Stopped Progress :=
  p.moved (p.sheet.insertAfter container anchor id)

/-- Moves all children of a node to the end of the children of another. -/
def moveChildren (p : Progress) (source target : NodeId) : Except Stopped Progress :=
  (p.sheet.children source).foldlM (fun p child => p.append target child) p

/-- Adds a rule that comes from where `origin` comes from. -/
def createRule (p : Progress) (selector : String) (origin : NodeId) : NodeId × Progress :=
  let (rule, sheet) := p.sheet.createRule selector origin
  (rule, { p with sheet := sheet })

/-- Takes a node out. -/
def remove (p : Progress) (id : NodeId) : Progress :=
  { p with sheet := p.sheet.remove id }

/-- Puts a node in the place of another. -/
def replaceWith (p : Progress) (old new : NodeId) : Progress :=
  { p with sheet := p.sheet.replaceWith old new }

end Progress

end ClassRules.Lowering
