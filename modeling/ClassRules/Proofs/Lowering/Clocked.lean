import ClassRules.Lowering

/-!
# Loops by the clock

The passes once more, with each loop going on for as long as its own condition says: a walk up from
a node until there is no parent, a walk down until the stack is empty, the lowering of nested
at-rules until there are none, and the unwrapping of a block until it has no child. A clock limits
the rounds of each loop. A loop that is not over by then has no result, and so has the run, so that
no bound of a loop is taken for its end.

## What this module delivers

- `Run`: a run that may stop, or run out of rounds, which is `none`.
- `meets?`, `walk?`: the walks up and down. `append`, `insertAfter`: moves that are checked by a
  walk up.
- `lowerNested`, `unwrapChildren`: the recursion over nested at-rules and the loop over a block.
- `transform`: the four passes, made of these.
-/

set_option autoImplicit false

namespace ClassRules.Clocked

open Lowering

/-- A run that goes through, stops, or runs out of rounds. -/
abbrev Run := ExceptT Stopped Option

/-- A part of a run that has no loop of its own. -/
def Run.of {α : Type} (r : Except Stopped α) : Run α :=
  some r

/-! ## Walks -/

/-- Whether the way up from a node meets `target`. -/
def meets? (s : Sheet) (target : NodeId) : Nat → NodeId → Option Bool
  | 0, _ => none
  | clock + 1, id =>
    if id = target then some true
    else match s.parent id with
      | some parent => meets? s target clock parent
      | none => some false

/-- The nodes on a stack, each with what is below it right behind it. -/
def walk? (s : Sheet) : Nat → List NodeId → Option (List NodeId)
  | _, [] => some []
  | 0, _ :: _ => none
  | clock + 1, id :: stack => do
    let ids ← walk? s clock (s.children id ++ stack)
    return id :: ids

variable (clock : Nat)

/-- Whether a node hangs on the root. -/
def isAttached? (s : Sheet) (id : NodeId) : Option Bool :=
  meets? s Sheet.root clock id

/-- The at-rules of a kind below a node, in document order. -/
def find? (cx : Context) (s : Sheet) (scope : NodeId) (kind : RuleKind) : Option (List NodeId) := do
  let ids ← walk? s clock (s.children scope)
  return (ids.filter fun n => s.kind n == .atRule).filter (cx.isA s kind)

/-! ## Moves -/

/-- Moves a node to the end of a parent's children. -/
def append (p : Progress) (parent id : NodeId) : Run Progress := do
  if ← meets? p.sheet id clock parent then throw ⟨.move .append, p⟩
  else return { p with sheet := (p.sheet.detach id).attach parent id (· ++ [id]) }

/-- Moves a node behind another among the children of `container`. -/
def insertAfter (p : Progress) (container anchor id : NodeId) : Run Progress := do
  if id = anchor then return p
  else if ← meets? p.sheet id clock container then throw ⟨.move .insertAfter, p⟩
  else return { p with
    sheet := (p.sheet.detach id).attach container id (Sheet.placeAfter anchor id) }

/-- Moves all children of a node to the end of the children of another. -/
def moveChildren (p : Progress) (source target : NodeId) : Run Progress :=
  (p.sheet.children source).foldlM (fun p child => append clock p target child) p

/-! ## Components -/

/-- Goes through `children`: an at-rule is given to `lower`, and what does not come to anything is
moved to `rule`. -/
def distribute (lower : Progress → NodeId → NodeId → Run (Option NodeId × Progress))
    (rule : NodeId) (children : List NodeId) (last : NodeId) (p : Progress) :
    Run (NodeId × Progress) :=
  children.foldlM (fun (last, p) child => do
    let (lowered, p) ←
      if p.sheet.kind child = .atRule then lower p child last else pure (none, p)
    match lowered with
    | some inserted => return (inserted, p)
    | none => return (last, ← append clock p rule child)) (last, p)

/-- Lowers a modifier or descendent with all those in it, however deep they stand. -/
def lowerNested (cx : Context) (container : NodeId) : Nat → String → Progress → NodeId → NodeId →
    Run (Option NodeId × Progress)
  | 0, _, _, _, _ => none
  | clock + 1, parentClass, p, atRule, after =>
    match nestedName? cx p parentClass atRule with
    | none => return (none, p)
    | some (name, p) => do
      let (rule, p) := p.createRule ("." ++ name) atRule
      let p ← insertAfter clock p container after rule
      let (last, p) ← distribute clock (lowerNested cx container clock name) rule
        (p.sheet.children atRule) rule p
      return (some last, p.remove atRule)

/-- Puts a rule in the place of a component, with the rules for its modifiers and descendents
behind it. -/
def lowerComponent (cx : Context) (p : Progress) (component : NodeId) (ns : Option String) :
    Run Progress :=
  match p.sheet.parent component with
  | none => return p
  | some container => do
    let name := cx.componentName ns (p.sheet.params component)
    let (rule, p) := p.createRule ("." ++ name) component
    let (_, p) ← distribute clock (lowerNested cx container clock name) rule
      (p.sheet.children component) component p
    return (p.replaceWith component rule).count fun c => { c with components := c.components + 1 }

/-- Lowers a component that is still attached. -/
def lowerAttached (cx : Context) (p : Progress) (component : NodeId) (ns : Option String) :
    Run Progress := do
  if ← isAttached? clock p.sheet component then lowerComponent clock cx p component ns
  else return p

/-! ## Namespaces -/

/-- Puts the last child of a block behind the block, until it has none. -/
def unwrapChildren (container block : NodeId) : Nat → Progress → Run Progress
  | 0, _ => none
  | clock + 1, p =>
    match (p.sheet.children block).getLast? with
    | some child => do
      let p ← insertAfter clock p container block child
      unwrapChildren container block clock p
    | none => return p

/-- Puts the children of a block in its place. -/
def unwrapBlock (p : Progress) (block : NodeId) : Run Progress :=
  match p.sheet.parent block with
  | some container => do
    let p ← unwrapChildren container block clock p
    return p.remove block
  | none => return p.remove block

/-- Lowers the components in a block that are still attached. -/
def lowerBlock (cx : Context) (p : Progress) (block : NodeId) (ns : String) : Run Progress := do
  (← find? clock cx p.sheet block .component).foldlM (fun p component =>
    lowerAttached clock cx p component (some ns)) p

/-- Notes the namespace of an input, or lowers the components in a block and unwraps it. -/
def lowerNamespace (cx : Context) (state : NamespaceMap × Progress) (atRule : NodeId) :
    Run (NamespaceMap × Progress) := do
  let (map, p) := state
  let ns := p.sheet.params atRule
  let counted := p.count fun c => { c with namespaces := c.namespaces + 1 }
  if !(← isAttached? clock p.sheet atRule) then return state
  else if (p.sheet.content atRule).hasBody then do
    let p ← lowerBlock clock cx counted atRule ns
    return (map, ← unwrapBlock clock p atRule)
  else
    let map := match p.sheet.sourceName? atRule with
      | some source => map.insert source ns
      | none => map
    return (map, counted.remove atRule)

/-- Lowers the namespaces of the sheet, and gives those of whole inputs back. -/
def lowerNamespaces (cx : Context) (p : Progress) : Run (NamespaceMap × Progress) := do
  let atRules ← find? clock cx p.sheet Sheet.root .componentNamespace
  atRules.foldlM (lowerNamespace clock cx) ({}, p)

/-- Lowers the components of the sheet. -/
def lowerComponents (cx : Context) (map : NamespaceMap) (default : Option String) (p : Progress) :
    Run Progress := do
  (← find? clock cx p.sheet Sheet.root .component).foldlM (fun p component =>
    lowerAttached clock cx p component (namespaceOf p.sheet map default component)) p

/-! ## Utilities and states -/

/-- Puts a rule in the place of a utility. -/
def lowerUtility (p : Progress) (utility : NodeId) : Run Progress := do
  let items := utilityItems (p.sheet.params utility)
  if !(← isAttached? clock p.sheet utility) then return p
  else if items.isEmpty then .of (p.stop utility noNames)
  else do
    let p ← .of ((items.flatMap utilityWarnings).foldlM (·.warn utility ·) p)
    let (rule, p) := p.createRule (joinComma (items.map utilitySelector)) utility
    let p ← moveChildren clock p utility rule
    return (p.replaceWith utility rule).count fun c => { c with utilities := c.utilities + 1 }

/-- Lowers the utilities of the sheet. -/
def lowerUtilities (cx : Context) (p : Progress) : Run Progress := do
  (← find? clock cx p.sheet Sheet.root .utility).foldlM (lowerUtility clock) p

/-- Puts a rule behind the one that a state stands in. -/
def lowerState (cx : Context) (state : List (NodeId × NodeId) × Progress) (atRule : NodeId) :
    Run (List (NodeId × NodeId) × Progress) := do
  let (emitted, p) := state
  if !(← isAttached? clock p.sheet atRule) then return state
  else match enclosingRule? p.sheet atRule with
    | none => .of (p.stop atRule notInRule)
    | some (parent, container) => do
      let selector := stateSelector cx.convention (p.sheet.selector parent) (p.sheet.params atRule)
      let (rule, p) := p.createRule selector atRule
      let p ← moveChildren clock p atRule rule
      let p ← insertAfter clock p container (stateAnchor emitted p.sheet parent container) rule
      return ((parent, rule) :: emitted,
        (p.remove atRule).count fun c => { c with states := c.states + 1 })

/-- Lowers the states of the sheet. -/
def lowerStates (cx : Context) (p : Progress) : Run Progress := do
  let (_, p) ← (← find? clock cx p.sheet Sheet.root .when).foldlM (lowerState clock cx) ([], p)
  return p

/-- Lowers the utilities of a sheet, then its namespaces, components and states. -/
def transform (s : Sheet) (o : Options) : Run Progress := do
  let cx := Context.ofOptions o
  let p : Progress := { sheet := s }
  let p ← if cx.convention.rewritesUtilities then lowerUtilities clock cx p else pure p
  let (map, p) ← lowerNamespaces clock cx p
  let p ← lowerComponents clock cx map o.defaultNamespace p
  if cx.convention.rewritesStates then lowerStates clock cx p else pure p

end ClassRules.Clocked
