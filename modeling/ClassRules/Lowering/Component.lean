import ClassRules.Lowering.Progress

/-!
# Components

`@component Name` becomes the rule `.Name`. The modifiers and descendents in it become rules of
their own right behind it, each with the class of the one that it stood in and its own name; those
in them follow in turn.

## What this module delivers

- `distribute`: goes through the children of an at-rule and either lowers them or moves them.
- `lowerNested`: lowers a modifier or descendent and all those in it.
- `lowerComponent`: the same for a component, in a namespace.
-/

set_option autoImplicit false

namespace ClassRules.Lowering

/-- The namespace of a component by its name. An empty namespace is none. -/
def Context.componentName (cx : Context) (ns : Option String) (name : String) : String :=
  match ns with
  | none | some "" => name
  | some ns => cx.convention.joinNamespace ns name

/-- Goes through `children`. An at-rule is given to `lower` along with the rule that the next one
is to follow; if nothing comes of that, and for all other children, the child is moved to `rule`.
The last rule put behind is given back. -/
def distribute (lower : Progress → NodeId → NodeId → Except Stopped (Option NodeId × Progress))
    (rule : NodeId) (children : List NodeId) (last : NodeId) (p : Progress) :
    Except Stopped (NodeId × Progress) :=
  children.foldlM (fun (last, p) child => do
    let (lowered, p) ←
      if p.sheet.kind child = .atRule then lower p child last else .ok (none, p)
    match lowered with
    | some inserted => return (inserted, p)
    | none => return (last, ← p.append rule child)) (last, p)

/-- The class of a modifier or descendent under the class of its parent, and the run with the new
count. An at-rule that is both is a modifier. -/
def nestedName? (cx : Context) (p : Progress) (parentClass : String) (atRule : NodeId) :
    Option (String × Progress) :=
  let params := p.sheet.params atRule
  if cx.isA p.sheet .modifier atRule then
    some (cx.convention.joinModifier parentClass params,
      p.count fun c => { c with modifiers := c.modifiers + 1 })
  else if cx.isA p.sheet .descendent atRule then
    some (cx.convention.joinDescendent parentClass params,
      p.count fun c => { c with descendents := c.descendents + 1 })
  else none

/-- Lowers a modifier or descendent that stands in what has the class `parentClass`, with those in
it down to `fuel` levels. The rules come to stand behind `after` among the children of
`container`; the last of them is given back, or nothing for another node. -/
def lowerNestedTo (cx : Context) (container : NodeId) :
    Nat → String → Progress → NodeId → NodeId → Except Stopped (Option NodeId × Progress)
  | 0, _, p, _, _ => .ok (none, p)
  | fuel + 1, parentClass, p, atRule, after =>
    match nestedName? cx p parentClass atRule with
    | none => .ok (none, p)
    | some (name, p) => do
      let (rule, p) := p.createRule ("." ++ name) atRule
      -- The rule stands beside the one of its parent, so those in it can follow it in turn.
      let p ← p.insertAfter container after rule
      let (last, p) ← distribute (lowerNestedTo cx container fuel name) rule
        (p.sheet.children atRule) rule p
      return (some last, p.remove atRule)

/-- Lowers a modifier or descendent with all those in it. None stands deeper than the sheet has
nodes. -/
def lowerNested (cx : Context) (container : NodeId) (parentClass : String) (p : Progress)
    (atRule after : NodeId) : Except Stopped (Option NodeId × Progress) :=
  lowerNestedTo cx container p.sheet.nodes.size parentClass p atRule after

/-- Puts a rule in the place of a component, with the rules for its modifiers and descendents
behind it. A component without a parent stays. -/
def lowerComponent (cx : Context) (p : Progress) (component : NodeId) (ns : Option String) :
    Except Stopped Progress :=
  match p.sheet.parent component with
  | none => .ok p
  | some container => do
    let name := cx.componentName ns (p.sheet.params component)
    let (rule, p) := p.createRule ("." ++ name) component
    -- The component holds the place until its rule is complete.
    let (_, p) ← distribute (lowerNested cx container name) rule
      (p.sheet.children component) component p
    return (p.replaceWith component rule).count fun c => { c with components := c.components + 1 }

end ClassRules.Lowering
