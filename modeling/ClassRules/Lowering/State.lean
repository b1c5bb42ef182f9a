import ClassRules.ItemList
import ClassRules.Lowering.Progress

/-!
# States

`@when state, ...` in a rule becomes a rule behind that one. Its selector has each of the states on
each of the rule's own selectors.

## What this module delivers

- `stateSelector`: the selector of the new rule.
- `lowerState`, `lowerStates`: one at-rule, and all of them in document order.
-/

set_option autoImplicit false

namespace ClassRules.Lowering

/-- The reason to stop at a state that does not stand in a rule. -/
def notInRule : String := "@when can only be used in rules which are not the root node"

/-- Each state on each selector, all states of the first selector first. -/
def stateSelector (c : Convention) (selector params : String) : String :=
  joinComma ((splitComma selector).flatMap fun part =>
    (splitComma params).map fun state => c.joinState part state)

/-- The rule and its parent in which an at-rule stands directly. -/
def enclosingRule? (s : Sheet) (atRule : NodeId) : Option (NodeId × NodeId) := do
  let rule ← s.parent atRule
  if s.kind rule = .rule then
    let container ← s.parent rule
    return (rule, container)
  else none

/-- The node that the rule for a state in `parent` is to follow: the last one put behind `parent`,
as long as it stands beside it, or `parent` itself. -/
def stateAnchor (emitted : List (NodeId × NodeId)) (s : Sheet) (parent container : NodeId) :
    NodeId :=
  match emitted.lookup parent with
  | some previous => if s.parent previous = some container then previous else parent
  | none => parent

/-- Puts a rule behind the one that a state stands in. The state of the fold gives, for
rules that have had states, the last rule put behind them. -/
def lowerState (cx : Context) (state : List (NodeId × NodeId) × Progress) (atRule : NodeId) :
    Except Stopped (List (NodeId × NodeId) × Progress) :=
  let (emitted, p) := state
  if !p.sheet.isAttached atRule then .ok state
  else match enclosingRule? p.sheet atRule with
    | none => p.stop atRule notInRule
    | some (parent, container) => do
      let selector := stateSelector cx.convention (p.sheet.selector parent) (p.sheet.params atRule)
      let (rule, p) := p.createRule selector atRule
      -- States in this one move along and find the new rule above them in their turn.
      let p ← p.moveChildren atRule rule
      let p ← p.insertAfter container (stateAnchor emitted p.sheet parent container) rule
      return ((parent, rule) :: emitted,
        (p.remove atRule).count fun c => { c with states := c.states + 1 })

/-- Lowers the states of the sheet. -/
def lowerStates (cx : Context) (p : Progress) : Except Stopped Progress := do
  let (_, p) ← (cx.find p.sheet Sheet.root .when).foldlM (lowerState cx) ([], p)
  return p

end ClassRules.Lowering
