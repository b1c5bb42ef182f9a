import ClassRules.Tree

/-!
# Printing

The normal text of trees: one node per line, the contents of a block indented by two spaces.

## What this module delivers

- `Tree.render`: the text of a tree at a given depth.
- `Tree.renderForest`: the texts of several trees, a line break between any two.
-/

set_option autoImplicit false

namespace ClassRules.Tree

/-- The blanks before a line at the given depth. -/
def indent (depth : Nat) : String :=
  String.ofList (List.replicate (2 * depth) ' ')

/-- The text of an at-rule before its block or its semicolon. -/
def atRuleHead (name params : String) : String :=
  "@" ++ name ++ if params = "" then "" else " " ++ params

/-- The block that holds nodes with the given text. -/
def block (depth : Nat) (isEmpty : Bool) (text : String) : String :=
  if isEmpty then " \x7b\x7d" else " \x7b\n" ++ text ++ "\n" ++ indent depth ++ "\x7d"

mutual

/-- The text of a tree whose lines are indented by `depth`. -/
def render (depth : Nat) : Tree → String
  | node .root _ children => renderForest depth children
  | node (.rule selector) _ children =>
    indent depth ++ selector ++
      block depth children.isEmpty (renderForest (depth + 1) children)
  | node (.atRule name params body) _ children =>
    indent depth ++ atRuleHead name params ++
      if body || !children.isEmpty then
        block depth children.isEmpty (renderForest (depth + 1) children)
      else ";"
  | node (.declaration property value important) _ _ =>
    indent depth ++ property ++ ": " ++ value ++ (if important then " !important" else "") ++ ";"
  | node (.comment text) _ _ => indent depth ++ "/* " ++ text ++ " */"
termination_by structural t => t

/-- The texts of trees, a line break between any two. -/
def renderForest (depth : Nat) : List Tree → String
  | [] => ""
  | t :: ts => render depth t ++ if ts.isEmpty then "" else "\n" ++ renderForest depth ts
termination_by structural ts => ts

end

end ClassRules.Tree
