/-!
# Contents of nodes

What a node of a style sheet says, apart from where it stands.

## What this module delivers

- `Content`: the five kinds of content.
- `Content.Kind`, `Content.kind`: the kind alone.
- `Content.name?`, `params?`, `selector?`, `hasBody`: the parts that only some kinds have.
-/

set_option autoImplicit false

namespace ClassRules

/-- What a node of a style sheet says. -/
inductive Content where
  /-- The whole sheet. -/
  | root
  /-- A selector with a block. -/
  | rule (selector : String)
  /-- An at-sign, a name and params, followed by a block if `body` is set. -/
  | atRule (name params : String) (body : Bool)
  /-- A property and its value. -/
  | declaration (property value : String) (important : Bool)
  /-- The text between the marks of a comment. -/
  | comment (text : String)
  deriving DecidableEq, Repr, Inhabited

/-- The kind of a content. -/
inductive Content.Kind where
  | root
  | rule
  | atRule
  | declaration
  | comment
  deriving DecidableEq, Repr

namespace Content

/-- What kind of content it is. -/
def kind : Content → Kind
  | .root => .root
  | .rule _ => .rule
  | .atRule .. => .atRule
  | .declaration .. => .declaration
  | .comment _ => .comment

/-- The name of an at-rule. -/
def name? : Content → Option String
  | .atRule name _ _ => some name
  | _ => none

/-- The params of an at-rule. -/
def params? : Content → Option String
  | .atRule _ params _ => some params
  | _ => none

/-- The selector of a rule. -/
def selector? : Content → Option String
  | .rule selector => some selector
  | _ => none

/-- Whether it is an at-rule with a body. -/
def hasBody : Content → Bool
  | .atRule _ _ body => body
  | _ => false

end Content

end ClassRules
