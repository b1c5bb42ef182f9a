import ClassRules.Source

/-!
# Diagnostics

What a run reports about the text that it works on.

## What this module delivers

- `Warning`: a remark that does not stop the run.
- `SyntaxFault`: a use of an at-rule that stops it.
- `Warning.text`, `SyntaxFault.text`: the message behind its location, if there is one.
-/

set_option autoImplicit false

namespace ClassRules

/-- A remark about a node. -/
structure Warning where
  message : String
  location : Option Location
  deriving DecidableEq, Repr

/-- The text of a warning. -/
def Warning.text (w : Warning) : String :=
  Location.prepend w.location w.message

/-- A wrong use of an at-rule. -/
structure SyntaxFault where
  reason : String
  location : Option Location
  deriving DecidableEq, Repr

/-- The text of a fault. -/
def SyntaxFault.text (f : SyntaxFault) : String :=
  Location.prepend f.location f.reason

end ClassRules
