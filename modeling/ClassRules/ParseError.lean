import ClassRules.Span

/-!
# Parse errors

What can be wrong with the text of a style sheet, and where.

## What this module delivers

- `ParseError.Cause`: the five faults of a text, and `ParseError.Cause.message`.
- `ParseError`: a cause with its span; `ParseError.message` adds the place, counted from one.
-/

set_option autoImplicit false

namespace ClassRules

/-- What is wrong with a text. -/
inductive ParseError.Cause where
  /-- A token stands where another was expected. -/
  | unexpectedToken (found expected : String)
  /-- A block is still open at the end of the text. -/
  | unclosedBlock
  /-- A statement without a block has no colon. -/
  | missingColon (text : String)
  /-- A string is still open at the end of its line. -/
  | unterminatedString
  /-- A comment is still open at the end of the text. -/
  | unterminatedComment
  deriving DecidableEq, Repr

/-- The words for a cause. -/
def ParseError.Cause.message : ParseError.Cause → String
  | .unexpectedToken found expected => "unexpected token '" ++ found ++ "', expected " ++ expected
  | .unclosedBlock => "unclosed block"
  | .missingColon text => "unknown word '" ++ text ++ "'"
  | .unterminatedString => "unterminated string literal"
  | .unterminatedComment => "unterminated comment"

/-- A fault of a text, and the span that it concerns. -/
structure ParseError where
  cause : ParseError.Cause
  span : Span
  deriving DecidableEq, Repr

/-- The words for an error: its cause, and the line and column where it starts, counted from
one. -/
def ParseError.message (e : ParseError) : String :=
  e.cause.message ++ " at " ++ toString (e.span.start.line + 1) ++ ":" ++
    toString (e.span.start.column + 1)

end ClassRules
