import ClassRules.Span

/-!
# Tokens

The pieces into which a style sheet's text falls. Selectors, params and values are taken from the
text between tokens, so only the punctuation that gives structure has kinds of its own.

## What this module delivers

- `Token.Kind`, `Token`.
- `Token.Kind.opensGroup`, `closesGroup`: parentheses and square brackets; braces are not among
  them.
-/

set_option autoImplicit false

namespace ClassRules

/-- What a token is. -/
inductive Token.Kind where
  | atKeyword
  | string
  | word
  | blank
  | comment
  | openBrace
  | closeBrace
  | openParen
  | closeParen
  | openBracket
  | closeBracket
  | semicolon
  | colon
  | comma
  /-- The mark behind the last character of a text. -/
  | stop
  deriving DecidableEq, Repr

/-- A piece of a text: its kind, its place, and its characters. -/
structure Token where
  kind : Token.Kind
  span : Span
  text : String
  deriving DecidableEq, Repr

namespace Token

/-- Whether the kind opens a group in which a semicolon ends nothing. -/
def Kind.opensGroup : Kind → Bool
  | .openParen | .openBracket => true
  | _ => false

/-- Whether the kind closes such a group. -/
def Kind.closesGroup : Kind → Bool
  | .closeParen | .closeBracket => true
  | _ => false

/-- The mark at the end of a text. -/
def stopAt (p : Position) : Token :=
  ⟨.stop, ⟨p, p⟩, ""⟩

end Token

end ClassRules
