import ClassRules.Text.Printable

/-!
# Quoted text

A text between quotes in which every character can be seen.

## What this module delivers

- `shown`: the written form of a character: itself, a short escape, or its number in braces.
- `quoted`: a text in that form between quotes.
-/

set_option autoImplicit false

namespace ClassRules.Text

/-- The written form of a character between quotes. Characters that do not show on their own are
given by number. -/
def shown (c : Char) : List Char :=
  match c with
  | '\x00' => ['\\', '0']
  | '\t' => ['\\', 't']
  | '\r' => ['\\', 'r']
  | '\n' => ['\\', 'n']
  | '\\' => ['\\', '\\']
  | '"' => ['\\', '"']
  | c =>
    if extendsGrapheme c || !isPrintable c then
      '\\' :: 'u' :: '{' :: Nat.toDigits 16 c.toNat ++ ['}']
    else [c]

/-- A text between quotes. -/
def quoted (s : String) : String :=
  "\"" ++ String.ofList (s.toList.flatMap shown) ++ "\""

end ClassRules.Text
