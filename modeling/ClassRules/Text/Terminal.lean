/-!
# Text for terminals

A terminal takes some control characters for the start of a command. A text of unknown origin is
shown to it with these characters given by number.

## What this module delivers

- `inert`: the shown form of a character.
- `terminalText`: a text in that form.
-/

set_option autoImplicit false

namespace ClassRules.Text

/-- The shown form of a character. Bell, backspace, form feed, escape, delete and the controls
beyond ASCII are given by number; all others, among them the remaining controls, stay. -/
def inert (c : Char) : List Char :=
  match c with
  | '\x07' => ['\\', 'x', '0', '7']
  | '\x08' => ['\\', 'x', '0', '8']
  | '\x0c' => ['\\', 'x', '0', 'c']
  | '\x1b' => ['\\', 'x', '1', 'b']
  | '\x7f' => ['\\', 'x', '7', 'f']
  | c =>
    if 0x80 ≤ c.toNat ∧ c.toNat ≤ 0x9f then
      '\\' :: 'u' :: '{' :: Nat.toDigits 16 c.toNat ++ ['}']
    else [c]

/-- A text that starts no command of a terminal. -/
def terminalText (s : String) : String :=
  String.ofList (s.toList.flatMap inert)

end ClassRules.Text
