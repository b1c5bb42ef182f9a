import ClassRules.Json.Number

/-!
# Printing JSON

## What this module delivers

- `Json.quote`: a string between quotes, with escapes for quotes, backslashes and controls.
- `Json.compact`: a value on one line without spaces.
- `Json.pretty`: a value with one item per line, indented by two spaces per level.
-/

set_option autoImplicit false

namespace ClassRules.Json

/-- The written form of one character of a string. -/
def escape (c : Char) : List Char :=
  match c with
  | '"' => ['\\', '"']
  | '\\' => ['\\', '\\']
  | '\n' => ['\\', 'n']
  | '\r' => ['\\', 'r']
  | '\t' => ['\\', 't']
  | '\x08' => ['\\', 'b']
  | '\x0c' => ['\\', 'f']
  | c =>
    if c.toNat < 0x20 then
      ['\\', 'u', '0', '0', Nat.digitChar (c.toNat / 16), Nat.digitChar (c.toNat % 16)]
    else [c]

/-- A string between quotes. -/
def quote (s : String) : String :=
  "\"" ++ String.ofList (s.toList.flatMap escape) ++ "\""

/-- The text of a value that is neither an array nor an object. -/
def scalarText : Json → String
  | .null => "null"
  | .boolean b => if b then "true" else "false"
  | .integer n => toString n
  | .float x => floatText x
  | .string s => quote s
  | .array _ | .object _ => ""

mutual

/-- Adds the one-line text of a value to `out`. -/
def writeCompact (out : String) : Json → String
  | .array items => writeItems (out ++ "[") true items ++ "]"
  | .object fields => writeFields (out ++ "\x7b") true fields ++ "\x7d"
  | value => out ++ scalarText value

/-- Adds the items of an array, with a comma before each but the first. -/
def writeItems (out : String) (first : Bool) : List Json → String
  | [] => out
  | item :: items => writeItems (writeCompact (if first then out else out ++ ",") item) false items

/-- Adds the fields of an object, with a comma before each but the first. -/
def writeFields (out : String) (first : Bool) : List (String × Json) → String
  | [] => out
  | (name, value) :: fields =>
    writeFields (writeCompact ((if first then out else out ++ ",") ++ quote name ++ ":") value)
      false fields

end

/-- The text of a value on one line, without spaces. -/
def compact (value : Json) : String :=
  writeCompact "" value

/-- A line break, and two spaces for each level. -/
def lineBreak (level : Nat) : String :=
  String.ofList ('\n' :: List.replicate (2 * level) ' ')

mutual

/-- Adds the text of a value whose own line is indented by `level`. -/
def writePretty (level : Nat) (out : String) : Json → String
  | .array [] => out ++ "[]"
  | .array (item :: items) =>
    writePrettyItems level (writePretty (level + 1) (out ++ "[" ++ lineBreak (level + 1)) item)
      items ++ lineBreak level ++ "]"
  | .object [] => out ++ "\x7b\x7d"
  | .object ((name, value) :: fields) =>
    writePrettyFields level
      (writePretty (level + 1)
        (out ++ "\x7b" ++ lineBreak (level + 1) ++ quote name ++ ": ") value)
      fields ++ lineBreak level ++ "\x7d"
  | value => out ++ scalarText value

/-- Adds the later items of an array. -/
def writePrettyItems (level : Nat) (out : String) : List Json → String
  | [] => out
  | item :: items =>
    writePrettyItems level (writePretty (level + 1) (out ++ "," ++ lineBreak (level + 1)) item)
      items

/-- Adds the later fields of an object. -/
def writePrettyFields (level : Nat) (out : String) : List (String × Json) → String
  | [] => out
  | (name, value) :: fields =>
    writePrettyFields level
      (writePretty (level + 1) (out ++ "," ++ lineBreak (level + 1) ++ quote name ++ ": ") value)
      fields

end

/-- The text of a value with one item or field per line. -/
def pretty (value : Json) : String :=
  writePretty 0 "" value

end ClassRules.Json
