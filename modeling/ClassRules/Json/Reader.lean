import ClassRules.Json.Number
import ClassRules.Text.Slice

/-!
# Reading JSON

The value of a JSON text, or the first place where the text stops being one.

## What this module delivers

- `Json.Fault`: what is wrong with a text, and the line and column, counted from one and in bytes,
  up to which it was looked at.
- `Json.read`: the value of a whole text. Blanks may stand around every value and mark. Of two
  fields of an object with one name the later counts. Arrays and objects may stand at most 127 deep
  in one another.
-/

set_option autoImplicit false

namespace ClassRules.Json

/-- What is wrong with a text. -/
inductive Fault.Cause where
  | endInArray
  | endInObject
  | endInString
  | endInValue
  | expectedColon
  | expectedArrayMark
  | expectedObjectMark
  | expectedLiteral
  | expectedValue
  | expectedName
  | invalidEscape
  | invalidNumber
  | loneSurrogate
  | brokenSurrogatePair
  | controlCharacter
  | numberOutOfRange
  | trailingComma
  | trailingCharacters
  | tooDeep
  deriving DecidableEq, Repr

/-- The words for a cause. -/
def Fault.Cause.message : Fault.Cause → String
  | .endInArray => "EOF while parsing a list"
  | .endInObject => "EOF while parsing an object"
  | .endInString => "EOF while parsing a string"
  | .endInValue => "EOF while parsing a value"
  | .expectedColon => "expected `:`"
  | .expectedArrayMark => "expected `,` or `]`"
  | .expectedObjectMark => "expected `,` or `\x7d`"
  | .expectedLiteral => "expected ident"
  | .expectedValue => "expected value"
  | .expectedName => "key must be a string"
  | .invalidEscape => "invalid escape"
  | .invalidNumber => "invalid number"
  | .loneSurrogate => "lone leading surrogate in hex escape"
  | .brokenSurrogatePair => "unexpected end of hex escape"
  | .controlCharacter => "control character (\\u0000-\\u001F) found while parsing a string"
  | .numberOutOfRange => "number out of range"
  | .trailingComma => "trailing comma"
  | .trailingCharacters => "trailing characters"
  | .tooDeep => "recursion limit exceeded"

/-- A fault of a text and where it was found. -/
structure Fault where
  cause : Fault.Cause
  line : Nat
  column : Nat
  deriving DecidableEq, Repr

/-- The words for a fault and its place. -/
def Fault.message (f : Fault) : String :=
  f.cause.message ++ " at line " ++ toString f.line ++ " column " ++ toString f.column

/-- Where reading stopped: the text left over, and how many of its bytes were looked at. -/
structure Halt where
  cause : Fault.Cause
  rest : List Char
  seen : Nat

/-- What was read, and the text behind it. -/
abbrev Reading (α : Type) := α × List Char

namespace Reader

/-- Stops before the text that is left. -/
def stopAt {α : Type} (cause : Fault.Cause) (rest : List Char) : Except Halt α :=
  .error ⟨cause, rest, 0⟩

/-- Stops after a look at the next byte. -/
def stopAfter {α : Type} (cause : Fault.Cause) (rest : List Char) : Except Halt α :=
  .error ⟨cause, rest, 1⟩

/-- The text behind leading blanks. -/
def skipBlanks (cs : List Char) : List Char :=
  cs.dropWhile fun c => c == ' ' || c == '\n' || c == '\t' || c == '\r'

/-- Reads the rest of a literal of which the first letter has been read. -/
def literal (value : Json) : List Char → List Char → Except Halt (Reading Json)
  | [], cs => .ok (value, cs)
  | _ :: _, [] => stopAt .endInValue []
  | expected :: more, c :: cs =>
    if c = expected then literal value more cs else stopAfter .expectedLiteral (c :: cs)

/-! ## Strings -/

/-- The number that four hexadecimal digits stand for. -/
def hexValue? (digits : List Char) : Option Nat :=
  digits.foldlM (fun n c =>
    if c.isDigit then some (16 * n + (c.toNat - 48))
    else if 'a' ≤ c ∧ c ≤ 'f' then some (16 * n + (c.toNat - 87))
    else if 'A' ≤ c ∧ c ≤ 'F' then some (16 * n + (c.toNat - 55))
    else none) 0

/-- The character of an escape that is one letter. -/
def shortEscape? : Char → Option Char
  | '"' => some '"'
  | '\\' => some '\\'
  | '/' => some '/'
  | 'b' => some '\x08'
  | 'f' => some '\x0c'
  | 'n' => some '\n'
  | 'r' => some '\r'
  | 't' => some '\t'
  | _ => none

/-- The fault of an escape by number that `rest` does not complete. -/
def hexFault {α : Type} (rest : List Char) : Except Halt α :=
  if Text.byteLength rest < 4 then stopAt .endInString [] else .error ⟨.invalidEscape, rest, 4⟩

/-- Reads the four hexadecimal digits of an escape. -/
def hexEscape (cs : List Char) : Except Halt (Reading Nat) :=
  match hexValue? (cs.take 4) with
  | some n => if (cs.take 4).length = 4 then .ok (n, cs.drop 4) else hexFault cs
  | none => hexFault cs

/-- Reads what follows a backslash and a `u`. A number from the range of leading surrogates needs
an escape from the range of trailing ones behind it. -/
def numberedEscape (cs : List Char) : Except Halt (Reading Char) := do
  let (lead, cs) ← hexEscape cs
  if 0xDC00 ≤ lead ∧ lead ≤ 0xDFFF then stopAt .loneSurrogate cs
  else if lead < 0xD800 ∨ 0xDBFF < lead then .ok (Char.ofNat lead, cs)
  else match cs with
    | [] => stopAt .endInString []
    | '\\' :: [] => stopAt .endInString []
    | '\\' :: 'u' :: cs =>
      let (trail, cs) ← hexEscape cs
      if trail < 0xDC00 ∨ 0xDFFF < trail then stopAt .loneSurrogate cs
      else .ok (Char.ofNat ((lead - 0xD800) * 0x400 + (trail - 0xDC00) + 0x10000), cs)
    | '\\' :: c :: cs => stopAfter .brokenSurrogatePair (c :: cs)
    | c :: cs => stopAfter .brokenSurrogatePair (c :: cs)

/-- Reads the rest of a string of which the opening quote and `before`, in reverse, have been
read. -/
def string : Nat → List Char → List Char → Except Halt (Reading String)
  | 0, _, cs => stopAt .endInString cs
  | _ + 1, _, [] => stopAt .endInString []
  | _ + 1, before, '"' :: cs => .ok (String.ofList before.reverse, cs)
  | _ + 1, _, ['\\'] => stopAt .endInString []
  | fuel + 1, before, '\\' :: 'u' :: cs => do
    let (c, cs) ← numberedEscape cs
    string fuel (c :: before) cs
  | fuel + 1, before, '\\' :: c :: cs =>
    match shortEscape? c with
    | some e => string fuel (e :: before) cs
    | none => stopAfter .invalidEscape (c :: cs)
  | fuel + 1, before, c :: cs =>
    if c.toNat < 0x20 then stopAfter .controlCharacter (c :: cs)
    else string fuel (c :: before) cs

/-! ## Numbers -/

/-- The largest significand that is kept whole. -/
def significandLimit : Nat := Nat.pow 2 64 - 1

/-- Reads digits onto the significand `n` as long as it stays within the limit, and counts them. -/
def digits (n count : Nat) : List Char → Nat × Nat × List Char
  | [] => (n, count, [])
  | c :: cs =>
    let m := 10 * n + (c.toNat - 48)
    if c.isDigit ∧ m ≤ significandLimit then digits m (count + 1) cs else (n, count, c :: cs)

/-- Whether a text starts with a digit. -/
def startsWithDigit (cs : List Char) : Bool :=
  cs.head?.any Char.isDigit

/-- Gives the number its sign. -/
def signed (negative : Bool) (x : Float) : Json :=
  .float (if negative then -x else x)

/-- The number with the given significand and exponent, if it is in range. -/
def scaled (negative : Bool) (significand : Nat) (exponent : Int) (cs : List Char) :
    Except Halt (Reading Json) :=
  match scaled? significand exponent with
  | some x => .ok (signed negative x, cs)
  | none => stopAt .numberOutOfRange cs

/-- The largest exponent that is read digit by digit. -/
def exponentLimit : Nat := Nat.pow 2 31 - 1

/-- Reads digits onto the exponent `n`. The flag says that the limit was passed; the last digit
read is then the one that passed it. -/
def exponentDigits (n : Nat) : List Char → Nat × Bool × List Char
  | [] => (n, false, [])
  | c :: cs =>
    if c.isDigit then
      let m := 10 * n + (c.toNat - 48)
      if m ≤ exponentLimit then exponentDigits m cs else (n, true, cs)
    else (n, false, c :: cs)

/-- Reads an exponent of which the letter has been read. -/
def exponent (negative : Bool) (significand : Nat) (start : Int) (cs : List Char) :
    Except Halt (Reading Json) :=
  let (down, cs) := match cs with
    | '+' :: cs => (false, cs)
    | '-' :: cs => (true, cs)
    | cs => (false, cs)
  if cs = [] then stopAt .endInValue []
  else if !startsWithDigit cs then stopAfter .invalidNumber cs
  else
    match exponentDigits 0 cs with
    | (n, false, cs) => scaled negative significand (if down then start - n else start + n) cs
    | (_, true, cs) =>
      -- With such an exponent a number is zero or out of range.
      if significand ≠ 0 ∧ !down then stopAt .numberOutOfRange cs
      else .ok (signed negative 0, cs.dropWhile Char.isDigit)

/-- Reads the exponent, if one follows. -/
def exponentOrEnd (negative : Bool) (significand : Nat) (start : Int) (cs : List Char) :
    Except Halt (Reading Json) :=
  match cs with
  | 'e' :: cs | 'E' :: cs => exponent negative significand start cs
  | cs => scaled negative significand start cs

/-- Reads a fraction of which the point has been read. Digits that the significand has no room for
are skipped. -/
def fraction (negative : Bool) (significand : Nat) (start : Int) (cs : List Char) :
    Except Halt (Reading Json) :=
  let (significand, count, rest) := digits significand 0 cs
  if startsWithDigit rest then
    exponentOrEnd negative significand (start - count) (rest.dropWhile Char.isDigit)
  else if count = 0 then
    if rest = [] then stopAt .endInValue [] else stopAfter .invalidNumber rest
  else exponentOrEnd negative significand (start - count) rest

/-- The whole number with the given sign and size. Zero with a sign, and a negative number beyond
the range of 64 bits, are not kept as whole numbers. -/
def whole (negative : Bool) (n : Nat) : Json :=
  if !negative then .integer n
  else if 0 < n ∧ n ≤ Nat.pow 2 63 then .integer (-(n : Int))
  else .float (-(Float.ofNat n))

/-- Reads what may follow the whole part of a number. -/
def afterWhole (negative : Bool) (n : Nat) (cs : List Char) : Except Halt (Reading Json) :=
  match cs with
  | '.' :: cs => fraction negative n 0 cs
  | 'e' :: cs | 'E' :: cs => exponent negative n 0 cs
  | cs => .ok (whole negative n, cs)

/-- Reads a number of which the sign has been read. A whole part beyond the limit loses its last
digits to the exponent. -/
def number (negative : Bool) (cs : List Char) : Except Halt (Reading Json) :=
  match cs with
  | [] => stopAt .endInValue []
  | '0' :: cs =>
    -- Nothing but a zero starts with a zero.
    if startsWithDigit cs then stopAfter .invalidNumber cs else afterWhole negative 0 cs
  | c :: cs =>
    if !c.isDigit then stopAfter .invalidNumber (c :: cs)
    else
      let (n, _, rest) := digits 0 0 (c :: cs)
      if startsWithDigit rest then
        let skipped := (rest.takeWhile Char.isDigit).length
        match rest.dropWhile Char.isDigit with
        | '.' :: cs => fraction negative n skipped cs
        | cs => exponentOrEnd negative n skipped cs
      else afterWhole negative n rest

/-! ## Values -/

mutual

/-- Reads a value. `depth` is one more than the number of levels that may still be opened. -/
def value (fuel depth : Nat) (cs : List Char) : Except Halt (Reading Json) :=
  match fuel with
  | 0 => stopAt .tooDeep cs
  | fuel + 1 =>
    match skipBlanks cs with
    | [] => stopAt .endInValue []
    | 'n' :: cs => literal .null ['u', 'l', 'l'] cs
    | 't' :: cs => literal (.boolean true) ['r', 'u', 'e'] cs
    | 'f' :: cs => literal (.boolean false) ['a', 'l', 's', 'e'] cs
    | '-' :: cs => number true cs
    | '"' :: cs => do
      let (s, cs) ← string (cs.length + 1) [] cs
      .ok (.string s, cs)
    | '[' :: cs =>
      if depth ≤ 1 then stopAfter .tooDeep ('[' :: cs)
      else do
        let (items, cs) ← items fuel (depth - 1) [] cs
        .ok (.array items, cs)
    | '{' :: cs =>
      if depth ≤ 1 then stopAfter .tooDeep ('{' :: cs)
      else do
        let (fields, cs) ← fields fuel (depth - 1) [] true cs
        .ok (.object fields, cs)
    | c :: cs =>
      if c.isDigit then number false (c :: cs) else stopAfter .expectedValue (c :: cs)

/-- Reads the rest of an array. `before` holds the items read, in reverse. -/
def items (fuel depth : Nat) (before : List Json) (cs : List Char) :
    Except Halt (Reading (List Json)) :=
  match fuel with
  | 0 => stopAt .tooDeep cs
  | fuel + 1 =>
    match skipBlanks cs with
    | [] => stopAt .endInArray []
    | ']' :: cs => .ok (before.reverse, cs)
    | c :: cs => do
      let cs ← if before.isEmpty then .ok (c :: cs)
        else if c = ',' then
          match skipBlanks cs with
          | [] => stopAt .endInValue []
          | ']' :: cs => stopAfter .trailingComma (']' :: cs)
          | cs => .ok cs
        else stopAfter .expectedArrayMark (c :: cs)
      let (item, cs) ← value fuel depth cs
      items fuel depth (item :: before) cs

/-- Reads the rest of an object onto the fields read before. -/
def fields (fuel depth : Nat) (before : List (String × Json)) (first : Bool) (cs : List Char) :
    Except Halt (Reading (List (String × Json))) :=
  match fuel with
  | 0 => stopAt .tooDeep cs
  | fuel + 1 =>
    match skipBlanks cs with
    | [] => stopAt .endInObject []
    | '}' :: cs => .ok (before, cs)
    | c :: cs => do
      let cs ← if first then .ok (c :: cs)
        else if c = ',' then
          match skipBlanks cs with
          | [] => stopAt .endInValue []
          | '}' :: cs => stopAfter .trailingComma ('}' :: cs)
          | cs => .ok cs
        else stopAfter .expectedObjectMark (c :: cs)
      match cs with
      | '"' :: cs =>
        let (name, cs) ← string (cs.length + 1) [] cs
        match skipBlanks cs with
        | [] => stopAt .endInObject []
        | ':' :: cs =>
          let (item, cs) ← value fuel depth cs
          fields fuel depth (KeyedList.insert name item before) false cs
        | cs => stopAfter .expectedColon cs
      | cs => stopAfter .expectedName cs

end

/-- Reads a value with only blanks behind it. -/
def whole? (cs : List Char) : Except Halt Json := do
  -- No character costs more than two units of fuel.
  let (result, cs) ← value (2 * cs.length + 2) 128 cs
  match skipBlanks cs with
  | [] => .ok result
  | cs => stopAfter .trailingCharacters cs

/-- The line and column of the place behind the first `index` bytes of a text. -/
def lineColumn (line column : Nat) : Nat → List Char → Nat × Nat
  | 0, _ => (line, column)
  | index, [] => (line, column + index)
  | index, c :: cs =>
    if index < c.utf8Size then (line, column + index)
    else if c = '\n' then lineColumn (line + 1) 0 (index - 1) cs
    else lineColumn line (column + c.utf8Size) (index - c.utf8Size) cs

end Reader

/-- The value of a JSON text. -/
def read (text : String) : Except Fault Json :=
  let cs := text.toList
  match Reader.whole? cs with
  | .ok value => .ok value
  | .error halt =>
    let size := Text.byteLength cs
    let index := min size (size - Text.byteLength halt.rest + halt.seen)
    let (line, column) := Reader.lineColumn 1 0 index cs
    .error ⟨halt.cause, line, column⟩

end ClassRules.Json
