import ClassRules.Text.Blank

/-!
# Lists of items

Selectors and params are lists of items, set apart by commas or by white space.

## What this module delivers

- `ItemList.Scan`: what is known of the text before a character: the open quote, the open
  parentheses, and whether a backslash stands right before.
- `ItemList.pieces`: the pieces of a text between the separators that lie outside quotes and
  parentheses.
- `splitComma`, `splitSpace`: the pieces without the white space at their ends, the empty ones left
  out.
-/

set_option autoImplicit false

namespace ClassRules

open Text

namespace ItemList

/-- What a scan knows of the text that it has passed. -/
structure Scan where
  quote : Option Char := none
  depth : Nat := 0
  escaped : Bool := false
  deriving DecidableEq, Repr

namespace Scan

/-- What is known behind the character `c`. A backslash takes the next character out of
consideration, and a quote all characters up to the same mark. -/
def after (s : Scan) (c : Char) : Scan :=
  if s.escaped then { s with escaped := false }
  else if c = '\\' then { s with escaped := true }
  else match s.quote with
    -- Between quotes neither the other mark nor parentheses mean anything.
    | some mark => if c = mark then { s with quote := none } else s
    | none =>
      if c = '"' ∨ c = '\'' then { s with quote := some c }
      else if c = '(' then { s with depth := s.depth + 1 }
      -- One that closes nothing leaves the depth at zero.
      else if c = ')' then { s with depth := s.depth - 1 }
      else s

/-- Whether a separator counts here. -/
def atTop (s : Scan) : Bool :=
  !s.escaped && s.quote.isNone && s.depth == 0

end Scan

/-- Puts a character before the first piece. -/
def consFirst (c : Char) : List (List Char) → List (List Char)
  | [] => [[c]]
  | piece :: pieces => (c :: piece) :: pieces

/-- The pieces of a text between the separators that count. Backslashes, quotes and parentheses are
no separators. -/
def pieces (isSeparator : Char → Bool) (s : Scan) : List Char → List (List Char)
  | [] => [[]]
  | c :: cs =>
    if s.atTop && isSeparator c then [] :: pieces isSeparator s cs
    else consFirst c (pieces isSeparator (s.after c) cs)

/-- The items of a text: its pieces without the white space at their ends, if anything is left. -/
def split (isSeparator : Char → Bool) (text : String) : List String :=
  (((pieces isSeparator {} text.toList).map trim).filter (!·.isEmpty)).map String.ofList

end ItemList

/-- The items of a text that are set apart by commas. -/
def splitComma (text : String) : List String :=
  ItemList.split (· == ',') text

/-- The items of a text that are set apart by white space. -/
def splitSpace (text : String) : List String :=
  ItemList.split isBlank text

/-- The text of a list of items. -/
def joinComma (items : List String) : String :=
  ", ".intercalate items

end ClassRules
