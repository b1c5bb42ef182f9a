import ClassRules.Span
import ClassRules.Text.Alphanumeric
import ClassRules.Text.Blank

/-!
# Cursors

A walk through a text, character by character, that knows its place.

## What this module delivers

- `Cursor`: the characters that are left, and the position of the first of them.
- `Cursor.forward`: the cursor some characters further on; `advance`, `advanceWhile` are made of it.
- `Cursor.peek`, `peekNext`, `startsWith`, `atEnd`: looking ahead without moving.
-/

set_option autoImplicit false

namespace ClassRules

/-- The unread part of a text and where it starts. -/
structure Cursor where
  rest : List Char
  place : Position
  deriving DecidableEq, Repr

namespace Cursor

/-- The cursor before the first character of a text. -/
def ofText (text : String) : Cursor :=
  ⟨text.toList, .start⟩

/-- Whether nothing is left. -/
def atEnd (c : Cursor) : Bool :=
  c.rest.isEmpty

/-- The next character. -/
def peek (c : Cursor) : Option Char :=
  c.rest.head?

/-- The character after the next one. -/
def peekNext (c : Cursor) : Option Char :=
  c.rest[1]?

/-- Whether the unread part begins with `opening`. -/
def startsWith (c : Cursor) (opening : String) : Bool :=
  opening.toList.isPrefixOf c.rest

/-- The cursor behind the next `n` characters, or behind all that are left. -/
def forward (c : Cursor) (n : Nat) : Cursor :=
  ⟨c.rest.drop n, c.place.afterAll (c.rest.take n)⟩

/-- The cursor behind the next character. -/
def advance (c : Cursor) : Cursor :=
  c.forward 1

/-- The cursor behind the longest run of characters that satisfy `p`. -/
def advanceWhile (c : Cursor) (p : Char → Bool) : Cursor :=
  c.forward (c.rest.takeWhile p).length

theorem forward_rest_lt {c : Cursor} {n : Nat} (hn : 0 < n) (hc : c.rest ≠ []) :
    (c.forward n).rest.length < c.rest.length := by
  have := List.length_pos_iff.2 hc
  simp only [forward, List.length_drop]
  omega

end Cursor

end ClassRules
