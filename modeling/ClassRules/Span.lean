/-!
# Positions and spans

Places in a source text and the ranges between them.

## What this module delivers

- `Position`: a place between two characters, by byte offset, line and column, all from zero.
- `Position.after`, `Position.afterAll`: the place behind one character, and behind a text.
- `Position.isCountable`: whether the line and the column can be counted from one.
- `Span`: the range from one position to another, with its length, membership, and `Span.merge`, the
  least range over two.
-/

set_option autoImplicit false

namespace ClassRules

/-- A place in a text: the bytes before it in UTF-8, the line breaks before it, and the characters
between the last of those and it. -/
structure Position where
  byte : Nat
  line : Nat
  column : Nat
  deriving DecidableEq, Repr, Inhabited

namespace Position

/-- The place before the first character. -/
def start : Position := ⟨0, 0, 0⟩

/-- The place behind the character `c` that stands at `p`. Only a line feed starts a line. -/
def after (p : Position) (c : Char) : Position :=
  if c = '\n' then ⟨p.byte + 1, p.line + 1, 0⟩ else ⟨p.byte + c.utf8Size, p.line, p.column + 1⟩

/-- The place behind the text `cs` that stands at `p`. -/
def afterAll (p : Position) (cs : List Char) : Position :=
  cs.foldl after p

/-- The largest number that lines and columns are given, in 64 bits. -/
def largestCount : Nat := Nat.pow 2 64 - 1

/-- Whether the line and the column still have a number when they are counted from one. -/
def isCountable (p : Position) : Bool :=
  p.line < largestCount && p.column < largestCount

@[simp] theorem afterAll_nil (p : Position) : p.afterAll [] = p := rfl

@[simp] theorem afterAll_cons (p : Position) (c : Char) (cs : List Char) :
    p.afterAll (c :: cs) = (p.after c).afterAll cs := rfl

theorem afterAll_append (p : Position) (cs ds : List Char) :
    p.afterAll (cs ++ ds) = (p.afterAll cs).afterAll ds :=
  List.foldl_append

end Position

/-- The range of a text between two positions. -/
structure Span where
  start : Position
  stop : Position
  deriving DecidableEq, Repr, Inhabited

namespace Span

/-- The span between two byte offsets of a text that has one line of one-byte characters. -/
def ofBytes (start stop : Nat) : Span :=
  ⟨⟨start, 0, start⟩, ⟨stop, 0, stop⟩⟩

/-- The empty span before the first character. -/
def zero : Span := ofBytes 0 0

/-- The number of bytes; none if the span ends before it starts. -/
def length (s : Span) : Nat :=
  s.stop.byte - s.start.byte

/-- Whether the span holds no byte. -/
def isEmpty (s : Span) : Bool :=
  s.stop.byte ≤ s.start.byte

/-- Whether the byte at `offset` lies in the span. -/
def contains (s : Span) (offset : Nat) : Bool :=
  s.start.byte ≤ offset && offset < s.stop.byte

/-- The earlier start and the later end of two spans. Of equal offsets the first span's position
is taken. -/
def merge (s t : Span) : Span where
  start := if t.start.byte < s.start.byte then t.start else s.start
  stop := if s.stop.byte < t.stop.byte then t.stop else s.stop

end Span

end ClassRules
