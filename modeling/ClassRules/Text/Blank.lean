import ClassRules.Text.CodeRange

/-!
# White space

Which characters separate tokens and items, and the removal of such characters from the ends of a
text.

## What this module delivers

- `isBlank`: the White_Space property.
- `trimStart`, `trimEnd`, `trim`: a text without the white space at one end or at both.
- `isBlank_of_isWhitespace`: what the core library counts as white space is among it.
-/

set_option autoImplicit false

namespace ClassRules.Text

/-- The code points with the White_Space property. -/
def blankRanges : List CodeRange := [
  (0x9, 0xd), (0x20, 0x20), (0x85, 0x85), (0xa0, 0xa0), (0x1680, 0x1680), (0x2000, 0x200a),
  (0x2028, 0x2029), (0x202f, 0x202f), (0x205f, 0x205f), (0x3000, 0x3000)]

/-- Whether a character has the White_Space property. -/
def isBlank (c : Char) : Bool :=
  CodeRange.covers blankRanges c.toNat

/-- What is left after the leading white space. -/
def trimStart (cs : List Char) : List Char :=
  cs.dropWhile isBlank

/-- What is left before the trailing white space. -/
def trimEnd : List Char → List Char
  | [] => []
  | c :: cs =>
    match trimEnd cs with
    | [] => if isBlank c then [] else [c]
    | kept => c :: kept

/-- A text without the white space at its two ends. -/
def trim (cs : List Char) : List Char :=
  trimEnd (trimStart cs)

/-- A character that the core library counts as white space is blank. -/
theorem isBlank_of_isWhitespace {c : Char} (h : c.isWhitespace = true) : isBlank c = true := by
  simp only [Char.isWhitespace, Bool.or_eq_true, decide_eq_true_eq] at h
  rcases h with ((rfl | rfl) | rfl) | rfl <;> decide

end ClassRules.Text
