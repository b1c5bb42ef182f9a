/-!
# Slices by byte offsets

Offsets in a text count bytes in UTF-8. A slice exists only between two offsets that lie on
characters of the text.

## What this module delivers

- `byteLength`: the number of bytes of a text; `byteLength_mono` compares texts of which one begins
  the other.
- `slice?`: the characters between two offsets, if there is such a slice.
- `slice?_append`: in a text of three parts, the middle one is the slice between its ends.
-/

set_option autoImplicit false

namespace ClassRules.Text

/-- The number of bytes of a text in UTF-8. -/
def byteLength : List Char → Nat
  | [] => 0
  | c :: cs => c.utf8Size + byteLength cs

/-- The text behind its first `n` bytes, unless these end inside a character or beyond the text. -/
def dropBytes? : Nat → List Char → Option (List Char)
  | 0, cs => some cs
  | _ + 1, [] => none
  | n + 1, c :: cs => if c.utf8Size ≤ n + 1 then dropBytes? (n + 1 - c.utf8Size) cs else none

/-- The first `n` bytes of a text, unless these end inside a character or beyond the text. -/
def takeBytes? : Nat → List Char → Option (List Char)
  | 0, _ => some []
  | _ + 1, [] => none
  | n + 1, c :: cs =>
    if c.utf8Size ≤ n + 1 then (takeBytes? (n + 1 - c.utf8Size) cs).map (c :: ·) else none

/-- The characters between two byte offsets. There are none if the offsets stand in the wrong
order, or one of them lies inside a character or beyond the text. -/
def slice? (text : List Char) (start stop : Nat) : Option (List Char) :=
  if start ≤ stop then (dropBytes? start text).bind (takeBytes? (stop - start)) else none

theorem byteLength_append (cs ds : List Char) :
    byteLength (cs ++ ds) = byteLength cs + byteLength ds := by
  induction cs with
  | nil => simp [byteLength]
  | cons c cs ih => simp [byteLength, ih, Nat.add_assoc]

/-- What a text begins with has no more bytes than the text. -/
theorem byteLength_mono {cs ds : List Char} (h : cs <+: ds) : byteLength cs ≤ byteLength ds := by
  obtain ⟨more, rfl⟩ := h
  rw [byteLength_append]
  exact Nat.le_add_right _ _

theorem dropBytes?_append (cs ds : List Char) :
    dropBytes? (byteLength cs) (cs ++ ds) = some ds := by
  induction cs with
  | nil => simp [byteLength, dropBytes?]
  | cons c cs ih =>
    obtain ⟨n, hn⟩ := Nat.exists_eq_add_of_lt c.utf8Size_pos
    rw [Nat.zero_add] at hn
    have h : byteLength (c :: cs) = n + byteLength cs + 1 := by simp only [byteLength]; omega
    have hsub : n + byteLength cs + 1 - c.utf8Size = byteLength cs := by omega
    rw [h, List.cons_append, dropBytes?, if_pos (by omega), hsub, ih]

theorem takeBytes?_append (cs ds : List Char) :
    takeBytes? (byteLength cs) (cs ++ ds) = some cs := by
  induction cs with
  | nil => simp [byteLength, takeBytes?]
  | cons c cs ih =>
    obtain ⟨n, hn⟩ := Nat.exists_eq_add_of_lt c.utf8Size_pos
    rw [Nat.zero_add] at hn
    have h : byteLength (c :: cs) = n + byteLength cs + 1 := by simp only [byteLength]; omega
    have hsub : n + byteLength cs + 1 - c.utf8Size = byteLength cs := by omega
    rw [h, List.cons_append, takeBytes?, if_pos (by omega), hsub, ih]
    rfl

/-- In a text of three parts, the middle one is the slice between its ends. -/
theorem slice?_append (before middle after : List Char) :
    slice? (before ++ middle ++ after) (byteLength before)
      (byteLength before + byteLength middle) = some middle := by
  rw [slice?, if_pos (Nat.le_add_right _ _), List.append_assoc, dropBytes?_append,
    Option.bind_some, Nat.add_sub_cancel_left, takeBytes?_append]

end ClassRules.Text
