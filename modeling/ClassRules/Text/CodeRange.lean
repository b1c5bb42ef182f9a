/-!
# Sets of characters as code point ranges

A character class of the Unicode standard is kept as the list of its code point ranges, in
increasing order.

## What this module delivers

- `CodeRange`: a range of code points, both ends included.
- `CodeRange.covers`: whether a character lies in one of the ranges of an increasing list.
- `covers_iff`: on an increasing list that is membership in some range.
-/

set_option autoImplicit false

namespace ClassRules.Text

/-- The code points from the first number to the second, both included. -/
abbrev CodeRange := Nat × Nat

namespace CodeRange

/-- Whether `n` lies in one of the ranges. The search ends at the first range that starts after
`n`, so the ranges have to stand in increasing order. -/
def covers : List CodeRange → Nat → Bool
  | [], _ => false
  | (lo, hi) :: ranges, n => decide (lo ≤ n) && (decide (n ≤ hi) || covers ranges n)

/-- The ranges stand in increasing order. -/
def Increasing (ranges : List CodeRange) : Prop :=
  ranges.Pairwise fun a b => a.1 ≤ b.1

/-- On an increasing list, `covers` is membership in one of the ranges. -/
theorem covers_iff {ranges : List CodeRange} (h : Increasing ranges) (n : Nat) :
    covers ranges n = true ↔ ∃ r ∈ ranges, r.1 ≤ n ∧ n ≤ r.2 := by
  induction ranges with
  | nil => simp [covers]
  | cons r rest ih =>
    obtain ⟨hr, hrest⟩ := List.pairwise_cons.1 h
    simp only [covers, Bool.and_eq_true, Bool.or_eq_true, decide_eq_true_eq, ih hrest,
      List.mem_cons, exists_eq_or_imp]
    constructor
    · rintro ⟨hlo, hhi | hex⟩
      · exact .inl ⟨hlo, hhi⟩
      · exact .inr hex
    · rintro (⟨hlo, hhi⟩ | ⟨s, hs, hlo, hhi⟩)
      · exact ⟨hlo, .inl hhi⟩
      · exact ⟨Nat.le_trans (hr s hs) hlo, .inr ⟨s, hs, hlo, hhi⟩⟩

end CodeRange

end ClassRules.Text
