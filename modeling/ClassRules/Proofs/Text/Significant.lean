import ClassRules.Proofs.Text.Trim

/-!
# Significant characters

White space and semicolons stand between the parts of a style sheet. All other characters say
something.

## What this module delivers

- `isSignificant`, `significant`: which characters these are, and those of a text in their order.
- `significant_trim`, `significant_of_blank`: white space counts for nothing.
- `significant_of_toLower`: the case of letters does not matter for it.
-/

set_option autoImplicit false

namespace ClassRules.Text

/-- Whether a character is neither white space nor a semicolon. -/
def isSignificant (c : Char) : Bool :=
  !isBlank c && c != ';'

/-- The significant characters of a text. -/
def significant (cs : List Char) : List Char :=
  cs.filter isSignificant

variable {cs ds : List Char}

@[simp] theorem significant_nil : significant [] = [] := rfl

@[simp] theorem significant_append (cs ds : List Char) :
    significant (cs ++ ds) = significant cs ++ significant ds :=
  List.filter_append cs ds

theorem significant_cons (c : Char) (cs : List Char) :
    significant (c :: cs) = if isSignificant c then c :: significant cs else significant cs :=
  List.filter_cons

/-- White space says nothing. -/
theorem significant_of_blank (h : ∀ a ∈ cs, isBlank a = true) : significant cs = [] := by
  refine List.filter_eq_nil_iff.2 fun a ha => ?_
  simp [isSignificant, h a ha]

theorem significant_eq_self (h : ∀ a ∈ cs, isSignificant a = true) : significant cs = cs :=
  List.filter_eq_self.2 h

/-- Nothing significant is lost when it is taken off the front. -/
theorem significant_trimStart (cs : List Char) : significant (trimStart cs) = significant cs := by
  have hblank : significant (cs.takeWhile isBlank) = [] :=
    significant_of_blank (List.all_eq_true.1 List.all_takeWhile)
  calc significant (trimStart cs)
      = significant (cs.takeWhile isBlank) ++ significant (trimStart cs) := by rw [hblank]; rfl
    _ = significant (cs.takeWhile isBlank ++ trimStart cs) := (significant_append _ _).symm
    _ = significant cs := congrArg significant List.takeWhile_append_dropWhile

/-- Nor is it at the end. -/
theorem significant_trimEnd (cs : List Char) : significant (trimEnd cs) = significant cs := by
  induction cs with
  | nil => rfl
  | cons c cs ih =>
    rw [trimEnd, significant_cons, ← ih]
    split
    · rename_i hnil
      rw [hnil]
      split
      · rename_i hc
        simp [isSignificant, hc]
      · exact significant_cons c []
    · exact significant_cons c _

/-- A text says the same without the white space around it. -/
theorem significant_trim (cs : List Char) : significant (trim cs) = significant cs := by
  rw [trim, significant_trimEnd, significant_trimStart]

/-- No white space stands among the letters, and no semicolon. -/
theorem isSignificant_of_letter {c : Char} (h : 65 ≤ c.toNat) (h' : c.toNat ≤ 122) :
    isSignificant c = true := by
  have hcodes : ∀ n < 123, 65 ≤ n → CodeRange.covers blankRanges n = false := by decide
  have hblank : isBlank c = false := hcodes c.toNat (by omega) h
  have hmark : c ≠ ';' := by
    rintro rfl
    exact absurd h (by decide)
  simp [isSignificant, hblank, hmark]

/-- A letter is significant in either case. -/
theorem isSignificant_toLower (c : Char) : isSignificant c.toLower = isSignificant c := by
  by_cases h : c.val ≥ 'A'.val ∧ c.val ≤ 'Z'.val
  · have hlow : 65 ≤ c.toNat := UInt32.le_iff_toNat_le.1 h.1
    have hhigh : c.toNat ≤ 90 := UInt32.le_iff_toNat_le.1 h.2
    have hsmall : c.toLower.toNat = c.toNat + 32 := by
      unfold Char.toLower
      rw [dif_pos h]
      change (c.val + ('a'.val - 'A'.val)).toNat = c.val.toNat + 32
      have hshift : ('a'.val - 'A'.val).toNat = 32 := rfl
      have hcode : c.val.toNat = c.toNat := rfl
      rw [UInt32.toNat_add, hshift]
      omega
    rw [isSignificant_of_letter hlow (by omega), isSignificant_of_letter (by omega) (by omega)]
  · unfold Char.toLower
    rw [dif_neg h]

/-- So is a text that is significant in small letters. -/
theorem significant_of_toLower (h : ∀ a ∈ cs.map Char.toLower, isSignificant a = true) :
    significant cs = cs := by
  refine significant_eq_self fun a ha => ?_
  rw [← isSignificant_toLower]
  exact h _ (List.mem_map_of_mem ha)

end ClassRules.Text
