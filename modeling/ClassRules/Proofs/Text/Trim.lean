import Mathlib.Data.List.Induction
import ClassRules.Text.Blank

/-!
# Trimmed texts

## What this module delivers

- `IsTrimmed`: a text without white space at its ends. `IsTrimmed.head`, `IsTrimmed.last` say so of
  its first and its last character.
- `IsTrimmed.trim_pad`: trimming takes off the white space put around such a text, and no more.
- `exists_trim`, `isTrimmed_trim`: what trimming takes off is white space, and none is left.
- `trim_prefix`: what it leaves of a text without white space in front.
-/

set_option autoImplicit false

namespace ClassRules.Text

/-- Trimming changes nothing. -/
def IsTrimmed (cs : List Char) : Prop :=
  trim cs = cs

instance (cs : List Char) : Decidable (IsTrimmed cs) :=
  inferInstanceAs (Decidable (trim cs = cs))

variable {cs lead trail : List Char}

theorem length_trimEnd_le (cs : List Char) : (trimEnd cs).length ≤ cs.length := by
  induction cs with
  | nil => exact Nat.le_refl _
  | cons c cs ih =>
    rw [trimEnd]
    split
    · split
      · exact Nat.zero_le _
      · exact Nat.succ_le_succ (Nat.zero_le _)
    · rw [List.length_cons, List.length_cons]
      exact Nat.succ_le_succ ih

theorem trimEnd_of_blank (h : ∀ a ∈ cs, isBlank a = true) : trimEnd cs = [] := by
  induction cs with
  | nil => rfl
  | cons c cs ih =>
    rw [trimEnd, ih fun a ha => h a (List.mem_cons_of_mem _ ha)]
    simp only
    rw [if_pos (h c List.mem_cons_self)]

theorem trimEnd_append_blank (cs : List Char) (h : ∀ a ∈ trail, isBlank a = true) :
    trimEnd (cs ++ trail) = trimEnd cs := by
  induction cs with
  | nil => exact trimEnd_of_blank h
  | cons c cs ih => rw [List.cons_append, trimEnd, trimEnd, ih]

/-- Nothing is taken from a text that goes on behind it. -/
theorem trimEnd_append (cs : List Char) {ds : List Char} (h : trimEnd ds ≠ []) :
    trimEnd (cs ++ ds) = cs ++ trimEnd ds := by
  induction cs with
  | nil => rfl
  | cons c cs ih =>
    rw [List.cons_append, trimEnd, ih]
    split
    · rename_i hnil
      exact absurd (List.append_eq_nil_iff.1 hnil).2 h
    · rfl

theorem trimStart_append_blank (cs : List Char) (h : ∀ a ∈ lead, isBlank a = true) :
    trimStart (lead ++ cs) = trimStart cs :=
  List.dropWhile_append_of_pos h

theorem last_trimEnd (cs : List Char) : ∀ a ∈ (trimEnd cs).getLast?, isBlank a = false := by
  induction cs with
  | nil =>
    intro a ha
    cases ha
  | cons c cs ih =>
    intro a ha
    rw [trimEnd] at ha
    split at ha
    · split at ha
      · cases ha
      · rename_i hc
        cases ha
        exact Bool.eq_false_iff.2 hc
    · rename_i kept hne
      rw [List.getLast?_cons_of_ne_nil hne] at ha
      exact ih a ha

/-- What is taken from the end of a text is white space. -/
theorem exists_trimEnd (cs : List Char) :
    ∃ trail, cs = trimEnd cs ++ trail ∧ ∀ a ∈ trail, isBlank a = true := by
  induction cs with
  | nil => exact ⟨[], rfl, fun a ha => absurd ha List.not_mem_nil⟩
  | cons c cs ih =>
    obtain ⟨trail, htrail, hblank⟩ := ih
    rw [trimEnd]
    split
    · rename_i hnil
      rw [hnil, List.nil_append] at htrail
      split
      · rename_i hc
        exact ⟨c :: trail, by rw [htrail]; rfl, List.forall_mem_cons.2 ⟨hc, hblank⟩⟩
      · exact ⟨trail, by rw [htrail]; rfl, hblank⟩
    · exact ⟨trail, by rw [List.cons_append, ← htrail], hblank⟩

/-- What is taken from the ends of a text is white space. -/
theorem exists_trim (cs : List Char) : ∃ lead trail, cs = lead ++ trim cs ++ trail ∧
    (∀ a ∈ lead, isBlank a = true) ∧ ∀ a ∈ trail, isBlank a = true := by
  obtain ⟨trail, htrail, hblank⟩ := exists_trimEnd (trimStart cs)
  refine ⟨cs.takeWhile isBlank, trail, ?_, List.all_eq_true.1 List.all_takeWhile, hblank⟩
  rw [trim, List.append_assoc, ← htrail]
  exact List.takeWhile_append_dropWhile.symm

/-- A text that does not begin with white space only loses something at its end. -/
theorem trim_prefix (h : ∀ a ∈ cs.head?, isBlank a = false) : trim cs <+: cs := by
  have hstart : trimStart cs = cs := by
    cases cs with
    | nil => rfl
    | cons c cs => simp [trimStart, h c rfl]
  obtain ⟨trail, htrail, -⟩ := exists_trimEnd cs
  rw [trim, hstart]
  exact ⟨trail, htrail.symm⟩

/-- Nothing is left of white space, and of nothing else. -/
theorem trim_eq_nil_iff : trim cs = [] ↔ ∀ a ∈ cs, isBlank a = true := by
  constructor
  · intro h
    obtain ⟨lead, trail, heq, hlead, htrail⟩ := exists_trim cs
    rw [heq, h, List.append_nil]
    exact fun a ha => (List.mem_append.1 ha).elim (hlead a) (htrail a)
  · intro h
    have hstart := trimStart_append_blank [] h
    rw [List.append_nil] at hstart
    rw [trim, hstart]
    rfl

namespace IsTrimmed

/-- A text is trimmed if neither its first nor its last character is white space. -/
theorem of_ends (hhead : ∀ a ∈ cs.head?, isBlank a = false)
    (hlast : ∀ a ∈ cs.getLast?, isBlank a = false) : IsTrimmed cs := by
  cases cs using List.reverseRecOn with
  | nil => rfl
  | append_singleton cs a =>
    have ha : isBlank a = false := hlast a List.getLast?_concat
    have hend : trimEnd [a] = [a] := by simp [trimEnd, ha]
    have hstart : trimStart (cs ++ [a]) = cs ++ [a] := by
      cases cs with
      | nil => simp [trimStart, ha]
      | cons c cs => simp [trimStart, hhead c rfl]
    rw [IsTrimmed, trim, hstart, trimEnd_append cs (by simp [hend]), hend]

theorem nil : IsTrimmed [] := rfl

theorem trimStart_eq (h : IsTrimmed cs) : trimStart cs = cs := by
  have hsuffix : trimStart cs <:+ cs := List.dropWhile_suffix _
  have hlen : cs.length ≤ (trimStart cs).length := by
    have hle := length_trimEnd_le (trimStart cs)
    rw [show trimEnd (trimStart cs) = cs from h] at hle
    exact hle
  exact hsuffix.eq_of_length_le hlen

theorem trimEnd_eq (h : IsTrimmed cs) : trimEnd cs = cs := by
  have h' := h
  rw [IsTrimmed, trim, h.trimStart_eq] at h'
  exact h'

/-- The first character is not white space. -/
theorem head (h : IsTrimmed cs) : ∀ a ∈ cs.head?, isBlank a = false := by
  intro a ha
  cases cs with
  | nil => cases ha
  | cons c cs =>
    cases ha
    have hstart := h.trimStart_eq
    rw [trimStart, List.dropWhile_cons] at hstart
    split at hstart
    · have hle := (List.dropWhile_suffix (p := isBlank) (l := cs)).length_le
      rw [hstart, List.length_cons] at hle
      omega
    · rename_i hc
      exact Bool.eq_false_iff.2 hc

/-- The last character is not white space. -/
theorem last (h : IsTrimmed cs) : ∀ a ∈ cs.getLast?, isBlank a = false := by
  have hlast := last_trimEnd cs
  rw [h.trimEnd_eq] at hlast
  exact hlast

/-- Two trimmed texts with anything between them. -/
theorem append {ds : List Char} (h : IsTrimmed cs) (hne : cs ≠ []) (h' : IsTrimmed ds)
    (hne' : ds ≠ []) (mid : List Char) : IsTrimmed (cs ++ mid ++ ds) := by
  have hend : trimEnd ds ≠ [] := by
    rw [h'.trimEnd_eq]
    exact hne'
  obtain ⟨c, cs, rfl⟩ := List.exists_cons_of_ne_nil hne
  have hkeep : ¬ isBlank c = true := Bool.eq_false_iff.1 (h.head c rfl)
  rw [IsTrimmed, trim, List.cons_append, List.cons_append, trimStart, List.dropWhile_cons,
    if_neg hkeep, ← List.cons_append, ← List.cons_append, trimEnd_append _ hend, h'.trimEnd_eq]

/-- Trimming takes off the white space put around a trimmed text, and no more. -/
theorem trim_pad (h : IsTrimmed cs) (hlead : ∀ a ∈ lead, isBlank a = true)
    (htrail : ∀ a ∈ trail, isBlank a = true) : trim (lead ++ cs ++ trail) = cs := by
  rw [trim, List.append_assoc, trimStart_append_blank _ hlead]
  cases cs with
  | nil =>
    have hall := trimStart_append_blank [] htrail
    rw [List.append_nil] at hall
    rw [List.nil_append, hall]
    rfl
  | cons c cs =>
    have hc : isBlank c = false := h.head c rfl
    have hkeep : ¬ isBlank c = true := Bool.eq_false_iff.1 hc
    rw [List.cons_append, trimStart, List.dropWhile_cons, if_neg hkeep, ← List.cons_append,
      trimEnd_append_blank _ htrail]
    exact h.trimEnd_eq

/-- Trimming takes off the white space put before a trimmed text, and no more. -/
theorem trim_prepend (h : IsTrimmed cs) (hlead : ∀ a ∈ lead, isBlank a = true) :
    trim (lead ++ cs) = cs := by
  have hpad := h.trim_pad hlead fun _ ha => absurd ha List.not_mem_nil
  rw [List.append_nil] at hpad
  exact hpad

/-- Trimming takes off the white space put behind a trimmed text, and no more. -/
theorem trim_append (h : IsTrimmed cs) (htrail : ∀ a ∈ trail, isBlank a = true) :
    trim (cs ++ trail) = cs :=
  h.trim_pad (fun _ ha => absurd ha List.not_mem_nil) htrail

end IsTrimmed

/-- Nothing is left to trim. -/
theorem isTrimmed_trim (cs : List Char) : IsTrimmed (trim cs) := by
  refine .of_ends ?_ (last_trimEnd _)
  intro a ha
  obtain ⟨trail, htrail, -⟩ := exists_trimEnd (trimStart cs)
  have hhead : (trimStart cs).head? = some a := by
    obtain ⟨more, hmore⟩ := List.head?_eq_some_iff.1 ha
    rw [htrail, ← trim, hmore]
    rfl
  have hnot := List.head?_dropWhile_not isBlank cs
  rw [← trimStart, hhead] at hnot
  simpa using hnot

end ClassRules.Text
