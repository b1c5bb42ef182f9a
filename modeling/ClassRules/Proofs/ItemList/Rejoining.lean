import ClassRules.Proofs.ItemList.Pieces
import ClassRules.Proofs.Token.Lexeme

/-!
# Splitting what was joined

Lists are joined with commas and split again, and as a rule nothing changes. But trimming looks at
white space alone: it takes the blank that a backslash at the end of an item stands before, and in
the joined text the backslash takes the comma.

## What this module delivers

- `Passes.escaped_eq`: whether a backslash waits at the end of a text can be told from the text.
- `Passes.trim_closed`: what trimming leaves of a closed piece is closed, but for such a backslash.
- `JoinsUp`, `PassesAll.joinsUp`: items whose joined text can be told item by item; those of any
  text are so. `JoinsUp.length_pieces`: it has as many pieces less as items that end so.
- `splitComma_joinComma_splitComma_iff`: the items of a text come back exactly if no item but the
  last ends so.
-/

set_option autoImplicit false

namespace ClassRules

open Text

namespace ItemList

variable {isSeparator : Char → Bool} {s t : Scan} {cs : List Char}

/-! ## Backslashes that wait -/

theorem Scan.escaped_after (h : s.escaped = false) (c : Char) :
    (s.after c).escaped = (c == '\\') := by
  obtain ⟨quote, depth, escaped⟩ := s
  obtain rfl : escaped = false := h
  by_cases hc : c = '\\'
  · simp [Scan.after, hc]
  · rw [beq_false_of_ne hc]
    simp only [Scan.after, Bool.false_eq_true, if_false, hc]
    repeat' split
    all_goals rfl

theorem Scan.after_of_escaped (h : s.escaped = true) (c : Char) :
    s.after c = { s with escaped := false } :=
  if_pos h

/-- Only the two marks open quotes. -/
theorem Scan.quote_after (h : ∀ mark ∈ s.quote, mark = '"' ∨ mark = '\'') (c : Char) :
    ∀ mark ∈ (s.after c).quote, mark = '"' ∨ mark = '\'' := by
  cases hescaped : s.escaped with
  | true =>
    rw [Scan.after_of_escaped hescaped]
    exact h
  | false =>
    by_cases hc : c = '\\'
    · have hsame : (s.after c).quote = s.quote := by simp [Scan.after, hescaped, hc]
      rwa [hsame]
    · exact (Scan.Unescaped.after ⟨hescaped, h⟩ hc).quote_eq

theorem Passes.quote_eq (h : Passes isSeparator s cs t)
    (hs : ∀ mark ∈ s.quote, mark = '"' ∨ mark = '\'') :
    ∀ mark ∈ t.quote, mark = '"' ∨ mark = '\'' := by
  induction h with
  | nil s => exact hs
  | cons _ _ ih => exact ih (Scan.quote_after hs _)

/-- A scan knows of a backslash right before exactly if the text ends with one that takes no
character. -/
theorem Passes.escaped_eq (h : Passes isSeparator s cs t) (hs : s.escaped = false) :
    t.escaped = !Lexeme.isFinished cs := by
  -- The cases are those of reading escapes: a backslash takes the next character, if there is one.
  fun_induction Lexeme.isFinished cs generalizing s with
  | case1 =>
    cases h with
    | nil => exact hs
  | case2 =>
    cases h with
    | cons _ h =>
      cases h with
      | nil => exact Scan.escaped_after hs _
  | case3 a rest ih =>
    cases h with
    | cons _ h =>
      cases h with
      | cons _ h =>
        refine ih h ?_
        rw [Scan.after_of_escaped (Scan.escaped_after hs _)]
  | case4 c rest h₁ h₂ ih =>
    have hc : c ≠ '\\' := by
      intro hc
      cases rest with
      | nil => exact h₁ hc rfl
      | cons a b => exact h₂ a b hc rfl
    cases h with
    | cons _ h =>
      refine ih h ?_
      rw [Scan.escaped_after hs, beq_false_of_ne hc]

/-- What trimming leaves of a piece that leads back to the start leads there as well, unless it ends
with a backslash whose blank was taken. -/
theorem Passes.trim_closed (h : Passes isSeparator {} cs {}) :
    Passes isSeparator {} (Text.trim cs) ⟨none, 0, !Lexeme.isFinished (Text.trim cs)⟩ := by
  obtain ⟨lead, trail, heq, hlead, htrail⟩ := exists_trim cs
  rw [heq] at h
  obtain ⟨v, hfront, hback⟩ := h.split_append
  obtain ⟨u, hfirst, hmid⟩ := hfront.split_append
  obtain rfl := hfirst.eq_of_blank Scan.unescaped_start hlead
  have hescaped := hmid.escaped_eq rfl
  have hquote := hmid.quote_eq (fun _ hmark => nomatch hmark)
  have hstart : v = ⟨none, 0, v.escaped⟩ := by
    cases hv : v.escaped with
    | false => exact (hback.eq_of_blank ⟨hv, hquote⟩ htrail).symm
    | true =>
      -- The first blank behind the backslash is taken, and all others change nothing.
      cases hback with
      | nil => cases hv
      | cons _ hback =>
        rw [Scan.after_of_escaped hv] at hback
        have hnext := hback.eq_of_blank ⟨rfl, hquote⟩ (List.forall_mem_cons.1 htrail).2
        obtain ⟨quote, depth, escaped⟩ := v
        obtain ⟨rfl, rfl, -⟩ := Scan.mk.inj hnext
        exact congrArg _ hv
  rw [hstart, hescaped] at hmid
  exact hmid

/-! ## Joined texts -/

/-- Items that a scan of the joined text comes to one by one: behind each but the last it is at the
start, or knows nothing but that a backslash stands right before. -/
inductive JoinsUp : List (List Char) → Prop where
  | last {x : List Char} {t : Scan} (h : Passes (· == ',') {} x t) : JoinsUp [x]
  | cons {x : List Char} {xs : List (List Char)}
      (h : Passes (· == ',') {} x ⟨none, 0, !Lexeme.isFinished x⟩) (hxs : JoinsUp xs) :
    JoinsUp (x :: xs)

/-- The items among the pieces of a text are so. -/
theorem PassesAll.joinsUp {ps : List (List Char)} (h : PassesAll (· == ',') s ps t) (hs : s = {}) :
    (ps.map trim).filter (!·.isEmpty) = [] ∨ JoinsUp ((ps.map trim).filter (!·.isEmpty)) := by
  induction h with
  | @last s t piece h =>
    subst hs
    obtain ⟨lead, trail, heq, hlead, -⟩ := exists_trim piece
    rw [heq] at h
    obtain ⟨v, hfront, -⟩ := h.split_append
    obtain ⟨u, hfirst, hmid⟩ := hfront.split_append
    obtain rfl := hfirst.eq_of_blank Scan.unescaped_start hlead
    rw [List.map_singleton, List.filter_cons, List.filter_nil]
    split
    · exact .inr (.last hmid)
    · exact .inl rfl
  | @cons s t piece ps h _ ih =>
    subst hs
    rw [List.map_cons, List.filter_cons]
    split
    · rcases ih rfl with hnil | hrest
      · rw [hnil]
        exact .inr (.last h.trim_closed)
      · exact .inr (.cons h.trim_closed hrest)
    · exact ih rfl

theorem length_prependFirst (cs : List Char) {ps : List (List Char)} (h : ps ≠ []) :
    (prependFirst cs ps).length = ps.length := by
  obtain ⟨p, ps, rfl⟩ := List.exists_cons_of_ne_nil h
  rw [prependFirst_cons, List.length_cons, List.length_cons]

theorem pieces_ne_nil (s : Scan) (cs : List Char) : pieces isSeparator s cs ≠ [] := by
  cases cs with
  | nil => exact List.cons_ne_nil _ _
  | cons c cs =>
    rw [pieces]
    split
    · exact List.cons_ne_nil _ _
    · cases pieces isSeparator (s.after c) cs with
      | nil => exact List.cons_ne_nil _ _
      | cons _ _ => exact List.cons_ne_nil _ _

theorem JoinsUp.exists_cons {xs : List (List Char)} (h : JoinsUp xs) : ∃ y ys, xs = y :: ys := by
  cases h with
  | last _ => exact ⟨_, [], rfl⟩
  | cons _ _ => exact ⟨_, _, rfl⟩

/-- A joined text falls into as many pieces as there are items, less those that end with a backslash
which takes the comma behind it. -/
theorem JoinsUp.length_pieces {xs : List (List Char)} (h : JoinsUp xs) :
    (pieces (· == ',') {} (", ".toList.intercalate xs)).length +
      xs.dropLast.countP (!Lexeme.isFinished ·) = xs.length := by
  induction h with
  | last h =>
    have hx := pieces_of_passes h []
    rw [List.append_nil] at hx
    rw [List.intercalate_singleton, hx, length_prependFirst _ (pieces_ne_nil _ _)]
    rfl
  | @cons x xs h hxs ih =>
    obtain ⟨y, ys, rfl⟩ := hxs.exists_cons
    have hmore : (x :: y :: ys).length = (y :: ys).length + 1 := rfl
    rw [List.intercalate_cons_cons, List.append_assoc, pieces_of_passes h, List.dropLast_cons_cons,
      List.countP_cons, hmore, ← ih, length_prependFirst _ (pieces_ne_nil _ _)]
    generalize ", ".toList.intercalate (y :: ys) = rest
    cases hfinished : Lexeme.isFinished x with
    | true =>
      -- The comma ends a piece.
      have hpieces : pieces (· == ',') ⟨none, 0, false⟩ (", ".toList ++ rest) =
          [] :: prependFirst [' '] (pieces (· == ',') {} rest) := rfl
      simp only [Bool.not_true, Bool.false_eq_true, if_false]
      rw [hpieces, List.length_cons, length_prependFirst _ (pieces_ne_nil _ _)]
      omega
    | false =>
      -- The comma is taken by the backslash.
      have hpieces : pieces (· == ',') ⟨none, 0, true⟩ (", ".toList ++ rest) =
          prependFirst ", ".toList (pieces (· == ',') {} rest) := rfl
      simp only [Bool.not_false, if_true]
      rw [hpieces, length_prependFirst _ (pieces_ne_nil _ _)]
      omega

/-- If no item but the last ends with a backslash that takes no character, the items are passed one
by one. -/
theorem JoinsUp.passesAll {xs : List (List Char)} (h : JoinsUp xs)
    (hfinished : ∀ x ∈ xs.dropLast, Lexeme.isFinished x = true) :
    ∃ t, PassesAll (· == ',') {} xs t := by
  induction h with
  | last h => exact ⟨_, .last h⟩
  | @cons x xs h hxs ih =>
    obtain ⟨y, ys, rfl⟩ := hxs.exists_cons
    rw [List.dropLast_cons_cons, List.forall_mem_cons] at hfinished
    obtain ⟨t, hrest⟩ := ih hfinished.2
    rw [hfinished.1] at h
    exact ⟨t, .cons h hrest⟩

/-- The items of a text, joined, are split again as they were exactly if no item but the last ends
with a backslash that takes no character. -/
theorem splitComma_joinComma_splitComma_iff (text : String) :
    splitComma (joinComma (splitComma text)) = splitComma text ↔
      ∀ item ∈ (splitComma text).dropLast, Lexeme.isFinished item.toList = true := by
  have hitems : (splitComma text).map String.toList =
      ((pieces (· == ',') {} text.toList).map trim).filter (!·.isEmpty) := by
    rw [splitComma, split, List.map_map]
    simp [Function.comp_def]
  have htrimmed : ∀ item ∈ splitComma text, IsTrimmed item.toList ∧ item.toList ≠ [] :=
    fun _ hmem => isTrimmed_of_mem_split hmem
  have hjoins := (passesAll_pieces after_of_comma {} text.toList).joinsUp rfl
  rw [← hitems] at hjoins
  generalize splitComma text = items at htrimmed hjoins
  have hall : (∀ item ∈ items.dropLast, Lexeme.isFinished item.toList = true) ↔
      ∀ x ∈ (items.map String.toList).dropLast, Lexeme.isFinished x = true := by
    rw [← List.map_dropLast, List.forall_mem_map]
  rw [hall]
  rcases hjoins with hnil | hjoins
  · obtain rfl := List.map_eq_nil_iff.1 hnil
    exact ⟨fun _ x hx => absurd hx List.not_mem_nil, fun _ => rfl⟩
  constructor
  · intro hsame
    -- There are no more items than pieces, so no comma was taken.
    have hlength := hjoins.length_pieces
    have hle : items.length ≤
        (pieces (· == ',') {} (", ".toList.intercalate (items.map String.toList))).length := by
      conv_lhs => rw [← hsame]
      rw [splitComma, split, joinComma, String.toList_intercalate, List.length_map]
      exact Nat.le_trans (List.length_filter_le _ _) (Nat.le_of_eq (List.length_map _))
    rw [List.length_map] at hlength
    have hnone : (items.map String.toList).dropLast.countP (!Lexeme.isFinished ·) = 0 := by omega
    simpa using List.countP_eq_zero.1 hnone
  · intro hfinished
    obtain ⟨t, hpasses⟩ := hjoins.passesAll hfinished
    exact splitComma_joinComma_of_passesAll htrimmed hpasses

/-- A blank behind a backslash is taken from the end of an item, and the joined items are one. -/
theorem splitComma_joinComma_escaped_blank :
    splitComma "a\\ , b" = ["a\\", "b"] ∧
      splitComma (joinComma (splitComma "a\\ , b")) = ["a\\, b"] := by
  decide +kernel

end ItemList

end ClassRules
