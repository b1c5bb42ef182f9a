import ClassRules.ItemList
import ClassRules.Proofs.Text.Trim

/-!
# Pieces of a list of items

A text is cut at the separators that stand outside quotes and parentheses. Where a scan comes back
to where it began without such a separator, the text up to there goes into one piece as a whole, so
that lists of such texts can be told piece by piece.

## What this module delivers

- `Scan.afterAll`: what is known behind a text. `Scan.atTop_iff`: separators count only where no
  more is known than at the start.
- `mem_split`, `isTrimmed_of_mem_split`, `split_ne_nil`: what the items of a text are like, and when
  there are some.
- `Passes`: a scan that meets no separator that counts. `pieces_of_passes`: the text before it goes
  into the first piece.
- `PassesAll`: a scan that passes pieces one by one. `passesAll_pieces`: those of a text are such.
- `splitComma_append_ne_nil`: whatever comes behind an item, there is an item.
- `IsItem`, `splitComma_joinComma`: items that were joined are split again as they were.
-/

set_option autoImplicit false

namespace ClassRules

open Text

namespace ItemList

/-! ## Scans -/

namespace Scan

/-- What is known behind the text `cs`. -/
def afterAll (s : Scan) (cs : List Char) : Scan :=
  cs.foldl after s

@[simp] theorem afterAll_nil (s : Scan) : s.afterAll [] = s := rfl

@[simp] theorem afterAll_cons (s : Scan) (c : Char) (cs : List Char) :
    s.afterAll (c :: cs) = (s.after c).afterAll cs := rfl

/-- Separators count only where no more is known than at the start. -/
theorem atTop_iff {s : Scan} : s.atTop = true ↔ s = {} := by
  obtain ⟨quote, depth, escaped⟩ := s
  simp [atTop, and_assoc, and_comm, and_left_comm]

/-- No backslash stands right before, and an open quote was opened by one of the two marks. -/
structure Unescaped (s : Scan) : Prop where
  escaped_eq : s.escaped = false
  quote_eq : ∀ mark ∈ s.quote, mark = '"' ∨ mark = '\''

theorem unescaped_start : Unescaped {} :=
  ⟨rfl, fun _ hmark => nomatch hmark⟩

theorem Unescaped.after {s : Scan} {c : Char} (h : s.Unescaped) (hc : c ≠ '\\') :
    (s.after c).Unescaped := by
  obtain ⟨quote, depth, escaped⟩ := s
  obtain ⟨rfl, hquote⟩ := h
  cases quote with
  | none =>
    simp only [Scan.after, Bool.false_eq_true, if_false, hc]
    split
    · rename_i hmark
      exact ⟨rfl, by rintro _ ⟨⟩; exact hmark⟩
    · split
      · exact ⟨rfl, hquote⟩
      · split
        · exact ⟨rfl, hquote⟩
        · exact ⟨rfl, hquote⟩
  | some mark =>
    simp only [Scan.after, Bool.false_eq_true, if_false, hc]
    split
    · exact ⟨rfl, fun _ hmark => nomatch hmark⟩
    · exact ⟨rfl, hquote⟩

/-- White space changes nothing. -/
theorem Unescaped.after_blank {s : Scan} {c : Char} (h : s.Unescaped) (hc : isBlank c = true) :
    s.after c = s := by
  have hne : ∀ d, isBlank d = false → c ≠ d := by
    rintro d hd rfl
    rw [hc] at hd
    cases hd
  have hslash : c ≠ '\\' := hne '\\' (by decide)
  have hdouble : c ≠ '"' := hne '"' (by decide)
  have hsingle : c ≠ '\'' := hne '\'' (by decide)
  have hopen : c ≠ '(' := hne '(' (by decide)
  have hclose : c ≠ ')' := hne ')' (by decide)
  obtain ⟨quote, depth, escaped⟩ := s
  obtain ⟨rfl, hquote⟩ := h
  cases quote with
  | none => simp [Scan.after, hslash, hdouble, hsingle, hopen, hclose]
  | some mark =>
    have hmark : c ≠ mark := by
      rcases hquote mark rfl with rfl | rfl
      · exact hdouble
      · exact hsingle
    simp [Scan.after, hslash, hmark]

end Scan

variable {isSeparator : Char → Bool} {text item : String} {s t u : Scan} {cs ds : List Char}

/-! ## Items -/

/-- Pieces have no characters but those of the text. -/
theorem subset_of_mem_pieces {piece : List Char} (h : piece ∈ pieces isSeparator s cs) :
    piece ⊆ cs := by
  induction cs generalizing s piece with
  | nil =>
    rw [List.mem_singleton.1 h]
    exact List.nil_subset []
  | cons c cs ih =>
    rw [pieces] at h
    split at h
    · rcases List.mem_cons.1 h with rfl | h
      · exact List.nil_subset _
      · exact List.subset_cons_of_subset c (ih h)
    · cases hrest : pieces isSeparator (s.after c) cs with
      | nil =>
        rw [hrest] at h
        rw [List.mem_singleton.1 h]
        exact List.cons_subset_cons c (List.nil_subset cs)
      | cons first rest =>
        rw [hrest, consFirst, List.mem_cons] at h
        rcases h with rfl | h
        · exact List.cons_subset_cons c (ih (hrest ▸ List.mem_cons_self))
        · exact List.subset_cons_of_subset c (ih (hrest ▸ List.mem_cons_of_mem first h))

theorem mem_split : item ∈ split isSeparator text ↔
    ∃ piece ∈ pieces isSeparator {} text.toList, trim piece ≠ [] ∧
      item = String.ofList (trim piece) := by
  rw [split, List.mem_map]
  constructor
  · rintro ⟨_, hmem, rfl⟩
    obtain ⟨hmem, hne⟩ := List.mem_filter.1 hmem
    obtain ⟨piece, hpiece, rfl⟩ := List.mem_map.1 hmem
    exact ⟨piece, hpiece, by simpa using hne, rfl⟩
  · rintro ⟨piece, hpiece, hne, rfl⟩
    exact ⟨trim piece, List.mem_filter.2 ⟨List.mem_map_of_mem hpiece, by simpa using hne⟩, rfl⟩

/-- Items are not empty and have no white space at their ends. -/
theorem isTrimmed_of_mem_split (h : item ∈ split isSeparator text) :
    IsTrimmed item.toList ∧ item.toList ≠ [] := by
  obtain ⟨piece, -, hne, rfl⟩ := mem_split.1 h
  rw [String.toList_ofList]
  exact ⟨isTrimmed_trim piece, hne⟩

/-- A text that starts with neither white space nor a separator has an item. -/
theorem split_ne_nil {c : Char} (htext : text.toList = c :: cs) (hblank : isBlank c = false)
    (hsep : isSeparator c = false) : split isSeparator text ≠ [] := by
  obtain ⟨piece, rest, hpieces⟩ :
      ∃ piece rest, pieces isSeparator {} text.toList = (c :: piece) :: rest := by
    rw [htext, pieces, hsep, Bool.and_false, if_neg Bool.false_ne_true]
    cases pieces isSeparator (({} : Scan).after c) cs with
    | nil => exact ⟨[], [], rfl⟩
    | cons piece rest => exact ⟨piece, rest, rfl⟩
  have hne : trim (c :: piece) ≠ [] := fun hnil => by
    rw [trim_eq_nil_iff.1 hnil c List.mem_cons_self] at hblank
    cases hblank
  exact List.ne_nil_of_mem (mem_split.2 ⟨_, hpieces ▸ List.mem_cons_self, hne, rfl⟩)

/-! ## Texts without separators that count -/

/-- A scan of `cs` leads from `s` to `t` and meets no separator that counts. -/
inductive Passes (isSeparator : Char → Bool) : Scan → List Char → Scan → Prop where
  | nil (s : Scan) : Passes isSeparator s [] s
  | cons {s t : Scan} {c : Char} {cs : List Char} (hout : (s.atTop && isSeparator c) = false)
      (h : Passes isSeparator (s.after c) cs t) : Passes isSeparator s (c :: cs) t

namespace Passes

theorem append (h : Passes isSeparator s cs t) (h' : Passes isSeparator t ds u) :
    Passes isSeparator s (cs ++ ds) u := by
  induction h with
  | nil s => exact h'
  | cons hout _ ih => exact .cons hout (ih h')

/-- A scan of two texts passes the first one and then the second one. -/
theorem split_append (h : Passes isSeparator s (cs ++ ds) u) :
    ∃ t, Passes isSeparator s cs t ∧ Passes isSeparator t ds u := by
  induction cs generalizing s with
  | nil => exact ⟨s, .nil s, h⟩
  | cons c cs ih =>
    cases h with
    | cons hout h =>
      obtain ⟨t, hcs, hds⟩ := ih h
      exact ⟨t, .cons hout hcs, hds⟩

/-- It is enough that no separator stands where it would count. -/
theorem of_forall (cs : List Char) (h : ∀ front c back, cs = front ++ c :: back →
    isSeparator c = true → (s.afterAll front).atTop = false) :
    Passes isSeparator s cs (s.afterAll cs) := by
  induction cs generalizing s with
  | nil => exact .nil s
  | cons c cs ih =>
    refine .cons ?_ (ih fun front d back hcs hd => h (c :: front) d back (by rw [hcs]; rfl) hd)
    cases hc : isSeparator c with
    | false => exact Bool.and_false _
    | true => rw [Bool.and_true]; exact h [] c cs rfl hc

theorem unescaped (h : Passes isSeparator s cs t) (hs : s.Unescaped) (hcs : '\\' ∉ cs) :
    t.Unescaped := by
  induction h with
  | nil s => exact hs
  | cons _ _ ih =>
    rw [List.mem_cons, not_or] at hcs
    exact ih (hs.after (Ne.symm hcs.1)) hcs.2

/-- White space leads nowhere. -/
theorem eq_of_blank (h : Passes isSeparator s cs t) (hs : s.Unescaped)
    (hcs : ∀ c ∈ cs, isBlank c = true) : t = s := by
  induction h with
  | nil s => rfl
  | cons _ _ ih =>
    obtain ⟨hc, hcs⟩ := List.forall_mem_cons.1 hcs
    rw [hs.after_blank hc] at ih
    exact ih hs hcs

/-- Where a text without backslashes leads, it leads without the white space at its ends. -/
theorem trim (h : Passes isSeparator s cs t) (hs : s.Unescaped) (hcs : '\\' ∉ cs) :
    Passes isSeparator s (Text.trim cs) t := by
  obtain ⟨lead, trail, heq, hlead, htrail⟩ := exists_trim cs
  rw [heq] at h hcs
  -- Without backslashes, white space at either end leaves what is known as it is.
  obtain ⟨t', hfront, hback⟩ := h.split_append
  obtain ⟨s', hfirst, hmid⟩ := hfront.split_append
  simp only [List.mem_append, not_or] at hcs
  obtain rfl := hfirst.eq_of_blank hs hlead
  obtain rfl := hback.eq_of_blank (hmid.unescaped hs hcs.1.2) htrail
  exact hmid

end Passes

/-- Puts a text before the first piece. -/
def prependFirst (cs : List Char) (ps : List (List Char)) : List (List Char) :=
  cs.foldr consFirst ps

theorem prependFirst_cons (cs piece : List Char) (ps : List (List Char)) :
    prependFirst cs (piece :: ps) = (cs ++ piece) :: ps := by
  induction cs with
  | nil => rfl
  | cons c cs ih =>
    rw [prependFirst, List.foldr_cons, ← prependFirst, ih]
    rfl

/-- A text without separators that count goes into one piece with what follows. -/
theorem pieces_of_passes (h : Passes isSeparator s cs t) (ds : List Char) :
    pieces isSeparator s (cs ++ ds) = prependFirst cs (pieces isSeparator t ds) := by
  induction h with
  | nil s => rfl
  | cons hout _ ih => rw [List.cons_append, pieces, hout, ih]; rfl

/-- A scan passes the pieces of a text one by one. Behind each but the last it is back at the start,
as a separator follows. -/
inductive PassesAll (isSeparator : Char → Bool) : Scan → List (List Char) → Scan → Prop where
  | last {s t : Scan} {piece : List Char} (h : Passes isSeparator s piece t) :
    PassesAll isSeparator s [piece] t
  | cons {s t : Scan} {piece : List Char} {ps : List (List Char)}
      (h : Passes isSeparator s piece {}) (hps : PassesAll isSeparator {} ps t) :
    PassesAll isSeparator s (piece :: ps) t

theorem PassesAll.consFirst {c : Char} {ps : List (List Char)}
    (hout : (s.atTop && isSeparator c) = false) (h : PassesAll isSeparator (s.after c) ps t) :
    PassesAll isSeparator s (consFirst c ps) t := by
  cases h with
  | last h => exact .last (.cons hout h)
  | cons h hps => exact .cons (.cons hout h) hps

/-- The pieces of a text are passed one by one. -/
theorem passesAll_pieces (hsep : ∀ c, isSeparator c = true → ({} : Scan).after c = {})
    (s : Scan) (cs : List Char) :
    PassesAll isSeparator s (pieces isSeparator s cs) (s.afterAll cs) := by
  induction cs generalizing s with
  | nil => exact .last (.nil s)
  | cons c cs ih =>
    rw [pieces, Scan.afterAll_cons]
    cases hcut : s.atTop && isSeparator c with
    | true =>
      obtain ⟨htop, hc⟩ := Bool.and_eq_true_iff.1 hcut
      obtain rfl := Scan.atTop_iff.1 htop
      rw [if_pos rfl, hsep c hc]
      exact .cons (.nil _) (ih {})
    | false =>
      rw [if_neg Bool.false_ne_true]
      exact .consFirst hcut (ih (s.after c))

/-- If the last piece leads back to the start as well, all of them do. -/
theorem PassesAll.passes {ps : List (List Char)} (h : PassesAll isSeparator s ps t) (hs : s = {})
    (ht : t = {}) : ∀ p ∈ ps, Passes isSeparator {} p {} := by
  induction h with
  | last h =>
    subst hs ht
    exact List.forall_mem_singleton.2 h
  | cons h _ ih =>
    subst hs
    exact List.forall_mem_cons.2 ⟨h, ih rfl ht⟩

/-- A scan of a text passes each piece from the start on. -/
theorem PassesAll.exists_passes {ps : List (List Char)} (h : PassesAll isSeparator s ps t)
    (hs : s = {}) : ∀ p ∈ ps, ∃ u, Passes isSeparator {} p u := by
  induction h with
  | last h =>
    subst hs
    exact List.forall_mem_singleton.2 ⟨_, h⟩
  | cons h _ ih =>
    subst hs
    exact List.forall_mem_cons.2 ⟨⟨_, h⟩, ih rfl⟩

theorem passesAll_of_forall {x : List Char} {xs : List (List Char)}
    (h : ∀ y ∈ x :: xs, Passes isSeparator {} y {}) : PassesAll isSeparator {} (x :: xs) {} := by
  induction xs generalizing x with
  | nil => exact .last (h x List.mem_cons_self)
  | cons y ys ih =>
    obtain ⟨hx, hys⟩ := List.forall_mem_cons.1 h
    exact .cons hx (ih hys)

theorem after_of_comma (c : Char) (hc : (c == ',') = true) : ({} : Scan).after c = {} := by
  rw [eq_of_beq hc]
  rfl

/-- An item starts with neither white space nor a comma. -/
theorem exists_head_of_mem_splitComma (h : item ∈ splitComma text) :
    ∃ c cs, item.toList = c :: cs ∧ isBlank c = false ∧ (c == ',') = false := by
  obtain ⟨htrimmed, hne⟩ := isTrimmed_of_mem_split h
  obtain ⟨c, cs, hitem⟩ := List.exists_cons_of_ne_nil hne
  refine ⟨c, cs, hitem, htrimmed.head c (by rw [hitem]; rfl), ?_⟩
  obtain ⟨piece, hpiece, -, rfl⟩ := mem_split.1 h
  rw [String.toList_ofList] at hitem
  obtain ⟨t, hpasses⟩ :=
    (passesAll_pieces after_of_comma {} text.toList).exists_passes rfl piece hpiece
  obtain ⟨lead, trail, heq, hlead, -⟩ := exists_trim piece
  rw [heq, hitem, List.append_assoc] at hpasses
  -- White space leads nowhere, so behind it a comma would still count.
  obtain ⟨s, hfirst, hrest⟩ := hpasses.split_append
  obtain rfl := hfirst.eq_of_blank Scan.unescaped_start hlead
  cases hrest with
  | cons hout _ => simpa [Scan.atTop] using hout

/-- Whatever comes behind an item, the text has an item. -/
theorem splitComma_append_ne_nil (h : item ∈ splitComma text) (rest : String) :
    splitComma (item ++ rest) ≠ [] := by
  obtain ⟨c, cs, hitem, hblank, hcomma⟩ := exists_head_of_mem_splitComma h
  have hfront : (item ++ rest).toList = c :: (cs ++ rest.toList) := by
    rw [String.toList_append, hitem, List.cons_append]
  exact split_ne_nil hfront hblank hcomma

/-! ## Joined items -/

/-- A text that is an item wherever it stands in a list with commas. -/
structure IsItem (item : String) : Prop where
  trimmed : IsTrimmed item.toList
  ne_nil : item.toList ≠ []
  passes : Passes (· == ',') {} item.toList {}

/-- The items of a closed text without backslashes are items wherever they stand. -/
theorem isItem_of_mem_splitComma (hclosed : ({} : Scan).afterAll text.toList = {})
    (hslash : '\\' ∉ text.toList) (h : item ∈ splitComma text) : IsItem item := by
  obtain ⟨htrimmed, hne⟩ := isTrimmed_of_mem_split h
  obtain ⟨piece, hpiece, -, rfl⟩ := mem_split.1 h
  refine ⟨htrimmed, hne, ?_⟩
  rw [String.toList_ofList]
  have hpasses := (passesAll_pieces after_of_comma {} text.toList).passes rfl hclosed piece hpiece
  exact hpasses.trim Scan.unescaped_start fun hmem => hslash (subset_of_mem_pieces hpiece hmem)

/-- Texts with commas and blanks between them are cut at these commas. -/
theorem pieces_intercalate {xs : List (List Char)} (h : PassesAll (· == ',') s xs t) :
    ∀ x rest, xs = x :: rest →
      pieces (· == ',') s (", ".toList.intercalate (x :: rest)) = x :: rest.map (' ' :: ·) := by
  induction h with
  | last h =>
    rintro x rest ⟨⟩
    have hx := pieces_of_passes h []
    rw [List.append_nil, pieces, prependFirst_cons, List.append_nil] at hx
    rwa [List.intercalate_singleton]
  | @cons s t piece ps h hps ih =>
    rintro x rest ⟨⟩
    obtain ⟨y, ys, rfl⟩ : ∃ y ys, ps = y :: ys := by
      cases hps with
      | last _ => exact ⟨_, [], rfl⟩
      | cons _ _ => exact ⟨_, _, rfl⟩
    -- The comma ends the piece before it, and the blank behind it goes into the next one.
    have hrest : pieces (· == ',') {} (", ".toList ++ ", ".toList.intercalate (y :: ys)) =
        [] :: consFirst ' ' (pieces (· == ',') {} (", ".toList.intercalate (y :: ys))) := rfl
    rw [List.intercalate_cons_cons, List.append_assoc, pieces_of_passes h, hrest, ih y ys rfl,
      prependFirst_cons, List.append_nil]
    rfl

/-- Trimmed texts that were joined are split again as they were, if a scan passes them one by
one. -/
theorem splitComma_joinComma_of_passesAll {items : List String}
    (htrimmed : ∀ item ∈ items, IsTrimmed item.toList ∧ item.toList ≠ [])
    (h : PassesAll (· == ',') {} (items.map String.toList) t) :
    splitComma (joinComma items) = items := by
  cases items with
  | nil => rfl
  | cons first rest =>
    have hpieces := pieces_intercalate h _ _ rfl
    have hblank : ∀ a ∈ [' '], isBlank a = true := List.forall_mem_singleton.2 (by decide)
    have htrim : (pieces (· == ',') {} (joinComma (first :: rest)).toList).map trim =
        (first :: rest).map String.toList := by
      rw [joinComma, String.toList_intercalate, List.map_cons, hpieces, List.map_cons, List.map_map,
        List.map_map, (htrimmed first List.mem_cons_self).1]
      refine congrArg _ (List.map_congr_left fun item hmem => ?_)
      exact (htrimmed item (List.mem_cons_of_mem _ hmem)).1.trim_prepend hblank
    have hkept : ((first :: rest).map String.toList).filter (!·.isEmpty) =
        (first :: rest).map String.toList := by
      rw [List.filter_eq_self, List.forall_mem_map]
      intro item hmem
      simpa using (htrimmed item hmem).2
    rw [splitComma, split, htrim, hkept, List.map_map]
    simp [Function.comp_def]

/-- Items that were joined are split again as they were. -/
theorem splitComma_joinComma {items : List String} (h : ∀ item ∈ items, IsItem item) :
    splitComma (joinComma items) = items := by
  cases items with
  | nil => rfl
  | cons first rest =>
    refine splitComma_joinComma_of_passesAll (fun item hmem => ⟨(h item hmem).trimmed,
      (h item hmem).ne_nil⟩) (passesAll_of_forall ?_)
    rw [← List.map_cons, List.forall_mem_map]
    exact fun item hmem => (h item hmem).passes

end ItemList

end ClassRules
