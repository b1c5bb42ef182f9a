import ClassRules.Proofs.ItemList.TokenItems
import ClassRules.Proofs.Token.Tiling

/-!
# Items as slices

A list is cut by a scan of its characters, which knows nothing of tokens, and the tokens are found
by a lexer that knows nothing of lists. Where no comment stands the two agree: a list is cut at its
commas, or at its white space, where these are tokens outside parentheses.

## What this module delivers

- `stretches`, `slicesBetween?`: the slices of a text between its tokens of a kind, and `itemsOf`:
  what is left of them.
- `not_isNameChar_of_isBlank`, `separates_blank`: white space separates as commas do.
- `CutsAlike`, `Separates.cutsAlike`: a scan and the tokens cut the rest of a text alike.
- `split_eq_slicesBetween`: the items of a text are its slices between commas, or between white
  space.
-/

set_option autoImplicit false

namespace ClassRules

open Text

namespace ItemList

/-! ## Slices between tokens -/

/-- The stretches between those tokens of a kind that stand outside parentheses, each from one byte
to another. The first one starts at the given byte. -/
def stretches (separator : Token.Kind) (depth start : Nat) : List Token → List (Nat × Nat)
  | [] => []
  | t :: ts =>
    if t.kind = .stop then [(start, t.span.start.byte)]
    else if t.kind = separator ∧ depth = 0 then
      (start, t.span.start.byte) :: stretches separator depth t.span.stop.byte ts
    else stretches separator (parenDepth depth t.kind) start ts

/-- The slices of a text between those of its tokens of a kind that stand outside parentheses. -/
def slicesBetween? (separator : Token.Kind) (text : String) : Option (List (List Char)) :=
  (stretches separator 0 0 (tokenize text).tokens).mapM fun s => slice? text.toList s.1 s.2

/-- Slices without the white space at their ends, the empty ones left out. -/
def itemsOf (slices : List (List Char)) : List String :=
  ((slices.map trim).filter (!·.isEmpty)).map String.ofList

theorem itemsOf_append (ps qs : List (List Char)) :
    itemsOf (ps ++ qs) = itemsOf ps ++ itemsOf qs := by
  simp [itemsOf]

theorem itemsOf_cons (p : List Char) (ps : List (List Char)) :
    itemsOf (p :: ps) = itemsOf [p] ++ itemsOf ps :=
  itemsOf_append [p] ps

/-! ## White space as a separator -/

/-- The code points of white space, one by one. -/
def blankCodes : List Nat :=
  blankRanges.flatMap fun r => List.range' r.1 (r.2 + 1 - r.1)

theorem mem_blankCodes {c : Char} (h : isBlank c = true) : c.toNat ∈ blankCodes := by
  have hincreasing : CodeRange.Increasing blankRanges := by
    unfold CodeRange.Increasing
    decide
  obtain ⟨r, hr, hlo, hhi⟩ := (CodeRange.covers_iff hincreasing c.toNat).1 h
  refine List.mem_flatMap.2 ⟨r, hr, List.mem_range'_1.2 ⟨hlo, ?_⟩⟩
  omega

/-- No name has white space in it. -/
theorem not_isNameChar_of_isBlank {c : Char} (h : isBlank c = true) :
    Lexeme.isNameChar c = false := by
  have hall : blankCodes.all (fun n => !Lexeme.isNameChar (Char.ofNat n)) = true := by
    decide +kernel
  have hc := List.all_eq_true.1 hall _ (mem_blankCodes h)
  rwa [Char.ofNat_toNat, Bool.not_eq_true'] at hc

/-- White space separates the items of a list as commas do. -/
theorem separates_blank : Separates isBlank .blank where
  endsWord c rest h := by simp [Lexeme.endsWord, h]
  isNameChar c h := by
    by_contra hblank
    rw [not_isNameChar_of_isBlank (Bool.not_eq_false _ ▸ hblank)] at h
    cases h
  kind_eq c rest h := by rw [Lexeme.ofChars_blank h]
  all c more after h := Lexeme.isShaped_of_ofChars h

/-! ## Cuts of a text -/

variable {isSeparator : Char → Bool} {separator : Token.Kind}

theorem prependFirst_append (cs ds : List Char) (ps : List (List Char)) :
    prependFirst (cs ++ ds) ps = prependFirst cs (prependFirst ds ps) :=
  List.foldr_append

/-- Between separators that follow one another there is no item. -/
theorem itemsOf_pieces_of_separators {cs : List Char} (h : ∀ a ∈ cs, isSeparator a = true)
    (ds : List Char) :
    itemsOf (pieces isSeparator {} (cs ++ ds)) = itemsOf (pieces isSeparator {} ds) := by
  induction cs with
  | nil => rfl
  | cons c cs ih =>
    obtain ⟨hc, hcs⟩ := List.forall_mem_cons.1 h
    have hcut : (({} : Scan).atTop && isSeparator c) = true := by rw [hc]; rfl
    rw [List.cons_append, pieces, if_pos hcut, itemsOf_cons, ih hcs]
    rfl

/-- A scan and the tokens cut the rest `cs` of a text alike, which starts at `place` and has the
given tokens: if a stretch has begun behind the text `front` and holds `current` so far, the slices
up to the end of the text have the items that a scan finds, `current` put before what is left. -/
def CutsAlike (isSeparator : Char → Bool) (separator : Token.Kind) (text cs : List Char)
    (place : Position) (tokens : List Token) : Prop :=
  ∀ (depth : Nat) (front current : List Char), (∀ t ∈ tokens, t.kind ≠ .comment) →
    text = front ++ current ++ cs → place.byte = byteLength (front ++ current) →
    ∃ slices, (stretches separator depth (byteLength front) tokens).mapM
        (fun s => slice? text s.1 s.2) = some slices ∧
      itemsOf slices =
        itemsOf (prependFirst current (pieces isSeparator ⟨none, depth, false⟩ cs))

theorem Separates.cutsAlike (sep : Separates isSeparator separator) (text cs : List Char)
    (place : Position) (herrors : (tokensFrom ⟨cs, place⟩).errors = []) :
    CutsAlike isSeparator separator text cs place (tokensFrom ⟨cs, place⟩).tokens := by
  refine tokensFrom_induction (P := CutsAlike isSeparator separator text) ?stop ?token cs place
    herrors
  case stop =>
    intro place depth front current _ htext hplace
    -- The last stretch goes up to the end of the text.
    have hslice : slice? text (byteLength front) place.byte = some current := by
      rw [htext, hplace, byteLength_append]
      exact slice?_append _ _ _
    refine ⟨[current], ?_, ?_⟩
    · simp [stretches, Token.stopAt, hslice]
    · rw [pieces, prependFirst_cons, List.append_nil]
  case token =>
    intro c more after kind place later head ih depth front current hcomments htext hplace
    obtain ⟨hcomment, hlater⟩ := List.forall_mem_cons.1 hcomments
    have hstop : kind ≠ .stop := by
      have hne := Lexeme.ofChars_kind_ne_stop c (more ++ after)
      rwa [head] at hne
    have hbyte : (place.afterAll (c :: more)).byte =
        byteLength (front ++ current ++ c :: more) := by
      rw [byte_afterAll, hplace, byteLength_append _ (c :: more)]
    rw [← List.append_assoc] at htext
    rw [stretches, if_neg hstop]
    by_cases hcut : kind = separator ∧ depth = 0
    · -- The stretch ends here, and the next one begins behind the token.
      obtain ⟨rfl, rfl⟩ := hcut
      have hslice : slice? text (byteLength front) place.byte = some current := by
        rw [htext, hplace, byteLength_append, List.append_assoc _ _ after]
        exact slice?_append _ _ _
      obtain ⟨slices, hslices, hitems⟩ := ih 0 (front ++ current ++ c :: more) [] hlater
        (by rw [List.append_nil]; exact htext) (by rw [List.append_nil]; exact hbyte)
      have hsep := sep.all c more after head
      obtain ⟨hc, hmore⟩ := List.forall_mem_cons.1 hsep
      have hpieces : pieces isSeparator ⟨none, 0, false⟩ (c :: more ++ after) =
          [] :: pieces isSeparator {} (more ++ after) := by
        rw [List.cons_append, pieces, if_pos (by rw [hc]; rfl)]
      refine ⟨current :: slices, ?_, ?_⟩
      · rw [if_pos ⟨rfl, rfl⟩, List.mapM_cons, hslice, hbyte, hslices]
        rfl
      · rw [hpieces, prependFirst_cons, List.append_nil, itemsOf_cons _ slices, hitems,
          itemsOf_cons _ (pieces _ _ _), itemsOf_pieces_of_separators hmore]
        rfl
    · -- The token goes on with the stretch.
      rw [if_neg hcut]
      obtain ⟨slices, hslices, hitems⟩ := ih (parenDepth depth kind) front (current ++ c :: more)
        hlater (by rw [← List.append_assoc]; exact htext)
        (by rw [← List.append_assoc]; exact hbyte)
      obtain ⟨t, hpasses, ht⟩ :=
        sep.exists_passes_of_ofChars head (fun hkind => absurd hkind hcomment) hcut
      refine ⟨slices, hslices, ?_⟩
      rw [hitems, pieces_of_passes hpasses, prependFirst_append]
      rcases ht with rfl | rfl
      · rfl
      · rfl

/-- The items of a text are the slices between its separators. -/
theorem Separates.slicesBetween (sep : Separates isSeparator separator) {text : String}
    (herrors : (tokenize text).errors = [])
    (hcomment : ∀ t ∈ (tokenize text).tokens, t.kind ≠ .comment) :
    (slicesBetween? separator text).map itemsOf = some (split isSeparator text) := by
  obtain ⟨slices, hslices, hitems⟩ :=
    sep.cutsAlike text.toList text.toList .start herrors 0 [] [] hcomment rfl rfl
  exact Option.map_eq_some_iff.2 ⟨slices, hslices, hitems⟩

/-- Let the lexer find no fault with a text and no comment in it. Then its items set apart by commas
are its slices between the commas that are tokens outside parentheses, and its items set apart by
white space are its slices between the white space that is a token outside parentheses, trimmed and
the empty ones left out. -/
theorem split_eq_slicesBetween {text : String} (herrors : (tokenize text).errors = [])
    (hcomment : ∀ t ∈ (tokenize text).tokens, t.kind ≠ .comment) :
    (slicesBetween? .comma text).map itemsOf = some (splitComma text) ∧
      (slicesBetween? .blank text).map itemsOf = some (splitSpace text) :=
  ⟨separates_comma.slicesBetween herrors hcomment, separates_blank.slicesBetween herrors hcomment⟩

/-- For instance, with escaped separators, and with separators and a quote in strings and
parentheses. -/
theorem split_eq_slicesBetween_escaped :
    let text := "a\\,b c\\ , \"d, \\\" e\"(f ,')') ,, @g ]h"
    (slicesBetween? .comma text).map itemsOf =
        some ["a\\,b c\\", "\"d, \\\" e\"(f ,')')", "@g ]h"] ∧
      (slicesBetween? .blank text).map itemsOf =
        some ["a\\,b", "c\\ ,", "\"d, \\\" e\"(f ,')')", ",,", "@g", "]h"] := by
  intro text
  have herrors : (tokenize text).errors = [] := by decide +kernel
  have hcomment : ∀ t ∈ (tokenize text).tokens, t.kind ≠ .comment := by decide +kernel
  obtain ⟨hcomma, hblank⟩ := split_eq_slicesBetween herrors hcomment
  rw [hcomma, hblank]
  decide +kernel

end ItemList

end ClassRules
