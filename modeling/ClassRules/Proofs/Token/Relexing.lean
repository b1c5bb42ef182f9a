import Mathlib.Data.List.TakeWhile
import ClassRules.Proofs.Token.Shape
import ClassRules.Proofs.Token.Tiling

/-!
# Tokens by themselves and side by side

The lexer looks one or two characters ahead, so what follows a token has a say in where it ends. It
has no other say: a token that is taken out of its text is found again as it was, also where the end
of the text or of a line cuts it off. And a token goes as far as it can: what follows a word or
white space could not have been part of it.

## What this module delivers

- `Lexeme.ofChars_take`: the piece at the start of a text is the piece at the start of itself. It
  comes down to the three scans: `Lexeme.wordLength_take`, `commentLength_take` and
  `stringLength_take`.
- `tokensFrom_piece`, `tokenize_text`: hence the text of a token is cut into this token alone.
- `Lexeme.endsBefore`: the kinds that a piece leaves to the next one. `isChain_tokensFrom`: hence no
  two neighbours among the tokens of a text could be joined.
- `tokenize_alone`: both for every text.
-/

set_option autoImplicit false

namespace ClassRules

open Text

/-- A token of the first kind may end where one of the second kind starts. A word goes on over what
would start a word or an at-keyword by itself, and white space over white space. -/
def Token.Kind.EndsBefore (kind next : Token.Kind) : Prop :=
  (kind = .word → next ≠ .word ∧ next ≠ .atKeyword) ∧ (kind = .blank → next ≠ .blank)

instance (kind next : Token.Kind) : Decidable (kind.EndsBefore next) :=
  inferInstanceAs (Decidable (_ ∧ _))

theorem Token.Kind.endsBefore_stop (kind : Token.Kind) : kind.EndsBefore .stop := by
  cases kind <;> decide

/-- The token where it stands in the text that consists of its characters. -/
def Token.alone (t : Token) : Token :=
  { t with span := ⟨.start, .behind t.text.toList⟩ }

namespace Lexeme

variable {c d : Char} {rest e : List Char} {n : Nat}

/-! ## The end of a piece as the end of the text -/

/-- A text that is cut off starts as it did, if anything is left of it. -/
theorem head?_of_take {a : Char} (h : (rest.take n).head? = some a) : rest.head? = some a := by
  rw [List.head?_take] at h
  split at h
  · cases h
  · exact h

/-- Cutting off what follows a character does not make it end a word. -/
theorem endsWord_of_take (h : endsWord c (rest.take n) = true) : endsWord c rest = true := by
  rw [endsWord, Bool.or_eq_true] at h ⊢
  refine h.imp_right fun hopen => ?_
  rw [Bool.and_eq_true, beq_iff_eq, beq_iff_eq] at hopen ⊢
  exact ⟨hopen.1, head?_of_take hopen.2⟩

theorem StartsWord.take (h : StartsWord c rest) (n : Nat) : StartsWord c (rest.take n) := by
  refine ⟨fun hc => h.comment ⟨hc.1, head?_of_take hc.2⟩, h.punctuation, h.quote,
    fun hc => h.atKeyword ⟨hc.1, ?_⟩, h.blank⟩
  obtain ⟨a, ha, hname⟩ := (Option.any_eq_true _ _).1 hc.2
  exact (Option.any_eq_true _ _).2 ⟨a, head?_of_take ha, hname⟩

theorem wordLength_take (cs : List Char) :
    wordLength (cs.take (wordLength cs)) = wordLength cs := by
  fun_induction wordLength cs with
  | case1 => rfl
  | case2 => rfl
  | case3 a rest ih => rw [List.take_succ_cons, List.take_succ_cons, wordLength, ih]
  | case4 c rest h₁ h₂ hends => rfl
  | case5 c rest h₁ h₂ hends ih =>
    -- The star that makes a slash end a word is cut off, or it was there before.
    rw [List.take_succ_cons, wordLength_cons (ne_backslash h₁ h₂),
      if_neg (fun h => hends (endsWord_of_take h)), ih]

theorem commentLength_take (cs : List Char) :
    commentLength (cs.take (commentLength cs).1) = commentLength cs := by
  fun_induction commentLength cs with
  | case1 => rfl
  | case2 rest => rfl
  | case3 c rest hc m closed heq ih =>
    rw [heq] at ih
    rw [List.take_succ_cons, commentLength, ih]
    -- A star with a slash before the cut would have closed the comment in the whole text as well.
    intro b hstar hslash
    obtain ⟨more, hmore⟩ := List.head?_eq_some_iff.1
      (head?_of_take (List.head?_eq_some_iff.2 ⟨b, hslash⟩))
    exact hc more hstar hmore

theorem stringLength_take (quote : Char) (cs : List Char) :
    stringLength quote (cs.take (stringLength quote cs).1) = stringLength quote cs := by
  fun_induction stringLength quote cs with
  | case1 => rfl
  | case2 rest => rw [List.take_succ_cons, stringLength.eq_def]; exact if_pos rfl
  | case3 rest hq => rfl
  | case4 hq hline =>
    rw [List.take_succ_cons, List.take_nil, stringLength.eq_def]
    simp only [if_neg hq, if_neg hline, if_true]
  | case5 a rest m closed heq hq hline ih =>
    rw [heq] at ih
    rw [List.take_succ_cons, List.take_succ_cons, stringLength.eq_def]
    simp only [if_neg hq, if_neg hline, if_true, ih]
  | case6 c rest hq hline hslash m closed heq ih =>
    rw [heq] at ih
    rw [List.take_succ_cons, stringLength.eq_def]
    simp only [if_neg hq, if_neg hline, if_neg hslash, ih]

/-- The piece at the start of a text is also found, with the same fault, where the text ends with
it. -/
theorem ofChars_take (c : Char) (rest : List Char) :
    ofChars c (rest.take (ofChars c rest).more) = ofChars c rest := by
  rcases ofChars_cases c rest with
    ⟨cs, rfl, rfl⟩ | ⟨k, hk⟩ | hq | ⟨rfl, hname⟩ | hb | hw
  · rw [ofChars_comment, List.take_succ_cons, ofChars_comment, commentLength_take]
  · rw [ofChars_punctuation hk, ofChars_punctuation hk]
  · rw [ofChars_string hq, ofChars_string hq, stringLength_take]
  · -- The first character of the name is not cut off, so an at-keyword still starts here.
    have hname' : (rest.takeWhile isNameChar).head?.any isNameChar = true := by
      cases rest with
      | nil => cases hname
      | cons a rest =>
        have ha : isNameChar a = true := hname
        rw [List.takeWhile_cons, if_pos ha]
        exact ha
    rw [ofChars_atKeyword hname, ← List.prefix_iff_eq_take.1 (List.takeWhile_prefix _),
      ofChars_atKeyword hname', List.takeWhile_idem]
  · rw [ofChars_blank hb rest, ← List.prefix_iff_eq_take.1 (List.takeWhile_prefix _),
      ofChars_blank hb, List.takeWhile_idem]
  · have htake := wordLength_take (c :: rest)
    rw [hw.wordLength_eq, List.take_succ_cons] at htake
    rw [ofChars_word (hw.take _), htake, ← hw.wordLength_eq, ofChars_word hw]

/-! ## What follows a piece -/

theorem endsWord_of_drop (cs : List Char) (h : cs.drop (wordLength cs) = d :: e) :
    endsWord d e = true := by
  fun_induction wordLength cs with
  | case1 => cases h
  | case2 => cases h
  | case3 a rest ih => exact ih h
  | case4 c rest h₁ h₂ hends =>
    cases h
    exact hends
  | case5 c rest h₁ h₂ hends ih => exact ih h

/-- What ends a word starts neither a word nor an at-keyword. -/
theorem kind_of_endsWord (h : endsWord c rest = true) :
    (ofChars c rest).kind ≠ .word ∧ (ofChars c rest).kind ≠ .atKeyword := by
  constructor
  · intro hword
    rw [(startsWord_of_kind hword).endsWord_eq_false] at h
    cases h
  · intro hkeyword
    obtain ⟨rfl, -⟩ := at_of_kind hkeyword
    have hat : isBlank '@' = false := by decide
    rw [endsWord, hat] at h
    cases h

theorem eq_false_of_drop_takeWhile {p : Char → Bool}
    (h : rest.drop (rest.takeWhile p).length = d :: e) : p d = false := by
  have hdrop : rest.dropWhile p = d :: e := calc
    rest.dropWhile p
      = (rest.takeWhile p ++ rest.dropWhile p).drop (rest.takeWhile p).length := List.drop_left.symm
    _ = rest.drop (rest.takeWhile p).length := by rw [List.takeWhile_append_dropWhile]
    _ = d :: e := h
  have hfirst := List.head?_dropWhile_not p rest
  rwa [hdrop] at hfirst

/-- A piece takes all that it can: the next one is of a kind that it leaves. -/
theorem endsBefore (h : rest.drop (ofChars c rest).more = d :: e) :
    (ofChars c rest).kind.EndsBefore (ofChars d e).kind := by
  refine ⟨fun hkind => kind_of_endsWord (endsWord_of_drop (c :: rest) ?_), fun hkind hnext => ?_⟩
  · rw [(startsWord_of_kind hkind).wordLength_eq, List.drop_succ_cons]
    exact h
  · have hc := isBlank_of_kind hkind
    have hd := isBlank_of_kind hnext
    rw [ofChars_blank hc] at h
    rw [eq_false_of_drop_takeWhile h] at hd
    cases hd

end Lexeme

/-! ## All tokens of a text -/

/-- The piece at the start of a text is the one token of the text that ends with it. -/
theorem tokensFrom_piece (c : Char) (rest : List Char) (place : Position) :
    let piece := c :: rest.take (Lexeme.ofChars c rest).more
    let span : Span := ⟨place, place.afterAll piece⟩
    tokensFrom ⟨piece, place⟩ =
      ⟨[⟨(Lexeme.ofChars c rest).kind, span, String.ofList piece⟩, .stopAt span.stop],
        ((Lexeme.ofChars c rest).fault.map (⟨·, span⟩)).toList⟩ := by
  intro piece span
  rw [tokensFrom_cons, Lexeme.ofChars_take, List.take_take, Nat.min_self, List.drop_take_self,
    tokensFrom_nil, List.append_nil]

/-- The text of a token is cut into this token alone. -/
theorem tokenize_text {source : String} {t : Token} (ht : t ∈ (tokenize source).tokens)
    (hstop : t.kind ≠ .stop) :
    (tokenize t.text).tokens = [t.alone, .stopAt t.alone.span.stop] := by
  obtain ⟨c, rest, hkind, htext⟩ := exists_ofChars source.toList .start ht hstop
  have halone : t.alone = ⟨(Lexeme.ofChars c rest).kind,
      ⟨.start, Position.start.afterAll (c :: rest.take (Lexeme.ofChars c rest).more)⟩,
      String.ofList (c :: rest.take (Lexeme.ofChars c rest).more)⟩ := by
    rw [Token.alone, hkind, Position.start_afterAll, ← htext, String.ofList_toList]
  rw [tokenize, Cursor.ofText, htext, tokensFrom_piece, halone]

/-- No token of a text could have gone further. -/
theorem isChain_tokensFrom (cs : List Char) (place : Position) :
    (tokensFrom ⟨cs, place⟩).tokens.IsChain fun t u => t.kind.EndsBefore u.kind := by
  induction cs using Lexeme.piecewise generalizing place with
  | nil =>
    rw [tokensFrom_nil]
    exact List.isChain_singleton _
  | cons c rest ih =>
    rw [tokensFrom_cons]
    refine (ih _).cons fun u hu => ?_
    -- The neighbour is the mark at the end or the piece at the start of what is left.
    cases hrest : rest.drop (Lexeme.ofChars c rest).more with
    | nil =>
      rw [hrest, tokensFrom_nil] at hu
      cases hu
      exact Token.Kind.endsBefore_stop _
    | cons d e =>
      rw [hrest, tokensFrom_cons] at hu
      cases hu
      exact Lexeme.endsBefore hrest

/-- Every token of a text is found again, and nothing else, in the text that consists of it alone.
And every token goes as far as it can: no word stands directly before a word or an at-keyword, and
no white space directly before white space. -/
theorem tokenize_alone (source : String) :
    (∀ t ∈ (tokenize source).tokens, t.kind ≠ .stop →
        (tokenize t.text).tokens = [t.alone, .stopAt t.alone.span.stop]) ∧
      (tokenize source).tokens.IsChain fun t u => t.kind.EndsBefore u.kind :=
  ⟨fun _ ht hstop => tokenize_text ht hstop, isChain_tokensFrom source.toList .start⟩

/-- A word that an escape carries over a blank and that a comment ends, and a string that the end of
its line cuts off. -/
theorem tokenize_alone_cut_off :
    let tokens := (tokenize "@.a\\ /b/*c*/\"d\n@e").tokens
    let word : Token := ⟨.word, ⟨⟨0, 0, 0⟩, ⟨7, 0, 7⟩⟩, "@.a\\ /b"⟩
    let string : Token := ⟨.string, ⟨⟨12, 0, 12⟩, ⟨14, 0, 14⟩⟩, "\"d"⟩
    (word ∈ tokens ∧ word.kind ≠ .stop ∧
        (tokenize word.text).tokens = [word, .stopAt ⟨7, 0, 7⟩]) ∧
      string ∈ tokens ∧ string.kind ≠ .stop ∧
        (tokenize string.text).tokens =
          [{ string with span := ⟨⟨0, 0, 0⟩, ⟨2, 0, 2⟩⟩ }, .stopAt ⟨2, 0, 2⟩] := by
  intro tokens word string
  have hword : word ∈ tokens := by decide +kernel
  have hstring : string ∈ tokens := by decide +kernel
  have hfirst : word.alone = word := by decide +kernel
  have hmoved : string.alone = { string with span := ⟨⟨0, 0, 0⟩, ⟨2, 0, 2⟩⟩ } := by decide +kernel
  obtain ⟨halone, -⟩ := tokenize_alone "@.a\\ /b/*c*/\"d\n@e"
  have hwords := halone word hword (by decide)
  have hstrings := halone string hstring (by decide)
  rw [hfirst] at hwords
  rw [hmoved] at hstrings
  exact ⟨⟨hword, by decide, hwords⟩, hstring, by decide, hstrings⟩

end ClassRules
