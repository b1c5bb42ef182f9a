import ClassRules.Proofs.Token.Cut

/-!
# Shapes of tokens

The kind of a token tells what its characters look like, as far as the parser counts on it.

## What this module delivers

- `BareToken.IsShaped`: the characters are those of the kind.
- `Cut.shaped`: the tokens of a text that nothing is wrong with are so.
- `exists_text_eq`, `text_of_atKeyword`, `text_of_comment`: what the tokens of any text begin with.
- `Token.IsWide`, `isWide_tokensFrom`: a token ends where its characters do.
-/

set_option autoImplicit false

namespace ClassRules

open Text

/-- The characters of a token are those that its kind has. -/
def BareToken.IsShaped (p : BareToken) : Prop :=
  match p.kind with
  | .blank => ∀ a ∈ p.chars, isBlank a = true
  | .openBrace => p.chars = ['{']
  | .closeBrace => p.chars = ['}']
  | .semicolon => p.chars = [';']
  | .colon => p.chars = [':']
  | .atKeyword => ∃ name, p.chars = '@' :: name ∧ ∀ a ∈ name, Lexeme.isNameChar a = true
  | .comment => ∃ text, p.chars = '/' :: '*' :: text ++ ['*', '/']
  | .stop => False
  | _ => True

namespace Lexeme

/-- A comment that is closed ends with its closing marks. -/
theorem exists_of_commentLength {cs : List Char} (h : (commentLength cs).2 = true) :
    ∃ text, cs.take (commentLength cs).1 = text ++ ['*', '/'] := by
  fun_induction commentLength cs with
  | case1 => cases h
  | case2 rest => exact ⟨[], rfl⟩
  | case3 c rest hc m closed heq ih =>
    rw [heq] at ih
    obtain ⟨text, htext⟩ := ih h
    exact ⟨c :: text, by rw [List.take_succ_cons, htext]; rfl⟩

theorem isShaped_of_punctuation {c : Char} {kind : Token.Kind} (h : punctuation? c = some kind) :
    BareToken.IsShaped ⟨kind, [c]⟩ := by
  unfold punctuation? at h
  split at h
  case h_10 => cases h
  all_goals (cases h; first | exact rfl | exact trivial)

/-- A run that is as long as the first of two parts is that part. -/
theorem all_of_length_takeWhile {p : Char → Bool} {more after : List Char}
    (h : ((more ++ after).takeWhile p).length = more.length) : ∀ a ∈ more, p a = true := by
  have hrun : (more ++ after).takeWhile p = more := by
    rw [List.prefix_iff_eq_take.1 (List.takeWhile_prefix p), h, List.take_left]
  rw [← hrun]
  exact List.all_eq_true.1 List.all_takeWhile

/-- The piece at the start of a text has the characters of its kind. -/
theorem isShaped_of_ofChars {c : Char} {more after : List Char} {kind : Token.Kind}
    (h : ofChars c (more ++ after) = ⟨kind, more.length, none⟩) :
    BareToken.IsShaped ⟨kind, c :: more⟩ := by
  -- One case for each way in which a piece can start.
  rcases ofChars_cases c (more ++ after) with
    ⟨cs, rfl, hcs⟩ | ⟨k, hk⟩ | hq | ⟨rfl, hname⟩ | hb | hw
  · rw [hcs, ofChars_comment] at h
    have hclosed := eq_true_of_fault h
    obtain ⟨rfl, hlen, -⟩ := Lexeme.mk.inj h
    obtain ⟨text, htext⟩ := exists_of_commentLength hclosed
    refine ⟨text, ?_⟩
    have hmore : more = ('*' :: cs).take ((commentLength cs).1 + 1) := by
      rw [hlen, ← hcs, List.take_left]
    rw [hmore, List.take_succ_cons, htext]
    rfl
  · rw [ofChars_punctuation hk] at h
    obtain ⟨rfl, hlen, -⟩ := Lexeme.mk.inj h
    rw [List.length_eq_zero_iff.1 hlen.symm]
    exact isShaped_of_punctuation hk
  · rw [ofChars_string hq] at h
    obtain ⟨rfl, -, -⟩ := Lexeme.mk.inj h
    trivial
  · rw [ofChars_atKeyword hname] at h
    obtain ⟨rfl, hlen, -⟩ := Lexeme.mk.inj h
    exact ⟨more, rfl, all_of_length_takeWhile hlen⟩
  · rw [ofChars_blank hb] at h
    obtain ⟨rfl, hlen, -⟩ := Lexeme.mk.inj h
    intro a ha
    rcases List.mem_cons.1 ha with rfl | ha
    · exact hb
    · exact all_of_length_takeWhile hlen a ha
  · rw [ofChars_word hw] at h
    obtain ⟨rfl, -, -⟩ := Lexeme.mk.inj h
    trivial

end Lexeme

theorem Cut.shaped {text rest : List Char} {ps : List BareToken} (h : Cut text ps rest) :
    ∀ p ∈ ps, p.IsShaped := by
  induction h with
  | done => exact fun p hp => absurd hp List.not_mem_nil
  | token head _ ih =>
    intro p hp
    rcases List.mem_cons.1 hp with rfl | hp
    · exact Lexeme.isShaped_of_ofChars head
    · exact ih p hp

/-! ## Beginnings of tokens -/

/-- A token is the piece at the start of a text, also where something is wrong with it. -/
theorem exists_ofChars (cs : List Char) (place : Position) {t : Token}
    (ht : t ∈ (tokensFrom ⟨cs, place⟩).tokens) (hstop : t.kind ≠ .stop) :
    ∃ c rest, t.kind = (Lexeme.ofChars c rest).kind ∧
      t.text.toList = c :: rest.take (Lexeme.ofChars c rest).more := by
  induction cs using Lexeme.piecewise generalizing place with
  | nil =>
    rw [tokensFrom_nil, List.mem_singleton] at ht
    rw [ht] at hstop
    exact absurd rfl hstop
  | cons c rest ih =>
    rw [tokensFrom_cons] at ht
    rcases List.mem_cons.1 ht with rfl | ht
    · exact ⟨c, rest, rfl, String.toList_ofList⟩
    · exact ih _ ht

section Beginnings

variable {source : String} {t : Token} (ht : t ∈ (tokenize source).tokens)
include ht

theorem text_ne_nil (hstop : t.kind ≠ .stop) : t.text.toList ≠ [] := by
  obtain ⟨c, rest, -, htext⟩ := exists_ofChars source.toList .start ht hstop
  rw [htext]
  exact List.cons_ne_nil _ _

/-- Only white space begins with white space. -/
theorem exists_text_eq (hstop : t.kind ≠ .stop) (hblank : t.kind ≠ .blank) :
    ∃ c more, t.text.toList = c :: more ∧ isBlank c = false := by
  obtain ⟨c, rest, hkind, htext⟩ := exists_ofChars source.toList .start ht hstop
  refine ⟨c, _, htext, Bool.eq_false_iff.2 fun hc => hblank ?_⟩
  rw [hkind, Lexeme.ofChars_blank hc]

/-- An at-keyword is an at-sign and a name. -/
theorem text_of_atKeyword (hkind : t.kind = .atKeyword) :
    ∃ name, t.text.toList = '@' :: name ∧ ∀ a ∈ name, Lexeme.isNameChar a = true := by
  obtain ⟨c, rest, hof, htext⟩ := exists_ofChars source.toList .start ht (by rw [hkind]; decide)
  obtain ⟨rfl, hname⟩ := Lexeme.at_of_kind (hof.symm.trans hkind)
  rw [Lexeme.ofChars_atKeyword hname,
    ← List.prefix_iff_eq_take.1 (List.takeWhile_prefix _)] at htext
  exact ⟨_, htext, List.all_eq_true.1 List.all_takeWhile⟩

/-- A comment begins with its opening marks. -/
theorem text_of_comment (hkind : t.kind = .comment) : ['/', '*'] <+: t.text.toList := by
  obtain ⟨c, rest, hof, htext⟩ := exists_ofChars source.toList .start ht (by rw [hkind]; decide)
  obtain ⟨rfl, cs, rfl⟩ := Lexeme.comment_of_kind (hof.symm.trans hkind)
  rw [htext, Lexeme.ofChars_comment, List.take_succ_cons]
  exact ⟨_, rfl⟩

end Beginnings

/-! ## Ends of tokens -/

/-- A token ends where its characters do. -/
def Token.IsWide (t : Token) : Prop :=
  t.span.stop.byte = t.span.start.byte + byteLength t.text.toList

theorem isWide_tokensFrom (cs : List Char) (place : Position) :
    ∀ t ∈ (tokensFrom ⟨cs, place⟩).tokens, t.IsWide := by
  induction cs using Lexeme.piecewise generalizing place with
  | nil =>
    rw [tokensFrom_nil]
    intro t ht
    rw [List.mem_singleton.1 ht]
    rfl
  | cons c rest ih =>
    rw [tokensFrom_cons]
    rintro t (_ | ⟨_, ht⟩)
    · rw [Token.IsWide, String.toList_ofList]
      exact byte_afterAll _ place
    · exact ih _ t ht

/-- The last of some tokens ends where they all do. -/
theorem stop_of_lies {byte : Nat} {tokens : List Token} {t : Token}
    (hwide : ∀ u ∈ tokens ++ [t], u.IsWide) (h : Lies byte (tokens ++ [t])) :
    t.span.stop.byte = byte + byteLength (spells ((tokens ++ [t]).map Token.bare)) := by
  induction tokens generalizing byte with
  | nil =>
    have hself : t.IsWide := hwide t List.mem_cons_self
    rw [hself, h.1]
    simp [Token.bare]
  | cons u tokens ih =>
    have hrest := ih (fun v hv => hwide v (List.mem_cons_of_mem _ hv)) h.2
    rw [hrest, List.cons_append, List.map_cons, spells_cons, byteLength_append, Nat.add_assoc]
    rfl

end ClassRules
