import ClassRules.Token.Lexer

/-!
# Pieces of a text

Which rule of the lexer applies to a text, and what becomes of a piece when the text goes on.

## What this module delivers

- `Lexeme.ofChars_cases`: one of six rules applies; `Lexeme.ofChars_comment` to `ofChars_word` say
  what each gives.
- `Lexeme.ofChars_more_le`: a piece lies within the text. `Lexeme.piecewise`: induction on a text,
  piece by piece.
- `Lexeme.cause_of_mem_fault`: what can be wrong with a piece.
- `Lexeme.starts_of_kind`: how a text starts, read off the kind of its first piece.
  `Lexeme.punctuation?_of_kind`: which kinds are those of single marks.
- `Delimits`: a text starts with a space, a semicolon or a colon. `Lexeme.ofChars_append`: before
  such a text a piece is what it is at the end of a text, except for white space and for a word that
  is not `Lexeme.isFinished`.
- `Lexeme.commentLength_of_not_infix`: a comment ends where it should around a text without an end
  mark.
-/

set_option autoImplicit false

namespace ClassRules

open Text

/-- The text starts with a space, a semicolon or a colon. -/
def Delimits (d : List Char) : Prop :=
  ∃ x e, d = x :: e ∧ (x = ' ' ∨ x = ';' ∨ x = ':')

theorem delimits_space (e : List Char) : Delimits (' ' :: e) := ⟨_, e, rfl, .inl rfl⟩

theorem delimits_semicolon (e : List Char) : Delimits (';' :: e) := ⟨_, e, rfl, .inr (.inl rfl)⟩

theorem delimits_colon (e : List Char) : Delimits (':' :: e) := ⟨_, e, rfl, .inr (.inr rfl)⟩

namespace Lexeme

/-- No backslash at the end of a word waits for the character that it takes with it. -/
def isFinished : List Char → Bool
  | [] => true
  | ['\\'] => false
  | '\\' :: _ :: rest => isFinished rest
  | _ :: rest => isFinished rest

variable {c x : Char} {rest d e : List Char} {kind : Token.Kind} {n : Nat}

theorem endsWord_of_delimiter (hx : x = ' ' ∨ x = ';' ∨ x = ':') (rest : List Char) :
    endsWord x rest = true := by
  rcases hx with rfl | rfl | rfl
  · have hblank : isBlank ' ' = true := by decide
    simp [endsWord, hblank]
  · rfl
  · rfl

theorem isNameChar_of_delimiter (hx : x = ' ' ∨ x = ';' ∨ x = ':') : isNameChar x = false := by
  rcases hx with rfl | rfl | rfl <;> decide

/-- The star that opens a comment is not the first character of a delimiter. -/
theorem head?_append_eq_star (hx : x = ' ' ∨ x = ';' ∨ x = ':') :
    (rest ++ x :: e).head? = some '*' ↔ rest.head? = some '*' := by
  cases rest with
  | nil => rcases hx with rfl | rfl | rfl <;> simp
  | cons a rest => rfl

theorem endsWord_append (hx : x = ' ' ∨ x = ';' ∨ x = ':') :
    endsWord c (rest ++ x :: e) = endsWord c rest := by
  have hstar : ((rest ++ x :: e).head? == some '*') = (rest.head? == some '*') := by
    rw [Bool.eq_iff_iff, beq_iff_eq, beq_iff_eq]
    exact head?_append_eq_star hx
  rw [endsWord, endsWord, hstar]

theorem wordLength_cons (hc : c ≠ '\\') :
    wordLength (c :: rest) = if endsWord c rest then 0 else wordLength rest + 1 := by
  rw [wordLength]
  · intro h
    exact absurd h hc
  · intro a b h
    exact absurd h hc

theorem isFinished_cons (hc : c ≠ '\\') : isFinished (c :: rest) = isFinished rest := by
  rw [isFinished]
  · intro h
    exact absurd h hc
  · intro a b h
    exact absurd h hc

/-- In the last two cases of `wordLength` the first character is no backslash, since the cases
before them took it. -/
theorem ne_backslash (h₁ : c = '\\' → rest = [] → False)
    (h₂ : ∀ a b, c = '\\' → rest = a :: b → False) : c ≠ '\\' := by
  intro hc
  cases rest with
  | nil => exact h₁ hc rfl
  | cons a b => exact h₂ a b hc rfl

/-- A word that is finished ends before a delimiter as it ends before the end of a text. -/
theorem wordLength_append (hx : x = ' ' ∨ x = ';' ∨ x = ':') (cs : List Char)
    (h : isFinished (cs.take (wordLength cs)) = true) :
    wordLength (cs ++ x :: e) = wordLength cs := by
  fun_induction wordLength cs with
  | case1 =>
    have hne : x ≠ '\\' := by rcases hx with rfl | rfl | rfl <;> decide
    rw [List.nil_append, wordLength_cons hne, if_pos (endsWord_of_delimiter hx e)]
  | case2 => exact absurd h (by decide)
  | case3 a rest ih =>
    rw [List.cons_append, List.cons_append, wordLength, ih h]
  | case4 c rest h₁ h₂ hends =>
    -- Only a star behind a slash can end a word there, and no delimiter is a star.
    rw [List.cons_append, wordLength_cons (ne_backslash h₁ h₂), endsWord_append hx, if_pos hends]
  | case5 c rest h₁ h₂ hends ih =>
    rw [List.take_succ_cons, isFinished_cons (ne_backslash h₁ h₂)] at h
    rw [List.cons_append, wordLength_cons (ne_backslash h₁ h₂), endsWord_append hx, if_neg hends,
      ih h]

/-- A comment that is closed is closed at the same place whatever follows. -/
theorem commentLength_append (cs : List Char) (h : (commentLength cs).2 = true) :
    commentLength (cs ++ d) = commentLength cs := by
  fun_induction commentLength cs with
  | case1 => exact absurd h (by decide)
  | case2 rest => rfl
  | case3 c rest hc m closed heq ih =>
    rw [heq] at ih
    have hrest := ih h
    -- A star at the end of an open comment could become a mark, but this comment is closed.
    rw [List.cons_append, commentLength, hrest]
    intro b hc' hb
    cases rest with
    | nil =>
      rw [commentLength] at heq
      cases heq
      cases h
    | cons a rest =>
      cases hb
      exact hc _ hc' rfl

theorem wordLength_le (cs : List Char) : wordLength cs ≤ cs.length := by
  fun_induction wordLength cs with
  | case1 => exact Nat.le_refl _
  | case2 => exact Nat.le_refl _
  | case3 a rest ih => exact Nat.add_le_add_right ih 2
  | case4 c rest h₁ h₂ hends => exact Nat.zero_le _
  | case5 c rest h₁ h₂ hends ih => exact Nat.add_le_add_right ih 1

theorem commentLength_le (cs : List Char) : (commentLength cs).1 ≤ cs.length := by
  fun_induction commentLength cs with
  | case1 => exact Nat.le_refl _
  | case2 rest => exact Nat.le_add_left 2 _
  | case3 c rest hc m closed heq ih =>
    rw [heq] at ih
    exact Nat.add_le_add_right ih 1

theorem stringLength_le (quote : Char) (cs : List Char) :
    (stringLength quote cs).1 ≤ cs.length := by
  fun_induction stringLength quote cs with
  | case1 => exact Nat.le_refl _
  | case2 rest => exact Nat.le_add_left 1 _
  | case3 rest hq => exact Nat.zero_le _
  | case4 hq hline => exact Nat.le_refl _
  | case5 a rest m closed heq hq hline ih =>
    rw [heq] at ih
    exact Nat.add_le_add_right ih 2
  | case6 c rest hq hline hslash m closed heq ih =>
    rw [heq] at ih
    exact Nat.add_le_add_right ih 1

/-- A string that is closed is closed at the same place whatever follows. -/
theorem stringLength_append {quote : Char} (cs : List Char)
    (h : (stringLength quote cs).2 = true) :
    stringLength quote (cs ++ d) = stringLength quote cs := by
  fun_induction stringLength quote cs with
  | case1 => exact absurd h (by decide)
  | case2 rest => rw [List.cons_append, stringLength.eq_def]; exact if_pos rfl
  | case3 rest hq => cases h
  | case4 hq hline => cases h
  | case5 a rest m closed heq hq hline ih =>
    rw [heq] at ih
    rw [List.cons_append, List.cons_append, stringLength.eq_def]
    simp only [if_neg hq, if_neg hline, if_true, ih h]
  | case6 c rest hq hline hslash m closed heq ih =>
    rw [heq] at ih
    rw [List.cons_append, stringLength.eq_def]
    simp only [if_neg hq, if_neg hline, if_neg hslash, ih h]

/-- A run of characters that stops inside a text, or before a character that does not belong to it,
stops there whatever follows. -/
theorem length_takeWhile_append {p : Char → Bool} (cs : List Char)
    (h : p x = false ∨ (cs.takeWhile p).length < cs.length) :
    ((cs ++ x :: e).takeWhile p).length = (cs.takeWhile p).length := by
  rw [List.takeWhile_append]
  split
  · rename_i hall
    rcases h with h | h
    · rw [List.takeWhile_cons, if_neg (by rw [h]; exact Bool.false_ne_true), List.append_nil, hall]
    · omega
  · rfl

/-! ## The six rules -/

theorem ofChars_comment (rest : List Char) :
    ofChars '/' ('*' :: rest) = ⟨.comment, (commentLength rest).1 + 1,
      if (commentLength rest).2 then none else some .unterminatedComment⟩ := rfl

theorem ofChars_punctuation (h : punctuation? c = some kind) (rest : List Char) :
    ofChars c rest = ⟨kind, 0, none⟩ := by
  have hslash : c ≠ '/' := by
    rintro rfl
    cases h
  rw [ofChars, if_neg (fun hc => hslash hc.1), h]

theorem ofChars_string (h : isQuote c = true) (rest : List Char) :
    ofChars c rest = ⟨.string, (stringLength c rest).1,
      if (stringLength c rest).2 then none else some .unterminatedString⟩ := by
  rw [isQuote, Bool.or_eq_true, beq_iff_eq, beq_iff_eq] at h
  rcases h with rfl | rfl <;> rfl

theorem ofChars_atKeyword (h : rest.head?.any isNameChar = true) :
    ofChars '@' rest = ⟨.atKeyword, (rest.takeWhile isNameChar).length, none⟩ := by
  have hat : punctuation? '@' = none ∧ isQuote '@' = false := by decide
  rw [ofChars, if_neg (by rintro ⟨h, -⟩; cases h), hat.1]
  simp only [hat.2, h]
  rfl

theorem isBlank_of_punctuation? (h : punctuation? c = some kind) : isBlank c = false := by
  unfold punctuation? at h
  split at h
  case h_10 => cases h
  all_goals decide

theorem isBlank_of_isQuote (h : isQuote c = true) : isBlank c = false := by
  rw [isQuote, Bool.or_eq_true, beq_iff_eq, beq_iff_eq] at h
  rcases h with rfl | rfl <;> decide

theorem ofChars_blank (h : isBlank c = true) (rest : List Char) :
    ofChars c rest = ⟨.blank, (rest.takeWhile isBlank).length, none⟩ := by
  have hne {a : Char} (ha : isBlank a = false) : c ≠ a := by
    rintro rfl
    rw [ha] at h
    cases h
  have hnone : punctuation? c = none := by
    cases hk : punctuation? c with
    | none => rfl
    | some kind => exact absurd rfl (hne (isBlank_of_punctuation? hk))
  have hquote : ¬ isQuote c = true := fun hq => hne (isBlank_of_isQuote hq) rfl
  have hslash : c ≠ '/' := hne (by decide)
  have hat : c ≠ '@' := hne (by decide)
  rw [ofChars, if_neg (fun hc => hslash hc.1), hnone]
  simp only
  rw [if_neg hquote, if_neg (fun hc => hat hc.1), if_pos h]

/-- What is left after the other rules is a word. -/
structure StartsWord (c : Char) (rest : List Char) : Prop where
  comment : ¬ (c = '/' ∧ rest.head? = some '*')
  punctuation : punctuation? c = none
  quote : ¬ isQuote c = true
  atKeyword : ¬ (c = '@' ∧ rest.head?.any isNameChar = true)
  blank : ¬ isBlank c = true

theorem ofChars_word (h : StartsWord c rest) :
    ofChars c rest = ⟨.word, wordLength (c :: rest) - 1, none⟩ := by
  rw [ofChars, if_neg h.comment, h.punctuation]
  simp only
  rw [if_neg h.quote, if_neg h.atKeyword, if_neg h.blank]

/-- What starts a word does not end one. -/
theorem StartsWord.endsWord_eq_false (h : StartsWord c rest) : endsWord c rest = false := by
  rw [endsWord, h.punctuation, Bool.eq_false_iff.2 h.quote, Bool.eq_false_iff.2 h.blank]
  rw [Bool.eq_false_iff]
  simpa using h.comment

/-- A word has a character. -/
theorem wordLength_pos (h : StartsWord c rest) : 0 < wordLength (c :: rest) := by
  by_cases hc : c = '\\'
  · subst hc
    cases rest with
    | nil => exact Nat.one_pos
    | cons a rest => exact Nat.succ_pos _
  · rw [wordLength_cons hc, h.endsWord_eq_false]
    exact Nat.succ_pos _

theorem StartsWord.wordLength_eq (h : StartsWord c rest) :
    wordLength (c :: rest) = (ofChars c rest).more + 1 := by
  rw [ofChars_word h]
  exact (Nat.sub_add_cancel (wordLength_pos h)).symm

/-- One of the six rules applies. -/
theorem ofChars_cases (c : Char) (rest : List Char) :
    (∃ cs, c = '/' ∧ rest = '*' :: cs) ∨ (∃ kind, punctuation? c = some kind) ∨
      isQuote c = true ∨ (c = '@' ∧ rest.head?.any isNameChar = true) ∨ isBlank c = true ∨
      StartsWord c rest := by
  by_cases hcomment : c = '/' ∧ rest.head? = some '*'
  · obtain ⟨cs, rfl⟩ := List.head?_eq_some_iff.1 hcomment.2
    exact .inl ⟨cs, hcomment.1, rfl⟩
  by_cases hpunct : punctuation? c = none
  case neg => exact .inr (.inl (Option.ne_none_iff_exists'.1 hpunct))
  by_cases hquote : isQuote c = true
  · exact .inr (.inr (.inl hquote))
  by_cases hat : c = '@' ∧ rest.head?.any isNameChar = true
  · exact .inr (.inr (.inr (.inl hat)))
  by_cases hblank : isBlank c = true
  · exact .inr (.inr (.inr (.inr (.inl hblank))))
  · exact .inr (.inr (.inr (.inr (.inr ⟨hcomment, hpunct, hquote, hat, hblank⟩))))

/-- A closed comment or string is one without a fault. -/
theorem eq_true_of_fault {b : Bool} {cause : ParseError.Cause} {m : Nat}
    {k : Token.Kind}
    (h : (⟨k, m, if b then none else some cause⟩ : Lexeme) = ⟨kind, n, none⟩) : b = true := by
  cases b with
  | true => rfl
  | false => cases h

theorem StartsWord.append (hx : x = ' ' ∨ x = ';' ∨ x = ':') (h : StartsWord c rest) :
    StartsWord c (rest ++ x :: e) := by
  refine ⟨fun hc => h.comment ⟨hc.1, (head?_append_eq_star hx).1 hc.2⟩, h.punctuation, h.quote,
    fun hc => h.atKeyword ⟨hc.1, ?_⟩, h.blank⟩
  cases rest with
  | nil =>
    have hname : isNameChar x = true := hc.2
    rw [isNameChar_of_delimiter hx] at hname
    cases hname
  | cons a rest => exact hc.2

/-- A piece without a fault is the same before a delimiter as before the end of a text, unless it is
a word with a backslash at its end or white space. -/
theorem ofChars_append (hx : x = ' ' ∨ x = ';' ∨ x = ':') (h : ofChars c rest = ⟨kind, n, none⟩)
    (hword : kind = .word → isFinished (c :: rest.take n) = true)
    (hblank : kind = .blank → n < rest.length) :
    ofChars c (rest ++ x :: e) = ⟨kind, n, none⟩ := by
  rcases ofChars_cases c rest with
    ⟨cs, rfl, rfl⟩ | ⟨k, hk⟩ | hq | ⟨rfl, hname⟩ | hb | hw
  · rw [ofChars_comment] at h
    rw [List.cons_append, ofChars_comment, commentLength_append cs (eq_true_of_fault h), h]
  · rw [ofChars_punctuation hk] at h ⊢
    exact h
  · rw [ofChars_string hq] at h
    rw [ofChars_string hq, stringLength_append rest (eq_true_of_fault h), h]
  · have hname' : (rest ++ x :: e).head?.any isNameChar = true := by
      cases rest with
      | nil => cases hname
      | cons a rest => exact hname
    rw [ofChars_atKeyword hname] at h
    rw [ofChars_atKeyword hname', length_takeWhile_append rest (.inl (isNameChar_of_delimiter hx)),
      h]
  · -- The run stops inside the text, so what follows the text does not lengthen it.
    rw [ofChars_blank hb] at h
    cases h
    rw [ofChars_blank hb, length_takeWhile_append rest (.inr (hblank rfl))]
  · have hlen := hw.wordLength_eq
    rw [ofChars_word hw] at h hlen
    cases h
    -- The first character is counted with the word, but not with what is more than it.
    have hfin : isFinished ((c :: rest).take (wordLength (c :: rest))) = true := by
      rw [hlen, List.take_succ_cons]
      exact hword rfl
    rw [ofChars_word (hw.append hx), ← List.cons_append, wordLength_append hx _ hfin]

/-- A piece lies within the text. -/
theorem ofChars_more_le (c : Char) (rest : List Char) :
    (ofChars c rest).more ≤ rest.length := by
  rcases ofChars_cases c rest with
    ⟨cs, rfl, rfl⟩ | ⟨k, hk⟩ | hq | ⟨rfl, hname⟩ | hb | hw
  · rw [ofChars_comment, List.length_cons]
    exact Nat.succ_le_succ (commentLength_le cs)
  · rw [ofChars_punctuation hk]
    exact Nat.zero_le _
  · rw [ofChars_string hq]
    exact stringLength_le c rest
  · rw [ofChars_atKeyword hname]
    exact (List.takeWhile_prefix _).length_le
  · rw [ofChars_blank hb]
    exact (List.takeWhile_prefix _).length_le
  · have hle := wordLength_le (c :: rest)
    rw [hw.wordLength_eq, List.length_cons] at hle
    exact Nat.le_of_succ_le_succ hle

/-- Induction on a text, piece by piece. -/
theorem piecewise {motive : List Char → Prop} (nil : motive [])
    (cons : ∀ (c : Char) (rest : List Char),
      motive (rest.drop (ofChars c rest).more) → motive (c :: rest))
    (cs : List Char) : motive cs := by
  induction hn : cs.length using Nat.strongRecOn generalizing cs with
  | ind n ih =>
    cases cs with
    | nil => exact nil
    | cons c rest =>
      have hlen : (rest.drop (ofChars c rest).more).length < n := by
        rw [← hn, List.length_drop, List.length_cons]
        omega
      exact cons c rest (ih _ hlen _ rfl)

/-- Only strings and comments are ever at fault. -/
theorem cause_of_mem_fault {cause : ParseError.Cause} (h : cause ∈ (ofChars c rest).fault) :
    cause = .unterminatedString ∨ cause = .unterminatedComment := by
  have hone {closed : Bool} {other : ParseError.Cause}
      (h : cause ∈ if closed then none else some other) : cause = other := by
    cases closed with
    | true => cases h
    | false => exact (Option.some.inj h).symm
  rcases ofChars_cases c rest with
    ⟨cs, rfl, rfl⟩ | ⟨k, hk⟩ | hq | ⟨rfl, hname⟩ | hb | hw
  · rw [ofChars_comment] at h
    exact .inr (hone h)
  · rw [ofChars_punctuation hk] at h
    cases h
  · rw [ofChars_string hq] at h
    exact .inl (hone h)
  · rw [ofChars_atKeyword hname] at h
    cases h
  · rw [ofChars_blank hb] at h
    cases h
  · rw [ofChars_word hw] at h
    cases h

/-- A name is what is left behind an at-sign. -/
theorem dropWhile_at {name : List Char} (h : ∀ a ∈ name, isNameChar a = true) :
    ('@' :: name).dropWhile (· == '@') = name := by
  rw [List.dropWhile_cons_of_pos rfl]
  cases name with
  | nil => rfl
  | cons a name =>
    apply List.dropWhile_cons_of_neg
    intro ha
    rw [beq_iff_eq] at ha
    exact absurd (h a List.mem_cons_self) (by rw [ha]; decide)

/-! ## What a kind tells -/

/-- How a text starts if its first piece is of the given kind. -/
def Starts (kind : Token.Kind) (c : Char) (rest : List Char) : Prop :=
  match kind with
  | .comment => c = '/' ∧ ∃ cs, rest = '*' :: cs
  | .string => isQuote c = true
  | .atKeyword => c = '@' ∧ rest.head?.any isNameChar = true
  | .blank => isBlank c = true
  | .word => StartsWord c rest
  | .stop => False
  | mark => punctuation? c = some mark

theorem starts_of_punctuation? (h : punctuation? c = some kind) (rest : List Char) :
    Starts kind c rest := by
  unfold punctuation? at h
  split at h
  case h_10 => cases h
  all_goals
    cases h
    exact rfl

/-- A text starts as the kind of its first piece says. -/
theorem starts_kind (c : Char) (rest : List Char) : Starts (ofChars c rest).kind c rest := by
  rcases ofChars_cases c rest with
    ⟨cs, rfl, rfl⟩ | ⟨k, hk⟩ | hq | ⟨rfl, hname⟩ | hb | hw
  · exact ⟨rfl, cs, rfl⟩
  · rw [ofChars_punctuation hk]
    exact starts_of_punctuation? hk rest
  · rw [ofChars_string hq]
    exact hq
  · rw [ofChars_atKeyword hname]
    exact ⟨rfl, hname⟩
  · rw [ofChars_blank hb]
    exact hb
  · rw [ofChars_word hw]
    exact hw

theorem starts_of_kind (h : (ofChars c rest).kind = kind) : Starts kind c rest :=
  h ▸ starts_kind c rest

theorem isBlank_of_kind (h : (ofChars c rest).kind = .blank) : isBlank c = true :=
  starts_of_kind h

theorem at_of_kind (h : (ofChars c rest).kind = .atKeyword) :
    c = '@' ∧ rest.head?.any isNameChar = true :=
  starts_of_kind h

theorem comment_of_kind (h : (ofChars c rest).kind = .comment) :
    c = '/' ∧ ∃ cs, rest = '*' :: cs :=
  starts_of_kind h

theorem startsWord_of_kind (h : (ofChars c rest).kind = .word) : StartsWord c rest :=
  starts_of_kind h

/-- The mark at the end is no piece of a text. -/
theorem ofChars_kind_ne_stop (c : Char) (rest : List Char) : (ofChars c rest).kind ≠ .stop :=
  fun h => (starts_of_kind h : Starts .stop c rest)

/-- A piece of any other kind is a punctuation mark. -/
theorem punctuation?_of_kind (h : (ofChars c rest).kind = kind)
    (hkind : kind ≠ .comment ∧ kind ≠ .string ∧ kind ≠ .atKeyword ∧ kind ≠ .blank ∧ kind ≠ .word) :
    punctuation? c = some kind := by
  obtain ⟨hcomment, hstring, hkeyword, hblank, hword⟩ := hkind
  have hstarts := starts_of_kind h
  cases kind with
  | comment => exact absurd rfl hcomment
  | string => exact absurd rfl hstring
  | atKeyword => exact absurd rfl hkeyword
  | blank => exact absurd rfl hblank
  | word => exact absurd rfl hword
  | stop => exact hstarts.elim
  | _ => exact hstarts

/-- The text of a comment does not close it, so the mark behind the text does. -/
theorem commentLength_of_not_infix (rest : List Char) :
    ∀ cs : List Char, ¬ ['*', '/'] <:+: cs →
      commentLength (cs ++ ' ' :: '*' :: '/' :: rest) = (cs.length + 3, true)
  | [], _ => rfl
  | c :: cs, h => by
    have hcs : ¬ ['*', '/'] <:+: cs := fun hi => h (hi.trans (List.suffix_cons c cs).isInfix)
    have ih := commentLength_of_not_infix rest cs hcs
    rw [List.cons_append, commentLength, ih]
    · rfl
    · intro b hc hb
      cases cs with
      | nil => cases hb
      | cons a cs =>
        cases hb
        subst hc
        exact h ⟨[], cs, rfl⟩

/-- A run of white space up to the end of a text consists of white space. -/
theorem isBlank_of_run (hk : ofChars c rest = ⟨.blank, rest.length, none⟩) :
    ∀ a ∈ c :: rest, isBlank a = true := by
  have hc : isBlank c = true := isBlank_of_kind (by rw [hk])
  rw [ofChars_blank hc] at hk
  have hlen : (rest.takeWhile isBlank).length = rest.length := congrArg Lexeme.more hk
  intro a ha
  rcases List.mem_cons.1 ha with rfl | ha
  · exact hc
  · rw [← (List.takeWhile_prefix isBlank).eq_of_length hlen] at ha
    exact List.all_eq_true.1 List.all_takeWhile a ha

end Lexeme

end ClassRules
