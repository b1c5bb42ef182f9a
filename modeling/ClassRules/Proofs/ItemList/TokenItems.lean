import ClassRules.Proofs.ItemList.Pieces
import ClassRules.Proofs.Token.Shape

/-!
# Items between tokens

The scan that cuts a list of items goes from character to character and knows nothing of tokens. On
a text that the lexer finds no fault with it still cuts where a comma is a token of its own outside
parentheses, as strings and escapes mean the same to both. Only comments do not: to the scan their
characters are those of any text.

## What this module delivers

- `commaPieces`, `tokenItems`: the texts between the commas that are tokens outside parentheses, and
  the items among them.
- `isMark`: the characters that a scan counts; a comment without them is passed over.
- `Separates`: separators that tokens of one kind are made of; `separates_comma`: commas are so.
- `Separates.exists_passes_of_ofChars`: what a scan knows behind a token, one case for each rule of
  the lexer. `pieces_of_cut`: what it cuts a text into, token by token.
- `splitComma_eq_tokenItems`: the items are those between tokens, if no comment has a mark in it.
-/

set_option autoImplicit false

namespace ClassRules

open Text

namespace ItemList

/-- The number of open parentheses behind a token. One that closes nothing does not count. -/
def parenDepth (depth : Nat) : Token.Kind → Nat
  | .openParen => depth + 1
  | .closeParen => depth - 1
  | _ => depth

/-- The texts between those commas among the tokens that stand outside parentheses. -/
def commaPieces (depth : Nat) : List BareToken → List (List Char)
  | [] => [[]]
  | p :: ps =>
    if p.kind = .comma ∧ depth = 0 then [] :: commaPieces depth ps
    else prependFirst p.chars (commaPieces (parenDepth depth p.kind) ps)

/-- The items of a text between those of its commas that are tokens outside parentheses. -/
def tokenItems (text : String) : List String :=
  (((commaPieces 0 ((tokenize text).tokens.map Token.bare)).map trim).filter
    (!·.isEmpty)).map String.ofList

/-- Commas, quotes and parentheses. -/
def isMark (c : Char) : Bool :=
  c == ',' || c == '"' || c == '\'' || c == '(' || c == ')'

/-- The separators are what tokens of one kind are made of. They end words, and no name has one. -/
structure Separates (isSeparator : Char → Bool) (kind : Token.Kind) : Prop where
  endsWord : ∀ c rest, isSeparator c = true → Lexeme.endsWord c rest = true
  isNameChar : ∀ c, Lexeme.isNameChar c = true → isSeparator c = false
  kind_eq : ∀ c rest, isSeparator c = true → (Lexeme.ofChars c rest).kind = kind
  all : ∀ c more after, Lexeme.ofChars c (more ++ after) = ⟨kind, more.length, none⟩ →
    ∀ a ∈ c :: more, isSeparator a = true

/-! ## Scans of single tokens -/

variable {isSeparator : Char → Bool} {separator : Token.Kind} {depth : Nat} {cs : List Char}
  {c : Char}

theorem ne_of_not_isMark (h : isMark c = false) :
    c ≠ ',' ∧ c ≠ '"' ∧ c ≠ '\'' ∧ c ≠ '(' ∧ c ≠ ')' := by
  simpa [isMark, and_assoc] using h

/-- Outside quotes a character that is no mark counts only as a backslash. -/
theorem after_of_not_isMark (h : isMark c = false) (escaped : Bool) :
    (⟨none, depth, escaped⟩ : Scan).after c = ⟨none, depth, !escaped && c == '\\'⟩ := by
  obtain ⟨-, hdouble, hsingle, hopen, hclose⟩ := ne_of_not_isMark h
  cases escaped with
  | true => rfl
  | false =>
    by_cases hslash : c = '\\'
    · simp [Scan.after, hslash]
    · simp [Scan.after, hslash, hdouble, hsingle, hopen, hclose]

/-- A text without marks and separators is passed over, but a backslash may be the last of it. -/
theorem exists_passes_of_not_isMark (depth : Nat)
    (h : ∀ a ∈ cs, isMark a = false ∧ isSeparator a = false) (escaped : Bool) :
    ∃ escaped', Passes isSeparator ⟨none, depth, escaped⟩ cs ⟨none, depth, escaped'⟩ ∧
      (escaped = false → '\\' ∉ cs → escaped' = false) := by
  induction cs generalizing escaped with
  | nil => exact ⟨escaped, .nil _, fun h _ => h⟩
  | cons c cs ih =>
    obtain ⟨⟨hc, hsep⟩, hcs⟩ := List.forall_mem_cons.1 h
    obtain ⟨escaped', hpasses, hkept⟩ := ih hcs (!escaped && c == '\\')
    refine ⟨escaped', .cons (by rw [hsep, Bool.and_false]) ?_, fun hescaped hslash => ?_⟩
    · rwa [after_of_not_isMark hc]
    · rw [List.mem_cons, not_or] at hslash
      refine hkept ?_ hslash.2
      simpa [hescaped] using Ne.symm hslash.1

/-- The marks that a comment ends with close it to the scan as well, even behind a backslash. -/
theorem passes_comment (h : ∀ a ∈ cs ++ ['*', '/'], isMark a = false ∧ isSeparator a = false) :
    Passes isSeparator ⟨none, depth, false⟩ (cs ++ ['*', '/']) ⟨none, depth, false⟩ := by
  obtain ⟨hcs, hend⟩ := List.forall_mem_append.1 h
  obtain ⟨escaped, hpasses, -⟩ := exists_passes_of_not_isMark depth hcs false
  obtain ⟨⟨hstar, hstarSep⟩, hrest⟩ := List.forall_mem_cons.1 hend
  obtain ⟨hslash, hslashSep⟩ := List.forall_mem_singleton.1 hrest
  refine hpasses.append
    (.cons (by rw [hstarSep, Bool.and_false]) (.cons (by rw [hslashSep, Bool.and_false]) ?_))
  have hafter : (⟨none, depth, escaped⟩ : Scan).after '*' = ⟨none, depth, false⟩ := by
    rw [after_of_not_isMark hstar]
    simp
  rw [hafter, after_of_not_isMark hslash]
  exact .nil _

/-- A string that is closed closes its quote, and nothing in it counts. -/
theorem passes_string (depth : Nat) {quote : Char} (hquote : Lexeme.isQuote quote = true)
    (cs : List Char) (h : (Lexeme.stringLength quote cs).2 = true) :
    Passes isSeparator ⟨some quote, depth, false⟩ (cs.take (Lexeme.stringLength quote cs).1)
      ⟨none, depth, false⟩ := by
  have hslash : quote ≠ '\\' := by
    rintro rfl
    cases hquote
  -- Nothing counts as long as the quote is open, so no step has to look for separators.
  fun_induction Lexeme.stringLength quote cs with
  | case1 => cases h
  | case2 rest =>
    rw [List.take_succ_cons, List.take_zero]
    refine .cons rfl ?_
    have hclosed : (⟨some quote, depth, false⟩ : Scan).after quote = ⟨none, depth, false⟩ := by
      simp [Scan.after, hslash]
    rw [hclosed]
    exact .nil _
  | case3 rest hq => cases h
  | case4 hq hline => cases h
  | case5 a rest m closed heq hq hline ih =>
    rw [heq] at ih
    rw [List.take_succ_cons, List.take_succ_cons]
    exact .cons rfl (.cons rfl (ih h))
  | case6 c rest hq hline hslash' m closed heq ih =>
    rw [heq] at ih
    rw [List.take_succ_cons]
    have hsame : (⟨some quote, depth, false⟩ : Scan).after c = ⟨some quote, depth, false⟩ := by
      simp [Scan.after, hslash', hq]
    refine .cons rfl ?_
    rw [hsame]
    exact ih h

/-- What does not end a word is no mark. -/
theorem not_isMark_of_not_endsWord {rest : List Char} (h : ¬ Lexeme.endsWord c rest = true) :
    isMark c = false := by
  by_contra hmark
  rw [Bool.not_eq_false, isMark] at hmark
  simp only [Bool.or_eq_true, beq_iff_eq] at hmark
  rcases hmark with (((rfl | rfl) | rfl) | rfl) | rfl <;> exact h rfl

/-- What does not end a word is no separator. -/
theorem Separates.not_of_not_endsWord (sep : Separates isSeparator separator) (rest : List Char)
    (h : Lexeme.endsWord c rest = false) : isSeparator c = false := by
  by_contra hc
  rw [sep.endsWord c rest (Bool.not_eq_false _ ▸ hc)] at h
  cases h

/-- A word is passed over. A backslash without a character to take with it ends the text. -/
theorem Separates.exists_passes_word (sep : Separates isSeparator separator) (depth : Nat)
    (cs : List Char) : ∃ t,
    Passes isSeparator ⟨none, depth, false⟩ (cs.take (Lexeme.wordLength cs)) t ∧
      (t = ⟨none, depth, false⟩ ∨ cs.drop (Lexeme.wordLength cs) = []) := by
  have hbackslash : isSeparator '\\' = false := sep.not_of_not_endsWord [] (by decide)
  fun_induction Lexeme.wordLength cs with
  | case1 => exact ⟨_, .nil _, .inl rfl⟩
  | case2 => exact ⟨_, .cons (by rw [hbackslash, Bool.and_false]) (.nil _), .inr rfl⟩
  | case3 a rest ih =>
    obtain ⟨t, hpasses, ht⟩ := ih
    rw [List.take_succ_cons, List.take_succ_cons]
    exact ⟨t, .cons (by rw [hbackslash, Bool.and_false]) (.cons rfl hpasses), ht⟩
  | case4 c rest h₁ h₂ hends => exact ⟨_, .nil _, .inl rfl⟩
  | case5 c rest h₁ h₂ hends ih =>
    obtain ⟨t, hpasses, ht⟩ := ih
    have hmark := not_isMark_of_not_endsWord hends
    have hslash : c ≠ '\\' := Lexeme.ne_backslash h₁ h₂
    have hsep : isSeparator c = false := sep.not_of_not_endsWord _ (Bool.eq_false_iff.2 hends)
    refine ⟨t, ?_, ht⟩
    rw [List.take_succ_cons]
    refine .cons (by rw [hsep, Bool.and_false]) ?_
    have hsame : (⟨none, depth, false⟩ : Scan).after c = ⟨none, depth, false⟩ := by
      rw [after_of_not_isMark hmark]
      simpa using hslash
    rw [hsame]
    exact hpasses

/-- A character that is a token by itself opens or closes a parenthesis, or changes nothing. -/
theorem after_punctuation {kind : Token.Kind} (h : Lexeme.punctuation? c = some kind) :
    (⟨none, depth, false⟩ : Scan).after c = ⟨none, parenDepth depth kind, false⟩ := by
  unfold Lexeme.punctuation? at h
  split at h
  case h_10 => cases h
  all_goals
    cases h
    rfl

/-- A text of characters of a class without separators, marks and the backslash is passed over. -/
theorem passes_of_all {p : Char → Bool}
    (hp : ['\\', ',', '"', '\'', '(', ')'].all (!p ·) = true) (h : ∀ a ∈ cs, p a = true)
    (hsep : ∀ a ∈ cs, ((⟨none, depth, false⟩ : Scan).atTop && isSeparator a) = false) :
    Passes isSeparator ⟨none, depth, false⟩ cs ⟨none, depth, false⟩ := by
  simp only [List.all_cons, List.all_nil, Bool.and_true, Bool.and_eq_true, Bool.not_eq_true'] at hp
  obtain ⟨hslash, hcomma, hdouble, hsingle, hopen, hclose⟩ := hp
  have hne : ∀ {m a}, p m = false → p a = true → a ≠ m := by
    rintro m a hm ha rfl
    rw [ha] at hm
    cases hm
  induction cs with
  | nil => exact .nil _
  | cons c cs ih =>
    obtain ⟨hc, hcs⟩ := List.forall_mem_cons.1 h
    obtain ⟨hout, hrest⟩ := List.forall_mem_cons.1 hsep
    have hmark : isMark c = false := by
      simp [isMark, hne hcomma hc, hne hdouble hc, hne hsingle hc, hne hopen hc, hne hclose hc]
    have hsame : (⟨none, depth, false⟩ : Scan).after c = ⟨none, depth, false⟩ := by
      rw [after_of_not_isMark hmark]
      simpa using hne hslash hc
    refine .cons hout ?_
    rw [hsame]
    exact ih hcs hrest

/-- A separator starts a token of its kind, so where another token starts, or in a parenthesis, none
counts. -/
theorem Separates.not_counts (sep : Separates isSeparator separator) (rest : List Char)
    (h : ¬ ((Lexeme.ofChars c rest).kind = separator ∧ depth = 0)) :
    ((⟨none, depth, false⟩ : Scan).atTop && isSeparator c) = false := by
  by_contra hcounts
  rw [Bool.not_eq_false, Bool.and_eq_true, Scan.atTop_iff] at hcounts
  obtain ⟨htop, hc⟩ := hcounts
  exact h ⟨sep.kind_eq c rest hc, congrArg Scan.depth htop⟩

/-- A scan between tokens passes the next one, unless that is a separator outside parentheses, and
comes out between tokens again or at the end of the text. -/
theorem Separates.exists_passes_of_ofChars (sep : Separates isSeparator separator)
    {more after : List Char} {kind : Token.Kind}
    (h : Lexeme.ofChars c (more ++ after) = ⟨kind, more.length, none⟩)
    (hcomment : kind = .comment → ∀ a ∈ c :: more, isMark a = false ∧ isSeparator a = false)
    (hother : ¬ (kind = separator ∧ depth = 0)) :
    ∃ t, Passes isSeparator ⟨none, depth, false⟩ (c :: more) t ∧
      (t = ⟨none, parenDepth depth kind, false⟩ ∨ after = []) := by
  have hshape := Lexeme.isShaped_of_ofChars h
  have hfirst : ((⟨none, depth, false⟩ : Scan).atTop && isSeparator c) = false := by
    refine sep.not_counts (more ++ after) ?_
    rwa [h]
  rcases Lexeme.ofChars_cases c (more ++ after) with
    ⟨cs, rfl, hcs⟩ | ⟨k, hk⟩ | hq | ⟨rfl, hname⟩ | hb | hw
  · rw [hcs, Lexeme.ofChars_comment] at h
    obtain ⟨rfl, -, -⟩ := Lexeme.mk.inj h
    obtain ⟨text, htext⟩ : ∃ text, '/' :: more = ('/' :: '*' :: text) ++ ['*', '/'] := hshape
    have hmarks := hcomment rfl
    rw [htext] at hmarks ⊢
    -- What is in a comment may end with a backslash, but then the star that closes it is taken.
    exact ⟨_, passes_comment hmarks, .inl rfl⟩
  · rw [Lexeme.ofChars_punctuation hk] at h
    obtain ⟨rfl, hlen, -⟩ := Lexeme.mk.inj h
    rw [List.length_eq_zero_iff.1 hlen.symm]
    refine ⟨_, .cons hfirst ?_, .inl rfl⟩
    rw [after_punctuation hk]
    exact .nil _
  · rw [Lexeme.ofChars_string hq] at h
    have hclosed := Lexeme.eq_true_of_fault h
    obtain ⟨rfl, hlen, -⟩ := Lexeme.mk.inj h
    have hstring : Passes isSeparator _ _ _ := passes_string depth hq (more ++ after) hclosed
    rw [hlen, List.take_left] at hstring
    have hopened : (⟨none, depth, false⟩ : Scan).after c = ⟨some c, depth, false⟩ := by
      rw [Lexeme.isQuote, Bool.or_eq_true, beq_iff_eq, beq_iff_eq] at hq
      rcases hq with rfl | rfl
      · rfl
      · rfl
    exact ⟨_, .cons hfirst (hopened ▸ hstring), .inl rfl⟩
  · rw [Lexeme.ofChars_atKeyword hname] at h
    obtain ⟨rfl, -, -⟩ := Lexeme.mk.inj h
    obtain ⟨name, hchars, hall⟩ : ∃ name, '@' :: more = '@' :: name ∧
        ∀ a ∈ name, Lexeme.isNameChar a = true := hshape
    obtain rfl := (List.cons.inj hchars).2
    refine ⟨_, .cons hfirst ?_, .inl rfl⟩
    refine passes_of_all (by decide) hall fun a ha => ?_
    rw [sep.isNameChar a (hall a ha), Bool.and_false]
  · rw [Lexeme.ofChars_blank hb] at h
    obtain ⟨rfl, -, -⟩ := Lexeme.mk.inj h
    have hall : ∀ a ∈ c :: more, isBlank a = true := hshape
    refine ⟨_, passes_of_all (by decide) hall fun a ha => ?_, .inl rfl⟩
    -- All characters of the token could start it.
    refine sep.not_counts [] ?_
    rwa [Lexeme.ofChars_blank (hall a ha)]
  · have hword : Lexeme.wordLength (c :: (more ++ after)) = (c :: more).length := by
      rw [hw.wordLength_eq, h, List.length_cons]
    rw [Lexeme.ofChars_word hw] at h
    obtain ⟨rfl, -, -⟩ := Lexeme.mk.inj h
    obtain ⟨t, hpasses, ht⟩ := sep.exists_passes_word depth (c :: (more ++ after))
    rw [hword, ← List.cons_append, List.take_left] at hpasses
    rw [hword, ← List.cons_append, List.drop_left] at ht
    exact ⟨t, hpasses, ht⟩

/-- Only a comma is a token of this kind. -/
theorem eq_comma_of_ofChars {more after : List Char}
    (h : Lexeme.ofChars c (more ++ after) = ⟨.comma, more.length, none⟩) : c = ',' ∧ more = [] := by
  have hkind : (Lexeme.ofChars c (more ++ after)).kind = .comma := congrArg Lexeme.kind h
  have hk := Lexeme.punctuation?_of_kind hkind (by decide)
  rw [Lexeme.ofChars_punctuation hk] at h
  refine ⟨?_, List.length_eq_zero_iff.1 (Lexeme.mk.inj h).2.1.symm⟩
  unfold Lexeme.punctuation? at hk
  split at hk
  case h_9 => rfl
  all_goals cases hk

/-- Commas are what separates the items of a list with commas. -/
theorem separates_comma : Separates (· == ',') .comma where
  endsWord c rest h := by
    rw [eq_of_beq h]
    rfl
  isNameChar c h := by
    refine beq_false_of_ne ?_
    rintro rfl
    exact absurd h (by decide)
  kind_eq c rest h := by
    rw [eq_of_beq h]
    rfl
  all c more after h := by
    obtain ⟨rfl, rfl⟩ := eq_comma_of_ofChars h
    exact List.forall_mem_singleton.2 rfl

/-! ## Whole texts -/

/-- A scan from between tokens cuts a text where commas are tokens outside parentheses. -/
theorem pieces_of_cut {text rest : List Char} {ps : List BareToken} (h : Cut text ps rest)
    (hrest : rest = [])
    (hcomment : ∀ p ∈ ps, p.kind = .comment → ∀ a ∈ p.chars, isMark a = false) (depth : Nat) :
    pieces (· == ',') ⟨none, depth, false⟩ text = commaPieces depth (ps ++ [⟨.stop, []⟩]) := by
  induction h generalizing depth with
  | done rest =>
    rw [hrest]
    rfl
  | @token c more after rest kind ps head tail ih =>
    obtain ⟨hfirst, hlater⟩ := List.forall_mem_cons.1 hcomment
    change pieces (· == ',') ⟨none, depth, false⟩ (c :: more ++ after) =
      commaPieces depth (⟨kind, c :: more⟩ :: (ps ++ [⟨.stop, []⟩]))
    rw [commaPieces]
    by_cases hcomma : kind = .comma ∧ depth = 0
    · -- Both cut here and go on from the start.
      obtain ⟨rfl, rfl⟩ := hcomma
      obtain ⟨rfl, rfl⟩ := eq_comma_of_ofChars head
      rw [if_pos ⟨rfl, rfl⟩, ← ih hrest hlater]
      rfl
    · rw [if_neg hcomma]
      have hplain : kind = .comment → ∀ a ∈ c :: more, isMark a = false ∧ (a == ',') = false :=
        fun hkind a ha =>
          ⟨hfirst hkind a ha, beq_false_of_ne (ne_of_not_isMark (hfirst hkind a ha)).1⟩
      obtain ⟨t, hpasses, ht⟩ := separates_comma.exists_passes_of_ofChars head hplain hcomma
      rw [pieces_of_passes hpasses]
      rcases ht with rfl | rfl
      · rw [ih hrest hlater]
      · -- No token is left where the text ends.
        cases tail with
        | done => rfl

/-- The items of a text that the lexer finds no fault with are those between its tokens, if no
comment in it has a comma, a quote or a parenthesis. -/
theorem splitComma_eq_tokenItems {text : String} (herrors : (tokenize text).errors = [])
    (hcomment : ∀ t ∈ (tokenize text).tokens, t.kind = .comment →
      ∀ a ∈ t.text.toList, isMark a = false) :
    splitComma text = tokenItems text := by
  obtain ⟨ps, hcut, htokens⟩ := cut_of_tokensFrom text.toList .start herrors
  have hbare : ∀ p ∈ ps, p.kind = .comment → ∀ a ∈ p.chars, isMark a = false := by
    intro p hp
    have hmem : p ∈ (tokenize text).tokens.map Token.bare := by
      change p ∈ (tokensFrom ⟨text.toList, .start⟩).tokens.map Token.bare
      rw [htokens]
      exact List.mem_append_left _ hp
    obtain ⟨t, ht, rfl⟩ := List.mem_map.1 hmem
    exact hcomment t ht
  have hpieces := pieces_of_cut hcut rfl hbare 0
  rw [← htokens] at hpieces
  rw [splitComma, split, tokenItems]
  exact congrArg (fun ps => ((ps.map trim).filter (!·.isEmpty)).map String.ofList) hpieces

end ItemList

end ClassRules
