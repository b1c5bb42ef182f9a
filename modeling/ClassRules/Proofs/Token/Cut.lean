import ClassRules.Proofs.Token.Lexeme
import ClassRules.Text.Slice

/-!
# Cuts

How a text falls into tokens, apart from where the tokens stand. A cut is checked against all the
characters that follow it, so cuts of texts that stand one behind the other can be joined.

## What this module delivers

- `BareToken`, `Token.bare`, `spells`: tokens without places, and the text that they stand for.
- `Cut`: the tokens before the rest of a text, none of them at fault. `Cut.append` joins two.
- `Cut.before`: a text that is cut by itself is cut in the same way before a delimiter, if it does
  not end in white space or in a backslash that waits for a character.
- `tokensFrom_of_cut`, `cut_of_tokensFrom`: cuts of a whole text are what the lexer does.
  `tokensFrom_induction`: induction over the tokens of a text without faults.
- `Lies`: tokens stand one behind the other. `lies_tokensFrom`: those of a text do.
- `starts_tokensFrom`: no two of them start at the same byte. `cause_of_mem_errors`: what can be
  wrong with them.
-/

set_option autoImplicit false

namespace ClassRules

open Text

/-- A token without its place. -/
structure BareToken where
  kind : Token.Kind
  chars : List Char
  deriving DecidableEq, Repr

/-- A token without its place. -/
def Token.bare (t : Token) : BareToken :=
  ⟨t.kind, t.text.toList⟩

/-- The text that tokens stand for. -/
def spells (ps : List BareToken) : List Char :=
  ps.flatMap BareToken.chars

@[simp] theorem spells_nil : spells [] = [] := rfl

@[simp] theorem spells_cons (p : BareToken) (ps : List BareToken) :
    spells (p :: ps) = p.chars ++ spells ps := rfl

@[simp] theorem spells_append (ps qs : List BareToken) :
    spells (ps ++ qs) = spells ps ++ spells qs :=
  List.flatMap_append

/-- The tokens `ps` stand at the start of the first text, the last text is left behind them, and
nothing is wrong with them. -/
inductive Cut : List Char → List BareToken → List Char → Prop where
  | done (rest : List Char) : Cut rest [] rest
  | token {c : Char} {more after rest : List Char} {kind : Token.Kind} {ps : List BareToken}
      (head : Lexeme.ofChars c (more ++ after) = ⟨kind, more.length, none⟩)
      (tail : Cut after ps rest) : Cut (c :: more ++ after) (⟨kind, c :: more⟩ :: ps) rest

namespace Cut

variable {text middle rest : List Char} {ps qs : List BareToken}

theorem append (h : Cut text ps middle) (h' : Cut middle qs rest) : Cut text (ps ++ qs) rest := by
  induction h with
  | done => exact h'
  | token head _ ih => exact .token head (ih h')

/-- A cut leaves out nothing. -/
theorem eq_spells (h : Cut text ps rest) : text = spells ps ++ rest := by
  induction h with
  | done => rfl
  | token head _ ih => rw [ih, spells_cons, List.append_assoc]

/-- One token before the rest of the text. -/
theorem single {c : Char} {more rest : List Char} {kind : Token.Kind}
    (head : Lexeme.ofChars c (more ++ rest) = ⟨kind, more.length, none⟩) :
    Cut (c :: more ++ rest) [⟨kind, c :: more⟩] rest :=
  .token head (.done rest)

end Cut

/-! ## Cuts of the texts between fields -/

/-- The token that white space makes up, if there is any. -/
def blankRun : List Char → List BareToken
  | [] => []
  | c :: cs => [⟨.blank, c :: cs⟩]

namespace Cut

variable {cs d lead text name rest : List Char} {c : Char} {kind : Token.Kind}
  {ps : List BareToken}

/-- The tokens of a text by itself are its tokens before a delimiter. -/
theorem before (h : Cut cs ps rest) (hrest : rest = []) (hd : Delimits d)
    (hword : ∀ p ∈ ps, p.kind = .word → Lexeme.isFinished p.chars = true)
    (hlast : ∀ a ∈ cs.getLast?, isBlank a = false) : Cut (cs ++ d) ps d := by
  induction h with
  | done =>
    subst hrest
    exact .done d
  | @token c more after rest kind ps head tail ih =>
    obtain ⟨x, e, rfl, hx⟩ := hd
    have hhead : Lexeme.ofChars c (more ++ after ++ x :: e) = ⟨kind, more.length, none⟩ := by
      refine Lexeme.ofChars_append hx head ?_ ?_
      · intro hk
        rw [List.take_left]
        exact hword _ List.mem_cons_self hk
      · intro hk
        -- The last character is not white space, so a run of white space is not the last token.
        subst hk
        cases after with
        | cons a after =>
          rw [List.length_append, List.length_cons]
          omega
        | nil =>
          rw [List.append_nil] at head hlast
          have hb := Lexeme.isBlank_of_run head _ (List.getLast_mem (List.cons_ne_nil c more))
          rw [hlast _ (List.getLast?_eq_some_getLast _)] at hb
          cases hb
    rw [List.append_assoc] at hhead ⊢
    refine .token hhead (ih hrest (fun p hp => hword p (List.mem_cons_of_mem _ hp)) ?_)
    intro a ha
    refine hlast a ?_
    rw [List.getLast?_append, ha]
    rfl

/-- A text that does not start with white space does not start with such a token. -/
theorem head_ne_blank (h : Cut cs ps rest) (hcs : ∀ a ∈ cs.head?, isBlank a = false) :
    ∀ p ∈ ps.head?, p.kind ≠ .blank := by
  intro p hp hkind
  cases h with
  | done => cases hp
  | @token c more after rest kind ps head tail =>
    cases hp
    have hkind' : (Lexeme.ofChars c (more ++ after)).kind = .blank := by
      rw [head]
      exact hkind
    have hblank := Lexeme.isBlank_of_kind hkind'
    rw [hcs c rfl] at hblank
    cases hblank

/-- White space before a text that starts otherwise. -/
theorem blanks (hlead : ∀ a ∈ lead, isBlank a = true) (ht : ∀ a ∈ text.head?, isBlank a = false) :
    Cut (lead ++ text) (blankRun lead) text := by
  cases lead with
  | nil => exact .done text
  | cons c cs =>
    refine .single ?_
    have hrun : (cs ++ text).takeWhile isBlank = cs := by
      rw [List.takeWhile_append_of_pos fun a ha => hlead a (List.mem_cons_of_mem _ ha)]
      cases text with
      | nil => rw [List.takeWhile_nil, List.append_nil]
      | cons b text =>
        rw [List.takeWhile_cons, if_neg (by rw [ht b rfl]; exact Bool.false_ne_true),
          List.append_nil]
    rw [Lexeme.ofChars_blank (hlead c List.mem_cons_self), hrun]

theorem blanks_cons {x : Char} (hlead : ∀ a ∈ lead, isBlank a = true) (hx : isBlank x = false)
    (rest : List Char) : Cut (lead ++ x :: rest) (blankRun lead) (x :: rest) := by
  apply blanks hlead
  intro a ha
  cases ha
  exact hx

/-- A character that is a token by itself. -/
theorem punctuation (h : Lexeme.punctuation? c = some kind) (rest : List Char) :
    Cut (c :: rest) [⟨kind, [c]⟩] rest :=
  @single c [] rest kind (Lexeme.ofChars_punctuation h _)

/-- An at-sign before a name. -/
theorem atKeyword (hne : name ≠ []) (hname : ∀ a ∈ name, Lexeme.isNameChar a = true)
    (hd : Delimits d) : Cut ('@' :: name ++ d) [⟨.atKeyword, '@' :: name⟩] d := by
  refine .single ?_
  obtain ⟨a, name', rfl⟩ := List.exists_cons_of_ne_nil hne
  obtain ⟨x, e, rfl, hx⟩ := hd
  have hrun : ((a :: name') ++ x :: e).takeWhile Lexeme.isNameChar = a :: name' := by
    rw [List.takeWhile_append_of_pos hname, List.takeWhile_cons, if_neg, List.append_nil]
    rw [Lexeme.isNameChar_of_delimiter hx]
    exact Bool.false_ne_true
  rw [Lexeme.ofChars_atKeyword, hrun]
  exact hname a List.mem_cons_self

/-- A comment that is printed around a text. -/
theorem comment (h : ¬ ['*', '/'] <:+: text) (rest : List Char) :
    Cut ('/' :: ('*' :: ' ' :: text ++ [' ', '*', '/']) ++ rest)
      [⟨.comment, '/' :: ('*' :: ' ' :: text ++ [' ', '*', '/'])⟩] rest := by
  refine .single ?_
  have hsplit : '*' :: ' ' :: text ++ [' ', '*', '/'] ++ rest =
      '*' :: (' ' :: text ++ ' ' :: '*' :: '/' :: rest) := by
    simp only [List.cons_append, List.append_assoc, List.nil_append]
  have hopen : ¬ ['*', '/'] <:+: ' ' :: text := by
    intro hi
    rcases List.infix_cons_iff.1 hi with hp | hi
    · cases (List.cons_prefix_cons.1 hp).1
    · exact h hi
  rw [hsplit, Lexeme.ofChars_comment, Lexeme.commentLength_of_not_infix rest _ hopen]
  simp only [List.length_append, List.length_cons, List.length_nil, if_true]

end Cut

/-! ## Whole texts -/

/-- The tokens stand one behind the other, the first at the given byte. -/
def Lies (byte : Nat) : List Token → Prop
  | [] => True
  | t :: ts => t.span.start.byte = byte ∧ Lies (byte + byteLength t.text.toList) ts

variable {text rest : List Char} {ps : List BareToken}

theorem byte_afterAll (cs : List Char) (place : Position) :
    (place.afterAll cs).byte = place.byte + byteLength cs := by
  induction cs generalizing place with
  | nil => rfl
  | cons c cs ih =>
    have hafter : (place.after c).byte = place.byte + c.utf8Size := by
      unfold Position.after
      split
      · rename_i hc
        rw [hc]
        rfl
      · rfl
    rw [Position.afterAll_cons, ih, hafter, byteLength, Nat.add_assoc]

theorem tokensFrom_nil (place : Position) : tokensFrom ⟨[], place⟩ = ⟨[.stopAt place], []⟩ := by
  rw [tokensFrom]

/-- The first token of a text, its fault, and the tokens behind it. -/
theorem tokensFrom_cons (c : Char) (rest : List Char) (place : Position) :
    let piece := c :: rest.take (Lexeme.ofChars c rest).more
    let span : Span := ⟨place, place.afterAll piece⟩
    let later := tokensFrom ⟨rest.drop (Lexeme.ofChars c rest).more, place.afterAll piece⟩
    tokensFrom ⟨c :: rest, place⟩ =
      ⟨⟨(Lexeme.ofChars c rest).kind, span, String.ofList piece⟩ :: later.tokens,
        ((Lexeme.ofChars c rest).fault.map (⟨·, span⟩)).toList ++ later.errors⟩ := by
  rw [tokensFrom]
  rfl

/-- The tokens of a text lie on it. -/
theorem lies_tokensFrom (cs : List Char) (place : Position) :
    Lies place.byte (tokensFrom ⟨cs, place⟩).tokens := by
  induction cs using Lexeme.piecewise generalizing place with
  | nil =>
    rw [tokensFrom_nil]
    exact ⟨rfl, trivial⟩
  | cons c rest ih =>
    have hlater := ih (place.afterAll (c :: rest.take (Lexeme.ofChars c rest).more))
    rw [tokensFrom_cons]
    refine ⟨rfl, ?_⟩
    rw [byte_afterAll] at hlater
    rw [String.toList_ofList]
    exact hlater

/-- The tokens of a text start one behind the other: each has at least one byte, but for the mark
at the end. -/
theorem starts_tokensFrom (cs : List Char) (place : Position) :
    (∀ t ∈ (tokensFrom ⟨cs, place⟩).tokens, place.byte ≤ t.span.start.byte) ∧
      ((tokensFrom ⟨cs, place⟩).tokens.map (·.span.start.byte)).Pairwise (· < ·) := by
  induction cs using Lexeme.piecewise generalizing place with
  | nil =>
    rw [tokensFrom_nil]
    refine ⟨fun t ht => ?_, List.pairwise_singleton _ _⟩
    rw [List.mem_singleton] at ht
    rw [ht]
    exact Nat.le_refl _
  | cons c rest ih =>
    obtain ⟨hle, hpair⟩ :=
      ih (place.afterAll (c :: rest.take (Lexeme.ofChars c rest).more))
    -- The first character alone has a byte already.
    have hlt : place.byte <
        (place.afterAll (c :: rest.take (Lexeme.ofChars c rest).more)).byte := by
      have hpos := c.utf8Size_pos
      rw [byte_afterAll, byteLength]
      omega
    rw [tokensFrom_cons]
    refine ⟨?_, ?_⟩
    · rintro t (_ | ⟨_, ht⟩)
      · exact Nat.le_refl _
      · exact Nat.le_trans (Nat.le_of_lt hlt) (hle t ht)
    · rw [List.map_cons, List.pairwise_cons]
      refine ⟨?_, hpair⟩
      intro b hb
      obtain ⟨t, ht, rfl⟩ := List.mem_map.1 hb
      exact Nat.lt_of_lt_of_le hlt (hle t ht)

/-- Nothing can be wrong with a token but that a string or a comment has no end. -/
theorem cause_of_mem_errors {cs : List Char} {place : Position} {e : ParseError}
    (h : e ∈ (tokensFrom ⟨cs, place⟩).errors) :
    e.cause = .unterminatedString ∨ e.cause = .unterminatedComment := by
  induction cs using Lexeme.piecewise generalizing place with
  | nil =>
    rw [tokensFrom_nil] at h
    cases h
  | cons c rest ih =>
    rw [tokensFrom_cons] at h
    rcases List.mem_append.1 h with h | h
    · obtain ⟨cause, hcause, rfl⟩ := Option.map_eq_some_iff.1 (Option.mem_toList.1 h)
      exact Lexeme.cause_of_mem_fault hcause
    · exact ih h

/-- The lexer finds the tokens of a cut, and nothing wrong with them. -/
theorem tokensFrom_of_cut (h : Cut text ps rest) (place : Position) :
    (tokensFrom ⟨text, place⟩).errors =
        (tokensFrom ⟨rest, place.afterAll (spells ps)⟩).errors ∧
      (tokensFrom ⟨text, place⟩).tokens.map Token.bare =
        ps ++ (tokensFrom ⟨rest, place.afterAll (spells ps)⟩).tokens.map Token.bare := by
  induction h generalizing place with
  | done => exact ⟨rfl, rfl⟩
  | @token c more after rest kind ps head tail ih =>
    obtain ⟨herrors, htokens⟩ := ih (place.afterAll (c :: more))
    rw [List.cons_append, tokensFrom_cons, head]
    simp only [List.take_left, List.drop_left, List.map_cons, spells_cons,
      Position.afterAll_append]
    refine ⟨?_, ?_⟩
    · rw [herrors]
      rfl
    · rw [htokens, Token.bare, String.toList_ofList]
      rfl

/-- Induction over the tokens of a text that the lexer finds no fault with. What holds of the mark
at the end, and of a token with those behind it if it holds of these, holds of all the tokens. -/
theorem tokensFrom_induction {P : List Char → Position → List Token → Prop}
    (stop : ∀ place, P [] place [.stopAt place])
    (token : ∀ (c : Char) (more after : List Char) (kind : Token.Kind) (place : Position)
      (later : List Token), Lexeme.ofChars c (more ++ after) = ⟨kind, more.length, none⟩ →
      P after (place.afterAll (c :: more)) later →
      P (c :: more ++ after) place
        (⟨kind, ⟨place, place.afterAll (c :: more)⟩, String.ofList (c :: more)⟩ :: later))
    (cs : List Char) (place : Position) (h : (tokensFrom ⟨cs, place⟩).errors = []) :
    P cs place (tokensFrom ⟨cs, place⟩).tokens := by
  induction cs using Lexeme.piecewise generalizing place with
  | nil =>
    rw [tokensFrom_nil]
    exact stop place
  | cons c rest ih =>
    rw [tokensFrom_cons] at h ⊢
    -- No error at all means none in the first piece and none behind it.
    obtain ⟨hfault, hlater⟩ := List.append_eq_nil_iff.1 h
    have hnone : (Lexeme.ofChars c rest).fault = none := by
      cases hf : (Lexeme.ofChars c rest).fault with
      | none => rfl
      | some cause =>
        rw [hf] at hfault
        cases hfault
    have htake : (rest.take (Lexeme.ofChars c rest).more).length = (Lexeme.ofChars c rest).more :=
      List.length_take_of_le (Lexeme.ofChars_more_le c rest)
    have hhead : Lexeme.ofChars c (rest.take (Lexeme.ofChars c rest).more ++
        rest.drop (Lexeme.ofChars c rest).more) = ⟨(Lexeme.ofChars c rest).kind,
          (rest.take (Lexeme.ofChars c rest).more).length, none⟩ := by
      rw [List.take_append_drop, htake, ← hnone]
    have hall := token _ _ _ _ place _ hhead (ih _ hlater)
    rw [List.cons_append, List.take_append_drop] at hall
    exact hall

/-- A text that the lexer finds no fault with is cut into the tokens it finds. -/
theorem cut_of_tokensFrom (cs : List Char) (place : Position)
    (h : (tokensFrom ⟨cs, place⟩).errors = []) :
    ∃ ps, Cut cs ps [] ∧
      (tokensFrom ⟨cs, place⟩).tokens.map Token.bare = ps ++ [⟨.stop, []⟩] := by
  refine tokensFrom_induction (P := fun cs _ tokens =>
    ∃ ps, Cut cs ps [] ∧ tokens.map Token.bare = ps ++ [⟨.stop, []⟩]) ?_ ?_ cs place h
  · exact fun place => ⟨[], .done [], rfl⟩
  · rintro c more after kind place later head ⟨ps, hcut, hlater⟩
    refine ⟨_, .token head hcut, ?_⟩
    rw [List.map_cons, hlater, Token.bare, String.toList_ofList]
    rfl

end ClassRules
