import Mathlib.Data.List.Chain
import Mathlib.Data.List.Induction
import ClassRules.Proofs.Token.Cut

/-!
# Tokens edge to edge

The tokens of a text cover it without a gap and without an overlap, and every position that they
carry is the one that counting afresh gives. Nothing is assumed of the text: strings and comments
that the end of the text cuts off are covered as well.

## What this module delivers

- `Position.behind`: the place behind a text, counted in the text as a whole;
  `Position.start_afterAll` says that the walk from character to character gets there.
- `Tiles`: tokens on a text, each starting where the one before it ends. `tiles_tokenize`: the
  tokens of a text lie so. `span_of_tokenize`: the places of each of them.
- `IsLossless`: what this comes to without an induction, and `isLossless_tokenize`.
-/

set_option autoImplicit false

namespace ClassRules

open Text

/-- The place behind the text `cs`: its bytes, its line feeds, and its characters behind the last
line feed. -/
def Position.behind (cs : List Char) : Position where
  byte := byteLength cs
  line := cs.count '\n'
  column := (cs.reverse.takeWhile (· ≠ '\n')).length

theorem Position.behind_concat (cs : List Char) (c : Char) :
    Position.behind (cs ++ [c]) = (Position.behind cs).after c := by
  have hbyte : byteLength (cs ++ [c]) = byteLength cs + c.utf8Size := byteLength_append cs [c]
  have hcolumn : ((cs ++ [c]).reverse.takeWhile (· ≠ '\n')) =
      if c = '\n' then [] else c :: cs.reverse.takeWhile (· ≠ '\n') := by
    rw [List.reverse_append, List.reverse_singleton, List.singleton_append, List.takeWhile_cons]
    by_cases hc : c = '\n' <;> simp [hc]
  rw [Position.behind, hbyte, hcolumn, List.count_append, Position.after]
  by_cases hc : c = '\n'
  · subst hc
    rfl
  · simp [Position.behind, hc]

/-- Walking over a text from its start gives the place behind it. -/
theorem Position.start_afterAll (cs : List Char) : Position.start.afterAll cs = .behind cs := by
  induction cs using List.reverseRecOn with
  | nil => rfl
  | append_singleton cs c ih => rw [Position.afterAll_append, ih, Position.behind_concat]; rfl

/-- Walking on from the place behind a text gives the place behind both. -/
theorem Position.behind_afterAll (before cs : List Char) :
    (Position.behind before).afterAll cs = .behind (before ++ cs) := by
  rw [← Position.start_afterAll, ← Position.afterAll_append, Position.start_afterAll]

/-- The tokens lie edge to edge on a text that follows the text `before`. Each has a character, and
the mark at the end, and it alone, has none. -/
inductive Tiles : List Char → List Char → List Token → Prop where
  | stop (before : List Char) : Tiles before [] [.stopAt (.behind before)]
  | piece {before more after : List Char} {c : Char} {kind : Token.Kind} {tokens : List Token}
      (hkind : kind ≠ .stop) (tail : Tiles (before ++ c :: more) after tokens) :
      Tiles before (c :: more ++ after)
        (⟨kind, ⟨.behind before, .behind (before ++ c :: more)⟩, String.ofList (c :: more)⟩ ::
          tokens)

theorem tiles_tokensFrom (before cs : List Char) :
    Tiles before cs (tokensFrom ⟨cs, .behind before⟩).tokens := by
  induction cs using Lexeme.piecewise generalizing before with
  | nil =>
    rw [tokensFrom_nil]
    exact .stop before
  | cons c rest ih =>
    have htail := ih (before ++ c :: rest.take (Lexeme.ofChars c rest).more)
    have hpiece := Tiles.piece (Lexeme.ofChars_kind_ne_stop c rest) htail
    rw [List.cons_append, List.take_append_drop] at hpiece
    rw [tokensFrom_cons, Position.behind_afterAll]
    exact hpiece

/-- The tokens of a text lie on it edge to edge. -/
theorem tiles_tokenize (text : String) : Tiles [] text.toList (tokenize text).tokens :=
  tiles_tokensFrom [] text.toList

/-! ## What edge to edge comes to -/

/-- The characters of some tokens. -/
def charactersOf (tokens : List Token) : List Char :=
  tokens.flatMap (·.text.toList)

@[simp] theorem charactersOf_nil : charactersOf [] = [] := rfl

@[simp] theorem charactersOf_cons (t : Token) (tokens : List Token) :
    charactersOf (t :: tokens) = t.text.toList ++ charactersOf tokens := rfl

theorem charactersOf_append (tokens tokens' : List Token) :
    charactersOf (tokens ++ tokens') = charactersOf tokens ++ charactersOf tokens' :=
  List.flatMap_append

namespace Tiles

variable {before rest : List Char} {tokens : List Token}

theorem characters (h : Tiles before rest tokens) : charactersOf tokens = rest := by
  induction h with
  | stop before => rfl
  | piece hkind tail ih => rw [charactersOf_cons, ih, String.toList_ofList]

theorem start (h : Tiles before rest tokens) :
    tokens.head?.map (·.span.start) = some (.behind before) := by
  cases h <;> rfl

theorem exists_pieces (h : Tiles before rest tokens) :
    ∃ pieces, tokens = pieces ++ [.stopAt (.behind (before ++ rest))] ∧
      ∀ t ∈ pieces, t.kind ≠ .stop ∧ t.text ≠ "" := by
  induction h with
  | stop before => exact ⟨[], by rw [List.append_nil]; rfl, fun t ht => absurd ht List.not_mem_nil⟩
  | @piece before more after c kind tokens hkind tail ih =>
    obtain ⟨pieces, rfl, hpieces⟩ := ih
    refine ⟨_ :: pieces, by rw [List.append_assoc]; rfl, ?_⟩
    rintro t (_ | ⟨_, ht⟩)
    · exact ⟨hkind, by simp⟩
    · exact hpieces t ht

/-- What lies behind the first token lies edge to edge as well. -/
theorem tail {t : Token} (h : Tiles before rest (t :: tokens)) (hne : tokens ≠ []) :
    ∃ rest', Tiles (before ++ t.text.toList) rest' tokens := by
  cases h with
  | stop => exact absurd rfl hne
  | @piece _ more after c kind _ hkind tail =>
    exact ⟨after, by rwa [String.toList_ofList]⟩

/-- What lies behind some of the tokens lies edge to edge as well. -/
theorem drop {earlier later : List Token} (h : Tiles before rest (earlier ++ later))
    (hne : later ≠ []) : ∃ rest', Tiles (before ++ charactersOf earlier) rest' later := by
  induction earlier generalizing before rest with
  | nil => exact ⟨rest, by rwa [charactersOf_nil, List.append_nil]⟩
  | cons t earlier ih =>
    obtain ⟨after, htail⟩ := h.tail (List.append_ne_nil_of_right_ne_nil earlier hne)
    obtain ⟨rest', hlater⟩ := ih htail
    exact ⟨rest', by rwa [charactersOf_cons, ← List.append_assoc]⟩

/-- A token lies on its characters. -/
theorem span_head {t : Token} (h : Tiles before rest (t :: tokens)) :
    t.span = ⟨.behind before, .behind (before ++ t.text.toList)⟩ := by
  cases h with
  | stop => rw [Token.stopAt, String.toList_empty, List.append_nil]
  | piece hkind tail => rw [String.toList_ofList]

theorem span_eq {earlier later : List Token} {t : Token}
    (h : Tiles before rest (earlier ++ t :: later)) :
    t.span = ⟨.behind (before ++ charactersOf earlier),
      .behind (before ++ charactersOf (earlier ++ [t]))⟩ := by
  obtain ⟨rest', hlater⟩ := h.drop (List.cons_ne_nil t later)
  rw [hlater.span_head, charactersOf_append, charactersOf_cons, charactersOf_nil, List.append_nil,
    List.append_assoc]

end Tiles

section Tokenize

variable {text : String} {earlier later : List Token} {t : Token}

/-- The characters of the first tokens of a text begin it. -/
theorem charactersOf_begins (h : (tokenize text).tokens = earlier ++ later) :
    charactersOf earlier <+: text.toList := by
  rw [← (tiles_tokenize text).characters, h, charactersOf_append]
  exact List.prefix_append _ _

/-- The places of a token are those behind the tokens before it and behind the token. -/
theorem span_of_tokenize (h : (tokenize text).tokens = earlier ++ t :: later) :
    t.span = ⟨.behind (charactersOf earlier), .behind (charactersOf (earlier ++ [t]))⟩ := by
  have htiles := tiles_tokenize text
  rw [h] at htiles
  exact htiles.span_eq

end Tokenize

/-- The tokens are a text cut into pieces: nothing is left out, nothing is there twice, and they
know their places. -/
structure IsLossless (text : String) (tokens : List Token) : Prop where
  /-- The mark at the end stands last, and there is no other. -/
  ends : ∃ pieces place, tokens = pieces ++ [.stopAt place] ∧ ∀ t ∈ pieces, t.kind ≠ .stop
  /-- The characters of the tokens are the text. -/
  joined : String.join (tokens.map Token.text) = text
  /-- The first token starts where the text does. -/
  starts : tokens.head?.map (·.span.start) = some .start
  /-- Each token ends where the next one starts. -/
  chain : tokens.IsChain fun t u => t.span.stop = u.span.start
  /-- No token is empty but for the mark. -/
  nonempty : ∀ t ∈ tokens, t.kind ≠ .stop → t.text ≠ ""
  /-- A token has the characters that stand at its place. -/
  sliced : ∀ t ∈ tokens,
    slice? text.toList t.span.start.byte t.span.stop.byte = some t.text.toList
  /-- The places at both ends of a token are those that counting in the text before them gives. -/
  counted : ∀ earlier t later, tokens = earlier ++ t :: later →
    t.span.start = .behind (charactersOf earlier) ∧
      t.span.stop = .behind (charactersOf (earlier ++ [t]))

/-- Cutting a text into tokens loses nothing, and every position is exact. -/
theorem isLossless_tokenize (text : String) : IsLossless text (tokenize text).tokens := by
  have htiles := tiles_tokenize text
  obtain ⟨pieces, hpieces, hbare⟩ := htiles.exists_pieces
  refine
    { ends := ⟨pieces, _, hpieces, fun t ht => (hbare t ht).1⟩
      joined := ?joined
      starts := htiles.start
      chain := ?chain
      nonempty := ?nonempty
      sliced := ?sliced
      counted := fun earlier t later hsplit => ?counted }
  case joined =>
    rw [← String.toList_inj, String.toList_join, List.flatMap_map]
    exact htiles.characters
  case chain =>
    refine List.isChain_iff_forall_rel_of_append_cons_cons.2 fun t u earlier later hsplit => ?_
    have hnext : (tokenize text).tokens = (earlier ++ [t]) ++ u :: later := by
      rw [hsplit, List.append_assoc]
      rfl
    rw [span_of_tokenize hsplit, span_of_tokenize hnext]
  case nonempty =>
    intro t ht hkind
    rw [hpieces, List.mem_append, List.mem_singleton] at ht
    rcases ht with ht | rfl
    · exact (hbare t ht).2
    · exact absurd rfl hkind
  case sliced =>
    intro t ht
    obtain ⟨earlier, later, hsplit⟩ := List.append_of_mem ht
    have htext : text.toList =
        charactersOf earlier ++ t.text.toList ++ charactersOf later := by
      rw [← htiles.characters, hsplit, charactersOf_append, charactersOf_cons, List.append_assoc]
    rw [span_of_tokenize hsplit, charactersOf_append, charactersOf_cons, charactersOf_nil,
      List.append_nil, htext, Position.behind, Position.behind, byteLength_append]
    exact slice?_append _ _ _
  case counted =>
    rw [span_of_tokenize hsplit]
    exact ⟨rfl, rfl⟩

end ClassRules
