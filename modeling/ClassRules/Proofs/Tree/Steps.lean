import ClassRules.Proofs.Tree.Totality

/-!
# What a step does

A step of the parser passes over a token, or reads one statement: it opens a block, closes one, adds
a node without a block, or reports a statement without a colon.

## What this module delivers

- `Content.isBlock`: the contents of nodes with a block.
- `Parser.Context.CutsOff`, `Parser.Context.ReadsOff`: which of the tokens that are read tell what
  the content of a node begins with.
- `Parser.Outcome`, `Parser.step_cases`: all that a step may do to the state, with the braces among
  the tokens that it reads.
- `Parser.Visits.invariant`: what holds at the start, and is preserved by each step, holds wherever
  the parser comes to.
-/

set_option autoImplicit false

namespace ClassRules

/-- Whether a node of this content has a block: a rule, or an at-rule with a body. -/
def Content.isBlock (content : Content) : Bool :=
  content.kind == .rule || content.hasBody

theorem Content.ne_root_of_isBlock {content : Content} (h : content.isBlock = true) :
    content ≠ .root := by
  rintro rfl
  cases h

/-- Whether the kind is one of the two braces. -/
def Token.Kind.isBrace : Token.Kind → Bool
  | .openBrace | .closeBrace => true
  | _ => false

namespace Parser

variable {cx : Context} {tokens rest : List Token} {token brace u : Token} {s t : State}
  {depth n : Nat}

/-! ## The tokens that are read together -/

/-- A token that starts no statement is read by itself. -/
theorem take_readBehind_of_single
    (h : token.kind.startsStatement = false ∧ token.kind ≠ .atKeyword) :
    token :: rest.take (readBehind token rest) = [token] := by
  rw [readBehind_of_single h]
  rfl

/-- A statement holds no brace before the mark that ends it. -/
theorem isBrace_of_mem_take (h : u ∈ rest.take (statementLength depth rest)) :
    u.kind.isBrace = false := by
  induction rest generalizing depth with
  | nil => cases h
  | cons v rest ih =>
    rw [statementLength] at h
    split at h
    · cases h
    · rename_i hends
      rw [List.take_succ_cons] at h
      rcases List.mem_cons.1 h with rfl | h
      · cases hk : u.kind <;> rw [hk] at hends <;> first | rfl | exact absurd rfl hends
      · exact ih h

theorem Ending.ofTokens_eq_block (h : Ending.ofTokens tokens = .block brace) :
    tokens.head? = some brace ∧ brace.kind = .openBrace := by
  cases tokens with
  | nil => cases h
  | cons v tokens =>
    rw [Ending.ofTokens] at h
    split at h
    · rename_i hk
      cases h
      exact ⟨rfl, hk⟩
    · cases h
    · cases h

theorem Ending.ofTokens_eq_mark (h : Ending.ofTokens tokens = .mark u) :
    tokens.head? = some u ∧ u.kind = .semicolon := by
  cases tokens with
  | nil => cases h
  | cons v tokens =>
    rw [Ending.ofTokens] at h
    split at h
    · cases h
    · rename_i hk
      cases h
      exact ⟨rfl, hk⟩
    · cases h

theorem take_add_one_of_head? (h : (rest.drop n).head? = some u) :
    rest.take (n + 1) = rest.take n ++ [u] := by
  rw [List.head?_drop] at h
  rw [List.take_add_one, h]
  rfl

/-- The last token read of a statement with a block is the brace that opens it. -/
theorem take_readLength_of_block
    (h : Ending.ofTokens (rest.drop (statementLength depth rest)) = .block brace) :
    rest.take (readLength depth rest) = rest.take (statementLength depth rest) ++ [brace] := by
  rw [readLength, h]
  exact take_add_one_of_head? (Ending.ofTokens_eq_block h).1

/-- That of a statement with a mark is the mark. -/
theorem read_of_mark (hread : readBehind token rest = readLength depth rest)
    (h : Ending.ofTokens (rest.drop (statementLength depth rest)) = .mark u) :
    token :: rest.take (statementLength depth rest) ++ [u] =
      token :: rest.take (readBehind token rest) := by
  rw [hread, readLength, h, Ending.length, take_add_one_of_head? (Ending.ofTokens_eq_mark h).1,
    List.cons_append]

/-- A statement with neither is read by itself. -/
theorem read_of_none (hread : readBehind token rest = readLength depth rest)
    (hblock : ∀ u, Ending.ofTokens (rest.drop (statementLength depth rest)) ≠ .block u)
    (hmark : ∀ u, Ending.ofTokens (rest.drop (statementLength depth rest)) ≠ .mark u) :
    token :: rest.take (statementLength depth rest) =
      token :: rest.take (readBehind token rest) := by
  rw [hread, readLength]
  cases hends : Ending.ofTokens (rest.drop (statementLength depth rest)) with
  | block brace => exact absurd hends (hblock brace)
  | mark semicolon => exact absurd hends (hmark semicolon)
  | none => rfl

/-- A statement without a block is read without a brace. -/
theorem isBrace_of_mem_read
    (h : ∀ brace, Ending.ofTokens (rest.drop (statementLength depth rest)) ≠ .block brace)
    (hu : u ∈ rest.take (readLength depth rest)) : u.kind.isBrace = false := by
  rw [readLength] at hu
  cases hends : Ending.ofTokens (rest.drop (statementLength depth rest)) with
  | block brace => exact absurd hends (h brace)
  | mark semicolon =>
    obtain ⟨hhead, hkind⟩ := Ending.ofTokens_eq_mark hends
    rw [hends, Ending.length, take_add_one_of_head? hhead] at hu
    rcases List.mem_append.1 hu with hu | hu
    · exact isBrace_of_mem_take hu
    · rw [List.mem_singleton.1 hu, hkind]
      rfl
  | none =>
    rw [hends] at hu
    exact isBrace_of_mem_take hu

/-! ## The outcomes of a step -/

/-- The text of the tokens from this one, which is no white space, up to one of those that are read
along. -/
def Context.CutsOff (cx : Context) (token : Token) (rest : List Token) (text : List Char) : Prop :=
  token.kind ≠ .blank ∧ ∃ k ≤ readBehind token rest + 1,
    cx.textOf? ((token :: rest).take k) ((token :: rest).drop k) = some text

/-- What a content begins with is read off the token that its node starts with, or cut off the
tokens that are read. -/
def Context.ReadsOff (cx : Context) (token : Token) (rest : List Token) : Content → Prop
  | .atRule name _ _ =>
    token.kind = .atKeyword ∧ name = String.ofList (token.text.toList.dropWhile (· == '@'))
  | .rule text | .declaration text _ _ => cx.CutsOff token rest text.toList
  | .comment _ => token.kind = .comment
  | .root => False

/-- What a step that starts with `token` may do to the state `s`. -/
inductive Outcome (cx : Context) (token : Token) (rest : List Token) (s : State) :
    State → Prop where
  /-- White space and semicolons between statements are passed over. -/
  | pass (hkind : token.kind = .blank ∨ token.kind = .semicolon) :
      Outcome cx token rest s (s.readTo [token])
  /-- A comment or a statement without a block becomes a node. -/
  | leaf {content : Content} (hcontent : content.isBlock = false) (hroot : content ≠ .root)
      (hread : ∀ u ∈ token :: rest.take (readBehind token rest), u.kind.isBrace = false)
      (hoff : cx.ReadsOff token rest content) :
      Outcome cx token rest s
        ((s.readTo (token :: rest.take (readBehind token rest))).add cx.input content
          token.span.start)
  /-- A statement with neither a block nor a colon is an error. -/
  | lacking {text : String} {stop : Position}
      (hread : ∀ u ∈ token :: rest.take (readBehind token rest), u.kind.isBrace = false) :
      Outcome cx token rest s
        ((s.readTo (token :: rest.take (readBehind token rest))).report (.missingColon text)
          ⟨token.span.start, stop⟩)
  /-- A rule or an at-rule opens its block with the last token that is read. -/
  | opens {content : Content} {piece : List Token} {brace : Token}
      (hcontent : content.isBlock = true)
      (hread : token :: rest.take (readBehind token rest) = piece ++ [brace])
      (hpiece : ∀ u ∈ piece, u.kind.isBrace = false) (hbrace : brace.kind = .openBrace)
      (hoff : cx.ReadsOff token rest content) :
      Outcome cx token rest s (s.openBlock content token.span.start brace)
  /-- A closing brace ends the innermost block, or is out of place. -/
  | closes (hkind : token.kind = .closeBrace) :
      Outcome cx token rest s (s.closeBlock cx.input token)

section Statement

variable (hbrace : token.kind.isBrace = false)
  (hread : readBehind token rest = readLength depth rest)
include hbrace hread

/-- The outcome of a statement before an opening brace. -/
theorem outcome_of_block {content : Content} (hcontent : content.isBlock = true)
    (hoff : cx.ReadsOff token rest content)
    (hends : Ending.ofTokens (rest.drop (statementLength depth rest)) = .block brace) :
    Outcome cx token rest s (s.openBlock content token.span.start brace) := by
  have hpiece : ∀ u ∈ token :: rest.take (statementLength depth rest), u.kind.isBrace = false :=
    List.forall_mem_cons.2 ⟨hbrace, fun u hu => isBrace_of_mem_take hu⟩
  refine .opens hcontent ?_ hpiece (Ending.ofTokens_eq_block hends).2 hoff
  rw [hread, take_readLength_of_block hends]
  rfl

/-- No brace is read with another statement. -/
theorem isBrace_of_plain
    (hplain : ∀ brace, Ending.ofTokens (rest.drop (statementLength depth rest)) ≠ .block brace) :
    ∀ u ∈ token :: rest.take (readBehind token rest), u.kind.isBrace = false := by
  rw [hread]
  exact List.forall_mem_cons.2 ⟨hbrace, fun u hu => isBrace_of_mem_read hplain hu⟩

end Statement

theorem atRule?_cases (hkind : token.kind = .atKeyword)
    (h : atRule? cx token rest s = some (t, n)) : Outcome cx token rest s t := by
  obtain ⟨params, -, h⟩ := Option.bind_eq_some_iff.1 h
  have hread : readBehind token rest = readLength 0 rest := readBehind_atKeyword hkind
  have hbrace : token.kind.isBrace = false := by rw [hkind]; rfl
  split at h
  · rename_i brace hends
    cases h
    exact outcome_of_block hbrace hread rfl ⟨hkind, rfl⟩ hends
  · rename_i semicolon hends
    cases h
    rw [read_of_mark hread hends]
    exact .leaf rfl (by simp) (isBrace_of_plain hbrace hread (by rw [hends]; simp)) ⟨hkind, rfl⟩
  · rename_i hends
    cases h
    rw [read_of_none hread (by rw [hends]; simp) (by rw [hends]; simp)]
    exact .leaf rfl (by simp) (isBrace_of_plain hbrace hread (by rw [hends]; simp)) ⟨hkind, rfl⟩

/-- The text before a token that is read along is the text up to there of all the tokens. -/
theorem cutsOff_property {i : Nat} {property : List Char} (hblank : token.kind ≠ .blank)
    (hread : readBehind token rest = readLength depth rest)
    (hi : i < (token :: rest.take (statementLength depth rest)).length)
    (h : cx.textOf? ((token :: rest.take (statementLength depth rest)).take i)
      ((token :: rest.take (statementLength depth rest)).drop i) = some property) :
    cx.CutsOff token rest property := by
  have hle : i ≤ readBehind token rest + 1 := by
    rw [List.length_cons, List.length_take] at hi
    rw [hread, readLength]
    omega
  have hsplit : token :: rest = (token :: rest.take (statementLength depth rest)) ++
      rest.drop (statementLength depth rest) := by
    rw [List.cons_append, List.take_append_drop]
  refine ⟨hblank, i, hle, ?_⟩
  rw [hsplit, List.take_append_of_le_length (Nat.le_of_lt hi),
    List.drop_append_of_le_length (Nat.le_of_lt hi)]
  -- The text ends where the next token starts, whatever comes behind that.
  rw [List.drop_eq_getElem_cons hi] at h ⊢
  exact h

/-- A statement without a block becomes a declaration or an error. -/
theorem declaration?_cases (hbrace : token.kind.isBrace = false) (hblank : token.kind ≠ .blank)
    (hread : readBehind token rest = readLength depth rest)
    (hplain : ∀ brace, Ending.ofTokens (rest.drop (statementLength depth rest)) ≠ .block brace)
    (h : declaration? cx (token :: rest.take (statementLength depth rest))
      (rest.drop (statementLength depth rest)) s = some t) : Outcome cx token rest s t := by
  unfold declaration? at h
  dsimp only at h
  have hbraces := isBrace_of_plain hbrace hread hplain
  split at h
  · obtain ⟨text, -, h⟩ := Option.bind_eq_some_iff.1 h
    cases h
    split
    · rename_i semicolon hends
      rw [read_of_mark hread hends]
      exact .lacking hbraces
    · rename_i hends
      rw [read_of_none hread hplain hends]
      exact .lacking hbraces
  · rename_i i hcolon
    obtain ⟨hi, -, -⟩ := List.findIdx?_eq_some_iff_getElem.1 hcolon
    obtain ⟨property, hproperty, h⟩ := Option.bind_eq_some_iff.1 h
    obtain ⟨value, -, h⟩ := Option.bind_eq_some_iff.1 h
    obtain ⟨⟨value, important⟩, -, h⟩ := Option.bind_eq_some_iff.1 h
    cases h
    rw [← @String.toList_ofList property] at hproperty
    have hoff := cutsOff_property hblank hread hi hproperty
    split
    · rename_i semicolon hends
      rw [read_of_mark hread hends]
      exact .leaf rfl (by simp) hbraces hoff
    · rename_i hends
      rw [read_of_none hread hplain hends]
      exact .leaf rfl (by simp) hbraces hoff

theorem statement?_cases (hkind : token.kind.startsStatement = true)
    (h : statement? cx token rest s = some (t, n)) : Outcome cx token rest s t := by
  have hread : readBehind token rest = readLength (depthAfter 0 token.kind) rest :=
    readBehind_of_startsStatement hkind
  have hbrace : token.kind.isBrace = false := by
    cases hk : token.kind <;> rw [hk] at hkind <;> first | rfl | cases hkind
  have hblank : token.kind ≠ .blank := ne_of_startsStatement hkind rfl
  unfold statement? at h
  rw [if_neg (ne_of_startsStatement hkind rfl)] at h
  dsimp only at h
  split at h
  · rename_i brace hends
    obtain ⟨selector, hselector, h⟩ := Option.bind_eq_some_iff.1 h
    cases h
    refine outcome_of_block hbrace hread rfl
      ⟨hblank, statementLength (depthAfter 0 token.kind) rest + 1, ?_, ?_⟩ hends
    · exact Nat.succ_le_succ (by rw [hread, readLength]; exact Nat.le_add_right _ _)
    · rw [List.take_succ_cons, List.drop_succ_cons, hselector, String.toList_ofList]
  · rename_i hplain
    obtain ⟨u, hu, h⟩ := Option.bind_eq_some_iff.1 h
    cases h
    exact declaration?_cases hbrace hblank hread hplain hu

/-- All that a step may do. -/
theorem step_cases (hstop : token.kind ≠ .stop) (h : step cx token rest s = some (t, n)) :
    Outcome cx token rest s t := by
  cases hkind : token.kind with
  | stop => exact absurd hkind hstop
  | blank =>
    rw [step, hkind] at h
    cases h
    exact .pass (.inl hkind)
  | semicolon =>
    rw [step, hkind] at h
    cases h
    exact .pass (.inr hkind)
  | closeBrace =>
    rw [step, hkind] at h
    cases h
    exact .closes hkind
  | comment =>
    rw [step, hkind] at h
    cases h
    -- A comment is read alone, so it is the whole of its piece.
    have hsingle : token :: rest.take (readBehind token rest) = [token] :=
      take_readBehind_of_single (by rw [hkind]; decide)
    rw [← hsingle]
    refine .leaf rfl (by simp) ?_ hkind
    rw [hsingle, List.forall_mem_singleton, hkind]
    rfl
  | atKeyword =>
    rw [step, hkind] at h
    exact atRule?_cases hkind h
  | openBrace =>
    rw [step, hkind] at h
    unfold statement? at h
    rw [if_pos hkind] at h
    cases h
    have hread : token :: rest.take (readBehind token rest) = [] ++ [token] :=
      take_readBehind_of_single (by rw [hkind]; decide)
    refine .opens rfl hread (fun u hu => absurd hu List.not_mem_nil) hkind ?_
    exact ⟨by rw [hkind]; decide, 0, Nat.zero_le _, rfl⟩
  | string | word | openParen | closeParen | openBracket | closeBracket | colon | comma =>
    have hstart : token.kind.startsStatement = true := by rw [hkind]; rfl
    rw [step_of_startsStatement hstart] at h
    exact statement?_cases hstart h

/-! ## Runs -/

/-- What holds at the start and is preserved by each step holds wherever the parser comes to. -/
theorem Visits.invariant {P : List Token → State → Prop} (hstart : P [] {})
    (hstep : ∀ {read rest : List Token} {token : Token} {s t : State} {n : Nat},
      tokens = read ++ token :: rest → token.kind ≠ .stop → step cx token rest s = some (t, n) →
        P read s → P (read ++ token :: rest.take n) t)
    {i : Nat} (h : Visits cx tokens i s) : P (tokens.take i) s := by
  induction h with
  | start => exact hstart
  | @next i n s t token h hi hstop hnext ih =>
    obtain ⟨hlt, rfl⟩ := List.getElem?_eq_some_iff.1 hi
    have hcons := List.drop_eq_getElem_cons hlt
    have hsplit : tokens = tokens.take i ++ tokens[i] :: tokens.drop (i + 1) := by
      rw [← hcons, List.take_append_drop]
    have htake : tokens.take (i + 1 + n) =
        tokens.take i ++ tokens[i] :: (tokens.drop (i + 1)).take n := by
      rw [Nat.add_assoc, List.take_add, hcons, Nat.add_comm 1 n, List.take_succ_cons]
    rw [htake]
    exact hstep hsplit hstop hnext ih

end Parser

end ClassRules
