import ClassRules.Proofs.Token.Tiling
import ClassRules.Proofs.Tree.Field

/-!
# Reading never fails

Tokens may be cut off anywhere, and a text may have characters of any width: the parser still reads
its tokens to the end, finds the end of every statement among them, and takes its slices between
characters of the text.

## What this module delivers

- `Parser.readBehind`: how many tokens are read along with a token. `Parser.length_of_step`: a step
  reads so many.
- `Parser.Context.close`: tokens that end with the mark of the end. `run_close`: the parser reads a
  list without the mark as it reads the list with one behind the text.
- `Parser.IsPlaced`: tokens that start one behind the other, between characters of the text.
  `IsPlaced.exists_step`: of such tokens every step of the parser succeeds.
- `Parser.Visits`: the tokens that the parser comes to. `Parser.ReadsWithin`: it stays among them.
- `isClosed_tokenize`, `isClosed_behind`: the tokens of a text end with the mark, and so do those
  behind one of them.
- `exists_cut_of_mark`: the mark of an important declaration starts at a character of the value.
- `parseTokens?_total`: all this, for every text and any number of its tokens.
-/

set_option autoImplicit false

namespace ClassRules

open Text

namespace Parser

variable {cx : Context} {tokens piece rest : List Token} {token e : Token} {s t : State}
  {depth n : Nat}

/-! ## The end of a statement -/

theorem statementLength_le (depth : Nat) (tokens : List Token) :
    statementLength depth tokens ≤ tokens.length := by
  induction tokens generalizing depth with
  | nil => exact Nat.le_refl 0
  | cons t tokens ih =>
    rw [statementLength]
    split
    · exact Nat.zero_le _
    · exact Nat.succ_le_succ (ih _)

/-- The token before which a statement ends is a brace, a semicolon or the mark of the end. -/
theorem endsStatement_of_drop (h : tokens.drop (statementLength depth tokens) = e :: rest) :
    endsStatement 0 e.kind = true := by
  induction tokens generalizing depth with
  | nil => cases h
  | cons t tokens ih =>
    rw [statementLength] at h
    split at h
    · rename_i hends
      rw [List.drop_zero] at h
      obtain ⟨rfl, rfl⟩ := List.cons.inj h
      cases hk : t.kind <;> rw [hk] at hends <;> first | rfl | cases hends
    · exact ih h

/-- The number of tokens of a statement and of its ending. -/
def readLength (depth : Nat) (tokens : List Token) : Nat :=
  statementLength depth tokens +
    (Ending.ofTokens (tokens.drop (statementLength depth tokens))).length

theorem Ending.length_ofTokens_le (tokens : List Token) :
    (Ending.ofTokens tokens).length ≤ tokens.length := by
  cases tokens with
  | nil => exact Nat.le_refl 0
  | cons t tokens =>
    refine Nat.le_trans ?_ (Nat.succ_le_succ (Nat.zero_le tokens.length))
    cases Ending.ofTokens (t :: tokens) <;> simp [Ending.length]

theorem readLength_le (depth : Nat) (tokens : List Token) :
    readLength depth tokens ≤ tokens.length := by
  have hle := statementLength_le depth tokens
  have hending := Ending.length_ofTokens_le (tokens.drop (statementLength depth tokens))
  rw [List.length_drop] at hending
  rw [readLength]
  omega

/-- The number of tokens that are read along with a token, from those behind it: those of the
statement that it starts, and the mark that ends the statement. -/
def readBehind (token : Token) (rest : List Token) : Nat :=
  if token.kind.startsStatement || token.kind == .atKeyword then
    readLength (depthAfter 0 token.kind) rest
  else 0

theorem readBehind_of_startsStatement (h : token.kind.startsStatement = true) :
    readBehind token rest = readLength (depthAfter 0 token.kind) rest :=
  if_pos (by rw [h, Bool.true_or])

theorem readBehind_atKeyword (h : token.kind = .atKeyword) :
    readBehind token rest = readLength 0 rest := by
  rw [readBehind, h]
  rfl

theorem readBehind_of_single (h : token.kind.startsStatement = false ∧ token.kind ≠ .atKeyword) :
    readBehind token rest = 0 :=
  if_neg (by rw [h.1, beq_false_of_ne h.2]; simp)

theorem readBehind_le (token : Token) (rest : List Token) :
    readBehind token rest ≤ rest.length := by
  rw [readBehind]
  split
  · exact readLength_le _ rest
  · exact Nat.zero_le _

/-- How many tokens a step reads depends on the tokens alone. -/
theorem length_of_step (hstop : token.kind ≠ .stop) (h : step cx token rest s = some (t, n)) :
    n = readBehind token rest := by
  -- Only at-rules and statements read on behind their first token.
  have hsingle (hn : n = 0)
      (hkind : token.kind.startsStatement = false ∧ token.kind ≠ .atKeyword) :
      n = readBehind token rest := by rw [hn, readBehind_of_single hkind]
  cases hkind : token.kind with
  | stop => exact absurd hkind hstop
  | blank | semicolon | closeBrace | comment =>
    rw [step, hkind] at h
    cases h
    exact hsingle rfl (by rw [hkind]; decide)
  | atKeyword =>
    rw [step, hkind] at h
    obtain ⟨params, -, h⟩ := Option.bind_eq_some_iff.1 h
    rw [readBehind_atKeyword hkind, readLength]
    split at h
    all_goals
      rename_i heq
      rw [heq]
      cases h
      rfl
  | openBrace =>
    rw [step, hkind] at h
    unfold statement? at h
    rw [if_pos hkind] at h
    cases h
    exact hsingle rfl (by rw [hkind]; decide)
  | string | word | openParen | closeParen | openBracket | closeBracket | colon | comma =>
    have hstart : token.kind.startsStatement = true := by rw [hkind]; rfl
    rw [step_of_startsStatement hstart] at h
    unfold statement? at h
    rw [if_neg (ne_of_startsStatement hstart rfl)] at h
    rw [readBehind_of_startsStatement hstart, readLength]
    dsimp only at h
    split at h
    · rename_i heq
      obtain ⟨selector, -, h⟩ := Option.bind_eq_some_iff.1 h
      cases h
      rw [heq]
      rfl
    · obtain ⟨u, -, h⟩ := Option.bind_eq_some_iff.1 h
      cases h
      rfl

/-! ## The mark of the end -/

/-- The mark of the end of a text, as it is put behind tokens that have none. -/
def Context.mark (cx : Context) : Token :=
  .stopAt ⟨byteLength cx.source, 0, 0⟩

/-- The tokens with a mark of the end: their last one, or else one behind the text. -/
def Context.close (cx : Context) (tokens : List Token) : List Token :=
  if tokens.getLast?.any (·.kind == .stop) then tokens else tokens ++ [cx.mark]

theorem statementLength_mark (depth : Nat) (tokens : List Token) :
    statementLength depth (tokens ++ [cx.mark]) = statementLength depth tokens := by
  induction tokens generalizing depth with
  | nil => rfl
  | cons t tokens ih => rw [List.cons_append, statementLength, statementLength, ih]

theorem Ending.ofTokens_mark (tokens : List Token) :
    Ending.ofTokens (tokens ++ [cx.mark]) = Ending.ofTokens tokens := by
  cases tokens <;> rfl

theorem Context.startOf_mark (tokens : List Token) :
    cx.startOf (tokens ++ [cx.mark]) = cx.startOf tokens := by
  cases tokens <;> rfl

theorem Context.textOf?_mark (piece rest : List Token) :
    cx.textOf? piece (rest ++ [cx.mark]) = cx.textOf? piece rest := by
  rw [Context.textOf?.eq_def, Context.textOf?.eq_def, Context.startOf_mark]

theorem declaration?_mark (piece rest : List Token) (s : State) :
    declaration? cx piece (rest ++ [cx.mark]) s = declaration? cx piece rest s := by
  simp only [declaration?, Ending.ofTokens_mark, Context.textOf?_mark, Context.startOf_mark]

theorem step_mark (token : Token) (rest : List Token) (s : State) :
    step cx token (rest ++ [cx.mark]) s = step cx token rest s := by
  have htake (depth : Nat) : (rest ++ [cx.mark]).take (statementLength depth rest) =
      rest.take (statementLength depth rest) :=
    List.take_append_of_le_length (statementLength_le depth rest)
  have hdrop (depth : Nat) : (rest ++ [cx.mark]).drop (statementLength depth rest) =
      rest.drop (statementLength depth rest) ++ [cx.mark] :=
    List.drop_append_of_le_length (statementLength_le depth rest)
  have hrule : atRule? cx token (rest ++ [cx.mark]) s = atRule? cx token rest s := by
    simp only [atRule?, statementLength_mark, htake, hdrop, Context.textOf?_mark,
      Ending.ofTokens_mark]
  have hstatement : statement? cx token (rest ++ [cx.mark]) s = statement? cx token rest s := by
    simp only [statement?, statementLength_mark, htake, hdrop, Context.textOf?_mark,
      Ending.ofTokens_mark, declaration?_mark]
  rw [step, step, hrule, hstatement]

/-- The parser takes the end of a list for the mark of the end. -/
theorem run_mark (tokens : List Token) (s : State) :
    run cx (tokens ++ [cx.mark]) s = run cx tokens s := by
  fun_induction run cx tokens s with
  | case1 s => rw [List.nil_append, run]; exact if_pos rfl
  | case2 s token rest hstop => rw [List.cons_append, run, if_pos hstop]
  | case3 s token rest hstop u n hstep ih =>
    rw [List.cons_append, run, if_neg hstop, step_mark, hstep]
    have hle : n ≤ rest.length := length_of_step hstop hstep ▸ readBehind_le token rest
    rw [← ih, ← List.drop_append_of_le_length hle]
  | case4 s token rest hstop hstep =>
    rw [List.cons_append, run, if_neg hstop, step_mark, hstep]

theorem run_close (tokens : List Token) (s : State) :
    run cx (cx.close tokens) s = run cx tokens s := by
  rw [Context.close]
  split
  · rfl
  · exact run_mark tokens s

/-- The tokens end with the mark of the end, and it stands nowhere else. -/
def IsClosed (tokens : List Token) : Prop :=
  ∃ pieces e, tokens = pieces ++ [e] ∧ e.kind = .stop ∧ ∀ t ∈ pieces, t.kind ≠ .stop

namespace IsClosed

/-- Behind a token that is not the mark the tokens are closed as well. -/
theorem tail (h : IsClosed (token :: rest)) (hstop : token.kind ≠ .stop) : IsClosed rest := by
  obtain ⟨pieces, e, heq, he, hpieces⟩ := h
  cases pieces with
  | nil =>
    obtain ⟨rfl, -⟩ := List.cons.inj heq
    exact absurd he hstop
  | cons p pieces =>
    obtain ⟨-, rfl⟩ := List.cons.inj heq
    exact ⟨pieces, e, rfl, he, fun t ht => hpieces t (List.mem_cons_of_mem _ ht)⟩

/-- What is left of closed tokens, if any, is closed. -/
theorem drop (h : IsClosed tokens) (hn : n < tokens.length) : IsClosed (tokens.drop n) := by
  obtain ⟨pieces, e, rfl, he, hpieces⟩ := h
  rw [List.length_append, List.length_singleton] at hn
  exact ⟨pieces.drop n, e, List.drop_append_of_le_length (by omega), he,
    fun t ht => hpieces t (List.mem_of_mem_drop ht)⟩

theorem nil_of_stop (h : IsClosed (token :: rest)) (hstop : token.kind = .stop) : rest = [] := by
  obtain ⟨pieces, e, heq, -, hpieces⟩ := h
  cases pieces with
  | nil => exact (List.cons.inj heq).2
  | cons p pieces =>
    obtain ⟨rfl, -⟩ := List.cons.inj heq
    exact absurd hstop (hpieces _ List.mem_cons_self)

theorem statementLength_lt (h : IsClosed tokens) (depth : Nat) :
    statementLength depth tokens < tokens.length := by
  obtain ⟨pieces, e, rfl, he, -⟩ := h
  rw [List.length_append, List.length_singleton, Nat.lt_succ_iff]
  induction pieces generalizing depth with
  | nil =>
    rw [List.nil_append, statementLength, he]
    exact Nat.le_refl 0
  | cons t pieces ih =>
    rw [List.cons_append, statementLength]
    split
    · exact Nat.zero_le _
    · exact Nat.succ_le_succ (ih _)

/-- The mark of the end is never read as the ending of a statement. -/
theorem readLength_lt (h : IsClosed tokens) (depth : Nat) :
    readLength depth tokens < tokens.length := by
  have hlt := h.statementLength_lt depth
  have hclosed := h.drop hlt
  have hlen := List.length_drop (i := statementLength depth tokens) (l := tokens)
  rw [readLength]
  obtain ⟨t, rest, hrest⟩ := List.exists_cons_of_length_pos
    (Nat.lt_of_lt_of_eq (Nat.sub_pos_of_lt hlt) hlen.symm)
  rw [hrest] at hclosed hlen ⊢
  by_cases hstop : t.kind = .stop
  · rw [Ending.ofTokens, hstop]
    exact hlt
  · -- Something stands behind this token, which is at most one more to be read.
    have hmore := (hclosed.tail hstop).statementLength_lt 0
    have hending : (Ending.ofTokens (t :: rest)).length ≤ 1 := by
      cases Ending.ofTokens (t :: rest) <;> simp [Ending.length]
    rw [List.length_cons] at hlen
    omega

theorem readBehind_lt (h : IsClosed tokens) (token : Token) :
    readBehind token tokens < tokens.length := by
  rw [readBehind]
  split
  · exact h.readLength_lt _
  · exact Nat.lt_of_le_of_lt (Nat.zero_le _) (h.statementLength_lt 0)

end IsClosed

/-! ## Tokens between characters -/

/-- Two places between characters of a text have a slice between them. -/
theorem exists_between {source before after : List Char} (hbefore : before <+: source)
    (hafter : after <+: source) (hle : byteLength before ≤ byteLength after) :
    ∃ middle rest, source = before ++ middle ++ rest ∧
      byteLength (before ++ middle) = byteLength after := by
  rcases List.prefix_or_prefix_of_prefix hbefore hafter with ⟨middle, rfl⟩ | ⟨more, rfl⟩
  · obtain ⟨rest, rfl⟩ := hafter
    exact ⟨middle, rest, rfl, rfl⟩
  · -- The earlier place is not behind the later one, so nothing stands between them.
    obtain ⟨rest, rfl⟩ := hbefore
    rw [byteLength_append] at hle
    refine ⟨[], rest, by rw [List.append_nil], ?_⟩
    rw [List.append_nil, byteLength_append]
    omega

/-- The tokens start one behind the other, each between characters of the text. -/
structure IsPlaced (source : List Char) (tokens : List Token) : Prop where
  bounds : ∀ t ∈ tokens, ∃ before, before <+: source ∧ t.span.start.byte = byteLength before
  sorted : tokens.Pairwise fun t u => t.span.start.byte ≤ u.span.start.byte

theorem IsPlaced.sublist {source : List Char} {tokens' : List Token} (h : IsPlaced source tokens)
    (hsub : tokens'.Sublist tokens) : IsPlaced source tokens' :=
  ⟨fun t ht => h.bounds t (hsub.subset ht), h.sorted.sublist hsub⟩

/-- The text of some tokens can be taken. -/
theorem IsPlaced.exists_text (h : IsPlaced cx.source (piece ++ rest)) :
    ∃ cs, cx.textOf? piece rest = some cs := by
  cases piece with
  | nil => exact ⟨[], rfl⟩
  | cons t piece =>
    obtain ⟨before, hbefore, hstart⟩ := h.bounds t List.mem_cons_self
    have hbehind : ∃ after, after <+: cx.source ∧ (cx.startOf rest).byte = byteLength after ∧
        byteLength before ≤ byteLength after := by
      cases rest with
      | nil => exact ⟨cx.source, List.prefix_refl _, rfl, byteLength_mono hbefore⟩
      | cons u rest =>
        have hmem : u ∈ piece ++ u :: rest := List.mem_append_right _ List.mem_cons_self
        obtain ⟨after, hafter, hstop⟩ := h.bounds u (List.mem_cons_of_mem _ hmem)
        have hle := (List.pairwise_cons.1 h.sorted).1 u hmem
        exact ⟨after, hafter, hstop, by rwa [hstart, hstop] at hle⟩
    obtain ⟨after, hafter, hstop, hle⟩ := hbehind
    obtain ⟨middle, more, hsource, hlen⟩ := exists_between hbefore hafter hle
    have hslice := slice?_append before middle more
    rw [← byteLength_append, hlen, ← hsource] at hslice
    exact ⟨trim middle, by rw [Context.textOf?, hstart, hstop, hslice]; rfl⟩

/-- The mark of an important declaration starts at a character of the value, though it is looked for
in the value with small letters. -/
theorem exists_cut_of_mark (value : List Char) :
    let small := value.map Char.toLower
    ∃ before behind, value = before ++ behind ∧
      byteLength (small.take (small.length - importantMark.length)) = byteLength before := by
  refine ⟨value.take (value.length - importantMark.length), value.drop _,
    (List.take_append_drop _ _).symm, ?_⟩
  rw [List.length_map, ← List.map_take, byteLength_map_toLower]

namespace IsPlaced

theorem exists_declaration (h : IsPlaced cx.source (piece ++ rest)) (s : State) :
    ∃ t, declaration? cx piece rest s = some t := by
  unfold declaration?
  dsimp only
  generalize piece.findIdx? (·.kind == .colon) = colon
  cases colon with
  | none =>
    obtain ⟨text, htext⟩ := h.exists_text
    rw [htext]
    exact ⟨_, rfl⟩
  | some i =>
    have hproperty : IsPlaced cx.source (piece.take i ++ piece.drop i) := by
      rw [List.take_append_drop]
      exact h.sublist (List.sublist_append_left _ _)
    have hvalue : IsPlaced cx.source (piece.drop (i + 1) ++ rest) :=
      h.sublist ((List.drop_sublist _ _).append_right rest)
    obtain ⟨property, hproperty⟩ := hproperty.exists_text
    obtain ⟨value, hvalue⟩ := hvalue.exists_text
    simp only [hproperty, hvalue, splitImportant?_eq, Option.bind_eq_bind, Option.bind_some]
    exact ⟨_, rfl⟩

/-- A step succeeds. -/
theorem exists_step (h : IsPlaced cx.source (token :: rest)) (s : State) :
    ∃ t n, step cx token rest s = some (t, n) := by
  have hrest : IsPlaced cx.source rest := h.sublist (List.sublist_cons_self _ _)
  have hcut (l : List Token) (n : Nat) (hl : IsPlaced cx.source l) :
      IsPlaced cx.source (l.take n ++ l.drop n) := by rwa [List.take_append_drop]
  unfold step
  split
  case h_5 =>
    obtain ⟨params, hparams⟩ := (hcut rest (statementLength 0 rest) hrest).exists_text
    unfold atRule?
    simp only [hparams, Option.bind_eq_bind, Option.bind_some]
    split <;> exact ⟨_, _, rfl⟩
  case h_6 =>
    have hpiece := hcut (token :: rest) (statementLength (depthAfter 0 token.kind) rest + 1) h
    rw [List.take_succ_cons, List.drop_succ_cons] at hpiece
    unfold statement?
    split
    · exact ⟨_, _, rfl⟩
    · dsimp only
      split
      · obtain ⟨selector, hselector⟩ := hpiece.exists_text
        rw [hselector]
        exact ⟨_, _, rfl⟩
      · obtain ⟨t, ht⟩ := hpiece.exists_declaration s
        rw [ht]
        exact ⟨_, _, rfl⟩
  all_goals exact ⟨_, _, rfl⟩

end IsPlaced

/-! ## The whole list -/

/-- In reading the tokens, the parser comes before the one with the number `i`, in the state `s`. -/
inductive Visits (cx : Context) (tokens : List Token) : Nat → State → Prop where
  | start : Visits cx tokens 0 {}
  | next {i n : Nat} {s t : State} {token : Token} (h : Visits cx tokens i s)
      (hi : tokens[i]? = some token) (hstop : token.kind ≠ .stop)
      (hstep : step cx token (tokens.drop (i + 1)) s = some (t, n)) :
      Visits cx tokens (i + 1 + n) t

/-- The parser stays among the tokens and the characters of the text. -/
structure ReadsWithin (cx : Context) (tokens : List Token) : Prop where
  /-- The parser comes to no place behind the last token. -/
  inside : ∀ i s, Visits cx tokens i s → i < tokens.length
  /-- The search for the end of a statement, from any token and in any group, finds a token. -/
  found : ∀ depth i, i < tokens.length →
    ∃ e, tokens[i + statementLength depth (tokens.drop i)]? = some e ∧
      endsStatement 0 e.kind = true
  /-- Where the parser comes to, it gets on, unless the token there is the mark of the end. -/
  steps : ∀ i s token, Visits cx tokens i s → tokens[i]? = some token → token.kind ≠ .stop →
    ∃ t n, step cx token (tokens.drop (i + 1)) s = some (t, n) ∧ i + 1 + n < tokens.length
  /-- Between the starts of two tokens lies a part of the text. -/
  sliced : ∀ (i j : Nat) (t u : Token), i ≤ j → tokens[i]? = some t → tokens[j]? = some u →
    ∃ before middle rest, cx.source = before ++ middle ++ rest ∧
      t.span.start.byte = byteLength before ∧ u.span.start.byte = byteLength (before ++ middle)
  /-- Reading ends, and at the last token. -/
  ends : ∃ i s, Visits cx tokens i s ∧ i + 1 = tokens.length ∧
    run cx tokens {} = some (s.closeAll cx.input s.frames)

section Whole

variable {i : Nat} (hclosed : IsClosed tokens) (hplaced : IsPlaced cx.source tokens)
include hclosed hplaced

/-- From a token that is not the mark, a step leads to another token. -/
theorem exists_step_within (s : State) (hi : tokens[i]? = some token) (hstop : token.kind ≠ .stop) :
    ∃ t n, step cx token (tokens.drop (i + 1)) s = some (t, n) ∧ i + 1 + n < tokens.length := by
  obtain ⟨hlt, rfl⟩ := List.getElem?_eq_some_iff.1 hi
  have hcons := List.drop_eq_getElem_cons hlt
  obtain ⟨t, n, hstep⟩ := (hplaced.sublist (hcons ▸ List.drop_sublist i tokens)).exists_step s
  have hrest : IsClosed (tokens.drop (i + 1)) := (hcons ▸ hclosed.drop hlt).tail hstop
  have hn : n < (tokens.drop (i + 1)).length := by
    rw [length_of_step hstop hstep]
    exact hrest.readBehind_lt _
  rw [List.length_drop] at hn
  exact ⟨t, n, hstep, by omega⟩

theorem Visits.lt_length (h : Visits cx tokens i s) : i < tokens.length := by
  cases h with
  | start => exact Nat.lt_of_le_of_lt (Nat.zero_le _) (hclosed.statementLength_lt 0)
  | next h hi hstop hstep =>
    obtain ⟨t, n, hstep', hlt⟩ := exists_step_within hclosed hplaced _ hi hstop
    obtain ⟨rfl, rfl⟩ := Prod.mk.inj (Option.some.inj (hstep.symm.trans hstep'))
    exact hlt

/-- From wherever the parser comes to, it gets to the last token. -/
theorem exists_run (h : Visits cx tokens i s) :
    ∃ j t, Visits cx tokens j t ∧ j + 1 = tokens.length ∧
      run cx (tokens.drop i) s = some (t.closeAll cx.input t.frames) := by
  induction hn : tokens.length - i using Nat.strongRecOn generalizing i s with
  | ind m ih =>
    have hlt := h.lt_length hclosed hplaced
    have hcons := List.drop_eq_getElem_cons hlt
    have hi : tokens[i]? = some tokens[i] := List.getElem?_eq_getElem hlt
    rw [hcons, run]
    by_cases hstop : tokens[i].kind = .stop
    · have hlen := congrArg List.length ((hcons ▸ hclosed.drop hlt).nil_of_stop hstop)
      rw [List.length_drop, List.length_nil] at hlen
      rw [if_pos hstop]
      exact ⟨i, s, h, by omega, rfl⟩
    · obtain ⟨t, n, hstep, hnext⟩ := exists_step_within hclosed hplaced s hi hstop
      rw [if_neg hstop, hstep]
      dsimp only
      rw [List.drop_drop]
      exact ih _ (by omega) (h.next hi hstop hstep) rfl

theorem readsWithin : ReadsWithin cx tokens := by
  refine
    { inside := fun i s h => h.lt_length hclosed hplaced
      found := ?found
      steps := fun i s token _ hi hstop => exists_step_within hclosed hplaced s hi hstop
      sliced := ?sliced
      ends := exists_run hclosed hplaced .start }
  case found =>
    intro depth i hi
    have hlt := (hclosed.drop hi).statementLength_lt depth
    have hcons := List.drop_eq_getElem_cons hlt
    refine ⟨_, ?_, endsStatement_of_drop hcons⟩
    rw [← List.getElem?_drop, List.getElem?_eq_getElem hlt]
  case sliced =>
    intro i j t u hij hi hj
    obtain ⟨hilt, rfl⟩ := List.getElem?_eq_some_iff.1 hi
    obtain ⟨hjlt, rfl⟩ := List.getElem?_eq_some_iff.1 hj
    obtain ⟨before, hbefore, hstart⟩ := hplaced.bounds _ (List.getElem_mem hilt)
    obtain ⟨after, hafter, hstop⟩ := hplaced.bounds _ (List.getElem_mem hjlt)
    have hle : tokens[i].span.start.byte ≤ tokens[j].span.start.byte := by
      rcases Nat.lt_or_eq_of_le hij with hlt | rfl
      · exact List.pairwise_iff_getElem.1 hplaced.sorted i j hilt hjlt hlt
      · exact Nat.le_refl _
    rw [hstart, hstop] at hle ⊢
    obtain ⟨middle, rest, hsource, hlen⟩ := exists_between hbefore hafter hle
    exact ⟨before, middle, rest, hsource, rfl, hlen.symm⟩

end Whole

end Parser

/-- The tokens of a text lie on it one behind the other. -/
theorem isPlaced_tokenize (source : String) :
    Parser.IsPlaced source.toList (tokenize source).tokens := by
  refine ⟨fun t ht => ?_, ?_⟩
  · obtain ⟨earlier, later, hsplit⟩ := List.append_of_mem ht
    refine ⟨charactersOf earlier, charactersOf_begins hsplit, ?_⟩
    rw [span_of_tokenize hsplit]
    rfl
  · exact ((List.pairwise_map.1 (starts_tokensFrom _ _).2).imp Nat.le_of_lt)

variable {cx : Parser.Context}

theorem Parser.IsPlaced.close {tokens : List Token} (h : Parser.IsPlaced cx.source tokens) :
    Parser.IsPlaced cx.source (cx.close tokens) := by
  rw [Context.close]
  split
  · exact h
  · have hmark (t : Token) (ht : t ∈ [cx.mark]) : t.span.start.byte = byteLength cx.source := by
      rw [List.mem_singleton.1 ht]
      rfl
    refine ⟨fun t ht => ?_, List.pairwise_append.2 ⟨h.sorted, List.pairwise_singleton _ _, ?_⟩⟩
    · rcases List.mem_append.1 ht with ht | ht
      · exact h.bounds t ht
      · exact ⟨cx.source, List.prefix_refl _, hmark t ht⟩
    · intro t ht u hu
      obtain ⟨before, hbefore, hstart⟩ := h.bounds t ht
      rw [hmark u hu, hstart]
      exact byteLength_mono hbefore

theorem isClosed_tokenize (source : String) : Parser.IsClosed (tokenize source).tokens := by
  obtain ⟨pieces, hpieces, hkinds⟩ := (tiles_tokenize source).exists_pieces
  exact ⟨pieces, _, hpieces, rfl, fun t ht => (hkinds t ht).1⟩

/-- What stands behind a token of a text is closed, unless the token is the mark itself. -/
theorem isClosed_behind {source : String} {read rest : List Token} {token : Token}
    (h : (tokenize source).tokens = read ++ token :: rest) (hstop : token.kind ≠ .stop) :
    Parser.IsClosed rest := by
  have hwhole := (isClosed_tokenize source).drop (n := read.length) (by rw [h]; simp)
  rw [h, List.drop_left] at hwhole
  exact hwhole.tail hstop

/-- However many of the tokens are kept, the mark closes them. -/
theorem Parser.IsClosed.close_take {tokens : List Token} (h : Parser.IsClosed tokens) (k : Nat) :
    Parser.IsClosed (cx.close (tokens.take k)) := by
  obtain ⟨pieces, e, rfl, he, hpieces⟩ := h
  rw [Context.close]
  by_cases hk : k ≤ pieces.length
  · -- The mark has been cut off.
    have hbare : ∀ t ∈ pieces.take k, t.kind ≠ .stop := fun t ht =>
      hpieces t (List.mem_of_mem_take ht)
    have hlast : ¬ (pieces.take k).getLast?.any (·.kind == .stop) = true := by
      rw [Option.any_eq_true]
      rintro ⟨t, ht, hstop⟩
      exact hbare t (List.mem_of_getLast? ht) (beq_iff_eq.1 hstop)
    rw [List.take_append_of_le_length hk, if_neg hlast]
    exact ⟨_, cx.mark, rfl, rfl, hbare⟩
  · have hlast : (pieces ++ [e]).getLast?.any (·.kind == .stop) = true := by
      rw [List.getLast?_concat, Option.any_some, he]
      rfl
    rw [List.take_of_length_le (by rw [List.length_append, List.length_singleton]; omega),
      if_pos hlast]
    exact ⟨pieces, e, rfl, he, hpieces⟩

/-- Whatever the text, and however many of its tokens are kept, the parser reads them and the mark
that it puts behind them to the end, without a step or a slice that leads out of them, and it cuts
the mark of an important declaration off between two characters of the value. -/
theorem parseTokens?_total (input : InputId) (source : String) (k : Nat) :
    let cx : Parser.Context := ⟨source.toList, input⟩
    let kept := (tokenize source).tokens.take k
    (∃ parsed, parseTokens? input source kept = some parsed ∧
      parseTokens? input source (cx.close kept) = some parsed) ∧
    Parser.ReadsWithin cx (cx.close kept) ∧
    ∀ value : List Char,
      let small := value.map Char.toLower
      ∃ before behind, value = before ++ behind ∧
        byteLength (small.take (small.length - Parser.importantMark.length)) =
          byteLength before := by
  intro cx kept
  have hplaced : Parser.IsPlaced cx.source (cx.close kept) :=
    ((isPlaced_tokenize source).sublist (List.take_sublist _ _)).close
  have hwithin := Parser.readsWithin ((isClosed_tokenize source).close_take k) hplaced
  obtain ⟨_, s, -, -, hrun⟩ := hwithin.ends
  refine ⟨⟨_, ?_, by rw [parseTokens?, hrun]; rfl⟩, hwithin, Parser.exists_cut_of_mark⟩
  rw [Parser.run_close] at hrun
  rw [parseTokens?, hrun]
  rfl

end ClassRules
