import ClassRules.Proofs.Text.Significant
import ClassRules.Proofs.Tree.Order

/-!
# Colons

A statement without a block is divided at its first colon, wherever that stands. The end of the
statement is looked for outside of parentheses and brackets, the colon is not: a statement whose
first colon stands in a group is divided within the group.

## What this module delivers

- `PlainStatement`, `plainStatements`: the statements without a block among the tokens of a text.
  `PlainStatement.colon` and `outerColon` are the first colon, and the first outside of groups.
- `Yield`: the nodes and the errors for want of a colon at one place. `PlainStatement.yield` is what
  a statement gives if it is divided at a colon.
- `parse_plainStatement`: a statement gives what dividing it at its first colon gives, and what
  dividing it at the first colon outside of groups would give only if that is the same colon.
-/

set_option autoImplicit false

namespace ClassRules

open Text ClassRules.Tree ClassRules.Parser

/-! ## What a place yields -/

/-- What reading a text gives at one place: the contents of the nodes that start there, and the
texts of the statements there that are reported for want of a colon. -/
structure Yield where
  contents : List Content := []
  reported : List String := []
  deriving DecidableEq, Repr

/-- The text that an error reports at the given byte for want of a colon. -/
def ParseError.reportedAt? (byte : Nat) (e : ParseError) : Option String :=
  match e.cause with
  | .missingColon text => if e.span.start.byte = byte then some text else none
  | _ => none

/-- What nodes and errors hold at the given byte. -/
def yieldOf (input : InputId) (byte : Nat) (marks : List (Content × Option (InputId × Nat)))
    (errors : List ParseError) : Yield where
  contents := (marks.filter (·.2 == some (input, byte))).map Prod.fst
  reported := errors.filterMap (·.reportedAt? byte)

/-- What a text has given at the given byte of its input. -/
def Parsed.yieldAt (parsed : Parsed) (input : InputId) (byte : Nat) : Yield :=
  yieldOf input byte (marksIn parsed.nodes) parsed.errors

/-! ## Statements -/

/-- A statement without a block: its first token and the others. -/
structure PlainStatement where
  first : Token
  more : List Token
  deriving DecidableEq, Repr

/-- The statement that a token starts. -/
def PlainStatement.ofTokens (token : Token) (rest : List Token) : PlainStatement :=
  ⟨token, rest.take (statementLength (depthAfter 0 token.kind) rest)⟩

/-- The number of tokens before the first colon outside of groups, `depth` groups being open. -/
def outerColonFrom (depth : Nat) : List Token → Option Nat
  | [] => none
  | t :: ts =>
    if t.kind = .colon ∧ depth = 0 then some 0
    else (outerColonFrom (depthAfter depth t.kind) ts).map (· + 1)

namespace PlainStatement

variable (st : PlainStatement)

/-- All tokens of the statement. -/
def tokens : List Token :=
  st.first :: st.more

/-- The byte at which the statement starts. -/
def byte : Nat :=
  st.first.span.start.byte

/-- The number of tokens before the first colon. -/
def colon : Option Nat :=
  st.tokens.findIdx? (·.kind == .colon)

/-- The number of tokens before the first colon outside of groups. -/
def outerColon : Option Nat :=
  outerColonFrom 0 st.tokens

/-- The declaration that the text before and behind the token with the given number makes up. -/
def declaration (i : Nat) : Content :=
  let property := trim (charactersOf (st.tokens.take i))
  let (value, important) := withoutMark (trim (charactersOf (st.tokens.drop (i + 1))))
  .declaration (String.ofList property) (String.ofList value) important

/-- What the statement gives if it is divided at the given colon, or for want of one. -/
def yield : Option Nat → Yield
  | some i => { contents := [st.declaration i] }
  | none => { reported := [String.ofList (trim (charactersOf st.tokens))] }

end PlainStatement

/-- The statements without a block, other than at-rules, among the tokens. -/
def plainStatements : List Token → List PlainStatement
  | [] => []
  | token :: rest =>
    let later := plainStatements (rest.drop (readBehind token rest))
    if token.kind.startsStatement then
      match Ending.ofTokens (rest.drop (statementLength (depthAfter 0 token.kind) rest)) with
      | .block _ => later
      | _ => .ofTokens token rest :: later
    else later
termination_by tokens => tokens.length
decreasing_by simp only [List.length_drop, List.length_cons]; omega

theorem mem_plainStatements_cons {token : Token} {rest : List Token} {st : PlainStatement}
    (h : st ∈ plainStatements (token :: rest)) :
    st ∈ plainStatements (rest.drop (readBehind token rest)) ∨
      token.kind.startsStatement = true ∧
      (∀ brace,
        Ending.ofTokens (rest.drop (statementLength (depthAfter 0 token.kind) rest)) ≠
          .block brace) ∧
      st = .ofTokens token rest := by
  rw [plainStatements] at h
  split at h
  · rename_i hkind
    split at h
    · exact .inl h
    · rename_i hplain
      rcases List.mem_cons.1 h with rfl | h
      · exact .inr ⟨hkind, hplain, rfl⟩
      · exact .inl h
  · exact .inl h

/-! ## Steps -/

namespace Parser

variable {input : InputId} {source : String} {cx : Context} {s t : State} {token follow : Token}
  {read before more rest : List Token} {byte n : Nat}

/-- What has been read at the given byte. -/
def State.yieldAt (s : State) (input : InputId) (byte : Nat) : Yield :=
  yieldOf input byte (s.trail input) s.errors

@[simp] theorem State.yieldAt_readTo (s : State) (tokens : List Token) :
    (s.readTo tokens).yieldAt input byte = s.yieldAt input byte := by
  rw [yieldAt, trail_readTo, errors_readTo, yieldAt]

/-- A node that starts elsewhere makes no difference. -/
theorem yieldOf_append_mark {marks : List (Content × Option (InputId × Nat))}
    {errors : List ParseError} {content : Content} {start : Nat} (h : start ≠ byte) :
    yieldOf input byte (marks ++ [(content, some (input, start))]) errors =
      yieldOf input byte marks errors := by
  simp [yieldOf, h]

/-- Neither does any other error. -/
theorem yieldOf_append_error {marks : List (Content × Option (InputId × Nat))}
    {errors : List ParseError} {e : ParseError} (h : e.reportedAt? byte = none) :
    yieldOf input byte marks (errors ++ [e]) = yieldOf input byte marks errors := by
  simp [yieldOf, h]

/-- A step makes no difference to other places than that of its token. -/
theorem step_yieldAt_of_ne (hstop : token.kind ≠ .stop)
    (heq : step cx token rest s = some (t, n)) (hne : token.span.start.byte ≠ byte) :
    t.yieldAt cx.input byte = s.yieldAt cx.input byte := by
  cases step_cases hstop heq with
  | pass => rw [State.yieldAt_readTo]
  | leaf =>
    rw [State.yieldAt, State.trail_addLeaf, State.errors_add, yieldOf_append_mark hne]
    exact State.yieldAt_readTo _ _
  | lacking =>
    rw [State.yieldAt, State.trail_report, State.report,
      yieldOf_append_error (by simp [ParseError.reportedAt?, hne])]
    exact State.yieldAt_readTo _ _
  | opens =>
    rw [State.yieldAt, State.trail_openBlock, State.errors_openBlock, yieldOf_append_mark hne]
    rfl
  | closes =>
    rw [State.yieldAt, State.trail_closeBlock]
    cases hframes : s.frames with
    | nil =>
      rw [State.closeBlock_of_nil s cx.input token hframes, State.report,
        yieldOf_append_error rfl, State.errors_readTo]
      rfl
    | cons frame frames =>
      rw [State.closeBlock_of_cons s cx.input token hframes, State.errors_closeFrame,
        State.errors_readTo]
      rfl

/-- The node that is added first at a place is all there is. -/
theorem State.yieldAt_addLeaf {start : Position} {content : Content}
    (hs : s.yieldAt input start.byte = {}) (tokens : List Token) :
    ((s.readTo tokens).add input content start).yieldAt input start.byte =
      { contents := [content] } := by
  obtain ⟨hcontents, hreported⟩ := Yield.mk.inj hs
  rw [yieldAt, trail_addLeaf, trail_readTo, errors_add, errors_readTo]
  simp [yieldOf, hcontents, hreported]

/-- So is the error that is reported first. -/
theorem State.yieldAt_missingColon {start stop : Position} {text : String}
    (hs : s.yieldAt input start.byte = {}) (tokens : List Token) :
    ((s.readTo tokens).report (.missingColon text) ⟨start, stop⟩).yieldAt input start.byte =
      { reported := [text] } := by
  obtain ⟨hcontents, hreported⟩ := Yield.mk.inj hs
  rw [yieldAt, trail_report, trail_readTo, report, errors_readTo, yieldOf, hcontents,
    List.filterMap_append, hreported]
  simp [ParseError.reportedAt?]

/-- The text of some of the tokens of a text is what they spell, without the blanks at its ends. -/
theorem textOf?_tokenize {piece rest' : List Token}
    (h : (tokenize source).tokens = before ++ piece ++ follow :: rest) :
    Context.textOf? ⟨source.toList, input⟩ piece (follow :: rest') =
      some (trim (charactersOf piece)) := by
  have hsource := (tiles_tokenize source).characters
  rw [h] at hsource
  cases piece with
  | nil => rfl
  | cons t piece =>
    -- It is cut between the bytes where the first token and the one behind the last start.
    have hfollow := span_of_tokenize h
    have hfirst : t.span = _ := span_of_tokenize (h.trans (List.append_assoc _ _ _))
    have hslice := slice?_append (charactersOf before) (charactersOf (t :: piece))
      (charactersOf (follow :: rest))
    rw [← charactersOf_append, ← charactersOf_append, hsource, ← byteLength_append,
      ← charactersOf_append] at hslice
    rw [Context.textOf?]
    simp only [Context.startOf]
    rw [hfirst, hfollow]
    simp only [Position.behind]
    rw [hslice]
    rfl

/-- A statement is divided at its first colon. -/
theorem declaration?_yieldAt {st : PlainStatement}
    (h : (tokenize source).tokens = before ++ st.tokens ++ follow :: rest)
    (hs : s.yieldAt input st.byte = {})
    (heq : declaration? ⟨source.toList, input⟩ st.tokens (follow :: rest) s = some t) :
    t.yieldAt input st.byte = st.yield st.colon := by
  unfold declaration? at heq
  dsimp only at heq
  rw [PlainStatement.colon]
  cases hcolon : st.tokens.findIdx? (·.kind == .colon) with
  | none =>
    rw [hcolon, textOf?_tokenize h] at heq
    cases heq
    split <;> exact State.yieldAt_missingColon hs _
  | some i =>
    obtain ⟨hi, -, -⟩ := List.findIdx?_eq_some_iff_getElem.1 hcolon
    have hcut := List.drop_eq_getElem_cons hi
    -- The colon follows the property, and the mark behind the statement follows the value.
    have hproperty : (tokenize source).tokens = before ++ st.tokens.take i ++
        st.tokens[i] :: (st.tokens.drop (i + 1) ++ follow :: rest) := by
      rw [h, ← List.cons_append, ← hcut, List.append_assoc before (List.take _ _),
        ← List.append_assoc (List.take _ _), List.take_append_drop, List.append_assoc]
    have hvalue : (tokenize source).tokens = (before ++ st.tokens.take (i + 1)) ++
        st.tokens.drop (i + 1) ++ follow :: rest := by
      rw [h, List.append_assoc before (List.take _ _), List.take_append_drop]
    rw [hcolon] at heq
    dsimp only at heq
    rw [hcut, textOf?_tokenize hproperty, textOf?_tokenize hvalue] at heq
    simp only [Option.bind_eq_bind, Option.bind_some, splitImportant?_eq] at heq
    cases heq
    split <;> exact State.yieldAt_addLeaf hs _

/-- A step that reads a statement without a block divides it at its first colon. -/
theorem step_yieldAt (h : (tokenize source).tokens = read ++ token :: rest)
    (hkind : token.kind.startsStatement = true)
    (hplain : ∀ brace,
      Ending.ofTokens (rest.drop (statementLength (depthAfter 0 token.kind) rest)) ≠ .block brace)
    (hs : s.yieldAt input token.span.start.byte = {})
    (heq : step ⟨source.toList, input⟩ token rest s = some (t, n)) :
    t.yieldAt input token.span.start.byte =
      (PlainStatement.ofTokens token rest).yield (PlainStatement.ofTokens token rest).colon := by
  have hclosed := isClosed_behind h (ne_of_startsStatement hkind rfl)
  -- The mark of the end is left behind the statement, if nothing else is.
  have hcut := List.drop_eq_getElem_cons (hclosed.statementLength_lt (depthAfter 0 token.kind))
  rw [step_of_startsStatement hkind] at heq
  unfold statement? at heq
  rw [if_neg (ne_of_startsStatement hkind rfl)] at heq
  simp only at heq
  obtain ⟨u, hu, heq⟩ := Option.bind_eq_some_iff.1 heq
  cases heq
  have hwhole : (tokenize source).tokens = read ++ (PlainStatement.ofTokens token rest).tokens ++
      rest.drop (statementLength (depthAfter 0 token.kind) rest) := by
    rw [h, List.append_assoc, PlainStatement.tokens, PlainStatement.ofTokens, List.cons_append,
      List.take_append_drop]
  rw [hcut] at hu hwhole
  exact declaration?_yieldAt hwhole hs hu

/-! ## Runs -/

/-- Nothing has been read yet at the tokens to come, and each statement without a block that does
not stand among them has given what it should. -/
structure Settles (input : InputId) (whole read coming : List Token) (s : State) : Prop where
  whole_eq : whole = read ++ coming
  fresh : ∀ token ∈ coming, s.yieldAt input token.span.start.byte = {}
  settled : ∀ st ∈ plainStatements whole, st ∈ plainStatements coming ∨
    st.first ∈ read ∧ s.yieldAt input st.byte = st.yield st.colon

theorem Settles.initial (input : InputId) (whole : List Token) :
    Settles input whole [] whole {} :=
  ⟨rfl, fun _ _ => rfl, fun _ hst => .inl hst⟩

theorem Settles.step (h : Settles input (tokenize source).tokens read (token :: rest) s)
    (hstop : token.kind ≠ .stop)
    (heq : Parser.step ⟨source.toList, input⟩ token rest s = some (t, n)) :
    Settles input (tokenize source).tokens (read ++ token :: rest.take n) (rest.drop n) t := by
  -- No two tokens start at the same byte.
  have hstarts := (starts_tokensFrom source.toList .start).2
  rw [show (tokensFrom ⟨source.toList, .start⟩).tokens = read ++ token :: rest from h.whole_eq,
    List.pairwise_map, List.pairwise_append, List.pairwise_cons] at hstarts
  obtain ⟨-, ⟨hlater, -⟩, hearlier⟩ := hstarts
  refine ⟨?_, fun u hu => ?_, fun st hst => ?_⟩
  · rw [h.whole_eq, List.append_assoc, List.cons_append, List.take_append_drop]
  · have hmem := List.mem_of_mem_drop hu
    rw [step_yieldAt_of_ne hstop heq (Nat.ne_of_lt (hlater u hmem))]
    exact h.fresh u (List.mem_cons_of_mem token hmem)
  · rcases h.settled st hst with hcoming | ⟨hread, hyield⟩
    · rcases mem_plainStatements_cons hcoming with hcoming | ⟨hkind, hplain, rfl⟩
      · rw [← length_of_step hstop heq] at hcoming
        exact .inl hcoming
      · refine .inr ⟨List.mem_append_right _ List.mem_cons_self, ?_⟩
        exact step_yieldAt h.whole_eq hkind hplain (h.fresh token List.mem_cons_self) heq
    · have hne := Nat.ne_of_gt (hearlier _ hread token List.mem_cons_self)
      refine .inr ⟨List.mem_append_left _ hread, ?_⟩
      rw [← hyield]
      exact step_yieldAt_of_ne hstop heq hne

end Parser

/-! ## Whole texts -/

/-- A statement without a block gives what it gives when divided at its first colon. -/
theorem parse_yieldAt (input : InputId) (source : String) {st : PlainStatement}
    (hst : st ∈ plainStatements (tokenize source).tokens) :
    (parse input source).yieldAt input st.byte = st.yield st.colon := by
  obtain ⟨read, stop, s, hwhole, hstop, ⟨coming, hsettles⟩, htrail, herrors⟩ :=
    exists_parse input source
      (P := fun read s => ∃ coming, Parser.Settles input (tokenize source).tokens read coming s)
      ⟨_, Parser.Settles.initial input _⟩ fun hwhole hstop heq ⟨coming, h⟩ => by
        obtain rfl := List.append_cancel_left (h.whole_eq.symm.trans hwhole)
        exact ⟨_, h.step hstop heq⟩
  obtain rfl := List.append_cancel_left (hsettles.whole_eq.symm.trans hwhole)
  have hnone : plainStatements [stop] = [] := by
    have hkind : stop.kind.startsStatement = false := by rw [hstop]; rfl
    rw [plainStatements, if_neg (Bool.eq_false_iff.1 hkind), List.drop_nil, plainStatements]
  -- The lexer has no such errors, nor has the end of the text.
  have hlexed : (tokenize source).errors.filterMap (·.reportedAt? st.byte) = [] := by
    refine List.filterMap_eq_nil_iff.2 fun e he => ?_
    rcases cause_of_mem_errors he with hcause | hcause <;> rw [ParseError.reportedAt?, hcause]
  have hopen : (s.frames.map fun frame => (⟨.unclosedBlock, frame.brace⟩ : ParseError)).filterMap
      (·.reportedAt? st.byte) = [] := by
    refine List.filterMap_eq_nil_iff.2 fun e he => ?_
    obtain ⟨frame, -, rfl⟩ := List.mem_map.1 he
    rfl
  rcases hsettles.settled st hst with hcoming | ⟨-, hyield⟩
  · rw [hnone] at hcoming
    cases hcoming
  · rw [Parsed.yieldAt, htrail, herrors, yieldOf, List.filterMap_append, List.filterMap_append,
      hlexed, hopen, List.nil_append, List.append_nil]
    exact hyield

/-! ## Colons in groups -/

/-- The tokens of a statement are among those of the text. -/
theorem mem_of_mem_plainStatements {tokens : List Token} {st : PlainStatement}
    (h : st ∈ plainStatements tokens) : ∀ u ∈ st.tokens, u ∈ tokens := by
  induction hn : tokens.length using Nat.strongRecOn generalizing tokens with
  | ind n ih =>
    cases tokens with
    | nil =>
      rw [plainStatements] at h
      cases h
    | cons token rest =>
      intro u hu
      rcases mem_plainStatements_cons h with h | ⟨-, -, rfl⟩
      · have hlen : (rest.drop (readBehind token rest)).length < n := by
          rw [← hn, List.length_drop, List.length_cons]
          omega
        exact List.mem_cons_of_mem token (List.mem_of_mem_drop (ih _ hlen h rfl u hu))
      · rcases List.mem_cons.1 hu with rfl | hu
        · exact List.mem_cons_self
        · exact List.mem_cons_of_mem token (List.mem_of_mem_take hu)

/-- A token of this kind is a colon. -/
theorem colon_mem_of_kind {cs : List Char} {place : Position} {t : Token}
    (h : t ∈ (tokensFrom ⟨cs, place⟩).tokens) (hkind : t.kind = .colon) : ':' ∈ t.text.toList := by
  induction cs using Lexeme.piecewise generalizing place with
  | nil =>
    rw [tokensFrom_nil, List.mem_singleton] at h
    rw [h] at hkind
    cases hkind
  | cons c rest ih =>
    rw [tokensFrom_cons] at h
    rcases List.mem_cons.1 h with rfl | h
    · have hk := Lexeme.punctuation?_of_kind hkind (by decide)
      have hc : c = ':' := by
        unfold Lexeme.punctuation? at hk
        split at hk
        case h_8 => rfl
        all_goals cases hk
      rw [String.toList_ofList, hc]
      exact List.mem_cons_self
    · exact ih h

/-- The first colon outside of groups is a colon. -/
theorem kind_of_outerColonFrom {depth i : Nat} {tokens : List Token}
    (h : outerColonFrom depth tokens = some i) : ∃ t, tokens[i]? = some t ∧ t.kind = .colon := by
  induction tokens generalizing depth i with
  | nil => cases h
  | cons t tokens ih =>
    rw [outerColonFrom] at h
    split at h
    · rename_i hcolon
      cases h
      exact ⟨t, rfl, hcolon.1⟩
    · obtain ⟨i, hi, rfl⟩ := Option.map_eq_some_iff.1 h
      exact ih hi

/-- White space at the ends of a text counts for nothing, and a colon is none. -/
theorem count_colon_trim (cs : List Char) : (trim cs).count ':' = cs.count ':' := by
  have hcount (ds : List Char) : (significant ds).count ':' = ds.count ':' :=
    List.count_filter (by decide)
  rw [← hcount, significant_trim, hcount]

/-- Dividing a statement behind one of its colons gives another property than dividing it there. -/
theorem PlainStatement.declaration_ne {st : PlainStatement} {i j : Nat} {t : Token} (hij : i < j)
    (ht : st.tokens[i]? = some t) (hcolon : ':' ∈ t.text.toList) :
    st.declaration i ≠ st.declaration j := by
  intro heq
  have hproperty : trim (charactersOf (st.tokens.take i)) =
      trim (charactersOf (st.tokens.take j)) := by
    injection heq with hproperty
    exact String.ofList_injective hproperty
  obtain ⟨hi, rfl⟩ := List.getElem?_eq_some_iff.1 ht
  obtain ⟨k, rfl⟩ := Nat.exists_eq_add_of_lt hij
  have hsplit : st.tokens.take (i + k + 1) =
      st.tokens.take i ++ st.tokens[i] :: (st.tokens.drop (i + 1)).take k := by
    rw [Nat.add_assoc, List.take_add, List.drop_eq_getElem_cons hi, List.take_succ_cons]
  have hcount := congrArg (List.count ':') hproperty
  have hpos := List.count_pos_iff.2 hcolon
  rw [count_colon_trim, count_colon_trim, hsplit, charactersOf_append, charactersOf_cons,
    List.count_append, List.count_append] at hcount
  omega

/-- Dividing a statement at the first colon outside of groups gives the same as dividing it at the
first colon only if they are one. -/
theorem PlainStatement.yield_outerColon {source : String} {st : PlainStatement}
    (hst : st ∈ plainStatements (tokenize source).tokens) :
    st.yield st.colon = st.yield st.outerColon ↔ st.outerColon = st.colon := by
  refine ⟨fun heq => ?_, fun heq => by rw [heq]⟩
  cases hcolon : st.colon with
  | none =>
    cases houter : st.outerColon with
    | none => rfl
    | some j =>
      rw [hcolon, houter] at heq
      cases heq
  | some i =>
    cases houter : st.outerColon with
    | none =>
      rw [hcolon, houter] at heq
      cases heq
    | some j =>
      obtain ⟨hi, hkind, hfirst⟩ := List.findIdx?_eq_some_iff_getElem.1 hcolon
      obtain ⟨t, ht, htkind⟩ := kind_of_outerColonFrom houter
      obtain ⟨hj, rfl⟩ := List.getElem?_eq_some_iff.1 ht
      rcases Nat.lt_trichotomy i j with hlt | rfl | hgt
      · -- The first colon would be part of the other property.
        have hmem := mem_of_mem_plainStatements hst _ (List.getElem_mem hi)
        have hne := PlainStatement.declaration_ne hlt (List.getElem?_eq_getElem hi)
          (colon_mem_of_kind hmem (beq_iff_eq.1 hkind))
        rw [hcolon, houter] at heq
        exact absurd (List.head_eq_of_cons_eq (Yield.mk.inj heq).1) hne
      · rfl
      · exact absurd (beq_iff_eq.2 htkind) (hfirst j hgt)

/-- Every statement without a block is divided at its first colon, or is the one error reported
where it starts if it has none. It is divided at the first colon outside of groups only if this is
the first of all. -/
theorem parse_plainStatement (input : InputId) (source : String) {st : PlainStatement}
    (hst : st ∈ plainStatements (tokenize source).tokens) :
    (parse input source).yieldAt input st.byte = st.yield st.colon ∧
      ((parse input source).yieldAt input st.byte = st.yield st.outerColon ↔
        st.outerColon = st.colon) := by
  have hyield := parse_yieldAt input source hst
  refine ⟨hyield, ?_⟩
  rw [hyield]
  exact PlainStatement.yield_outerColon hst

/-- The colon within the parentheses of a value does not divide it. -/
theorem parse_plainStatement_url :
    let source := "a b: url(c:d) !important; e"
    ∃ st ∈ plainStatements (tokenize source).tokens, st.outerColon = st.colon ∧
      (parse ⟨0⟩ source).yieldAt ⟨0⟩ st.byte =
        { contents := [.declaration "a b" "url(c:d)" true] } := by
  intro source
  obtain ⟨st, hhead⟩ : ∃ st, (plainStatements (tokenize source).tokens).head? = some st :=
    Option.isSome_iff_exists.1 (by decide +kernel)
  have hdivided : ∀ st ∈ (plainStatements (tokenize source).tokens).head?,
      st.outerColon = st.colon ∧
        st.yield st.colon = { contents := [.declaration "a b" "url(c:d)" true] } := by
    decide +kernel
  have hst := List.mem_of_mem_head? hhead
  obtain ⟨hcolon, hyield⟩ := hdivided st hhead
  exact ⟨st, hst, hcolon, (parse_plainStatement ⟨0⟩ source hst).1.trans hyield⟩

/-- A colon within parentheses divides the statement that it stands in, if it is the first. -/
theorem parse_colon_in_parentheses :
    let source := "a(b:c): d;"
    (plainStatements (tokenize source).tokens).map (fun st => (st.byte, st.yield st.outerColon)) =
        [(0, { contents := [.declaration "a(b:c)" "d" false] })] ∧
      (parse ⟨0⟩ source).yieldAt ⟨0⟩ 0 =
        { contents := [.declaration "a(b" "c): d" false] } := by
  decide +kernel

end ClassRules
