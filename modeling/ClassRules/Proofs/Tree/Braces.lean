import ClassRules.Proofs.Tree.Order

/-!
# Braces

The parser matches the braces of a text, wherever they stand: an opening one may follow a selector
or params, stand by itself or cut a statement off within parentheses.

## What this module delivers

- `Braces`, `matchBraces`: the usual matching of braces with a stack.
- `Parser.Matches`: the state of the parser fits the braces read so far. `Matches.step`: each step
  keeps this.
- `parse_braces`: the errors about braces are those of the matching, and the tree has as many blocks
  as the text has opening braces.
-/

set_option autoImplicit false

namespace ClassRules

open ClassRules.Tree

/-! ## Matching -/

/-- What the braces read so far leave over. -/
structure Braces where
  /-- The opening braces that none has closed, the last one first. -/
  opened : List Token := []
  /-- The closing braces that closed none, in order. -/
  stray : List Token := []
  deriving DecidableEq, Repr

/-- A token more has been read. A closing brace closes the last of the open ones. -/
def Braces.after (braces : Braces) (token : Token) : Braces :=
  match token.kind with
  | .openBrace => { braces with opened := token :: braces.opened }
  | .closeBrace =>
    match braces.opened with
    | [] => { braces with stray := braces.stray ++ [token] }
    | _ :: opened => { braces with opened := opened }
  | _ => braces

/-- The braces that have no partner among the tokens. -/
def matchBraces (tokens : List Token) : Braces :=
  tokens.foldl Braces.after {}

/-- The number of opening braces among the tokens. -/
def countOpenBraces (tokens : List Token) : Nat :=
  tokens.countP (·.kind == .openBrace)

/-- Whether the error is about a block that is never closed. -/
def ParseError.isUnclosedBlock (e : ParseError) : Bool :=
  e.cause == .unclosedBlock

/-- Whether the error is about a token that is out of place. -/
def ParseError.isUnexpectedToken (e : ParseError) : Bool :=
  match e.cause with
  | .unexpectedToken .. => true
  | _ => false

variable {tokens piece : List Token} {token : Token}

theorem matchBraces_append (tokens piece : List Token) :
    matchBraces (tokens ++ piece) = piece.foldl Braces.after (matchBraces tokens) :=
  List.foldl_append

theorem matchBraces_concat (tokens : List Token) (token : Token) :
    matchBraces (tokens ++ [token]) = (matchBraces tokens).after token :=
  matchBraces_append tokens [token]

theorem Braces.after_of_not_brace (braces : Braces) (h : token.kind.isBrace = false) :
    braces.after token = braces := by
  unfold after
  split
  · rename_i hk
    rw [hk] at h
    cases h
  · rename_i hk
    rw [hk] at h
    cases h
  · rfl

/-- Other tokens leave the matching as it is. -/
theorem matchBraces_append_of_not_brace (h : ∀ u ∈ piece, u.kind.isBrace = false) :
    matchBraces (tokens ++ piece) = matchBraces tokens := by
  rw [matchBraces_append]
  induction piece with
  | nil => rfl
  | cons u piece ih =>
    rw [List.foldl_cons, Braces.after_of_not_brace _ (h u List.mem_cons_self)]
    exact ih fun v hv => h v (List.mem_cons_of_mem u hv)

theorem countOpenBraces_append_of_not_brace (h : ∀ u ∈ piece, u.kind.isBrace = false) :
    countOpenBraces (tokens ++ piece) = countOpenBraces tokens := by
  have hnone : piece.countP (·.kind == .openBrace) = 0 := by
    refine List.countP_eq_zero.2 fun u hu hopen => ?_
    have hbrace := h u hu
    rw [beq_iff_eq.1 hopen] at hbrace
    cases hbrace
  rw [countOpenBraces, List.countP_append, hnone, Nat.add_zero, countOpenBraces]

/-! ## States -/

/-- The error that a brace is never closed. -/
def Token.unclosed (brace : Token) : ParseError :=
  ⟨.unclosedBlock, brace.span⟩

/-- The error that a brace closes nothing. -/
def Token.unexpected (brace : Token) : ParseError :=
  ⟨.unexpectedToken brace.text "rule or declaration", brace.span⟩

namespace Parser

variable {input : InputId} {read rest : List Token} {brace : Token} {s t : State}
  {content : Content} {start : Position} {n : Nat}

/-- The state fits the braces among the tokens read. -/
structure Matches (input : InputId) (read : List Token) (s : State) : Prop where
  /-- The open blocks are those of the braces that none has closed. -/
  opened : s.frames.map Frame.brace = (matchBraces read).opened.map Token.span
  /-- No block counts as unclosed before the end. -/
  unclosed : s.errors.filter ParseError.isUnclosedBlock = []
  unexpected : s.errors.filter ParseError.isUnexpectedToken =
    (matchBraces read).stray.map Token.unexpected
  blocks : (s.trail input).countP (·.1.isBlock) = countOpenBraces read

namespace Matches

theorem initial : Matches input [] {} := ⟨rfl, rfl, rfl, rfl⟩

theorem readTo (h : Matches input read s) (tokens : List Token) :
    Matches input read (s.readTo tokens) where
  opened := by rw [State.frames_readTo, h.opened]
  unclosed := by rw [State.errors_readTo, h.unclosed]
  unexpected := by rw [State.errors_readTo, h.unexpected]
  blocks := by rw [State.trail_readTo, h.blocks]

/-- Tokens that are no braces make no difference. -/
theorem append (h : Matches input read s) (hpiece : ∀ u ∈ piece, u.kind.isBrace = false) :
    Matches input (read ++ piece) s where
  opened := by rw [matchBraces_append_of_not_brace hpiece, h.opened]
  unclosed := h.unclosed
  unexpected := by rw [matchBraces_append_of_not_brace hpiece, h.unexpected]
  blocks := by rw [countOpenBraces_append_of_not_brace hpiece, h.blocks]

theorem addLeaf (h : Matches input read s) (hcontent : content.isBlock = false) :
    Matches input read (s.add input content start) where
  opened := h.opened
  unclosed := h.unclosed
  unexpected := h.unexpected
  blocks := by simp [hcontent, h.blocks]

theorem missingColon (h : Matches input read s) (text : String) (span : Span) :
    Matches input read (s.report (.missingColon text) span) where
  opened := h.opened
  unclosed := by
    rw [State.report, List.filter_append, h.unclosed]
    rfl
  unexpected := by
    rw [State.report, List.filter_append, h.unexpected]
    exact List.append_nil _
  blocks := h.blocks

theorem openBlock (h : Matches input read s) (hcontent : content.isBlock = true)
    (hbrace : brace.kind = .openBrace) :
    Matches input (read ++ [brace]) (s.openBlock content start brace) := by
  have hafter : matchBraces (read ++ [brace]) =
      { matchBraces read with opened := brace :: (matchBraces read).opened } := by
    rw [matchBraces_concat, Braces.after, hbrace]
  refine ⟨?_, h.unclosed, ?_, ?_⟩
  · rw [hafter, State.openBlock, List.map_cons, h.opened]
    rfl
  · rw [hafter]
    exact h.unexpected
  · simp [countOpenBraces, hcontent, hbrace, h.blocks]

theorem closeBlock (h : Matches input read s) (hbrace : brace.kind = .closeBrace) :
    Matches input (read ++ [brace]) (s.closeBlock input brace) := by
  have hafter := matchBraces_concat read brace
  have hopened := h.opened
  have hblocks : ((s.closeBlock input brace).trail input).countP (·.1.isBlock) =
      countOpenBraces (read ++ [brace]) := by
    rw [State.trail_closeBlock, h.blocks]
    simp [countOpenBraces, hbrace]
  rw [Braces.after, hbrace] at hafter
  cases hframes : s.frames with
  | nil =>
    -- No block is open, so no brace is left to be closed.
    rw [hframes, List.map_nil, eq_comm, List.map_eq_nil_iff] at hopened
    simp only [hopened] at hafter
    have hclose := s.closeBlock_of_nil input brace hframes
    refine ⟨?_, ?_, ?_, hblocks⟩
    · rw [hclose, hafter, State.report, State.frames_readTo, hframes]
      rfl
    · rw [hclose, State.report, List.filter_append, State.errors_readTo, h.unclosed]
      rfl
    · rw [hclose, State.report, List.filter_append, State.errors_readTo, h.unexpected, hafter,
        List.map_append]
      rfl
  | cons frame frames =>
    -- The innermost block is that of the brace that was left open last.
    rw [hframes, List.map_cons, eq_comm, List.map_eq_cons_iff] at hopened
    obtain ⟨opening, opened, hbraces, -, hrest⟩ := hopened
    simp only [hbraces] at hafter
    have hclose := s.closeBlock_of_cons input brace hframes
    refine ⟨?_, ?_, ?_, hblocks⟩
    · rw [hclose, hafter]
      exact hrest.symm
    · rw [hclose, State.errors_closeFrame, State.errors_readTo, h.unclosed]
    · rw [hclose, State.errors_closeFrame, State.errors_readTo, h.unexpected, hafter]

/-- A step reads the braces as they are matched. -/
theorem step {cx : Context} (h : Matches cx.input read s) (hstop : token.kind ≠ .stop)
    (heq : Parser.step cx token rest s = some (t, n)) :
    Matches cx.input (read ++ token :: rest.take n) t := by
  rw [length_of_step hstop heq]
  cases step_cases hstop heq with
  | pass hkind =>
    rw [take_readBehind_of_single (by rcases hkind with hk | hk <;> rw [hk] <;> decide)]
    refine (h.readTo _).append (List.forall_mem_singleton.2 ?_)
    rcases hkind with hk | hk <;> rw [hk] <;> rfl
  | leaf hcontent _ hread => exact ((h.readTo _).addLeaf hcontent).append hread
  | lacking hread => exact ((h.readTo _).missingColon _ _).append hread
  | opens hcontent hread hpiece hbrace =>
    -- The brace is the last token read, and what stands before it holds none.
    rw [hread, ← List.append_assoc]
    exact (h.append hpiece).openBlock hcontent hbrace
  | closes hkind =>
    rw [take_readBehind_of_single (by rw [hkind]; decide)]
    exact h.closeBlock hkind

end Matches

end Parser

/-- The errors about braces are those of matching the braces of the text: one for each brace that is
never closed, the last of them first, and one for each that closes nothing, in order. And each
opening brace opens a block, however the text goes on. -/
theorem parse_braces (input : InputId) (source : String) :
    let tokens := (tokenize source).tokens
    let parsed := parse input source
    parsed.errors.filter ParseError.isUnclosedBlock =
        (matchBraces tokens).opened.map Token.unclosed ∧
      parsed.errors.filter ParseError.isUnexpectedToken =
        (matchBraces tokens).stray.map Token.unexpected ∧
      (marksIn parsed.nodes).countP (·.1.isBlock) = countOpenBraces tokens := by
  intro tokens parsed
  obtain ⟨read, stop, s, htokens, hstop, hread, htrail, herrors⟩ :=
    exists_parse input source (P := Parser.Matches input) Parser.Matches.initial
      fun _ hstop heq h => h.step hstop heq
  -- The mark of the end is no brace.
  have hmatches : Parser.Matches input tokens s := by
    rw [show tokens = read ++ [stop] from htokens]
    exact hread.append (List.forall_mem_singleton.2 (by rw [hstop]; rfl))
  -- The lexer reports strings and comments, and the end of the text blocks alone.
  have hlexed (e : ParseError) (he : e ∈ (tokenize source).errors) :
      e.isUnclosedBlock = false ∧ e.isUnexpectedToken = false := by
    rcases cause_of_mem_errors he with hcause | hcause <;>
      simp [ParseError.isUnclosedBlock, ParseError.isUnexpectedToken, hcause]
  have hopen : s.frames.map (fun frame => ⟨.unclosedBlock, frame.brace⟩) =
      (matchBraces tokens).opened.map Token.unclosed := by
    have hopened := congrArg (List.map (ParseError.mk .unclosedBlock)) hmatches.opened
    rwa [List.map_map, List.map_map] at hopened
  have hopening (e : ParseError) (he : e ∈ (matchBraces tokens).opened.map Token.unclosed) :
      e.isUnclosedBlock = true ∧ e.isUnexpectedToken = false := by
    obtain ⟨brace, -, rfl⟩ := List.mem_map.1 he
    exact ⟨rfl, rfl⟩
  rw [show parsed.errors = _ from herrors, show marksIn parsed.nodes = _ from htrail, hopen]
  refine ⟨?_, ?_, hmatches.blocks⟩
  · rw [List.filter_append, List.filter_append, hmatches.unclosed, List.nil_append,
      List.filter_eq_nil_iff.2 fun e he => Bool.eq_false_iff.1 (hlexed e he).1,
      List.filter_eq_self.2 fun e he => (hopening e he).1, List.nil_append]
  · rw [List.filter_append, List.filter_append, hmatches.unexpected,
      List.filter_eq_nil_iff.2 fun e he => Bool.eq_false_iff.1 (hlexed e he).2,
      List.filter_eq_nil_iff.2 fun e he => Bool.eq_false_iff.1 (hopening e he).2, List.nil_append,
      List.append_nil]

end ClassRules
