import ClassRules.Proofs.Tree.Everywhere
import ClassRules.Proofs.Tree.Steps

/-!
# Where the nodes of a text start

A node starts where the first of its tokens starts, and every token starts behind the one before it.
So nodes start one behind the other, in document order.

## What this module delivers

- `Tree.marks`, `Tree.marksIn`: what nodes say, and the inputs and bytes at which they start, in
  document order.
- `Parser.State.trail`: the same for what the parser has read so far, open blocks included.
  `Parser.step_grows`: a step leaves it or adds a node at the start of its token.
- `exists_parse_closeAll`, `exists_parse`: what each step preserves holds where the parser has read
  the whole text.
- `parse_marks`: the nodes of a text come from its input and start at different bytes, the earlier
  node before the later one. None of them is a root.
-/

set_option autoImplicit false

namespace ClassRules

/-- The input of a source and the byte at which it starts. -/
def Source.origin (source : Source) : InputId × Nat :=
  (source.input, source.span.start.byte)

namespace Tree

mutual

/-- What the nodes of a tree say and where they start, in document order. -/
def marks : Tree → List (Content × Option (InputId × Nat))
  | node content source children => (content, source.map Source.origin) :: marksIn children

/-- What the nodes of a list of trees say and where they start, in document order. -/
def marksIn : List Tree → List (Content × Option (InputId × Nat))
  | [] => []
  | t :: ts => marks t ++ marksIn ts

end

/-- Trees in a row are marked one behind the other. -/
theorem marksIn_append (ts us : List Tree) : marksIn (ts ++ us) = marksIn ts ++ marksIn us := by
  induction ts with
  | nil => rfl
  | cons t ts ih => rw [List.cons_append, marksIn, marksIn, ih, List.append_assoc]

end Tree

open ClassRules.Tree

namespace Parser

/-- What the nodes before an open block and its own node say, and where they start. -/
def Frame.trail (input : InputId) (frame : Frame) : List (Content × Option (InputId × Nat)) :=
  marksIn frame.before ++ [(frame.content, some (input, frame.start.byte))]

namespace State

/-- What the nodes read so far say and where they start, in document order, those of open blocks
among them. -/
def trail (input : InputId) (s : State) : List (Content × Option (InputId × Nat)) :=
  s.frames.reverse.flatMap (Frame.trail input) ++ marksIn s.nodes

variable (s : State) (input : InputId)

@[simp] theorem trail_readTo (tokens : List Token) :
    (s.readTo tokens).trail input = s.trail input := by
  unfold State.readTo
  split
  · rfl
  · rfl

@[simp] theorem trail_report (cause : ParseError.Cause) (span : Span) :
    (s.report cause span).trail input = s.trail input := rfl

/-- A leaf comes behind all that was read. -/
@[simp] theorem trail_addLeaf (content : Content) (start : Position) :
    (s.add input content start).trail input =
      s.trail input ++ [(content, some (input, start.byte))] := by
  unfold State.add State.trail
  rw [marksIn_append, List.append_assoc]
  rfl

/-- So does the node of a block, before what it holds. -/
@[simp] theorem trail_openBlock (content : Content) (start : Position) (brace : Token) :
    (s.openBlock content start brace).trail input =
      s.trail input ++ [(content, some (input, start.byte))] := by
  unfold State.openBlock State.trail
  simp [Frame.trail, marksIn]

@[simp] theorem frames_readTo (tokens : List Token) : (s.readTo tokens).frames = s.frames := by
  unfold State.readTo
  split
  · rfl
  · rfl

@[simp] theorem nodes_readTo (tokens : List Token) : (s.readTo tokens).nodes = s.nodes := by
  unfold State.readTo
  split
  · rfl
  · rfl

theorem closeBlock_of_nil (brace : Token) (hs : s.frames = []) :
    s.closeBlock input brace =
      (s.readTo [brace]).report (.unexpectedToken brace.text "rule or declaration") brace.span := by
  unfold State.closeBlock
  simp only [frames_readTo, hs]

theorem closeBlock_of_cons (brace : Token) {frame : Frame} {frames : List Frame}
    (hs : s.frames = frame :: frames) :
    s.closeBlock input brace = (s.readTo [brace]).closeFrame input frame frames := by
  unfold State.closeBlock
  simp only [frames_readTo, hs]

/-- Closing a block only puts its node in place. -/
theorem trail_closeFrame {frame : Frame} {frames : List Frame} (hs : s.frames = frame :: frames) :
    (s.closeFrame input frame frames).trail input = s.trail input := by
  unfold State.closeFrame State.add State.trail
  rw [hs, marksIn_append]
  simp [Frame.trail, marksIn, marks, Source.origin]

theorem trail_closeBlock (brace : Token) :
    (s.closeBlock input brace).trail input = s.trail input := by
  cases hs : s.frames with
  | nil => rw [closeBlock_of_nil s input brace hs, trail_report, trail_readTo]
  | cons frame frames =>
    rw [closeBlock_of_cons s input brace hs, trail_closeFrame, trail_readTo]
    rw [frames_readTo, hs]

theorem trail_closeAll (frames : List Frame) {s : State} (hs : s.frames = frames) :
    (s.closeAll input frames).trail input = s.trail input := by
  induction frames generalizing s with
  | nil =>
    unfold State.closeAll State.trail
    rw [hs]
  | cons frame frames ih =>
    have hreport : (s.report .unclosedBlock frame.brace).frames = frame :: frames := hs
    rw [State.closeAll, ih rfl, trail_closeFrame _ _ hreport, trail_report]

theorem errors_closeFrame (frame : Frame) (frames : List Frame) :
    (s.closeFrame input frame frames).errors = s.errors := rfl

/-- In the end every open block is an error, the innermost first. -/
theorem errors_closeAll (frames : List Frame) (s : State) :
    (s.closeAll input frames).errors =
      s.errors ++ frames.map fun frame => ⟨.unclosedBlock, frame.brace⟩ := by
  induction frames generalizing s with
  | nil => exact (List.append_nil _).symm
  | cons frame frames ih =>
    rw [closeAll, ih, errors_closeFrame, List.map_cons, List.append_cons]
    rfl

/-- In the end no block is open. -/
theorem frames_closeAll (frames : List Frame) (s : State) :
    (s.closeAll input frames).frames = [] := by
  induction frames generalizing s with
  | nil => rfl
  | cons frame frames ih => exact ih _

/-- The trail is left, or one node is added to it. -/
def Grows (start : Nat) (s t : State) : Prop :=
  t.trail input = s.trail input ∨ ∃ content, content ≠ Content.root ∧
    t.trail input = s.trail input ++ [(content, some (input, start))]

variable {s input} {content : Content} {start : Position}

theorem grows_openBlock (hc : content ≠ .root) (brace : Token) :
    Grows input start.byte s (s.openBlock content start brace) :=
  .inr ⟨content, hc, trail_openBlock s input content start brace⟩

theorem grows_add (hc : content ≠ .root) (tokens : List Token) :
    Grows input start.byte s ((s.readTo tokens).add input content start) :=
  .inr ⟨content, hc, by rw [trail_addLeaf, trail_readTo]⟩

end State

variable {cx : Context} {s t : State} {n : Nat} {token : Token} {tokens rest : List Token}

/-! ## Steps -/

theorem step_grows (hstop : token.kind ≠ .stop) (heq : step cx token rest s = some (t, n)) :
    State.Grows cx.input token.span.start.byte s t := by
  cases step_cases hstop heq with
  | pass => exact .inl (State.trail_readTo _ _ _)
  | leaf _ hroot => exact State.grows_add hroot _
  | lacking => exact .inl (by rw [State.trail_report, State.trail_readTo])
  | opens hcontent => exact State.grows_openBlock (Content.ne_root_of_isBlock hcontent) _
  | closes => exact .inl (State.trail_closeBlock _ _ _)

/-- The nodes read start where some of the tokens start, in their order. -/
def State.StartsAmong (input : InputId) (tokens : List Token) (s : State) : Prop :=
  ∃ read : List (Content × Nat), (∀ x ∈ read, x.1 ≠ .root) ∧
    (read.map Prod.snd).Sublist (tokens.map (·.span.start.byte)) ∧
    s.trail input = read.map fun x => (x.1, some (input, x.2))

theorem State.StartsAmong.initial (input : InputId) : State.StartsAmong input [] {} :=
  ⟨[], fun _ hmem => absurd hmem List.not_mem_nil, List.nil_sublist _, rfl⟩

theorem State.StartsAmong.step (h : s.StartsAmong cx.input tokens) (hstop : token.kind ≠ .stop)
    (heq : Parser.step cx token rest s = some (t, n)) :
    t.StartsAmong cx.input (tokens ++ token :: rest.take n) := by
  obtain ⟨read, hread, hsub, htrail⟩ := h
  rcases step_grows hstop heq with hsame | ⟨content, hne, hmore⟩
  · refine ⟨read, hread, ?_, hsame.trans htrail⟩
    rw [List.map_append]
    exact hsub.trans (List.sublist_append_left _ _)
  · refine ⟨read ++ [(content, token.span.start.byte)], ?_, ?_, ?_⟩
    · intro x hx
      rcases List.mem_append.1 hx with hx | hx
      · exact hread x hx
      · rw [List.mem_singleton.1 hx]
        exact hne
    · rw [List.map_append, List.map_append]
      exact hsub.append ((List.nil_sublist _).cons_cons _)
    · rw [hmore, htrail, List.map_append]
      rfl

end Parser

/-! ## Whole texts -/

/-- What holds at the start of a text and is preserved by each step holds of some state before the
mark of the end. Closing the blocks that are open there gives the trees and the errors of the
text. -/
theorem exists_parse_closeAll (input : InputId) (source : String)
    {P : List Token → Parser.State → Prop} (hstart : P [] {})
    (hstep : ∀ {read rest : List Token} {token : Token} {s t : Parser.State} {n : Nat},
      (tokenize source).tokens = read ++ token :: rest → token.kind ≠ .stop →
        Parser.step ⟨source.toList, input⟩ token rest s = some (t, n) →
          P read s → P (read ++ token :: rest.take n) t) :
    ∃ (read : List Token) (stop : Token) (s : Parser.State),
      (tokenize source).tokens = read ++ [stop] ∧ stop.kind = .stop ∧ P read s ∧
        parse input source = ⟨(s.closeAll input s.frames).nodes,
          (tokenize source).errors ++ (s.closeAll input s.frames).errors⟩ := by
  have hclosed := isClosed_tokenize source
  have hwithin : Parser.ReadsWithin ⟨source.toList, input⟩ (tokenize source).tokens :=
    Parser.readsWithin hclosed (isPlaced_tokenize source)
  obtain ⟨i, s, hvisits, hi, hrun⟩ := hwithin.ends
  obtain ⟨read, stop, htokens, hstop, -⟩ := hclosed
  have hread := hvisits.invariant hstart hstep
  rw [htokens, List.length_append, List.length_singleton, Nat.add_right_cancel_iff] at hi
  rw [htokens, hi, List.take_left] at hread
  refine ⟨read, stop, s, htokens, hstop, hread, ?_⟩
  unfold parse parseTokens?
  simp only [hrun, Option.map_some]

/-- The same, with the nodes by what they say and where they start, and with an error for each block
that is open. -/
theorem exists_parse (input : InputId) (source : String)
    {P : List Token → Parser.State → Prop} (hstart : P [] {})
    (hstep : ∀ {read rest : List Token} {token : Token} {s t : Parser.State} {n : Nat},
      (tokenize source).tokens = read ++ token :: rest → token.kind ≠ .stop →
        Parser.step ⟨source.toList, input⟩ token rest s = some (t, n) →
          P read s → P (read ++ token :: rest.take n) t) :
    ∃ (read : List Token) (stop : Token) (s : Parser.State),
      (tokenize source).tokens = read ++ [stop] ∧ stop.kind = .stop ∧ P read s ∧
        marksIn (parse input source).nodes = s.trail input ∧
        (parse input source).errors = (tokenize source).errors ++
          (s.errors ++ s.frames.map fun frame => ⟨.unclosedBlock, frame.brace⟩) := by
  obtain ⟨read, stop, s, htokens, hstop, hread, hparse⟩ :=
    exists_parse_closeAll input source hstart hstep
  refine ⟨read, stop, s, htokens, hstop, hread, ?_, ?_⟩
  · rw [hparse, ← Parser.State.trail_closeAll input s.frames rfl, Parser.State.trail,
      Parser.State.frames_closeAll]
    rfl
  · rw [hparse, Parser.State.errors_closeAll]

/-- The nodes of a text come from its input, the earlier node starts before the later one, and none
of them is a root. -/
theorem parse_marks (input : InputId) (source : String) : ∃ read : List (Content × Nat),
    (∀ x ∈ read, x.1 ≠ .root) ∧ (read.map Prod.snd).Pairwise (· < ·) ∧
      marksIn (parse input source).nodes = read.map fun x => (x.1, some (input, x.2)) := by
  obtain ⟨tokens, stop, s, htokens, -, ⟨read, hread, hsub, htrail⟩, hmarks, -⟩ :=
    exists_parse input source (Parser.State.StartsAmong.initial input)
      fun _ hstop heq h => h.step hstop heq
  have hstarts := (starts_tokensFrom source.toList .start).2
  rw [show (tokensFrom ⟨source.toList, .start⟩).tokens = tokens ++ [stop] from htokens,
    List.map_append] at hstarts
  exact ⟨read, hread, (List.pairwise_append.1 hstarts).1.sublist hsub, hmarks.trans htrail⟩

end ClassRules
