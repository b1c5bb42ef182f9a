import ClassRules.Tree.Parser

/-!
# What holds at every node of a tree

## What this module delivers

- `Tree.Everywhere`, `Tree.EverywhereIn`: a property of contents and children at all nodes.
- `Content.carries`: whether nodes with a content may have children.
- `Parser.Kept`: a property of states that the moves of the parser keep, with `Parser.Kept.run` for
  a whole run and `parse_induction` for the trees of a text.
- `parse_carried`: in the trees of a text, only such nodes have children.
-/

set_option autoImplicit false

namespace ClassRules

/-- Whether a node with this content may have children. -/
def Content.carries : Content → Bool
  | .root | .rule _ => true
  | .atRule _ _ body => body
  | .declaration .. | .comment _ => false

namespace Tree

mutual

/-- A property of contents and children holds at every node of a tree. -/
def Everywhere (P : Content → List Tree → Prop) : Tree → Prop
  | node content _ children => P content children ∧ EverywhereIn P children

/-- A property of contents and children holds at every node of a list of trees. -/
def EverywhereIn (P : Content → List Tree → Prop) : List Tree → Prop
  | [] => True
  | t :: ts => Everywhere P t ∧ EverywhereIn P ts

end

variable {P : Content → List Tree → Prop}

theorem everywhereIn_append {ts us : List Tree} :
    EverywhereIn P (ts ++ us) ↔ EverywhereIn P ts ∧ EverywhereIn P us := by
  induction ts with
  | nil => simp [EverywhereIn]
  | cons t ts ih => rw [List.cons_append, EverywhereIn, EverywhereIn, ih, and_assoc]

/-- A node with children has a content that carries some. -/
def Carries (content : Content) (children : List Tree) : Prop :=
  children ≠ [] → content.carries = true

end Tree

open ClassRules.Tree

namespace Parser

namespace State

/-- What has been read is carried by what may carry it, and so is what the open blocks hold. -/
structure IsCarried (s : State) : Prop where
  nodes : EverywhereIn Carries s.nodes
  frames : ∀ f ∈ s.frames, f.content.carries = true ∧ EverywhereIn Carries f.before

variable {s : State}

theorem IsCarried.readTo (h : s.IsCarried) (tokens : List Token) : (s.readTo tokens).IsCarried := by
  unfold State.readTo
  split
  · exact ⟨h.nodes, h.frames⟩
  · exact h

/-- A node may be added if it carries what it holds. -/
theorem IsCarried.add (h : s.IsCarried) (input : InputId) {content : Content} (start : Position)
    {children : List Tree} (hc : Carries content children) (hch : EverywhereIn Carries children) :
    (s.add input content start children).IsCarried := by
  refine ⟨everywhereIn_append.2 ⟨h.nodes, ?_⟩, h.frames⟩
  exact ⟨⟨hc, hch⟩, trivial⟩

theorem IsCarried.addLeaf (h : s.IsCarried) (input : InputId) (content : Content)
    (start : Position) : (s.add input content start).IsCarried :=
  h.add input start (fun hne => absurd rfl hne) trivial

theorem IsCarried.report (h : s.IsCarried) (cause : ParseError.Cause) (span : Span) :
    (s.report cause span).IsCarried :=
  ⟨h.nodes, h.frames⟩

/-- A block may be opened for what carries nodes. -/
theorem IsCarried.openBlock (h : s.IsCarried) {content : Content} (hc : content.carries = true)
    (start : Position) (brace : Token) : (s.openBlock content start brace).IsCarried := by
  refine ⟨trivial, ?_⟩
  intro f hf
  rcases List.mem_cons.1 hf with rfl | hf
  · exact ⟨hc, h.nodes⟩
  · exact h.frames f hf

/-- It is closed with the nodes that it was opened for. -/
theorem IsCarried.closeFrame (h : s.IsCarried) (input : InputId) {frame : Frame}
    {frames : List Frame} (hs : s.frames = frame :: frames) :
    (s.closeFrame input frame frames).IsCarried := by
  have hframes := h.frames
  rw [hs, List.forall_mem_cons] at hframes
  obtain ⟨⟨hc, hbefore⟩, hrest⟩ := hframes
  exact IsCarried.add ⟨hbefore, hrest⟩ input frame.start (fun _ => hc) h.nodes

end State

/-! ## What the moves of the parser keep -/

/-- The moves that reading is made of keep a property of states. Nodes and blocks start at places
with the property `Q`, and only what may carry something gets a block. -/
structure Kept (input : InputId) (Q : Position → Prop) (I : State → Prop) : Prop where
  readTo : ∀ s tokens, I s → I (s.readTo tokens)
  report : ∀ s cause span, I s → I (s.report cause span)
  addLeaf : ∀ s content start, Q start → I s → I (s.add input content start)
  openBlock : ∀ s content start brace, content.carries = true → Q start → I s →
    I (s.openBlock content start brace)
  closeFrame : ∀ s frame frames, s.frames = frame :: frames → I s →
    I (s.closeFrame input frame frames)

section Kept

variable {cx : Context} {Q : Position → Prop} {I : State → Prop} {s t : State} {n : Nat}
  {token : Token} {piece rest : List Token} (k : Kept cx.input Q I) (h : I s)

include k h

theorem Kept.closeBlock (brace : Token) : I (s.closeBlock cx.input brace) := by
  have h' := k.readTo s [brace] h
  unfold State.closeBlock
  dsimp only
  split
  · rename_i frame frames hf
    exact k.closeFrame _ frame frames hf h'
  · exact k.report _ _ _ h'

omit h in
theorem Kept.closeAll (frames : List Frame) {s : State} (h : I s) (hs : s.frames = frames) :
    I (s.closeAll cx.input frames) := by
  induction frames generalizing s with
  | nil =>
    have heq : s.closeAll cx.input [] = s := by rw [State.closeAll, ← hs]
    rwa [heq]
  | cons frame frames ih =>
    exact ih (k.closeFrame _ frame frames hs (k.report s _ _ h)) rfl

theorem Kept.atRule? (hq : Q token.span.start) (heq : atRule? cx token rest s = some (t, n)) :
    I t := by
  obtain ⟨params, -, heq⟩ := Option.bind_eq_some_iff.1 heq
  split at heq
  · cases heq
    exact k.openBlock _ _ _ _ rfl hq h
  · cases heq
    exact k.addLeaf _ _ _ hq (k.readTo _ _ h)
  · cases heq
    exact k.addLeaf _ _ _ hq (k.readTo _ _ h)

theorem Kept.declaration? (hq : Q (cx.startOf piece))
    (heq : declaration? cx piece rest s = some t) : I t := by
  unfold Parser.declaration? at heq
  dsimp only at heq
  split at heq
  · obtain ⟨text, -, heq⟩ := Option.bind_eq_some_iff.1 heq
    cases heq
    refine k.report _ _ _ ?_
    split
    · exact k.readTo _ _ h
    · exact k.readTo _ _ h
  · obtain ⟨property, -, heq⟩ := Option.bind_eq_some_iff.1 heq
    obtain ⟨value, -, heq⟩ := Option.bind_eq_some_iff.1 heq
    obtain ⟨⟨value, important⟩, -, heq⟩ := Option.bind_eq_some_iff.1 heq
    cases heq
    refine k.addLeaf _ _ _ hq ?_
    split
    · exact k.readTo _ _ h
    · exact k.readTo _ _ h

theorem Kept.statement? (hq : Q token.span.start)
    (heq : statement? cx token rest s = some (t, n)) : I t := by
  unfold Parser.statement? at heq
  split at heq
  · cases heq
    exact k.openBlock _ _ _ _ rfl hq h
  · dsimp only at heq
    split at heq
    · obtain ⟨selector, -, heq⟩ := Option.bind_eq_some_iff.1 heq
      cases heq
      exact k.openBlock _ _ _ _ rfl hq h
    · obtain ⟨u, hu, heq⟩ := Option.bind_eq_some_iff.1 heq
      cases heq
      refine k.declaration? h ?_ hu
      exact hq

theorem Kept.step (hq : Q token.span.start) (heq : step cx token rest s = some (t, n)) : I t := by
  unfold Parser.step at heq
  split at heq
  · cases heq
    exact k.readTo _ _ h
  · cases heq
    exact k.readTo _ _ h
  · cases heq
    exact k.closeBlock h _
  · cases heq
    exact k.addLeaf _ _ _ hq (k.readTo _ _ h)
  · exact k.atRule? h hq heq
  · exact k.statement? h hq heq

/-- A run keeps what its moves keep. -/
theorem Kept.run (tokens : List Token) (hq : ∀ token ∈ tokens, Q token.span.start)
    (heq : run cx tokens s = some t) : I t := by
  fun_induction Parser.run cx tokens s with
  | case1 s =>
    cases heq
    exact k.closeAll _ h rfl
  | case2 s token rest hstop =>
    cases heq
    exact k.closeAll _ h rfl
  | case3 s token rest hstop u n hstep ih =>
    -- A step reads no tokens but some of those behind its own.
    have hrest : ∀ token ∈ rest.drop n, Q token.span.start := fun token hmem =>
      hq token (List.mem_cons_of_mem _ (List.mem_of_mem_drop hmem))
    exact ih (k.step h (hq token List.mem_cons_self) hstep) hrest heq
  | case4 s token rest hstop hstep => cases heq

end Kept

/-- What is carried stays so, wherever nodes start. -/
theorem kept_isCarried (input : InputId) (Q : Position → Prop) : Kept input Q State.IsCarried where
  readTo _ tokens h := h.readTo tokens
  report _ cause span h := h.report cause span
  addLeaf _ content start _ h := h.addLeaf input content start
  openBlock _ _ start brace hc _ h := h.openBlock hc start brace
  closeFrame _ _ _ hs h := h.closeFrame input hs

end Parser

/-- The trees of a text have what holds before the first token, is kept by the moves of the parser,
and can be told from the trees once no block is open. -/
theorem parse_induction {input : InputId} {source : String} {I : Parser.State → Prop}
    {F : List Tree → Prop}
    (k : Parser.Kept input (fun start => ∃ token ∈ (tokenize source).tokens,
      token.span.start = start) I)
    (hstart : I {}) (hend : ∀ s, I s → F s.nodes) : F (parse input source).nodes := by
  unfold parse
  simp only
  split
  · rename_i parsed heq
    obtain ⟨s, hs, rfl⟩ := Option.map_eq_some_iff.1 heq
    have k' : Parser.Kept (⟨source.toList, input⟩ : Parser.Context).input _ I := k
    exact hend s (k'.run hstart _ (fun token hmem => ⟨token, hmem, rfl⟩) hs)
  · exact hend {} hstart

/-- In the trees of a text, only nodes that may have children have some. -/
theorem parse_carried (input : InputId) (source : String) :
    EverywhereIn Carries (parse input source).nodes :=
  parse_induction (Parser.kept_isCarried input _)
    ⟨trivial, fun _ hf => absurd hf List.not_mem_nil⟩ fun _ h => h.nodes

end ClassRules
