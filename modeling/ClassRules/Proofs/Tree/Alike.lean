import ClassRules.Proofs.Tree.Reading
import Mathlib.Data.List.Forall2

/-!
# Trees that are alike

Two trees of the same shape, whose contents go together and whose sources differ at most in the
input.

## What this module delivers

- `Source.relabel`, `Tree.relabel`: the same source or tree, read as another input.
- `Tree.Alike`, `Tree.AlikeIn`: trees alike up to a relation of contents and new inputs.
- `alike_eq_iff`: with the same contents, the second tree is the first one relabeled.
- `alike_right_unique`: where contents fix each other, trees that are alike do.
- `bare_relabel`, `relabel_id`: relabeling shows in sources only.
- `parse_relabel`: a text gives the same trees, whatever input it is read as.
-/

set_option autoImplicit false

namespace ClassRules

/-- The same span of another input. -/
def Source.relabel (f : InputId → InputId) (source : Source) : Source :=
  ⟨f source.input, source.span⟩

namespace Tree

mutual

/-- The same tree from other inputs. -/
def relabel (f : InputId → InputId) : Tree → Tree
  | node content source children =>
    node content (source.map (Source.relabel f)) (relabelForest f children)

/-- The same trees from other inputs. -/
def relabelForest (f : InputId → InputId) : List Tree → List Tree
  | [] => []
  | t :: ts => relabel f t :: relabelForest f ts

end

mutual

/-- Two trees of the same shape, with contents that go together and sources of other inputs. -/
def Alike (R : Content → Content → Prop) (f : InputId → InputId) : Tree → Tree → Prop
  | node content source children, node content' source' children' =>
    R content content' ∧ source' = source.map (Source.relabel f) ∧ AlikeIn R f children children'

/-- Two lists of trees, alike one by one. -/
def AlikeIn (R : Content → Content → Prop) (f : InputId → InputId) : List Tree → List Tree → Prop
  | [], [] => True
  | t :: ts, u :: us => Alike R f t u ∧ AlikeIn R f ts us
  | _, _ => False

end

variable {R : Content → Content → Prop} {f : InputId → InputId}

/-- Lists of trees are alike just if the trees are, one by one. -/
theorem alikeIn_iff_forall₂ {ts us : List Tree} :
    AlikeIn R f ts us ↔ List.Forall₂ (Alike R f) ts us := by
  induction ts generalizing us with
  | nil => cases us <;> simp [AlikeIn]
  | cons t ts ih => cases us <;> simp [AlikeIn, ih]

mutual

/-- Where contents are the same, the first tree fixes the second one. -/
theorem alike_eq_iff (f : InputId → InputId) : ∀ t u : Tree, Alike Eq f t u ↔ u = t.relabel f
  | .node content source children, .node content' source' children' => by
    rw [Alike, relabel, alikeIn_eq_iff f children children']
    simp only [Tree.node.injEq, eq_comm]

theorem alikeIn_eq_iff (f : InputId → InputId) : ∀ ts us : List Tree,
    AlikeIn Eq f ts us ↔ us = relabelForest f ts
  | [], [] => by simp [AlikeIn, relabelForest]
  | [], u :: us => by simp [AlikeIn, relabelForest]
  | t :: ts, [] => by simp [AlikeIn, relabelForest]
  | t :: ts, u :: us => by
    rw [AlikeIn, relabelForest, alike_eq_iff f t u, alikeIn_eq_iff f ts us, List.cons.injEq]

end

mutual

/-- Where contents fix those that go with them, the first tree fixes the second one. -/
theorem alike_right_unique (hR : Relator.RightUnique R) : ∀ t u u' : Tree, Alike R f t u →
    Alike R f t u' → u = u'
  | .node content source children, .node content₁ source₁ children₁,
      .node content₂ source₂ children₂, h₁, h₂ => by
    rw [Alike] at h₁ h₂
    rw [hR h₁.1 h₂.1, h₁.2.1, h₂.2.1, alikeIn_right_unique hR children _ _ h₁.2.2 h₂.2.2]

theorem alikeIn_right_unique (hR : Relator.RightUnique R) : ∀ ts us us' : List Tree,
    AlikeIn R f ts us → AlikeIn R f ts us' → us = us'
  | [], [], [], _, _ => rfl
  | t :: ts, u :: us, u' :: us', h₁, h₂ => by
    rw [AlikeIn] at h₁ h₂
    rw [alike_right_unique hR t u u' h₁.1 h₂.1, alikeIn_right_unique hR ts us us' h₁.2 h₂.2]

end

mutual

/-- The inputs are gone when the sources are. -/
theorem bare_relabel (f : InputId → InputId) : ∀ t : Tree, (t.relabel f).bare = t.bare
  | .node content source children => by
    rw [relabel, bare, bare, bareForest_relabelForest f children]

theorem bareForest_relabelForest (f : InputId → InputId) : ∀ ts : List Tree,
    bareForest (relabelForest f ts) = bareForest ts
  | [] => rfl
  | t :: ts => by
    rw [relabelForest, bareForest, bareForest, bare_relabel f t, bareForest_relabelForest f ts]

end

mutual

/-- From the same inputs it is the same tree. -/
theorem relabel_id : ∀ t : Tree, t.relabel id = t
  | .node content source children => by
    rw [relabel, relabelForest_id children]
    cases source <;> rfl

theorem relabelForest_id : ∀ ts : List Tree, relabelForest id ts = ts
  | [] => rfl
  | t :: ts => by rw [relabelForest, relabel_id t, relabelForest_id ts]

end

theorem relabelForest_append (f : InputId → InputId) (ts us : List Tree) :
    relabelForest f (ts ++ us) = relabelForest f ts ++ relabelForest f us := by
  induction ts with
  | nil => rfl
  | cons t ts ih => rw [List.cons_append, relabelForest, relabelForest, ih, List.cons_append]

end Tree

open ClassRules.Tree

/-! ## Reading a text as another input -/

namespace Parser

/-- What has been read, read as another input. -/
def State.relabel (f : InputId → InputId) (s : State) : State where
  frames := s.frames.map fun frame => { frame with before := relabelForest f frame.before }
  nodes := relabelForest f s.nodes
  errors := s.errors
  last := s.last

section Relabel

variable (f : InputId → InputId) (cx : Context) (s : State)

/-- The same text, read as another input. -/
def Context.relabel : Context :=
  ⟨cx.source, f cx.input⟩

theorem State.relabel_readTo (tokens : List Token) :
    (s.relabel f).readTo tokens = (s.readTo tokens).relabel f := by
  unfold State.readTo
  cases tokens.getLast? <;> rfl

/-- A node is added as one of the other input. -/
theorem State.relabel_add (input : InputId) (content : Content) (start : Position)
    (children : List Tree) : (s.relabel f).add (f input) content start (relabelForest f children) =
      (s.add input content start children).relabel f := by
  simp only [State.add, State.relabel, relabelForest_append]
  rfl

theorem State.relabel_addLeaf (input : InputId) (content : Content) (start : Position) :
    (s.relabel f).add (f input) content start = (s.add input content start).relabel f :=
  s.relabel_add f input content start []

/-- So is a block when it is closed. -/
theorem State.relabel_closeBlock (input : InputId) (brace : Token) :
    (s.relabel f).closeBlock (f input) brace = (s.closeBlock input brace).relabel f := by
  unfold State.closeBlock
  rw [State.relabel_readTo]
  generalize s.readTo [brace] = u
  obtain ⟨frames, nodes, errors, last⟩ := u
  cases frames with
  | nil => rfl
  | cons frame frames =>
    exact State.relabel_add f ⟨frames, frame.before, errors, last⟩ input frame.content frame.start
      nodes

/-- So are all blocks that are open at the end. -/
theorem State.relabel_closeAll (input : InputId) (frames : List Frame) (s : State) :
    (s.relabel f).closeAll (f input)
      (frames.map fun frame => { frame with before := relabelForest f frame.before }) =
        (s.closeAll input frames).relabel f := by
  induction frames generalizing s with
  | nil => rfl
  | cons frame frames ih =>
    rw [List.map_cons, State.closeAll, State.closeAll, ← ih]
    congr 1
    exact State.relabel_add f { (s.report .unclosedBlock frame.brace) with
      frames := frames, nodes := frame.before } input frame.content frame.start s.nodes

/-- The texts of tokens do not depend on the input. -/
theorem Context.textOf?_relabel (piece rest : List Token) :
    (cx.relabel f).textOf? piece rest = cx.textOf? piece rest := by
  cases piece <;> rfl

/-- An at-rule is read in the same way from another input. -/
theorem atRule?_relabel (keyword : Token) (rest : List Token) :
    atRule? (cx.relabel f) keyword rest (s.relabel f) =
      (atRule? cx keyword rest s).map fun r => (r.1.relabel f, r.2) := by
  unfold atRule?
  dsimp only
  rw [cx.textOf?_relabel f]
  cases cx.textOf? (rest.take (statementLength 0 rest)) (rest.drop (statementLength 0 rest)) with
  | none => rfl
  | some params =>
    cases Ending.ofTokens (rest.drop (statementLength 0 rest)) with
    | block brace => simp [State.openBlock, State.relabel, relabelForest]
    | mark semicolon => simp [Context.relabel, State.relabel_readTo, State.relabel_addLeaf]
    | none => simp [Context.relabel, State.relabel_readTo, State.relabel_addLeaf]

/-- So is a declaration. -/
theorem declaration?_relabel (piece rest : List Token) :
    declaration? (cx.relabel f) piece rest (s.relabel f) =
      (declaration? cx piece rest s).map (State.relabel f) := by
  have hreport : ∀ tokens cause span, ((s.relabel f).readTo tokens).report cause span =
      ((s.readTo tokens).report cause span).relabel f := fun tokens cause span => by
    rw [State.relabel_readTo]
    rfl
  have hadd : ∀ tokens content start, ((s.relabel f).readTo tokens).add (f cx.input) content start =
      ((s.readTo tokens).add cx.input content start).relabel f := fun tokens content start => by
    rw [State.relabel_readTo, State.relabel_addLeaf]
  -- What is read is the same on both sides, and only a report or a leaf names the input.
  unfold declaration?
  dsimp only
  cases piece.findIdx? (·.kind == .colon) with
  | none =>
    dsimp only
    rw [cx.textOf?_relabel f]
    cases cx.textOf? piece rest with
    | none => rfl
    | some text => cases Ending.ofTokens rest <;> exact congrArg some (hreport _ _ _)
  | some i =>
    dsimp only
    rw [cx.textOf?_relabel f, cx.textOf?_relabel f]
    cases cx.textOf? (piece.take i) (piece.drop i) with
    | none => rfl
    | some property =>
      cases cx.textOf? (piece.drop (i + 1)) rest with
      | none => rfl
      | some value =>
        cases hsplit : splitImportant? value with
        | none => simp [hsplit]
        | some r =>
          simp only [hsplit, Option.bind_eq_bind, Option.bind_some]
          cases Ending.ofTokens rest <;> exact congrArg some (hadd _ _ _)

theorem statement?_relabel (first : Token) (rest : List Token) :
    statement? (cx.relabel f) first rest (s.relabel f) =
      (statement? cx first rest s).map fun r => (r.1.relabel f, r.2) := by
  unfold statement?
  split
  · rfl
  · dsimp only
    split
    · rw [cx.textOf?_relabel f]
      cases cx.textOf? _ _ <;> rfl
    · rw [declaration?_relabel]
      cases declaration? cx _ _ s <;> rfl

theorem step_relabel (token : Token) (rest : List Token) :
    step (cx.relabel f) token rest (s.relabel f) =
      (step cx token rest s).map fun r => (r.1.relabel f, r.2) := by
  unfold step
  split
  · rw [State.relabel_readTo]
    rfl
  · rw [State.relabel_readTo]
    rfl
  · exact congrArg (fun u => some (u, 0)) (s.relabel_closeBlock f cx.input token)
  · rw [State.relabel_readTo]
    exact congrArg (fun u => some (u, 0)) ((s.readTo [token]).relabel_addLeaf f cx.input _ _)
  · exact atRule?_relabel f cx s token rest
  · exact statement?_relabel f cx s token rest

theorem run_relabel (tokens : List Token) :
    run (cx.relabel f) tokens (s.relabel f) = (run cx tokens s).map (State.relabel f) := by
  fun_induction run cx tokens s with
  | case1 s =>
    rw [run]
    exact congrArg some (s.relabel_closeAll f cx.input s.frames)
  | case2 s token rest hstop =>
    rw [run, if_pos hstop]
    exact congrArg some (s.relabel_closeAll f cx.input s.frames)
  | case3 s token rest hstop u n hstep ih =>
    rw [run, if_neg hstop, step_relabel, hstep]
    exact ih
  | case4 s token rest hstop hstep =>
    rw [run, if_neg hstop, step_relabel, hstep]
    rfl

end Relabel

end Parser

/-- A text gives the same trees and errors, whatever input it is read as. -/
theorem parse_relabel (f : InputId → InputId) (input : InputId) (source : String) :
    parse (f input) source =
      ⟨relabelForest f (parse input source).nodes, (parse input source).errors⟩ := by
  have hrun := Parser.run_relabel f ⟨source.toList, input⟩ {} (tokenize source).tokens
  have htokens : parseTokens? (f input) source (tokenize source).tokens =
      (parseTokens? input source (tokenize source).tokens).map
        fun parsed => ⟨relabelForest f parsed.nodes, parsed.errors⟩ := by
    unfold parseTokens?
    refine (congrArg (Option.map _) hrun).trans ?_
    rw [Option.map_map, Option.map_map]
    rfl
  unfold parse
  dsimp only
  rw [htokens]
  cases parseTokens? input source (tokenize source).tokens <;> rfl

end ClassRules
