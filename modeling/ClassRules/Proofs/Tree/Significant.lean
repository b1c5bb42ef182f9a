import ClassRules.Proofs.Text.Significant
import ClassRules.Tree.Parser
import ClassRules.Tree.Printer

/-!
# Significant characters of trees

The significant characters of trees in the order of the text: of their contents, of the marks
between these, and of the braces around blocks.

## What this module delivers

- `Tree.characters`, `charactersIn`: the significant characters of trees, with the marks of
  important declarations written in a given way. `significant_renderForest`: those of their text.
- `Parser.State.characters`: those of all that the parser has read.
- `Parser.State.Keeps`: from one state to another some characters were read, and they are in the
  trees unless an error was noted. One lemma for each change that the parser makes to its state.
-/

set_option autoImplicit false

namespace ClassRules

open Text

namespace Tree

mutual

/-- The significant characters of a tree. The mark of an important declaration is written as `mark`
says for its source. -/
def characters (mark : Option Source → List Char) : Tree → List Char
  | node .root _ children => charactersIn mark children
  | node (.rule selector) _ children =>
    significant selector.toList ++ '{' :: charactersIn mark children ++ ['}']
  | node (.atRule name params body) _ children =>
    '@' :: significant name.toList ++ significant params.toList ++
      if body || !children.isEmpty then '{' :: charactersIn mark children ++ ['}'] else []
  | node (.declaration property value important) source _ =>
    significant property.toList ++ ':' :: significant value.toList ++
      if important then mark source else []
  | node (.comment text) _ _ => '/' :: '*' :: significant text.toList ++ ['*', '/']

/-- The significant characters of trees. -/
def charactersIn (mark : Option Source → List Char) : List Tree → List Char
  | [] => []
  | t :: ts => characters mark t ++ charactersIn mark ts

end

variable {mark : Option Source → List Char}

theorem charactersIn_append (ts us : List Tree) :
    charactersIn mark (ts ++ us) = charactersIn mark ts ++ charactersIn mark us := by
  induction ts with
  | nil => rfl
  | cons t ts ih => rw [List.cons_append, charactersIn, charactersIn, ih, List.append_assoc]

end Tree

open ClassRules.Tree

/-! ## Printing -/

theorem significant_indent (depth : Nat) : significant (indent depth).toList = [] := by
  refine significant_of_blank fun a ha => ?_
  rw [indent, String.toList_ofList] at ha
  rw [List.eq_of_mem_replicate ha]
  decide

theorem significant_atRuleHead (name params : String) :
    significant (atRuleHead name params).toList =
      '@' :: significant name.toList ++ significant params.toList := by
  have hat : significant "@".toList = ['@'] := by decide
  have hspace : significant " ".toList = [] := by decide
  rw [atRuleHead, String.toList_append, String.toList_append, significant_append,
    significant_append, hat]
  split
  · rename_i hempty
    rw [hempty]
    rfl
  · rw [String.toList_append, significant_append, hspace]
    rfl

theorem significant_block (depth : Nat) {isEmpty : Bool} {text : String} {inner : List Char}
    (h : significant text.toList = inner) (hempty : isEmpty = true → inner = []) :
    significant (block depth isEmpty text).toList = '{' :: inner ++ ['}'] := by
  have hopen : significant " \x7b\n".toList = ['{'] := by decide
  have hline : significant "\n".toList = [] := by decide
  have hclose : significant "\x7d".toList = ['}'] := by decide
  rw [block]
  split
  · rename_i hyes
    rw [hempty hyes]
    decide
  · simp only [String.toList_append, significant_append, hopen, hline, hclose, h,
      significant_indent, List.append_nil]
    rfl

mutual

/-- The text of a tree has its significant characters, the marks in small letters. -/
theorem significant_render (depth : Nat) : ∀ t : Tree,
    significant (render depth t).toList = t.characters fun _ => Parser.importantMark
  | .node content source children => by
    have hinner := significant_renderForest (depth + 1) children
    have hempty : children.isEmpty = true →
        charactersIn (fun _ => Parser.importantMark) children = [] := fun h => by
      rw [List.isEmpty_iff.1 h]
      rfl
    have hblock := significant_block depth hinner hempty
    cases content with
    | root =>
      rw [render, Tree.characters]
      exact significant_renderForest depth children
    | rule selector =>
      simp only [render, Tree.characters, String.toList_append, significant_append,
        significant_indent, hblock, List.nil_append]
      simp
    | atRule name params body =>
      rw [render, Tree.characters]
      -- Semicolons and the blanks around marks are not significant, so the tree need not have them.
      have hmark : significant ";".toList = [] := by decide
      simp only [String.toList_append, significant_append, significant_indent,
        significant_atRuleHead, List.nil_append]
      split
      · rw [hblock]
      · rw [hmark]
    | declaration property value important =>
      have hcolon : significant ": ".toList = [':'] := by decide
      have hmark : significant " !important".toList = Parser.importantMark := by decide
      have hend : significant ";".toList = [] := by decide
      simp only [render, Tree.characters, String.toList_append, significant_append,
        significant_indent, hcolon, hend, List.nil_append]
      cases important with
      | true =>
        rw [if_pos rfl, if_pos rfl, hmark]
        simp
      | false => simp
    | comment text =>
      have hopen : significant "/* ".toList = ['/', '*'] := by decide
      have hclose : significant " */".toList = ['*', '/'] := by decide
      simp only [render, Tree.characters, String.toList_append, significant_append,
        significant_indent, hopen, hclose, List.nil_append]
      rfl

theorem significant_renderForest (depth : Nat) : ∀ ts : List Tree,
    significant (renderForest depth ts).toList = charactersIn (fun _ => Parser.importantMark) ts
  | [] => rfl
  | t :: ts => by
    have hline : significant "\n".toList = [] := by decide
    rw [renderForest, charactersIn, String.toList_append, significant_append,
      significant_render depth t]
    split
    · rename_i hempty
      rw [List.isEmpty_iff.1 hempty]
      rfl
    · rw [String.toList_append, significant_append, hline, significant_renderForest depth ts]
      rfl

end

/-! ## Reading -/

/-- Whether a node with this content is one that a block belongs to. -/
def Content.opensBlock : Content → Bool
  | .rule _ => true
  | .atRule _ _ body => body
  | _ => false

/-- The significant characters of a node before its block. -/
def Content.opening : Content → List Char
  | .rule selector => significant selector.toList
  | .atRule name params _ => '@' :: significant name.toList ++ significant params.toList
  | _ => []

theorem Tree.characters_of_opensBlock {mark : Option Source → List Char} {content : Content}
    (h : content.opensBlock = true) (source : Option Source) (children : List Tree) :
    (Tree.node content source children).characters mark =
      content.opening ++ '{' :: charactersIn mark children ++ ['}'] := by
  cases content with
  | rule selector => rfl
  | atRule name params body =>
    have hbody : body = true := h
    rw [characters, hbody]
    simp [Content.opening]
  | root => cases h
  | declaration property value important => cases h
  | comment text => cases h

namespace Parser

section States

variable {mark : Option Source → List Char} {s t u : State} {cs ds : List Char}

/-- The significant characters of what stands before an open block and of its opening. -/
def Frame.characters (mark : Option Source → List Char) (f : Frame) : List Char :=
  charactersIn mark f.before ++ f.content.opening ++ ['{']

/-- The significant characters of what has been read. -/
def State.characters (mark : Option Source → List Char) (s : State) : List Char :=
  s.frames.reverse.flatMap (Frame.characters mark) ++ charactersIn mark s.nodes

/-- All open blocks belong to nodes that may have one. -/
def State.Blocks (s : State) : Prop :=
  ∀ f ∈ s.frames, f.content.opensBlock = true

/-- From `s` to `t` the characters `cs` were read: they are in the trees or an error was noted. -/
structure State.Keeps (mark : Option Source → List Char) (s t : State) (cs : List Char) :
    Prop where
  errors : s.errors <+: t.errors
  blocks : s.Blocks → t.Blocks
  characters : s.Blocks → t.errors = s.errors →
    t.characters mark = s.characters mark ++ significant cs

namespace State.Keeps

theorem trans (h : s.Keeps mark t cs) (h' : t.Keeps mark u ds) : s.Keeps mark u (cs ++ ds) := by
  refine ⟨h.errors.trans h'.errors, fun hs => h'.blocks (h.blocks hs), ?_⟩
  intro hs hsame
  -- Errors are only added, so none was in between.
  have hmid : t.errors = s.errors :=
    (h.errors.eq_of_length_le (hsame ▸ h'.errors.length_le)).symm
  rw [h'.characters (h.blocks hs) (hsame.trans hmid.symm), h.characters hs hmid,
    significant_append, List.append_assoc]

theorem refl (mark : Option Source → List Char) (s : State) (h : significant cs = []) :
    s.Keeps mark s cs :=
  ⟨List.prefix_rfl, id, fun _ _ => by rw [h, List.append_nil]⟩

theorem readTo (h : s.Keeps mark t cs) (tokens : List Token) :
    s.Keeps mark (t.readTo tokens) cs := by
  unfold State.readTo
  split
  · exact ⟨h.errors, h.blocks, h.characters⟩
  · exact h

/-- An error that is noted stays. -/
theorem report (hs : s.errors <+: t.errors) (hblocks : s.Blocks → t.Blocks)
    (cause : ParseError.Cause) (span : Span) (cs : List Char) :
    s.Keeps mark (t.report cause span) cs := by
  refine ⟨hs.trans (List.prefix_append _ _), hblocks, ?_⟩
  intro _ hsame
  have hle := hs.length_le
  have hlen := congrArg List.length hsame
  simp only [State.report, List.length_append, List.length_singleton] at hlen
  omega

/-- A node without children, behind what tells nothing. -/
theorem add (h : s.Keeps mark t []) (input : InputId) (content : Content) (start : Position)
    (hcs : (Tree.node content (some ⟨input, ⟨start, t.last⟩⟩) []).characters mark =
      significant cs) : s.Keeps mark (t.add input content start) cs := by
  have hadd : t.Keeps mark (t.add input content start) cs := by
    refine ⟨List.prefix_rfl, id, fun _ _ => ?_⟩
    rw [State.characters, State.add, State.characters, charactersIn_append, ← hcs,
      List.append_assoc]
    simp [charactersIn]
  exact h.trans hadd

theorem openBlock {content : Content} (hc : content.opensBlock = true) (start : Position)
    (brace : Token) (h : content.opening ++ ['{'] = significant cs) :
    s.Keeps mark (s.openBlock content start brace) cs := by
  refine ⟨List.prefix_rfl, ?_, fun _ _ => ?_⟩
  · intro hs f hf
    rcases List.mem_cons.1 hf with rfl | hf
    · exact hc
    · exact hs f hf
  · rw [State.characters, State.openBlock, State.characters, ← h]
    simp [Frame.characters, charactersIn]

/-- The end of a block that is open. -/
theorem closeFrame {frame : Frame} {frames : List Frame} (hframes : s.frames = frame :: frames)
    (input : InputId) (h : significant cs = ['}']) :
    s.Keeps mark (s.closeFrame input frame frames) cs := by
  refine ⟨List.prefix_rfl, ?_, ?_⟩
  · exact fun hs f hf => hs f (hframes ▸ List.mem_cons_of_mem _ hf)
  · intro hs _
    have hc : frame.content.opensBlock = true := hs frame (hframes ▸ List.mem_cons_self)
    rw [State.characters, State.closeFrame, State.add, State.characters, hframes,
      charactersIn_append, h]
    simp [charactersIn, Tree.characters_of_opensBlock hc, Frame.characters]

theorem closeBlock (input : InputId) (brace : Token) (h : significant cs = ['}']) :
    s.Keeps mark (s.closeBlock input brace) cs := by
  have hread := (refl mark s significant_nil).readTo [brace]
  unfold State.closeBlock
  dsimp only
  split
  · rename_i frame frames hframes
    exact hread.trans (closeFrame hframes input h)
  · exact report hread.errors hread.blocks _ _ cs

end State.Keeps

/-- At the end of the text blocks that are still open are errors. -/
theorem State.frames_of_closeAll (input : InputId) (frames : List Frame) (s : State) :
    s.errors <+: (s.closeAll input frames).errors ∧
      ((s.closeAll input frames).errors = s.errors → frames = []) := by
  induction frames generalizing s with
  | nil => exact ⟨List.prefix_rfl, fun _ => rfl⟩
  | cons frame frames ih =>
    obtain ⟨hearlier, -⟩ := ih ((s.report .unclosedBlock frame.brace).closeFrame input frame frames)
    have hmore : s.errors ++ [⟨.unclosedBlock, frame.brace⟩] <+:
        (s.closeAll input (frame :: frames)).errors := hearlier
    refine ⟨(List.prefix_append _ _).trans hmore, fun hsame => ?_⟩
    have hle := (hsame ▸ hmore).length_le
    rw [List.length_append, List.length_singleton] at hle
    omega

end States

end Parser

end ClassRules
