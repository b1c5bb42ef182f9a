import ClassRules.Proofs.Token.Shape
import ClassRules.Proofs.Tree.Colons

/-!
# Where the nodes of a text stand

Each node of a text stands on a piece of it, whatever errors the text has. The piece begins with
what the node says first. The pieces of its children lie within its own and one behind the other,
and so do those of the topmost nodes.

The piece of a node begins at the first token of the node and ends at the last token that was read
before the node was complete. While blocks are open, what can be said is where their nodes begin and
that all that has been read since lies behind that.

## What this module delivers

- `Content.beginning`: what the text of a node begins with. `Tree.subtrees`: a tree and those in it.
- `Tree.StandsIn`: a node stands in a text, and its children in its piece. `LieBetween`: trees one
  behind the other between two places. `LieBetween.add`: one more behind them.
- `cutsOff_begins`, `begins_tokens`: a statement begins with what its node begins with.
- `Parser.OpenAt`, `Parser.State.Follows`: open blocks, and what is true of a state behind a text.
  `State.Follows.step`: each step reads on. `State.Follows.closeAll`: the end of the text.
- `parse_spans`: the nodes of a whole text.
-/

set_option autoImplicit false

namespace ClassRules

open Text ClassRules.Tree ClassRules.Parser

/-- What the text of a node with this content begins with. -/
def Content.beginning : Content → List Char
  | .root => []
  | .rule selector => selector.toList
  | .atRule name _ _ => '@' :: name.toList
  | .declaration property _ _ => property.toList
  | .comment _ => ['/', '*']

/-! ## Trees in a text -/

namespace Tree

/-- The piece of a text that a tree comes from; an empty one if it comes from nowhere. -/
def span (t : Tree) : Span :=
  (t.source.map Source.span).getD .zero

mutual

/-- A tree and all that stand in it, in document order. -/
def subtrees : Tree → List Tree
  | node content source children => node content source children :: subtreesIn children

/-- The trees of a list and all that stand in them, in document order. -/
def subtreesIn : List Tree → List Tree
  | [] => []
  | t :: ts => subtrees t ++ subtreesIn ts

end

theorem subtreesIn_append (ts us : List Tree) :
    subtreesIn (ts ++ us) = subtreesIn ts ++ subtreesIn us := by
  induction ts with
  | nil => rfl
  | cons t ts ih => rw [List.cons_append, subtreesIn, subtreesIn, ih, List.append_assoc]

/-- A tree stands behind another one. -/
def Behind (t u : Tree) : Prop :=
  t.span.stop.byte ≤ u.span.start.byte

/-- The topmost node of a tree comes from a piece of the text that is not empty and begins as its
content says. Its children come from parts of this piece, one behind the other. -/
structure StandsIn (input : InputId) (source : List Char) (t : Tree) : Prop where
  place : ∃ before text after, source = before ++ text ++ after ∧ text ≠ [] ∧
    t.source = some ⟨input, ⟨.behind before, .behind (before ++ text)⟩⟩ ∧
    t.content.beginning <+: text
  inside : ∀ c ∈ t.children,
    t.span.start.byte ≤ c.span.start.byte ∧ c.span.stop.byte ≤ t.span.stop.byte
  ordered : t.children.Pairwise Behind

/-- The trees come from pieces of the text between two bytes of it, one behind the other, and so
does all that stands in them. -/
structure LieBetween (input : InputId) (source : List Char) (low high : Nat) (ts : List Tree) :
    Prop where
  stands : ∀ t ∈ subtreesIn ts, t.StandsIn input source
  within : ∀ t ∈ ts, low ≤ t.span.start.byte ∧ t.span.stop.byte ≤ high
  ordered : ts.Pairwise Behind

namespace LieBetween

variable {input : InputId} {source before text after : List Char} {low low' high high' : Nat}
  {ts children : List Tree} {content : Content}

theorem nil (input : InputId) (source : List Char) (low high : Nat) :
    LieBetween input source low high [] :=
  ⟨fun _ ht => absurd ht List.not_mem_nil, fun _ ht => absurd ht List.not_mem_nil, .nil⟩

theorem mono (h : LieBetween input source low high ts) (hlow : low' ≤ low)
    (hhigh : high ≤ high') : LieBetween input source low' high' ts where
  stands := h.stands
  within t ht :=
    ⟨Nat.le_trans hlow (h.within t ht).1, Nat.le_trans (h.within t ht).2 hhigh⟩
  ordered := h.ordered

/-- A node whose piece lies behind some trees, and around its children, goes with these trees. -/
theorem add (h : LieBetween input source low (byteLength before) ts)
    (hlow : low ≤ byteLength before) (hsource : source = before ++ text ++ after)
    (htext : text ≠ []) (hbegins : content.beginning <+: text)
    (hchildren : LieBetween input source (byteLength before) (byteLength (before ++ text))
      children) :
    LieBetween input source low (byteLength (before ++ text))
      (ts ++ [.node content (some ⟨input, ⟨.behind before, .behind (before ++ text)⟩⟩)
        children]) where
  stands t ht := by
    rw [subtreesIn_append, List.mem_append] at ht
    rcases ht with ht | ht
    · exact h.stands t ht
    · rw [subtreesIn, subtreesIn, List.append_nil, subtrees, List.mem_cons] at ht
      rcases ht with rfl | ht
      · exact ⟨⟨before, text, after, hsource, htext, rfl, hbegins⟩, hchildren.within,
          hchildren.ordered⟩
      · exact hchildren.stands t ht
  within t ht := by
    rcases List.mem_append.1 ht with ht | ht
    · obtain ⟨hstart, hstop⟩ := h.within t ht
      rw [byteLength_append]
      exact ⟨hstart, Nat.le_add_right_of_le hstop⟩
    · rw [List.mem_singleton.1 ht]
      exact ⟨hlow, Nat.le_refl _⟩
  ordered := by
    refine List.pairwise_append.2 ⟨h.ordered, List.pairwise_singleton _ _, fun t ht u hu => ?_⟩
    rw [List.mem_singleton.1 hu]
    exact (h.within t ht).2

end LieBetween

end Tree

/-! ## What a statement begins with -/

theorem charactersOf_prefix {tokens tokens' : List Token} (h : tokens <+: tokens') :
    charactersOf tokens <+: charactersOf tokens' := by
  obtain ⟨more, rfl⟩ := h
  rw [charactersOf_append]
  exact List.prefix_append _ _

section Steps

variable {input : InputId} {source : String} {read rest : List Token} {token : Token}
  {content : Content} {s t : State} {n : Nat}

/-- The text of tokens that do not begin with white space, without the white space at its ends,
begins the text of the tokens. -/
theorem trim_charactersOf_begins (ht : token ∈ (tokenize source).tokens)
    (hstop : token.kind ≠ .stop) (hblank : token.kind ≠ .blank) (k : Nat) :
    trim (charactersOf ((token :: rest).take k)) <+: charactersOf ((token :: rest).take k) := by
  apply trim_prefix
  cases k with
  | zero =>
    intro a ha
    cases ha
  | succ k =>
    obtain ⟨c, more, htext, hc⟩ := exists_text_eq ht hstop hblank
    intro a ha
    rw [List.take_succ_cons, charactersOf_cons, htext] at ha
    cases ha
    exact hc

/-- What is cut off the tokens that a step reads begins them: more tokens are read than those that
it is the text of, and the first of them is no white space to be trimmed. -/
theorem cutsOff_begins {cut : List Char} (h : (tokenize source).tokens = read ++ token :: rest)
    (hstop : token.kind ≠ .stop)
    (hcut : Context.CutsOff ⟨source.toList, input⟩ token rest cut) :
    cut <+: charactersOf (token :: rest.take (readBehind token rest)) := by
  obtain ⟨hblank, k, hk, htext⟩ := hcut
  have ht : token ∈ (tokenize source).tokens := by
    rw [h]
    simp
  -- The mark of the end is left behind the tokens that are read, if nothing else is.
  have hlt : k < (token :: rest).length :=
    Nat.lt_of_le_of_lt hk (Nat.succ_lt_succ ((isClosed_behind h hstop).readBehind_lt token))
  have hsplit := List.drop_eq_getElem_cons hlt
  have hwhole : (tokenize source).tokens = read ++ (token :: rest).take k ++
      (token :: rest)[k] :: (token :: rest).drop (k + 1) := by
    rw [h, ← hsplit, List.append_assoc, List.take_append_drop]
  rw [hsplit, textOf?_tokenize hwhole, Option.some.injEq] at htext
  rw [← htext, ← List.take_succ_cons]
  apply (trim_charactersOf_begins ht hstop hblank k).trans
  exact charactersOf_prefix (List.take_prefix_take_left hk)

/-- The tokens that a step reads begin with what the node begins with. -/
theorem begins_tokens (h : (tokenize source).tokens = read ++ token :: rest)
    (hstop : token.kind ≠ .stop)
    (hoff : Context.ReadsOff ⟨source.toList, input⟩ token rest content) :
    content.beginning <+: charactersOf (token :: rest.take (readBehind token rest)) := by
  have ht : token ∈ (tokenize source).tokens := by
    rw [h]
    simp
  have hfirst : token.text.toList <+:
      charactersOf (token :: rest.take (readBehind token rest)) := by
    rw [charactersOf_cons]
    exact List.prefix_append _ _
  cases content with
  | root => exact absurd hoff id
  | rule selector => exact cutsOff_begins h hstop hoff
  | declaration property value important => exact cutsOff_begins h hstop hoff
  | comment text => exact (text_of_comment ht hoff).trans hfirst
  | atRule name params body =>
    obtain ⟨hkind, rfl⟩ := hoff
    obtain ⟨chars, htext, hchars⟩ := text_of_atKeyword ht hkind
    rw [Content.beginning, String.toList_ofList, htext, Lexeme.dropWhile_at hchars, ← htext]
    exact hfirst

end Steps

/-! ## Open blocks -/

namespace Parser

variable {input : InputId} {source cs ds opened : List Char} {frame : Frame}
  {frames : List Frame} {content : Content} {s t : State}

/-- The blocks are open behind the text `opened`, which ends where the innermost of them begins.
The nodes before each of them lie behind the beginning of the block around it. -/
inductive OpenAt (input : InputId) (source : List Char) : List Frame → List Char → Prop
  | nil : OpenAt input source [] []
  | cons {frame : Frame} {frames : List Frame} {outer start text : List Char}
      (houter : OpenAt input source frames outer) (hinner : outer <+: start)
      (hbefore : LieBetween input source (byteLength outer) (byteLength start) frame.before)
      (hstart : frame.start = .behind start) (htext : text ≠ [])
      (hbegins : frame.content.beginning <+: text) :
      OpenAt input source (frame :: frames) (start ++ text)

/-- The state behind the text `cs`: what was read last lies between the beginning of the innermost
open block and the end of `cs`. -/
structure State.Follows (input : InputId) (source cs : List Char) (s : State) : Prop where
  last_eq : s.last = .behind cs
  nodes_lie : ∃ opened, OpenAt input source s.frames opened ∧ opened <+: cs ∧
    LieBetween input source (byteLength opened) (byteLength cs) s.nodes

namespace State.Follows

theorem initial (input : InputId) (source : List Char) : ({} : State).Follows input source [] :=
  ⟨rfl, [], .nil, List.prefix_rfl, .nil _ _ _ _⟩

theorem report (h : s.Follows input source cs) (cause : ParseError.Cause) (span : Span) :
    (s.report cause span).Follows input source cs :=
  ⟨h.last_eq, h.nodes_lie⟩

/-- Where more has been read, all lies before that. -/
theorem extend (h : s.Follows input source cs) (hlast : t.last = .behind (cs ++ ds))
    (hframes : t.frames = s.frames) (hnodes : t.nodes = s.nodes) :
    t.Follows input source (cs ++ ds) := by
  obtain ⟨opened, hopen, hinner, hlie⟩ := h.nodes_lie
  refine ⟨hlast, opened, hframes ▸ hopen, hinner.trans (List.prefix_append _ _), ?_⟩
  rw [hnodes]
  exact hlie.mono (Nat.le_refl _) (byteLength_mono (List.prefix_append _ _))

/-- What has been read since `cs` becomes a node without children. -/
theorem addLeaf (h : s.Follows input source cs) (hsource : cs ++ ds <+: source) (hds : ds ≠ [])
    (hbegins : content.beginning <+: ds) (hlast : t.last = .behind (cs ++ ds))
    (hframes : t.frames = s.frames) (hnodes : t.nodes = s.nodes) :
    (t.add input content (.behind cs)).Follows input source (cs ++ ds) := by
  obtain ⟨opened, hopen, hinner, hlie⟩ := h.nodes_lie
  obtain ⟨after, hsource⟩ := hsource
  refine ⟨hlast, opened, hframes ▸ hopen, hinner.trans (List.prefix_append _ _), ?_⟩
  have hadded := hlie.add (byteLength_mono hinner) hsource.symm hds hbegins
    (.nil input source _ _)
  rwa [← hnodes, ← hlast] at hadded

/-- What has been read since `cs` opens a block. -/
theorem openBlock (h : s.Follows input source cs) (hds : ds ≠ [])
    (hbegins : content.beginning <+: ds) {brace : Token}
    (hbrace : brace.span.stop = .behind (cs ++ ds)) :
    (s.openBlock content (.behind cs) brace).Follows input source (cs ++ ds) := by
  obtain ⟨opened, hopen, hinner, hlie⟩ := h.nodes_lie
  exact ⟨hbrace, cs ++ ds, .cons hopen hinner hlie rfl hds hbegins, List.prefix_rfl,
    .nil _ _ _ _⟩

/-- A block that is closed becomes a node, and its nodes the children of that. -/
theorem closeFrame (h : s.Follows input source cs) (hcs : cs <+: source)
    (hframes : s.frames = frame :: frames) :
    (s.closeFrame input frame frames).Follows input source cs := by
  obtain ⟨opened, hopen, ⟨more, rfl⟩, hlie⟩ := h.nodes_lie
  obtain ⟨after, hsource⟩ := hcs
  rw [hframes] at hopen
  cases hopen with
  | @cons _ _ outer start text houter hinner hbefore hstart htext hbegins =>
    refine ⟨h.last_eq, outer, houter, ?_, ?_⟩
    · rw [List.append_assoc]
      exact hinner.trans (List.prefix_append _ _)
    · -- The node lies on its opening, the brace among it, and on all that was read since.
      have hassoc : start ++ text ++ more = start ++ (text ++ more) := List.append_assoc _ _ _
      have hlast := h.last_eq
      have hchildren := hlie.mono
        (byteLength_mono (List.prefix_append start text)) (Nat.le_refl _)
      rw [hassoc] at hsource hlast hchildren ⊢
      have hadded := hbefore.add (byteLength_mono hinner) hsource.symm
        (List.append_ne_nil_of_left_ne_nil htext more)
        (hbegins.trans (List.prefix_append text more)) hchildren
      rwa [← hstart, ← hlast] at hadded

/-- The end of the text closes all blocks. -/
theorem closeAll (h : s.Follows input source cs) (hcs : cs <+: source)
    (hframes : s.frames = frames) :
    LieBetween input source 0 (byteLength cs) (s.closeAll input frames).nodes := by
  -- The innermost block is closed first, and the others then are the blocks of the state.
  induction frames generalizing s with
  | nil =>
    obtain ⟨opened, hopen, -, hlie⟩ := h.nodes_lie
    rw [hframes] at hopen
    cases hopen
    exact hlie
  | cons frame frames ih =>
    exact ih ((h.report _ _).closeFrame hcs hframes) rfl

end State.Follows

/-! ## Steps -/

section Steps

variable {text : String} {cx : Context} {read rest tokens : List Token} {token : Token} {n : Nat}

/-- The last of the tokens of a text that have been read ends where they all do. -/
theorem last_readTo (h : (tokenize text).tokens = read ++ tokens ++ rest) (hne : tokens ≠ [])
    (s : State) :
    (s.readTo tokens).last = .behind (charactersOf read ++ charactersOf tokens) := by
  obtain ⟨init, last, rfl⟩ := (List.eq_nil_or_concat' tokens).resolve_left hne
  rw [← List.append_assoc, List.append_assoc (read ++ init), List.singleton_append] at h
  rw [State.readTo, List.getLast?_concat, ← charactersOf_append, ← List.append_assoc]
  simp only [span_of_tokenize h]

/-- Each step reads on, and what it adds lies on what it has read. -/
theorem State.Follows.step (h : s.Follows input text.toList (charactersOf read))
    (htokens : (tokenize text).tokens = read ++ token :: rest) (hstop : token.kind ≠ .stop)
    (heq : Parser.step ⟨text.toList, input⟩ token rest s = some (t, n)) :
    t.Follows input text.toList (charactersOf (read ++ token :: rest.take n)) := by
  obtain rfl := length_of_step hstop heq
  have hsplit : (tokenize text).tokens = read ++ (token :: rest.take (readBehind token rest)) ++
      rest.drop (readBehind token rest) := by
    rw [htokens, List.append_assoc, List.cons_append, List.take_append_drop]
  -- What the step reads lies between the text before its first token and the end of its last one.
  have hlast := last_readTo hsplit (List.cons_ne_nil _ _) s
  have hsource := charactersOf_begins hsplit
  have hstart : token.span.start = .behind (charactersOf read) := by
    rw [span_of_tokenize htokens]
  have hne : charactersOf (token :: rest.take (readBehind token rest)) ≠ [] := by
    rw [charactersOf_cons]
    exact List.append_ne_nil_of_left_ne_nil (text_ne_nil (by rw [htokens]; simp) hstop) _
  rw [charactersOf_append] at hsource ⊢
  cases step_cases hstop heq with
  | pass hkind =>
    have hsingle : token :: rest.take (readBehind token rest) = [token] :=
      take_readBehind_of_single (by rcases hkind with hkind | hkind <;> rw [hkind] <;> decide)
    rw [hsingle] at hlast ⊢
    exact h.extend hlast (State.frames_readTo _ _) (State.nodes_readTo _ _)
  | leaf _ _ _ hoff =>
    rw [hstart]
    exact h.addLeaf hsource hne (begins_tokens htokens hstop hoff) hlast
      (State.frames_readTo _ _) (State.nodes_readTo _ _)
  | lacking =>
    exact (h.extend hlast (State.frames_readTo _ _) (State.nodes_readTo _ _)).report _ _
  | opens _ hread _ _ hoff =>
    rw [hstart]
    -- The brace is the last token that is read.
    refine h.openBlock hne (begins_tokens htokens hstop hoff) ?_
    rw [← hlast, State.readTo, hread, List.getLast?_concat]
  | closes hkind =>
    have hsingle : token :: rest.take (readBehind token rest) = [token] :=
      take_readBehind_of_single (by rw [hkind]; decide)
    rw [hsingle] at hlast hsource ⊢
    -- The closing brace is read first, so the node that it completes ends behind it.
    have hread := h.extend hlast (State.frames_readTo _ _) (State.nodes_readTo _ _)
    cases hframes : s.frames with
    | nil =>
      rw [State.closeBlock_of_nil s input token hframes]
      exact hread.report _ _
    | cons frame frames =>
      rw [State.closeBlock_of_cons s input token hframes]
      exact hread.closeFrame hsource (by rw [State.frames_readTo, hframes])

end Steps

end Parser

/-- Every node of a text, whatever errors the text has, comes from a piece of the text that is not
empty and begins with what the node says: with an at-sign and the name of an at-rule, with the
selector of a rule, with the property of a declaration, or with the marks that open a comment. The
pieces of its children lie in this one, each behind the one before it, and the topmost nodes stand
one behind the other as well. -/
theorem parse_spans (input : InputId) (source : String) :
    (∀ t ∈ subtreesIn (parse input source).nodes, t.StandsIn input source.toList) ∧
      (parse input source).nodes.Pairwise Behind := by
  obtain ⟨read, stop, s, htokens, -, hfollows, hparse⟩ := exists_parse_closeAll input source
    (P := fun read s => s.Follows input source.toList (charactersOf read))
    (State.Follows.initial input source.toList) fun htokens hstop heq h => h.step htokens hstop heq
  have hlie := hfollows.closeAll (charactersOf_begins htokens) rfl
  rw [hparse]
  exact ⟨hlie.stands, hlie.ordered⟩

end ClassRules
