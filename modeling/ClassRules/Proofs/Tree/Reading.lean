import ClassRules.Proofs.Text.Trim
import ClassRules.Proofs.Token.Cut
import ClassRules.Tree.Parser

/-!
# Reading without places

What the parser does with tokens, and with the text that they are cut from, when the places of
tokens and nodes are left out.

## What this module delivers

- `Tree.bare`, `Parser.Outline`: trees without sources, and the parser's state without places.
- `Parser.depthBehind?`: the open groups behind tokens that do not end a statement.
  `statementLength_of_depthBehind?`: the parser's search stops behind them.
- `Parser.Consumes`: reading tokens, whatever follows, leads from one outline to another without an
  error. One lemma for each kind of statement.
- `Parser.Reads`: the same of a text. `Reads.trans` joins two texts.
-/

set_option autoImplicit false

namespace ClassRules

open Text

namespace Tree

mutual

/-- A tree without the sources of its nodes. -/
def bare : Tree → Tree
  | node content _ children => .node content none (bareForest children)

/-- Trees without the sources of their nodes. -/
def bareForest : List Tree → List Tree
  | [] => []
  | t :: ts => bare t :: bareForest ts

end

theorem bareForest_append (ts us : List Tree) :
    bareForest (ts ++ us) = bareForest ts ++ bareForest us := by
  induction ts with
  | nil => rfl
  | cons t ts ih => rw [List.cons_append, bareForest, bareForest, ih, List.cons_append]

end Tree

open ClassRules.Tree

/-- Whether a token of this kind starts a rule or a declaration, and is not the brace of a rule
without a selector. -/
def Token.Kind.startsStatement : Token.Kind → Bool
  | .atKeyword | .blank | .comment | .openBrace | .closeBrace | .semicolon | .stop => false
  | _ => true

namespace Parser

/-- The open blocks, each with what stands before it, and the nodes of the innermost one. -/
structure Outline where
  frames : List (Content × List Tree)
  nodes : List Tree

namespace Outline

/-- Adds a node. -/
def add (o : Outline) (content : Content) (children : List Tree) : Outline :=
  { o with nodes := o.nodes ++ [.node content none children] }

/-- Opens the block of a node. -/
def openBlock (o : Outline) (content : Content) : Outline :=
  ⟨(content, o.nodes) :: o.frames, []⟩

end Outline

namespace State

/-- The state without places. -/
def outline (s : State) : Outline where
  frames := s.frames.map fun f => (f.content, bareForest f.before)
  nodes := bareForest s.nodes

@[simp] theorem outline_readTo (s : State) (tokens : List Token) :
    (s.readTo tokens).outline = s.outline := by
  unfold State.readTo
  split
  · rfl
  · rfl

@[simp] theorem errors_readTo (s : State) (tokens : List Token) :
    (s.readTo tokens).errors = s.errors := by
  unfold State.readTo
  split
  · rfl
  · rfl

@[simp] theorem outline_add (s : State) (input : InputId) (content : Content) (start : Position)
    (children : List Tree) :
    (s.add input content start children).outline = s.outline.add content (bareForest children) := by
  rw [outline, State.add, Outline.add]
  simp only [bareForest_append]
  rfl

@[simp] theorem errors_add (s : State) (input : InputId) (content : Content) (start : Position)
    (children : List Tree) : (s.add input content start children).errors = s.errors := rfl

@[simp] theorem outline_openBlock (s : State) (content : Content) (start : Position)
    (brace : Token) : (s.openBlock content start brace).outline = s.outline.openBlock content := rfl

@[simp] theorem errors_openBlock (s : State) (content : Content) (start : Position)
    (brace : Token) : (s.openBlock content start brace).errors = s.errors := rfl

/-- A closing brace ends the innermost open block. -/
theorem outline_closeBlock {s : State} (input : InputId) (brace : Token) {content : Content}
    {before nodes : List Tree} {frames : List (Content × List Tree)}
    (h : s.outline = ⟨(content, before) :: frames, nodes⟩) :
    (s.closeBlock input brace).outline = (⟨frames, before⟩ : Outline).add content nodes ∧
      (s.closeBlock input brace).errors = s.errors := by
  have h' : (s.readTo [brace]).outline = ⟨(content, before) :: frames, nodes⟩ := by
    rw [outline_readTo, h]
  have herrors := s.errors_readTo [brace]
  have hframes := congrArg Outline.frames h'
  have hnodes := congrArg Outline.nodes h'
  obtain ⟨f, fs, hf, hcontent, hfs⟩ := List.map_eq_cons_iff.1 hframes
  obtain ⟨rfl, rfl⟩ := Prod.mk.inj hcontent
  subst hfs
  subst hnodes
  unfold closeBlock
  dsimp only
  rw [hf]
  dsimp only
  rw [closeFrame, outline_add, errors_add]
  exact ⟨rfl, herrors⟩

end State

/-! ## The end of a statement -/

/-- The number of open groups behind tokens, none of which ends a statement. -/
def depthBehind? (depth : Nat) : List Token.Kind → Option Nat
  | [] => some depth
  | kind :: kinds =>
    if endsStatement depth kind then none else depthBehind? (depthAfter depth kind) kinds

theorem depthBehind?_append {depth : Nat} (ks ls : List Token.Kind) :
    depthBehind? depth (ks ++ ls) = (depthBehind? depth ks).bind (depthBehind? · ls) := by
  induction ks generalizing depth with
  | nil => rfl
  | cons k ks ih =>
    rw [List.cons_append, depthBehind?, depthBehind?]
    split
    · rfl
    · exact ih

theorem depthBehind?_cons_eq_some {depth d : Nat} {k : Token.Kind} {ks : List Token.Kind}
    (h : depthBehind? depth (k :: ks) = some d) :
    endsStatement depth k = false ∧ depthBehind? (depthAfter depth k) ks = some d := by
  rw [depthBehind?] at h
  split at h
  · cases h
  · rename_i hends
    exact ⟨Bool.eq_false_iff.2 hends, h⟩

/-- The search for the end of a statement stops at the token that ends it. -/
theorem statementLength_of_depthBehind? {depth d : Nat} {piece rest : List Token} {t : Token}
    (h : depthBehind? depth (piece.map Token.kind) = some d)
    (ht : endsStatement d t.kind = true) :
    statementLength depth (piece ++ t :: rest) = piece.length := by
  induction piece generalizing depth with
  | nil =>
    cases h
    rw [List.nil_append, statementLength, if_pos ht]
    rfl
  | cons p piece ih =>
    obtain ⟨hends, hmore⟩ := depthBehind?_cons_eq_some h
    rw [List.cons_append, statementLength, hends, ih hmore]
    rfl

/-! ## Tokens on a text -/

/-- The tokens stand at the end of the text, which they spell, and the mark of the end is the last
of them. -/
structure At (cx : Context) (tokens : List Token) (ps : List BareToken) : Prop where
  place : ∃ before, cx.source = before ++ spells ps ∧ Lies (byteLength before) tokens
  tokens : tokens.map Token.bare = ps ++ [⟨.stop, []⟩]

variable {cx : Context} {tokens : List Token} {p : BareToken} {ps qs us : List BareToken}
  {o o' o'' : Outline}

theorem lies_append {byte : Nat} {piece rest : List Token} (h : Lies byte (piece ++ rest)) :
    Lies (byte + byteLength (spells (piece.map Token.bare))) rest := by
  induction piece generalizing byte with
  | nil => exact h
  | cons t piece ih =>
    have hrest := ih h.2
    rw [List.map_cons, spells_cons, byteLength_append, ← Nat.add_assoc]
    exact hrest

/-- The tokens of a statement are followed by those of the rest, and the text of the statement is
what they spell. -/
theorem At.split (h : At cx tokens (ps ++ us)) :
    ∃ piece rest, tokens = piece ++ rest ∧ piece.map Token.bare = ps ∧ At cx rest us ∧
      cx.textOf? piece rest = some (trim (spells ps)) := by
  obtain ⟨before, hsource, hlies⟩ := h.place
  have htokens := h.tokens
  rw [List.append_assoc] at htokens
  obtain ⟨piece, rest, rfl, rfl, hrest⟩ := List.map_eq_append_iff.1 htokens
  have hlies' := lies_append hlies
  rw [spells_append] at hsource
  refine ⟨piece, rest, rfl, rfl, ⟨⟨before ++ spells (piece.map Token.bare), ?_, ?_⟩, hrest⟩, ?_⟩
  · rw [hsource, List.append_assoc]
  · rw [byteLength_append]
    exact hlies'
  · -- The text of tokens lies between the places of the first one and of the one behind them.
    cases piece with
    | nil => rfl
    | cons t piece =>
      cases rest with
      | nil =>
        rw [List.map_nil] at hrest
        exact absurd (List.nil_eq_append_iff.1 hrest).2 (List.cons_ne_nil _ _)
      | cons r rest =>
        rw [Context.textOf?]
        simp only [Context.startOf]
        rw [hlies.1, hlies'.1, hsource, ← List.append_assoc, slice?_append]
        rfl

theorem At.token (h : At cx tokens (p :: us)) :
    ∃ t rest, tokens = t :: rest ∧ t.bare = p ∧ At cx rest us := by
  have h' : At cx tokens ([p] ++ us) := h
  obtain ⟨piece, rest, rfl, hpiece, hrest, -⟩ := h'.split
  obtain ⟨t, ts, rfl, rfl, hts⟩ := List.map_eq_cons_iff.1 hpiece
  rw [List.map_eq_nil_iff.1 hts]
  exact ⟨t, rest, rfl, rfl, hrest⟩

/-- Tokens that do not end a statement, and the token behind them that does. -/
theorem At.statement {depth d : Nat} (h : At cx tokens (ps ++ p :: us))
    (hd : depthBehind? depth (ps.map BareToken.kind) = some d)
    (hp : endsStatement d p.kind = true) :
    ∃ piece ending rest, tokens = piece ++ ending :: rest ∧ ending.bare = p ∧
      piece.map Token.bare = ps ∧ At cx rest us ∧
      statementLength depth (piece ++ ending :: rest) = piece.length ∧
      cx.textOf? piece (ending :: rest) = some (trim (spells ps)) := by
  obtain ⟨piece, behind, rfl, rfl, hat, htext⟩ := h.split
  obtain ⟨ending, rest, rfl, rfl, hat'⟩ := hat.token
  rw [List.map_map] at hd
  exact ⟨piece, ending, rest, rfl, rfl, rfl, hat', statementLength_of_depthBehind? hd hp, htext⟩

/-- The first token of a rule or a declaration is looked at before the search, which begins behind
it. -/
theorem exists_first {piece rest : List Token} {e : Token}
    (hstart : ∃ t ∈ piece.head?, t.kind.startsStatement = true)
    (hlen : statementLength 0 (piece ++ e :: rest) = piece.length) :
    ∃ t more, piece = t :: more ∧ t.kind.startsStatement = true ∧
      statementLength (depthAfter 0 t.kind) (more ++ e :: rest) = more.length := by
  obtain ⟨t, ht, hkind⟩ := hstart
  cases piece with
  | nil => cases ht
  | cons t' more =>
    cases ht
    refine ⟨t, more, rfl, hkind, ?_⟩
    rw [List.cons_append, statementLength] at hlen
    split at hlen
    · cases hlen
    · exact Nat.succ.inj hlen

theorem drop_length_succ (piece rest : List Token) (t : Token) :
    (piece ++ t :: rest).drop (piece.length + 1) = rest := by
  rw [← List.drop_drop, List.drop_left]
  rfl

/-! ## Steps -/

theorem step_of_startsStatement {t : Token} {rest : List Token} {s : State}
    (h : t.kind.startsStatement = true) : step cx t rest s = statement? cx t rest s := by
  rw [step]
  split
  all_goals first
    | rfl
    | (rename_i hk; rw [hk] at h; cases h)

theorem ne_of_startsStatement {k k' : Token.Kind} (h : k.startsStatement = true)
    (h' : k'.startsStatement = false) : k ≠ k' := by
  rintro rfl
  rw [h'] at h
  cases h

/-- Reading the tokens, whatever follows them, leads from one outline to another, and no error is
noted. -/
def Consumes (ps : List BareToken) (o o' : Outline) : Prop :=
  ∀ (us : List BareToken) (cx : Context) (tokens : List Token) (s : State),
    At cx tokens (ps ++ us) → s.outline = o →
      ∃ tokens' s', At cx tokens' us ∧ s'.outline = o' ∧ s'.errors = s.errors ∧
        run cx tokens s = run cx tokens' s'

theorem run_of_step {token : Token} {rest : List Token} {s s' : State} {n : Nat}
    (hstop : token.kind ≠ .stop) (h : step cx token rest s = some (s', n)) :
    run cx (token :: rest) s = run cx (rest.drop n) s' := by
  rw [run, if_neg hstop, h]

namespace Consumes

theorem refl (o : Outline) : Consumes [] o o := by
  intro us cx tokens s hat ho
  exact ⟨tokens, s, hat, ho, rfl, rfl⟩

theorem trans (h : Consumes ps o o') (h' : Consumes qs o' o'') : Consumes (ps ++ qs) o o'' := by
  intro us cx tokens s hat ho
  rw [List.append_assoc] at hat
  obtain ⟨tokens', s', hat', ho', herrors', hrun'⟩ := h _ cx tokens s hat ho
  obtain ⟨tokens'', s'', hat'', ho'', herrors'', hrun''⟩ := h' us cx tokens' s' hat' ho'
  exact ⟨tokens'', s'', hat'', ho'', herrors''.trans herrors', hrun'.trans hrun''⟩

/-- One token that the parser reads by itself. -/
theorem token (hstop : p.kind ≠ .stop)
    (h : ∀ (cx : Context) (t : Token) (rest : List Token) (s : State), t.bare = p →
      s.outline = o → ∃ s', step cx t rest s = some (s', 0) ∧ s'.outline = o' ∧
        s'.errors = s.errors) : Consumes [p] o o' := by
  intro us cx tokens s hat ho
  obtain ⟨t, rest, rfl, rfl, hat'⟩ := hat.token
  obtain ⟨s', hstep, ho', herrors⟩ := h cx t rest s rfl ho
  exact ⟨rest, s', hat', ho', herrors, run_of_step hstop hstep⟩

theorem blank (cs : List Char) (o : Outline) : Consumes [⟨.blank, cs⟩] o o := by
  refine token (fun h => by cases h) ?_
  intro cx t rest s ht ho
  have hkind : t.kind = .blank := congrArg BareToken.kind ht
  refine ⟨s.readTo [t], ?_, ?_, ?_⟩
  · rw [step, hkind]
  · rw [State.outline_readTo, ho]
  · rw [State.errors_readTo]

theorem blankRun (cs : List Char) (o : Outline) : Consumes (blankRun cs) o o := by
  cases cs with
  | nil => exact refl o
  | cons c cs => exact blank _ o

theorem comment (cs : List Char) (o : Outline) :
    Consumes [⟨.comment, cs⟩] o (o.add (.comment (commentText (String.ofList cs))) []) := by
  refine token (fun h => by cases h) ?_
  intro cx t rest s ht ho
  have hkind : t.kind = .comment := congrArg BareToken.kind ht
  have htext : t.text = String.ofList cs := by
    rw [← String.ofList_toList (s := t.text)]
    exact congrArg (fun p => String.ofList p.chars) ht
  refine ⟨(s.readTo [t]).add cx.input (.comment (commentText t.text)) t.span.start, ?_, ?_, ?_⟩
  · rw [step, hkind]
  · rw [State.outline_add, State.outline_readTo, ho, htext]
    rfl
  · rw [State.errors_add, State.errors_readTo]

theorem close (cs : List Char) (content : Content) (before nodes : List Tree)
    (frames : List (Content × List Tree)) :
    Consumes [⟨.closeBrace, cs⟩] ⟨(content, before) :: frames, nodes⟩
      ((⟨frames, before⟩ : Outline).add content nodes) := by
  refine token (fun h => by cases h) ?_
  intro cx t rest s ht ho
  have hkind : t.kind = .closeBrace := congrArg BareToken.kind ht
  obtain ⟨ho', herrors⟩ := State.outline_closeBlock cx.input t ho
  refine ⟨s.closeBlock cx.input t, ?_, ho', herrors⟩
  rw [step, hkind]

/-- A brace with nothing before it. -/
theorem openBrace (cs : List Char) (o : Outline) :
    Consumes [⟨.openBrace, cs⟩] o (o.openBlock (.rule "")) := by
  refine token (fun h => by cases h) ?_
  intro cx t rest s ht ho
  have hkind : t.kind = .openBrace := congrArg BareToken.kind ht
  refine ⟨s.openBlock (.rule "") t.span.start t, ?_, ?_, ?_⟩
  · rw [step, hkind]
    simp only
    rw [statement?, if_pos hkind]
  · rw [State.outline_openBlock, ho]
  · rw [State.errors_openBlock]

theorem atRule_open {d : Nat} (hd : depthBehind? 0 (ps.map BareToken.kind) = some d)
    (keyword b : List Char) (o : Outline) :
    Consumes (⟨.atKeyword, keyword⟩ :: ps ++ [⟨.openBrace, b⟩]) o
      (o.openBlock (.atRule (String.ofList (keyword.dropWhile (· == '@')))
        (String.ofList (trim (spells ps))) true)) := by
  intro us cx tokens s hat ho
  rw [List.append_assoc] at hat
  obtain ⟨t, behind, rfl, ht, hat'⟩ := hat.token
  obtain ⟨piece, e, rest, rfl, he, hpiece, hat'', hlen, htext⟩ := hat'.statement hd rfl
  have hkind : t.kind = .atKeyword := congrArg BareToken.kind ht
  have hchars : t.text.toList = keyword := congrArg BareToken.chars ht
  have hekind : e.kind = .openBrace := congrArg BareToken.kind he
  have hstep : step cx t (piece ++ e :: rest) s = some
      (s.openBlock (.atRule (String.ofList (keyword.dropWhile (· == '@')))
        (String.ofList (trim (spells ps))) true) t.span.start e, piece.length + 1) := by
    rw [step, hkind]
    simp only [atRule?, hlen, List.take_left, List.drop_left, htext, Ending.ofTokens, hekind,
      hchars]
    rfl
  have hrun := run_of_step (fun h => by rw [hkind] at h; cases h) hstep
  rw [drop_length_succ] at hrun
  refine ⟨rest, _, hat'', ?_, ?_, hrun⟩
  · rw [State.outline_openBlock, ho]
  · rw [State.errors_openBlock]

theorem atRule (hd : depthBehind? 0 (ps.map BareToken.kind) = some 0) (keyword b : List Char)
    (o : Outline) :
    Consumes (⟨.atKeyword, keyword⟩ :: ps ++ [⟨.semicolon, b⟩]) o
      (o.add (.atRule (String.ofList (keyword.dropWhile (· == '@')))
        (String.ofList (trim (spells ps))) false) []) := by
  intro us cx tokens s hat ho
  rw [List.append_assoc] at hat
  obtain ⟨t, behind, rfl, ht, hat'⟩ := hat.token
  obtain ⟨piece, e, rest, rfl, he, hpiece, hat'', hlen, htext⟩ := hat'.statement hd rfl
  have hkind : t.kind = .atKeyword := congrArg BareToken.kind ht
  have hchars : t.text.toList = keyword := congrArg BareToken.chars ht
  have hekind : e.kind = .semicolon := congrArg BareToken.kind he
  have hstep : step cx t (piece ++ e :: rest) s = some
      ((s.readTo (t :: piece ++ [e])).add cx.input
        (.atRule (String.ofList (keyword.dropWhile (· == '@'))) (String.ofList (trim (spells ps)))
          false) t.span.start, piece.length + 1) := by
    rw [step, hkind]
    simp only [atRule?, hlen, List.take_left, List.drop_left, htext, Ending.ofTokens, hekind,
      hchars]
    rfl
  have hrun := run_of_step (fun h => by rw [hkind] at h; cases h) hstep
  rw [drop_length_succ] at hrun
  refine ⟨rest, _, hat'', ?_, ?_, hrun⟩
  · rw [State.outline_add, State.outline_readTo, ho]
    rfl
  · rw [State.errors_add, State.errors_readTo]

/-- A rule with a selector. -/
theorem rule_open {d : Nat} (hp : p.kind.startsStatement = true)
    (hd : depthBehind? 0 ((p :: ps).map BareToken.kind) = some d) (b : List Char) (o : Outline) :
    Consumes (p :: ps ++ [⟨.openBrace, b⟩]) o
      (o.openBlock (.rule (String.ofList (trim (spells (p :: ps)))))) := by
  intro us cx tokens s hat ho
  rw [List.append_assoc] at hat
  obtain ⟨piece, e, rest, rfl, he, hpiece, hat', hlen, htext⟩ := hat.statement hd rfl
  obtain ⟨t, more, rfl, rfl, rfl⟩ := List.map_eq_cons_iff.1 hpiece
  obtain ⟨_, _, hcons, hkind, hlen⟩ := exists_first ⟨t, rfl, hp⟩ hlen
  obtain ⟨rfl, rfl⟩ := List.cons.inj hcons
  have hekind : e.kind = .openBrace := congrArg BareToken.kind he
  have hstep : step cx t (more ++ e :: rest) s = some
      (s.openBlock (.rule (String.ofList (trim (spells (t.bare :: more.map Token.bare)))))
        t.span.start e, more.length + 1) := by
    rw [step_of_startsStatement hkind, statement?, if_neg (ne_of_startsStatement hkind rfl)]
    simp only [hlen, List.take_left, List.drop_left, htext, Ending.ofTokens, hekind]
    rfl
  have hrun := run_of_step (ne_of_startsStatement hkind rfl) hstep
  rw [drop_length_succ] at hrun
  refine ⟨rest, _, hat', ?_, ?_, hrun⟩
  · rw [State.outline_openBlock, ho]
  · rw [State.errors_openBlock]

end Consumes

/-! ### Declarations -/

theorem findIdx?_colon {property value : List Token} {colon : Token} (hc : colon.kind = .colon)
    (h : ∀ t ∈ property, t.kind ≠ .colon) :
    (property ++ colon :: value).findIdx? (·.kind == .colon) = some property.length := by
  induction property with
  | nil =>
    rw [List.nil_append, List.findIdx?_cons, hc]
    rfl
  | cons t property ih =>
    have ht : (t.kind == Token.Kind.colon) = false := beq_false_of_ne (h t List.mem_cons_self)
    rw [List.cons_append, List.findIdx?_cons, ht, ih fun u hu => h u (List.mem_cons_of_mem _ hu)]
    rfl

/-- The text of tokens depends on the place of the token behind them only. -/
theorem textOf?_cons (piece rest rest' : List Token) (t : Token) :
    cx.textOf? piece (t :: rest) = cx.textOf? piece (t :: rest') := by
  cases piece with
  | nil => rfl
  | cons p piece => rfl

/-- The tokens before the first colon are the property, those behind it the value. -/
theorem declaration?_of_colon {property vs rest : List Token} {colon e : Token} {s : State}
    {name raw value : List Char} {important : Bool} (hc : colon.kind = .colon)
    (he : e.kind = .semicolon) (hproperty : ∀ t ∈ property, t.kind ≠ .colon)
    (hname : cx.textOf? property (colon :: vs) = some name)
    (hraw : cx.textOf? vs (e :: rest) = some raw)
    (hvalue : splitImportant? raw = some (value, important)) :
    declaration? cx (property ++ colon :: vs) (e :: rest) s = some
      ((s.readTo (property ++ colon :: vs ++ [e])).add cx.input
        (.declaration (String.ofList name) (String.ofList value) important)
        (cx.startOf (property ++ colon :: vs))) := by
  simp only [declaration?, findIdx?_colon hc hproperty, Ending.ofTokens, he, List.take_left,
    List.drop_left, drop_length_succ, hname, hraw, Option.bind_eq_bind, Option.bind_some, hvalue]
  rfl

theorem run_of_declaration {piece rest : List Token} {e : Token} {s s' : State}
    (hstart : ∃ t ∈ piece.head?, t.kind.startsStatement = true) (he : e.kind = .semicolon)
    (hlen : statementLength 0 (piece ++ e :: rest) = piece.length)
    (h : declaration? cx piece (e :: rest) s = some s') :
    run cx (piece ++ e :: rest) s = run cx rest s' := by
  obtain ⟨t, more, rfl, hkind, hlen⟩ := exists_first hstart hlen
  have hstep : step cx t (more ++ e :: rest) s = some (s', more.length + 1) := by
    rw [step_of_startsStatement hkind, statement?, if_neg (ne_of_startsStatement hkind rfl)]
    simp only [hlen, List.take_left, List.drop_left, Ending.ofTokens, he, h]
    rfl
  have hrun := run_of_step (ne_of_startsStatement hkind rfl) hstep
  rwa [drop_length_succ] at hrun

theorem Consumes.declaration {colon value : List Char} {important : Bool}
    (hstart : ∀ p ∈ ps.head?, p.kind.startsStatement = true)
    (hcolon : ∀ p ∈ ps, p.kind ≠ .colon)
    (hd : depthBehind? 0 ((ps ++ ⟨.colon, colon⟩ :: qs).map BareToken.kind) = some 0)
    (hvalue : splitImportant? (trim (spells qs)) = some (value, important)) (b : List Char)
    (o : Outline) :
    Consumes (ps ++ ⟨.colon, colon⟩ :: qs ++ [⟨.semicolon, b⟩]) o
      (o.add (.declaration (String.ofList (trim (spells ps))) (String.ofList value) important)
        []) := by
  intro us cx tokens s hat ho
  rw [List.append_assoc, List.append_assoc] at hat
  obtain ⟨property, behind, rfl, rfl, hat₁, hname⟩ := hat.split
  obtain ⟨c, behind, rfl, hc, hat₂⟩ := hat₁.token
  obtain ⟨vs, behind, rfl, rfl, hat₃, hraw⟩ := At.split hat₂
  obtain ⟨e, rest, rfl, he, hat₄⟩ := hat₃.token
  have hckind : c.kind = .colon := congrArg BareToken.kind hc
  have hekind : e.kind = .semicolon := congrArg BareToken.kind he
  have hproperty : ∀ t ∈ property, t.kind ≠ .colon := fun t ht =>
    hcolon _ (List.mem_map_of_mem ht)
  rw [textOf?_cons _ _ vs] at hname
  have hdecl := declaration?_of_colon (s := s) hckind hekind hproperty hname hraw hvalue
  have hlen : statementLength 0 ((property ++ c :: vs) ++ e :: rest) =
      (property ++ c :: vs).length := by
    -- The colon opens and closes nothing, so the search runs on into the value.
    refine statementLength_of_depthBehind? (d := 0) ?_ (by rw [hekind]; rfl)
    rw [← hc, ← List.map_cons, ← List.map_append, List.map_map] at hd
    exact hd
  -- A declaration without a property starts with its colon.
  have hfirst : ∃ t ∈ (property ++ c :: vs).head?, t.kind.startsStatement = true := by
    cases property with
    | nil => exact ⟨c, rfl, by rw [hckind]; rfl⟩
    | cons t property => exact ⟨t, rfl, hstart _ rfl⟩
  have hrun := run_of_declaration hfirst hekind hlen hdecl
  rw [List.append_assoc] at hrun
  refine ⟨rest, _, hat₄, ?_, ?_, hrun⟩
  · rw [State.outline_add, State.outline_readTo, ho]
    rfl
  · rw [State.errors_add, State.errors_readTo]

/-! ## Texts -/

/-- Reading the text, whatever follows it, leads from one outline to another, and no error is
noted. -/
def Reads (cs : List Char) (o o' : Outline) : Prop :=
  ∃ ps, (∀ rest, Cut (cs ++ rest) ps rest) ∧ Consumes ps o o'

theorem Reads.trans {cs ds : List Char} (h : Reads cs o o') (h' : Reads ds o' o'') :
    Reads (cs ++ ds) o o'' := by
  obtain ⟨ps, hcut, hps⟩ := h
  obtain ⟨qs, hcut', hqs⟩ := h'
  refine ⟨ps ++ qs, ?_, hps.trans hqs⟩
  intro rest
  rw [List.append_assoc]
  exact (hcut _).append (hcut' _)

/-- At the mark of the end nothing more is read. -/
theorem run_of_at_nil {s : State} (h : At cx tokens []) (hframes : s.outline.frames = []) :
    run cx tokens s = some s := by
  obtain ⟨t, ts, rfl, ht, -⟩ := List.map_eq_cons_iff.1 h.tokens
  have hnil : s.frames = [] := List.map_eq_nil_iff.1 hframes
  have hkind : t.kind = .stop := congrArg BareToken.kind ht
  rw [run, if_pos hkind, hnil, State.closeAll, ← hnil]

end Parser

/-- A text that is read gives the trees that are read from it, and no errors. -/
theorem parse_of_reads {source : String} {nodes : List Tree} (input : InputId)
    (h : Parser.Reads source.toList ⟨[], []⟩ ⟨[], nodes⟩) :
    (parse input source).errors = [] ∧ bareForest (parse input source).nodes = nodes := by
  obtain ⟨ps, hcut, hps⟩ := h
  have hwhole := hcut []
  rw [List.append_nil] at hwhole
  obtain ⟨herrors, htokens⟩ := tokensFrom_of_cut hwhole .start
  rw [tokensFrom_nil] at herrors htokens
  have hat : Parser.At ⟨source.toList, input⟩ (tokenize source).tokens (ps ++ []) := by
    rw [List.append_nil]
    refine ⟨⟨[], ?_, lies_tokensFrom source.toList .start⟩, htokens⟩
    have hspells := hwhole.eq_spells
    rw [List.append_nil] at hspells
    exact hspells
  obtain ⟨tokens, s, hat', ho, hs, hrun⟩ := hps [] _ _ {} hat rfl
  rw [Parser.run_of_at_nil hat' (congrArg Parser.Outline.frames ho)] at hrun
  have hparse : parse input source = ⟨s.nodes, (tokenize source).errors ++ s.errors⟩ := by
    unfold parse parseTokens?
    simp only [hrun, Option.map_some]
  rw [hparse]
  refine ⟨?_, congrArg Parser.Outline.nodes ho⟩
  rw [hs]
  exact List.append_eq_nil_iff.2 ⟨herrors, rfl⟩

end ClassRules
