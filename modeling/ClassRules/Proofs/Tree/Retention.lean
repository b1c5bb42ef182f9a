import ClassRules.Proofs.Sheet.Read
import ClassRules.Proofs.Sheet.Trees
import ClassRules.Proofs.Token.Shape
import ClassRules.Proofs.Tree.Field
import ClassRules.Proofs.Tree.Significant

/-!
# What reading keeps

Reading a text and printing what was read keep all its characters but white space and semicolons.
Only the marks of important declarations, which may be in letters of any case, come back in small
letters.

## What this module delivers

- `Parser.Stands`: tokens on a text that have the characters of their kinds.
- `Parser.EndsWith`, `Stands.exists_end`: how the statement before some tokens ends.
- `spelledMark`: the mark of an important declaration as its text has it.
- `step_keeps`, `run_keeps`: what the parser reads is in the trees, unless it notes an error.
- `Sheet.significant_print`: the significant characters of a text and of what is printed for it.
-/

set_option autoImplicit false

namespace ClassRules

open Text ClassRules.Tree

namespace Parser

/-! ## Tokens on a text, with their characters -/

/-- Tokens at the end of a text that have the characters of their kinds and end where these do. -/
structure Stands (cx : Context) (ts : List Token) (ps : List BareToken) : Prop
    extends At cx ts ps where
  wide : ∀ t ∈ ts, t.IsWide
  shaped : ∀ p ∈ ps, p.IsShaped

variable {cx : Context} {tokens piece rest : List Token} {p : BareToken} {ps qs us : List BareToken}
  {s t : State}

namespace Stands

theorem split (h : Stands cx tokens (ps ++ us)) :
    ∃ piece rest, tokens = piece ++ rest ∧ piece.map Token.bare = ps ∧ Stands cx rest us ∧
      cx.textOf? piece rest = some (trim (spells ps)) := by
  obtain ⟨piece, rest, rfl, hpiece, hat, htext⟩ := h.toAt.split
  refine ⟨piece, rest, rfl, hpiece, ⟨hat, ?_, ?_⟩, htext⟩
  · exact fun t ht => h.wide t (List.mem_append_right _ ht)
  · exact fun q hq => h.shaped q (List.mem_append_right _ hq)

theorem token (h : Stands cx tokens (p :: us)) :
    ∃ t rest, tokens = t :: rest ∧ t.bare = p ∧ Stands cx rest us := by
  have h' : Stands cx tokens ([p] ++ us) := h
  obtain ⟨piece, rest, rfl, hpiece, hrest, -⟩ := h'.split
  obtain ⟨t, ts, rfl, rfl, hts⟩ := List.map_eq_cons_iff.1 hpiece
  rw [List.map_eq_nil_iff.1 hts]
  exact ⟨t, rest, rfl, rfl, hrest⟩

/-- What some of the tokens spell is their text, and the others stand behind it. -/
theorem divide (h : Stands cx (piece ++ rest) (piece.map Token.bare ++ us)) :
    Stands cx rest us ∧ cx.textOf? piece rest = some (trim (spells (piece.map Token.bare))) := by
  obtain ⟨piece', rest', heq, hpiece, hrest, htext⟩ := h.split
  have hlen : piece.length = piece'.length := by
    have hlen := congrArg List.length hpiece
    rw [List.length_map, List.length_map] at hlen
    exact hlen.symm
  obtain ⟨rfl, rfl⟩ := List.append_inj heq hlen
  exact ⟨hrest, htext⟩

/-- The mark of the end is all that stands behind the last token. -/
theorem nil (h : Stands cx tokens []) : ∃ t, tokens = [t] ∧ t.kind = .stop := by
  obtain ⟨t, ts, rfl, ht, hts⟩ := List.map_eq_cons_iff.1 h.tokens
  rw [List.map_eq_nil_iff.1 hts]
  exact ⟨t, rfl, congrArg BareToken.kind ht⟩

theorem eq_nil {token : Token} (h : Stands cx (token :: rest) ps) (hstop : token.kind = .stop) :
    ps = [] := by
  cases ps with
  | nil => rfl
  | cons p us =>
    obtain ⟨_, _, hcons, rfl, -⟩ := h.token
    obtain ⟨rfl, rfl⟩ := List.cons.inj hcons
    have hshaped := h.shaped token.bare List.mem_cons_self
    rw [BareToken.IsShaped, show token.bare.kind = .stop from hstop] at hshaped
    exact hshaped.elim

theorem exists_cons {token : Token} (h : Stands cx (token :: rest) ps)
    (hstop : token.kind ≠ .stop) : ∃ us, ps = token.bare :: us := by
  cases ps with
  | nil =>
    obtain ⟨_, hcons, hkind⟩ := h.nil
    obtain ⟨rfl, rfl⟩ := List.cons.inj hcons
    exact absurd hkind hstop
  | cons p us =>
    obtain ⟨_, _, hcons, rfl, -⟩ := h.token
    obtain ⟨rfl, rfl⟩ := List.cons.inj hcons
    exact ⟨us, rfl⟩

/-- What lies between the start of the first of some tokens and the end of the last one is what they
spell. -/
theorem slice_eq {e : Token} (h : Stands cx (piece ++ rest) ps) (he : piece.getLast? = some e) :
    slice? cx.source (cx.startOf piece).byte e.span.stop.byte =
      some (spells (piece.map Token.bare)) := by
  obtain ⟨before, hsource, hlies⟩ := h.place
  obtain ⟨front, rfl⟩ := List.getLast?_eq_some_iff.1 he
  have hspells : spells ps = spells ((front ++ [e]).map Token.bare) ++
      spells (rest.map Token.bare) := by
    have htokens := congrArg spells h.tokens
    rw [List.map_append, spells_append, spells_append] at htokens
    simpa using htokens.symm
  have hstart : (cx.startOf (front ++ [e])).byte = byteLength before := by
    cases front with
    | nil => exact hlies.1
    | cons t front => exact hlies.1
  have hearlier : ∀ {byte : Nat} (l : List Token), Lies byte (l ++ rest) → Lies byte l := by
    intro byte l hl
    induction l generalizing byte with
    | nil => trivial
    | cons t l ih => exact ⟨hl.1, ih hl.2⟩
  have hstop := stop_of_lies (fun u hu => h.wide u (List.mem_append_left _ hu)) (hearlier _ hlies)
  rw [hstart, hstop, hsource, hspells, ← List.append_assoc]
  exact slice?_append _ _ _

end Stands

/-- What stands behind a statement: the brace of its block, its semicolon, or what does not belong
to it any more. -/
inductive EndsWith (cx : Context) : List Token → List BareToken → Prop where
  | block {e : Token} {rest : List Token} {us : List BareToken} :
    e.bare = ⟨.openBrace, ['{']⟩ → Stands cx rest us → EndsWith cx (e :: rest) (e.bare :: us)
  | mark {e : Token} {rest : List Token} {us : List BareToken} :
    e.bare = ⟨.semicolon, [';']⟩ → Stands cx rest us → EndsWith cx (e :: rest) (e.bare :: us)
  | none {rest : List Token} {us : List BareToken} :
    Ending.ofTokens rest = .none → Stands cx rest us → EndsWith cx rest us

theorem ofTokens_of_openBrace {e : Token} (h : e.bare = ⟨.openBrace, ['{']⟩) (rest : List Token) :
    Ending.ofTokens (e :: rest) = .block e := by
  have hkind : e.kind = .openBrace := congrArg BareToken.kind h
  rw [Ending.ofTokens, hkind]

theorem ofTokens_of_semicolon {e : Token} (h : e.bare = ⟨.semicolon, [';']⟩) (rest : List Token) :
    Ending.ofTokens (e :: rest) = .mark e := by
  have hkind : e.kind = .semicolon := congrArg BareToken.kind h
  rw [Ending.ofTokens, hkind]

/-- A token that ends a statement stands behind it. -/
theorem Stands.endsWith (h : Stands cx tokens ps) (depth : Nat)
    (hends : ∀ t ∈ tokens.head?, endsStatement depth t.kind = true) : EndsWith cx tokens ps := by
  cases ps with
  | nil =>
    obtain ⟨t, rfl, hkind⟩ := h.nil
    refine .none ?_ h
    rw [Ending.ofTokens, hkind]
  | cons p us =>
    obtain ⟨t, rest, rfl, rfl, hrest⟩ := h.token
    have hend := hends t rfl
    have hshaped := h.shaped t.bare List.mem_cons_self
    have hbare : t.bare = ⟨t.kind, t.text.toList⟩ := rfl
    unfold BareToken.IsShaped at hshaped
    cases hkind : t.kind with
    | openBrace =>
      rw [hbare, hkind] at hshaped
      exact .block (by rw [hbare, hkind]; exact congrArg _ hshaped) hrest
    | semicolon =>
      rw [hbare, hkind] at hshaped
      exact .mark (by rw [hbare, hkind]; exact congrArg _ hshaped) hrest
    | closeBrace => exact .none (by rw [Ending.ofTokens, hkind]) h
    | stop =>
      rw [hbare, hkind] at hshaped
      exact hshaped.elim
    | _ => rw [hkind] at hend; cases hend

/-- The search for the end of a statement finds one. -/
theorem Stands.exists_end (depth : Nat) (h : Stands cx tokens ps) :
    ∃ piece rest us, tokens = piece ++ rest ∧ ps = piece.map Token.bare ++ us ∧
      statementLength depth tokens = piece.length ∧ EndsWith cx rest us := by
  induction ps generalizing depth tokens with
  | nil =>
    obtain ⟨t, rfl, hkind⟩ := h.nil
    refine ⟨[], [t], [], rfl, rfl, ?_, h.endsWith depth ?_⟩
    · rw [statementLength, hkind]
      rfl
    · rintro _ ⟨⟩
      rw [hkind]
      rfl
  | cons p us ih =>
    obtain ⟨t, rest, rfl, rfl, hrest⟩ := h.token
    by_cases hend : endsStatement depth t.kind = true
    · refine ⟨[], t :: rest, t.bare :: us, rfl, rfl, ?_, h.endsWith depth ?_⟩
      · rw [statementLength, if_pos hend]
        rfl
      · rintro _ ⟨⟩
        exact hend
    · obtain ⟨piece, rest', us', rfl, rfl, hlen, hends⟩ := ih (depthAfter depth t.kind) hrest
      refine ⟨t :: piece, rest', us', rfl, rfl, ?_, hends⟩
      rw [statementLength, if_neg hend, hlen, List.length_cons]

/-! ## Marks of important declarations -/

/-- A value ends with the mark, in letters of any case, or it is kept. -/
theorem splitImportant?_cases (value : List Char) :
    splitImportant? value = some (value, false) ∨
      ∃ front m, value = front ++ m ∧ m.map Char.toLower = importantMark ∧
        splitImportant? value = some (trimEnd front, true) := by
  by_cases hmark : importantMark <:+ value.map Char.toLower
  · obtain ⟨small, hsmall⟩ := hmark
    obtain ⟨front, m, rfl, rfl, hm⟩ := List.map_eq_append_iff.1 hsmall.symm
    refine .inr ⟨front, m, rfl, hm, ?_⟩
    have hlen : m.length = importantMark.length := by rw [← hm, List.length_map]
    rw [splitImportant?_eq, withoutMark, ← hsmall,
      if_pos (List.isSuffixOf_iff_suffix.2 (List.suffix_append _ _)), ← hlen, List.length_append,
      Nat.add_sub_cancel, List.take_left]
  · exact .inl (splitImportant?_of_not_suffix hmark)

/-- The mark of an important declaration as the text has it: the last significant characters of the
declaration. -/
def spelledMark (text : List Char) (source : Option Source) : List Char :=
  let cs := source.bind fun s => slice? text s.span.start.byte s.span.stop.byte
  let cs := significant (cs.getD [])
  let m := cs.drop (cs.length - importantMark.length)
  if m.map Char.toLower = importantMark then m else importantMark

theorem toLower_spelledMark (text : List Char) (source : Option Source) :
    (spelledMark text source).map Char.toLower = importantMark := by
  rw [spelledMark]
  split
  · assumption
  · decide

theorem significant_importantMark : ∀ a ∈ importantMark, isSignificant a = true :=
  List.all_eq_true.1 (by decide)

theorem spelledMark_eq {text cs front m : List Char} {source : Source}
    (hslice : slice? text source.span.start.byte source.span.stop.byte = some cs)
    (hcs : significant cs = front ++ m) (hm : m.map Char.toLower = importantMark) :
    spelledMark text (some source) = m := by
  have hlen : m.length = importantMark.length := by rw [← hm, List.length_map]
  rw [spelledMark, Option.bind_some, hslice, Option.getD_some, hcs, List.length_append, hlen,
    Nat.add_sub_cancel, List.drop_left, if_pos hm]

/-! ## Steps -/

theorem State.Keeps.congr {mark : Option Source → List Char} {cs ds : List Char}
    (h : s.Keeps mark t cs) (hds : significant ds = significant cs) : s.Keeps mark t ds :=
  ⟨h.errors, h.blocks, fun hs hsame => by rw [h.characters hs hsame, hds]⟩

/-- Tokens are read, and what they spell is kept. The number is that of the tokens read from those
behind the first one. -/
def Retains (cx : Context) (rest : List Token) (ps : List BareToken) (s : State)
    (result : Option (State × Nat)) : Prop :=
  ∃ t n us cs, result = some (t, n) ∧ Stands cx (rest.drop n) us ∧ spells ps = cs ++ spells us ∧
    s.Keeps (spelledMark cx.source) t cs

theorem eq_of_isNameChar {name : List Char} (h : ∀ a ∈ name, Lexeme.isNameChar a = true) :
    ('@' :: name).dropWhile (· == '@') = name := by
  rw [List.dropWhile_cons_of_pos (by rfl)]
  cases name with
  | nil => rfl
  | cons a name =>
    refine List.dropWhile_cons_of_neg ?_
    rw [beq_iff_eq]
    rintro rfl
    exact absurd (h '@' List.mem_cons_self) (by decide)

theorem atRule?_keeps {token : Token} (h : Stands cx (token :: rest) (token.bare :: ps))
    (hkind : token.kind = .atKeyword) (s : State) :
    Retains cx rest (token.bare :: ps) s (atRule? cx token rest s) := by
  obtain ⟨name, hname, hchars⟩ : ∃ name, token.text.toList = '@' :: name ∧
      ∀ a ∈ name, Lexeme.isNameChar a = true := by
    have hshaped := h.shaped token.bare List.mem_cons_self
    rw [BareToken.IsShaped, show token.bare.kind = .atKeyword from hkind] at hshaped
    exact hshaped
  obtain ⟨_, _, hcons, -, hrest⟩ := h.token
  obtain ⟨rfl, rfl⟩ := List.cons.inj hcons
  obtain ⟨piece, behind, us, rfl, rfl, hlen, hends⟩ := hrest.exists_end 0
  have htext := hrest.divide.2
  -- The name is kept without its @, which the opening of the content puts there again.
  have hopening : ∀ body, (Content.atRule (String.ofList name)
      (String.ofList (trim (spells (piece.map Token.bare)))) body).opening =
        significant ('@' :: name ++ spells (piece.map Token.bare)) := by
    intro body
    rw [Content.opening, String.toList_ofList, String.toList_ofList, significant_trim,
      significant_append, significant_cons, if_pos (by decide)]
  have hleaf : ∀ source, (Tree.node (.atRule (String.ofList name)
      (String.ofList (trim (spells (piece.map Token.bare)))) false) source []).characters
        (spelledMark cx.source) = significant ('@' :: name ++ spells (piece.map Token.bare)) := by
    intro source
    rw [← hopening false, Tree.characters]
    exact List.append_nil _
  have hadd (tokens : List Token) :=
    ((State.Keeps.refl (spelledMark cx.source) s significant_nil).readTo tokens).add
      cx.input _ token.span.start (hleaf _)
  simp only [atRule?, hlen, List.take_left, List.drop_left, htext, hname, eq_of_isNameChar hchars]
  -- A brace is part of the opening, a semicolon is not significant, and an end spells nothing.
  cases hends with
  | @block e rest us he hafter =>
    rw [ofTokens_of_openBrace he]
    refine ⟨_, _, us, '@' :: name ++ spells (piece.map Token.bare) ++ ['{'], rfl, ?_, ?_, ?_⟩
    · rw [drop_length_succ]
      exact hafter
    · simp [he, show token.bare.chars = '@' :: name from hname]
    · refine .openBlock rfl _ _ ?_
      rw [hopening, significant_append _ ['{']]
      rfl
  | @mark e rest us he hafter =>
    rw [ofTokens_of_semicolon he]
    refine ⟨_, _, us, '@' :: name ++ spells (piece.map Token.bare) ++ [';'], rfl, ?_, ?_, ?_⟩
    · rw [drop_length_succ]
      exact hafter
    · simp [he, show token.bare.chars = '@' :: name from hname]
    · refine (hadd _).congr ?_
      rw [significant_append _ [';']]
      exact List.append_nil _
  | none hnone hafter =>
    rw [hnone]
    refine ⟨_, _, us, '@' :: name ++ spells (piece.map Token.bare), rfl, ?_, ?_, ?_⟩
    · rw [List.drop_left]
      exact hafter
    · simp [show token.bare.chars = '@' :: name from hname]
    · exact hadd _

/-! ### Declarations -/

/-- The state behind a declaration: a semicolon belongs to it, all other endings do not. -/
def State.readStatement (s : State) (piece rest : List Token) : State :=
  match Ending.ofTokens rest with
  | .mark semicolon => s.readTo (piece ++ [semicolon])
  | _ => s.readTo piece

/-- The source of a declaration has its characters. -/
theorem exists_slice_of_readStatement (h : Stands cx (piece ++ rest) (piece.map Token.bare ++ us))
    (hne : piece ≠ []) (hends : EndsWith cx rest us)
    (hblock : ∀ e, Ending.ofTokens rest ≠ .block e) (s : State) :
    ∃ cs, slice? cx.source (cx.startOf piece).byte (s.readStatement piece rest).last.byte =
        some cs ∧ significant cs = significant (spells (piece.map Token.bare)) := by
  cases hends with
  | @block e rest us he hafter => exact absurd (ofTokens_of_openBrace he rest) (hblock e)
  | @mark e rest us he hafter =>
    have hwhole : Stands cx ((piece ++ [e]) ++ rest) (piece.map Token.bare ++ e.bare :: us) := by
      rw [List.append_assoc]
      exact h
    have hslice := hwhole.slice_eq List.getLast?_concat
    have hstart : cx.startOf (piece ++ [e]) = cx.startOf piece := by
      obtain ⟨t, ts, rfl⟩ := List.exists_cons_of_ne_nil hne
      rfl
    have hlast : (s.readStatement piece (e :: rest)).last = e.span.stop := by
      rw [State.readStatement, ofTokens_of_semicolon he]
      simp only [State.readTo, List.getLast?_concat]
    refine ⟨_, by rw [hlast, ← hstart]; exact hslice, ?_⟩
    have hmark : significant [';'] = [] := by decide
    rw [List.map_append, spells_append, significant_append, List.map_singleton, he, spells_cons,
      spells_nil, List.append_nil, hmark, List.append_nil]
  | none hnone hafter =>
    have hend := List.getLast?_eq_some_getLast hne
    have hslice := h.slice_eq hend
    have hlast : (s.readStatement piece rest).last = (piece.getLast hne).span.stop := by
      rw [State.readStatement, hnone]
      simp only [State.readTo, hend]
    exact ⟨_, by rw [hlast]; exact hslice, rfl⟩

theorem exists_colon {i : Nat} (h : piece.findIdx? (·.kind == .colon) = some i) :
    ∃ property colon value, piece = property ++ colon :: value ∧ property.length = i ∧
      colon.kind = .colon := by
  obtain ⟨hi, hcolon, -⟩ := List.findIdx?_eq_some_iff_getElem.1 h
  have hlen := List.length_take_of_le (Nat.le_of_lt hi)
  refine ⟨piece.take i, piece[i], piece.drop (i + 1), ?_, hlen, ?_⟩
  · rw [List.getElem_cons_drop, List.take_append_drop]
  · exact beq_iff_eq.1 hcolon

section Colon

variable {property value : List Token} {colon : Token}
  (h : Stands cx ((property ++ colon :: value) ++ rest)
    ((property ++ colon :: value).map Token.bare ++ us))

include h

/-- A declaration stands there as its property, its colon and its value. -/
theorem Stands.of_colon : Stands cx (property ++ colon :: (value ++ rest))
    (property.map Token.bare ++ colon.bare :: (value.map Token.bare ++ us)) := by
  simpa using h

theorem Stands.chars_of_colon (hkind : colon.kind = .colon) : colon.text.toList = [':'] := by
  have hshaped := h.of_colon.divide.1.shaped colon.bare List.mem_cons_self
  rw [BareToken.IsShaped, show colon.bare.kind = .colon from hkind] at hshaped
  exact hshaped

/-- Its property and its value are what is spelled on both sides of the colon. -/
theorem Stands.declaration?_eq
    (hfind : (property ++ colon :: value).findIdx? (·.kind == .colon) = some property.length)
    (s : State) : declaration? cx (property ++ colon :: value) rest s =
      (splitImportant? (trim (spells (value.map Token.bare)))).bind fun v =>
        some ((s.readStatement (property ++ colon :: value) rest).add cx.input
          (.declaration (String.ofList (trim (spells (property.map Token.bare))))
            (String.ofList v.1) v.2) (cx.startOf (property ++ colon :: value))) := by
  obtain ⟨hcolon, hproperty⟩ := h.of_colon.divide
  obtain ⟨_, _, hcons, -, hvalue⟩ := hcolon.token
  obtain ⟨rfl, rfl⟩ := List.cons.inj hcons
  rw [textOf?_cons _ _ value] at hproperty
  simp only [declaration?, hfind, List.take_left, List.drop_left, drop_length_succ, hproperty,
    hvalue.divide.2, Option.bind_eq_bind, Option.bind_some]
  rfl

end Colon

/-- A declaration is kept, or its missing colon is an error. -/
theorem declaration?_keeps (h : Stands cx (piece ++ rest) (piece.map Token.bare ++ us))
    (hne : piece ≠ []) (hends : EndsWith cx rest us)
    (hblock : ∀ e, Ending.ofTokens rest ≠ .block e) (s : State) :
    ∃ t, declaration? cx piece rest s = some t ∧
      s.Keeps (spelledMark cx.source) t (spells (piece.map Token.bare)) := by
  have hread : s.Keeps (spelledMark cx.source) (s.readStatement piece rest) [] := by
    unfold State.readStatement
    split
    · exact (State.Keeps.refl _ s significant_nil).readTo _
    · exact (State.Keeps.refl _ s significant_nil).readTo _
  obtain ⟨whole, hslice, hwhole⟩ := exists_slice_of_readStatement h hne hends hblock s
  cases hfind : piece.findIdx? (·.kind == .colon) with
  | none =>
    refine ⟨(s.readStatement piece rest).report
      (.missingColon (String.ofList (trim (spells (piece.map Token.bare)))))
      ⟨cx.startOf piece, cx.startOf rest⟩, ?_, .report hread.errors hread.blocks _ _ _⟩
    simp only [declaration?, hfind, h.divide.2, Option.bind_eq_bind, Option.bind_some]
    rfl
  | some i =>
    obtain ⟨property, colon, value, rfl, rfl, hkind⟩ := exists_colon hfind
    have hchars := h.chars_of_colon hkind
    rw [h.declaration?_eq hfind]
    have hmark : significant [':'] = [':'] := by decide
    have hspells : spells ((property ++ colon :: value).map Token.bare) =
        spells (property.map Token.bare) ++ [':'] ++ spells (value.map Token.bare) := by
      simp [show colon.bare.chars = [':'] from hchars]
    rw [hspells, significant_append, significant_append, hmark] at hwhole
    rw [hspells]
    rcases splitImportant?_cases (trim (spells (value.map Token.bare))) with
      hplain | ⟨front, m, htrim, hm, himportant⟩
    · rw [hplain]
      refine ⟨_, rfl, hread.add _ _ _ ?_⟩
      rw [Tree.characters, significant_append, significant_append, hmark]
      simp [significant_trim]
    · rw [himportant]
      refine ⟨_, rfl, hread.add _ _ _ ?_⟩
      -- The value has lost the mark, but the source of the declaration still ends with it.
      have hself : significant m = m :=
        significant_of_toLower (hm ▸ significant_importantMark)
      have hvalue : significant (spells (value.map Token.bare)) = significant front ++ m := by
        rw [← significant_trim, htrim, significant_append, hself]
      rw [hvalue, ← List.append_assoc] at hwhole
      rw [Tree.characters, if_pos rfl, spelledMark_eq hslice hwhole hm, significant_append,
        significant_append, hmark, hvalue]
      simp [significant_trim, significant_trimEnd]

/-! ### All statements -/

/-- A rule is opened, or a declaration read. -/
theorem statement?_keeps {token : Token} (h : Stands cx (token :: rest) (token.bare :: ps))
    (s : State) : Retains cx rest (token.bare :: ps) s (statement? cx token rest s) := by
  obtain ⟨_, _, hcons, -, hrest⟩ := h.token
  obtain ⟨rfl, rfl⟩ := List.cons.inj hcons
  rw [statement?]
  split
  · rename_i hkind
    have hchars : token.bare.chars = ['{'] := by
      have hshaped := h.shaped token.bare List.mem_cons_self
      rw [BareToken.IsShaped, show token.bare.kind = .openBrace from hkind] at hshaped
      exact hshaped
    refine ⟨_, 0, ps, ['{'], rfl, hrest, ?_, .openBlock rfl _ _ (by decide)⟩
    rw [spells_cons, hchars]
  · obtain ⟨piece, behind, us, rfl, rfl, hlen, hends⟩ :=
      hrest.exists_end (depthAfter 0 token.kind)
    have hwhole : Stands cx ((token :: piece) ++ behind)
        ((token :: piece).map Token.bare ++ us) := h
    dsimp only
    rw [hlen, List.take_left, List.drop_left]
    cases hends with
    | @block e rest us he hafter =>
      rw [ofTokens_of_openBrace he]
      simp only [hwhole.divide.2, Option.bind_eq_bind, Option.bind_some]
      refine ⟨_, _, us, spells ((token :: piece).map Token.bare) ++ ['{'], rfl, ?_, ?_, ?_⟩
      · rw [drop_length_succ]
        exact hafter
      · simp [he]
      · refine .openBlock rfl _ _ ?_
        rw [Content.opening, String.toList_ofList, significant_trim, significant_append]
        rfl
    | @mark e rest us he hafter =>
      have hmark : EndsWith cx (e :: rest) (e.bare :: us) := .mark he hafter
      rw [ofTokens_of_semicolon he]
      obtain ⟨t, hdecl, hkeeps⟩ := declaration?_keeps hwhole (List.cons_ne_nil _ _) hmark
        (fun b hb => by rw [ofTokens_of_semicolon he] at hb; cases hb) s
      simp only [hdecl, Option.bind_eq_bind, Option.bind_some]
      refine ⟨t, _, us, spells ((token :: piece).map Token.bare) ++ [';'], rfl, ?_, ?_, ?_⟩
      · rw [Ending.length, drop_length_succ]
        exact hafter
      · simp [he]
      · refine hkeeps.congr ?_
        rw [significant_append]
        exact List.append_nil _
    | none hnone hafter =>
      obtain ⟨t, hdecl, hkeeps⟩ := declaration?_keeps hwhole (List.cons_ne_nil _ _)
        (.none hnone hafter) (fun b hb => by rw [hnone] at hb; cases hb) s
      rw [hnone]
      simp only [hdecl, Option.bind_eq_bind, Option.bind_some]
      refine ⟨t, _, us, spells ((token :: piece).map Token.bare), rfl, ?_, ?_, hkeeps⟩
      · rw [Ending.length, Nat.add_zero, List.drop_left]
        exact hafter
      · simp

theorem commentText_eq {text : List Char} {token : Token}
    (h : token.text.toList = '/' :: '*' :: text ++ ['*', '/']) :
    commentText token.text = String.ofList (trim text) := by
  have hclose : ['*', '/'].isSuffixOf (text ++ ['*', '/']) = true :=
    List.isSuffixOf_iff_suffix.2 (List.suffix_append _ _)
  have hopen : ['/', '*'].isPrefixOf ('/' :: '*' :: text ++ ['*', '/']) = true :=
    List.isPrefixOf_iff_prefix.2 (List.prefix_append ['/', '*'] _)
  have hdrop : ('/' :: '*' :: text ++ ['*', '/']).drop 2 = text ++ ['*', '/'] := rfl
  rw [commentText, h]
  simp only [hopen, if_true, hdrop, hclose, List.length_append, List.length_cons, List.length_nil,
    Nat.add_sub_cancel, List.take_left]

/-- Every token but the mark of the end starts something that is kept. -/
theorem step_keeps {token : Token} (h : Stands cx (token :: rest) (token.bare :: ps)) (s : State) :
    Retains cx rest (token.bare :: ps) s (step cx token rest s) := by
  obtain ⟨_, _, hcons, -, hrest⟩ := h.token
  obtain ⟨rfl, rfl⟩ := List.cons.inj hcons
  have hshaped := h.shaped token.bare List.mem_cons_self
  have hread := (State.Keeps.refl (spelledMark cx.source) s significant_nil).readTo [token]
  -- A token that is read alone is kept if its own characters are.
  have hone {t : State} (ht : s.Keeps (spelledMark cx.source) t token.bare.chars) :
      Retains cx rest (token.bare :: ps) s (some (t, 0)) :=
    ⟨t, 0, ps, _, rfl, hrest, rfl, ht⟩
  have hbare : token.bare.kind = token.kind := rfl
  rw [step]
  cases hkind : token.kind with
  | blank =>
    rw [BareToken.IsShaped, hbare, hkind] at hshaped
    exact hone (hread.congr (significant_of_blank hshaped))
  | semicolon =>
    rw [BareToken.IsShaped, hbare, hkind] at hshaped
    refine hone (hread.congr ?_)
    rw [show token.bare.chars = [';'] from hshaped]
    decide
  | closeBrace =>
    rw [BareToken.IsShaped, hbare, hkind] at hshaped
    refine hone (.closeBlock cx.input token ?_)
    rw [show token.bare.chars = ['}'] from hshaped]
    decide
  | comment =>
    rw [BareToken.IsShaped, hbare, hkind] at hshaped
    obtain ⟨text, htext⟩ := hshaped
    refine hone (hread.add _ _ _ ?_)
    have hopen : significant ['/', '*'] = ['/', '*'] := by decide
    have hclose : significant ['*', '/'] = ['*', '/'] := by decide
    have hsplit : '/' :: '*' :: text ++ ['*', '/'] = ['/', '*'] ++ text ++ ['*', '/'] := rfl
    rw [Tree.characters, commentText_eq htext, htext, hsplit, significant_append,
      significant_append, hopen, hclose, String.toList_ofList, significant_trim]
    rfl
  | atKeyword => exact atRule?_keeps h hkind s
  | _ => exact statement?_keeps h s

/-! ## Runs -/

/-- The tokens of a text are read to their end. Without an error no block is left open, and all that
the tokens spell is in the trees. -/
theorem run_keeps (tokens : List Token) (s : State) (h : Stands cx tokens ps) :
    ∃ t, run cx tokens s = some t ∧ s.errors <+: t.errors ∧
      (s.Blocks → t.errors = s.errors → charactersIn (spelledMark cx.source) t.nodes =
        s.characters (spelledMark cx.source) ++ significant (spells ps)) := by
  fun_induction run cx tokens s generalizing ps with
  | case1 s =>
    have hnil : [] = ps ++ [(⟨.stop, []⟩ : BareToken)] := h.tokens
    exact absurd (List.nil_eq_append_iff.1 hnil).2 (List.cons_ne_nil _ _)
  | case2 s token rest hstop =>
    obtain ⟨hearlier, hframes⟩ := s.frames_of_closeAll cx.input s.frames
    refine ⟨_, rfl, hearlier, fun _ hsame => ?_⟩
    rw [State.characters, hframes hsame, h.eq_nil hstop]
    exact (List.append_nil _).symm
  | case3 s token rest hstop u n hstep ih =>
    obtain ⟨us, rfl⟩ := h.exists_cons hstop
    obtain ⟨_, _, vs, cs, hread, hbehind, hspells, hkeeps⟩ := step_keeps h s
    obtain ⟨rfl, rfl⟩ := Prod.mk.inj (Option.some.inj (hstep.symm.trans hread))
    obtain ⟨t, hrun, hearlier, hcharacters⟩ := ih hbehind
    refine ⟨t, hrun, hkeeps.errors.trans hearlier, fun hblocks hsame => ?_⟩
    -- Errors are only added, so the step has noted none.
    have hmid : u.errors = s.errors :=
      (hkeeps.errors.eq_of_length_le (hsame ▸ hearlier.length_le)).symm
    rw [hcharacters (hkeeps.blocks hblocks) (hsame.trans hmid.symm),
      hkeeps.characters hblocks hmid, hspells, significant_append, List.append_assoc]
  | case4 s token rest hstop hstep =>
    obtain ⟨us, rfl⟩ := h.exists_cons hstop
    obtain ⟨_, _, _, _, hread, -⟩ := step_keeps h s
    rw [hstep] at hread
    cases hread

end Parser

/-! ## Texts -/

/-- A text without errors is in its trees, up to the case of the marks of important
declarations. -/
theorem significant_parse {source : String} (input : InputId)
    (h : (parse input source).errors = []) :
    charactersIn (Parser.spelledMark source.toList) (parse input source).nodes =
      significant source.toList := by
  have hlexed : (tokenize source).errors = [] := by
    unfold parse at h
    dsimp only at h
    split at h
    · exact (List.append_eq_nil_iff.1 h).1
    · exact h
  obtain ⟨ps, hcut, htokens⟩ := cut_of_tokensFrom source.toList .start hlexed
  have hspells : source.toList = spells ps := by
    have hspells := hcut.eq_spells
    rwa [List.append_nil] at hspells
  have hstands : Parser.Stands ⟨source.toList, input⟩ (tokenize source).tokens ps := by
    refine ⟨⟨⟨[], hspells, ?_⟩, htokens⟩, ?_, hcut.shaped⟩
    · exact lies_tokensFrom source.toList .start
    · exact isWide_tokensFrom source.toList .start
  obtain ⟨t, hrun, -, hcharacters⟩ := Parser.run_keeps _ {} hstands
  have hparse : parse input source = ⟨t.nodes, (tokenize source).errors ++ t.errors⟩ := by
    unfold parse parseTokens?
    simp only [hrun, Option.map_some]
  rw [hparse] at h ⊢
  rw [hcharacters (fun f hf => absurd hf List.not_mem_nil) (List.append_eq_nil_iff.1 h).2,
    ← hspells]
  rfl

namespace Sheet

/-- Parsing and printing keep all characters but white space and semicolons. A text that is read
without errors and what is printed for it have the significant characters of the same trees, where
the marks of important declarations are in letters of some case and in small letters. -/
theorem significant_print (input : Input) (text : String)
    (h : (empty.addText input text).1 = []) :
    ∃ mark : Option Source → List Char,
      (∀ source, (mark source).map Char.toLower = Parser.importantMark) ∧
        significant text.toList = charactersIn mark (empty.addText input text).2.forest ∧
        significant (empty.addText input text).2.print.toList =
          charactersIn (fun _ => Parser.importantMark) (empty.addText input text).2.forest := by
  have hempty : (empty.addInput input).2.IsSound := isSound_empty.withInputs _
  have hforest : (empty.addText input text).2.forest = (parse ⟨0⟩ text).nodes :=
    hempty.forest_addForest _
  refine ⟨Parser.spelledMark text.toList, Parser.toLower_spelledMark _, ?_, ?_⟩
  · rw [hforest]
    exact (significant_parse ⟨0⟩ h).symm
  · rw [(addText_sound isSound_empty isWhole_empty input text).1.print_eq,
      significant_renderForest]

/-- A block in a block, a comment between words, semicolons of all sorts, and a mark in capitals. -/
theorem significant_print_media :
    let text := "@media (a; b) \x7b;.a /* c */ b\x7bcolor : red!IMPORTANT\x7d\x7d"
    let s := empty.addText (.anonymous 1) text
    s.1 = [] ∧ ∃ mark : Option Source → List Char,
      (∀ source, (mark source).map Char.toLower = Parser.importantMark) ∧
        significant text.toList = charactersIn mark s.2.forest ∧
        significant s.2.print.toList =
          charactersIn (fun _ => Parser.importantMark) s.2.forest := by
  intro text s
  have h : s.1 = [] := by decide +kernel
  exact ⟨h, significant_print (.anonymous 1) text h⟩

end Sheet

end ClassRules
