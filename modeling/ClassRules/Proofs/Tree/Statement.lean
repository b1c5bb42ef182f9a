import ClassRules.Proofs.Tree.Field

/-!
# Printed statements

## What this module delivers

- `Parser.Reads.pad`: white space before a statement does not matter.
- `Parser.Reads.comment`, `atRule`, `declaration`: a comment or statement without a block is read as
  the node that it was printed from.
- `Parser.Reads.rule_open`, `rule_open_nil`, `atRule_open`, `close`: the opening of a block is read
  as the opening of that node's block, and a closing brace as its end.
-/

set_option autoImplicit false

namespace ClassRules.Parser

open Text

/-- A comment's text is what stands between its marks, without the spaces around it. -/
theorem commentText_printed {text : List Char} (h : IsTrimmed text) :
    commentText (String.ofList ('/' :: ('*' :: ' ' :: text ++ [' ', '*', '/']))) =
      String.ofList text := by
  have hsplit : ' ' :: text ++ [' ', '*', '/'] = ([' '] ++ text ++ [' ']) ++ ['*', '/'] := by
    simp only [List.cons_append, List.append_assoc, List.nil_append]
  have hopen : ['/', '*'].isPrefixOf ('/' :: ('*' :: ' ' :: text ++ [' ', '*', '/'])) = true := rfl
  have hclose : ['*', '/'].isSuffixOf (([' '] ++ text ++ [' ']) ++ ['*', '/']) = true :=
    List.isSuffixOf_iff_suffix.2 (List.suffix_append _ _)
  rw [commentText, String.toList_ofList, if_pos hopen, List.cons_append, List.drop_succ_cons,
    List.drop_succ_cons, List.drop_zero, hsplit, if_pos hclose, List.length_append,
    List.length_cons, List.length_singleton, Nat.add_sub_cancel, List.take_left,
    h.trim_pad blank_of_mem_space blank_of_mem_space]

namespace Reads

variable {lead cs : List Char} {name params selector property value : String} {important : Bool}
  {d : Nat} {o o' : Outline}

/-- White space before a statement does not matter. -/
theorem pad {c : Char} (h : Reads (c :: cs) o o') (hlead : ∀ a ∈ lead, isBlank a = true)
    (hc : isBlank c = false) : Reads (lead ++ c :: cs) o o' := by
  obtain ⟨ps, hcut, hps⟩ := h
  refine ⟨blankRun lead ++ ps, ?_, (Consumes.blankRun lead o).trans hps⟩
  intro rest
  rw [List.append_assoc]
  exact (Cut.blanks_cons hlead hc _).append (hcut rest)

/-- A brace behind the nodes of a block. -/
theorem close (content : Content) (before nodes : List Tree)
    (frames : List (Content × List Tree)) :
    Reads ['}'] ⟨(content, before) :: frames, nodes⟩
      ((⟨frames, before⟩ : Outline).add content nodes) :=
  ⟨_, fun rest => Cut.punctuation rfl rest, Consumes.close _ content before nodes frames⟩

/-- A comment. -/
theorem comment {text : List Char} (htext : IsTrimmed text) (hclose : ¬ ['*', '/'] <:+: text)
    (o : Outline) :
    Reads ('/' :: ('*' :: ' ' :: text ++ [' ', '*', '/'])) o
      (o.add (.comment (String.ofList text)) []) := by
  refine ⟨_, fun rest => Cut.comment hclose rest, ?_⟩
  have hconsumes := Consumes.comment ('/' :: ('*' :: ' ' :: text ++ [' ', '*', '/'])) o
  rw [commentText_printed htext] at hconsumes
  exact hconsumes

/-- The brace of a rule without a selector, behind white space. -/
theorem rule_open_nil (hlead : ∀ a ∈ lead, isBlank a = true) (o : Outline) :
    Reads (lead ++ ['{']) o (o.openBlock (.rule "")) := by
  refine ⟨blankRun lead ++ [⟨.openBrace, ['{']⟩], ?_,
    (Consumes.blankRun lead o).trans (Consumes.openBrace _ o)⟩
  intro rest
  rw [List.append_assoc]
  exact (Cut.blanks_cons hlead (by decide) rest).append (Cut.punctuation rfl rest)

/-- A selector before its block. -/
theorem rule_open (h : IsField selector) (hne : selector.toList ≠ [])
    (hstart : StartsStatement selector) (hd : depthBehind? 0 (fieldKinds selector) = some d) :
    Reads (selector.toList ++ [' ', '{']) o (o.openBlock (.rule selector)) := by
  obtain ⟨ps, hps⟩ := h.exists_tokens
  cases ps with
  | nil => exact absurd hps.spells.symm hne
  | cons p ps =>
    have hp : p.kind.startsStatement = true := hps.startsStatement hstart hd p rfl
    rw [← hps.kinds] at hd
    have hd' : depthBehind? 0 ((p :: (ps ++ [⟨.blank, [' ']⟩])).map BareToken.kind) = some d := by
      rw [← List.cons_append, List.map_append]
      exact depthBehind?_append_blank hd
    have htext : trim (spells (p :: (ps ++ [⟨.blank, [' ']⟩]))) = selector.toList := by
      rw [← List.cons_append, spells_append, hps.spells]
      exact h.trimmed.trim_append blank_of_mem_space
    have hconsumes := Consumes.rule_open hp hd' ['{'] o
    rw [htext, String.ofList_toList] at hconsumes
    refine ⟨_, ?_, hconsumes⟩
    intro rest
    have hcut := (hps.cut (' ' :: '{' :: rest) (delimits_space _)).append (cut_space_brace rest)
    simp only [List.cons_append, List.append_assoc, List.nil_append] at hcut ⊢
    exact hcut

/-- An at-rule before its block. -/
theorem atRule_open (hname : IsName name) (h : IsField params)
    (hd : depthBehind? 0 (fieldKinds params) = some d) :
    Reads ('@' :: name.toList ++ paramsText params ++ [' ', '{']) o
      (o.openBlock (.atRule name params true)) := by
  obtain ⟨ps, hps⟩ := exists_paramsTokens h
  have hd' : depthBehind? 0 (List.map BareToken.kind (ps ++ [⟨.blank, [' ']⟩])) = some d := by
    rw [List.map_append]
    exact depthBehind?_append_blank (hps.depth.trans hd)
  have htext : trim (spells (ps ++ [⟨.blank, [' ']⟩])) = params.toList := by
    rw [spells_append]
    exact hps.text _ blank_of_mem_space
  have hconsumes := Consumes.atRule_open hd' ('@' :: name.toList) ['{'] o
  rw [dropWhile_at hname, htext, String.ofList_toList] at hconsumes
  refine ⟨_, ?_, hconsumes⟩
  intro rest
  have hd : Delimits (' ' :: '{' :: rest) := delimits_space _
  have hcut := (Cut.atKeyword hname.1 (List.all_eq_true.1 hname.2) (hps.delimits _ hd)).append
    ((hps.cut _ hd).append (cut_space_brace rest))
  simp only [List.cons_append, List.append_assoc, List.nil_append] at hcut ⊢
  exact hcut

/-- An at-rule without a block. -/
theorem atRule (hname : IsName name) (h : IsField params)
    (hd : depthBehind? 0 (fieldKinds params) = some 0) :
    Reads ('@' :: name.toList ++ paramsText params ++ [';']) o
      (o.add (.atRule name params false) []) := by
  obtain ⟨ps, hps⟩ := exists_paramsTokens h
  have hconsumes := Consumes.atRule (hps.depth.trans hd) ('@' :: name.toList) [';'] o
  have htext := hps.text [] fun a ha => absurd ha List.not_mem_nil
  rw [List.append_nil] at htext
  rw [dropWhile_at hname, htext, String.ofList_toList] at hconsumes
  refine ⟨_, ?_, hconsumes⟩
  intro rest
  have hd : Delimits (';' :: rest) := delimits_semicolon _
  have hcut := (Cut.atKeyword hname.1 (List.all_eq_true.1 hname.2) (hps.delimits _ hd)).append
    ((hps.cut _ hd).append (Cut.punctuation rfl rest))
  simp only [List.cons_append, List.append_assoc, List.nil_append] at hcut ⊢
  exact hcut

/-- A declaration. -/
theorem declaration (h : IsField property) (h' : IsField value)
    (hstart : StartsStatement property)
    (hcolon : ∀ k ∈ fieldKinds property, k ≠ .colon)
    (hd : depthBehind? 0 (fieldKinds property ++ fieldKinds value) = some 0)
    (himportant : important = false → ¬ importantMark <:+ value.toList.map Char.toLower) :
    Reads (property.toList ++ ':' :: valueText value important ++ [';']) o
      (o.add (.declaration property value important) []) := by
  obtain ⟨ps, hps⟩ := h.exists_tokens
  obtain ⟨vs, hvs⟩ : ∃ vs, ValueTokens value important vs := by
    cases important with
    | true => exact exists_valueTokens_important h'
    | false => exact exists_valueTokens_plain h' (himportant rfl)
  rw [depthBehind?_append] at hd
  obtain ⟨d, hdproperty, hdvalue⟩ := Option.bind_eq_some_iff.1 hd
  have hfirst := hps.startsStatement hstart hdproperty
  rw [← hps.kinds] at hcolon hdproperty
  -- The colon opens and closes nothing, so the value goes on at the depth of the property.
  have hd' : depthBehind? 0 ((ps ++ ⟨.colon, [':']⟩ :: vs).map BareToken.kind) = some 0 := by
    rw [List.map_append, depthBehind?_append, hdproperty]
    exact (hvs.depth d).trans hdvalue
  have hplain : ∀ p ∈ ps, p.kind ≠ .colon := fun p hp => hcolon _ (List.mem_map_of_mem hp)
  have hconsumes := Consumes.declaration hfirst hplain hd' hvs.text [';'] o
  have htext : trim (spells ps) = property.toList := by
    rw [hps.spells]
    exact h.trimmed
  rw [htext, String.ofList_toList, String.ofList_toList] at hconsumes
  refine ⟨_, ?_, hconsumes⟩
  intro rest
  have hsemicolon : Cut (';' :: rest) [⟨.semicolon, [';']⟩] rest := Cut.punctuation rfl rest
  have hmark : Cut (':' :: (valueText value important ++ ';' :: rest)) [⟨.colon, [':']⟩]
      (valueText value important ++ ';' :: rest) := Cut.punctuation rfl _
  have hbehind := hmark.append ((hvs.cut rest).append hsemicolon)
  have hcut := (hps.cut _ (delimits_colon _)).append hbehind
  simp only [List.cons_append, List.append_assoc, List.nil_append] at hcut ⊢
  exact hcut

end Reads

end ClassRules.Parser
