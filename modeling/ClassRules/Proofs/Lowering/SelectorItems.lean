import ClassRules.Proofs.ItemList.TokenItems
import ClassRules.Proofs.Lowering.Misplaced

/-!
# Selectors with comments

A rule keeps the comments of its selector, and so does the rule for a state in it. Which selectors
a state is put on should be told from the tokens, where a comment is one whatever it says. It is
told from the characters, and a comment that says as little as an apostrophe can hide a comma.

## What this module delivers

- `sheetAfter`: what a run leaves behind. `exists_statesReplaced_sheetAfter`: states that come
  before any misplaced one are lowered there.
- `IsReadable`: a list of items that the scan of characters reads as the lexer does.
- `lowerStates_selector`: if the selector that a state is given and its params are readable, its
  rule has one selector for each item of the one and each item of the other.
- `lowerStates_selector_comment`: without that a selector can be left without its state.
-/

set_option autoImplicit false

namespace ClassRules.Lowering

open ItemList Sheet

variable {cx : Context}

/-- The sheet that a run leaves, whether it goes through or stops. -/
def sheetAfter : Except Stopped Progress → Sheet
  | .ok q => q.sheet
  | .error stopped => stopped.progress.sheet

/-- States that come before any misplaced one are lowered, whatever comes behind them. -/
theorem exists_statesReplaced_sheetAfter {p : Progress} (hs : p.sheet.IsForest)
    (hroot : p.sheet.kind root = .root) {done rest : List NodeId}
    (hws : cx.states p.sheet = done ++ rest) (hin : ∀ v ∈ done, ¬ cx.IsMisplaced p.sheet v) :
    ∃ more, StatesReplaced cx p.sheet (done ++ more) (sheetAfter (lowerStates cx p)) := by
  have hall : ∀ {more}, (∀ v ∈ more, ¬ cx.IsMisplaced p.sheet v) →
      ∀ v ∈ done ++ more, ¬ cx.IsMisplaced p.sheet v := fun hmore v hv =>
    (List.mem_append.1 hv).elim (hin v) (hmore v)
  -- The pass goes on to the first misplaced one, or to the end.
  by_cases hbad : ∃ v ∈ rest, cx.IsMisplaced p.sheet v
  · obtain ⟨w, hw, hmisplaced⟩ := hbad
    obtain ⟨more, v, later, rfl, hmore, hv⟩ := Context.exists_first_isMisplaced hw hmisplaced
    rw [← List.append_assoc] at hws
    obtain ⟨t, h, ht⟩ := exists_lowerStates_of_isMisplaced hs hroot hws (hall hmore) hv
    refine ⟨more, ?_⟩
    rw [ht]
    exact h
  · have hmore : ∀ v ∈ rest, ¬ cx.IsMisplaced p.sheet v := fun v hv h => hbad ⟨v, hv, h⟩
    have hin' : ∀ v ∈ cx.states p.sheet, ¬ cx.IsMisplaced p.sheet v := hws ▸ hall hmore
    obtain ⟨t, h, ht⟩ := exists_lowerStates_of_not_isMisplaced hs hroot hin'
    refine ⟨rest, ?_⟩
    rw [ht, ← hws]
    exact h

/-- The lexer finds no fault with a text, and no comment in it has a comma, a quote or a
parenthesis. -/
structure IsReadable (text : String) : Prop where
  errors : (tokenize text).errors = []
  comments : ∀ t ∈ (tokenize text).tokens, t.kind = .comment →
    ∀ a ∈ t.text.toList, isMark a = false

instance (text : String) : Decidable (IsReadable text) :=
  decidable_of_iff
    ((tokenize text).errors = [] ∧ (tokenize text).tokens.all fun t =>
      t.kind != .comment || t.text.toList.all (!isMark ·))
    (by
      simp only [List.all_eq_true, Bool.or_eq_true, bne_iff_ne, Bool.not_eq_true']
      constructor
      · exact fun h => ⟨h.1, fun t ht hk => (h.2 t ht).resolve_left fun hne => hne hk⟩
      · exact fun h => ⟨h.errors, fun t ht => or_iff_not_imp_left.2 fun hk =>
          h.comments t ht (not_not.1 hk)⟩)

theorem IsReadable.splitComma_eq {text : String} (h : IsReadable text) :
    splitComma text = tokenItems text :=
  splitComma_eq_tokenItems h.errors h.comments

/-- A state that comes before any misplaced one gets a rule. If the selector that it is given and
its params are readable, the rule's own selector consists of each item of the one with each item of
the other, where the items are those between commas that are tokens outside parentheses. -/
theorem lowerStates_selector (cx : Context) {p : Progress} (hs : p.sheet.IsForest)
    (hroot : p.sheet.kind root = .root) {done rest : List NodeId} {w parent : NodeId}
    {given : String} (hws : cx.states p.sheet = done ++ w :: rest)
    (hin : ∀ v ∈ done ++ [w], ¬ cx.IsMisplaced p.sheet v)
    (hparent : p.sheet.parent w = some parent) (hgiven : SelectorOf cx p.sheet parent given)
    (hselector : IsReadable given) (hparams : IsReadable (p.sheet.params w)) :
    (sheetAfter (lowerStates cx p)).content (ruleFor p.sheet (cx.states p.sheet) w) =
      .rule (", ".intercalate ((tokenItems given).flatMap fun part =>
        (tokenItems (p.sheet.params w)).map fun state => cx.convention.joinState part state)) := by
  have hsplit : cx.states p.sheet = (done ++ [w]) ++ rest := by simp [hws]
  obtain ⟨more, h⟩ := exists_statesReplaced_sheetAfter hs hroot hsplit hin
  have hisA := isA_of_mem_states (mem_states_next hws)
  obtain ⟨selector, hgives, hcontent⟩ := h.content_new w (by simp)
  rw [hcontent, hgives.unique (.state hisA hparent hgiven), hselector.splitComma_eq,
    hparams.splitComma_eq]

/-- For instance, with a comment in the selector and one in the params. -/
theorem lowerStates_selector_readable :
    let s := read [(.ofFile "a.css", ".A /* a */, .B { @when on /* b */, off {} }")]
    (sheetAfter (lowerStates (.ofOptions {}) { sheet := s })).content
        (ruleFor s ((Context.ofOptions {}).states s) ⟨2⟩) =
      .rule ".A /* a */.is-on /* b */, .A /* a */.is-off, .B.is-on /* b */, .B.is-off" := by
  intro s
  have hs : s.IsForest := (isSound_read _).toIsForest
  have hroot : s.kind root = .root := by decide +kernel
  have hws : (Context.ofOptions {}).states s = [] ++ ⟨2⟩ :: [] := by decide +kernel
  have hin : ∀ v ∈ [] ++ [(⟨2⟩ : NodeId)], ¬ (Context.ofOptions {}).IsMisplaced s v := by
    decide +kernel
  have hparent : s.parent ⟨2⟩ = some ⟨1⟩ := by decide +kernel
  have hrule : s.kind ⟨1⟩ = .rule := by decide +kernel
  have hselector : IsReadable (s.selector ⟨1⟩) := by decide +kernel
  have hparams : IsReadable (s.params ⟨2⟩) := by decide +kernel
  have hcontent := lowerStates_selector (.ofOptions {}) (p := { sheet := s }) hs hroot hws hin
    hparent (.rule hrule) hselector hparams
  rw [hcontent]
  decide +kernel

/-- An apostrophe in a comment hides the comma behind it: to the tokens the selector has two items,
but the rule for the state has one selector. -/
theorem lowerStates_selector_comment :
    let s := read [(.ofFile "a.css", ".A /* don't */, .B { @when on {} }")]
    s.kind ⟨1⟩ = .rule ∧ s.parent ⟨2⟩ = some ⟨1⟩ ∧ (Context.ofOptions {}).states s = [⟨2⟩] ∧
      (tokenize (s.selector ⟨1⟩)).errors = [] ∧ (tokenize (s.params ⟨2⟩)).errors = [] ∧
      tokenItems (s.selector ⟨1⟩) = [".A /* don't */", ".B"] ∧
      tokenItems (s.params ⟨2⟩) = ["on"] ∧
      (sheetAfter (lowerStates (.ofOptions {}) { sheet := s })).content
          (ruleFor s ((Context.ofOptions {}).states s) ⟨2⟩) =
        .rule ".A /* don't */, .B.is-on" := by
  decide +kernel

end ClassRules.Lowering
