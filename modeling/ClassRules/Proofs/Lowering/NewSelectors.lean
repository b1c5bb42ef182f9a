import ClassRules.Proofs.ItemList.Pieces
import ClassRules.Proofs.Lowering.ClockedSteps
import ClassRules.Proofs.Lowering.Misplaced
import ClassRules.Proofs.Lowering.Runs

/-!
# What new rules say

A utility stops a run if it has no items, and the classes of components, modifiers and descendents
begin with a dot whatever their names are. The pass over the states does not ask whether there is
any state: from an empty list it makes a rule with an empty selector, and the states in it get no
better ones.

## What this module delivers

- `splitComma_stateSelector_eq_nil_iff`: when the selector for a state has no items.
- `AddsSelectors`: no content changes, and all that is new are rules with an item in their selector.
  Each step before the states does no more than that, and so do the passes, `beforeStates`.
- `SelectorOf.eq_nil_iff`: the selector for a state has no items if the state has none, or one that
  it stands in. `Context.LacksStates`: a rule is made for such a state.
- `transform_selectors`: if all rules of a text have selectors, so have all new rules of a run but
  those that lack states.
- `transform_selectors_empty`: there can be such rules.
-/

set_option autoImplicit false

namespace ClassRules

namespace Lowering

open ItemList Sheet

/-! ## Selectors with an item -/

/-- A list has an item if the first of the texts that were joined begins with one. -/
theorem splitComma_joinComma_ne_nil {text front : String} (h : front ∈ splitComma text)
    (back : String) (items : List String) :
    splitComma (joinComma ((front ++ back) :: items)) ≠ [] := by
  obtain ⟨more, hmore⟩ : ∃ more, joinComma ((front ++ back) :: items) = front ++ more := by
    cases items with
    | nil => exact ⟨back, String.intercalate_singleton⟩
    | cons item items =>
      exact ⟨back ++ (", " ++ joinComma (item :: items)), by
        simp [joinComma, String.intercalate_cons_cons, String.append_assoc]⟩
  rw [hmore]
  exact splitComma_append_ne_nil h more

/-- The class of a component, modifier or descendent is an item, whatever its name is. -/
theorem splitComma_class_ne_nil (name : String) : splitComma ("." ++ name) ≠ [] :=
  splitComma_append_ne_nil (show "." ∈ splitComma "." by decide) name

/-- So is the class of a utility. -/
theorem splitComma_utilitySelector_ne_nil {items : List (List String)} (h : items ≠ []) :
    splitComma (joinComma (items.map utilitySelector)) ≠ [] := by
  obtain ⟨words, more, rfl⟩ := List.exists_cons_of_ne_nil h
  rw [List.map_cons, utilitySelector, String.append_assoc]
  exact splitComma_joinComma_ne_nil (show ".u-" ∈ splitComma ".u-" by decide) _ _

/-- The selector for a state has no items if the selector that the state is put on has none, or if
there are no states to put on it. -/
theorem splitComma_stateSelector_eq_nil_iff (c : Convention) (selector params : String) :
    splitComma (stateSelector c selector params) = [] ↔
      splitComma selector = [] ∨ splitComma params = [] := by
  rw [stateSelector]
  cases hparts : splitComma selector with
  | nil => exact iff_of_true rfl (.inl rfl)
  | cons part parts =>
    cases hstates : splitComma params with
    | nil =>
      have hnone : ((part :: parts).flatMap fun part => ([] : List String).map
          fun state => c.joinState part state) = [] := List.flatMap_eq_nil_iff.2 fun _ _ => rfl
      rw [hnone]
      exact iff_of_true rfl (.inr rfl)
    | cons state states =>
      refine iff_of_false ?_ (by simp)
      have hmem : part ∈ splitComma selector := hparts ▸ List.mem_cons_self
      rw [List.flatMap_cons, List.map_cons, List.cons_append, Convention.joinState, Convention.join,
        String.append_assoc]
      exact splitComma_joinComma_ne_nil hmem _ _

/-- Only nodes of the sheet are rules. -/
theorem has_of_rule {s : Sheet} {id : NodeId} (h : s.kind id = .rule) : s.Has id := by
  by_contra hout
  rw [Sheet.kind, content, node_of_not_has hout] at h
  cases h

/-- All rules of a sheet have an item in their selector. -/
def HasSelectors (s : Sheet) : Prop :=
  ∀ r, s.kind r = .rule → splitComma (s.selector r) ≠ []

instance (s : Sheet) : Decidable (HasSelectors s) :=
  decidable_of_iff
    ((List.range s.nodes.size).all fun i =>
      s.kind ⟨i⟩ != .rule || !(splitComma (s.selector ⟨i⟩)).isEmpty)
    (by
      simp only [List.all_eq_true, List.mem_range, Bool.or_eq_true, bne_iff_ne,
        Bool.not_eq_true', List.isEmpty_eq_false_iff]
      exact ⟨fun h r hr => (h r.index (has_of_rule hr)).resolve_left (not_not.2 hr),
        fun h i _ => or_iff_not_imp_left.2 fun hr => h ⟨i⟩ (not_not.1 hr)⟩)

/-! ## Steps that add rules -/

/-- From `s` to `t` no content changes, and all that is new are rules with an item in their
selector. -/
structure AddsSelectors (s t : Sheet) : Prop where
  size_le : s.nodes.size ≤ t.nodes.size
  content_old : ∀ x, s.Has x → t.content x = s.content x
  content_new : ∀ x, t.Has x → ¬ s.Has x → t.kind x = .rule ∧ splitComma (t.selector x) ≠ []

namespace AddsSelectors

variable {s t u : Sheet} {p q : Progress} {cx : Context}

theorem refl (s : Sheet) : AddsSelectors s s :=
  ⟨Nat.le_refl _, fun _ _ => rfl, fun _ hx hnew => absurd hx hnew⟩

theorem has (h : AddsSelectors s t) {x : NodeId} (hx : s.Has x) : t.Has x :=
  Nat.lt_of_lt_of_le hx h.size_le

/-- If all rules had items in their selectors, they still have. -/
theorem hasSelectors (h : AddsSelectors s t) (hrules : HasSelectors s) : HasSelectors t := by
  intro r hr
  by_cases hold : s.Has r
  · simp only [Sheet.kind, Sheet.selector, h.content_old r hold] at hr ⊢
    exact hrules r hr
  · exact (h.content_new r (has_of_rule hr) hold).2

/-- Moving nodes is no more. -/
theorem of_same (h : AddsSelectors s t) (hsize : u.nodes.size = t.nodes.size)
    (hcontent : ∀ x, u.content x = t.content x) : AddsSelectors s u := by
  refine ⟨hsize ▸ h.size_le, fun x hx => (hcontent x).trans (h.content_old x hx), ?_⟩
  intro x hx hnew
  simp only [Sheet.kind, Sheet.selector, hcontent]
  exact h.content_new x (by simpa only [Has, hsize] using hx) hnew

/-- A new rule. -/
theorem createRule (h : AddsSelectors s p.sheet) {selector : String}
    (hselector : splitComma selector ≠ []) (origin : NodeId) :
    AddsSelectors s (p.createRule selector origin).2.sheet := by
  have hcontent : ∀ x, (p.createRule selector origin).2.sheet.content x =
      if x = ⟨p.sheet.nodes.size⟩ then .rule selector else p.sheet.content x :=
    content_create _ _ _
  refine ⟨Nat.le_trans h.size_le (by simp [Progress.createRule, Sheet.createRule]), ?_, ?_⟩
  · intro x hx
    rw [hcontent, if_neg (h.has hx).ne_new, h.content_old x hx]
  · intro x hx hnew
    simp only [Sheet.kind, Sheet.selector, hcontent]
    split
    · exact ⟨rfl, hselector⟩
    · rename_i hne
      exact h.content_new x (((has_create _ _ _ x).1 hx).resolve_left hne) hnew

/-! ### Moves -/

theorem append (h : AddsSelectors s p.sheet) {parent id : NodeId}
    (hr : p.append parent id = .ok q) : AddsSelectors s q.sheet := by
  rw [Progress.append, Sheet.append] at hr
  split at hr
  · cases hr
  · cases hr
    exact h.of_same (size_move p.sheet parent id (· ++ [id]))
      (content_move p.sheet parent id (· ++ [id]))

theorem insertAfter (h : AddsSelectors s p.sheet) {container anchor id : NodeId}
    (hr : p.insertAfter container anchor id = .ok q) : AddsSelectors s q.sheet := by
  rw [Progress.insertAfter, Sheet.insertAfter] at hr
  split at hr
  · cases hr
    exact h
  · split at hr
    · cases hr
    · cases hr
      exact h.of_same (size_move p.sheet container id (placeAfter anchor id))
        (content_move p.sheet container id (placeAfter anchor id))

theorem moveChildren (h : AddsSelectors s p.sheet) {source target : NodeId}
    (hr : p.moveChildren source target = .ok q) : AddsSelectors s q.sheet :=
  foldlM_of_step (P := fun q : Progress => AddsSelectors s q.sheet)
    (fun _ _ _ _ hq hnext => hq.append hnext) h hr

theorem remove (h : AddsSelectors s p.sheet) (id : NodeId) :
    AddsSelectors s (p.remove id).sheet :=
  h.of_same (size_detach _ _) (content_detach _ _)

theorem replaceWith (h : AddsSelectors s p.sheet) (old new : NodeId) :
    AddsSelectors s (p.replaceWith old new).sheet := by
  by_cases hne : old = new
  · rwa [Progress.replaceWith, Sheet.replaceWith, if_pos hne]
  cases hp : p.sheet.parent old with
  | none => rwa [Progress.replaceWith, Sheet.replaceWith, if_neg hne, hp]
  | some container =>
    exact h.of_same (size_replaceWith hne hp) (content_replaceWith hne hp)

/-! ### Utilities -/

theorem lowerUtility (h : AddsSelectors s p.sheet) {a : NodeId}
    (hr : Lowering.lowerUtility p a = .ok q) : AddsSelectors s q.sheet := by
  unfold Lowering.lowerUtility at hr
  dsimp only at hr
  split at hr
  · cases hr
    exact h
  split at hr
  · obtain ⟨fault, hstop⟩ := p.stop_eq_error Progress a noNames
    rw [hstop] at hr
    cases hr
  rename_i hitems
  obtain ⟨p₁, hwarn, hr⟩ := exists_of_bind_eq_ok hr
  obtain ⟨p₂, hmove, hr⟩ := exists_of_bind_eq_ok hr
  cases hr
  have hsame : p₁.sheet = p.sheet := by
    rcases p.warnAll_cases a ((utilityItems (p.sheet.params a)).flatMap utilityWarnings) with
      ⟨_, hok, hsheet, -⟩ | ⟨_, herror, -⟩
    · obtain rfl := Except.ok.inj (hwarn.symm.trans hok)
      exact hsheet
    · rw [hwarn] at herror
      cases herror
  have hnew := (hsame ▸ h).createRule
    (splitComma_utilitySelector_ne_nil (by simpa using hitems)) a
  exact (hnew.moveChildren hmove).replaceWith a _

/-! ### Components -/

/-- Going through children does no more if lowering one of them does not. -/
theorem distribute {lower : Progress → NodeId → NodeId → Except Stopped (Option NodeId × Progress)}
    (hlower : ∀ (p : Progress) (child last : NodeId) (next : Option NodeId × Progress),
      AddsSelectors s p.sheet → lower p child last = .ok next → AddsSelectors s next.2.sheet)
    (h : AddsSelectors s p.sheet) {rule last : NodeId} {children : List NodeId}
    {next : NodeId × Progress} (hr : Lowering.distribute lower rule children last p = .ok next) :
    AddsSelectors s next.2.sheet := by
  refine foldlM_of_step (P := fun state : NodeId × Progress => AddsSelectors s state.2.sheet) ?_
    (show AddsSelectors s (last, p).2.sheet from h) hr
  rintro ⟨last, p⟩ child after - hp hstep
  -- What was not lowered is moved.
  have hmoved : ∀ {p : Progress}, AddsSelectors s p.sheet →
      (p.append rule child >>= fun p => pure (last, p)) = .ok after →
        AddsSelectors s after.2.sheet := by
    intro p hp hmove
    obtain ⟨q, happend, hmove⟩ := exists_of_bind_eq_ok hmove
    cases hmove
    exact hp.append happend
  by_cases hk : p.sheet.kind child = .atRule
  · simp only [if_pos hk] at hstep
    obtain ⟨⟨lowered, q⟩, hfirst, hstep⟩ := exists_of_bind_eq_ok hstep
    have hq := hlower p child last _ hp hfirst
    cases lowered with
    | some inserted =>
      cases hstep
      exact hq
    | none => exact hmoved hq hstep
  · simp only [if_neg hk] at hstep
    exact hmoved hp hstep

theorem lowerNestedTo {container : NodeId} {fuel : Nat} {parentClass : String} {a after : NodeId}
    {next : Option NodeId × Progress} (h : AddsSelectors s p.sheet)
    (hr : Lowering.lowerNestedTo cx container fuel parentClass p a after = .ok next) :
    AddsSelectors s next.2.sheet := by
  induction fuel generalizing parentClass p a after next with
  | zero =>
    cases hr
    exact h
  | succ fuel ih =>
    rw [Lowering.lowerNestedTo] at hr
    split at hr
    · cases hr
      exact h
    · rename_i name p₀ hname
      have hp₀ : AddsSelectors s p₀.sheet := by rwa [Clocked.sheet_of_nestedName? hname]
      obtain ⟨p₁, hinsert, hr⟩ := exists_of_bind_eq_ok hr
      obtain ⟨⟨last, p₂⟩, hrest, hr⟩ := exists_of_bind_eq_ok hr
      cases hr
      have hp₁ := (hp₀.createRule (splitComma_class_ne_nil name) a).insertAfter hinsert
      exact (distribute (fun _ _ _ _ => ih) hp₁ hrest).remove a

theorem lowerComponent (h : AddsSelectors s p.sheet) {c : NodeId} {ns : Option String}
    (hr : Lowering.lowerComponent cx p c ns = .ok q) : AddsSelectors s q.sheet := by
  rw [Lowering.lowerComponent] at hr
  split at hr
  · cases hr
    exact h
  · obtain ⟨⟨last, p₁⟩, hrest, hr⟩ := exists_of_bind_eq_ok hr
    cases hr
    have hrule := h.createRule (splitComma_class_ne_nil (cx.componentName ns (p.sheet.params c))) c
    exact (distribute (fun _ _ _ _ => lowerNestedTo) hrule hrest).replaceWith c _

/-- One that is not in the text any more is left alone. -/
theorem lowerAttached (h : AddsSelectors s p.sheet) {c : NodeId} {ns : Option String}
    (hr : (if p.sheet.isAttached c then Lowering.lowerComponent cx p c ns else .ok p) = .ok q) :
    AddsSelectors s q.sheet := by
  split at hr
  · exact h.lowerComponent hr
  · cases hr
    exact h

/-! ### Namespaces -/

theorem unwrapBlock (h : AddsSelectors s p.sheet) {block : NodeId}
    (hr : Lowering.unwrapBlock p block = .ok q) : AddsSelectors s q.sheet := by
  rw [Lowering.unwrapBlock] at hr
  split at hr
  · obtain ⟨p₁, hmove, hr⟩ := exists_of_bind_eq_ok hr
    cases hr
    refine remove ?_ block
    exact foldlM_of_step (P := fun q : Progress => AddsSelectors s q.sheet)
      (fun _ _ _ _ hq hnext => hq.insertAfter hnext) h hmove
  · cases hr
    exact h.remove block

theorem lowerBlock (h : AddsSelectors s p.sheet) {block : NodeId} {ns : String}
    (hr : Lowering.lowerBlock cx p block ns = .ok q) : AddsSelectors s q.sheet :=
  foldlM_of_step (P := fun q : Progress => AddsSelectors s q.sheet)
    (fun _ _ _ _ hq hnext => hq.lowerAttached hnext) h hr

theorem lowerNamespace {state next : NamespaceMap × Progress}
    (h : AddsSelectors s state.2.sheet) {a : NodeId}
    (hr : Lowering.lowerNamespace cx state a = .ok next) : AddsSelectors s next.2.sheet := by
  obtain ⟨map, p⟩ := state
  unfold Lowering.lowerNamespace at hr
  dsimp only at hr
  split at hr
  · cases hr
    exact h
  split at hr
  · obtain ⟨p₁, hblock, hr⟩ := exists_of_bind_eq_ok hr
    obtain ⟨p₂, hunwrap, hr⟩ := exists_of_bind_eq_ok hr
    cases hr
    have hp₁ : AddsSelectors s p₁.sheet :=
      lowerBlock (p := p.count fun c => { c with namespaces := c.namespaces + 1 }) h hblock
    exact hp₁.unwrapBlock hunwrap
  · cases hr
    exact h.remove a

/-! ### Passes -/

theorem lowerUtilities (h : AddsSelectors s p.sheet)
    (hr : Lowering.lowerUtilities cx p = .ok q) : AddsSelectors s q.sheet :=
  foldlM_of_step (P := fun q : Progress => AddsSelectors s q.sheet)
    (fun _ _ _ _ hq hnext => hq.lowerUtility hnext) h hr

theorem lowerNamespaces (h : AddsSelectors s p.sheet) {next : NamespaceMap × Progress}
    (hr : Lowering.lowerNamespaces cx p = .ok next) : AddsSelectors s next.2.sheet :=
  foldlM_of_step (P := fun state : NamespaceMap × Progress => AddsSelectors s state.2.sheet)
    (fun _ _ _ _ hstate hnext => hstate.lowerNamespace hnext)
    (show AddsSelectors s (({}, p) : NamespaceMap × Progress).2.sheet from h) hr

theorem lowerComponents (h : AddsSelectors s p.sheet) {map : NamespaceMap}
    {default : Option String} (hr : Lowering.lowerComponents cx map default p = .ok q) :
    AddsSelectors s q.sheet :=
  foldlM_of_step (P := fun q : Progress => AddsSelectors s q.sheet)
    (fun _ _ _ _ hq hnext => hq.lowerAttached hnext) h hr

end AddsSelectors

/-! ## States -/

section States

variable {cx : Context} {s t : Sheet}

/-- A state without states: there is no item among its params. -/
def Context.IsEmptyState (cx : Context) (s : Sheet) (w : NodeId) : Prop :=
  cx.isA s .when w = true ∧ splitComma (s.params w) = []

instance (cx : Context) (s : Sheet) (w : NodeId) : Decidable (cx.IsEmptyState s w) :=
  inferInstanceAs (Decidable (_ ∧ _))

/-- If all rules have selectors, the one that a node gives to the states in it has no items just if
the node is a state without states, or stands in one directly or in other states. -/
theorem SelectorOf.eq_nil_iff (hrules : HasSelectors s) {x : NodeId} {selector : String}
    (h : SelectorOf cx s x selector) : splitComma selector = [] ↔
      ∃ v, (x = v ∨ cx.IsStateIn s v x) ∧ cx.IsEmptyState s v := by
  induction h with
  | @rule r hr =>
    refine iff_of_false (hrules r hr) ?_
    rintro ⟨v, rfl | hin, hv⟩
    · exact Context.kind_ne_of_isA hv.1 (by decide) hr
    · exact Context.kind_ne_of_isA hin.isA (by decide) hr
  | @state w parent given hisA hparent hgiven ih =>
    refine (splitComma_stateSelector_eq_nil_iff cx.convention given (s.params w)).trans ?_
    rw [ih]
    constructor
    · rintro (⟨v, rfl | hin, hv⟩ | hnone)
      · exact ⟨_, .inr (.direct hisA hparent), hv⟩
      · exact ⟨v, .inr (.nested hisA hparent hin), hv⟩
      · exact ⟨w, .inl rfl, hisA, hnone⟩
    · rintro ⟨v, rfl | hin, hv⟩
      · exact .inr hv.2
      · exact .inl ⟨v, hin.parent_cases hparent, hv⟩

/-- What a state of the text stands in through states are states of the text. -/
theorem Context.IsStateIn.mem_states (hs : s.IsForest) (hroot : s.kind root = .root) {v w : NodeId}
    (h : cx.IsStateIn s v w) (hv : cx.isA s .when v = true) (hw : w ∈ cx.states s) :
    v ∈ cx.states s := by
  have hne : v ≠ root := by
    rintro rfl
    exact Context.kind_ne_of_isA hv (by decide) hroot
  refine Context.mem_find_iff.2 ⟨hs.mem_descendants_iff.2 ⟨hne, ?_⟩, hv⟩
  refine (h.hangsOn.total (hangsOn_of_mem_states hs hw).2).resolve_right fun hon => ?_
  -- Otherwise the root would be one of the states on the way up.
  exact Context.kind_ne_of_isA
    (h.of_hangsOn hs (hangsOn_of_mem_states hs hw).2 hon hne.symm).isA (by decide) hroot

/-- If the pass goes through, all states are lowered. -/
theorem statesReplaced_of_lowerStates {p q : Progress} (hs : p.sheet.IsForest)
    (hroot : p.sheet.kind root = .root) (h : lowerStates cx p = .ok q) :
    StatesReplaced cx p.sheet (cx.states p.sheet) q.sheet := by
  have hin : ∀ w ∈ cx.states p.sheet, ¬ cx.IsMisplaced p.sheet w := by
    intro w hw hbad
    obtain ⟨done, v, rest, hws, hdone, hv⟩ := Context.exists_first_isMisplaced hw hbad
    obtain ⟨t, -, hstop⟩ := exists_lowerStates_of_isMisplaced hs hroot hws hdone hv
    rw [h] at hstop
    cases hstop
  obtain ⟨t, hreplaced, ht⟩ := exists_lowerStates_of_not_isMisplaced hs hroot hin
  obtain rfl := Except.ok.inj (h.symm.trans ht)
  exact hreplaced

/-- What the rules for states say, when all states are lowered. -/
theorem StatesReplaced.selector_eq_nil_iff (hrules : HasSelectors s)
    (h : StatesReplaced cx s (cx.states s) t) {w : NodeId} (hw : w ∈ cx.states s) :
    t.kind (ruleFor s (cx.states s) w) = .rule ∧
      (splitComma (t.selector (ruleFor s (cx.states s) w)) = [] ↔
        ∃ v, (w = v ∨ cx.IsStateIn s v w) ∧ cx.IsEmptyState s v) := by
  obtain ⟨selector, hgives, hcontent⟩ := h.content_new w hw
  rw [Sheet.kind, Sheet.selector, hcontent]
  exact ⟨rfl, hgives.eq_nil_iff hrules⟩

/-- A rule is that for a state without states, or for a state that stands in such a one. -/
def Context.LacksStates (cx : Context) (s : Sheet) (r : NodeId) : Prop :=
  ∃ w ∈ cx.states s, r = ruleFor s (cx.states s) w ∧
    ∃ v, (w = v ∨ cx.IsStateIn s v w) ∧ cx.IsEmptyState s v

/-- All that is new behind the pass over the states are rules. Those that were there before it have
selectors, and of the others all but those that lack states. -/
theorem AddsSelectors.selector_eq_nil_iff {u : Sheet} (hadds : AddsSelectors s t)
    (ht : t.IsForest) (hrules : HasSelectors t) (h : StatesReplaced cx t (cx.states t) u)
    {r : NodeId} (hr : u.Has r) (hnew : ¬ s.Has r) :
    u.kind r = .rule ∧ (splitComma (u.selector r) = [] ↔ cx.LacksStates t r) := by
  by_cases hold : t.Has r
  · obtain ⟨hkind, hitem⟩ := hadds.content_new r hold hnew
    simp only [Sheet.kind, Sheet.selector, h.content_old r hold] at hkind hitem ⊢
    refine ⟨hkind, iff_of_false hitem ?_⟩
    rintro ⟨w, -, heq, -⟩
    exact ruleFor_ne hold heq.symm
  · obtain ⟨w, hw, rfl⟩ := h.exists_ruleFor ht (List.append_nil _).symm hr hold
    refine ⟨(h.selector_eq_nil_iff hrules hw).1, fun hnil => ?_, ?_⟩
    · exact ⟨w, hw, rfl, (h.selector_eq_nil_iff hrules hw).2.1 hnil⟩
    · rintro ⟨w', hw', heq, hempty⟩
      rw [heq]
      exact (h.selector_eq_nil_iff hrules hw').2.2 hempty

end States

end Lowering

open Lowering ItemList

namespace Sheet

variable {s : Sheet} {o : Options} {p q : Progress}

/-- The state of a run before the pass over the states. -/
def beforeStates (s : Sheet) (o : Options) : Except Stopped Progress := do
  let p ← s.withoutUtilities o
  let (map, p) ← lowerNamespaces (.ofOptions o) p
  lowerComponents (.ofOptions o) map o.defaultNamespace p

/-- That pass comes last, and SUIT alone makes it. -/
theorem transform_eq_beforeStates (s : Sheet) (o : Options) : s.transform o =
    s.beforeStates o >>= fun q =>
      if o.convention.rewritesStates then lowerStates (.ofOptions o) q else .ok q := by
  rw [transform_eq, beforeStates]
  cases s.withoutUtilities o with
  | error stopped => rfl
  | ok p =>
    change _ = (lowerNamespaces (.ofOptions o) p >>= _) >>= _
    rw [bind_assoc]
    rfl

theorem addsSelectors_beforeStates (h : s.beforeStates o = .ok q) : AddsSelectors s q.sheet := by
  obtain ⟨p₁, h₁, h⟩ := exists_of_bind_eq_ok h
  obtain ⟨state, h₂, h₃⟩ := exists_of_bind_eq_ok h
  have hfirst : AddsSelectors s p₁.sheet := by
    rw [withoutUtilities] at h₁
    split at h₁
    · exact AddsSelectors.lowerUtilities (p := { sheet := s }) (.refl s) h₁
    · cases h₁
      exact .refl s
  exact (hfirst.lowerNamespaces h₂).lowerComponents h₃

theorem isSound_beforeStates (hs : s.IsSound) (h : s.beforeStates o = .ok q) :
    q.sheet.IsSound := by
  obtain ⟨p₁, h₁, h⟩ := exists_of_bind_eq_ok h
  obtain ⟨⟨map, p₂⟩, h₂, h₃⟩ := exists_of_bind_eq_ok h
  obtain ⟨_, hex⟩ := exists_exchange_withoutUtilities hs h₁
  have hsecond := lowerNamespaces_ended (.ofOptions o) hex.sound
  rw [h₂] at hsecond
  obtain ⟨⟨_, hlow⟩, -⟩ := hsecond
  have hthird : Ended (.ofOptions o) id p₂ [] (· = .component)
      (lowerComponents (.ofOptions o) map o.defaultNamespace p₂) :=
    lowerComponents_ended hlow.exchange.sound map o.defaultNamespace
  dsimp only at h₃
  rw [h₃] at hthird
  obtain ⟨⟨_, hlow⟩, -⟩ := hthird
  exact hlow.exchange.sound

/-- Let all rules of a text have selectors, and let a run over it succeed. All that is new are
rules, and all of them have selectors but those that lack states, under SUIT. So all of them have
selectors just if every state that the pass over the states meets has an item. -/
theorem transform_selectors (texts : List (Input × String)) (o : Options) {p : Progress}
    (hread : HasSelectors (read texts)) (h : (read texts).transform o = .ok p) :
    ∃ q, (read texts).beforeStates o = .ok q ∧
      (∀ r, p.sheet.Has r → ¬ (read texts).Has r → p.sheet.kind r = .rule ∧
        (splitComma (p.sheet.selector r) = [] ↔
          o.style = .suit ∧ (Context.ofOptions o).LacksStates q.sheet r)) ∧
      ((∀ r, p.sheet.Has r → ¬ (read texts).Has r → splitComma (p.sheet.selector r) ≠ []) ↔
        (o.style = .suit → ∀ w ∈ (Context.ofOptions o).states q.sheet,
          splitComma (q.sheet.params w) ≠ [])) := by
  rw [transform_eq_beforeStates] at h
  obtain ⟨q, hq, h⟩ := exists_of_bind_eq_ok h
  have hs := isSound_beforeStates (isSound_read texts) hq
  have hadds := addsSelectors_beforeStates hq
  have hrules := hadds.hasSelectors hread
  refine ⟨q, hq, ?_⟩
  cases hstyle : o.style with
  | bem =>
    -- Without that pass, the rules are those that there were before.
    rw [if_neg fun hsuit => by
      rw [Options.rewritesStates_iff, hstyle] at hsuit
      cases hsuit] at h
    cases h
    refine ⟨fun r hr hnew => ?_, fun _ hsuit => ?_, fun _ r hr hnew => ?_⟩
    · obtain ⟨hkind, hitem⟩ := hadds.content_new r hr hnew
      exact ⟨hkind, iff_of_false hitem fun hsuit => by cases hsuit.1⟩
    · cases hsuit
    · exact (hadds.content_new r hr hnew).2
  | suit =>
    rw [if_pos (Options.rewritesStates_iff.2 hstyle)] at h
    have hroot : q.sheet.kind root = .root := by rw [Sheet.kind, hs.content_root]; rfl
    have hreplaced := statesReplaced_of_lowerStates hs.toIsForest hroot h
    have hnews : ∀ r, p.sheet.Has r → ¬ (read texts).Has r → p.sheet.kind r = .rule ∧
        (splitComma (p.sheet.selector r) = [] ↔ (Context.ofOptions o).LacksStates q.sheet r) :=
      fun r hr hnew => hadds.selector_eq_nil_iff hs.toIsForest hrules hreplaced hr hnew
    refine ⟨fun r hr hnew => ?_, fun hall _ w hw hnone => ?_, fun hsome r hr hnew hnil => ?_⟩
    · simpa only [true_and] using hnews r hr hnew
    · have hhas := hreplaced.has_new (List.append_nil _).symm hw
      have hnew : ¬ (read texts).Has (ruleFor q.sheet ((Context.ofOptions o).states q.sheet) w) :=
        fun hold => ruleFor_ne (hadds.has hold) rfl
      refine hall _ hhas hnew ((hnews _ hhas hnew).2.2 ?_)
      exact ⟨w, hw, rfl, w, .inl rfl, isA_of_mem_states hw, hnone⟩
    · obtain ⟨w, hw, -, v, hwv, hv⟩ := (hnews r hr hnew).2.1 hnil
      refine hsome rfl v ?_ hv.2
      rcases hwv with rfl | hin
      · exact hw
      · exact hin.mem_states hs.toIsForest hroot hv.1 hw

/-- For instance, if one state stands in another one, and a component is there as well. -/
theorem transform_selectors_nested :
    let s := read [(.ofFile "a.css", ".A { @when on { @when off {} } } @component C {}")]
    HasSelectors s ∧ ∃ p, s.transform {} = .ok p ∧ p.sheet.nodes.size = s.nodes.size + 3 ∧
      ∀ r, p.sheet.Has r → ¬ s.Has r → splitComma (p.sheet.selector r) ≠ [] := by
  intro s
  have hread : HasSelectors s := by decide +kernel
  have hrun : (s.transform {}).toOption.any
      (fun p => p.sheet.nodes.size == s.nodes.size + 3) = true := by
    decide +kernel
  have hstates : (s.beforeStates {}).toOption.any (fun q =>
      ((Context.ofOptions {}).states q.sheet).all fun w =>
        !(splitComma (q.sheet.params w)).isEmpty) = true := by
    decide +kernel
  refine ⟨hread, ?_⟩
  cases hp : s.transform {} with
  | error stopped =>
    rw [hp] at hrun
    cases hrun
  | ok p =>
    obtain ⟨q, hq, -, hall⟩ := transform_selectors _ {} hread hp
    rw [hp] at hrun
    rw [hq] at hstates
    refine ⟨p, rfl, eq_of_beq hrun, hall.2 fun _ w hw => ?_⟩
    simpa using List.all_eq_true.1 hstates w hw

/-- From a state without states comes a rule with an empty selector. -/
theorem transform_selectors_empty :
    let s := read [(.ofFile "a.css", ".A { @when {} }")]
    HasSelectors s ∧ ∃ p r, s.transform {} = .ok p ∧ p.sheet.Has r ∧ ¬ s.Has r ∧
      p.sheet.content r = .rule "" ∧ splitComma (p.sheet.selector r) = [] := by
  intro s
  have hread : HasSelectors s ∧ ¬ s.Has ⟨3⟩ := by decide +kernel
  have hrun : (s.transform {}).toOption.any (fun p =>
      decide (p.sheet.Has ⟨3⟩) && p.sheet.content ⟨3⟩ == .rule "") = true := by
    decide +kernel
  refine ⟨hread.1, ?_⟩
  cases hp : s.transform {} with
  | error stopped =>
    rw [hp] at hrun
    cases hrun
  | ok p =>
    rw [hp] at hrun
    obtain ⟨hhas, hcontent⟩ := Bool.and_eq_true_iff.1 hrun
    have hrule := eq_of_beq hcontent
    refine ⟨p, ⟨3⟩, rfl, of_decide_eq_true hhas, hread.2, hrule, ?_⟩
    rw [Sheet.selector, hrule]
    rfl

end Sheet

end ClassRules
