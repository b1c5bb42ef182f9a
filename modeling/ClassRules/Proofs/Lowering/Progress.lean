import ClassRules.Lowering.Progress
import ClassRules.Proofs.Sheet.Move

/-!
# Moves and counts within a run

## What this module delivers

- `Stats.rules`, `Counts`: how many rules and namespaces a part of a run adds to the counts.
- `Tally`: what exactly a part of a run adds to them if it does nothing else but move nodes.
- `Progress.append_eq_ok`, `Progress.insertAfter_eq_ok`: a move to a place with a lower number goes
  through.
- `Progress.exists_gathered`, `Progress.moveChildren_eq_ok`: so do several, one after the other.
- `exists_of_bind_eq_ok`, `foldlM_of_step`, `exists_foldlM`, `exists_foldlM_steps`: a run that
  succeeds, step by step.
- `Progress.stop_eq_error`, `Progress.warnAll_cases`: what stops and warnings leave alone.
- `Context.isA_congr`, `Context.kind_of_isA`, `Context.mem_find_iff`: a kind is told from the
  content alone, and at-rules are searched for by it.
-/

set_option autoImplicit false

namespace ClassRules.Lowering

/-! ## Counts -/

/-- The number of rules that were put in the place of at-rules. -/
def Stats.rules (c : Stats) : Nat :=
  c.utilities + c.components + c.modifiers + c.descendents + c.states

/-- From `p` to `q` so many rules and namespaces were counted. -/
structure Counts (p q : Progress) (rules namespaces : Nat) : Prop where
  rules_eq : q.stats.rules = p.stats.rules + rules
  namespaces_eq : q.stats.namespaces = p.stats.namespaces + namespaces

namespace Counts

variable {p q r : Progress} {m n k l : Nat}

/-- Nothing is counted as long as the counts stay the same. -/
theorem of_eq (h : q.stats = p.stats) : Counts p q 0 0 :=
  ⟨by rw [h]; rfl, by rw [h]; rfl⟩

theorem trans (h₁ : Counts p q m n) (h₂ : Counts q r k l) : Counts p r (m + k) (n + l) :=
  ⟨by rw [h₂.rules_eq, h₁.rules_eq]; omega, by rw [h₂.namespaces_eq, h₁.namespaces_eq]; omega⟩

end Counts

instance : Add Stats where
  add c d := ⟨c.utilities + d.utilities, c.namespaces + d.namespaces, c.components + d.components,
    c.modifiers + d.modifiers, c.descendents + d.descendents, c.states + d.states⟩

namespace Stats

variable (c d e : Stats)

theorem add_def : c + d = ⟨c.utilities + d.utilities, c.namespaces + d.namespaces,
    c.components + d.components, c.modifiers + d.modifiers, c.descendents + d.descendents,
    c.states + d.states⟩ :=
  rfl

theorem add_zero : c + {} = c := rfl

theorem zero_add : ({} : Stats) + c = c := by
  simp [add_def]

theorem add_assoc : c + d + e = c + (d + e) := by
  simp [add_def, Nat.add_assoc]

theorem add_comm : c + d = d + c := by
  simp [add_def, Nat.add_comm]

theorem rules_add : (c + d).rules = c.rules + d.rules := by
  simp only [rules, add_def]
  omega

end Stats

/-- From `p` to `q` the counts grew by `c`. No warning was noted, and of the sheet only nodes
changed. -/
structure Tally (p q : Progress) (c : Stats) : Prop where
  stats_eq : q.stats = p.stats + c
  warnings_eq : q.warnings = p.warnings
  inputs_eq : q.sheet.inputs = p.sheet.inputs

namespace Tally

variable {p q r : Progress} {c d : Stats}

theorem refl (p : Progress) : Tally p p {} :=
  ⟨rfl, rfl, rfl⟩

theorem trans (h₁ : Tally p q c) (h₂ : Tally q r d) : Tally p r (c + d) :=
  ⟨by rw [h₂.stats_eq, h₁.stats_eq, Stats.add_assoc], h₂.warnings_eq.trans h₁.warnings_eq,
    h₂.inputs_eq.trans h₁.inputs_eq⟩

theorem counts (h : Tally p q c) : Counts p q c.rules c.namespaces :=
  ⟨by rw [h.stats_eq, Stats.rules_add], by rw [h.stats_eq, Stats.add_def]⟩

end Tally

/-! ## Runs that succeed -/

/-- Two steps succeed if each of them does. -/
theorem exists_of_bind_eq_ok {ε α β : Type} {r : Except ε α} {f : α → Except ε β} {b : β}
    (h : (r >>= f) = .ok b) : ∃ a, r = .ok a ∧ f a = .ok b := by
  cases r with
  | error stopped => cases h
  | ok a => exact ⟨a, rfl, h⟩

/-- What each step keeps up, a run that succeeds keeps up. -/
theorem foldlM_of_step {ε σ α : Type} {f : σ → α → Except ε σ} {P : σ → Prop} {as : List α}
    (hstep : ∀ state a next, a ∈ as → P state → f state a = .ok next → P next) {state last : σ}
    (h : P state) (hr : as.foldlM f state = .ok last) : P last := by
  induction as generalizing state with
  | nil =>
    cases hr
    exact h
  | cons a as ih =>
    rw [List.foldlM_cons] at hr
    obtain ⟨next, hnext, hr⟩ := exists_of_bind_eq_ok hr
    exact ih (fun state b next hb => hstep state b next (List.mem_cons_of_mem _ hb))
      (hstep state a next List.mem_cons_self h hnext) hr

/-- Where each step succeeds and keeps something up, so does a run. -/
theorem exists_foldlM {ε σ α : Type} {f : σ → α → Except ε σ} {P : σ → Prop} {as : List α}
    (hstep : ∀ state, ∀ a ∈ as, P state → ∃ next, f state a = .ok next ∧ P next) {state : σ}
    (h : P state) : ∃ last, as.foldlM f state = .ok last ∧ P last := by
  induction as generalizing state with
  | nil => exact ⟨state, rfl, h⟩
  | cons a as ih =>
    obtain ⟨next, hnext, h⟩ := hstep state a List.mem_cons_self h
    rw [List.foldlM_cons, hnext]
    exact ih (fun state b hb => hstep state b (List.mem_cons_of_mem _ hb)) h

/-- Where each step succeeds and brings what holds of the part that is done one further, a run
brings it to the whole list. -/
theorem exists_foldlM_steps {ε σ α : Type} {f : σ → α → Except ε σ} {as : List α}
    {P : List α → σ → Prop} (hstep : ∀ done a rest state, as = done ++ a :: rest → P done state →
      ∃ next, f state a = .ok next ∧ P (done ++ [a]) next) {state : σ} (h : P [] state) :
    ∃ last, as.foldlM f state = .ok last ∧ P as last := by
  induction as generalizing P state with
  | nil => exact ⟨state, rfl, h⟩
  | cons a as ih =>
    obtain ⟨next, hnext, h⟩ := hstep [] a as state rfl h
    rw [List.foldlM_cons, hnext]
    exact ih (P := fun done => P (a :: done))
      (fun done b rest state heq => hstep (a :: done) b rest state (congrArg (a :: ·) heq)) h

/-! ## Moves -/

namespace Progress

variable {p : Progress} {rank : NodeId → Nat}

theorem append_eq_ok (h : p.sheet.IsForest) (hr : p.sheet.Ranked rank) {parent id : NodeId}
    (hp : p.sheet.Has parent) (hlt : rank parent < rank id) :
    p.append parent id = .ok { p with sheet := p.sheet.move parent id (· ++ [id]) } := by
  rw [append, Sheet.append_eq_ok h hr hp hlt]
  rfl

theorem insertAfter_eq_ok (h : p.sheet.IsForest) (hr : p.sheet.Ranked rank)
    {container anchor id : NodeId} (hc : p.sheet.Has container) (hlt : rank container < rank id)
    (hne : id ≠ anchor) :
    p.insertAfter container anchor id =
      .ok { p with sheet := p.sheet.move container id (Sheet.placeAfter anchor id) } := by
  rw [insertAfter, Sheet.insertAfter_eq_ok h hr hc hlt hne]
  rfl

/-- Moves one after the other, all to the same node, bring the nodes together there. -/
theorem exists_gathered (f : Progress → NodeId → Except Stopped Progress)
    (place : NodeId → List NodeId → List NodeId) {parent : NodeId} (ids : List NodeId)
    (hplace : ∀ id, Sheet.Adds id (place id)) (hlt : ∀ id ∈ ids, rank parent < rank id)
    (hf : ∀ (q : Progress) (id : NodeId), q.sheet.IsForest → q.sheet.Ranked rank →
      q.sheet.Has parent → rank parent < rank id → id ∈ ids →
        f q id = .ok { q with sheet := q.sheet.move parent id (place id) })
    (h : p.sheet.IsLinked) (hr : p.sheet.Ranked rank) (hp : p.sheet.Has parent)
    (hids : ∀ id ∈ ids, p.sheet.Has id) :
    ∃ t, ids.foldlM f p = .ok { p with sheet := t } ∧
      Sheet.Gathered rank p.sheet t parent ids ∧ t = p.sheet.moveAll parent place ids := by
  induction ids generalizing p with
  | nil => exact ⟨p.sheet, rfl, .nil h hr parent, rfl⟩
  | cons id ids ih =>
    have hid := hids id List.mem_cons_self
    have hrank := hlt id List.mem_cons_self
    have hstep := hf p id (.of_ranked h hr) hr hp hrank List.mem_cons_self
    obtain ⟨t, ht, hgathered, heq⟩ := ih
      (p := { p with sheet := p.sheet.move parent id (place id) })
      (fun d hd => hlt d (List.mem_cons_of_mem _ hd))
      (fun q d hq hqr hqp hd hmem => hf q d hq hqr hqp hd (List.mem_cons_of_mem _ hmem))
      (h.move hp hid (hplace id)) (hr.move hid hrank _) (by simpa using hp)
      fun d hd => by simpa using hids d (List.mem_cons_of_mem _ hd)
    refine ⟨t, ?_, hgathered.cons hid, heq⟩
    rw [List.foldlM_cons, hstep]
    exact ht

/-- All children of a node move to one with a lower number than they have. -/
theorem moveChildren_eq_ok (h : p.sheet.IsLinked) (hr : p.sheet.Ranked rank)
    (owner target : NodeId) (ht : p.sheet.Has target)
    (hlt : ∀ c ∈ p.sheet.children owner, rank target < rank c) :
    ∃ t, p.moveChildren owner target = .ok { p with sheet := t } ∧
      Sheet.Gathered rank p.sheet t target (p.sheet.children owner) ∧
      t = p.sheet.moveAll target (fun id => (· ++ [id])) (p.sheet.children owner) :=
  exists_gathered (·.append target ·) (fun id => (· ++ [id])) (p.sheet.children owner)
    Sheet.adds_append hlt
    (fun _ _ hq hqr hqt hd _ => append_eq_ok hq hqr hqt hd) h hr ht
    fun _ hc => Sheet.has_of_parent (h.mem_children_iff.1 hc)

/-- A stop keeps what was done. -/
theorem stop_eq_error (α : Type) (p : Progress) (id : NodeId) (reason : String) :
    ∃ fault, (p.stop id reason : Except Stopped α) = .error ⟨fault, p⟩ := by
  unfold stop locate
  split
  · exact ⟨_, rfl⟩
  · exact ⟨_, rfl⟩

/-- Warnings leave the sheet and the counts alone, also if one of them cannot be given. -/
theorem warnAll_cases (p : Progress) (id : NodeId) (messages : List String) :
    (∃ q, messages.foldlM (·.warn id ·) p = .ok q ∧ q.sheet = p.sheet ∧ q.stats = p.stats) ∨
      ∃ stopped, messages.foldlM (·.warn id ·) p = .error stopped ∧
        stopped.progress.sheet = p.sheet := by
  induction messages generalizing p with
  | nil => exact .inl ⟨p, rfl, rfl, rfl⟩
  | cons message messages ih =>
    by_cases hl : p.sheet.isLocatable id = true
    · have hwarn : p.warn id message =
          .ok { p with warnings := p.warnings ++ [⟨message, p.sheet.location? id⟩] } := by
        simp only [warn, locate, if_pos hl]
        rfl
      rw [List.foldlM_cons, hwarn]
      exact ih { p with warnings := p.warnings ++ [⟨message, p.sheet.location? id⟩] }
    · have hwarn : p.warn id message = .error ⟨.place, p⟩ := by
        simp only [warn, locate, if_neg hl]
        rfl
      rw [List.foldlM_cons, hwarn]
      exact .inr ⟨⟨.place, p⟩, rfl, rfl⟩

end Progress

/-! ## Kinds of at-rules -/

section Kinds

variable {cx : Context} {s t : Sheet} {kind : RuleKind} {id : NodeId}

theorem Context.isA_congr (h : t.content id = s.content id) :
    cx.isA t kind id = cx.isA s kind id := by
  rw [isA, isA, h]

/-- Only at-rules are of a kind. -/
theorem Context.kind_of_isA (h : cx.isA s kind id = true) : s.kind id = .atRule := by
  unfold isA at h
  unfold Sheet.kind
  cases hc : s.content id <;> simp_all [Content.name?, Content.kind]

/-- A search goes through all that stands below a node, as only at-rules are of a kind. -/
theorem find_eq_filter (cx : Context) (s : Sheet) (scope : NodeId) (kind : RuleKind) :
    cx.find s scope kind = (s.descendants scope).filter (cx.isA s kind) := by
  rw [Context.find, Sheet.atRules, List.filter_filter]
  apply List.filter_congr
  intro a _
  cases hkind : cx.isA s kind a with
  | false => rfl
  | true => simp [Context.kind_of_isA hkind]

theorem Context.mem_find_iff {scope : NodeId} :
    id ∈ cx.find s scope kind ↔ id ∈ s.descendants scope ∧ cx.isA s kind id = true := by
  simp only [find, Sheet.atRules, List.mem_filter, beq_iff_eq]
  exact ⟨fun h => ⟨h.1.1, h.2⟩, fun h => ⟨⟨h.1, kind_of_isA h.2⟩, h.2⟩⟩

end Kinds

end ClassRules.Lowering
