import ClassRules.Proofs.Lowering.ClockedSteps
import ClassRules.Proofs.Lowering.Namespaces

/-!
# The passes never break a sheet

## What this module delivers

- `IsSafe`: a result that leaves a rooted sheet and is not that of a refused move.
- `Clocked.Safe`: a part of a run that ends with such a result. `Safe.bind` and `Safe.foldlM` put
  parts together.
- `lowerUtility_safe`, `lowerAttached_safe`, `lowerNamespace_safe`, `lowerState_safe`: single steps.
- `Sheet.transform_safe`: the whole run over a rooted sheet, whatever its nodes say.
-/

set_option autoImplicit false

namespace ClassRules

/-- A result that leaves a rooted sheet, and is not that of a move to a place under the moved
node. -/
def Lowering.IsSafe {σ : Type} (progress : σ → Lowering.Progress) :
    Except Lowering.Stopped σ → Prop
  | .ok state => (progress state).sheet.IsRooted
  | .error stopped => stopped.progress.sheet.IsRooted ∧ ∀ fault, stopped.fault ≠ .move fault

namespace Clocked

open Lowering Sheet Filter

variable {p : Progress} {a : NodeId}

/-- A part of a run ends with a safe result, and no node is gone. -/
structure Safe {σ : Type} (progress : σ → Progress) (p : Progress) (R : Nat → Run σ)
    (r : Except Stopped σ) : Prop where
  ends : Ends R r
  safe : IsSafe progress r
  size_le : ∀ state, r = .ok state → p.sheet.nodes.size ≤ (progress state).sheet.nodes.size

namespace Safe

variable {σ τ : Type} {progress : σ → Progress}

theorem of_ends {R : Nat → Run σ} {r : Except Stopped σ} {state : σ} (hrun : Ends R r)
    (hr : r = .ok state) (h : (progress state).sheet.IsRooted)
    (hsize : p.sheet.nodes.size ≤ (progress state).sheet.nodes.size) : Safe progress p R r := by
  subst hr
  exact ⟨hrun, h, fun next hnext => by cases hnext; exact hsize⟩

theorem ok {state : σ} (h : (progress state).sheet.IsRooted)
    (hsize : p.sheet.nodes.size ≤ (progress state).sheet.nodes.size) :
    Safe progress p (fun _ => pure state) (.ok state) :=
  .of_ends (.of (.ok state)) rfl h hsize

theorem bind (progress' : τ → Progress) {R : Nat → Run σ} {r : Except Stopped σ}
    {F : Nat → σ → Run τ} {f : σ → Except Stopped τ} (h : Safe progress p R r)
    (hf : ∀ state, (progress state).sheet.IsRooted →
      p.sheet.nodes.size ≤ (progress state).sheet.nodes.size →
        Safe progress' (progress state) (fun clock => F clock state) (f state)) :
    Safe progress' p (fun clock => R clock >>= F clock) (r >>= f) := by
  obtain ⟨hrun, hsafe, hsize⟩ := h
  cases r with
  | error stopped =>
    refine ⟨hrun.bind fun state hstate => ?_, hsafe, fun state hstate => ?_⟩
    · cases hstate
    · cases hstate
  | ok state =>
    obtain ⟨hrun', hsafe', hsize'⟩ := hf state hsafe (hsize state rfl)
    refine ⟨hrun.bind fun next hnext => ?_, hsafe', fun next hnext =>
      Nat.le_trans (hsize state rfl) (hsize' next hnext)⟩
    cases hnext
    exact hrun'

/-- What is looked up by a walk that ends goes into the run. -/
theorem lift {α : Type} {L : Nat → Option α} {a : α} {F : Nat → α → Run σ}
    {r : Except Stopped σ} (hL : ∀ᶠ clock in atTop, L clock = some a)
    (h : Safe progress p (fun clock => F clock a) r) :
    Safe progress p (fun clock => (liftM (L clock) : Run α) >>= F clock) r := by
  refine ⟨?_, h.safe, h.size_le⟩
  filter_upwards [hL, h.ends] with clock hclock hrun
  rw [hclock]
  exact hrun

/-- A pass is safe if each of its steps is. -/
theorem foldlM {F : Nat → σ → NodeId → Run σ} {f : σ → NodeId → Except Stopped σ}
    {as : List NodeId} (state : σ) (h : (progress state).sheet.IsRooted)
    (has : ∀ a ∈ as, (progress state).sheet.Has a)
    (hstep : ∀ state a, a ∈ as → (progress state).sheet.IsRooted →
      (progress state).sheet.Has a →
        Safe progress (progress state) (fun clock => F clock state a) (f state a)) :
    Safe progress (progress state) (fun clock => as.foldlM (F clock) state)
      (as.foldlM f state) := by
  induction as generalizing state with
  | nil => exact .ok h (Nat.le_refl _)
  | cons a as ih =>
    simp only [List.foldlM_cons]
    refine (hstep state a List.mem_cons_self h (has a List.mem_cons_self)).bind progress ?_
    intro next hnext hsize
    exact ih next hnext (fun b hb => Nat.lt_of_lt_of_le (has b (List.mem_cons_of_mem _ hb)) hsize)
      fun state b hb => hstep state b (List.mem_cons_of_mem _ hb)

end Safe

theorem has_of_mem_find {cx : Context} {s : Sheet} {scope : NodeId} {kind : RuleKind}
    (h : s.IsForest) (ha : a ∈ cx.find s scope kind) : s.Has a ∧ a ≠ scope := by
  obtain ⟨hne, hon⟩ := h.mem_descendants_iff.1 (Context.mem_find_iff.1 ha).1
  obtain ⟨parent, hp, -⟩ := (HangsOn.iff_parent.1 hon).resolve_left hne
  exact ⟨has_of_parent hp, hne⟩

/-- A pass over the at-rules of a kind below a node is safe if each of its steps is. -/
theorem Safe.pass {σ : Type} (progress : σ → Progress) {F : Nat → σ → NodeId → Run σ}
    {f : σ → NodeId → Except Stopped σ} (cx : Context) (scope : NodeId) (kind : RuleKind)
    (state : σ) (h : (progress state).sheet.IsRooted)
    (hstep : ∀ state a, a ≠ scope → (progress state).sheet.IsRooted →
      (progress state).sheet.Has a →
        Safe progress (progress state) (fun clock => F clock state a) (f state a)) :
    Safe progress (progress state)
      (fun clock => do
        (← find? clock cx (progress state).sheet scope kind).foldlM (F clock) state)
      ((cx.find (progress state).sheet scope kind).foldlM f state) := by
  refine .lift (find?_ends h.toIsForest cx scope kind) ?_
  refine .foldlM state h (fun a ha => (has_of_mem_find h.toIsForest ha).1) fun state a ha => ?_
  exact hstep state a (has_of_mem_find h.toIsForest ha).2

/-! ## Utilities -/

/-- A stop for a misuse keeps the sheet. -/
theorem safe_stop {σ : Type} (progress : σ → Progress) (h : p.sheet.IsRooted) (reason : String) :
    Safe progress p (fun _ => .of (p.stop a reason)) (p.stop a reason) := by
  refine ⟨.of _, ?_, ?_⟩
  · unfold Progress.stop Progress.locate
    split
    · exact ⟨h, fun fault hfault => by cases hfault⟩
    · exact ⟨h, fun fault hfault => by cases hfault⟩
  · obtain ⟨fault, hstop⟩ := Progress.stop_eq_error σ p a reason
    intro state hstate
    rw [hstop] at hstate
    cases hstate

/-- A warning that cannot be given is no refused move. -/
theorem fault_of_warnAll {messages : List String} {stopped : Stopped}
    (h : messages.foldlM (·.warn a ·) p = .error stopped) : stopped.fault = .place := by
  induction messages generalizing p with
  | nil => cases h
  | cons message messages ih =>
    rw [List.foldlM_cons, Progress.warn, Progress.locate] at h
    split at h
    · exact ih h
    · cases h
      rfl

/-- A new rule takes over from an at-rule below another node. -/
theorem exists_takeover_ends {container : NodeId} (h : p.sheet.IsForest)
    (hbelow : a ≠ container ∧ p.sheet.HangsOn a container) (selector : String) :
    ∃ t, Ends (fun clock => moveChildren clock (p.createRule selector a).2 a ⟨p.sheet.nodes.size⟩)
        ((p.createRule selector a).2.moveChildren a ⟨p.sheet.nodes.size⟩) ∧
      (p.createRule selector a).2.moveChildren a ⟨p.sheet.nodes.size⟩ =
        .ok { p with sheet := t } ∧
      Gathered (levels p.sheet container) (p.sheet.createRule selector a).2 t
        ⟨p.sheet.nodes.size⟩ (p.sheet.children a) := by
  obtain ⟨t, ht, hg, -⟩ := exists_takeover p h hbelow selector
  have hforest : (p.createRule selector a).2.sheet.IsForest := h.create _ _
  exact ⟨t, moveChildren_ends hforest a ((has_create _ _ _ _).2 (.inl rfl)), ht, hg⟩

theorem parent_root_of_takeover {s t : Sheet} {container : NodeId} {selector : String}
    (h : s.IsRooted)
    (hg : Gathered (levels s container) (s.createRule selector a).2 t ⟨s.nodes.size⟩
      (s.children a)) : t.parent root = none := by
  have hout : root ∉ s.children a := fun hmem => by
    have hp := h.mem_children_iff.1 hmem
    rw [h.parent_root] at hp
    cases hp
  rw [hg.parent_eq, if_neg hout, createRule, parent_create, h.parent_root]

/-- The rule takes the place of the at-rule. -/
theorem isRooted_replaceWith {s t : Sheet} {container : NodeId} {selector : String}
    (h : s.IsRooted) (hp : s.parent a = some container)
    (hg : Gathered (levels s container) (s.createRule selector a).2 t ⟨s.nodes.size⟩
      (s.children a)) : (t.replaceWith a ⟨s.nodes.size⟩).IsRooted := by
  have hne : a ≠ ⟨s.nodes.size⟩ := (has_of_parent hp).ne_new
  have hpt := parent_of_takeover h.toIsForest hp hg
  obtain ⟨hrule, hkept⟩ := has_of_takeover hg
  refine ⟨isForest_replaceWith_of_takeover h.toIsForest hp hg, ?_, ?_⟩
  · exact (hkept h.has_root).mono (Nat.le_of_eq (size_replaceWith hne hpt).symm)
  · rw [parent_replaceWith hne hpt hrule, if_neg h.has_root.ne_new]
    split
    · rfl
    · exact parent_root_of_takeover h hg

theorem replace_safe {container : NodeId} (h : p.sheet.IsRooted)
    (hp : p.sheet.parent a = some container) (selector : String) (f : Stats → Stats) :
    Safe id p
      (fun clock => moveChildren clock (p.createRule selector a).2 a ⟨p.sheet.nodes.size⟩ >>=
        fun q => pure ((q.replaceWith a ⟨p.sheet.nodes.size⟩).count f))
      ((p.createRule selector a).2.moveChildren a ⟨p.sheet.nodes.size⟩ >>= fun q =>
        pure ((q.replaceWith a ⟨p.sheet.nodes.size⟩).count f)) := by
  obtain ⟨t, hrun, ht, hg⟩ := exists_takeover_ends h.toIsForest
    ⟨(h.parent_ne hp).symm, .single hp⟩ selector
  have hsize : p.sheet.nodes.size ≤ (t.replaceWith a ⟨p.sheet.nodes.size⟩).nodes.size := by
    rw [size_replaceWith (has_of_parent hp).ne_new (parent_of_takeover h.toIsForest hp hg),
      size_of_takeover hg]
    omega
  have hdone : ((p.createRule selector a).2.moveChildren a ⟨p.sheet.nodes.size⟩ >>= fun q =>
        pure ((q.replaceWith a ⟨p.sheet.nodes.size⟩).count f)) =
      .ok ((Progress.replaceWith { p with sheet := t } a ⟨p.sheet.nodes.size⟩).count f) := by
    rw [ht]
    rfl
  exact .of_ends (hrun.bind fun q _ => .of (.ok _)) hdone (isRooted_replaceWith h hp hg) hsize

/-- A utility is lowered, stops the run or is passed over. -/
theorem lowerUtility_safe (h : p.sheet.IsRooted) (ha : p.sheet.Has a) (hne : a ≠ root) :
    Safe id p (fun clock => lowerUtility clock p a) (Lowering.lowerUtility p a) := by
  unfold lowerUtility Lowering.lowerUtility
  dsimp only
  refine .lift (isAttached?_ends h.toIsForest ha) ?_
  split
  · exact .ok h (Nat.le_refl _)
  rename_i hatt
  have hon : p.sheet.HangsOn a root := h.isAttached_iff.1 (by simpa using hatt)
  obtain ⟨container, hp, -⟩ := (HangsOn.iff_parent.1 hon).resolve_left hne
  split
  · exact safe_stop id h noNames
  generalize joinComma ((utilityItems (p.sheet.params a)).map utilitySelector) = selector
  generalize (utilityItems (p.sheet.params a)).flatMap utilityWarnings = messages
  rcases Progress.warnAll_cases p a messages with
    ⟨⟨sheet, warnings, stats⟩, hq, rfl, rfl⟩ | ⟨stopped, hq, hsheet⟩
  · rw [hq]
    have hsafe := replace_safe (p := ⟨p.sheet, warnings, p.stats⟩) h hp selector fun c =>
      { c with utilities := c.utilities + 1 }
    exact ⟨hsafe.ends, hsafe.safe, hsafe.size_le⟩
  · have hfault := fault_of_warnAll hq
    rw [hq]
    refine ⟨.of (.error stopped), ⟨hsheet ▸ h, fun fault hmove => ?_⟩, fun state hstate => by
      cases hstate⟩
    rw [hfault] at hmove
    cases hmove

theorem lowerUtilities_safe (cx : Context) (h : p.sheet.IsRooted) :
    Safe id p (fun clock => lowerUtilities clock cx p) (Lowering.lowerUtilities cx p) :=
  Safe.pass id cx root .utility p h fun _ _ hne hq ha => lowerUtility_safe hq ha hne

/-! ## Components -/

/-- What is left of a component stands nowhere, and all else stands where it stood. -/
theorem isRooted_of_flattened {s t : Sheet} {container component : NodeId} {pieces : List Piece}
    (h : s.IsRooted) (hflat : Flattened s t container component pieces) : t.IsRooted := by
  have hroot := h.has_root
  refine ⟨hflat.forest, hroot.mono (Nat.le.intro hflat.size_eq.symm), ?_⟩
  · by_cases hpiece : ∃ x ∈ pieces, x.atRule = root
    · obtain ⟨x, hx, heq⟩ := hpiece
      exact heq ▸ (hflat.taken_out x hx).1
    · rw [hflat.parent_eq root hroot fun x hx => ⟨fun e => hpiece ⟨x, hx, e⟩, ?_⟩, h.parent_root]
      rw [h.parent_root]
      exact Option.some_ne_none _ |>.symm

/-- Lowering a component ends. Its container stands above it, so it is not among what is gone
through. -/
theorem lowerComponent_ends {container : NodeId} (cx : Context) (h : p.sheet.IsForest)
    (hp : p.sheet.parent a = some container) (ns : Option String) :
    Ends (fun clock => lowerComponent clock cx p a ns) (Lowering.lowerComponent cx p a ns) := by
  let name := cx.componentName ns (p.sheet.params a)
  let p₁ := (p.createRule ("." ++ name) a).2
  have hp₁ : Shrunk p.sheet container (p.sheet.nodes.size + 1) p₁.sheet := by
    refine ⟨h.create _ _, Nat.le_succ _, Nat.le_of_eq (size_create _ _ _).symm, ?_⟩
    intro x _ _ c hc
    exact children_create p.sheet _ _ x ▸ hc
  have hparent : ∀ c ∈ p₁.sheet.children a, p.sheet.parent c = some a := fun c hc =>
    h.mem_children_iff.1 (children_create p.sheet _ _ a ▸ hc)
  have hdist := distribute_ends a hp₁ (not_has_new p.sheet) (Nat.lt_succ_self _)
    (F := fun clock => lowerNested cx container clock name)
    (f := Lowering.lowerNested cx container name)
    (fun c hc => has_of_parent (hparent c hc)) fun c hc q last hq => by
      have hout : ¬ p.sheet.HangsOn container c := fun hon =>
        h.not_hangsOn_child hp (hon.trans (.single (hparent c hc)))
      exact lowerNested_ends cx h (h.has_parent hp) q.sheet.nodes.size name hq
        (has_of_parent (hparent c hc)) hout
        (Nat.le_add_right_of_le (Nat.le_trans hq.base_le hq.size_le))
  simp only [lowerComponent, Lowering.lowerComponent, hp]
  exact hdist.ends.bind fun state _ => .of (.ok _)

/-- A component is lowered, as something holds it if it is not the root. -/
theorem lowerComponent_safe (cx : Context) (h : p.sheet.IsRooted) (ns : Option String) :
    Safe id p (fun clock => lowerComponent clock cx p a ns)
      (Lowering.lowerComponent cx p a ns) := by
  cases hp : p.sheet.parent a with
  | none =>
    simp only [lowerComponent, Lowering.lowerComponent, hp]
    exact .ok h (Nat.le_refl _)
  | some container =>
    obtain ⟨region, q, -, hq, hflat, -⟩ := exists_flattened cx h.toIsForest hp ns
    refine .of_ends (lowerComponent_ends cx h.toIsForest hp ns) hq (isRooted_of_flattened h hflat)
      ?_
    have hsize : q.sheet.nodes.size = _ := hflat.size_eq
    exact hsize ▸ Nat.le_add_right _ _

theorem lowerAttached_safe (cx : Context) (h : p.sheet.IsRooted) (ha : p.sheet.Has a)
    (ns : Option String) : Safe id p (fun clock => lowerAttached clock cx p a ns)
      (if p.sheet.isAttached a then Lowering.lowerComponent cx p a ns else .ok p) := by
  refine .lift (isAttached?_ends h.toIsForest ha) ?_
  split
  · exact lowerComponent_safe cx h ns
  · exact .ok h (Nat.le_refl _)

theorem lowerComponents_safe (cx : Context) (map : NamespaceMap) (default : Option String)
    (h : p.sheet.IsRooted) :
    Safe id p (fun clock => lowerComponents clock cx map default p)
      (Lowering.lowerComponents cx map default p) :=
  Safe.pass id cx root .component p h fun _ _ _ hq ha => lowerAttached_safe cx hq ha _

/-! ## Namespaces -/

/-- The components in a block are lowered one after the other. -/
theorem lowerBlock_safe (cx : Context) (h : p.sheet.IsRooted) (block : NodeId) (ns : String) :
    Safe id p (fun clock => lowerBlock clock cx p block ns) (Lowering.lowerBlock cx p block ns) :=
  Safe.pass id cx block .component p h fun _ _ _ hq ha => lowerAttached_safe cx hq ha (some ns)

theorem isRooted_detach {s : Sheet} (h : s.IsRooted) (id : NodeId) : (s.detach id).IsRooted := by
  refine ⟨h.toIsForest.detach id, (has_detach s id root).2 h.has_root, ?_⟩
  rw [parent_detach, h.parent_root]
  split <;> rfl

theorem remove_safe (h : p.sheet.IsRooted) :
    Safe id p (fun _ => pure (p.remove a)) (.ok (p.remove a)) :=
  .ok (isRooted_detach h a) (Nat.le_of_eq (size_detach p.sheet a).symm)

/-- What stands in a block takes its place. -/
theorem unwrapBlock_safe (h : p.sheet.IsRooted) :
    Safe id p (fun clock => unwrapBlock clock p a) (Lowering.unwrapBlock p a) := by
  cases hp : p.sheet.parent a with
  | none =>
    simp only [unwrapBlock, Lowering.unwrapBlock, hp]
    exact remove_safe h
  | some container =>
    obtain ⟨t, ht, hg, -⟩ := exists_unwrapped h.toIsForest hp
    have hrun : Ends (fun clock => unwrapBlock clock p a) (Lowering.unwrapBlock p a) := by
      simp only [unwrapBlock, Lowering.unwrapBlock, hp]
      exact (unwrapChildren_ends h.toIsForest hp).bind fun q _ => .of (.ok (q.remove a))
    have hroot : t.IsRooted := by
      refine ⟨.of_ranked hg.linked hg.ranked, h.has_root.mono (Nat.le_of_eq hg.size_eq.symm), ?_⟩
      · have hout : root ∉ (p.sheet.children a).reverse := fun hmem => by
          have hpr := h.mem_children_iff.1 (List.mem_reverse.1 hmem)
          rw [h.parent_root] at hpr
          cases hpr
        rw [hg.parent_eq, if_neg hout, h.parent_root]
    exact .of_ends hrun ht (isRooted_detach hroot a)
      (Nat.le_of_eq ((size_detach t a).trans hg.size_eq).symm)

/-- A namespace is noted and taken out, or its block is lowered and unwrapped. -/
theorem lowerNamespace_safe (cx : Context) {state : NamespaceMap × Progress}
    (h : state.2.sheet.IsRooted) (ha : state.2.sheet.Has a) :
    Safe Prod.snd state.2 (fun clock => lowerNamespace clock cx state a)
      (Lowering.lowerNamespace cx state a) := by
  obtain ⟨map, p⟩ := state
  unfold lowerNamespace Lowering.lowerNamespace
  dsimp only at h ha ⊢
  refine .lift (isAttached?_ends h.toIsForest ha) ?_
  split
  · exact .ok h (Nat.le_refl _)
  split
  · have hsafe := (lowerBlock_safe (p := p.count fun c => { c with namespaces := c.namespaces + 1 })
      cx h a (p.sheet.params a)).bind (Prod.snd : NamespaceMap × Progress → Progress)
      (F := fun clock q => unwrapBlock clock q a >>= fun q => pure (map, q))
      (f := fun q => Lowering.unwrapBlock q a >>= fun q => pure (map, q)) fun q hq _ =>
        (unwrapBlock_safe hq).bind Prod.snd fun r hr _ => .ok hr (Nat.le_refl _)
    exact ⟨hsafe.ends, hsafe.safe, hsafe.size_le⟩
  · exact .ok (isRooted_detach h a) (Nat.le_of_eq (size_detach p.sheet a).symm)

theorem lowerNamespaces_safe (cx : Context) (h : p.sheet.IsRooted) :
    Safe Prod.snd p (fun clock => lowerNamespaces clock cx p) (Lowering.lowerNamespaces cx p) :=
  Safe.pass Prod.snd cx root .componentNamespace (({}, p) : NamespaceMap × Progress) h
    fun _ _ _ hq ha => lowerNamespace_safe cx hq ha

/-! ## States -/

/-- The rule goes beside the one that the state stood in. -/
theorem isRooted_insertAfter {s t : Sheet} {container : NodeId} {selector : String}
    (h : s.IsRooted) (hcontainer : s.Has container)
    (hg : Gathered (levels s container) (s.createRule selector a).2 t ⟨s.nodes.size⟩
      (s.children a)) (anchor : NodeId) :
    (t.move container ⟨s.nodes.size⟩ (placeAfter anchor ⟨s.nodes.size⟩)).IsRooted := by
  obtain ⟨hrule, hkept⟩ := has_of_takeover hg
  refine ⟨isForest_insertAfter_of_takeover hcontainer hg anchor, ?_, ?_⟩
  · exact (has_move _ _ _ _ _).2 (hkept h.has_root)
  · rw [parent_move hrule, if_neg h.has_root.ne_new, parent_root_of_takeover h hg]

/-- A rule takes over from a state and is put behind its anchor. -/
theorem exists_followed {σ : Type} {parent container : NodeId} (emitted : List (NodeId × NodeId))
    (h : p.sheet.IsRooted) (hp : p.sheet.parent a = some parent)
    (hpp : p.sheet.parent parent = some container) (selector : String) (done : Progress → σ) :
    let rule : NodeId := ⟨p.sheet.nodes.size⟩
    let after (q : Progress) := stateAnchor emitted q.sheet parent container
    let result := (p.createRule selector a).2.moveChildren a rule >>= fun q =>
      q.insertAfter container (after q) rule >>= fun q => pure (done q)
    Ends (fun clock => moveChildren clock (p.createRule selector a).2 a rule >>= fun q =>
      insertAfter clock q container (after q) rule >>= fun q => pure (done q)) result ∧
      ∃ u : Sheet, result = .ok (done { p with sheet := u }) ∧ u.IsRooted ∧
        u.nodes.size = p.sheet.nodes.size + 1 := by
  intro rule after result
  have hcontainer := h.has_parent hpp
  have hne : a ≠ container := by
    rintro rfl
    exact h.not_hangsOn_child hpp (.single hp)
  obtain ⟨t, hrun, ht, hg⟩ := exists_takeover_ends h.toIsForest
    ⟨hne, .head hp (.single hpp)⟩ selector
  have hsize := size_of_takeover hg
  -- The anchor was there before, so the rule does not come behind itself.
  have hanchor : after { p with sheet := t } ≠ rule :=
    stateAnchor_ne (h.has_parent hp).ne_new (parent_new_of_takeover h.toIsForest hg)
  refine ⟨?_, t.move container rule (placeAfter (after { p with sheet := t }) rule), ?_,
    isRooted_insertAfter h hcontainer hg _, (size_move ..).trans hsize⟩
  · refine hrun.bind fun q hq => ?_
    rw [ht] at hq
    cases hq
    have hins := insertAfter_ends (p := { p with sheet := t }) (.of_ranked hg.linked hg.ranked)
      ((has_of_takeover hg).2 hcontainer) (after { p with sheet := t }) rule
    exact hins.bind fun q _ => .of (.ok (done q))
  · simp only [result, rule]
    rw [ht]
    change (Progress.insertAfter { p with sheet := t } container (after { p with sheet := t })
      rule >>= fun q => pure (done q)) = _
    rw [insertAfter_of_takeover hcontainer hg hanchor]
    rfl

/-- A state is lowered, stops the run or is passed over. -/
theorem lowerState_safe (cx : Context) {state : List (NodeId × NodeId) × Progress}
    (h : state.2.sheet.IsRooted) (ha : state.2.sheet.Has a) :
    Safe Prod.snd state.2 (fun clock => lowerState clock cx state a)
      (Lowering.lowerState cx state a) := by
  obtain ⟨emitted, p⟩ := state
  unfold lowerState Lowering.lowerState
  dsimp only at h ha ⊢
  refine .lift (isAttached?_ends h.toIsForest ha) ?_
  split
  · exact .ok h (Nat.le_refl _)
  cases henclosing : enclosingRule? p.sheet a with
  | none => exact safe_stop Prod.snd h notInRule
  | some enclosing =>
    obtain ⟨parent, container⟩ := enclosing
    obtain ⟨hp, -, hpp⟩ := enclosingRule?_eq_some henclosing
    let selector := stateSelector cx.convention (p.sheet.selector parent) (p.sheet.params a)
    obtain ⟨hends, u, hdone, hu, hsize⟩ := exists_followed emitted h hp hpp selector fun q =>
      ((parent, ⟨p.sheet.nodes.size⟩) :: emitted,
        (q.remove a).count fun c => { c with states := c.states + 1 })
    refine .of_ends hends hdone (isRooted_detach hu a) ?_
    have hdetached := (size_detach u a).trans hsize
    exact hdetached ▸ Nat.le_succ _

theorem lowerStates_safe (cx : Context) (h : p.sheet.IsRooted) :
    Safe id p (fun clock => lowerStates clock cx p) (Lowering.lowerStates cx p) := by
  have hpass : Safe Prod.snd p
      (fun clock => (cx.find p.sheet root .when).foldlM (lowerState clock cx) ([], p))
      ((cx.find p.sheet root .when).foldlM (Lowering.lowerState cx) ([], p)) :=
    .foldlM (([], p) : List (NodeId × NodeId) × Progress) h
      (fun a ha => (has_of_mem_find h.toIsForest ha).1)
      fun state a _ hq ha => lowerState_safe cx hq ha
  exact .lift (find?_ends h.toIsForest cx root .when)
    (hpass.bind id fun state hstate _ => .ok hstate (Nat.le_refl _))

/-! ## The whole run -/

/-- The passes one after the other are a safe run. -/
theorem transform_ends {s : Sheet} (h : s.IsRooted) (o : Options) :
    Safe id { sheet := s } (fun clock => transform clock s o) (s.transform o) := by
  let cx := Context.ofOptions o
  have hlast {q : Progress} (hq : q.sheet.IsRooted) :
      Safe id q
        (fun clock => if cx.convention.rewritesStates then lowerStates clock cx q else pure q)
        (if cx.convention.rewritesStates then Lowering.lowerStates cx q else .ok q) := by
    split
    · exact lowerStates_safe cx hq
    · exact .ok hq (Nat.le_refl _)
  have hrest {q : Progress} (hq : q.sheet.IsRooted) :=
    (lowerNamespaces_safe cx hq).bind id fun state hstate _ =>
      (lowerComponents_safe cx state.1 o.defaultNamespace hstate).bind id fun r hr _ => hlast hr
  have hstart : ({ sheet := s } : Progress).sheet.IsRooted := h
  unfold transform Sheet.transform
  by_cases hsuit : cx.convention.rewritesUtilities = true
  · simp only [cx] at hsuit
    simp only [if_pos hsuit]
    exact (lowerUtilities_safe cx hstart).bind id fun q hq _ => hrest hq
  · simp only [cx] at hsuit
    simp only [if_neg hsuit]
    exact hrest hstart

end Clocked

open Lowering

/-- A sheet that is read from texts is rooted, and the passes never break a rooted sheet, whatever
its nodes say. Every loop ends: by each clock that is late enough they give what they give with the
bounds of the sheet. No node is moved to a place under itself, and the sheet that is left is rooted
again, also if the run stops. -/
theorem Sheet.transform_safe :
    (∀ texts, (Sheet.read texts).IsRooted) ∧
      ∀ {s : Sheet}, s.IsRooted → ∀ o : Options,
        (∃ least, ∀ clock, least ≤ clock → Clocked.transform clock s o = .of (s.transform o)) ∧
          IsSafe id (s.transform o) := by
  refine ⟨Sheet.isRooted_read, fun h o => ?_⟩
  obtain ⟨hends, hsafe, -⟩ := Clocked.transform_ends h o
  exact ⟨Filter.eventually_atTop.1 hends, hsafe⟩

/-- A component in a declaration, which no text has, and a state outside all rules, at which the run
stops. -/
theorem Sheet.transform_safe_declaration :
    let card : Tree := .node (.atRule "component" "Card" true) none
      [.node (.atRule "modifier" "wide" true) none []]
    let s := Sheet.empty.addForest Sheet.root
      [.node (.declaration "color" "red" false) none [card],
        .node (.atRule "when" "on" true) none []]
    s.IsRooted ∧
      (∃ least, ∀ clock, least ≤ clock → Clocked.transform clock s {} = .of (s.transform {})) ∧
      IsSafe id (s.transform {}) := by
  intro card s
  have h : s.IsRooted := Sheet.isSound_empty.isRooted.addForest _
  exact ⟨h, Sheet.transform_safe.2 h {}⟩

end ClassRules
