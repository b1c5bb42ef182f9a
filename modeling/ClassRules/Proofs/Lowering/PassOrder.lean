import ClassRules.Proofs.Lowering.SiblingOrder

/-!
# Passes keep siblings in source order

Utilities are swapped for rules, components are flattened, and blocks are unwrapped. None of these
edits moves anything out of source order, and only a utility can stop a run before the states.

## What this module delivers

- `KeepsOrder`: at-rules were exchanged for rules, and the sheet is ordered.
- `KeepsOrder.lowerUtility`, `KeepsOrder.lowerComponent`, `KeepsOrder.lowerNamespace`: each step
  keeps that up, and the last two always succeed.
- `transform_inSourceOrder`: the children of each node after each of the first three passes.
-/

set_option autoImplicit false

namespace ClassRules

namespace Lowering

open Sheet

variable {cx : Context} {s t u : Sheet} {p q : Progress}

/-- From `s` to `t` at-rules were exchanged for rules, and what is reached from a node starts before
the next ones beside it. -/
structure KeepsOrder (cx : Context) (s t : Sheet) : Prop where
  exchange : ∃ replaced dropped, Exchange cx s t replaced dropped
  ordered : t.Ordered

/-- From `s` to `t` at-rules were exchanged for rules, which come from where the at-rules came from,
and the children of each node start one behind the other. -/
structure InSourceOrder (cx : Context) (s t : Sheet) : Prop where
  exchange : ∃ replaced dropped, Exchange cx s t replaced dropped
  siblings : ∀ id, (t.children id).Pairwise t.StartsBefore

namespace KeepsOrder

theorem refl (cx : Context) (hs : s.IsSound) (ho : s.Ordered) : KeepsOrder cx s s :=
  ⟨⟨[], [], .refl cx hs⟩, ho⟩

variable (h : KeepsOrder cx s t)

include h

theorem sound : t.IsSound := by
  obtain ⟨_, _, hex⟩ := h.exchange
  exact hex.sound

theorem inSourceOrder : InSourceOrder cx s t :=
  ⟨h.exchange, h.ordered.pairwise_children⟩

theorem isA {kind : RuleKind} {a : NodeId} (ha : cx.isA s kind a = true) :
    cx.isA t kind a = true := by
  obtain ⟨_, _, hex⟩ := h.exchange
  rwa [Context.isA_congr (hex.content_eq a (Context.has_of_isA ha))]

/-- What a search finds was of the kind from the beginning. -/
theorem isA_of_mem_find {scope a : NodeId} {kind : RuleKind} (ha : a ∈ cx.find t scope kind) :
    cx.isA s kind a = true := by
  obtain ⟨_, _, hex⟩ := h.exchange
  obtain ⟨hhas, hcustom, -⟩ := of_mem_find h.sound ha
  rw [← Context.isA_congr (hex.content_eq a (hex.has_of_atRule hhas hcustom.kind_eq))]
  exact (Context.mem_find_iff.1 ha).2

/-- An exchange by an edit in order. -/
theorem step (hs : s.IsSound) {replaced dropped : List NodeId}
    (hex : Exchange cx t u replaced dropped) {e : Edit} (he : e.IsOrdered t)
    (hleads : e.Leads t u) : KeepsOrder cx s u := by
  obtain ⟨_, _, hex₀⟩ := h.exchange
  exact ⟨⟨_, _, hex₀.trans hs hex⟩, he.ordered hleads h.sound.toIsLinked h.ordered⟩

omit h

/-- A utility is swapped for a rule. -/
theorem lowerUtility (hs : s.IsSound) (h : KeepsOrder cx s p.sheet) {a : NodeId}
    (ha : cx.isA s .utility a = true) (hr : Lowering.lowerUtility p a = .ok q) :
    KeepsOrder cx s q.sheet := by
  have ht := h.sound
  have hcustom : cx.IsCustom p.sheet a := ⟨.utility, h.isA ha⟩
  by_cases hatt : p.sheet.isAttached a = true
  · have hon := ht.isAttached_iff.1 hatt
    obtain ⟨container, selector, hp, hleads⟩ := leads_of_lowerUtility ht hon hcustom hr
    have hsettled : Settled cx id p [] [a] (Lowering.lowerUtility p a) :=
      lowerUtility_settled ht hcustom
    rw [hr] at hsettled
    obtain ⟨replaced, hlow, -⟩ := hsettled
    exact h.step hs hlow.exchange (isOrdered_swap ht.toIsLinked hp selector) hleads
  · rw [Lowering.lowerUtility] at hr
    simp only [hatt] at hr
    cases hr
    exact h

/-- A component is flattened, if it is still in the text. -/
theorem lowerComponent (hs : s.IsSound) (h : KeepsOrder cx s p.sheet) {c : NodeId}
    (hc : cx.isA s .component c = true) (ns : Option String) :
    ∃ q, (if p.sheet.isAttached c then Lowering.lowerComponent cx p c ns else .ok p) = .ok q ∧
      KeepsOrder cx s q.sheet := by
  have ht := h.sound
  have hcustom : cx.IsCustom p.sheet c := ⟨.component, h.isA hc⟩
  have hsettled := lowerComponent_settled ht hcustom ns
  by_cases hatt : p.sheet.isAttached c = true
  · rw [if_pos hatt] at hsettled ⊢
    obtain ⟨container, hp, -⟩ :=
      hcustom.exists_container ht (ht.isAttached_iff.1 hatt)
    obtain ⟨region, hregion, next, hnext, hleads⟩ := performs_lowerComponent cx ht hp ns
    rw [hnext] at hsettled ⊢
    obtain ⟨replaced, hlow, -⟩ := hsettled
    refine ⟨_, rfl, h.step hs hlow.exchange ?_ hleads⟩
    exact isOrdered_flatten ht.toIsLinked h.ordered hp hcustom.kind_eq hregion
  · rw [if_neg hatt]
    exact ⟨p, rfl, h⟩

/-- The components in a block are lowered. -/
theorem lowerBlock (hs : s.IsSound) (h : KeepsOrder cx s p.sheet) (block : NodeId)
    (ns : String) : ∃ q, Lowering.lowerBlock cx p block ns = .ok q ∧ KeepsOrder cx s q.sheet := by
  refine exists_foldlM (P := fun q : Progress => KeepsOrder cx s q.sheet) ?_ h
  intro q c hc hq
  exact hq.lowerComponent hs (h.isA_of_mem_find hc) (some ns)

/-- The children of a namespace come in its place. -/
theorem splice (hs : s.IsSound) (h : KeepsOrder cx s t) {b container : NodeId}
    (hb : cx.IsCustom t b) (hp : t.parent b = some container)
    (hlow : Lowered cx t u container [] [b]) (hleads : (Edit.splice t b container).Leads t u) :
    KeepsOrder cx s u :=
  h.step hs (hlow.exchange h.sound)
    (isOrdered_splice h.sound.toIsLinked h.ordered hp hb.kind_eq) hleads

/-- A namespace gives way to what its block holds, behind the components in it. -/
theorem lowerNamespace (hs : s.IsSound) {map : NamespaceMap} (h : KeepsOrder cx s p.sheet)
    {b : NodeId} (hb : cx.isA s .componentNamespace b = true) :
    ∃ next, Lowering.lowerNamespace cx (map, p) b = .ok next ∧ KeepsOrder cx s next.2.sheet := by
  have ht := h.sound
  have hcustom : cx.IsCustom p.sheet b := ⟨.componentNamespace, h.isA hb⟩
  cases hatt : p.sheet.isAttached b with
  | false => exact ⟨(map, p), lowerNamespace_of_not_isAttached hatt, h⟩
  | true =>
    have hon := ht.isAttached_iff.1 hatt
    cases hbody : (p.sheet.content b).hasBody with
    | false =>
      obtain ⟨container, hp, hlow, hleads⟩ := remove_splices ht hon hcustom hbody
      exact ⟨_, lowerNamespace_of_not_hasBody cx map hatt hbody, h.splice hs hcustom hp hlow hleads⟩
    | true =>
      obtain ⟨q, hq, hkeeps⟩ := lowerBlock hs
        (p := p.count fun c => { c with namespaces := c.namespaces + 1 }) h b (p.sheet.params b)
      -- The block stands above all that was lowered in it, so it is still in the text.
      obtain ⟨hsq, honq, hcontent⟩ := hangsOn_of_lowerBlock
        (p := p.count fun c => { c with namespaces := c.namespaces + 1 }) ht hon hq
      have hcustom' : cx.IsCustom q.sheet b := (Context.isCustom_congr hcontent).2 hcustom
      obtain ⟨container, r, hp, hr, hlow, hleads⟩ := exists_unwrapBlock hsq honq hcustom'
      refine ⟨(map, r), ?_, hkeeps.splice hs hcustom' hp hlow hleads⟩
      rw [lowerNamespace_of_hasBody cx map hatt hbody, hq]
      change (unwrapBlock q b >>= _) = _
      rw [hr]
      rfl

/-! ## Passes -/

theorem lowerUtilities (hs : s.IsSound) (h : KeepsOrder cx s p.sheet)
    (hr : Lowering.lowerUtilities cx p = .ok q) : KeepsOrder cx s q.sheet := by
  refine foldlM_of_step (P := fun q : Progress => KeepsOrder cx s q.sheet) ?_ h hr
  intro q a next ha hq hnext
  exact hq.lowerUtility hs (h.isA_of_mem_find ha) hnext

theorem lowerNamespaces (hs : s.IsSound) (h : KeepsOrder cx s p.sheet) :
    ∃ map q, Lowering.lowerNamespaces cx p = .ok (map, q) ∧ KeepsOrder cx s q.sheet := by
  have hrun : ∃ last, Lowering.lowerNamespaces cx p = .ok last ∧ KeepsOrder cx s last.2.sheet := by
    refine exists_foldlM (P := fun state : NamespaceMap × Progress =>
      KeepsOrder cx s state.2.sheet) ?_ h
    intro state b hb hstate
    exact hstate.lowerNamespace hs (h.isA_of_mem_find hb)
  obtain ⟨⟨map, q⟩, hq, hkeeps⟩ := hrun
  exact ⟨map, q, hq, hkeeps⟩

theorem lowerComponents (hs : s.IsSound) (h : KeepsOrder cx s p.sheet) (map : NamespaceMap)
    (default : Option String) :
    ∃ q, Lowering.lowerComponents cx map default p = .ok q ∧ KeepsOrder cx s q.sheet := by
  refine exists_foldlM (P := fun q : Progress => KeepsOrder cx s q.sheet) ?_ h
  intro q c hc hq
  exact hq.lowerComponent hs (h.isA_of_mem_find hc) _

end KeepsOrder

end Lowering

open Lowering

namespace Sheet

variable {s : Sheet} {o : Options} {p : Progress}

theorem keepsOrder_withoutUtilities (hs : s.IsSound) (ho : s.Ordered)
    (h : s.withoutUtilities o = .ok p) : KeepsOrder (.ofOptions o) s p.sheet := by
  have hstart : KeepsOrder (.ofOptions o) s ({ sheet := s } : Progress).sheet := .refl _ hs ho
  rw [withoutUtilities] at h
  split at h
  · exact hstart.lowerUtilities hs h
  · cases h
    exact hstart

/-- Nothing but a utility under SUIT stops a run before the states. After the utilities, after the
namespaces and after the components, the children of each node start one behind the other: from
earlier inputs before later ones, and from earlier bytes of an input before later ones. The rules
come from where the at-rules came from that they are in exchange for. For BEM that is the end of the
run. -/
theorem transform_inSourceOrder (texts : List (Input × String)) (o : Options) :
    match (read texts).withoutUtilities o with
    | .error stopped => o.style = .suit ∧ (read texts).transform o = .error stopped
    | .ok p => InSourceOrder (.ofOptions o) (read texts) p.sheet ∧
      ∃ map q, lowerNamespaces (.ofOptions o) p = .ok (map, q) ∧
        InSourceOrder (.ofOptions o) (read texts) q.sheet ∧
        ∃ r, lowerComponents (.ofOptions o) map o.defaultNamespace q = .ok r ∧
          InSourceOrder (.ofOptions o) (read texts) r.sheet ∧
          match o.style with
          | .bem => (read texts).transform o = .ok r
          | .suit => (read texts).transform o = lowerStates (.ofOptions o) r := by
  have hs := isSound_read texts
  have hrun := transform_eq (read texts) o
  cases hp : (read texts).withoutUtilities o with
  | error stopped =>
    rw [hp] at hrun
    refine ⟨?_, hrun⟩
    -- BEM leaves the utilities alone, so nothing stops there.
    rw [withoutUtilities] at hp
    split at hp
    · rename_i hsuit
      exact Options.rewritesUtilities_iff.1 hsuit
    · cases hp
  | ok p =>
    have hfirst := keepsOrder_withoutUtilities hs (ordered_read texts) hp
    obtain ⟨map, q, hq, hsecond⟩ := hfirst.lowerNamespaces hs
    obtain ⟨r, hr, hthird⟩ := hsecond.lowerComponents hs map o.defaultNamespace
    refine ⟨hfirst.inSourceOrder, map, q, hq, hsecond.inSourceOrder, r, hr,
      hthird.inSourceOrder, ?_⟩
    have hlast : (read texts).transform o =
        if o.convention.rewritesStates then lowerStates (.ofOptions o) r else .ok r := by
      rw [hrun, hp]
      change (lowerNamespaces (.ofOptions o) p >>= _) = _
      rw [hq]
      change (lowerComponents (.ofOptions o) map o.defaultNamespace q >>= _) = _
      rw [hr]
      rfl
    cases hstyle : o.style with
    | bem =>
      have hno : ¬ o.convention.rewritesStates = true := by
        rw [Options.rewritesStates_iff, hstyle]
        decide
      exact hlast.trans (if_neg hno)
    | suit => exact hlast.trans (if_pos (Options.rewritesStates_iff.2 hstyle))

end Sheet

end ClassRules
