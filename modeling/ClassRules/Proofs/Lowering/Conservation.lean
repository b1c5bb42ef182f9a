import ClassRules.Proofs.Lowering.Exchange
import Mathlib.Data.Set.Function

/-!
# Nothing is lost and nothing doubled

## What this module delivers

- `Conserved`: what stays in the text, what goes and what comes, node by node.
- `originOf`: the at-rule that a new rule was made for. `Exchange.correspond`: each at-rule that
  left the text without being dropped is that of one new rule.
- `Exchange.conserved`: an exchange of at-rules for rules conserves the text.
-/

set_option autoImplicit false

namespace ClassRules.Lowering

open Sheet

variable {cx : Context} {s t : Sheet} {replaced dropped : List NodeId}

/-- From `s` to `t` nothing was lost and nothing doubled, the at-rules in `dropped` having been
lowered as namespaces. What was in the text is there unchanged or is an empty at-rule that was taken
out. What is new is a rule of the text, and comes from one of the at-rules that were taken out. -/
structure Conserved (cx : Context) (s t : Sheet) (dropped : List NodeId) : Prop where
  kept_or_taken_out : ∀ id, s.isAttached id = true →
    t.content id = s.content id ∧ t.source id = s.source id ∧
      (t.isAttached id = true ∨ t.isAttached id = false ∧ t.parent id = none ∧ t.children id = [] ∧
        t.kind id = .atRule ∧ ∃ kind, cx.isA t kind id = true)
  created : ∀ id, t.Has id → ¬ s.Has id → t.isAttached id = true ∧ t.kind id = .rule
  correspond : ∃ origin : NodeId → NodeId,
    Set.BijOn origin {id | t.Has id ∧ ¬ s.Has id}
      {id | s.isAttached id = true ∧ t.isAttached id = false ∧ id ∉ dropped} ∧
    ∀ id, t.Has id → ¬ s.Has id → t.source id = s.source (origin id)

/-! ## Where a new rule comes from -/

/-- The at-rule that a new rule was made for: the n-th rule was made for the n-th at-rule. -/
def originOf (s : Sheet) (replaced : List NodeId) (rule : NodeId) : NodeId :=
  (replaced[rule.index - s.nodes.size]?).getD root

theorem originOf_mk (s : Sheet) {n : Nat} (hn : n < replaced.length) :
    originOf s replaced ⟨s.nodes.size + n⟩ = replaced[n] := by
  simp [originOf, hn]

namespace Exchange

/-- A new rule has a number among the new rules, and its source is that of the at-rule with this
number. -/
theorem exists_number (h : Exchange cx s t replaced dropped) {id : NodeId} (hid : t.Has id)
    (hnew : ¬ s.Has id) : ∃ (n : Nat) (hn : n < replaced.length),
      id = ⟨s.nodes.size + n⟩ ∧ t.source id = s.source replaced[n] := by
  obtain ⟨n, hn, heq⟩ := List.mem_iff_getElem.1 (mem_handles_of_new h.size_eq hid hnew)
  have hn' : n < replaced.length := by
    rwa [length_handles] at hn
  have hrule : Replaces s t (handles s.nodes.size replaced.length)[n] replaced[n] :=
    h.rules.get hn hn'
  have hid' : (handles s.nodes.size replaced.length)[n] = ⟨s.nodes.size + n⟩ := by
    simp [handles]
  exact ⟨n, hn', heq.symm.trans hid', heq ▸ hrule.source_eq⟩

/-- What was exchanged for a rule is what left the text without being dropped. -/
theorem mem_replaced_iff (hs : s.IsSound) (h : Exchange cx s t replaced dropped) {a : NodeId} :
    a ∈ replaced ↔ s.isAttached a = true ∧ t.isAttached a = false ∧ a ∉ dropped := by
  constructor
  · intro ha
    have hmem : a ∈ replaced ++ dropped := List.mem_append_left _ ha
    refine ⟨hs.isAttached_iff.2 (h.was_custom a hmem).2.1, ?_, ?_⟩
    · exact Bool.eq_false_iff.2 fun hatt =>
        h.not_hangsOn_root hs hmem (h.sound.isAttached_iff.1 hatt)
    · intro hdropped
      exact (List.nodup_append.1 h.nodup).2.2 a ha a hdropped rfl
  · rintro ⟨hatt, hgone, hnot⟩
    have hon := hs.isAttached_iff.1 hatt
    by_contra hkept
    -- Whatever an exchange does not take out stays in the text.
    have hstay : a ∉ replaced ++ dropped := fun hmem =>
      (List.mem_append.1 hmem).elim hkept hnot
    have hon' := (h.hangsOn_iff a (hs.has_of_hangsOn hon) hstay).2 hon
    rw [h.sound.isAttached_iff.2 hon'] at hgone
    cases hgone

/-- New rules and the at-rules that left the text without being dropped are in a one-to-one
correspondence. -/
theorem bijOn_originOf (hs : s.IsSound) (h : Exchange cx s t replaced dropped) :
    Set.BijOn (originOf s replaced) {id | t.Has id ∧ ¬ s.Has id}
      {id | s.isAttached id = true ∧ t.isAttached id = false ∧ id ∉ dropped} := by
  refine ⟨?_, ?_, ?_⟩
  · rintro id ⟨hid, hnew⟩
    obtain ⟨n, hn, rfl, -⟩ := h.exists_number hid hnew
    rw [originOf_mk s hn]
    exact (h.mem_replaced_iff hs).1 (List.getElem_mem hn)
  · rintro id ⟨hid, hnew⟩ id' ⟨hid', hnew'⟩ heq
    obtain ⟨n, hn, rfl, -⟩ := h.exists_number hid hnew
    obtain ⟨n', hn', rfl, -⟩ := h.exists_number hid' hnew'
    rw [originOf_mk s hn, originOf_mk s hn'] at heq
    rw [(List.nodup_append.1 h.nodup).1.getElem_inj_iff.1 heq]
  · intro a ha
    obtain ⟨n, hn, rfl⟩ := List.mem_iff_getElem.1 ((h.mem_replaced_iff hs).2 ha)
    refine ⟨⟨s.nodes.size + n⟩, ⟨?_, ?_⟩, originOf_mk s hn⟩
    · simp only [Has, h.size_eq]
      omega
    · simp [Has]

/-- The at-rules that were exchanged for rules, in their order, are where the rules come from. -/
theorem correspond (hs : s.IsSound) (h : Exchange cx s t replaced dropped) :
    ∃ origin : NodeId → NodeId,
      Set.BijOn origin {id | t.Has id ∧ ¬ s.Has id}
        {id | s.isAttached id = true ∧ t.isAttached id = false ∧ id ∉ dropped} ∧
      ∀ id, t.Has id → ¬ s.Has id → t.source id = s.source (origin id) := by
  refine ⟨originOf s replaced, h.bijOn_originOf hs, ?_⟩
  intro id hid hnew
  obtain ⟨n, hn, rfl, hsource⟩ := h.exists_number hid hnew
  rw [hsource, originOf_mk s hn]

/-- An exchange conserves the text. -/
theorem conserved (hs : s.IsSound) (h : Exchange cx s t replaced dropped) :
    Conserved cx s t dropped := by
  refine ⟨?_, ?_, h.correspond hs⟩
  · intro id hatt
    have hon := hs.isAttached_iff.1 hatt
    have hhas := hs.has_of_hangsOn hon
    refine ⟨h.content_eq id hhas, h.source_eq id hhas, ?_⟩
    by_cases hmem : id ∈ replaced ++ dropped
    · obtain ⟨hp, hc⟩ := h.taken_out id hmem
      obtain ⟨kind, hk⟩ := (h.was_custom id hmem).2.2
      rw [← Context.isA_congr (h.content_eq id hhas)] at hk
      refine .inr ⟨Bool.eq_false_iff.2 ?_, hp, hc, Context.kind_of_isA hk, kind, hk⟩
      intro hatt'
      exact h.not_hangsOn_root hs hmem (h.sound.isAttached_iff.1 hatt')
    · exact .inl (h.sound.isAttached_iff.2 ((h.hangsOn_iff id hhas hmem).2 hon))
  · intro id hid hnew
    obtain ⟨a, -, ha⟩ := exists_of_forall₂ h.rules (mem_handles_of_new h.size_eq hid hnew)
    exact ⟨h.sound.isAttached_iff.2 ha.hangsOn_root, ha.kind_eq⟩

end Exchange

end ClassRules.Lowering
