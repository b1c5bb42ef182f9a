import ClassRules.Proofs.Lowering.Component
import ClassRules.Proofs.Sheet.Preorder
import ClassRules.Proofs.Sheet.Read

/-!
# At-rules in exchange for rules

Whatever is lowered, at-rules of the text are taken out, and in exchange for most of them a rule is
put in. All else stays in the text.

## What this module delivers

- `Exchange`: this, from one sheet to another; `Exchange.refl` and `Exchange.trans`.
- `Exchange.hangsOn_of_atRule`: no at-rule comes into the text.
- `Exchange.attachedCount_eq`: how many nodes the text has afterwards.
- `Lowered`: what a single step does to parents. `Lowered.exchange`: such a step is an exchange.
-/

set_option autoImplicit false

namespace ClassRules.Lowering

open Sheet

/-- A node is an at-rule of one of the kinds that stand for classes. -/
def Context.IsCustom (cx : Context) (s : Sheet) (id : NodeId) : Prop :=
  ∃ kind, cx.isA s kind id = true

/-- A rule of the text comes from where an at-rule came from. -/
structure Replaces (s t : Sheet) (rule atRule : NodeId) : Prop where
  kind_eq : t.kind rule = .rule
  source_eq : t.source rule = s.source atRule
  hangsOn_root : t.HangsOn rule root

/-- From `s` to `t` at-rules of the text were taken out: those `replaced` in exchange for new rules,
in this order, and those `dropped` for nothing. Nodes only move up: numbers that grow from parent to
child still do so once the new rules have some. -/
structure Exchange (cx : Context) (s t : Sheet) (replaced dropped : List NodeId) : Prop where
  sound : t.IsSound
  size_eq : t.nodes.size = s.nodes.size + replaced.length
  content_eq : ∀ id, s.Has id → t.content id = s.content id
  source_eq : ∀ id, s.Has id → t.source id = s.source id
  nodup : (replaced ++ dropped).Nodup
  was_custom : ∀ a ∈ replaced ++ dropped, s.Has a ∧ s.HangsOn a root ∧ cx.IsCustom s a
  taken_out : ∀ a ∈ replaced ++ dropped, t.parent a = none ∧ t.children a = []
  hangsOn_iff : ∀ id, s.Has id → id ∉ replaced ++ dropped →
    (t.HangsOn id root ↔ s.HangsOn id root)
  parent_none : ∀ id, s.Has id → s.parent id = none → t.parent id = none
  children_nil : ∀ id, s.Has id → s.children id = [] → t.children id = []
  ranked : ∀ rank : NodeId → Nat, s.Ranked rank →
    ∃ rank' : NodeId → Nat, (∀ id, s.Has id → rank' id = rank id) ∧ t.Ranked rank'
  rules : List.Forall₂ (Replaces s t) (handles s.nodes.size replaced.length) replaced

variable {cx : Context} {s t u : Sheet}

theorem Context.isCustom_congr {id : NodeId} (h : t.content id = s.content id) :
    cx.IsCustom t id ↔ cx.IsCustom s id := by
  simp only [IsCustom, isA_congr h]

theorem Context.IsCustom.kind_eq {id : NodeId} (h : cx.IsCustom s id) : s.kind id = .atRule := by
  obtain ⟨kind, hk⟩ := h
  exact kind_of_isA hk

namespace Exchange

variable {replaced dropped replaced' dropped' : List NodeId}

theorem refl (cx : Context) (h : s.IsSound) : Exchange cx s s [] [] where
  sound := h
  size_eq := rfl
  content_eq _ _ := rfl
  source_eq _ _ := rfl
  nodup := List.nodup_nil
  was_custom _ ha := absurd ha List.not_mem_nil
  taken_out _ ha := absurd ha List.not_mem_nil
  hangsOn_iff _ _ _ := Iff.rfl
  parent_none _ _ hp := hp
  children_nil _ _ hc := hc
  ranked rank hr := ⟨rank, fun _ _ => rfl, hr⟩
  rules := .nil

theorem has (h : Exchange cx s t replaced dropped) {id : NodeId} (hid : s.Has id) : t.Has id :=
  Nat.lt_of_lt_of_le hid (h.size_eq ▸ Nat.le_add_right _ _)

theorem kind_of_new (h : Exchange cx s t replaced dropped) {id : NodeId} (hid : t.Has id)
    (hnew : ¬ s.Has id) : t.kind id = .rule := by
  obtain ⟨a, -, ha⟩ := exists_of_forall₂ h.rules (mem_handles_of_new h.size_eq hid hnew)
  exact ha.kind_eq

/-- At-rules are as old as the sheet at the beginning. -/
theorem has_of_atRule (h : Exchange cx s t replaced dropped) {id : NodeId} (hid : t.Has id)
    (hk : t.kind id = .atRule) : s.Has id := by
  by_contra hnew
  rw [h.kind_of_new hid hnew] at hk
  cases hk

/-- What was taken out is not in the text. -/
theorem not_hangsOn_root (hs : s.IsSound) (h : Exchange cx s t replaced dropped) {a : NodeId}
    (ha : a ∈ replaced ++ dropped) : ¬ t.HangsOn a root := by
  intro hon
  -- A node without a parent is in the text only if it is the root, which is no at-rule.
  have hroot : a = root := (HangsOn.iff_eq_of_parent_none (h.taken_out a ha).1).1 hon
  have hk := (h.was_custom a ha).2.2.kind_eq
  rw [hroot, Sheet.kind, hs.content_root] at hk
  cases hk

/-- No at-rule comes into the text. -/
theorem hangsOn_of_atRule (hs : s.IsSound) (h : Exchange cx s t replaced dropped) {id : NodeId}
    (hid : t.Has id) (hk : t.kind id = .atRule) (hon : t.HangsOn id root) : s.HangsOn id root := by
  have hold := h.has_of_atRule hid hk
  have hkept : id ∉ replaced ++ dropped := fun hmem => h.not_hangsOn_root hs hmem hon
  exact (h.hangsOn_iff id hold hkept).1 hon

/-- What a second exchange takes out was in the text before the first one as well. -/
theorem was_custom_of_next (hs : s.IsSound) (h₁ : Exchange cx s t replaced dropped)
    (h₂ : Exchange cx t u replaced' dropped') {a : NodeId} (ha : a ∈ replaced' ++ dropped') :
    s.Has a ∧ s.HangsOn a root ∧ cx.IsCustom s a := by
  obtain ⟨hhas, hon, hcustom⟩ := h₂.was_custom a ha
  have hold := h₁.has_of_atRule hhas hcustom.kind_eq
  refine ⟨hold, ?_, ?_⟩
  · exact h₁.hangsOn_of_atRule hs hhas hcustom.kind_eq hon
  · exact (Context.isCustom_congr (h₁.content_eq a hold)).1 hcustom

/-- No at-rule is taken out twice. -/
theorem nodup_append (hs : s.IsSound) (h₁ : Exchange cx s t replaced dropped)
    (h₂ : Exchange cx t u replaced' dropped') :
    (replaced ++ replaced' ++ (dropped ++ dropped')).Nodup := by
  have hperm : (replaced ++ replaced' ++ (dropped ++ dropped')).Perm
      (replaced ++ dropped ++ (replaced' ++ dropped')) := by
    simp only [List.append_assoc]
    refine List.Perm.append_left replaced ?_
    rw [← List.append_assoc, ← List.append_assoc]
    exact List.Perm.append_right dropped' List.perm_append_comm
  -- What the first exchange took out is not in the text when the second one begins.
  refine hperm.nodup_iff.2 (List.nodup_append.2 ⟨h₁.nodup, h₂.nodup, ?_⟩)
  rintro a ha b hb rfl
  exact h₁.not_hangsOn_root hs ha (h₂.was_custom a hb).2.1

/-- A rule stays through an exchange, as only at-rules are taken out. -/
theorem replaces_of_next (h₂ : Exchange cx t u replaced' dropped') {r a : NodeId} (hr : t.Has r)
    (h : Replaces s t r a) : Replaces s u r a := by
  have hkept : r ∉ replaced' ++ dropped' := by
    intro hmem
    have hk := (h₂.was_custom r hmem).2.2.kind_eq
    rw [h.kind_eq] at hk
    cases hk
  constructor
  · rw [Sheet.kind, h₂.content_eq r hr]
    exact h.kind_eq
  · rw [h₂.source_eq r hr, h.source_eq]
  · exact (h₂.hangsOn_iff r hr hkept).2 h.hangsOn_root

/-- The rules of two exchanges, those of the first one in front. -/
theorem rules_append (hs : s.IsSound) (h₁ : Exchange cx s t replaced dropped)
    (h₂ : Exchange cx t u replaced' dropped') :
    List.Forall₂ (Replaces s u) (handles s.nodes.size (replaced ++ replaced').length)
      (replaced ++ replaced') := by
  rw [List.length_append, handles_add]
  apply List.rel_append
  · refine forall₂_imp_of_mem h₁.rules fun r hr a _ hra => h₂.replaces_of_next ?_ hra
    simpa only [Has, h₁.size_eq] using (mem_handles.1 hr).2
  · apply forall₂_imp_of_mem (h₁.size_eq ▸ h₂.rules)
    intro r _ a ha hra
    have hold := (h₁.was_custom_of_next hs h₂ (List.mem_append_left _ ha)).1
    exact ⟨hra.kind_eq, by rw [hra.source_eq, h₁.source_eq a hold], hra.hangsOn_root⟩

/-- Two exchanges one after the other are one. -/
theorem trans (hs : s.IsSound) (h₁ : Exchange cx s t replaced dropped)
    (h₂ : Exchange cx t u replaced' dropped') :
    Exchange cx s u (replaced ++ replaced') (dropped ++ dropped') := by
  have hmem : ∀ a, a ∈ replaced ++ replaced' ++ (dropped ++ dropped') ↔
      a ∈ replaced ++ dropped ∨ a ∈ replaced' ++ dropped' := by
    intro a
    simp only [List.mem_append]
    tauto
  constructor
  case sound =>
    exact h₂.sound
  case size_eq =>
    rw [h₂.size_eq, h₁.size_eq, List.length_append, Nat.add_assoc]
  case content_eq =>
    intro id hid
    rw [h₂.content_eq id (h₁.has hid), h₁.content_eq id hid]
  case source_eq =>
    intro id hid
    rw [h₂.source_eq id (h₁.has hid), h₁.source_eq id hid]
  case nodup =>
    exact h₁.nodup_append hs h₂
  case was_custom =>
    intro a ha
    rcases (hmem a).1 ha with ha | ha
    · exact h₁.was_custom a ha
    · exact h₁.was_custom_of_next hs h₂ ha
  case taken_out =>
    intro a ha
    rcases (hmem a).1 ha with ha | ha
    · have hhas := h₁.has (h₁.was_custom a ha).1
      obtain ⟨hp, hc⟩ := h₁.taken_out a ha
      exact ⟨h₂.parent_none a hhas hp, h₂.children_nil a hhas hc⟩
    · exact h₂.taken_out a ha
  case hangsOn_iff =>
    intro id hid hnot
    rw [hmem, not_or] at hnot
    rw [h₂.hangsOn_iff id (h₁.has hid) hnot.2, h₁.hangsOn_iff id hid hnot.1]
  case parent_none =>
    intro id hid hp
    exact h₂.parent_none id (h₁.has hid) (h₁.parent_none id hid hp)
  case children_nil =>
    intro id hid hc
    exact h₂.children_nil id (h₁.has hid) (h₁.children_nil id hid hc)
  case ranked =>
    intro rank hr
    obtain ⟨rank₁, heq₁, hr₁⟩ := h₁.ranked rank hr
    obtain ⟨rank₂, heq₂, hr₂⟩ := h₂.ranked rank₁ hr₁
    exact ⟨rank₂, fun id hid => by rw [heq₂ id (h₁.has hid), heq₁ id hid], hr₂⟩
  case rules =>
    exact h₁.rules_append hs h₂

/-- What is in the text afterwards and what was taken out are what was in the text and what is
new. -/
theorem mem_attachedNodes_iff_of_new (hs : s.IsSound) (h : Exchange cx s t replaced dropped)
    (id : NodeId) : id ∈ t.attachedNodes ++ (replaced ++ dropped) ↔
      id ∈ s.attachedNodes ++ handles s.nodes.size replaced.length := by
  rw [@List.mem_append _ id t.attachedNodes, @List.mem_append _ id s.attachedNodes,
    mem_attachedNodes_iff h.sound.toIsForest, mem_attachedNodes_iff hs.toIsForest]
  by_cases hgone : id ∈ replaced ++ dropped
  · exact iff_of_true (.inr hgone) (.inl (h.was_custom id hgone).2.1)
  by_cases hold : s.Has id
  · have hnew := not_mem_handles_of_has hold (Nat.le_refl _) replaced.length
    rw [h.hangsOn_iff id hold hgone]
    exact ⟨fun hid => .inl (hid.resolve_right hgone), fun hid => .inl (hid.resolve_right hnew)⟩
  · constructor
    · intro hid
      exact .inr (mem_handles_of_new h.size_eq
        (h.sound.has_of_hangsOn (hid.resolve_right hgone)) hold)
    · intro hid
      obtain ⟨a, -, ha⟩ := exists_of_forall₂ h.rules
        (hid.resolve_left fun hon => hold (hs.has_of_hangsOn hon))
      exact .inl ha.hangsOn_root

/-- The text loses as many nodes as are dropped. -/
theorem attachedCount_eq (hs : s.IsSound) (h : Exchange cx s t replaced dropped) :
    t.attachedCount + dropped.length = s.attachedCount := by
  have hleft : (t.attachedNodes ++ (replaced ++ dropped)).Nodup := by
    refine List.nodup_append.2 ⟨nodup_attachedNodes h.sound.toIsForest, h.nodup, ?_⟩
    rintro a ha b hb rfl
    exact h.not_hangsOn_root hs hb ((mem_attachedNodes_iff h.sound.toIsForest).1 ha)
  have hright : (s.attachedNodes ++ handles s.nodes.size replaced.length).Nodup := by
    refine List.nodup_append.2 ⟨nodup_attachedNodes hs.toIsForest, nodup_handles _ _, ?_⟩
    rintro a ha b hb rfl
    have hold := hs.has_of_hangsOn ((mem_attachedNodes_iff hs.toIsForest).1 ha)
    exact not_mem_handles_of_has hold (Nat.le_refl _) _ hb
  -- Both lists have every node once, so they are equally long.
  have hlength := ((List.perm_ext_iff_of_nodup hleft hright).2
    (h.mem_attachedNodes_iff_of_new hs)).length_eq
  simp only [List.length_append, length_handles] at hlength
  rw [Sheet.attachedCount_eq, Sheet.attachedCount_eq]
  omega

end Exchange

/-! ## Single steps -/

/-- What a single step does to parents. The new rules hang on a node `container` that stands above
all that is taken out, and so does what stood in that, directly or in a new rule. -/
structure Lowered (cx : Context) (s t : Sheet) (container : NodeId)
    (replaced dropped : List NodeId) : Prop where
  forest : t.IsForest
  size_eq : t.nodes.size = s.nodes.size + replaced.length
  content_eq : ∀ id, s.Has id → t.content id = s.content id
  source_eq : ∀ id, s.Has id → t.source id = s.source id
  nodup : (replaced ++ dropped).Nodup
  was_custom : ∀ a ∈ replaced ++ dropped, s.HangsOn a root ∧ cx.IsCustom s a
  below : ∀ a ∈ replaced ++ dropped, a ≠ container ∧ s.HangsOn a container
  container_hangsOn : s.HangsOn container root
  container_ne_nil : s.children container ≠ []
  parent_gone : ∀ a ∈ replaced ++ dropped, t.parent a = none
  parent_rule : ∀ r ∈ handles s.nodes.size replaced.length, t.parent r = some container
  parent_inside : ∀ a ∈ replaced ++ dropped, ∀ c ∉ replaced ++ dropped, s.parent c = some a →
    t.parent c = some container ∨
      ∃ r ∈ handles s.nodes.size replaced.length, t.parent c = some r
  parent_other : ∀ id, s.Has id → id ∉ replaced ++ dropped →
    (∀ a ∈ replaced ++ dropped, s.parent id ≠ some a) → t.parent id = s.parent id
  rules : List.Forall₂ (fun r a => t.kind r = .rule ∧ t.source r = s.source a)
    (handles s.nodes.size replaced.length) replaced

namespace Lowered

variable {container : NodeId} {replaced dropped : List NodeId}

theorem container_not_gone (h : Lowered cx s t container replaced dropped) :
    container ∉ replaced ++ dropped := fun hmem =>
  (h.below container hmem).1 rfl

/-- What is not taken out is in the text if it was. The induction is on the depth, as the container
stands above all that lose their parents. -/
theorem hangsOn_iff (hs : s.IsSound) (h : Lowered cx s t container replaced dropped) {id : NodeId}
    (hid : s.Has id) (hnot : id ∉ replaced ++ dropped) :
    t.HangsOn id root ↔ s.HangsOn id root := by
  induction hd : s.depth id using Nat.strongRecOn generalizing id with
  | ind d ih =>
    by_cases hin : ∃ a ∈ replaced ++ dropped, s.parent id = some a
    · -- What stood in an at-rule that was taken out is in the text with the container.
      obtain ⟨a, ha, hp⟩ := hin
      have hdepth := hs.depth_of_parent hp
      have hlt := (h.below a ha).2.rank_lt hs.ranked_depth (h.below a ha).1
      have hcontainer : t.HangsOn container root :=
        (ih (s.depth container) (by omega) (hs.has_of_hangsOn h.container_hangsOn)
          h.container_not_gone rfl).2 h.container_hangsOn
      refine iff_of_true ?_ (.head hp (h.was_custom a ha).1)
      rcases h.parent_inside a ha id hnot hp with hc | ⟨r, hr, hc⟩
      · exact .head hc hcontainer
      · exact .head hc (.head (h.parent_rule r hr) hcontainer)
    · have hout : ∀ a ∈ replaced ++ dropped, s.parent id ≠ some a := fun a ha hp =>
        hin ⟨a, ha, hp⟩
      have hsame := h.parent_other id hid hnot hout
      cases hp : s.parent id with
      | none =>
        rw [HangsOn.iff_eq_of_parent_none hp, HangsOn.iff_eq_of_parent_none (hsame.trans hp)]
      | some p =>
        have hpnot : p ∉ replaced ++ dropped := fun hmem => hout p hmem hp
        have hdepth := hs.depth_of_parent hp
        rw [HangsOn.iff_of_parent hp, HangsOn.iff_of_parent (hsame.trans hp),
          ih (s.depth p) (by omega) (hs.has_parent hp) hpnot rfl]

/-- How a node comes to hang on another one: it is new, or what it stood in was taken out, or it
hung there before. -/
theorem parent_cases (h : Lowered cx s t container replaced dropped) {c p : NodeId}
    (hp : t.parent c = some p) :
    (¬ s.Has c ∧ p = container) ∨
    (∃ a ∈ replaced ++ dropped, s.Has c ∧ s.parent c = some a ∧
      (p = container ∨ p ∈ handles s.nodes.size replaced.length)) ∨
    (s.Has c ∧ p ∉ replaced ++ dropped ∧ s.parent c = some p) := by
  by_cases hold : s.Has c
  · have hnot : c ∉ replaced ++ dropped := by
      intro hmem
      rw [h.parent_gone c hmem] at hp
      cases hp
    by_cases hin : ∃ a ∈ replaced ++ dropped, s.parent c = some a
    · obtain ⟨a, ha, hpa⟩ := hin
      refine .inr (.inl ⟨a, ha, hold, hpa, ?_⟩)
      rcases h.parent_inside a ha c hnot hpa with hc | ⟨r, hr, hc⟩
      · exact .inl (Option.some.inj (hp.symm.trans hc))
      · exact .inr (Option.some.inj (hc.symm.trans hp) ▸ hr)
    · have hout : ∀ a ∈ replaced ++ dropped, s.parent c ≠ some a := fun a ha hpa =>
        hin ⟨a, ha, hpa⟩
      rw [h.parent_other c hold hnot hout] at hp
      exact .inr (.inr ⟨hold, fun hmem => hout p hmem hp, hp⟩)
  · have hnew := mem_handles_of_new h.size_eq (has_of_parent hp) hold
    exact .inl ⟨hold, Option.some.inj (hp.symm.trans (h.parent_rule c hnew))⟩

/-- The new rules get the number behind that of the container. -/
theorem ranked (h : Lowered cx s t container replaced dropped) (hs : s.IsSound)
    {rank : NodeId → Nat} (hr : s.Ranked rank) :
    t.Ranked fun id => if s.Has id then rank id else rank container + 1 := by
  have hcontainer : s.Has container := hs.has_of_hangsOn h.container_hangsOn
  intro c p hp
  dsimp only
  rcases h.parent_cases hp with ⟨hnew, rfl⟩ | ⟨a, ha, hold, hpa, hcase⟩ | ⟨hold, -, hpa⟩
  · rw [if_pos hcontainer, if_neg hnew]
    exact Nat.lt_succ_self _
  · have hup := (h.below a ha).2.rank_lt hr (h.below a ha).1
    have hdown := hr hpa
    rw [if_pos hold]
    rcases hcase with rfl | hmem
    · rw [if_pos hcontainer]
      omega
    · rw [if_neg fun hhas => not_mem_handles_of_has hhas (Nat.le_refl _) _ hmem]
      omega
  · rw [if_pos hold, if_pos (hs.has_parent hpa)]
    exact hr hpa

theorem has_of_gone (hs : s.IsSound) (h : Lowered cx s t container replaced dropped) {a : NodeId}
    (ha : a ∈ replaced ++ dropped) : s.Has a :=
  hs.has_of_hangsOn (h.was_custom a ha).1

/-- A node is empty afterwards if it was empty and is old, or if it was taken out. -/
theorem children_nil (h : Lowered cx s t container replaced dropped) {id : NodeId} (hid : s.Has id)
    (hempty : id ∈ replaced ++ dropped ∨ ∀ c, s.parent c ≠ some id) (hne : id ≠ container) :
    t.children id = [] := by
  apply List.eq_nil_iff_forall_not_mem.2
  intro c hc
  rcases h.parent_cases (h.forest.mem_children_iff.1 hc) with ⟨-, rfl⟩ | ⟨a, -, -, -, hcase⟩ |
    ⟨-, hnot, hp⟩
  · exact hne rfl
  · rcases hcase with rfl | hmem
    · exact hne rfl
    · exact not_mem_handles_of_has hid (Nat.le_refl _) _ hmem
  · rcases hempty with hgone | hnone
    · exact hnot hgone
    · exact hnone c hp

theorem children_nil_of_nil (hs : s.IsSound) (h : Lowered cx s t container replaced dropped)
    {id : NodeId} (hid : s.Has id) (hnil : s.children id = []) : t.children id = [] := by
  apply h.children_nil hid
  · exact .inr fun c hp => List.not_mem_nil (hnil ▸ hs.mem_children_iff.2 hp)
  · exact fun e => h.container_ne_nil (e ▸ hnil)

theorem parent_none (h : Lowered cx s t container replaced dropped) {id : NodeId} (hid : s.Has id)
    (hnone : s.parent id = none) : t.parent id = none := by
  by_cases hgone : id ∈ replaced ++ dropped
  · exact h.parent_gone id hgone
  · have hout : ∀ a ∈ replaced ++ dropped, s.parent id ≠ some a := by
      intro a _ hp
      rw [hnone] at hp
      cases hp
    rw [h.parent_other id hid hgone hout, hnone]

/-- The new rules are in the text, since the container is. -/
theorem replaces (hs : s.IsSound) (h : Lowered cx s t container replaced dropped) :
    List.Forall₂ (Replaces s t) (handles s.nodes.size replaced.length) replaced := by
  have hcontainer : t.HangsOn container root :=
    (h.hangsOn_iff hs (hs.has_of_hangsOn h.container_hangsOn) h.container_not_gone).2
      h.container_hangsOn
  apply forall₂_imp_of_mem h.rules
  intro r hr a _ hra
  exact ⟨hra.1, hra.2, .head (h.parent_rule r hr) hcontainer⟩

theorem sound (hs : s.IsSound) (h : Lowered cx s t container replaced dropped) : t.IsSound where
  toIsForest := h.forest
  has_root := Nat.lt_of_lt_of_le hs.has_root (h.size_eq ▸ Nat.le_add_right _ _)
  parent_root := h.parent_none hs.has_root hs.parent_root
  content_root := by rw [h.content_eq root hs.has_root, hs.content_root]
  carries := by
    intro id hne
    by_cases hid : s.Has id
    · rw [h.content_eq id hid]
      exact hs.carries id fun hnil => hne (h.children_nil_of_nil hs hid hnil)
    · -- A new node is a rule, and rules carry children.
      have hhas := has_of_mem_children (List.head_mem hne)
      obtain ⟨a, -, ha⟩ :=
        exists_of_forall₂ (h.replaces hs) (mem_handles_of_new h.size_eq hhas hid)
      have hk := ha.kind_eq
      rw [Sheet.kind] at hk
      cases hc : t.content id <;> simp_all [Content.kind, Content.carries]

/-- A step that lowers at-rules of the text is an exchange. -/
theorem exchange (hs : s.IsSound) (h : Lowered cx s t container replaced dropped) :
    Exchange cx s t replaced dropped where
  sound := h.sound hs
  size_eq := h.size_eq
  content_eq := h.content_eq
  source_eq := h.source_eq
  nodup := h.nodup
  was_custom a ha := ⟨h.has_of_gone hs ha, h.was_custom a ha⟩
  taken_out a ha :=
    ⟨h.parent_gone a ha, h.children_nil (h.has_of_gone hs ha) (.inl ha) (h.below a ha).1⟩
  hangsOn_iff _ hid hnot := h.hangsOn_iff hs hid hnot
  parent_none _ hid hnone := h.parent_none hid hnone
  children_nil _ hid hnil := h.children_nil_of_nil hs hid hnil
  ranked _ hr := ⟨_, fun _ hid => if_pos hid, h.ranked hs hr⟩
  rules := h.replaces hs

end Lowered

end ClassRules.Lowering
