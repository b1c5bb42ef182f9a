import ClassRules.Proofs.Lowering.Likeness

/-!
# Steps on a copy

A step on a sheet and the same step on a copy of it lead to a sheet and a copy again.

## What this module delivers

- `Copy.extend`: new nodes are found under the new handles of the other sheet.
- `Edit.copy`: the edit at the corresponding nodes. `Edit.Fits`: an edit speaks of nodes of a sheet.
- `Mirror`: an edit on a sheet, and the corresponding edit on a copy.
- `Mirror.isCopy`: they lead to a copy. `Mirror.elsewhere`: all other nodes stay as they are.
-/

set_option autoImplicit false

namespace ClassRules

open Sheet

/-- A node that is new in the first sheet goes to the handle that is new in the second one and
comes in the same place. -/
def Sheet.Copy.extend (C : Copy) (s t : Sheet) : Copy where
  node id := if s.Has id then C.node id else ⟨t.nodes.size + (id.index - s.nodes.size)⟩
  input := C.input
  before := C.before
  behind := C.behind

theorem Sheet.Copy.extend_of_has (C : Copy) {s : Sheet} (t : Sheet) {id : NodeId}
    (h : s.Has id) : (C.extend s t).node id = C.node id :=
  if_pos h

/-- New nodes go to new handles. -/
theorem Sheet.Copy.not_has_extend (C : Copy) {s : Sheet} (t : Sheet) {id : NodeId}
    (h : ¬ s.Has id) : ¬ t.Has ((C.extend s t).node id) := by
  have hnode : (C.extend s t).node id = ⟨t.nodes.size + (id.index - s.nodes.size)⟩ := if_neg h
  rw [hnode]
  simp [Has]

theorem Sheet.Copy.extend_new (C : Copy) (s t : Sheet) (i : Nat) :
    (C.extend s t).node ⟨s.nodes.size + i⟩ = ⟨t.nodes.size + i⟩ := by
  have hnew : ¬ s.Has ⟨s.nodes.size + i⟩ := by simp [Has]
  refine (if_neg hnew).trans ?_
  simp

/-- An old node to which no old node goes is not what a new one goes to. -/
theorem Sheet.Copy.extend_ne {C : Copy} {s t : Sheet} {x : NodeId} (hx : t.Has x)
    (hout : ∀ a, s.Has a → C.node a ≠ x) (a : NodeId) : (C.extend s t).node a ≠ x := by
  rintro rfl
  by_cases ha : s.Has a
  · exact hout a ha (C.extend_of_has t ha).symm
  · exact C.not_has_extend t ha hx

theorem Sheet.Copy.map_extend (C : Copy) {s : Sheet} (t : Sheet) {l : List NodeId}
    (h : ∀ id ∈ l, s.Has id) : l.map (C.extend s t).node = l.map C.node :=
  List.map_congr_left fun id hid => C.extend_of_has t (h id hid)

/-- A node is what can be read of it. -/
theorem Sheet.node_congr {s t : Sheet} {id : NodeId} (hcontent : t.content id = s.content id)
    (hsource : t.source id = s.source id) (hparent : t.parent id = s.parent id)
    (hchildren : t.children id = s.children id) : t.node id = s.node id := by
  unfold Sheet.content Sheet.source Sheet.parent Sheet.children at *
  cases hs : s.node id
  cases ht : t.node id
  simp_all

namespace Lowering

/-- The rule to be made for the corresponding at-rule. -/
def NewRule.copy (C : Copy) (r : NewRule) : NewRule :=
  ⟨r.selector, r.source.map (Source.relabel C.input), r.children.map C.node⟩

/-- The edit at the corresponding nodes. -/
def Edit.copy (C : Copy) (e : Edit) : Edit where
  gone := e.gone.map C.node
  container := C.node e.container
  old := C.node e.old
  news := e.news.map C.node
  rules := e.rules.map (NewRule.copy C)

theorem Edit.getElem?_rules_copy (C : Copy) {e : Edit} {i : Nat} {r : NewRule}
    (hi : e.rules[i]? = some r) : (e.copy C).rules[i]? = some (r.copy C) := by
  rw [Edit.copy, List.getElem?_map, hi]
  rfl

/-- The edit speaks of nodes of the sheet, and its rules come from where an at-rule that goes came
from. -/
structure Edit.Fits (e : Edit) (s : Sheet) : Prop where
  gone : ∀ a ∈ e.gone, s.Has a ∧ a ≠ root ∧ a ≠ e.container
  old : e.old ∈ s.children e.container
  source : ∀ r ∈ e.rules, ∃ a ∈ e.gone, r.source = s.source a

theorem Edit.Leads.has_iff {e : Edit} {s t : Sheet} (h : e.Leads s t) (id : NodeId) :
    t.Has id ↔ s.Has id ∨ ∃ (i : Nat) (r : NewRule), e.rules[i]? = some r ∧
      id = ⟨s.nodes.size + i⟩ := by
  simp only [Has, h.size_eq]
  constructor
  · intro hid
    by_cases hold : id.index < s.nodes.size
    · exact .inl hold
    · have hlt : id.index - s.nodes.size < e.rules.length := by omega
      refine .inr ⟨id.index - s.nodes.size, _, List.getElem?_eq_getElem hlt, ?_⟩
      rw [Nat.add_sub_cancel' (Nat.le_of_not_lt hold)]
  · rintro (hold | ⟨i, r, hi, rfl⟩)
    · omega
    · obtain ⟨hlt, -⟩ := List.getElem?_eq_some_iff.1 hi
      exact Nat.add_lt_add_left hlt _

theorem Edit.Leads.inputName_eq {e : Edit} {s t : Sheet} (h : e.Leads s t) (id : InputId) :
    t.inputName id = s.inputName id := by
  rw [inputName, inputName, h.inputs_eq]

theorem Edit.Leads.sourceName?_eq {e : Edit} {s t : Sheet} (h : e.Leads s t) {id : NodeId}
    (hid : s.Has id) : t.sourceName? id = s.sourceName? id := by
  simp only [sourceName?, h.source_eq id hid, h.inputName_eq]

/-- A new rule comes from where an at-rule that goes came from. -/
theorem Edit.Leads.exists_sourceName?_eq {e : Edit} {s t : Sheet} (h : e.Leads s t)
    (hfit : e.Fits s) {i : Nat} {r : NewRule} (hi : e.rules[i]? = some r) :
    ∃ a ∈ e.gone, t.sourceName? ⟨s.nodes.size + i⟩ = s.sourceName? a := by
  obtain ⟨a, ha, hra⟩ := hfit.source r (List.mem_of_getElem? hi)
  refine ⟨a, ha, ?_⟩
  simp only [sourceName?, h.source_new i r hi, hra, h.inputName_eq]

/-- Putting nodes in the place of one, before or after going to other handles. -/
theorem map_putFor {f : NodeId → NodeId} {old : NodeId} {l : List NodeId}
    (h : ∀ c ∈ l, f c = f old → c = old) (news : List NodeId) :
    (putFor old news l).map f = putFor (f old) (news.map f) (l.map f) := by
  unfold putFor
  rw [List.map_flatMap, List.flatMap_map]
  apply List.flatMap_congr
  intro c hc
  by_cases heq : c = old
  · rw [if_pos heq, if_pos (congrArg f heq)]
  · rw [if_neg heq, if_neg fun hf => heq (h c hc hf)]
    rfl

theorem mem_putFor_iff {old c : NodeId} {news l : List NodeId} (hc : c ≠ old) (hnews : c ∉ news) :
    c ∈ putFor old news l ↔ c ∈ l := by
  rw [putFor, List.mem_flatMap]
  constructor
  · rintro ⟨d, hd, hcd⟩
    split at hcd
    · exact absurd hcd hnews
    · rwa [List.mem_singleton.1 hcd]
  · intro hmem
    exact ⟨c, hmem, by rw [if_neg hc]; exact List.mem_singleton_self c⟩

/-- An edit leads from `s` to `s'`, and the corresponding one from a copy `t` to `t'`. -/
structure Mirror (R : Content → Content → Prop) (C : Copy) (e : Edit) (s t s' t' : Sheet) :
    Prop where
  copy : IsCopy R C s t
  fits : e.Fits s
  leads : e.Leads s s'
  leads_copy : (e.copy (C.extend s t)).Leads t t'
  sound : s.IsSound
  sound_copy : t.IsSound
  sound_after : s'.IsSound
  sound_copy_after : t'.IsSound
  attached : t'.HangsOn (C.node root) root

namespace Mirror

variable {R : Content → Content → Prop} {C : Copy} {e : Edit} {s t s' t' : Sheet}
  (h : Mirror R C e s t s' t')

include h

/-! ## Handles -/

theorem has_after {a : NodeId} (ha : s.Has a) : s'.Has a :=
  (h.leads.has_iff a).2 (.inl ha)

theorem has_copy_after {x : NodeId} (hx : t.Has x) : t'.Has x :=
  (h.leads_copy.has_iff x).2 (.inl hx)

theorem has_container : s.Has e.container :=
  has_of_mem_children h.fits.old

theorem has_old : s.Has e.old :=
  has_of_parent (h.sound.mem_children_iff.1 h.fits.old)

theorem new_ne_root (i : Nat) : (⟨s.nodes.size + i⟩ : NodeId) ≠ root := by
  intro heq
  have hroot := h.sound.has_root
  rw [← heq] at hroot
  simp only [Has] at hroot
  omega

theorem inj (a b : NodeId) (hab : (C.extend s t).node a = (C.extend s t).node b) : a = b := by
  by_cases ha : s.Has a
  · by_cases hb : s.Has b
    · rw [C.extend_of_has t ha, C.extend_of_has t hb] at hab
      exact h.copy.inj a b ha hb hab
    · refine absurd ?_ (C.not_has_extend t hb)
      rw [← hab, C.extend_of_has t ha]
      exact h.copy.has a ha
  · by_cases hb : s.Has b
    · refine absurd ?_ (C.not_has_extend t ha)
      rw [hab, C.extend_of_has t hb]
      exact h.copy.has b hb
    · simp only [Copy.extend, if_neg ha, if_neg hb, NodeId.mk.injEq] at hab
      simp only [Has] at ha hb
      have hindex : a.index = b.index := by omega
      cases a
      cases b
      exact congrArg NodeId.mk hindex

theorem mem_gone_iff (a : NodeId) :
    (C.extend s t).node a ∈ (e.copy (C.extend s t)).gone ↔ a ∈ e.gone := by
  constructor
  · intro hmem
    obtain ⟨b, hb, hab⟩ := List.mem_map.1 hmem
    rwa [← h.inj b a hab]
  · exact fun hmem => List.mem_map_of_mem hmem

/-- What stands around a copy does not go. -/
theorem not_mem_gone_of_around {x : NodeId} (hx : x ∈ C.before ++ C.behind) :
    x ∉ (e.copy (C.extend s t)).gone := by
  intro hmem
  obtain ⟨a, ha, hax⟩ := List.mem_map.1 hmem
  have hhas := (h.fits.gone a ha).1
  rw [C.extend_of_has t hhas] at hax
  exact h.copy.outside x hx a hhas hax

theorem has_of_around {x : NodeId} (hx : x ∈ C.before ++ C.behind) : t.Has x := by
  have hmem : x ∈ t.children (C.node root) := by
    rw [h.copy.children_root h.sound]
    rcases List.mem_append.1 hx with hx | hx
    · exact List.mem_append_left _ (List.mem_append_left _ hx)
    · exact List.mem_append_right _ hx
  exact has_of_parent (h.sound_copy.mem_children_iff.1 hmem)

/-! ## Children -/

/-- The children of the container change alike. -/
theorem children_container : t'.children (C.node e.container) =
    C.around e.container ((s'.children e.container).map (C.extend s t).node) := by
  have hcontainer := h.leads_copy.children_container
  simp only [Edit.copy, C.extend_of_has t h.has_container] at hcontainer
  have hold : (s.children e.container).map (C.extend s t).node =
      (s.children e.container).map C.node :=
    C.map_extend t fun c hc => has_of_parent (h.sound.mem_children_iff.1 hc)
  have haround : ∀ x ∈ C.before ++ C.behind, x ≠ (C.extend s t).node e.old := fun x hx e' =>
    h.copy.outside x hx e.old h.has_old (by rw [e', C.extend_of_has t h.has_old])
  rw [hcontainer, h.leads.children_container, h.copy.children e.container h.has_container,
    map_putFor (fun c _ hf => h.inj c e.old hf), hold]
  unfold Copy.around
  split
  · rw [putFor_append, putFor_append,
      putFor_of_not_mem fun hmem => haround _ (List.mem_append_left _ hmem) rfl,
      putFor_of_not_mem fun hmem => haround _ (List.mem_append_right _ hmem) rfl]
  · rfl

/-- Where nothing comes in, what goes is missing alike. -/
theorem children_other {a : NodeId} (ha : s.Has a) (hcont : a ≠ e.container)
    (hgone : a ∉ e.gone) : t'.children (C.node a) =
      C.around a ((s'.children a).map (C.extend s t).node) := by
  have hnode := C.extend_of_has t ha
  have hcont' : C.node a ≠ (e.copy (C.extend s t)).container := fun hf =>
    hcont (h.inj a e.container (hnode.trans hf))
  have hgone' : C.node a ∉ (e.copy (C.extend s t)).gone := fun hmem =>
    hgone ((h.mem_gone_iff a).1 (hnode.symm ▸ hmem))
  have hold : (s.children a).map C.node = (s.children a).map (C.extend s t).node :=
    (C.map_extend t fun c hc => has_of_parent (h.sound.mem_children_iff.1 hc)).symm
  have hfilter : ((s.children a).map C.node).filter (· ∉ (e.copy (C.extend s t)).gone) =
      ((s.children a).filter (· ∉ e.gone)).map (C.extend s t).node := by
    rw [hold, List.filter_map]
    congr 1
    apply List.filter_congr
    intro c _
    simp only [Function.comp, h.mem_gone_iff]
  have haround : ∀ l : List NodeId, l ⊆ C.before ++ C.behind →
      l.filter (· ∉ (e.copy (C.extend s t)).gone) = l := fun l hl =>
    List.filter_eq_self.2 fun x hx => decide_eq_true (h.not_mem_gone_of_around (hl hx))
  rw [h.leads_copy.children_other _ (h.copy.has a ha) hcont' hgone', h.copy.children a ha,
    h.leads.children_other a ha hcont hgone]
  unfold Copy.around
  split
  · rw [List.filter_append, List.filter_append, hfilter, haround _ (List.subset_append_left _ _),
      haround _ (List.subset_append_right _ _)]
  · exact hfilter

/-- The children in the copy are the copies of the children, as before. -/
theorem children_after {a : NodeId} (ha : s'.Has a) : t'.children ((C.extend s t).node a) =
    (C.extend s t).around a ((s'.children a).map (C.extend s t).node) := by
  rcases (h.leads.has_iff a).1 ha with hold | ⟨i, r, hi, rfl⟩
  · rw [C.extend_of_has t hold]
    by_cases hcont : a = e.container
    · rw [hcont]
      exact h.children_container
    by_cases hgone : a ∈ e.gone
    · have hmem := (h.mem_gone_iff a).2 hgone
      rw [C.extend_of_has t hold] at hmem
      rw [h.leads_copy.children_gone _ hmem, h.leads.children_gone a hgone, Copy.around,
        if_neg (h.fits.gone a hgone).2.1]
      rfl
    · exact h.children_other hold hcont hgone
  · have hne : (⟨s.nodes.size + i⟩ : NodeId) ≠ root := by
      intro heq
      have hroot := h.sound.has_root
      rw [← heq] at hroot
      simp only [Has] at hroot
      omega
    rw [C.extend_new, h.leads_copy.children_new i _ (Edit.getElem?_rules_copy _ hi),
      h.leads.children_new i r hi, Copy.around, if_neg (h.new_ne_root i)]
    rfl

/-! ## The copy afterwards -/

/-- What stands around a copy is no copy of a node. -/
theorem outside {x : NodeId} (hx : x ∈ C.before ++ C.behind) (a : NodeId) :
    (C.extend s t).node a ≠ x := by
  rintro rfl
  by_cases ha : s.Has a
  · exact h.copy.outside _ hx a ha (C.extend_of_has t ha).symm
  · exact C.not_has_extend t ha (h.has_of_around hx)

/-- What stands nowhere has a copy that stands nowhere. -/
theorem orphan {a : NodeId} (hne : a ≠ root) (hp : s'.parent a = none) :
    t'.parent ((C.extend s t).node a) = none := by
  by_contra hsome
  obtain ⟨q, hq⟩ := Option.ne_none_iff_exists'.1 hsome
  have hmem := h.sound_copy_after.mem_children_iff.2 hq
  -- If the parent were the copy of a node, what stands nowhere would stand in that node.
  by_cases himage : ∃ b, s'.Has b ∧ (C.extend s t).node b = q
  · obtain ⟨b, hb, rfl⟩ := himage
    rw [h.children_after hb] at hmem
    have hin : (C.extend s t).node a ∈ (s'.children b).map (C.extend s t).node := by
      rw [Copy.around] at hmem
      split at hmem
      · rcases List.mem_append.1 hmem with hmem | hmem
        · rcases List.mem_append.1 hmem with hmem | hmem
          · exact absurd rfl (h.outside (List.mem_append_left _ hmem) a)
          · exact hmem
        · exact absurd rfl (h.outside (List.mem_append_right _ hmem) a)
      · exact hmem
    obtain ⟨c, hc, hca⟩ := List.mem_map.1 hin
    rw [h.inj c a hca] at hc
    rw [h.sound_after.mem_children_iff.1 hc] at hp
    cases hp
  · -- The parent would be an old node of the other sheet that nothing goes to.
    rcases (h.leads_copy.has_iff q).1 (h.sound_copy_after.has_parent hq) with hold | ⟨i, r, hi, rfl⟩
    · have hcont : q ≠ (e.copy (C.extend s t)).container := fun heq =>
        himage ⟨e.container, h.has_after h.has_container, heq.symm⟩
      have hgone : q ∉ (e.copy (C.extend s t)).gone := fun hg => by
        obtain ⟨b, hb, hbq⟩ := List.mem_map.1 hg
        exact himage ⟨b, h.has_after (h.fits.gone b hb).1, hbq⟩
      rw [h.leads_copy.children_other q hold hcont hgone] at hmem
      have hpt := h.sound_copy.mem_children_iff.1 (List.mem_filter.1 hmem).1
      have hsa : s.Has a := by
        by_contra hnew
        exact C.not_has_extend t hnew (has_of_parent hpt)
      rw [C.extend_of_has t hsa, h.copy.parent_eq h.sound h.sound_copy hsa hne] at hpt
      obtain ⟨b, hb, hbq⟩ := Option.map_eq_some_iff.1 hpt
      have hhas := h.sound.has_parent hb
      exact himage ⟨b, h.has_after hhas, (C.extend_of_has t hhas).trans hbq⟩
    · have hlt : i < e.rules.length := by
        obtain ⟨hlt, -⟩ := List.getElem?_eq_some_iff.1 hi
        simpa [Edit.copy] using hlt
      exact himage ⟨⟨s.nodes.size + i⟩, (h.leads.has_iff _).2 (.inr ⟨i, e.rules[i],
        List.getElem?_eq_getElem hlt, rfl⟩), C.extend_new s t i⟩

/-- The steps lead to a copy, if rules go together with themselves. -/
theorem isCopy (hrule : ∀ selector, R (.rule selector) (.rule selector)) :
    IsCopy R (C.extend s t) s' t' := by
  constructor
  case has =>
    intro a ha
    rcases (h.leads.has_iff a).1 ha with hold | ⟨i, r, hi, rfl⟩
    · rw [C.extend_of_has t hold]
      exact h.has_copy_after (h.copy.has a hold)
    · rw [C.extend_new]
      exact (h.leads_copy.has_iff _).2 (.inr ⟨i, _, Edit.getElem?_rules_copy _ hi, rfl⟩)
  case inj =>
    exact fun a b _ _ => h.inj a b
  case root_only =>
    intro a _ hr
    have hroot : t.Has ((C.extend s t).node a) := hr ▸ h.sound_copy.has_root
    have ha : s.Has a := by
      by_contra hnew
      exact C.not_has_extend t hnew hroot
    exact h.copy.root_only a ha ((C.extend_of_has t ha).symm.trans hr)
  case attached =>
    rw [C.extend_of_has t h.sound.has_root]
    exact h.attached
  case content =>
    intro a ha hne
    rcases (h.leads.has_iff a).1 ha with hold | ⟨i, r, hi, rfl⟩
    · rw [C.extend_of_has t hold, h.leads.content_eq a hold,
        h.leads_copy.content_eq _ (h.copy.has a hold)]
      exact h.copy.content a hold hne
    · rw [C.extend_new, h.leads.content_new i r hi,
        h.leads_copy.content_new i _ (Edit.getElem?_rules_copy _ hi)]
      exact hrule r.selector
  case source_eq =>
    intro a ha hne
    rcases (h.leads.has_iff a).1 ha with hold | ⟨i, r, hi, rfl⟩
    · rw [C.extend_of_has t hold, h.leads.source_eq a hold,
        h.leads_copy.source_eq _ (h.copy.has a hold)]
      exact h.copy.source_eq a hold hne
    · rw [C.extend_new, h.leads.source_new i r hi,
        h.leads_copy.source_new i _ (Edit.getElem?_rules_copy _ hi)]
      rfl
  case inputName_eq =>
    intro a ha hne source hsrc
    rw [h.leads.inputName_eq, h.leads_copy.inputName_eq]
    rcases (h.leads.has_iff a).1 ha with hold | ⟨i, r, hi, rfl⟩
    · rw [h.leads.source_eq a hold] at hsrc
      exact h.copy.inputName_eq a hold hne source hsrc
    · -- The new rule comes from where an at-rule came from.
      obtain ⟨g, hg, hrg⟩ := h.fits.source r (List.mem_of_getElem? hi)
      rw [h.leads.source_new i r hi, hrg] at hsrc
      exact h.copy.inputName_eq g (h.fits.gone g hg).1 (h.fits.gone g hg).2.1 source hsrc
  case children =>
    exact fun a ha => h.children_after ha
  case outside =>
    exact fun x hx a _ => h.outside hx a
  case orphan =>
    exact fun a _ => h.orphan

/-! ## What is not part of the copy -/

/-- Nothing that is no copy comes to stand under another node. -/
theorem mem_children_iff_elsewhere {x : NodeId} (hx : t.Has x)
    (hout : ∀ a, s.Has a → C.node a ≠ x) (q : NodeId) : x ∈ t'.children q ↔ x ∈ t.children q := by
  have hne := Copy.extend_ne hx hout
  have hmap : ∀ l : List NodeId, x ∉ l.map (C.extend s t).node := fun l hmem => by
    obtain ⟨c, -, hcx⟩ := List.mem_map.1 hmem
    exact hne c hcx
  by_cases hq : t.Has q
  · by_cases hcont : q = (e.copy (C.extend s t)).container
    · rw [hcont, h.leads_copy.children_container]
      exact mem_putFor_iff (Ne.symm (hne e.old)) (hmap e.news)
    by_cases hgone : q ∈ (e.copy (C.extend s t)).gone
    · rw [h.leads_copy.children_gone q hgone]
      refine iff_of_false List.not_mem_nil fun hmem => ?_
      obtain ⟨a, ha, rfl⟩ := List.mem_map.1 hgone
      obtain ⟨hhas, hroot, -⟩ := h.fits.gone a ha
      rw [C.extend_of_has t hhas, h.copy.children_eq hhas hroot] at hmem
      obtain ⟨c, hc, hcx⟩ := List.mem_map.1 hmem
      exact hout c (has_of_parent (h.sound.mem_children_iff.1 hc)) hcx
    · rw [h.leads_copy.children_other q hq hcont hgone, List.mem_filter]
      refine and_iff_left (decide_eq_true fun hmem => ?_)
      exact hmap e.gone hmem
  · rw [children_of_not_has hq]
    refine iff_of_false (fun hmem => ?_) List.not_mem_nil
    obtain ⟨i, r, hi, rfl⟩ :=
      ((h.leads_copy.has_iff q).1 (has_of_mem_children hmem)).resolve_left hq
    rw [h.leads_copy.children_new i r hi] at hmem
    rw [Edit.copy, List.getElem?_map] at hi
    obtain ⟨r', -, rfl⟩ := Option.map_eq_some_iff.1 hi
    exact hmap r'.children hmem

/-- An old node that is no copy stays as it is. -/
theorem elsewhere {x : NodeId} (hx : t.Has x) (hout : ∀ a, s.Has a → C.node a ≠ x) :
    t'.node x = t.node x := by
  have hcont : x ≠ (e.copy (C.extend s t)).container := (Copy.extend_ne hx hout e.container).symm
  have hgone : ∀ g ∈ (e.copy (C.extend s t)).gone, ∃ a, s.Has a ∧ a ≠ root ∧ C.node a = g := by
    intro g hg
    obtain ⟨a, ha, rfl⟩ := List.mem_map.1 hg
    have hhas := (h.fits.gone a ha).1
    exact ⟨a, hhas, (h.fits.gone a ha).2.1, (C.extend_of_has t hhas).symm⟩
  have hnot : x ∉ (e.copy (C.extend s t)).gone := fun hmem => by
    obtain ⟨a, ha, -, hax⟩ := hgone x hmem
    exact hout a ha hax
  have hchildren : t'.children x = t.children x := by
    rw [h.leads_copy.children_other x hx hcont hnot]
    refine filter_notMem_eq_self fun g hg hmem => ?_
    obtain ⟨a, ha, hne, rfl⟩ := hgone g hg
    have hpa := h.sound_copy.mem_children_iff.1 hmem
    rw [h.copy.parent_eq h.sound h.sound_copy ha hne] at hpa
    obtain ⟨p, hp, hpx⟩ := Option.map_eq_some_iff.1 hpa
    exact hout p (h.sound.has_parent hp) hpx
  have hparent : t'.parent x = t.parent x := by
    apply Option.ext
    intro q
    exact h.sound_copy_after.mem_children_iff.symm.trans
      ((h.mem_children_iff_elsewhere hx hout q).trans h.sound_copy.mem_children_iff)
  exact node_congr (h.leads_copy.content_eq x hx) (h.leads_copy.source_eq x hx) hparent hchildren

end Mirror

end Lowering

end ClassRules
