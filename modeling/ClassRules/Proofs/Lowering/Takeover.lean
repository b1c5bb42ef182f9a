import ClassRules.Proofs.Lowering.Exchange
import ClassRules.Proofs.Lowering.Flattening

/-!
# A rule takes over from an at-rule

## What this module delivers

- `exists_takeover`: a new rule takes the children of an at-rule.
- `lowered_of_replaceWith`: the rule takes the place of the at-rule as well.
- `lowered_of_insertAfter`, `insertAfter_of_takeover`: the rule goes beside a node above the
  at-rule, which is taken out.
-/

set_option autoImplicit false

namespace ClassRules.Lowering

open Sheet

section TakeOver

variable {cx : Context} {s t : Sheet} {a container : NodeId}

/-- A node of the text that is an at-rule hangs on another one of the text. -/
theorem exists_parent (hs : s.IsSound) (ha : s.HangsOn a root)
    (hk : s.kind a ≠ .root) : ∃ parent, s.parent a = some parent ∧ s.HangsOn parent root := by
  rcases HangsOn.iff_parent.1 ha with rfl | ⟨parent, hp, hon⟩
  · rw [Sheet.kind, hs.content_root] at hk
    exact absurd rfl hk
  · exact ⟨parent, hp, hon⟩

/-- What is to be lowered stands in a node of the text. -/
theorem Context.IsCustom.exists_container (hc : cx.IsCustom s a) (hs : s.IsSound)
    (ha : s.HangsOn a root) : ∃ container, s.parent a = some container ∧ s.HangsOn container root :=
  exists_parent hs ha (by rw [hc.kind_eq]; decide)

/-- What stands in a node of the text hangs on it. -/
theorem below_parent (hs : s.IsSound) {parent : NodeId} (hp : s.parent a = some parent) :
    a ≠ parent ∧ s.HangsOn a parent :=
  ⟨Ne.symm (hs.parent_ne hp), .single hp⟩

/-- A step that hangs a new rule on a node above an at-rule, the children of the at-rule on that
rule, and the at-rule on nothing. -/
theorem lowered_of_takeover (hs : s.IsSound) (ha : s.HangsOn a root) (hc : cx.IsCustom s a)
    (hbelow : a ≠ container ∧ s.HangsOn a container) (hcontainer : s.HangsOn container root)
    (hne : s.children container ≠ []) (selector : String) (ht : t.IsForest)
    (hsize : t.nodes.size = s.nodes.size + 1)
    (hcontent : ∀ x, t.content x = (s.createRule selector a).2.content x)
    (hsource : ∀ x, t.source x = (s.createRule selector a).2.source x)
    (hparent : ∀ x, t.parent x = if x = a then none else if x = ⟨s.nodes.size⟩ then some container
      else if x ∈ s.children a then some ⟨s.nodes.size⟩ else s.parent x) :
    Lowered cx s t container [a] [] := by
  have hhas : s.Has a := hs.has_of_hangsOn ha
  have hnew : handles s.nodes.size [a].length = [⟨s.nodes.size⟩] := rfl
  have hone : ∀ x ∈ [a] ++ ([] : List NodeId), x = a := fun x hx => by simpa using hx
  constructor
  case forest =>
    exact ht
  case size_eq =>
    exact hsize
  case content_eq =>
    intro id hid
    rw [hcontent, createRule, content_create, if_neg hid.ne_new]
  case source_eq =>
    intro id hid
    rw [hsource, createRule, source_create, if_neg hid.ne_new]
  case nodup =>
    simp
  case was_custom =>
    intro x hx
    rw [hone x hx]
    exact ⟨ha, hc⟩
  case below =>
    intro x hx
    rw [hone x hx]
    exact hbelow
  case container_hangsOn =>
    exact hcontainer
  case container_ne_nil =>
    exact hne
  case parent_gone =>
    intro x hx
    rw [hparent, hone x hx, if_pos rfl]
  case parent_rule =>
    intro r hr
    rw [hnew, List.mem_singleton] at hr
    rw [hparent, hr, if_neg (Ne.symm hhas.ne_new), if_pos rfl]
  case parent_inside =>
    intro x hx c hcnot hp
    rw [hone x hx] at hp
    -- What stood in the at-rule stands in the new rule now.
    refine .inr ⟨⟨s.nodes.size⟩, by rw [hnew]; exact List.mem_singleton_self _, ?_⟩
    rw [hparent, if_neg (hs.parent_ne hp).symm, if_neg (has_of_parent hp).ne_new,
      if_pos (hs.mem_children_iff.2 hp)]
  case parent_other =>
    intro id hid hnot hout
    have hida : id ≠ a := fun e => hnot (by simp [e])
    have hin : id ∉ s.children a := fun hmem =>
      hout a (by simp) (hs.mem_children_iff.1 hmem)
    rw [hparent, if_neg hida, if_neg hid.ne_new, if_neg hin]
  case rules =>
    rw [hnew]
    refine .cons ⟨?_, ?_⟩ .nil
    · rw [Sheet.kind, hcontent, createRule, content_create, if_pos rfl]
      rfl
    · rw [hsource, createRule, source_create, if_pos rfl]

/-- A new rule takes the children of an at-rule, if it gets the number behind that of a node above
the at-rule. -/
theorem exists_takeover (p : Progress) (hs : p.sheet.IsForest)
    (hbelow : a ≠ container ∧ p.sheet.HangsOn a container) (selector : String) :
    ∃ t, (p.createRule selector a).2.moveChildren a ⟨p.sheet.nodes.size⟩ =
        .ok { p with sheet := t } ∧
      Gathered (levels p.sheet container) (p.sheet.createRule selector a).2 t
        ⟨p.sheet.nodes.size⟩ (p.sheet.children a) ∧
      t = (p.sheet.createRule selector a).2.moveAll ⟨p.sheet.nodes.size⟩ (fun id => (· ++ [id]))
        (p.sheet.children a) := by
  have hchildren : (p.createRule selector a).2.sheet.children a = p.sheet.children a :=
    children_create _ _ _ _
  have hlinked : (p.createRule selector a).2.sheet.IsLinked := hs.toIsLinked.create _ _
  have hranked : (p.createRule selector a).2.sheet.Ranked (levels p.sheet container) :=
    (ranked_levels hs container).create _ _
  obtain ⟨t, ht, hgathered, hall⟩ := Progress.moveChildren_eq_ok hlinked hranked a
    ⟨p.sheet.nodes.size⟩ ((has_create _ _ _ _).2 (.inl rfl)) fun c hc => by
      have hp := hs.mem_children_iff.1 (hchildren ▸ hc)
      have hlt := hbelow.2.rank_lt hs.ranked_depth hbelow.1
      have hdepth := hs.depth_of_parent hp
      rw [levels_of_not_has (not_has_new _), levels_of_has (has_of_parent hp)]
      omega
  rw [hchildren] at hgathered hall
  exact ⟨t, ht, hgathered, hall⟩

variable {selector : String}

/-- The at-rule still has its parent after the rule has taken its children. -/
theorem parent_of_takeover (hs : s.IsForest) (hp : s.parent a = some container)
    (hg : Gathered (levels s container) (s.createRule selector a).2 t ⟨s.nodes.size⟩
      (s.children a)) : t.parent a = some container := by
  rw [hg.parent_eq, if_neg fun hmem => hs.parent_ne (hs.mem_children_iff.1 hmem) rfl, createRule,
    parent_create, hp]

theorem size_of_takeover
    (hg : Gathered (levels s container) (s.createRule selector a).2 t ⟨s.nodes.size⟩
      (s.children a)) : t.nodes.size = s.nodes.size + 1 := by
  rw [hg.size_eq, createRule, size_create]

/-- The sheet has got the rule, and it has all nodes that it had. -/
theorem has_of_takeover
    (hg : Gathered (levels s container) (s.createRule selector a).2 t ⟨s.nodes.size⟩
      (s.children a)) : t.Has ⟨s.nodes.size⟩ ∧ ∀ {id}, s.Has id → t.Has id := by
  have hsize := size_of_takeover hg
  constructor
  · rw [Has, hsize]
    exact Nat.lt_succ_self _
  · exact fun hid => hid.mono (Nat.le.intro hsize.symm)

/-- A new rule stands deeper than the node above the at-rule, whose depth stays. -/
theorem levels_lt_new (hcont : s.Has container) :
    levels s container container < levels s container ⟨s.nodes.size⟩ := by
  rw [levels_of_has hcont, levels_of_not_has (not_has_new s)]
  exact Nat.lt_succ_self _

theorem isForest_replaceWith_of_takeover (hs : s.IsForest) (hp : s.parent a = some container)
    (hg : Gathered (levels s container) (s.createRule selector a).2 t ⟨s.nodes.size⟩
      (s.children a)) : (t.replaceWith a ⟨s.nodes.size⟩).IsForest := by
  have hne : a ≠ ⟨s.nodes.size⟩ := (has_of_parent hp).ne_new
  have hpt := parent_of_takeover hs hp hg
  have hrule := (has_of_takeover hg).1
  exact .of_ranked (hg.linked.replaceWith hne hpt hrule)
    (hg.ranked.replaceWith hne hpt hrule (levels_lt_new (hs.has_parent hp)))

theorem isForest_insertAfter_of_takeover (hcont : s.Has container)
    (hg : Gathered (levels s container) (s.createRule selector a).2 t ⟨s.nodes.size⟩
      (s.children a)) (anchor : NodeId) :
    (t.move container ⟨s.nodes.size⟩ (placeAfter anchor ⟨s.nodes.size⟩)).IsForest := by
  obtain ⟨hrule, hkept⟩ := has_of_takeover hg
  exact .of_ranked (hg.linked.move (hkept hcont) hrule (adds_placeAfter _ _))
    (hg.ranked.move hrule (levels_lt_new hcont) _)

/-- The rule stands in the place of the at-rule. -/
theorem lowered_of_replaceWith (hs : s.IsSound) (ha : s.HangsOn a root) (hc : cx.IsCustom s a)
    (hp : s.parent a = some container) (hcontainer : s.HangsOn container root)
    (hg : Gathered (levels s container) (s.createRule selector a).2 t ⟨s.nodes.size⟩
      (s.children a)) :
    Lowered cx s (t.replaceWith a ⟨s.nodes.size⟩) container [a] [] := by
  have hne : a ≠ ⟨s.nodes.size⟩ := (has_of_parent hp).ne_new
  have hpt := parent_of_takeover hs.toIsForest hp hg
  have hsize := size_of_takeover hg
  have hrule := (has_of_takeover hg).1
  refine lowered_of_takeover hs ha hc (below_parent hs hp) hcontainer
    (List.ne_nil_of_mem (hs.mem_children_iff.2 hp)) selector ?_ ?_ ?_ ?_ ?_
  · exact isForest_replaceWith_of_takeover hs.toIsForest hp hg
  · rw [size_replaceWith hne hpt, hsize]
  · intro x
    rw [content_replaceWith hne hpt, hg.content_eq]
  · intro x
    rw [source_replaceWith hne hpt, hg.source_eq]
  · intro x
    rw [parent_replaceWith hne hpt hrule, hg.parent_eq, createRule, parent_create]

/-- The rule stands beside a node above the at-rule, which is taken out. -/
theorem lowered_of_insertAfter (hs : s.IsSound) (ha : s.HangsOn a root) (hc : cx.IsCustom s a)
    (hbelow : a ≠ container ∧ s.HangsOn a container) (hcontainer : s.HangsOn container root)
    (hne : s.children container ≠ [])
    (hg : Gathered (levels s container) (s.createRule selector a).2 t ⟨s.nodes.size⟩
      (s.children a)) (anchor : NodeId) :
    Lowered cx s ((t.move container ⟨s.nodes.size⟩ (placeAfter anchor ⟨s.nodes.size⟩)).detach a)
      container [a] [] := by
  have hsize := size_of_takeover hg
  have hrule := (has_of_takeover hg).1
  refine lowered_of_takeover hs ha hc hbelow hcontainer hne selector ?_ ?_ ?_ ?_ ?_
  · exact (isForest_insertAfter_of_takeover (hs.has_of_hangsOn hcontainer) hg anchor).detach a
  · rw [size_detach, size_move, hsize]
  · intro x
    rw [content_detach, content_move, hg.content_eq]
  · intro x
    rw [source_detach, source_move, hg.source_eq]
  · intro x
    rw [parent_detach, parent_move hrule, hg.parent_eq, createRule, parent_create]

/-- The rule that has taken over stands nowhere yet. -/
theorem parent_new_of_takeover (hs : s.IsForest)
    (hg : Gathered (levels s container) (s.createRule selector a).2 t ⟨s.nodes.size⟩
      (s.children a)) : t.parent ⟨s.nodes.size⟩ = none := by
  have hout : (⟨s.nodes.size⟩ : NodeId) ∉ s.children a := hs.not_mem_children (not_has_new _) a
  rw [hg.parent_eq, if_neg hout, createRule, parent_create, parent_of_not_has (not_has_new _)]

/-- The rule that has taken over can be put beside any other node. -/
theorem insertAfter_of_takeover {p : Progress} {anchor : NodeId} (hcont : p.sheet.Has container)
    (hg : Gathered (levels p.sheet container) (p.sheet.createRule selector a).2 t
      ⟨p.sheet.nodes.size⟩ (p.sheet.children a)) (hanchor : anchor ≠ ⟨p.sheet.nodes.size⟩) :
    Progress.insertAfter { p with sheet := t } container anchor ⟨p.sheet.nodes.size⟩ =
      .ok { p with
        sheet := t.move container ⟨p.sheet.nodes.size⟩
          (placeAfter anchor ⟨p.sheet.nodes.size⟩) } := by
  exact Progress.insertAfter_eq_ok (p := { p with sheet := t }) (.of_ranked hg.linked hg.ranked)
    hg.ranked ((has_of_takeover hg).2 hcont) (levels_lt_new hcont) (Ne.symm hanchor)

end TakeOver

end ClassRules.Lowering
