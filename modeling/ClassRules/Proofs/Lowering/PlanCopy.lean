import ClassRules.Proofs.Lowering.Mirror

/-!
# Plans on a copy

On a copy of a sheet the same is planned at the corresponding nodes.

## What this module delivers

- `Plan.copy`: the plan for the corresponding nodes.
- `utilityPlan_copy`, `componentPlan_copy`, `splice_copy`, `statePlan_copy`: this is what is
  planned.
- `Edit.fits_swap`, `fits_flatten`, `fits_splice`, `fits_follow`: the edits speak of nodes of the
  sheet.
-/

set_option autoImplicit false

namespace ClassRules.Lowering

open Sheet

/-- The plan for the corresponding nodes. -/
def Plan.copy (C : Copy) (plan : Plan) : Plan :=
  { plan with edit := plan.edit.copy C }

section Plans

variable {cx cx' : Context} {R : Content → Content → Prop} {C : Copy} {s t : Sheet}
  {a container : NodeId} (hR : Likeness cx cx' R) (h : IsCopy R C s t) (hs : s.IsSound)

include h hs

/-- Where a rule takes over, the corresponding rule does in the copy. -/
theorem takeover_copy (ha : s.Has a) (hne : a ≠ root) (selector : String) :
    (⟨selector, t.source (C.node a), t.children (C.node a)⟩ : NewRule) =
      NewRule.copy (C.extend s t) ⟨selector, s.source a, s.children a⟩ := by
  have hmap := C.map_extend t fun c hc => has_of_parent (hs.mem_children_iff (p := a).1 hc)
  rw [NewRule.copy, hmap, h.source_eq a ha hne, h.children_eq ha hne]
  rfl

include hR

/-- The plan for a utility in a copy is the copy of its plan. -/
theorem utilityPlan_copy (ha : s.Has a) (hne : a ≠ root) (hc : cx.IsCustom s a)
    (hcont : s.Has container) : utilityPlan t (C.node a) (C.node container) =
      (utilityPlan s a container).map (Plan.copy (C.extend s t)) := by
  have hedit : ∀ selector, Edit.swap t (C.node a) (C.node container) selector =
      (Edit.swap s a container selector).copy (C.extend s t) := by
    intro selector
    have hnew : (C.extend s t).node ⟨s.nodes.size⟩ = ⟨t.nodes.size⟩ := C.extend_new s t 0
    simp only [Edit.swap, Edit.copy, List.map_cons, List.map_nil, C.extend_of_has t ha,
      C.extend_of_has t hcont, hnew, takeover_copy h hs ha hne]
  unfold utilityPlan
  dsimp only
  rw [params_copy hR h ha hne hc, misuse_copy h ha hne, remarks_copy h ha hne]
  split
  · rfl
  · cases remarks s a ((utilityItems (s.params a)).flatMap utilityWarnings) with
    | error fault => rfl
    | ok warnings => simp [Except.map, Plan.copy, hedit]

omit hR h hs in
/-- Nodes that are made in a row have copies in a row. -/
theorem map_handles_extend (C : Copy) (s t : Sheet) (n : Nat) :
    (handles s.nodes.size n).map (C.extend s t).node = handles t.nodes.size n := by
  simp only [handles, List.range'_eq_map_range, List.map_map]
  apply List.map_congr_left
  intro i _
  exact C.extend_new s t i

omit hR in
/-- Flattening in a copy is the copy of flattening, as the pieces are different nodes there too. -/
theorem flatten_copy (pieces : List Piece) (ha : s.Has a) (hcont : s.Has container)
    (hpieces : ∀ x ∈ pieces, s.Has x.atRule ∧ x.atRule ≠ root) :
    Edit.flatten t (C.node a) (C.node container) (pieces.map (Piece.copy C)) =
      (Edit.flatten s a container pieces).copy (C.extend s t) := by
  have hgone : (pieces.map (Piece.copy C)).map Piece.atRule =
      (pieces.map Piece.atRule).map (C.extend s t).node := by
    rw [C.map_extend t fun c hc => by
      obtain ⟨x, hx, rfl⟩ := List.mem_map.1 hc
      exact (hpieces x hx).1]
    simp [Piece.copy, Function.comp_def]
  -- Different nodes have different copies, so the same children are left to both rules.
  have hmem : ∀ c, s.Has c → (C.node c ∈ (pieces.map Piece.atRule).map (C.extend s t).node ↔
      c ∈ pieces.map Piece.atRule) := by
    intro c hc
    rw [← C.extend_of_has t hc]
    refine ⟨fun hin => ?_, fun hin => List.mem_map_of_mem hin⟩
    obtain ⟨d, hd, hdc⟩ := List.mem_map.1 hin
    obtain ⟨x, hx, rfl⟩ := List.mem_map.1 hd
    rw [C.extend_of_has t hc, C.extend_of_has t (hpieces x hx).1] at hdc
    exact h.inj _ _ (hpieces x hx).1 hc hdc ▸ hd
  have hrules : ∀ x ∈ pieces, (⟨"." ++ x.name, t.source (C.node x.atRule),
      (t.children (C.node x.atRule)).filter
        (· ∉ (pieces.map Piece.atRule).map (C.extend s t).node)⟩ : NewRule) =
        NewRule.copy (C.extend s t) ⟨"." ++ x.name, s.source x.atRule,
          (s.children x.atRule).filter (· ∉ pieces.map Piece.atRule)⟩ := by
    intro x hx
    obtain ⟨hhas, hne⟩ := hpieces x hx
    have hchild : ∀ c ∈ s.children x.atRule, s.Has c := fun c hc =>
      has_of_parent (hs.mem_children_iff.1 hc)
    rw [NewRule.copy, C.map_extend t fun c hc => hchild c (List.mem_of_mem_filter hc),
      h.source_eq _ hhas hne, h.children_eq hhas hne, List.filter_map]
    congr 2
    apply List.filter_congr
    intro c hc
    simp only [Function.comp, hmem c (hchild c hc)]
  unfold Edit.flatten Edit.copy
  simp only [hgone, C.extend_of_has t ha, C.extend_of_has t hcont, List.length_map,
    map_handles_extend]
  congr 1
  generalize (pieces.map Piece.atRule).map (C.extend s t).node = gone' at hrules ⊢
  generalize pieces.map Piece.atRule = gone at hrules ⊢
  rw [List.map_map, List.map_map]
  exact List.map_congr_left hrules

/-- The plan for a component in a copy is the copy of its plan. -/
theorem componentPlan_copy {name : String} {region : List Piece} (ha : s.Has a) (hne : a ≠ root)
    (hcont : s.Has container) (hregion : ∀ x ∈ region, s.Has x.atRule ∧ x.atRule ≠ root) :
    componentPlan cx' t (C.node a) (C.node container) name (region.map (Piece.copy C)) =
      (componentPlan cx s a container name region).copy (C.extend s t) := by
  have hedit := flatten_copy h hs (⟨a, name⟩ :: region) ha hcont
    (List.forall_mem_cons.2 ⟨⟨ha, hne⟩, hregion⟩)
  rw [componentPlan, componentPlan, Plan.copy, regionStats_copy hR h hregion, ← hedit]
  rfl

omit hR in
/-- Letting children take the place of their parent is the same in a copy. -/
theorem splice_copy (ha : s.Has a) (hne : a ≠ root) (hcont : s.Has container) :
    Edit.splice t (C.node a) (C.node container) =
      (Edit.splice s a container).copy (C.extend s t) := by
  have hmap := C.map_extend t fun c hc => has_of_parent (hs.mem_children_iff (p := a).1 hc)
  simp only [Edit.splice, Edit.copy, List.map_cons, List.map_nil, C.extend_of_has t ha,
    C.extend_of_has t hcont, hmap, h.children_eq ha hne]

/-- The plan for a state in a copy is the copy of its plan. -/
theorem statePlan_copy {parent anchor : NodeId} (ha : s.Has a) (hne : a ≠ root)
    (hc : cx.IsCustom s a) (hparent : s.Has parent) (hroot : parent ≠ root)
    (hcont : s.Has container) (hanchor : s.Has anchor) :
    statePlan cx' t (C.node a) (C.node parent) (C.node container) (C.node anchor) =
      (statePlan cx s a parent container anchor).copy (C.extend s t) := by
  have hnew : (C.extend s t).node ⟨s.nodes.size⟩ = ⟨t.nodes.size⟩ := C.extend_new s t 0
  simp only [statePlan, Plan.copy, Edit.follow, Edit.copy, List.map_cons, List.map_nil,
    C.extend_of_has t ha, C.extend_of_has t hcont, C.extend_of_has t hanchor, hnew,
    takeover_copy h hs ha hne, hR.convention_eq, selector_copy hR h hparent hroot,
    params_copy hR h ha hne hc]

end Plans

/-! ## Edits of nodes of a sheet -/

section Fits

variable {cx : Context} {s : Sheet} {a container : NodeId} (hs : s.IsSound)

include hs

/-- The edit for a utility speaks of nodes of the sheet. -/
theorem Edit.fits_swap (hp : s.parent a = some container) (selector : String) :
    (Edit.swap s a container selector).Fits s where
  gone x hx := by
    rw [List.mem_singleton.1 hx]
    exact ⟨has_of_parent hp, hs.ne_root_of_parent hp, (hs.parent_ne hp).symm⟩
  old := hs.mem_children_iff.2 hp
  source r hr := ⟨a, List.mem_singleton_self a, by rw [List.mem_singleton.1 hr]⟩

theorem Edit.fits_splice (hp : s.parent a = some container) :
    (Edit.splice s a container).Fits s where
  gone x hx := by
    rw [List.mem_singleton.1 hx]
    exact ⟨has_of_parent hp, hs.ne_root_of_parent hp, (hs.parent_ne hp).symm⟩
  old := hs.mem_children_iff.2 hp
  source r hr := absurd hr List.not_mem_nil

theorem Edit.fits_follow {anchor : NodeId} (ha : s.Has a) (hne : a ≠ root) (hac : a ≠ container)
    (hanchor : s.parent anchor = some container) (selector : String) :
    (Edit.follow s a container anchor selector).Fits s where
  gone x hx := by
    rw [List.mem_singleton.1 hx]
    exact ⟨ha, hne, hac⟩
  old := hs.mem_children_iff.2 hanchor
  source r hr := ⟨a, List.mem_singleton_self a, by rw [List.mem_singleton.1 hr]⟩

/-- For a component, the region hangs on it, so that neither root nor container is in it. -/
theorem Edit.fits_flatten {name : String} {region : List Piece}
    (hp : s.parent a = some container) (hr : Region cx s name (s.children a) region) :
    (Edit.flatten s a container (⟨a, name⟩ :: region)).Fits s where
  gone x hx := by
    obtain ⟨y, hy, rfl⟩ := List.mem_map.1 hx
    have hon : s.HangsOn y.atRule a := by
      rcases List.mem_cons.1 hy with rfl | hy
      · exact .refl s a
      · exact (hr.hangsOn_and_ne hs.toIsForest y hy).1
    have hhas : s.Has y.atRule := by
      rcases List.mem_cons.1 hy with rfl | hy
      · exact has_of_parent hp
      · exact hr.has hs.toIsForest y hy
    refine ⟨hhas, ?_, ?_⟩
    · intro heq
      rw [heq, HangsOn.iff_eq_of_parent_none hs.parent_root] at hon
      exact hs.ne_root_of_parent hp hon.symm
    · intro heq
      have hcontainer : y.atRule = container := heq
      exact hs.not_hangsOn_child hp (hcontainer ▸ hon)
  old := hs.mem_children_iff.2 hp
  source r hr := by
    obtain ⟨y, hy, rfl⟩ := List.mem_map.1 hr
    exact ⟨y.atRule, List.mem_map_of_mem hy, rfl⟩

end Fits

end ClassRules.Lowering
