import ClassRules.Proofs.Lowering.Distribution
import ClassRules.Proofs.Sheet.Read

/-!
# Lowering a component is flattening it

## What this module delivers

- `Flattened`: the sheet after a component and its region have become rules in a row.
- `GoneThrough`: what holds before the last step, in which the new rule takes the component's place.
  `GoneThrough.flattened`: that step flattens the component.
- `exists_flattened`: lowering a component succeeds, flattens it and counts its rules.
-/

set_option autoImplicit false

namespace ClassRules.Lowering

open Sheet

/-- From `s` to `t` a component in `container` was flattened. In its place stand new rules, one for
each of the `pieces`, which are the component and its region in document order. The pieces are taken
out and empty, and all other nodes are as before but for the parents of what stood in a piece. -/
structure Flattened (s t : Sheet) (container component : NodeId) (pieces : List Piece) :
    Prop where
  forest : t.IsForest
  size_eq : t.nodes.size = s.nodes.size + pieces.length
  container_eq : ∃ front back, s.children container = front ++ component :: back ∧
    t.children container = front ++ handles s.nodes.size pieces.length ++ back
  stands : List.Forall₂ (StandsFor (fun c => c ∈ pieces.map Piece.atRule) s t)
    (handles s.nodes.size pieces.length) pieces
  taken_out : ∀ x ∈ pieces, t.parent x.atRule = none ∧ t.children x.atRule = []
  content_eq : ∀ id, s.Has id → t.content id = s.content id
  source_eq : ∀ id, s.Has id → t.source id = s.source id
  parent_eq : ∀ id, s.Has id → (∀ x ∈ pieces, x.atRule ≠ id ∧ s.parent id ≠ some x.atRule) →
    t.parent id = s.parent id
  children_eq : ∀ id, s.Has id → id ≠ container → (∀ x ∈ pieces, x.atRule ≠ id) →
    t.children id = s.children id

/-! ## The start -/

section Start

variable {cx : Context} {s : Sheet} {component container : NodeId} {region : List Piece}
  {name : String}

/-- Depths in the sheet at the beginning, where all new nodes get the depth of the component. -/
def levels (s : Sheet) (container id : NodeId) : Nat :=
  if s.Has id then s.depth id else s.depth container + 1

theorem levels_of_has {id : NodeId} (h : s.Has id) : levels s container id = s.depth id :=
  if_pos h

theorem levels_of_not_has {id : NodeId} (h : ¬ s.Has id) :
    levels s container id = s.depth container + 1 :=
  if_neg h

theorem ranked_levels (h : s.IsForest) (container : NodeId) : s.Ranked (levels s container) := by
  intro c p hp
  rw [levels_of_has (has_of_parent hp), levels_of_has (h.has_parent hp)]
  exact h.ranked_depth hp

/-- The pieces of a component are different nodes. -/
theorem Region.nodup_inside (h : s.IsForest)
    (hr : Region cx s name (s.children component) region) :
    (region.map Piece.atRule).Nodup :=
  hr.nodup h (h.nodup_children component) fun _ => h.mem_children_iff.1

theorem Region.has (h : s.IsForest) (hr : Region cx s name (s.children component) region) :
    ∀ x ∈ region, s.Has x.atRule := by
  intro x hx
  rcases hr.mem_or_mem_children x hx with hc | ⟨y, -, hc⟩
  · exact has_of_parent (h.mem_children_iff.1 hc)
  · exact has_of_parent (h.mem_children_iff.1 hc)

/-- With the rule of the component at hand, its children are to be gone through. -/
theorem Underway.start (h : s.IsForest) (hp : s.parent component = some container)
    (hr : Region cx s name (s.children component) region) (content : Content)
    (source : Option Source) :
    Underway s (levels s container) container ⟨s.nodes.size⟩ component (s.children component)
      region (s.create content source).2 := by
  have hcont : s.Has container := h.has_parent hp
  have hcomp : s.Has component := has_of_parent hp
  have hlevel : levels s container container = s.depth container := levels_of_has hcont
  have hdepth : s.depth component = s.depth container + 1 := h.depth_of_parent hp
  have hon := hr.hangsOn_and_ne h
  have hhas := hr.has h
  exact {
    linked := h.toIsLinked.create content source
    ranked := (ranked_levels h container).create content source
    size_le := by simp
    rank_new := fun id hid => by
      rw [hlevel, levels_of_not_has fun hs => hid ((has_create _ _ _ _).2 (.inr hs))]
    content_eq := fun id hid => by rw [content_create, if_neg hid.ne_new]
    source_eq := fun id hid => by rw [source_create, if_neg hid.ne_new]
    region_eq := fun x _ => children_create _ _ _ _
    region_ne := fun x hx => ⟨fun e => h.not_hangsOn_child hp (e ▸ (hon x hx).1),
      (hhas x hx).ne_new, (hon x hx).2⟩
    region_has := hhas
    owner_eq := children_create _ _ _ _
    parent_eq := fun c hc => h.mem_children_iff.1 hc
    rank_lt := fun c hc => by
      have hpc := h.mem_children_iff.1 hc
      rw [hlevel, levels_of_has (has_of_parent hpc), h.depth_of_parent hpc, hdepth]
      omega
    has_container := by simp [hcont]
    has_rule := by simp
    rank_rule := Nat.le_of_eq (by rw [hlevel, levels_of_not_has (not_has_new s)])
    container_ne_rule := hcont.ne_new
    container_ne_owner := h.parent_ne hp
    rule_ne_owner := Ne.symm hcomp.ne_new }

/-- What a region stands in is the component or a part of the region. -/
theorem Region.parent_eq (h : s.IsForest) (hr : Region cx s name (s.children component) region)
    {x : Piece} (hx : x ∈ region) {p : NodeId} (hp : s.parent x.atRule = some p) :
    p = component ∨ ∃ y ∈ region, y.atRule = p := by
  rcases hr.mem_or_mem_children x hx with hc | ⟨y, hy, hc⟩
  · exact .inl (Option.some.inj (hp.symm.trans (h.mem_children_iff.1 hc)))
  · exact .inr ⟨y, hy, Option.some.inj ((h.mem_children_iff.1 hc).symm.trans hp)⟩

/-- With its region, a component stands in its container and otherwise in itself. -/
theorem Region.parent_of_mem_cons (h : s.IsForest) (hp : s.parent component = some container)
    (hr : Region cx s name (s.children component) region) :
    ∀ x ∈ (⟨component, name⟩ :: region : List Piece), ∀ q, s.parent x.atRule = some q →
      q = container ∨ q ∈ (⟨component, name⟩ :: region : List Piece).map Piece.atRule := by
  intro x hx q hq
  rcases List.mem_cons.1 hx with rfl | hx
  · exact .inl (Option.some.inj (hq.symm.trans hp))
  · rcases hr.parent_eq h hx hq with rfl | ⟨y, hy, rfl⟩
    · exact .inr List.mem_cons_self
    · exact .inr (List.mem_map_of_mem (List.mem_cons_of_mem _ hy))

end Start

/-! ## The end -/

theorem has_create_of_has {s : Sheet} {id : NodeId} (hid : s.Has id) (content : Content)
    (source : Option Source) : (s.create content source).2.Has id :=
  (has_create _ _ _ _).2 (.inr hid)

/-- In `u` the children of a component with this region have been gone through, and nothing else has
happened since the sheet `s`. What is left to do is to put the new rule in the component's place. -/
structure GoneThrough (cx : Context) (s u : Sheet) (container component : NodeId) (name : String)
    (front back : List NodeId) (region : List Piece) : Prop where
  forest : s.IsForest
  parent_eq : s.parent component = some container
  along : Region cx s name (s.children component) region
  container_eq : s.children container = front ++ component :: back
  spread : Spread cx s (levels s container) container ⟨s.nodes.size⟩ component
    (front ++ [component]) back (s.children component) region
    (s.create (.rule ("." ++ name)) (s.source component)).2 u

namespace GoneThrough

variable {cx : Context} {s u : Sheet} {component container : NodeId} {name : String}
  {front back : List NodeId} {region : List Piece} {id q c : NodeId}
  (h : GoneThrough cx s u container component name front back region)

include h

/-! ### Before the last step -/

theorem has_container : s.Has container :=
  h.forest.has_parent h.parent_eq

theorem has_component : s.Has component :=
  has_of_parent h.parent_eq

theorem size_eq : u.nodes.size = s.nodes.size + 1 + region.length := by
  rw [h.spread.size_eq, size_create]

theorem ne_container_of_region {x : Piece} (hx : x ∈ region) : x.atRule ≠ container := fun e =>
  h.forest.not_hangsOn_child h.parent_eq (e ▸ (h.along.hangsOn_and_ne h.forest x hx).1)

/-- Only what stood in the component or its region can have gone along. -/
theorem ne_of_parent (hp : s.parent c = some q) (hne : q ≠ component)
    (hnot : ∀ x ∈ region, x.atRule ≠ q) : ∀ x ∈ region, x.atRule ≠ c := by
  rintro x hx rfl
  rcases h.along.parent_eq h.forest hx hp with rfl | ⟨y, hy, rfl⟩
  · exact hne rfl
  · exact hnot y hy rfl

/-- What is not nested did not go along. -/
theorem ne_of_not_isNested (hn : cx.isNested s c = false) : ∀ x ∈ region, x.atRule ≠ c := by
  rintro x hx rfl
  rw [h.along.isNested x hx] at hn
  cases hn

/-- What stands in the container is a new rule, or stood there before. -/
theorem mem_children_container (hc : c ∈ u.children container) :
    c ∈ handles (s.nodes.size + 1) region.length ∨ c ∈ s.children container := by
  rw [h.spread.container_eq, size_create] at hc
  rw [h.container_eq]
  simp only [List.mem_append, List.mem_cons, List.not_mem_nil, or_false] at hc ⊢
  rcases hc with ((hc | hc) | hc) | hc
  · exact .inr (.inl hc)
  · exact .inr (.inr (.inl hc))
  · exact .inl hc
  · exact .inr (.inr (.inr hc))

/-- What stands anywhere is a new rule or a node that stood somewhere and did not go along. -/
theorem mem_children (hc : c ∈ u.children q) :
    c ∈ handles (s.nodes.size + 1) region.length ∨
      (∃ p, s.parent c = some p) ∧ ∀ x ∈ region, x.atRule ≠ c := by
  by_cases hK : q = container
  · subst hK
    rcases h.mem_children_container hc with hnew | hold
    · exact .inl hnew
    · have hpc := h.forest.mem_children_iff.1 hold
      exact .inr ⟨⟨q, hpc⟩, h.ne_of_parent hpc (h.forest.parent_ne h.parent_eq)
        fun x hx => h.ne_container_of_region hx⟩
  -- The rule of the component has what was not nested in the component.
  by_cases hR : q = ⟨s.nodes.size⟩
  · rw [hR, h.spread.rule_eq, children_create, children_of_not_has (not_has_new s),
      List.nil_append, List.mem_filter] at hc
    exact .inr ⟨⟨component, h.forest.mem_children_iff.1 hc.1⟩,
      h.ne_of_not_isNested (by simpa using hc.2)⟩
  by_cases hC : q = component
  · rw [hC, h.spread.owner_eq] at hc
    exact absurd hc List.not_mem_nil
  by_cases hpiece : ∃ x ∈ region, x.atRule = q
  · obtain ⟨x, hx, rfl⟩ := hpiece
    rw [h.spread.region_eq x hx] at hc
    exact absurd hc List.not_mem_nil
  have hpiece' : ∀ x ∈ region, x.atRule ≠ q := fun x hx e => hpiece ⟨x, hx, e⟩
  -- Other old nodes have what they had.
  by_cases hold : (s.create (.rule ("." ++ name)) (s.source component)).2.Has q
  · rw [h.spread.other_eq q hold hK hR hC hpiece', children_create] at hc
    have hpc := h.forest.mem_children_iff.1 hc
    exact .inr ⟨⟨q, hpc⟩, h.ne_of_parent hpc hC hpiece'⟩
  · -- The rest are rules for the region.
    have hhas : u.Has q := has_of_mem_children hc
    have hq : q ∈ handles (s.nodes.size + 1) region.length := by
      have hsize := h.size_eq
      simp only [Has, size_create] at hold hhas
      exact mem_handles.2 ⟨by omega, by omega⟩
    obtain ⟨x, -, hstands⟩ := exists_of_forall₂ (by simpa using h.spread.stands) hq
    rw [hstands.children_eq, List.mem_filter] at hc
    exact .inr ⟨⟨x.atRule, h.forest.mem_children_iff.1 hc.1⟩,
      h.ne_of_not_isNested (by simpa using hc.2)⟩

/-- A node of the old sheet that stands somewhere stood somewhere and did not go along. -/
theorem exists_parent (hid : s.Has id) (hq : u.parent id = some q) :
    (∃ p, s.parent id = some p) ∧ ∀ x ∈ region, x.atRule ≠ id := by
  rcases h.mem_children (h.spread.linked.mem_children_iff.2 hq) with hnew | hold
  · exact absurd hnew (not_mem_handles_of_has hid (Nat.le_succ _) _)
  · exact hold

/-- A node hangs where it hung, unless it stood in the component or in a piece of its region, or is
the component. -/
theorem parent_old (hid : s.Has id) (hne : id ≠ component)
    (hnot : ∀ x ∈ (⟨component, name⟩ :: region : List Piece), s.parent id ≠ some x.atRule) :
    u.parent id = s.parent id := by
  cases hpar : s.parent id with
  | none =>
    cases hq : u.parent id with
    | none => rfl
    | some q =>
      obtain ⟨⟨p, hp⟩, -⟩ := h.exists_parent hid hq
      rw [hpar] at hp
      cases hp
  | some p =>
    -- Parents and children agree in both sheets, so it is enough to look at the children of `p`.
    have hmem := h.forest.mem_children_iff.2 hpar
    refine h.spread.linked.mem_children_iff.1 ?_
    by_cases hK : p = container
    · subst hK
      rw [h.container_eq] at hmem
      rw [h.spread.container_eq]
      simp only [List.mem_append, List.mem_cons] at hmem ⊢
      rcases hmem with hf | rfl | hb
      · exact .inl (.inl (.inl hf))
      · exact absurd rfl hne
      · exact .inr hb
    · have hp : s.Has p := h.forest.has_parent hpar
      rw [h.spread.other_eq p (has_create_of_has hp _ _) hK hp.ne_new, children_create]
      · exact hmem
      · exact fun e => hnot _ List.mem_cons_self (by rw [hpar, e])
      · exact fun x hx e => hnot x (List.mem_cons_of_mem _ hx) (by rw [hpar, e])

/-- Among the children of a piece, those that are nested are pieces, and no others are. -/
theorem filter_nested {x : Piece} (hx : x ∈ (⟨component, name⟩ :: region : List Piece)) :
    (s.children x.atRule).filter (!cx.isNested s ·) = (s.children x.atRule).filter
      fun c => !decide (c ∈ (⟨component, name⟩ :: region : List Piece).map Piece.atRule) := by
  refine List.filter_congr fun c hc => congrArg (! ·) ?_
  have hpc := h.forest.mem_children_iff.1 hc
  by_cases hn : cx.isNested s c = true
  · obtain ⟨y, hy, rfl⟩ : ∃ y ∈ region, y.atRule = c := by
      rcases List.mem_cons.1 hx with rfl | hx
      · exact h.along.mem_of_mem hc hn
      · exact h.along.mem_of_mem_children hx hc hn
    rw [hn]
    exact (decide_eq_true (List.mem_map_of_mem (List.mem_cons_of_mem _ hy))).symm
  · rw [Bool.eq_false_iff.2 hn, eq_comm, decide_eq_false_iff_not, List.mem_map]
    rintro ⟨y, hy, rfl⟩
    rcases List.mem_cons.1 hy with rfl | hy
    · -- The component stands in the container, which is no piece.
      obtain rfl : x.atRule = container := Option.some.inj (hpc.symm.trans h.parent_eq)
      rcases List.mem_cons.1 hx with rfl | hx
      · exact h.forest.parent_ne h.parent_eq rfl
      · exact h.ne_container_of_region hx rfl
    · exact hn (h.along.isNested y hy)

/-! ### The last step -/

theorem parent_component : u.parent component = some container := by
  refine h.spread.linked.mem_children_iff.1 ?_
  rw [h.spread.container_eq]
  simp

/-- The new rule stands nowhere yet. -/
theorem filter_rule (q : NodeId) : (u.children q).filter (· ≠ ⟨s.nodes.size⟩) = u.children q := by
  refine List.filter_eq_self.2 fun c hc => decide_eq_true ?_
  rintro rfl
  rcases h.mem_children hc with hnew | ⟨⟨p, hp⟩, -⟩
  · exact absurd (mem_handles.1 hnew).1 (by simp)
  · exact not_has_new s (has_of_parent hp)

theorem children_of_ne (hq : q ≠ container) :
    (u.replaceWith component ⟨s.nodes.size⟩).children q = u.children q := by
  rw [children_replaceWith h.spread.linked h.has_component.ne_new h.parent_component, if_neg hq,
    h.filter_rule]

theorem children_container :
    (u.replaceWith component ⟨s.nodes.size⟩).children container =
      front ++ handles s.nodes.size (region.length + 1) ++ back := by
  -- The rules for the region stand behind the component, whose place its rule takes.
  have hlist : u.children container = front ++ component ::
      (handles (s.nodes.size + 1) region.length ++ back) := by
    rw [h.spread.container_eq, size_create]
    simp
  rw [children_replaceWith h.spread.linked h.has_component.ne_new h.parent_component, if_pos rfl,
    h.filter_rule, replace_eq_of_eq_append hlist (h.spread.linked.nodup_children container),
    handles_succ]
  simp

theorem has_rule : u.Has ⟨s.nodes.size⟩ := by
  have hsize := h.size_eq
  simp only [Has]
  omega

theorem parent_of_ne (hid : s.Has id) (hne : id ≠ component) :
    (u.replaceWith component ⟨s.nodes.size⟩).parent id = u.parent id := by
  rw [parent_replaceWith h.has_component.ne_new h.parent_component h.has_rule, if_neg hne,
    if_neg hid.ne_new]

theorem content_eq (hid : (s.create (.rule ("." ++ name)) (s.source component)).2.Has id) :
    (u.replaceWith component ⟨s.nodes.size⟩).content id =
      (s.create (.rule ("." ++ name)) (s.source component)).2.content id := by
  rw [content_replaceWith h.has_component.ne_new h.parent_component, h.spread.content_eq id hid]

theorem source_eq (hid : (s.create (.rule ("." ++ name)) (s.source component)).2.Has id) :
    (u.replaceWith component ⟨s.nodes.size⟩).source id =
      (s.create (.rule ("." ++ name)) (s.source component)).2.source id := by
  rw [source_replaceWith h.has_component.ne_new h.parent_component, h.spread.source_eq id hid]

theorem isForest : (u.replaceWith component ⟨s.nodes.size⟩).IsForest := by
  have hne := h.has_component.ne_new
  have hlt : levels s container container < levels s container ⟨s.nodes.size⟩ := by
    rw [levels_of_has h.has_container, levels_of_not_has (not_has_new s)]
    exact Nat.lt_succ_self _
  have hlinked := h.spread.linked.replaceWith hne h.parent_component h.has_rule
  exact .of_ranked hlinked
    (h.spread.ranked.replaceWith hne h.parent_component h.has_rule hlt)

/-- The rule of the component, and behind it those of its region, stand for the pieces. -/
theorem stands :
    List.Forall₂
      (StandsFor (fun c => c ∈ (⟨component, name⟩ :: region : List Piece).map Piece.atRule) s
        (u.replaceWith component ⟨s.nodes.size⟩))
      (handles s.nodes.size (⟨component, name⟩ :: region : List Piece).length)
      (⟨component, name⟩ :: region) := by
  have hsize : (s.create (.rule ("." ++ name)) (s.source component)).2.nodes.size =
      s.nodes.size + 1 := size_create _ _ _
  have hstands := h.spread.stands
  rw [hsize] at hstands
  rw [List.length_cons, handles_succ]
  refine .cons ⟨?_, ?_, ?_⟩ ?_
  · rw [h.content_eq (by simp), content_create, if_pos rfl]
  · rw [h.source_eq (by simp), source_create, if_pos rfl]
  · rw [h.children_of_ne (Ne.symm h.has_container.ne_new), h.spread.rule_eq, children_create,
      children_of_not_has (not_has_new s), List.nil_append]
    exact h.filter_nested List.mem_cons_self
  · apply forall₂_imp_of_mem hstands
    intro r hr x hx hrx
    have hne := h.has_component.ne_new
    have hrc : r ≠ container := fun e =>
      not_mem_handles_of_has h.has_container (Nat.le_succ _) _ (e ▸ hr)
    refine ⟨?_, ?_, ?_⟩
    · rw [content_replaceWith hne h.parent_component, hrx.content_eq]
    · rw [source_replaceWith hne h.parent_component, hrx.source_eq]
    · rw [h.children_of_ne hrc, hrx.children_eq, h.filter_nested (List.mem_cons_of_mem _ hx)]

/-- The component and its region stand nowhere, and nothing stands in them. -/
theorem taken_out :
    ∀ x ∈ (⟨component, name⟩ :: region : List Piece),
      (u.replaceWith component ⟨s.nodes.size⟩).parent x.atRule = none ∧
        (u.replaceWith component ⟨s.nodes.size⟩).children x.atRule = [] := by
  intro x hx
  rcases List.mem_cons.1 hx with rfl | hx
  · refine ⟨?_, ?_⟩
    · rw [parent_replaceWith h.has_component.ne_new h.parent_component h.has_rule, if_pos rfl]
    · rw [h.children_of_ne (Ne.symm (h.forest.parent_ne h.parent_eq)), h.spread.owner_eq]
  · have hhas := h.along.has h.forest x hx
    have hne := (h.along.hangsOn_and_ne h.forest x hx).2
    refine ⟨?_, ?_⟩
    · rw [h.parent_of_ne hhas hne]
      cases hq : u.parent x.atRule with
      | none => rfl
      | some q => exact absurd rfl ((h.exists_parent hhas hq).2 x hx)
    · rw [h.children_of_ne (h.ne_container_of_region hx), h.spread.region_eq x hx]

/-- Putting the rule in the place of the component is all that is left to do. -/
theorem flattened :
    Flattened s (u.replaceWith component ⟨s.nodes.size⟩) container component
      (⟨component, name⟩ :: region) := by
  constructor
  case forest =>
    exact h.isForest
  case size_eq =>
    rw [size_replaceWith h.has_component.ne_new h.parent_component, h.size_eq, List.length_cons]
    omega
  case container_eq =>
    exact ⟨front, back, h.container_eq, h.children_container⟩
  case stands =>
    exact h.stands
  case taken_out =>
    exact h.taken_out
  case content_eq =>
    intro id hid
    rw [h.content_eq (has_create_of_has hid _ _), content_create, if_neg hid.ne_new]
  case source_eq =>
    intro id hid
    rw [h.source_eq (has_create_of_has hid _ _), source_create, if_neg hid.ne_new]
  case parent_eq =>
    intro id hid hnot
    -- A node that stood in none of the pieces was moved by nothing.
    have hne : id ≠ component := Ne.symm (hnot ⟨component, name⟩ List.mem_cons_self).1
    rw [h.parent_of_ne hid hne]
    exact h.parent_old hid hne fun x hx => (hnot x hx).2
  case children_eq =>
    intro id hid hK hnot
    have hC : id ≠ component := Ne.symm (hnot ⟨component, name⟩ List.mem_cons_self)
    have hpiece : ∀ x ∈ region, x.atRule ≠ id := fun x hx => hnot x (List.mem_cons_of_mem _ hx)
    have hcreated := has_create_of_has hid (.rule ("." ++ name)) (s.source component)
    rw [h.children_of_ne hK, h.spread.other_eq id hcreated hK hid.ne_new hC hpiece,
      children_create]

end GoneThrough

/-! ## The whole -/

section Whole

variable (cx : Context) {p : Progress} {component container : NodeId}

/-- Every modifier and descendent is searched for as deep as there are nodes. -/
theorem searchesDeep_lowerNested (s : Sheet) (container : NodeId) (name : String)
    (cs : List NodeId) : SearchesDeep cx s container name cs (lowerNested cx container name) :=
  fun _ _ p _ hle => ⟨p.sheet.nodes.size, Nat.le_add_right_of_le hle, rfl⟩

/-- Lowering a component succeeds and flattens it. -/
theorem exists_flattened (h : p.sheet.IsForest) (hp : p.sheet.parent component = some container)
    (ns : Option String) :
    ∃ region q, Region cx p.sheet (cx.componentName ns (p.sheet.params component))
        (p.sheet.children component) region ∧
      lowerComponent cx p component ns = .ok q ∧
      Flattened p.sheet q.sheet container component
        (⟨component, cx.componentName ns (p.sheet.params component)⟩ :: region) ∧
      Tally p q ({ components := 1 } + regionStats cx p.sheet region) := by
  obtain ⟨region, hr⟩ := exists_region cx h p.sheet.nodes.size
    (cx.componentName ns (p.sheet.params component)) (p.sheet.children component) fun c hc =>
      ⟨has_of_parent (h.mem_children_iff.1 hc), Nat.le_add_right _ _⟩
  obtain ⟨front, back, heq⟩ := List.append_of_mem (h.mem_children_iff.2 hp)
  have hstart := Underway.start h hp hr
    (.rule ("." ++ cx.componentName ns (p.sheet.params component))) (p.sheet.source component)
  have hplace : (p.createRule ("." ++ cx.componentName ns (p.sheet.params component))
      component).2.sheet.children container = front ++ [component] ++ back := by
    rw [← List.append_cons, ← heq]
    exact children_create _ _ _ _
  have hlast : (front ++ [component]).getLast? = some component := by simp
  obtain ⟨_, q, hdist, -, hspread, hcounts⟩ :=
    hr.alwaysDistributes h (ranked_levels h container) _
      (p.createRule ("." ++ cx.componentName ns (p.sheet.params component)) component).2 _ _ _ _ _
      (searchesDeep_lowerNested cx p.sheet container _ _) hstart (hr.nodup_inside h) hplace hlast
  have hgone : GoneThrough cx p.sheet q.sheet container component
      (cx.componentName ns (p.sheet.params component)) front back region :=
    ⟨h, hp, hr, heq, hspread⟩
  refine ⟨region, (q.replaceWith component ⟨p.sheet.nodes.size⟩).count fun c =>
    { c with components := c.components + 1 }, hr, ?_, hgone.flattened, ?_, ?_, ?_⟩
  · rw [lowerComponent, hp]
    have hchildren : (p.createRule ("." ++ cx.componentName ns (p.sheet.params component))
        component).2.sheet.children component = p.sheet.children component :=
      children_create _ _ _ _
    rw [← hchildren] at hdist
    exact congrArg (· >>= fun r => pure ((r.2.replaceWith component ⟨p.sheet.nodes.size⟩).count
      fun c => { c with components := c.components + 1 })) hdist
  · have hstats : q.stats = p.stats + regionStats cx p.sheet region := hcounts.stats_eq
    rw [Stats.add_comm { components := 1 }, ← Stats.add_assoc, ← hstats]
    rfl
  · exact hcounts.warnings_eq
  · exact (inputs_replaceWith hgone.has_component.ne_new hgone.parent_component).trans
      hcounts.inputs_eq

/-- Lowering a component with a parent always succeeds and is the flattening of its region: in the
place of the component stand a rule for it and one for each part of the region, in document order.
The class of the component is what the namespace puts in front, and its params. -/
theorem lowerComponent_eq_flattening (h : p.sheet.IsForest)
    (hp : p.sheet.parent component = some container) (ns : Option String) :
    let name := cx.convention.namespacePrefix ns ++ p.sheet.params component
    ∃ region, (∀ r, Region cx p.sheet name (p.sheet.children component) r ↔ r = region) ∧
      ∃ q, lowerComponent cx p component ns = .ok q ∧
        Flattened p.sheet q.sheet container component (⟨component, name⟩ :: region) := by
  intro name
  have hname : cx.componentName ns (p.sheet.params component) = name :=
    Context.componentName_eq cx ns (p.sheet.params component)
  obtain ⟨region, q, hr, hq, hflat, -⟩ := exists_flattened cx h hp ns
  rw [hname] at hr hflat
  refine ⟨region, fun r => ⟨fun hr' => hr'.unique hr, ?_⟩, q, hq, hflat⟩
  rintro rfl
  exact hr

end Whole

/-- A component on the root, with a modifier in it and a descendent in that one. -/
def cardSheet : Sheet :=
  Sheet.empty.addForest root [.node (.atRule "component" "Card" true) none
    [.node (.atRule "modifier" "wide" true) none
      [.node (.atRule "descendent" "icon" true) none []]]]

/-- For instance, in a namespace: each rule has the class of the one before and its own name. -/
theorem lowerComponent_eq_flattening_card :
    ∃ q, lowerComponent ⟨.ofStyle .suit, {}⟩ { sheet := cardSheet } ⟨1⟩ (some "my") = .ok q ∧
      Flattened cardSheet q.sheet root ⟨1⟩
        [⟨⟨1⟩, "my-Card"⟩, ⟨⟨2⟩, "my-Card--wide"⟩, ⟨⟨3⟩, "my-Card--wide-icon"⟩] ∧
      q.sheet.children root = [⟨4⟩, ⟨5⟩, ⟨6⟩] ∧
      q.sheet.content ⟨4⟩ = .rule ".my-Card" ∧
      q.sheet.content ⟨5⟩ = .rule ".my-Card--wide" ∧
      q.sheet.content ⟨6⟩ = .rule ".my-Card--wide-icon" := by
  have hparent : cardSheet.parent ⟨1⟩ = some root := rfl
  have hforest : cardSheet.IsForest := isSound_empty.toIsForest.addForest _ isSound_empty.has_root
  obtain ⟨region, hregion, q, hq, hflat⟩ :=
    lowerComponent_eq_flattening ⟨.ofStyle .suit, {}⟩ (p := { sheet := cardSheet }) hforest hparent
      (some "my")
  have hwide : Context.nestedClass? ⟨.ofStyle .suit, {}⟩ cardSheet "my-Card" ⟨2⟩ =
      some "my-Card--wide" := by decide +kernel
  have hicon : Context.nestedClass? ⟨.ofStyle .suit, {}⟩ cardSheet "my-Card--wide" ⟨3⟩ =
      some "my-Card--wide-icon" := by decide +kernel
  obtain rfl : [⟨⟨2⟩, "my-Card--wide"⟩, ⟨⟨3⟩, "my-Card--wide-icon"⟩] = region :=
    (hregion _).1 (.nested hwide (.nested hicon .nil .nil) .nil)
  refine ⟨q, hq, hflat, ?_, ?_⟩
  · obtain ⟨front, back, hfront, hchildren⟩ := hflat.container_eq
    have hroot : cardSheet.children root = [⟨1⟩] := by decide +kernel
    obtain ⟨rfl, rfl⟩ : front = [] ∧ back = [] := by
      simpa [List.singleton_eq_append_iff] using hroot.symm.trans hfront
    exact hchildren
  · rcases hflat.stands with _ | ⟨hfirst, _ | ⟨hsecond, _ | ⟨hthird, _⟩⟩⟩
    exact ⟨hfirst.content_eq, hsecond.content_eq, hthird.content_eq⟩

end ClassRules.Lowering
