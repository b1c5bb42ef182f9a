import ClassRules.Sheet.Walk
import Mathlib.Data.List.Chain
import Mathlib.Data.List.Nodup
import Mathlib.Data.List.Perm.Subperm
import Mathlib.Logic.Relation

/-!
# Sheets as forests

The links of a sheet are kept twice, as parents and as lists of children. Where both agree and no
node hangs on itself, the nodes make up trees.

## What this module delivers

- `Sheet.Has`: a handle stands for a node.
- `Sheet.IsLinked`, `Sheet.IsForest`: the links agree, and all ways up end.
- `Sheet.HangsOn`: a node is another one or hangs on it, directly or not.
- `IsLinked.mem_lineage_iff`, `IsLinked.isAttached_iff`, `IsLinked.isAncestorOrSelf_iff`: the walks
  up, which stop after as many nodes as the sheet has, miss nothing.
- `IsForest.depth_lt`, `IsForest.depth_of_parent`: depths grow by one from parent to child.
- `Sheet.Ranked`, `IsForest.of_ranked`: numbers that grow from parent to child show that all ways up
  end.
-/

set_option autoImplicit false

namespace ClassRules.Sheet

variable {s : Sheet}

/-- A handle stands for a node of the sheet. -/
def Has (s : Sheet) (id : NodeId) : Prop :=
  id.index < s.nodes.size

instance (s : Sheet) (id : NodeId) : Decidable (s.Has id) :=
  inferInstanceAs (Decidable (id.index < s.nodes.size))

/-- The children of a node are those whose parent it is, each listed once. -/
structure IsLinked (s : Sheet) : Prop where
  mem_children_iff : ∀ {p c : NodeId}, c ∈ s.children p ↔ s.parent c = some p
  nodup_children : ∀ p : NodeId, (s.children p).Nodup

/-- The links agree, and the way up from each node ends. -/
structure IsForest (s : Sheet) : Prop extends s.IsLinked where
  wf_parent : WellFounded fun p c => s.parent c = some p

/-- The node `id` is `a`, or its parent hangs on `a`. -/
def HangsOn (s : Sheet) (id a : NodeId) : Prop :=
  Relation.ReflTransGen (fun c p => s.parent c = some p) id a

/-- Numbers that grow from parent to child. -/
def Ranked (s : Sheet) (rank : NodeId → Nat) : Prop :=
  ∀ ⦃c p : NodeId⦄, s.parent c = some p → rank p < rank c

/-! ## Handles -/

theorem node_of_not_has {id : NodeId} (h : ¬ s.Has id) : s.node id = default := by
  have hle : s.nodes.size ≤ id.index := Nat.le_of_not_lt h
  simp [node, hle]

/-- A sheet that has not got smaller has all nodes that it had. -/
theorem Has.mono {t : Sheet} {id : NodeId} (h : s.Has id) (hle : s.nodes.size ≤ t.nodes.size) :
    t.Has id :=
  Nat.lt_of_lt_of_le h hle

theorem children_of_not_has {p : NodeId} (h : ¬ s.Has p) : s.children p = [] := by
  rw [children, node_of_not_has h]
  rfl

theorem parent_of_not_has {c : NodeId} (h : ¬ s.Has c) : s.parent c = none := by
  rw [parent, node_of_not_has h]
  rfl

theorem has_of_parent {c p : NodeId} (h : s.parent c = some p) : s.Has c := by
  by_contra hc
  rw [parent_of_not_has hc] at h
  cases h

theorem has_of_mem_children {c p : NodeId} (h : c ∈ s.children p) : s.Has p := by
  by_contra hp
  rw [children_of_not_has hp] at h
  exact List.not_mem_nil h

theorem IsLinked.has_parent (h : s.IsLinked) {c p : NodeId} (hp : s.parent c = some p) :
    s.Has p :=
  has_of_mem_children (h.mem_children_iff.2 hp)

/-- A list of different nodes is no longer than the sheet. -/
theorem length_le_size {l : List NodeId} (hl : l.Nodup) (h : ∀ id ∈ l, s.Has id) :
    l.length ≤ s.nodes.size := by
  have hinj : Function.Injective NodeId.index := fun a b hab => by
    cases a
    cases b
    exact congrArg NodeId.mk hab
  have hsub : l.map NodeId.index ⊆ List.range s.nodes.size := by
    intro i hi
    obtain ⟨id, hid, rfl⟩ := List.mem_map.1 hi
    exact List.mem_range.2 (h id hid)
  have hle := ((hl.map hinj).subperm hsub).length_le
  rwa [List.length_map, List.length_range] at hle

/-! ## Hanging on a node -/

namespace HangsOn

theorem refl (s : Sheet) (id : NodeId) : s.HangsOn id id :=
  Relation.ReflTransGen.refl

theorem trans {a b c : NodeId} (h₁ : s.HangsOn a b) (h₂ : s.HangsOn b c) : s.HangsOn a c :=
  Relation.ReflTransGen.trans h₁ h₂

theorem single {c p : NodeId} (h : s.parent c = some p) : s.HangsOn c p :=
  Relation.ReflTransGen.single h

theorem head {c p a : NodeId} (h : s.parent c = some p) (ha : s.HangsOn p a) : s.HangsOn c a :=
  Relation.ReflTransGen.head h ha

/-- A node hangs on another one if it is that node or has a parent that does. -/
theorem iff_parent {id a : NodeId} :
    s.HangsOn id a ↔ id = a ∨ ∃ p, s.parent id = some p ∧ s.HangsOn p a := by
  constructor
  · intro h
    rcases Relation.ReflTransGen.cases_head h with rfl | ⟨p, hp, hpa⟩
    · exact .inl rfl
    · exact .inr ⟨p, hp, hpa⟩
  · rintro (rfl | ⟨p, hp, hpa⟩)
    · exact refl s id
    · exact head hp hpa

theorem iff_eq_of_parent_none {id a : NodeId} (h : s.parent id = none) :
    s.HangsOn id a ↔ id = a := by
  rw [iff_parent, h]
  simp

theorem iff_of_parent {id p a : NodeId} (h : s.parent id = some p) :
    s.HangsOn id a ↔ id = a ∨ s.HangsOn p a := by
  rw [iff_parent, h]
  simp

/-- Of two nodes that the same node hangs on, one hangs on the other. -/
theorem total {id a b : NodeId} (ha : s.HangsOn id a) (hb : s.HangsOn id b) :
    s.HangsOn a b ∨ s.HangsOn b a :=
  Relation.ReflTransGen.total_of_right_unique
    (fun _ _ _ h₁ h₂ => Option.some.inj (h₁.symm.trans h₂)) ha hb

theorem has (h : s.IsLinked) {id a : NodeId} (ha : s.HangsOn id a) (hid : s.Has id) :
    s.Has a := by
  cases ha with
  | refl => exact hid
  | tail _ hp => exact h.has_parent hp

/-- Numbers that grow from parent to child grow along every way down. -/
theorem rank_le {rank : NodeId → Nat} (hr : s.Ranked rank) {id a : NodeId}
    (h : s.HangsOn id a) : rank a ≤ rank id := by
  induction h with
  | refl => exact Nat.le_refl _
  | tail _ hp ih => exact Nat.le_trans (Nat.le_of_lt (hr hp)) ih

theorem rank_lt {rank : NodeId → Nat} (hr : s.Ranked rank) {id a : NodeId}
    (h : s.HangsOn id a) (hne : id ≠ a) : rank a < rank id := by
  rcases iff_parent.1 h with rfl | ⟨p, hp, hpa⟩
  · exact absurd rfl hne
  · exact Nat.lt_of_le_of_lt (hpa.rank_le hr) (hr hp)

end HangsOn

/-! ## Ways up -/

/-- A walk up meets only nodes that its start hangs on. -/
theorem hangsOn_of_mem_lineageTo {fuel : Nat} {id a : NodeId} (ha : a ∈ s.lineageTo fuel id) :
    s.HangsOn id a := by
  induction fuel generalizing id with
  | zero => exact absurd ha List.not_mem_nil
  | succ fuel ih =>
    cases hp : s.parent id with
    | none =>
      simp only [lineageTo, hp, List.mem_singleton] at ha
      exact ha ▸ HangsOn.refl s a
    | some p =>
      simp only [lineageTo, hp, List.mem_cons] at ha
      rcases ha with rfl | ha
      · exact HangsOn.refl s a
      · exact HangsOn.head hp (ih ha)

/-- A walk that is long enough goes along every way up from its start. -/
theorem prefix_lineageTo {l : List NodeId} {id : NodeId}
    (hl : (id :: l).IsChain fun c p => s.parent c = some p) {fuel : Nat}
    (hf : l.length < fuel) : id :: l <+: s.lineageTo fuel id := by
  induction l generalizing id fuel with
  | nil =>
    obtain ⟨n, rfl⟩ : ∃ n, fuel = n + 1 := ⟨fuel - 1, by simp at hf; omega⟩
    simp [lineageTo]
  | cons p l ih =>
    obtain ⟨hp, hl⟩ := List.isChain_cons_cons.1 hl
    obtain ⟨n, rfl⟩ : ∃ n, fuel = n + 1 := ⟨fuel - 1, by simp at hf; omega⟩
    have hn : l.length < n := by simpa using hf
    simp only [lineageTo, hp]
    exact List.cons_prefix_cons.2 ⟨rfl, ih hl hn⟩

/-- What a node hangs on is met by a way up that passes no node twice, also where ways up go round
in a circle. -/
theorem HangsOn.exists_way {id a : NodeId} (h : s.HangsOn id a) :
    ∃ l : List NodeId, (id :: l).IsChain (fun c p => s.parent c = some p) ∧ (id :: l).Nodup ∧
      (id :: l).getLast? = some a := by
  induction h using Relation.ReflTransGen.head_induction_on with
  | refl => exact ⟨[], .singleton a, List.nodup_singleton a, rfl⟩
  | @head id p hp _ ih =>
    obtain ⟨l, hchain, hnd, hlast⟩ := ih
    by_cases hid : id ∈ p :: l
    · -- The way comes back to the node, so the round before that is left out.
      obtain ⟨before, behind, heq⟩ := List.append_of_mem hid
      rw [heq] at hchain hnd hlast
      refine ⟨behind, hchain.right_of_append, (List.nodup_append.1 hnd).2.1, ?_⟩
      rwa [List.getLast?_append_of_ne_nil _ (List.cons_ne_nil id behind)] at hlast
    · exact ⟨p :: l, .cons_cons hp hchain, List.nodup_cons.2 ⟨hid, hnd⟩, by simpa using hlast⟩

namespace IsLinked

/-- The walk up, which stops after as many nodes as the sheet has, meets all that a node hangs on,
also where the walk would go round in a circle. -/
theorem mem_lineage_iff (h : s.IsLinked) {id a : NodeId} (hid : s.Has id) :
    a ∈ s.lineage id ↔ s.HangsOn id a := by
  refine ⟨hangsOn_of_mem_lineageTo, fun ha => ?_⟩
  obtain ⟨l, hchain, hnd, hlast⟩ := ha.exists_way
  have hlen : (id :: l).length ≤ s.nodes.size := by
    refine length_le_size hnd fun x hx => ?_
    have hx' : x ∈ s.lineageTo (l.length + 1) id :=
      (prefix_lineageTo hchain (Nat.lt_succ_self _)).subset hx
    exact (hangsOn_of_mem_lineageTo hx').has h hid
  exact (prefix_lineageTo hchain hlen).subset (List.mem_of_getLast? hlast)

theorem isAttached_iff (h : s.IsLinked) {id : NodeId} (hid : s.Has id) :
    s.isAttached id = true ↔ s.HangsOn id root := by
  rw [isAttached, decide_eq_true_eq, h.mem_lineage_iff hid]

theorem isAncestorOrSelf_iff (h : s.IsLinked) {candidate id : NodeId} (hid : s.Has id) :
    s.isAncestorOrSelf candidate id = true ↔ s.HangsOn id candidate := by
  rw [isAncestorOrSelf, decide_eq_true_eq, h.mem_lineage_iff hid]

end IsLinked

namespace IsForest

/-- Numbers that grow from parent to child show that all ways up end. -/
theorem of_ranked (h : s.IsLinked) {rank : NodeId → Nat} (hr : s.Ranked rank) : s.IsForest :=
  { h with wf_parent := Subrelation.wf (fun hp => hr hp) (measure rank).wf }

/-- No node hangs on one of its children. -/
theorem not_hangsOn_child (h : s.IsForest) {c p : NodeId} (hp : s.parent c = some p) :
    ¬ s.HangsOn p c := by
  have key : ∀ c p : NodeId, s.parent c = some p → ¬ s.HangsOn p c := by
    intro c
    induction c using h.wf_parent.induction with
    | _ c ih =>
      intro p hp hpc
      -- The way from `p` back to `c` passes the parent of `p`, which closes the circle one up.
      rcases HangsOn.iff_parent.1 hpc with rfl | ⟨q, hq, hqc⟩
      · exact ih p hp p hp (HangsOn.refl s p)
      · exact ih p hp q hq (hqc.trans (HangsOn.single hp))
  exact key c p hp

theorem parent_ne (h : s.IsForest) {c p : NodeId} (hp : s.parent c = some p) : p ≠ c :=
  fun e => h.not_hangsOn_child hp (e ▸ HangsOn.refl s p)

/-- A node hangs on no sibling of its own. -/
theorem not_hangsOn_sibling (h : s.IsForest) {c d p : NodeId} (hc : s.parent c = some p)
    (hd : s.parent d = some p) (hne : c ≠ d) : ¬ s.HangsOn c d := by
  intro hcd
  rcases (HangsOn.iff_of_parent hc).1 hcd with rfl | hpd
  · exact hne rfl
  · exact h.not_hangsOn_child hd hpd

/-- What hangs on two siblings hangs on the same one twice. -/
theorem eq_of_hangsOn_siblings (h : s.IsForest) {id c d p : NodeId} (hc : s.parent c = some p)
    (hd : s.parent d = some p) (hic : s.HangsOn id c) (hid : s.HangsOn id d) : c = d := by
  by_contra hne
  rcases hic.total hid with hcd | hdc
  · exact h.not_hangsOn_sibling hc hd hne hcd
  · exact h.not_hangsOn_sibling hd hc (Ne.symm hne) hdc

/-- The way up from a node as a list that every long enough walk gives. -/
theorem exists_lineageTo_eq (h : s.IsForest) (id : NodeId) :
    ∃ l : List NodeId, l.Nodup ∧ (∀ a, a ∈ l ↔ s.HangsOn id a) ∧
      ∀ fuel, l.length ≤ fuel → s.lineageTo fuel id = l := by
  -- The induction is on the way up, which ends in a forest.
  induction id using h.wf_parent.induction with
  | _ id ih =>
    cases hp : s.parent id with
    | none =>
      refine ⟨[id], List.nodup_singleton id, ?_, ?_⟩
      · intro a
        rw [HangsOn.iff_eq_of_parent_none hp, List.mem_singleton, eq_comm]
      · intro fuel hf
        obtain ⟨n, rfl⟩ : ∃ n, fuel = n + 1 := ⟨fuel - 1, by simp at hf; omega⟩
        simp only [lineageTo, hp]
    | some p =>
      obtain ⟨l, hnd, hmem, heq⟩ := ih p hp
      have hid : id ∉ l := fun hl => h.not_hangsOn_child hp ((hmem id).1 hl)
      refine ⟨id :: l, List.nodup_cons.2 ⟨hid, hnd⟩, ?_, ?_⟩
      · intro a
        rw [HangsOn.iff_of_parent hp, List.mem_cons, hmem, eq_comm]
      · intro fuel hf
        obtain ⟨n, rfl⟩ : ∃ n, fuel = n + 1 := ⟨fuel - 1, by simp at hf; omega⟩
        have hn : l.length ≤ n := by simpa using hf
        simp only [lineageTo, hp, heq n hn]

/-- The nodes on the way up are those that a node hangs on, and each stands there once. -/
theorem lineage_eq (h : s.IsForest) {id : NodeId} (hid : s.Has id) :
    (s.lineage id).Nodup ∧ (∀ a, a ∈ s.lineage id ↔ s.HangsOn id a) ∧
      ∀ fuel, (s.lineage id).length ≤ fuel → s.lineageTo fuel id = s.lineage id := by
  obtain ⟨l, hnd, hmem, heq⟩ := h.exists_lineageTo_eq id
  have hl : s.lineage id = l :=
    heq _ (length_le_size hnd fun a ha => ((hmem a).1 ha).has h.toIsLinked hid)
  rw [hl]
  exact ⟨hnd, hmem, heq⟩

/-! ## Depths -/

theorem lineage_of_parent (h : s.IsForest) {c p : NodeId} (hp : s.parent c = some p) :
    s.lineage c = c :: s.lineage p := by
  obtain ⟨hnd, hmem, heq⟩ := h.lineage_eq (h.has_parent hp)
  -- A walk from `c` has one step less for the way from `p`, which is enough: `c` is no part of it.
  have hlt : (s.lineage p).length + 1 ≤ s.nodes.size := by
    refine length_le_size (l := c :: s.lineage p) (List.nodup_cons.2 ⟨?_, hnd⟩) ?_
    · exact fun hc => h.not_hangsOn_child hp ((hmem c).1 hc)
    · intro a ha
      rcases List.mem_cons.1 ha with rfl | ha
      · exact has_of_parent hp
      · exact ((hmem a).1 ha).has h.toIsLinked (h.has_parent hp)
  obtain ⟨n, hn⟩ : ∃ n, s.nodes.size = n + 1 := ⟨s.nodes.size - 1, by omega⟩
  have hl : s.lineageTo n p = s.lineage p := heq n (by omega)
  simp only [lineage, hn, lineageTo, hp] at hl ⊢
  rw [hl]

/-- A child stands one deeper than its parent. -/
theorem depth_of_parent (h : s.IsForest) {c p : NodeId} (hp : s.parent c = some p) :
    s.depth c = s.depth p + 1 := by
  have hpos : 0 < (s.lineage p).length :=
    List.length_pos_of_mem ((h.mem_lineage_iff (h.has_parent hp)).2 (HangsOn.refl s p))
  simp only [depth, h.lineage_of_parent hp, List.length_cons]
  omega

theorem depth_lt (h : s.IsForest) {id : NodeId} (hid : s.Has id) : s.depth id < s.nodes.size := by
  have hle : (s.lineage id).length ≤ s.nodes.size :=
    length_le_size (h.lineage_eq hid).1 fun a ha =>
      ((h.mem_lineage_iff hid).1 ha).has h.toIsLinked hid
  have hsize : id.index < s.nodes.size := hid
  simp only [depth]
  omega

theorem ranked_depth (h : s.IsForest) : s.Ranked s.depth := by
  intro c p hp
  rw [h.depth_of_parent hp]
  exact Nat.lt_succ_self _

end IsForest

end ClassRules.Sheet
