import ClassRules.Proofs.Sheet.Trees

/-!
# Ways up and down in order

## What this module delivers

- `IsForest.antisymm`, `IsForest.pairwise_lineage`: on the way up from a node, each node hangs on
  all that come behind it.
- `IsForest.pairwise_descendants`: among the nodes below a node, none hangs on one that comes behind
  it.
- `IsForest.exists_descendants_eq`: the nodes below a node stand together.
- `Sheet.position`: where a node stands in the text. `IsForest.hangsOn_iff_position`: what hangs on
  a node stands in a row, right behind it.
- `IsForest.descendants_map`, `IsForest.hangsOn_map_iff`: two sheets whose children correspond have
  the same order of nodes, and the same nodes above each other.
-/

set_option autoImplicit false

namespace ClassRules.Sheet

variable {s t : Sheet}

namespace IsForest

/-- No two nodes hang on each other. -/
theorem antisymm (h : s.IsForest) {a b : NodeId} (hab : s.HangsOn a b) (hba : s.HangsOn b a) :
    a = b := by
  by_contra hne
  have hlt := hab.rank_lt h.ranked_depth hne
  have hle := hba.rank_le h.ranked_depth
  omega

/-- On the way up from a node, each node hangs on those behind it. -/
theorem pairwise_lineage (h : s.IsForest) (id : NodeId) :
    (s.lineage id).Pairwise s.HangsOn := by
  induction id using h.wf_parent.induction with
  | _ id ih =>
    cases hp : s.parent id with
    | none =>
      have hle : ∀ fuel, (s.lineageTo fuel id).Pairwise s.HangsOn := by
        intro fuel
        cases fuel with
        | zero => exact .nil
        | succ fuel => simp [lineageTo, hp]
      exact hle _
    | some p =>
      rw [h.lineage_of_parent hp]
      refine .cons ?_ (ih p hp)
      intro a ha
      exact .head hp ((h.mem_lineage_iff (h.has_parent hp)).1 ha)

/-- A node comes before all that hangs on it. -/
theorem pairwise_descendants (h : s.IsForest) (id : NodeId) :
    (s.descendants id).Pairwise fun a b => ¬ s.HangsOn a b := by
  induction id using h.children_induction with
  | step id ih =>
    have hbelow : ∀ {c x}, x ∈ c :: s.descendants c → s.HangsOn x c := by
      intro c x hx
      rcases List.mem_cons.1 hx with rfl | hx
      · exact .refl s x
      · exact (h.mem_descendants_iff.1 hx).2
    rw [h.descendants_eq, List.pairwise_flatMap]
    refine ⟨?_, ?_⟩
    · intro c hc
      refine .cons ?_ (ih c hc)
      intro x hx hon
      obtain ⟨hne, hon'⟩ := h.mem_descendants_iff.1 hx
      exact hne (h.antisymm hon' hon)
    · -- What hangs on one child of a node hangs on no other.
      refine (h.nodup_children id).imp_of_mem ?_
      intro c d hc hd hne x hx y hy hon
      exact hne (h.eq_of_hangsOn_siblings (h.mem_children_iff.1 hc) (h.mem_children_iff.1 hd)
        (hbelow hx) (hon.trans (hbelow hy)))

/-- Below another node, a node stands right before all that stands below itself. -/
theorem exists_descendants_eq (h : s.IsForest) {id x : NodeId} (hx : x ∈ s.descendants id) :
    ∃ front back, s.descendants id = front ++ x :: s.descendants x ++ back := by
  induction id using h.children_induction with
  | step id ih =>
    rw [h.descendants_eq id] at hx ⊢
    obtain ⟨c, hc, hxc⟩ := List.mem_flatMap.1 hx
    obtain ⟨before, behind, hchildren⟩ := List.append_of_mem hc
    rw [hchildren, List.flatMap_append, List.flatMap_cons]
    rcases List.mem_cons.1 hxc with rfl | hxc
    · exact ⟨_, _, by rw [List.append_assoc]⟩
    · obtain ⟨front, back, heq⟩ := ih c hc hxc
      refine ⟨before.flatMap (fun c => c :: s.descendants c) ++ c :: front,
        back ++ behind.flatMap fun c => c :: s.descendants c, ?_⟩
      rw [heq]
      simp only [List.append_assoc, List.cons_append]

end IsForest

/-! ## Positions -/

/-- How many nodes of the text stand before a node of it. -/
def position (s : Sheet) (id : NodeId) : Nat :=
  s.attachedNodes.idxOf id

theorem position_inj (h : s.IsForest) {a b : NodeId} (ha : s.HangsOn a root)
    (heq : s.position a = s.position b) : a = b :=
  (List.idxOf_inj ((mem_attachedNodes_iff h).2 ha)).1 heq

/-- The nodes of the text stand in the order of their positions. -/
theorem pairwise_attachedNodes (h : s.IsForest) :
    s.attachedNodes.Pairwise fun a b => s.position a < s.position b := by
  rw [List.pairwise_iff_getElem]
  intro i j hi hj hij
  rw [position, position, (nodup_attachedNodes h).idxOf_getElem i hi,
    (nodup_attachedNodes h).idxOf_getElem j hj]
  exact hij

namespace IsForest

/-- What hangs on a node stands in the text right behind it, in a row. -/
theorem hangsOn_iff_position (h : s.IsForest) {a x : NodeId} (ha : s.HangsOn a root)
    (hx : s.HangsOn x root) : s.HangsOn x a ↔
      s.position a ≤ s.position x ∧ s.position x ≤ s.position a + (s.descendants a).length := by
  -- A node and what hangs on it are one part of the list of all nodes of the text.
  obtain ⟨front, back, heq⟩ : ∃ front back,
      s.attachedNodes = front ++ (a :: s.descendants a) ++ back := by
    by_cases hroot : a = root
    · exact ⟨[], [], by rw [hroot, List.append_nil]; rfl⟩
    · obtain ⟨front, back, heq⟩ := h.exists_descendants_eq (h.mem_descendants_iff.2 ⟨hroot, ha⟩)
      exact ⟨root :: front, back, by rw [attachedNodes, heq]; rfl⟩
  have hmem : s.HangsOn x a ↔ x ∈ a :: s.descendants a := by
    rw [List.mem_cons, h.mem_descendants_iff]
    by_cases hxa : x = a
    · simp [hxa, HangsOn.refl]
    · simp [hxa]
  have hnd := nodup_attachedNodes h
  rw [heq, List.append_assoc] at hnd
  have hfront : ∀ y ∈ a :: s.descendants a, y ∉ front := fun y hy hmem =>
    (List.nodup_append.1 hnd).2.2 y hmem y (List.mem_append_left _ hy) rfl
  have hposition : ∀ y ∈ a :: s.descendants a,
      s.position y = front.length + (a :: s.descendants a).idxOf y := by
    intro y hy
    rw [position, heq, List.append_assoc, List.idxOf_append_of_notMem (hfront y hy),
      List.idxOf_append_of_mem hy]
  have hself : s.position a = front.length := by
    rw [hposition a List.mem_cons_self, List.idxOf_cons_self, Nat.add_zero]
  rw [hmem, hself]
  constructor
  · intro hin
    have hlt := List.idxOf_lt_length_of_mem hin
    rw [List.length_cons] at hlt
    rw [hposition x hin]
    omega
  · rintro ⟨hle, hlast⟩
    have hlt : s.position x < s.attachedNodes.length :=
      List.idxOf_lt_length_of_mem ((mem_attachedNodes_iff h).2 hx)
    have hget : s.attachedNodes[s.position x] = x := List.getElem_idxOf hlt
    have hin : s.position x - front.length < (a :: s.descendants a).length := by
      rw [List.length_cons]
      omega
    simp only [heq, List.append_assoc] at hget
    rw [List.getElem_append_right hle, List.getElem_append_left hin] at hget
    exact hget ▸ List.getElem_mem hin

theorem position_lt (h : s.IsForest) {a x : NodeId} (ha : s.HangsOn a root) (hxa : s.HangsOn x a)
    (hne : x ≠ a) : s.position a < s.position x := by
  have hle := ((h.hangsOn_iff_position ha (hxa.trans ha)).1 hxa).1
  have hdiff : s.position a ≠ s.position x := fun e => hne (position_inj h ha e).symm
  omega

/-- What stands between a node and another that hangs on it hangs on it as well. -/
theorem hangsOn_of_between (h : s.IsForest) {a x y : NodeId} (ha : s.HangsOn a root)
    (hx : s.HangsOn x root) (hya : s.HangsOn y a) (hax : s.position a ≤ s.position x)
    (hxy : s.position x ≤ s.position y) : s.HangsOn x a := by
  have hy := ((h.hangsOn_iff_position ha (hya.trans ha)).1 hya).2
  exact (h.hangsOn_iff_position ha hx).2 ⟨hax, by omega⟩

section Map

variable (hs : s.IsForest) (ht : t.IsForest) {f : NodeId → NodeId}
  (h : ∀ x, s.Has x → t.children (f x) = (s.children x).map f)

include hs ht h

/-- If the children of nodes correspond, so does what stands below them, in the same order. -/
theorem descendants_map {a : NodeId} (ha : s.Has a) :
    t.descendants (f a) = (s.descendants a).map f := by
  induction a using hs.children_induction with
  | step a ih =>
    rw [ht.descendants_eq, hs.descendants_eq, h a ha, List.flatMap_map, List.map_flatMap]
    apply List.flatMap_congr
    intro c hc
    rw [ih c hc (has_of_parent (hs.mem_children_iff.1 hc)), List.map_cons]

/-- If moreover different nodes correspond to different ones, these hang on each other as those
do. -/
theorem hangsOn_map_iff (hinj : ∀ x y, s.Has x → s.Has y → f x = f y → x = y) {a b : NodeId}
    (ha : s.Has a) (hb : s.Has b) : t.HangsOn (f a) (f b) ↔ s.HangsOn a b := by
  by_cases hab : a = b
  · rw [hab]
    exact iff_of_true (.refl t _) (.refl s b)
  · have hne : f a ≠ f b := fun e => hab (hinj a b ha hb e)
    have hbelow : f a ∈ t.descendants (f b) ↔ a ∈ s.descendants b := by
      rw [descendants_map hs ht h hb, List.mem_map]
      refine ⟨?_, fun hmem => ⟨a, hmem, rfl⟩⟩
      rintro ⟨x, hx, hxa⟩
      obtain ⟨hxb, hon⟩ := hs.mem_descendants_iff.1 hx
      obtain ⟨p, hp, -⟩ := (HangsOn.iff_parent.1 hon).resolve_left hxb
      exact hinj x a (has_of_parent hp) ha hxa ▸ hx
    rw [ht.mem_descendants_iff, hs.mem_descendants_iff] at hbelow
    simpa [hne, hab] using hbelow

end Map

end IsForest

end ClassRules.Sheet
