import ClassRules.Proofs.Sheet.Move

/-!
# Children after several moves

## What this module delivers

- `children_moveAll_append`: nodes that move one after the other to the end of the children of a
  node stand there in their order.
- `children_moveAll_placeAfter`: nodes that move one after the other behind the same node stand
  there in the opposite order.
-/

set_option autoImplicit false

namespace ClassRules.Sheet

variable {s : Sheet}

theorem filter_ne_filter_notMem (id : NodeId) (ids l : List NodeId) :
    (l.filter (· ≠ id)).filter (· ∉ ids) = l.filter (· ∉ id :: ids) := by
  rw [List.filter_filter]
  apply List.filter_congr
  intro c _
  simp [List.mem_cons, Bool.and_comm]

theorem filter_notMem_eq_self {ids l : List NodeId} (h : ∀ id ∈ ids, id ∉ l) :
    l.filter (· ∉ ids) = l := by
  apply List.filter_eq_self.2
  intro c hc
  exact decide_eq_true fun hmem => h c hmem hc

/-- Nodes that move to the end of the children of a node stand there in their order. -/
theorem children_moveAll_append (h : s.IsLinked) {parent : NodeId} (hp : s.Has parent)
    (ids : List NodeId) (hids : ∀ id ∈ ids, s.Has id) (hnd : ids.Nodup) (q : NodeId) :
    (s.moveAll parent (fun id => (· ++ [id])) ids).children q =
      if q = parent then (s.children q).filter (· ∉ ids) ++ ids
      else (s.children q).filter (· ∉ ids) := by
  induction ids generalizing s with
  | nil => simp [moveAll]
  | cons id ids ih =>
    obtain ⟨hid, hnd⟩ := List.nodup_cons.1 hnd
    have hhas := hids id List.mem_cons_self
    have hrest := ih (s := s.move parent id (· ++ [id])) (h.move hp hhas (adds_append id))
      (by simpa using hp) (fun d hd => by simpa using hids d (List.mem_cons_of_mem _ hd)) hnd
    refine hrest.trans ?_
    rw [children_move h hp]
    by_cases hq : q = parent
    · have hkept : [id].filter (· ∉ ids) = [id] := by simp [hid]
      rw [if_pos hq, if_pos hq, if_pos hq, List.filter_append, filter_ne_filter_notMem, hkept,
        List.append_assoc, List.singleton_append]
    · rw [if_neg hq, if_neg hq, if_neg hq, filter_ne_filter_notMem]

/-- Nodes that move behind the same node stand there in the opposite order. -/
theorem children_moveAll_placeAfter (h : s.IsLinked) {container anchor : NodeId}
    (hc : s.Has container) {front back : List NodeId} (ids : List NodeId)
    (hcont : s.children container = front ++ anchor :: back) (hids : ∀ id ∈ ids, s.Has id)
    (hnd : ids.Nodup) (hout : ∀ id ∈ ids, id ∉ s.children container) (q : NodeId) :
    (s.moveAll container (placeAfter anchor) ids).children q =
      if q = container then front ++ anchor :: (ids.reverse ++ back)
      else (s.children q).filter (· ∉ ids) := by
  induction ids generalizing s back with
  | nil =>
    by_cases hq : q = container
    · subst hq
      simp [moveAll, hcont]
    · simp [moveAll, hq]
  | cons id ids ih =>
    obtain ⟨hid, hnd⟩ := List.nodup_cons.1 hnd
    have hhas := hids id List.mem_cons_self
    -- The node comes to stand right behind the anchor, in front of those that moved before it.
    have hplaced : (s.move container id (placeAfter anchor id)).children container =
        front ++ anchor :: (id :: back) := by
      have happend : front ++ anchor :: back = (front ++ [anchor]) ++ back := by simp
      have hnodup := h.nodup_children container
      rw [hcont, happend] at hnodup
      rw [children_move_self h hc (hout id List.mem_cons_self), hcont, happend,
        placeAfter_append id (by simp) hnodup]
      simp
    have hout' : ∀ d ∈ ids,
        d ∉ (s.move container id (placeAfter anchor id)).children container := by
      intro d hd hmem
      have hne : d ≠ id := fun e => hid (e ▸ hd)
      have hold := hout d (List.mem_cons_of_mem _ hd)
      rw [hcont] at hold
      rw [hplaced] at hmem
      simp only [List.mem_append, List.mem_cons] at hmem hold
      rcases hmem with hfront | hanchor | hself | hback
      · exact hold (.inl hfront)
      · exact hold (.inr (.inl hanchor))
      · exact hne hself
      · exact hold (.inr (.inr hback))
    have hrest := ih (s := s.move container id (placeAfter anchor id))
      (h.move hc hhas (adds_placeAfter anchor id)) (by simpa using hc) hplaced
      (fun d hd => by simpa using hids d (List.mem_cons_of_mem _ hd)) hnd hout'
    refine hrest.trans ?_
    by_cases hq : q = container
    · rw [if_pos hq, if_pos hq]
      simp
    · rw [if_neg hq, if_neg hq, children_move h hc, if_neg hq, filter_ne_filter_notMem]

end ClassRules.Sheet
