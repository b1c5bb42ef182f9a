import ClassRules.Proofs.Sheet.DocumentOrder
import ClassRules.Proofs.Sheet.Origins

/-!
# Document order and source order

The nodes of a sheet that was read come in document order from one place behind the other: from
earlier inputs before later ones, and from earlier bytes of an input before later ones.

## What this module delivers

- `Earlier`, `Sheet.StartsBefore`: one place before another, and nodes that come from such places.
- `IsForest.marks_tree`, `IsForest.marks_forest`: the marks of a tree are those of the nodes below
  the node.
- `pairwise_descendants_read`: all nodes of a sheet that was read start one behind the other.
-/

set_option autoImplicit false

namespace ClassRules

open ClassRules.Tree

/-- From an earlier input, or from an earlier byte of the same. -/
def Earlier (x y : InputId × Nat) : Prop :=
  x.1.index < y.1.index ∨ x.1.index = y.1.index ∧ x.2 < y.2

theorem Earlier.trans {x y z : InputId × Nat} (hxy : Earlier x y) (hyz : Earlier y z) :
    Earlier x z := by
  unfold Earlier at *
  omega

namespace Sheet

/-- Both nodes have a source, and that of the first one starts before that of the second. -/
def StartsBefore (s : Sheet) (a b : NodeId) : Prop :=
  ∃ x y, s.source a = some x ∧ s.source b = some y ∧ Earlier x.origin y.origin

variable {s t : Sheet}

theorem StartsBefore.trans {a b c : NodeId} (hab : s.StartsBefore a b)
    (hbc : s.StartsBefore b c) : s.StartsBefore a c := by
  obtain ⟨x, y, hx, hy, hxy⟩ := hab
  obtain ⟨y', z, hy', hz, hyz⟩ := hbc
  obtain rfl := Option.some.inj (hy.symm.trans hy')
  exact ⟨x, z, hx, hz, hxy.trans hyz⟩

/-! ## Marks of nodes -/

/-- What a node says, and where it starts. -/
def mark (s : Sheet) (id : NodeId) : Content × Option (InputId × Nat) :=
  (s.content id, (s.source id).map Source.origin)

/-- The marks of a tree are those of its node and of all below it, in document order. -/
theorem IsForest.marks_tree (h : s.IsForest) (id : NodeId) :
    marks (s.tree id) = (id :: s.descendants id).map s.mark := by
  induction id using h.children_induction with
  | step id ih =>
    have hall : ∀ cs : List NodeId, (∀ c ∈ cs, c ∈ s.children id) → marksIn (cs.map s.tree) =
        (cs.flatMap fun c => c :: s.descendants c).map s.mark := by
      intro cs hcs
      induction cs with
      | nil => rfl
      | cons c cs ihcs =>
        rw [List.map_cons, marksIn, List.flatMap_cons, List.map_append,
          ih c (hcs c List.mem_cons_self), ihcs fun d hd => hcs d (List.mem_cons_of_mem _ hd)]
    rw [h.tree_eq, marks, h.descendants_eq, List.map_cons, hall _ fun _ hc => hc]
    rfl

theorem IsSound.marks_forest (h : s.IsSound) :
    marksIn s.forest = (s.descendants root).map s.mark := by
  have hroot := h.toIsForest.marks_tree root
  rw [h.tree_eq, marks, List.map_cons] at hroot
  exact (List.cons.inj hroot).2

/-! ## Reading -/

/-- Marks in order: the nodes come from the first `n` inputs, one behind the other. -/
structure InOrder (n : Nat) (marks : List (Content × Option (InputId × Nat))) : Prop where
  exists_origin : ∀ m ∈ marks, ∃ x, m.2 = some x ∧ x.1.index < n
  pairwise : marks.Pairwise fun m m' => ∀ x y, m.2 = some x → m'.2 = some y → Earlier x y

/-- A text continues marks in order. -/
theorem InOrder.append_parse {n : Nat} {marks : List (Content × Option (InputId × Nat))}
    (h : InOrder n marks) (text : String) :
    InOrder (n + 1) (marks ++ marksIn (parse ⟨n⟩ text).nodes) := by
  obtain ⟨read, -, hpair, hread⟩ := parse_marks ⟨n⟩ text
  rw [hread]
  have hnew : ∀ m ∈ read.map fun x => (x.1, some ((⟨n⟩ : InputId), x.2)), ∃ x,
      m.2 = some x ∧ x.1.index = n := by
    intro m hm
    obtain ⟨x, -, rfl⟩ := List.mem_map.1 hm
    exact ⟨_, rfl, rfl⟩
  constructor
  case exists_origin =>
    intro m hm
    rcases List.mem_append.1 hm with hm | hm
    · obtain ⟨x, hx, hlt⟩ := h.exists_origin m hm
      exact ⟨x, hx, by omega⟩
    · obtain ⟨x, hx, heq⟩ := hnew m hm
      exact ⟨x, hx, by omega⟩
  case pairwise =>
    refine List.pairwise_append.2 ⟨h.pairwise, ?_, ?_⟩
    · -- Within a text, the bytes grow.
      rw [List.pairwise_map] at hpair ⊢
      refine hpair.imp ?_
      intro x y hlt u v hu hv
      obtain rfl := Option.some.inj hu
      obtain rfl := Option.some.inj hv
      exact .inr ⟨rfl, hlt⟩
    · -- The inputs before were earlier.
      intro m hm m' hm' x y hx hy
      obtain ⟨x', hx', hlt⟩ := h.exists_origin m hm
      obtain ⟨y', hy', heq⟩ := hnew m' hm'
      obtain rfl := Option.some.inj (hx.symm.trans hx')
      obtain rfl := Option.some.inj (hy.symm.trans hy')
      exact .inl (by omega)

theorem inOrder_read (texts : List (Input × String)) :
    InOrder (read texts).inputs.size (marksIn (read texts).forest) := by
  unfold read
  generalize hs : empty = s
  have horder : InOrder s.inputs.size (marksIn s.forest) := by
    subst hs
    exact ⟨fun m hm => absurd hm List.not_mem_nil, List.Pairwise.nil⟩
  have hsound : s.IsSound := hs ▸ isSound_empty
  have hwhole : s.IsWhole := hs ▸ isWhole_empty
  clear hs
  induction texts generalizing s with
  | nil => exact horder
  | cons text texts ih =>
    obtain ⟨hsound', hwhole'⟩ := addText_sound hsound hwhole text.1 text.2
    refine ih _ ?_ hsound' hwhole'
    have hsize : (s.addText text.1 text.2).2.inputs.size = s.inputs.size + 1 :=
      Array.size_push text.1
    rw [hsize, hsound.forest_addText, marksIn_append]
    exact horder.append_parse text.2

/-- All nodes of a sheet that was read start one behind the other, in document order. -/
theorem pairwise_descendants_read (texts : List (Input × String)) :
    ((read texts).descendants root).Pairwise (read texts).StartsBefore := by
  have hs := isSound_read texts
  have horder := inOrder_read texts
  generalize read texts = s at hs horder
  rw [hs.marks_forest] at horder
  have hsource : ∀ id ∈ s.descendants root, ∃ x, s.source id = some x := by
    intro id hid
    obtain ⟨x, hx, -⟩ := horder.exists_origin _ (List.mem_map_of_mem hid)
    obtain ⟨source, hsource, -⟩ := Option.map_eq_some_iff.1 hx
    exact ⟨source, hsource⟩
  refine (List.pairwise_map.1 horder.pairwise).imp_of_mem ?_
  intro a b ha hb hab
  obtain ⟨x, hx⟩ := hsource a ha
  obtain ⟨y, hy⟩ := hsource b hb
  refine ⟨x, y, hx, hy, hab _ _ ?_ ?_⟩
  · exact congrArg (Option.map Source.origin) hx
  · exact congrArg (Option.map Source.origin) hy

end Sheet

end ClassRules
