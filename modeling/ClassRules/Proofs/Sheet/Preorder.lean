import ClassRules.Proofs.Sheet.Forest

/-!
# The nodes below a node

In a forest the walk through a sheet meets each node below the one that it starts from, once.

## What this module delivers

- `Walks`: what a walk over siblings meets, for any fuel that is enough. `exists_walk`: it meets
  each node that hangs on them, once.
- `IsForest.descendants_eq`: what is below a node, from what is below its children.
- `IsForest.mem_descendants_iff`, `IsForest.nodup_descendants`.
- `attachedNodes`, `mem_attachedNodes_iff`, `attachedCount_eq`: the nodes of the text as a list.
-/

set_option autoImplicit false

namespace ClassRules.Sheet

variable {s : Sheet}

/-- What hangs on a node is that node or hangs on one of its children. -/
theorem HangsOn.iff_children (h : s.IsLinked) {id a : NodeId} :
    s.HangsOn id a ↔ id = a ∨ ∃ c ∈ s.children a, s.HangsOn id c := by
  constructor
  · intro ha
    rcases Relation.ReflTransGen.cases_tail ha with rfl | ⟨c, hc, hp⟩
    · exact .inl rfl
    · exact .inr ⟨c, h.mem_children_iff.2 hp, hc⟩
  · rintro (rfl | ⟨c, hc, hic⟩)
    · exact .refl s id
    · exact hic.trans (.single (h.mem_children_iff.1 hc))

/-- With fuel for all of `l`, a walk over the siblings `cs` meets `l`, which is what hangs on them,
and goes on with the rest of the stack. -/
structure Walks (s : Sheet) (cs l : List NodeId) : Prop where
  nodup : l.Nodup
  mem_iff : ∀ x, x ∈ l ↔ ∃ c ∈ cs, s.HangsOn x c
  walk_eq : ∀ (fuel : Nat) (stack : List NodeId), l.length ≤ fuel →
    s.walkStack fuel (cs ++ stack) = l ++ s.walkStack (fuel - l.length) stack

theorem Walks.nil (s : Sheet) : s.Walks [] [] := by
  constructor <;> simp

/-- With enough fuel for two lists, the walk gives both of them. -/
theorem Walks.unique {cs l l' : List NodeId} (h : s.Walks cs l) (h' : s.Walks cs l') : l = l' := by
  have hw := h.walk_eq (l.length + l'.length) [] (by omega)
  rw [h'.walk_eq (l.length + l'.length) [] (by omega)] at hw
  simpa [walkStack] using hw.symm

/-- A node is met first, then what hangs on its children, then what hangs on its siblings. -/
theorem Walks.cons (h : s.IsForest) {p c : NodeId} {cs inside rest : List NodeId}
    (hp : ∀ d ∈ c :: cs, s.parent d = some p) (hnd : (c :: cs).Nodup)
    (hin : s.Walks (s.children c) inside) (hrest : s.Walks cs rest) :
    s.Walks (c :: cs) (c :: inside ++ rest) := by
  have hbelow : ∀ x, x ∈ c :: inside ↔ s.HangsOn x c := by
    intro x
    rw [List.mem_cons, hin.mem_iff, HangsOn.iff_children h.toIsLinked]
  have hself : c ∉ inside := by
    intro hmem
    obtain ⟨d, hd, hcd⟩ := (hin.mem_iff c).1 hmem
    exact h.not_hangsOn_child (h.mem_children_iff.1 hd) hcd
  constructor
  case nodup =>
    refine List.nodup_append.2 ⟨List.nodup_cons.2 ⟨hself, hin.nodup⟩, hrest.nodup, ?_⟩
    rintro x hx y hy rfl
    -- A node that is met twice would hang on two siblings.
    obtain ⟨d, hd, hxd⟩ := (hrest.mem_iff x).1 hy
    have hcd : c = d := h.eq_of_hangsOn_siblings (hp c List.mem_cons_self)
      (hp d (List.mem_cons_of_mem _ hd)) ((hbelow x).1 hx) hxd
    exact (List.nodup_cons.1 hnd).1 (hcd ▸ hd)
  case mem_iff =>
    intro x
    rw [List.mem_append, hbelow, hrest.mem_iff]
    simp
  case walk_eq =>
    intro fuel stack hfuel
    simp only [List.cons_append, List.length_cons, List.length_append] at hfuel ⊢
    obtain ⟨m, rfl⟩ : ∃ m, fuel = m + 1 := ⟨fuel - 1, by omega⟩
    rw [walkStack, hin.walk_eq m _ (by omega), hrest.walk_eq _ stack (by omega)]
    have hsub : m + 1 - (inside.length + rest.length + 1) =
        m - inside.length - rest.length := by omega
    rw [hsub, List.append_assoc]

/-- There is such a walk over any siblings. The outer induction is on how much deeper a node can
stand than they do, the inner one on the siblings. -/
theorem exists_walk (h : s.IsForest) {p : NodeId} (n : Nat) (cs : List NodeId)
    (hp : ∀ c ∈ cs, s.parent c = some p) (hn : cs ≠ [] → s.nodes.size ≤ n + s.depth p + 1)
    (hnd : cs.Nodup) : ∃ l, s.Walks cs l := by
  induction n generalizing p cs with
  | zero =>
    cases cs with
    | nil => exact ⟨[], .nil s⟩
    | cons c cs =>
      have hpc := hp c List.mem_cons_self
      have hlt := h.depth_lt (has_of_parent hpc)
      have hle := hn (List.cons_ne_nil c cs)
      rw [h.depth_of_parent hpc] at hlt
      omega
  | succ n ihn =>
    induction cs with
    | nil => exact ⟨[], .nil s⟩
    | cons c cs ihcs =>
      have hle := hn (List.cons_ne_nil c cs)
      have hdepth := h.depth_of_parent (hp c List.mem_cons_self)
      obtain ⟨rest, hrest⟩ := ihcs (fun d hd => hp d (List.mem_cons_of_mem _ hd)) (fun _ => hle)
        (List.nodup_cons.1 hnd).2
      obtain ⟨inside, hin⟩ := ihn (p := c) (s.children c) (fun d hd => h.mem_children_iff.1 hd)
        (fun _ => by omega) (h.nodup_children c)
      exact ⟨c :: inside ++ rest, .cons h hp hnd hin hrest⟩

namespace IsForest

/-- The walk over the children of a node meets the nodes below it. -/
theorem walks_descendants (h : s.IsForest) (id : NodeId) :
    s.Walks (s.children id) (s.descendants id) := by
  obtain ⟨l, hl⟩ := exists_walk h s.nodes.size (s.children id)
    (fun c hc => h.mem_children_iff.1 hc) (fun _ => by omega) (h.nodup_children id)
  have hle : l.length ≤ s.nodes.size := by
    apply length_le_size hl.nodup
    intro x hx
    obtain ⟨c, hc, hxc⟩ := (hl.mem_iff x).1 hx
    rcases HangsOn.iff_parent.1 hxc with rfl | ⟨q, hq, -⟩
    · exact has_of_parent (h.mem_children_iff.1 hc)
    · exact has_of_parent hq
  have heq : s.descendants id = l := by
    have hw := hl.walk_eq s.nodes.size [] hle
    rw [List.append_nil] at hw
    rw [descendants, hw]
    simp [walkStack]
  rwa [heq]

/-- The nodes below a node are its children, each with the nodes below it right behind. -/
theorem descendants_eq (h : s.IsForest) (id : NodeId) :
    s.descendants id = (s.children id).flatMap fun c => c :: s.descendants c := by
  have hwalks : ∀ cs : List NodeId, (∀ c ∈ cs, s.parent c = some id) → cs.Nodup →
      s.Walks cs (cs.flatMap fun c => c :: s.descendants c) := by
    intro cs hp hnd
    induction cs with
    | nil => exact .nil s
    | cons c cs ih =>
      have hrest := ih (fun d hd => hp d (List.mem_cons_of_mem _ hd)) (List.nodup_cons.1 hnd).2
      exact .cons h hp hnd (h.walks_descendants c) hrest
  exact (h.walks_descendants id).unique
    (hwalks _ (fun c hc => h.mem_children_iff.1 hc) (h.nodup_children id))

theorem nodup_descendants (h : s.IsForest) (id : NodeId) : (s.descendants id).Nodup :=
  (h.walks_descendants id).nodup

theorem mem_descendants_iff (h : s.IsForest) {id x : NodeId} :
    x ∈ s.descendants id ↔ x ≠ id ∧ s.HangsOn x id := by
  rw [(h.walks_descendants id).mem_iff, HangsOn.iff_children h.toIsLinked]
  constructor
  · rintro ⟨c, hc, hxc⟩
    refine ⟨?_, .inr ⟨c, hc, hxc⟩⟩
    rintro rfl
    exact h.not_hangsOn_child (h.mem_children_iff.1 hc) hxc
  · rintro ⟨hne, heq | hx⟩
    · exact absurd heq hne
    · exact hx

end IsForest

/-! ## The nodes of the text -/

/-- The nodes that hang on the root, itself first. -/
def attachedNodes (s : Sheet) : List NodeId :=
  root :: s.descendants root

theorem attachedCount_eq (s : Sheet) : s.attachedCount = s.attachedNodes.length :=
  rfl

theorem nodup_attachedNodes (h : s.IsForest) : s.attachedNodes.Nodup :=
  List.nodup_cons.2 ⟨fun hr => (h.mem_descendants_iff.1 hr).1 rfl, h.nodup_descendants root⟩

theorem mem_attachedNodes_iff (h : s.IsForest) {id : NodeId} :
    id ∈ s.attachedNodes ↔ s.HangsOn id root := by
  rw [attachedNodes, List.mem_cons, h.mem_descendants_iff]
  constructor
  · rintro (rfl | ⟨-, hid⟩)
    · exact .refl s root
    · exact hid
  · intro hid
    by_cases heq : id = root
    · exact .inl heq
    · exact .inr ⟨heq, hid⟩

end ClassRules.Sheet
