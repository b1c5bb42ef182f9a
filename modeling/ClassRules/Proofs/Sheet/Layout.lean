import ClassRules.Proofs.Sheet.Move
import ClassRules.Proofs.Tree.Everywhere

/-!
# Trees laid out in a sheet

## What this module delivers

- `Laid`: the links within a list of nodes that is to stand at the end of a sheet. Lists made for
  trees have them, by induction on the trees.
- `IsForest.addForest`: a forest stays one when trees are added.
- `carries_layOutAll`: nodes made for trees carry children only if the trees do.
-/

set_option autoImplicit false

namespace ClassRules.Sheet

open ClassRules.Tree

/-- The links of `nodes`, which are numbered from `next` on. Those in `top` hang on `parent`, and
the others on nodes of the list that come before them. -/
structure Laid (parent : NodeId) (next : Nat) (top : List NodeId) (nodes : List Node) : Prop where
  parent_cases : ∀ (i : Nat) (n : Node), nodes[i]? = some n →
    (n.parent = some parent ∧ ⟨next + i⟩ ∈ top) ∨
      ∃ j m, j < i ∧ nodes[j]? = some m ∧ n.parent = some ⟨next + j⟩ ∧ ⟨next + i⟩ ∈ m.children
  nodup_children : ∀ n ∈ nodes, n.children.Nodup
  of_mem_children : ∀ (j : Nat) (m : Node), nodes[j]? = some m → ∀ c ∈ m.children,
    ∃ i n, c = ⟨next + i⟩ ∧ nodes[i]? = some n ∧ n.parent = some ⟨next + j⟩
  nodup_top : top.Nodup
  of_mem_top : ∀ c ∈ top, ∃ i n, c = ⟨next + i⟩ ∧ nodes[i]? = some n ∧ n.parent = some parent

namespace Laid

variable {parent : NodeId} {next : Nat} {top top₁ top₂ : List NodeId}
  {nodes nodes₁ nodes₂ : List Node}

theorem nil (parent : NodeId) (next : Nat) : Laid parent next [] [] := by
  constructor <;> simp

/-- A node on top of those laid out for its children. -/
theorem node (content : Content) (source : Option Source)
    (h : Laid ⟨next⟩ (next + 1) top nodes) :
    Laid parent next [⟨next⟩] (⟨content, source, some parent, top⟩ :: nodes) := by
  -- The node comes first, so the places of all others are one further in the list.
  have hshift : ∀ i, next + 1 + i = next + (i + 1) := fun i => by omega
  constructor
  case parent_cases =>
    intro i n hi
    cases i with
    | zero =>
      cases hi
      exact .inl ⟨rfl, List.mem_cons_self⟩
    | succ i =>
      rcases h.parent_cases i n hi with ⟨hp, hmem⟩ | ⟨j, m, hj, hm, hp, hmem⟩
      · exact .inr ⟨0, _, Nat.succ_pos i, rfl, hp, hshift i ▸ hmem⟩
      · exact .inr ⟨j + 1, m, Nat.succ_lt_succ hj, hm, hshift j ▸ hp, hshift i ▸ hmem⟩
  case nodup_children =>
    intro n hn
    rcases List.mem_cons.1 hn with rfl | hn
    · exact h.nodup_top
    · exact h.nodup_children n hn
  case of_mem_children =>
    intro j m hj c hc
    cases j with
    | zero =>
      cases hj
      obtain ⟨i, n, rfl, hn, hp⟩ := h.of_mem_top c hc
      exact ⟨i + 1, n, by rw [hshift], hn, hp⟩
    | succ j =>
      obtain ⟨i, n, rfl, hn, hp⟩ := h.of_mem_children j m hj c hc
      exact ⟨i + 1, n, by rw [hshift], hn, hshift j ▸ hp⟩
  case nodup_top =>
    exact List.nodup_singleton _
  case of_mem_top =>
    intro c hc
    rw [List.mem_singleton] at hc
    exact ⟨0, _, hc, rfl, rfl⟩

/-- A node in two lists one behind the other is in one of them. -/
theorem getElem?_append_cases {i : Nat} {n : Node} (h : (nodes₁ ++ nodes₂)[i]? = some n) :
    nodes₁[i]? = some n ∨ ∃ k, i = nodes₁.length + k ∧ nodes₂[k]? = some n := by
  by_cases hlt : i < nodes₁.length
  · rw [List.getElem?_append_left hlt] at h
    exact .inl h
  · obtain ⟨k, rfl⟩ := Nat.exists_eq_add_of_le (Nat.le_of_not_lt hlt)
    rw [List.getElem?_append_right (by omega), Nat.add_sub_cancel_left] at h
    exact .inr ⟨k, rfl, h⟩

/-- A node of the first list keeps its number. -/
theorem getElem?_append_of_left {i : Nat} {n : Node} (h : nodes₁[i]? = some n) :
    (nodes₁ ++ nodes₂)[i]? = some n := by
  rw [List.getElem?_append_left (List.getElem?_eq_some_iff.1 h).1, h]

/-- Those of the second list come behind all of the first. -/
theorem getElem?_append_of_right {k : Nat} {n : Node} (h : nodes₂[k]? = some n) :
    (nodes₁ ++ nodes₂)[nodes₁.length + k]? = some n := by
  rw [List.getElem?_append_right (by omega), Nat.add_sub_cancel_left, h]

/-- Nodes laid out one behind the other under the same parent. -/
theorem append (h₁ : Laid parent next top₁ nodes₁)
    (h₂ : Laid parent (next + nodes₁.length) top₂ nodes₂) :
    Laid parent next (top₁ ++ top₂) (nodes₁ ++ nodes₂) := by
  have hshift : ∀ k, next + nodes₁.length + k = next + (nodes₁.length + k) := Nat.add_assoc _ _
  constructor
  case parent_cases =>
    intro i n hi
    rcases getElem?_append_cases hi with hi | ⟨k, rfl, hk⟩
    · rcases h₁.parent_cases i n hi with ⟨hp, hmem⟩ | ⟨j, m, hj, hm, hp, hmem⟩
      · exact .inl ⟨hp, List.mem_append_left _ hmem⟩
      · exact .inr ⟨j, m, hj, getElem?_append_of_left hm, hp, hmem⟩
    · rcases h₂.parent_cases k n hk with ⟨hp, hmem⟩ | ⟨j, m, hj, hm, hp, hmem⟩
      · exact .inl ⟨hp, List.mem_append_right _ (hshift k ▸ hmem)⟩
      · exact .inr ⟨nodes₁.length + j, m, Nat.add_lt_add_left hj _, getElem?_append_of_right hm,
          hshift j ▸ hp, hshift k ▸ hmem⟩
  case nodup_children =>
    intro n hn
    rcases List.mem_append.1 hn with hn | hn
    · exact h₁.nodup_children n hn
    · exact h₂.nodup_children n hn
  case of_mem_children =>
    intro j m hj c hc
    rcases getElem?_append_cases hj with hj | ⟨k, rfl, hk⟩
    · obtain ⟨i, n, rfl, hn, hp⟩ := h₁.of_mem_children j m hj c hc
      exact ⟨i, n, rfl, getElem?_append_of_left hn, hp⟩
    · obtain ⟨i, n, rfl, hn, hp⟩ := h₂.of_mem_children k m hk c hc
      exact ⟨nodes₁.length + i, n, by rw [hshift], getElem?_append_of_right hn, hshift k ▸ hp⟩
  case nodup_top =>
    refine List.nodup_append.2 ⟨h₁.nodup_top, h₂.nodup_top, ?_⟩
    rintro a ha b hb rfl
    obtain ⟨i, n, rfl, hn, -⟩ := h₁.of_mem_top a ha
    obtain ⟨k, -, heq, -, -⟩ := h₂.of_mem_top _ hb
    have hlt := (List.getElem?_eq_some_iff.1 hn).1
    -- The second list is numbered behind the first.
    have hidx := congrArg NodeId.index heq
    simp only at hidx
    omega
  case of_mem_top =>
    intro c hc
    rcases List.mem_append.1 hc with hc | hc
    · obtain ⟨i, n, rfl, hn, hp⟩ := h₁.of_mem_top c hc
      exact ⟨i, n, rfl, getElem?_append_of_left hn, hp⟩
    · obtain ⟨i, n, rfl, hn, hp⟩ := h₂.of_mem_top c hc
      exact ⟨nodes₁.length + i, n, by rw [hshift], getElem?_append_of_right hn, hp⟩

end Laid

mutual

/-- A tree gets as many nodes as it has. -/
theorem length_layOut (parent : NodeId) (next : Nat) : ∀ t : Tree,
    (layOut parent next t).length = t.size
  | .node content source children => by
    rw [layOut, List.length_cons, length_layOutAll, Tree.size]

theorem length_layOutAll (parent : NodeId) (next : Nat) : ∀ ts : List Tree,
    (layOutAll parent next ts).length = forestSize ts
  | [] => rfl
  | t :: ts => by
    rw [layOutAll, List.length_append, length_layOut, length_layOutAll, forestSize]

end

mutual

/-- The nodes made for a tree have the links of the tree. -/
theorem laid_layOut (parent : NodeId) (next : Nat) : ∀ t : Tree,
    Laid parent next [⟨next⟩] (layOut parent next t)
  | .node content source children => (laid_layOutAll ⟨next⟩ (next + 1) children).node content source

/-- Trees are laid out one behind the other, each from where the one before ends. -/
theorem laid_layOutAll (parent : NodeId) (next : Nat) : ∀ ts : List Tree,
    Laid parent next (childIds next ts) (layOutAll parent next ts)
  | [] => .nil parent next
  | t :: ts => (laid_layOut parent next t).append
      (length_layOut parent next t ▸ laid_layOutAll parent (next + t.size) ts)

end

mutual

/-- Nodes made for a tree carry children only if those of the tree do. -/
theorem carries_layOut (parent : NodeId) (next : Nat) : ∀ t : Tree, Everywhere Carries t →
    ∀ n ∈ layOut parent next t, n.children ≠ [] → n.content.carries = true
  | .node content source children, ⟨hc, hch⟩, n, hn, hne => by
    rw [layOut] at hn
    rcases List.mem_cons.1 hn with rfl | hn
    · refine hc fun hnil => hne ?_
      rw [hnil]
      rfl
    · exact carries_layOutAll ⟨next⟩ (next + 1) children hch n hn hne

/-- The same of several trees. -/
theorem carries_layOutAll (parent : NodeId) (next : Nat) : ∀ ts : List Tree,
    EverywhereIn Carries ts → ∀ n ∈ layOutAll parent next ts, n.children ≠ [] →
      n.content.carries = true
  | [], _, n, hn, _ => absurd hn List.not_mem_nil
  | t :: ts, ⟨ht, hts⟩, n, hn, hne => by
    rcases List.mem_append.1 hn with hn | hn
    · exact carries_layOut parent next t ht n hn hne
    · exact carries_layOutAll parent (next + t.size) ts hts n hn hne

end

/-! ## Trees in a sheet -/

section AddForest

variable (s : Sheet) (parent : NodeId) (trees : List Tree)

/-- The nodes that stand for trees at the end of a sheet. -/
def newNodes : List Node :=
  layOutAll parent s.nodes.size trees

theorem size_addForest :
    (s.addForest parent trees).nodes.size = s.nodes.size + (s.newNodes parent trees).length := by
  simp [addForest, newNodes]

variable {s}

/-- An old node has new children, if it is the one that the trees are added to, and is otherwise as
it was. -/
theorem node_addForest_of_has {x : NodeId} (hx : s.Has x) :
    (s.addForest parent trees).node x =
      (s.setChildren parent (· ++ childIds s.nodes.size trees)).node x := by
  have hlt : x.index < (s.setChildren parent (· ++ childIds s.nodes.size trees)).nodes.size := by
    rw [size_setChildren]
    exact hx
  exact congrArg (Option.getD · default) (Array.getElem?_append_left hlt)

/-- The nodes behind the old ones are those made for the trees. -/
theorem node_addForest_new {i : Nat} {n : Node} (hi : (s.newNodes parent trees)[i]? = some n) :
    (s.addForest parent trees).node ⟨s.nodes.size + i⟩ = n := by
  have hsize : (s.setChildren parent (· ++ childIds s.nodes.size trees)).nodes.size =
      s.nodes.size := size_setChildren _ _ _
  have hget : (s.addForest parent trees).nodes[s.nodes.size + i]? = some n := by
    refine (Array.getElem?_append_right (by simp)).trans ?_
    rw [← hi, newNodes]
    simp
  rw [Sheet.node, hget]
  rfl

/-- A node of the new sheet is an old one or one of the new ones. -/
theorem has_addForest {x : NodeId} (hx : (s.addForest parent trees).Has x) :
    s.Has x ∨ ∃ i n, x = ⟨s.nodes.size + i⟩ ∧ (s.newNodes parent trees)[i]? = some n := by
  by_cases hold : s.Has x
  · exact .inl hold
  · simp only [Has, size_addForest] at hx hold
    refine .inr ⟨x.index - s.nodes.size, (s.newNodes parent trees)[x.index - s.nodes.size], ?_,
      List.getElem?_eq_getElem (by omega)⟩
    rw [Nat.add_sub_cancel' (by omega)]

variable {parent}

/-- Only one old node gets children, at the end. -/
theorem children_addForest_of_has (hp : s.Has parent) {x : NodeId} (hx : s.Has x) :
    (s.addForest parent trees).children x =
      if x = parent then s.children x ++ childIds s.nodes.size trees else s.children x := by
  rw [children, node_addForest_of_has parent trees hx]
  exact children_setChildren x _ hp

theorem parent_addForest_of_has {x : NodeId} (hx : s.Has x) :
    (s.addForest parent trees).parent x = s.parent x := by
  rw [Sheet.parent, node_addForest_of_has parent trees hx]
  exact parent_setChildren s parent x _

theorem content_addForest_of_has {x : NodeId} (hx : s.Has x) :
    (s.addForest parent trees).content x = s.content x := by
  rw [Sheet.content, node_addForest_of_has parent trees hx]
  exact content_setChildren s parent x _

theorem source_addForest_of_has {x : NodeId} (hx : s.Has x) :
    (s.addForest parent trees).source x = s.source x := by
  rw [source, node_addForest_of_has parent trees hx]
  exact source_setChildren s parent x _

variable (parent) in
theorem laid_newNodes (s : Sheet) :
    Laid parent s.nodes.size (childIds s.nodes.size trees) (s.newNodes parent trees) :=
  laid_layOutAll parent s.nodes.size trees

/-- The children of an old node are those it had, and the tops of the trees if they are added to it.
-/
theorem mem_children_addForest_of_has (hp : s.Has parent) {x c : NodeId} (hx : s.Has x) :
    c ∈ (s.addForest parent trees).children x ↔
      c ∈ s.children x ∨ x = parent ∧ c ∈ childIds s.nodes.size trees := by
  rw [children_addForest_of_has trees hp hx]
  by_cases heq : x = parent
  · rw [if_pos heq, List.mem_append]
    simp [heq]
  · rw [if_neg heq]
    simp [heq]

/-- What is a child of a node hangs on it, be the two old or new. -/
theorem parent_of_mem_children_addForest (h : s.IsLinked) (hp : s.Has parent) {x c : NodeId}
    (hc : c ∈ (s.addForest parent trees).children x) :
    (s.addForest parent trees).parent c = some x := by
  rcases has_addForest parent trees (has_of_mem_children hc) with hold | ⟨j, m, rfl, hm⟩
  · rcases (mem_children_addForest_of_has trees hp hold).1 hc with hin | ⟨rfl, htop⟩
    · have hpc := h.mem_children_iff.1 hin
      rw [parent_addForest_of_has trees (has_of_parent hpc), hpc]
    · obtain ⟨i, n, rfl, hn, hpar⟩ := (laid_newNodes x trees s).of_mem_top c htop
      rw [Sheet.parent, node_addForest_new x trees hn, hpar]
  · rw [children, node_addForest_new parent trees hm] at hc
    obtain ⟨i, n, rfl, hn, hpar⟩ := (laid_newNodes parent trees s).of_mem_children j m hm c hc
    rw [Sheet.parent, node_addForest_new parent trees hn, hpar]

/-- What hangs on a node is among its children. -/
theorem mem_children_addForest_of_parent (h : s.IsLinked) (hp : s.Has parent) {x c : NodeId}
    (hpc : (s.addForest parent trees).parent c = some x) :
    c ∈ (s.addForest parent trees).children x := by
  rcases has_addForest parent trees (has_of_parent hpc) with hold | ⟨i, n, rfl, hn⟩
  · rw [parent_addForest_of_has trees hold] at hpc
    exact (mem_children_addForest_of_has trees hp (h.has_parent hpc)).2
      (.inl (h.mem_children_iff.2 hpc))
  · rw [Sheet.parent, node_addForest_new parent trees hn] at hpc
    rcases (laid_newNodes parent trees s).parent_cases i n hn with
      ⟨hpar, hmem⟩ | ⟨j, m, -, hm, hpar, hmem⟩
    · obtain rfl : parent = x := Option.some.inj (hpar.symm.trans hpc)
      exact (mem_children_addForest_of_has trees hp hp).2 (.inr ⟨rfl, hmem⟩)
    · obtain rfl := Option.some.inj (hpar.symm.trans hpc)
      rw [children, node_addForest_new parent trees hm]
      exact hmem

/-- No child comes twice: the tops of the trees are new. -/
theorem nodup_children_addForest (h : s.IsLinked) (hp : s.Has parent) (x : NodeId) :
    ((s.addForest parent trees).children x).Nodup := by
  by_cases hhas : (s.addForest parent trees).Has x
  · rcases has_addForest parent trees hhas with hold | ⟨j, m, rfl, hm⟩
    · rw [children_addForest_of_has trees hp hold]
      split
      · refine List.nodup_append.2
          ⟨h.nodup_children x, (laid_newNodes parent trees s).nodup_top, ?_⟩
        rintro a ha b hb rfl
        -- What hung there before is in the old sheet, and new nodes come behind it.
        obtain ⟨i, n, rfl, -, -⟩ := (laid_newNodes parent trees s).of_mem_top a hb
        have hlt : s.nodes.size + i < s.nodes.size := has_of_parent (h.mem_children_iff.1 ha)
        omega
      · exact h.nodup_children x
    · rw [children, node_addForest_new parent trees hm]
      exact (laid_newNodes parent trees s).nodup_children m (List.mem_of_getElem? hm)
  · rw [children_of_not_has hhas]
    exact List.nodup_nil

/-- So the links agree when trees are added. -/
theorem IsLinked.addForest (h : s.IsLinked) (hp : s.Has parent) :
    (s.addForest parent trees).IsLinked where
  mem_children_iff :=
    ⟨parent_of_mem_children_addForest trees h hp, mem_children_addForest_of_parent trees h hp⟩
  nodup_children := nodup_children_addForest trees h hp

/-- Trees can be added to a forest: new nodes have higher numbers than what they hang on. -/
theorem IsForest.addForest (h : s.IsForest) (hp : s.Has parent) :
    (s.addForest parent trees).IsForest := by
  -- Old nodes keep their depths, which are below the size, and new ones are numbered from there on.
  suffices hranked : (s.addForest parent trees).Ranked fun id =>
      if s.Has id then s.depth id else id.index from
    .of_ranked (h.toIsLinked.addForest trees hp) hranked
  intro c p hpc
  dsimp only
  rcases has_addForest parent trees (has_of_parent hpc) with hold | ⟨i, n, rfl, hn⟩
  · rw [parent_addForest_of_has trees hold] at hpc
    rw [if_pos hold, if_pos (h.has_parent hpc)]
    exact h.ranked_depth hpc
  · rw [Sheet.parent, node_addForest_new parent trees hn] at hpc
    have hout : ∀ k, ¬ s.Has ⟨s.nodes.size + k⟩ := fun k => by simp [Has]
    rw [if_neg (hout i)]
    rcases (laid_newNodes parent trees s).parent_cases i n hn with
      ⟨hpar, -⟩ | ⟨j, m, hj, -, hpar, -⟩
    · obtain rfl : parent = p := Option.some.inj (hpar.symm.trans hpc)
      have hdepth := h.depth_lt hp
      rw [if_pos hp]
      exact Nat.lt_of_lt_of_le hdepth (Nat.le_add_right _ _)
    · obtain rfl := Option.some.inj (hpar.symm.trans hpc)
      rw [if_neg (hout j)]
      exact Nat.add_lt_add_left hj _

end AddForest

end ClassRules.Sheet
