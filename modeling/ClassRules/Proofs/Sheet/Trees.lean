import ClassRules.Proofs.Sheet.Preorder
import ClassRules.Proofs.Sheet.Read
import ClassRules.Proofs.Tree.Reading

/-!
# The trees of a sheet

In a forest the plain tree of a node is made of the trees of its children, however many levels the
definition allows for.

## What this module delivers

- `Sheet.forest`: the trees on the root.
- `IsForest.children_induction`: induction from the children of a node to the node.
- `IsForest.tree_eq`, `tree_congr`: a tree from the trees below it, and the same tree in two sheets
  that agree below a node.
- `everywhere_tree_iff`: what holds at the nodes of a tree holds at the nodes of the sheet.
- `exists_mem_walkForest`: a walk through the trees meets all nodes of the text.
- `IsSound.forest_addForest`, `IsSound.forest_addText`: trees that are added stand behind those that
  were there.
-/

set_option autoImplicit false

namespace ClassRules

open ClassRules.Tree

namespace Sheet

variable {s t : Sheet}

/-- The trees on the root. -/
def forest (s : Sheet) : List Tree :=
  (s.children root).map s.tree

/-- The root has no parent. -/
theorem IsSound.ne_root_of_parent (h : s.IsSound) {c p : NodeId}
    (hp : s.parent c = some p) : c ≠ root := by
  rintro rfl
  rw [h.parent_root] at hp
  cases hp

/-- What stands below a node has a parent. -/
theorem IsSound.of_mem_descendants (h : s.IsSound) {id x : NodeId}
    (hx : x ∈ s.descendants id) : s.Has x ∧ x ≠ root := by
  obtain ⟨hne, hon⟩ := h.mem_descendants_iff.1 hx
  obtain ⟨p, hp, -⟩ := (HangsOn.iff_parent.1 hon).resolve_left hne
  exact ⟨has_of_parent hp, h.ne_root_of_parent hp⟩

/-! ## Trees from trees -/

/-- What holds of a node as soon as it holds of its children holds of all nodes. The depth of a node
is bounded, so the way down ends. -/
theorem IsForest.children_induction (h : s.IsForest) {P : NodeId → Prop}
    (step : ∀ id, (∀ c ∈ s.children id, P c) → P id) (id : NodeId) : P id := by
  induction hn : s.nodes.size - s.depth id using Nat.strongRecOn generalizing id with
  | ind n ih =>
    apply step
    intro c hc
    have hp := h.mem_children_iff.1 hc
    have hdepth := h.depth_of_parent hp
    have hlt := h.depth_lt (has_of_parent hp)
    exact ih (s.nodes.size - s.depth c) (by omega) c rfl

/-- Fuel for all levels below a node is enough. -/
theorem IsForest.treeTo_eq (h : s.IsForest) (n m : Nat) {id : NodeId} (hid : s.Has id)
    (hn : s.nodes.size ≤ n + s.depth id) (hm : s.nodes.size ≤ m + s.depth id) :
    s.treeTo n id = s.treeTo m id := by
  have hlt := h.depth_lt hid
  induction n generalizing m id with
  | zero => omega
  | succ n ih =>
    obtain ⟨m, rfl⟩ : ∃ k, m = k + 1 := ⟨m - 1, by omega⟩
    rw [treeTo, treeTo]
    congr 1
    apply List.map_congr_left
    intro c hc
    have hp := h.mem_children_iff.1 hc
    have hdepth := h.depth_of_parent hp
    exact ih m (has_of_parent hp) (by omega) (by omega) (h.depth_lt (has_of_parent hp))

/-- The tree of a node is made of the trees of its children. -/
theorem IsForest.tree_eq (h : s.IsForest) (id : NodeId) :
    s.tree id = .node (s.content id) (s.source id) ((s.children id).map s.tree) := by
  by_cases hid : s.Has id
  · have hlt := h.depth_lt hid
    obtain ⟨n, hn⟩ : ∃ n, s.nodes.size = n + 1 := ⟨s.nodes.size - 1, by omega⟩
    rw [tree, hn, treeTo]
    congr 1
    apply List.map_congr_left
    intro c hc
    have hp := h.mem_children_iff.1 hc
    have hdepth := h.depth_of_parent hp
    exact h.treeTo_eq n s.nodes.size (has_of_parent hp) (by omega) (by omega)
  · -- What is not there reads as a node without children.
    rw [children_of_not_has hid, tree]
    cases s.nodes.size with
    | zero => rfl
    | succ n => rw [treeTo, children_of_not_has hid]; rfl

theorem IsForest.children_tree (h : s.IsForest) (id : NodeId) :
    (s.tree id).children = (s.children id).map s.tree := by
  rw [h.tree_eq]
  rfl

theorem IsForest.forest_eq (h : s.IsForest) : s.forest = (s.tree root).children :=
  (h.children_tree root).symm

theorem IsForest.print_eq (h : s.IsForest) : s.print = renderForest 0 s.forest := by
  rw [print, h.forest_eq]

/-- Two sheets that agree below a node have the same tree there. -/
theorem tree_congr (hs : s.IsForest) (ht : t.IsForest) {id : NodeId}
    (h : ∀ x, s.HangsOn x id → t.content x = s.content x ∧ t.source x = s.source x ∧
      t.children x = s.children x) : t.tree id = s.tree id := by
  induction id using hs.children_induction with
  | step id ih =>
    obtain ⟨hcontent, hsource, hchildren⟩ := h id (.refl s id)
    rw [hs.tree_eq, ht.tree_eq, hcontent, hsource, hchildren]
    congr 1
    apply List.map_congr_left
    intro c hc
    exact ih c hc fun x hx => h x (hx.trans (.single (hs.mem_children_iff.1 hc)))

/-! ## What holds at all nodes -/

theorem everywhereIn_map_iff {P : Content → List Tree → Prop} {f : NodeId → Tree}
    {ids : List NodeId} : EverywhereIn P (ids.map f) ↔ ∀ id ∈ ids, Everywhere P (f id) := by
  induction ids with
  | nil => simp [EverywhereIn]
  | cons id ids ih => rw [List.map_cons, EverywhereIn, ih, List.forall_mem_cons]

/-- A property holds everywhere in the tree of a node if it holds of all that hangs on the node. -/
theorem IsForest.everywhere_tree_iff (h : s.IsForest) {P : Content → List Tree → Prop}
    {id : NodeId} : Everywhere P (s.tree id) ↔
      ∀ x, s.HangsOn x id → P (s.content x) ((s.children x).map s.tree) := by
  induction id using h.children_induction with
  | step id ih =>
    rw [h.tree_eq, Everywhere, everywhereIn_map_iff]
    constructor
    · rintro ⟨hid, hbelow⟩ x hx
      rcases (HangsOn.iff_children h.toIsLinked).1 hx with rfl | ⟨c, hc, hxc⟩
      · exact hid
      · exact (ih c hc).1 (hbelow c hc) x hxc
    · intro hall
      refine ⟨hall id (.refl s id), ?_⟩
      intro c hc
      exact (ih c hc).2 fun x hx => hall x (hx.trans (.single (h.mem_children_iff.1 hc)))

theorem IsForest.everywhereIn_forest_iff (h : s.IsForest) {P : Content → List Tree → Prop} :
    EverywhereIn P s.forest ↔
      ∀ x, x ≠ root → s.HangsOn x root → P (s.content x) ((s.children x).map s.tree) := by
  rw [forest, everywhereIn_map_iff]
  constructor
  · intro hall x hne hx
    obtain ⟨c, hc, hxc⟩ := ((HangsOn.iff_children h.toIsLinked).1 hx).resolve_left hne
    exact h.everywhere_tree_iff.1 (hall c hc) x hxc
  · intro hall c hc
    have hp := h.mem_children_iff.1 hc
    refine h.everywhere_tree_iff.2 fun x hx => hall x ?_ (hx.trans (.single hp))
    rintro rfl
    exact h.not_hangsOn_child hp hx

/-- In the trees of a sound sheet, only nodes that may have children have some. -/
theorem IsSound.carries_forest (h : s.IsSound) : EverywhereIn Carries s.forest := by
  apply h.toIsForest.everywhereIn_forest_iff.2
  intro x _ _ hne
  exact h.carries x fun hnil => hne (by rw [hnil]; rfl)

theorem mem_walkForest {depth : Nat} {x : Nat × Content × Option Source} {u : Tree}
    {us : List Tree} (hu : u ∈ us) (hx : x ∈ walk depth u) : x ∈ walkForest depth us := by
  induction hu with
  | head us => exact List.mem_append_left _ hx
  | tail v _ ih => exact List.mem_append_right _ ih

/-- What hangs on a node is met on a walk through its tree. -/
theorem IsForest.exists_mem_walk (h : s.IsForest) {a id : NodeId} (ha : s.HangsOn a id)
    (depth : Nat) : ∃ d, (d, s.content a, s.source a) ∈ walk depth (s.tree id) := by
  induction id using h.children_induction generalizing depth with
  | step id ih =>
    rw [h.tree_eq, walk]
    rcases (HangsOn.iff_children h.toIsLinked).1 ha with rfl | ⟨c, hc, hac⟩
    · exact ⟨depth, List.mem_cons_self⟩
    · obtain ⟨d, hd⟩ := ih c hc hac (depth + 1)
      exact ⟨d, List.mem_cons_of_mem _ (mem_walkForest (List.mem_map_of_mem hc) hd)⟩

/-- All nodes of the text but the root are met on a walk through its trees. -/
theorem IsForest.exists_mem_walkForest (h : s.IsForest) {a : NodeId} (ha : s.HangsOn a root)
    (hne : a ≠ root) : ∃ d, (d, s.content a, s.source a) ∈ walkForest 0 s.forest := by
  obtain ⟨c, hc, hac⟩ := ((HangsOn.iff_children h.toIsLinked).1 ha).resolve_left hne
  obtain ⟨d, hd⟩ := h.exists_mem_walk hac 0
  exact ⟨d, mem_walkForest (List.mem_map_of_mem hc) hd⟩

/-! ## Trees that were added -/

/-- The nodes with the given number and those behind it are the given ones. -/
def NodesFrom (s : Sheet) (next : Nat) (nodes : List Node) : Prop :=
  ∀ (i : Nat) (n : Node), nodes[i]? = some n → s.node ⟨next + i⟩ = n

theorem NodesFrom.append {next : Nat} {nodes nodes' : List Node}
    (h : s.NodesFrom next (nodes ++ nodes')) :
    s.NodesFrom next nodes ∧ s.NodesFrom (next + nodes.length) nodes' := by
  refine ⟨fun i n hi => h i n (Laid.getElem?_append_of_left hi), ?_⟩
  intro i n hi
  rw [Nat.add_assoc]
  exact h (nodes.length + i) n (Laid.getElem?_append_of_right hi)

mutual

/-- The nodes laid out for a tree make up this tree. -/
theorem tree_of_layOut (h : s.IsForest) (parent : NodeId) (next : Nat) : ∀ t : Tree,
    s.NodesFrom next (layOut parent next t) → s.tree ⟨next⟩ = t
  | .node content source children, hn => by
    have hfirst : s.node ⟨next⟩ = _ := hn 0 _ rfl
    have hrest : s.NodesFrom (next + 1) (layOutAll ⟨next⟩ (next + 1) children) := fun i n hi => by
      rw [Nat.add_assoc, Nat.add_comm 1 i]
      exact hn (i + 1) n hi
    rw [h.tree_eq, Sheet.content, Sheet.source, Sheet.children, hfirst]
    exact congrArg _ (map_tree_of_layOutAll h ⟨next⟩ (next + 1) children hrest)

/-- The nodes laid out for several trees make up these. -/
theorem map_tree_of_layOutAll (h : s.IsForest) (parent : NodeId) (next : Nat) : ∀ ts : List Tree,
    s.NodesFrom next (layOutAll parent next ts) → (childIds next ts).map s.tree = ts
  | [], _ => rfl
  | t :: ts, hn => by
    obtain ⟨hfirst, hrest⟩ := hn.append
    rw [length_layOut] at hrest
    rw [childIds, List.map_cons, tree_of_layOut h parent next t hfirst,
      map_tree_of_layOutAll h parent (next + t.size) ts hrest]

end

/-- Trees that are added under the root stand behind those that were there. -/
theorem IsSound.forest_addForest (h : s.IsSound) (trees : List Tree) :
    (s.addForest root trees).forest = s.forest ++ trees := by
  have ht := h.toIsForest.addForest trees h.has_root
  rw [forest, children_addForest_of_has trees h.has_root h.has_root, if_pos rfl, List.map_append]
  congr 1
  · apply List.map_congr_left
    intro c hc
    refine tree_congr h.toIsForest ht fun x hx => ?_
    have hp := h.mem_children_iff.1 hc
    have hhas : s.Has x := h.has_of_hangsOn (hx.trans (.single hp))
    -- The root, which alone has got new children, stands above `c`.
    have hne : x ≠ root := by
      rintro rfl
      exact h.not_hangsOn_child hp hx
    refine ⟨content_addForest_of_has trees hhas, source_addForest_of_has trees hhas, ?_⟩
    rw [children_addForest_of_has trees h.has_root hhas, if_neg hne]
  · exact map_tree_of_layOutAll ht root s.nodes.size trees fun i n hi =>
      node_addForest_new root trees hi

/-- A text adds its trees behind those that were there. -/
theorem IsSound.forest_addText (h : s.IsSound) (input : Input) (text : String) :
    (s.addText input text).2.forest = s.forest ++ (parse ⟨s.inputs.size⟩ text).nodes := by
  have hs' : (s.addInput input).2.IsSound := h.withInputs _
  have hsame : (s.addInput input).2.forest = s.forest := List.map_congr_left fun c _ =>
    tree_congr h.toIsForest hs'.toIsForest fun x _ => ⟨rfl, rfl, rfl⟩
  rw [← hsame]
  exact hs'.forest_addForest (parse ⟨s.inputs.size⟩ text).nodes

end Sheet

end ClassRules
