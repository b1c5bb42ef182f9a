import ClassRules.Proofs.Sheet.Forest
import ClassRules.Sheet.Move
import Mathlib.Data.List.Perm.Lattice

/-!
# What moves change

Each change of a sheet as two equations, one for the children of a node and one for its parent.
Where the sheet is a forest, it still is one after the change.

## What this module delivers

- `Ranked.move`: a move to a place with a lower number keeps numbers growing from parent to child,
  so one numbering serves a whole run of moves.
- `Sheet.move`: a node leaves its place and comes to stand among the children of another one;
  `append_eq_ok` and `insertAfter_eq_ok` say when the two moves are that.
- `children_move`, `parent_move`, `children_detach`, `parent_detach`, `children_replaceWith`,
  `parent_replaceWith`, `children_create`, `parent_create`.
- `IsLinked.move`, `IsLinked.detach`, `IsLinked.replaceWith`, `IsLinked.create`: the links still
  agree. `IsForest.move`, `IsForest.detach`, `IsForest.replaceWith`: a forest is still one.
- `Gathered`: several nodes came to hang on the same one.
- `Inserted`, `IsLinked.inserted`: a new node is put behind another one.
-/

set_option autoImplicit false

namespace ClassRules.Sheet

variable {s : Sheet}

/-! ## Changing one node -/

/-- Only the node that is changed is another one, and only if it is there. -/
theorem node_modify (s : Sheet) (id : NodeId) (f : Node → Node) (x : NodeId) :
    (s.modify id f).node x = if x = id ∧ s.Has id then f (s.node x) else s.node x := by
  by_cases hx : x = id
  · subst hx
    by_cases h : s.Has x
    · rw [node_modify_self f h, if_pos ⟨rfl, h⟩]
    · have h' : ¬ (s.modify x f).Has x := by simpa [Has] using h
      rw [node_of_not_has h, node_of_not_has h', if_neg fun hc => h hc.2]
  · rw [node_modify_of_ne f hx, if_neg fun hc => hx hc.1]

@[simp] theorem has_modify (s : Sheet) (id : NodeId) (f : Node → Node) (x : NodeId) :
    (s.modify id f).Has x ↔ s.Has x := by
  simp [Has]

/-- Changes what a node hangs on. -/
def setParent (s : Sheet) (id : NodeId) (parent : Option NodeId) : Sheet :=
  s.modify id fun n => { n with parent := parent }

/-- Changes the children of a node. -/
def setChildren (s : Sheet) (id : NodeId) (place : List NodeId → List NodeId) : Sheet :=
  s.modify id fun n => { n with children := place n.children }

section Set

variable (s) (id x : NodeId) (parent : Option NodeId) (place : List NodeId → List NodeId)

@[simp] theorem size_setParent : (s.setParent id parent).nodes.size = s.nodes.size :=
  size_modify s id _

@[simp] theorem size_setChildren : (s.setChildren id place).nodes.size = s.nodes.size :=
  size_modify s id _

@[simp] theorem has_setParent : (s.setParent id parent).Has x ↔ s.Has x :=
  has_modify s id _ x

@[simp] theorem has_setChildren : (s.setChildren id place).Has x ↔ s.Has x :=
  has_modify s id _ x

@[simp] theorem content_setParent : (s.setParent id parent).content x = s.content x := by
  simp only [content, setParent, node_modify]
  split <;> rfl

@[simp] theorem content_setChildren : (s.setChildren id place).content x = s.content x := by
  simp only [content, setChildren, node_modify]
  split <;> rfl

@[simp] theorem source_setParent : (s.setParent id parent).source x = s.source x := by
  simp only [source, setParent, node_modify]
  split <;> rfl

@[simp] theorem source_setChildren : (s.setChildren id place).source x = s.source x := by
  simp only [source, setChildren, node_modify]
  split <;> rfl

@[simp] theorem children_setParent : (s.setParent id parent).children x = s.children x := by
  simp only [children, setParent, node_modify]
  split <;> rfl

@[simp] theorem parent_setChildren : (s.setChildren id place).parent x = s.parent x := by
  simp only [Sheet.parent, setChildren, node_modify]
  split <;> rfl

variable {s id}

/-- Only this node hangs on something else. -/
theorem parent_setParent (hid : s.Has id) :
    (s.setParent id parent).parent x = if x = id then parent else s.parent x := by
  simp only [Sheet.parent, setParent, node_modify, hid, and_true]
  split <;> rfl

/-- Only this node has other children. -/
theorem children_setChildren (hid : s.Has id) :
    (s.setChildren id place).children x =
      if x = id then place (s.children x) else s.children x := by
  simp only [children, setChildren, node_modify, hid, and_true]
  split <;> rfl

end Set

/-! ## New nodes -/

@[simp] theorem size_create (s : Sheet) (content : Content) (source : Option Source) :
    (s.create content source).2.nodes.size = s.nodes.size + 1 := by
  simp [create]

/-- The next new node is not there yet. -/
theorem not_has_new (s : Sheet) : ¬ s.Has ⟨s.nodes.size⟩ :=
  Nat.lt_irrefl _

/-- A node that is there is no new one. -/
theorem Has.ne_new {id : NodeId} (h : s.Has id) : id ≠ ⟨s.nodes.size⟩ :=
  fun e => not_has_new s (e ▸ h)

/-- A new node is there beside those that were. -/
@[simp] theorem has_create (s : Sheet) (content : Content) (source : Option Source)
    (x : NodeId) : (s.create content source).2.Has x ↔ x = ⟨s.nodes.size⟩ ∨ s.Has x := by
  cases x
  simp only [Has, size_create, NodeId.mk.injEq]
  omega

/-- The new node says what it was made to say, and hangs on nothing. -/
theorem node_create (s : Sheet) (content : Content) (source : Option Source) (x : NodeId) :
    (s.create content source).2.node x =
      if x = ⟨s.nodes.size⟩ then { content := content, source := source } else s.node x := by
  split
  · rename_i hx
    subst hx
    exact node_create_self s content source
  · rename_i hx
    by_cases h : s.Has x
    · exact node_create_of_lt content source h
    · have h' : ¬ (s.create content source).2.Has x := by simp [hx, h]
      rw [node_of_not_has h, node_of_not_has h']

/-- A new node has no children, as little as the handle had before. -/
@[simp] theorem children_create (s : Sheet) (content : Content) (source : Option Source)
    (x : NodeId) : (s.create content source).2.children x = s.children x := by
  simp only [children, node_create]
  split
  · rename_i hx
    rw [hx, node_of_not_has (not_has_new s)]
    rfl
  · rfl

/-- It hangs on nothing, as little as the handle did before. -/
@[simp] theorem parent_create (s : Sheet) (content : Content) (source : Option Source)
    (x : NodeId) : (s.create content source).2.parent x = s.parent x := by
  simp only [parent, node_create]
  split
  · rename_i hx
    rw [hx, node_of_not_has (not_has_new s)]
    rfl
  · rfl

/-- Only the new node has the new content. -/
theorem content_create (s : Sheet) (content : Content) (source : Option Source) (x : NodeId) :
    (s.create content source).2.content x =
      if x = ⟨s.nodes.size⟩ then content else s.content x := by
  simp only [Sheet.content, node_create]
  split <;> rfl

/-- Only the new node has the new source. -/
theorem source_create (s : Sheet) (content : Content) (source : Option Source) (x : NodeId) :
    (s.create content source).2.source x =
      if x = ⟨s.nodes.size⟩ then source else s.source x := by
  simp only [Sheet.source, node_create]
  split <;> rfl

/-- A new node has no links that could disagree. -/
theorem IsLinked.create (h : s.IsLinked) (content : Content) (source : Option Source) :
    (s.create content source).2.IsLinked where
  mem_children_iff {p c} := by rw [children_create, parent_create, h.mem_children_iff]
  nodup_children p := by rw [children_create]; exact h.nodup_children p

theorem Ranked.create {rank : NodeId → Nat} (h : s.Ranked rank) (content : Content)
    (source : Option Source) : (s.create content source).2.Ranked rank := by
  intro c p hp
  rw [parent_create] at hp
  exact h hp

/-- A forest with a new node by itself is a forest. -/
theorem IsForest.create (h : s.IsForest) (content : Content) (source : Option Source) :
    (s.create content source).2.IsForest :=
  .of_ranked (h.toIsLinked.create content source) (h.ranked_depth.create content source)

/-! ## Taking a node out -/

/-- A node is taken out of its parent by a change on both sides. -/
theorem detach_of_parent {id p : NodeId} (hp : s.parent id = some p) :
    s.detach id = (s.setParent id none).setChildren p (·.filter (· ≠ id)) := by
  rw [detach, hp]
  rfl

/-- A node that hangs on nothing is not taken out of anything. -/
theorem detach_of_parent_none {id : NodeId} (hp : s.parent id = none) : s.detach id = s := by
  rw [detach, hp]

@[simp] theorem size_detach (s : Sheet) (id : NodeId) :
    (s.detach id).nodes.size = s.nodes.size := by
  cases hp : s.parent id with
  | none => rw [detach_of_parent_none hp]
  | some p => simp [detach_of_parent hp]

@[simp] theorem inputs_detach (s : Sheet) (id : NodeId) : (s.detach id).inputs = s.inputs := by
  cases hp : s.parent id with
  | none => rw [detach_of_parent_none hp]
  | some p =>
    rw [detach_of_parent hp]
    rfl

@[simp] theorem has_detach (s : Sheet) (id x : NodeId) : (s.detach id).Has x ↔ s.Has x := by
  simp [Has]

@[simp] theorem content_detach (s : Sheet) (id x : NodeId) :
    (s.detach id).content x = s.content x := by
  cases hp : s.parent id with
  | none => rw [detach_of_parent_none hp]
  | some p => simp [detach_of_parent hp]

@[simp] theorem source_detach (s : Sheet) (id x : NodeId) :
    (s.detach id).source x = s.source x := by
  cases hp : s.parent id with
  | none => rw [detach_of_parent_none hp]
  | some p => simp [detach_of_parent hp]

/-- Only the node that is taken out loses its parent. -/
theorem parent_detach (s : Sheet) (id x : NodeId) :
    (s.detach id).parent x = if x = id then none else s.parent x := by
  cases hp : s.parent id with
  | none =>
    rw [detach_of_parent_none hp]
    split
    · rename_i hx
      rw [hx, hp]
    · rfl
  | some p =>
    rw [detach_of_parent hp, parent_setChildren, parent_setParent _ _ (has_of_parent hp)]

/-- The node is gone from all children. -/
theorem children_detach (h : s.IsLinked) (id q : NodeId) :
    (s.detach id).children q = (s.children q).filter (· ≠ id) := by
  -- Where the node is no child, there is nothing to take out.
  have hself : s.parent id ≠ some q → (s.children q).filter (· ≠ id) = s.children q := by
    intro hq
    refine List.filter_eq_self.2 fun c hc => decide_eq_true fun e => hq ?_
    exact h.mem_children_iff.1 (e ▸ hc)
  cases hp : s.parent id with
  | none =>
    rw [detach_of_parent_none hp, hself (by simp [hp])]
  | some p =>
    rw [detach_of_parent hp, children_setChildren _ _ (by simpa using h.has_parent hp),
      children_setParent]
    split
    · rfl
    · rename_i hq
      rw [hself fun e => hq (Option.some.inj (hp.symm.trans e)).symm]

/-- Children that it was not among are as they were. -/
theorem children_detach_of_not_mem (h : s.IsLinked) {id q : NodeId} (hid : id ∉ s.children q) :
    (s.detach id).children q = s.children q := by
  rw [children_detach h]
  exact List.filter_eq_self.2 fun c hc => decide_eq_true fun e => hid (e ▸ hc)

/-- The links agree when a node is taken out, as it is gone from both sides. -/
theorem IsLinked.detach (h : s.IsLinked) (id : NodeId) : (s.detach id).IsLinked where
  mem_children_iff {p c} := by
    rw [children_detach h, parent_detach, List.mem_filter, h.mem_children_iff]
    by_cases hc : c = id <;> simp [hc]
  nodup_children p := by
    rw [children_detach h]
    exact (h.nodup_children p).filter _

theorem Ranked.detach {rank : NodeId → Nat} (h : s.Ranked rank) (id : NodeId) :
    (s.detach id).Ranked rank := by
  intro c p hp
  rw [parent_detach] at hp
  split at hp
  · cases hp
  · exact h hp

/-- A forest without a link is a forest. -/
theorem IsForest.detach (h : s.IsForest) (id : NodeId) : (s.detach id).IsForest :=
  .of_ranked (h.toIsLinked.detach id) (h.ranked_depth.detach id)

/-! ## Moving a node -/

/-- A node leaves its place, and the children of `parent` become `place` of those that it does not
stand among. -/
def move (s : Sheet) (parent id : NodeId) (place : List NodeId → List NodeId) : Sheet :=
  (s.detach id).attach parent id place

/-- A move takes the node out, gives it a place among children, and hangs it on their parent. -/
theorem move_eq (s : Sheet) (parent id : NodeId) (place : List NodeId → List NodeId) :
    s.move parent id place =
      ((s.detach id).setChildren parent place).setParent id (some parent) :=
  rfl

@[simp] theorem size_move (s : Sheet) (parent id : NodeId) (place : List NodeId → List NodeId) :
    (s.move parent id place).nodes.size = s.nodes.size := by
  simp [move_eq]

@[simp] theorem inputs_move (s : Sheet) (parent id : NodeId)
    (place : List NodeId → List NodeId) : (s.move parent id place).inputs = s.inputs :=
  inputs_detach s id

@[simp] theorem has_move (s : Sheet) (parent id : NodeId) (place : List NodeId → List NodeId)
    (x : NodeId) : (s.move parent id place).Has x ↔ s.Has x := by
  simp [Has]

@[simp] theorem content_move (s : Sheet) (parent id : NodeId) (place : List NodeId → List NodeId)
    (x : NodeId) : (s.move parent id place).content x = s.content x := by
  simp [move_eq]

@[simp] theorem source_move (s : Sheet) (parent id : NodeId) (place : List NodeId → List NodeId)
    (x : NodeId) : (s.move parent id place).source x = s.source x := by
  simp [move_eq]

/-- Only the node that moves hangs on something else. -/
theorem parent_move {id : NodeId} (hid : s.Has id) (parent : NodeId)
    (place : List NodeId → List NodeId) (x : NodeId) :
    (s.move parent id place).parent x = if x = id then some parent else s.parent x := by
  rw [move_eq, parent_setParent _ _ (by simpa using hid), parent_setChildren, parent_detach]
  split <;> rfl

/-- The node that moves is gone from all children, and has its place among those of its new parent.
-/
theorem children_move (h : s.IsLinked) {parent : NodeId} (hp : s.Has parent) (id : NodeId)
    (place : List NodeId → List NodeId) (q : NodeId) :
    (s.move parent id place).children q =
      if q = parent then place ((s.children q).filter (· ≠ id))
      else (s.children q).filter (· ≠ id) := by
  rw [move_eq, children_setParent, children_setChildren _ _ (by simpa using hp),
    children_detach h]

/-- A node that comes from elsewhere just gets its place among the children of the new parent. -/
theorem children_move_self (h : s.IsLinked) {parent : NodeId} (hp : s.Has parent) {id : NodeId}
    (hid : id ∉ s.children parent) (place : List NodeId → List NodeId) :
    (s.move parent id place).children parent = place (s.children parent) := by
  rw [children_move h hp, if_pos rfl, ← children_detach h, children_detach_of_not_mem h hid]

/-- Children that the node neither leaves nor comes to are as they were. -/
theorem children_move_of_not_mem (h : s.IsLinked) {parent : NodeId} (hp : s.Has parent)
    {id q : NodeId} (hq : q ≠ parent) (hid : id ∉ s.children q)
    (place : List NodeId → List NodeId) : (s.move parent id place).children q = s.children q := by
  rw [children_move h hp, if_neg hq, ← children_detach h, children_detach_of_not_mem h hid]

/-- Several nodes, one after the other, come to stand among the children of `parent`. -/
def moveAll (s : Sheet) (parent : NodeId) (place : NodeId → List NodeId → List NodeId)
    (ids : List NodeId) : Sheet :=
  ids.foldl (fun s id => s.move parent id (place id)) s

/-- A place that adds a node to others, wherever it puts it. -/
def Adds (id : NodeId) (place : List NodeId → List NodeId) : Prop :=
  ∀ l : List NodeId, (place l).Perm (id :: l)

/-- The end of a list is such a place. -/
theorem adds_append (id : NodeId) : Adds id (· ++ [id]) :=
  fun l => List.perm_append_singleton id l

/-- So is the place behind an item, or the end if the item is missing. -/
theorem adds_placeAfter (anchor id : NodeId) : Adds id (placeAfter anchor id) := by
  intro l
  induction l with
  | nil => exact .refl _
  | cons c cs ih =>
    unfold placeAfter
    split
    · exact .swap id c cs
    · exact (ih.cons c).trans (.swap id c cs)

/-- The links agree after a move to any place. -/
theorem IsLinked.move (h : s.IsLinked) {parent id : NodeId} (hp : s.Has parent) (hid : s.Has id)
    {place : List NodeId → List NodeId} (hplace : Adds id place) :
    (s.move parent id place).IsLinked where
  mem_children_iff {q c} := by
    rw [children_move h hp, parent_move hid]
    by_cases hc : c = id
    · subst hc
      by_cases hq : q = parent
      · simp [hq, (hplace _).mem_iff]
      · simp [hq, Ne.symm hq]
    · by_cases hq : q = parent <;> simp [hc, hq, (hplace _).mem_iff, h.mem_children_iff]
  nodup_children q := by
    have hnd := (h.nodup_children q).filter (· ≠ id)
    rw [children_move h hp]
    split
    · exact (hplace _).nodup_iff.2 (List.nodup_cons.2 ⟨by simp, hnd⟩)
    · exact hnd

/-- Numbers still grow from parent to child if that of the new parent is lower. -/
theorem Ranked.move {rank : NodeId → Nat} (h : s.Ranked rank) {parent id : NodeId}
    (hid : s.Has id) (hlt : rank parent < rank id) (place : List NodeId → List NodeId) :
    (s.move parent id place).Ranked rank := by
  intro c p hp
  rw [parent_move hid] at hp
  split at hp
  · rename_i hc
    rw [hc, ← Option.some.inj hp]
    exact hlt
  · exact h hp

/-- A node may move to any place that is not under it. -/
theorem IsForest.move (h : s.IsForest) {parent id : NodeId} (hp : s.Has parent) (hid : s.Has id)
    (hout : ¬ s.HangsOn parent id) {place : List NodeId → List NodeId} (hplace : Adds id place) :
    (s.move parent id place).IsForest := by
  classical
  -- All that moves gets numbers above that of the new parent.
  let rank : NodeId → Nat := fun x =>
    if s.HangsOn x id then s.depth x + s.depth parent + 1 else s.depth x
  have hranked : s.Ranked rank := by
    intro c p hc
    have hlt := h.ranked_depth hc
    by_cases hon : s.HangsOn p id
    · simp only [rank, if_pos hon, if_pos (HangsOn.head hc hon)]
      omega
    · simp only [rank, if_neg hon]
      split
      · omega
      · exact hlt
  have hlt : rank parent < rank id := by
    simp only [rank, if_neg hout, if_pos (HangsOn.refl s id)]
    omega
  exact .of_ranked (h.toIsLinked.move hp hid hplace) (hranked.move hid hlt place)

/-- From `s` to `t` the nodes `ids` moved to `parent`, each to some place there. -/
structure Gathered (rank : NodeId → Nat) (s t : Sheet) (parent : NodeId) (ids : List NodeId) :
    Prop where
  linked : t.IsLinked
  ranked : t.Ranked rank
  size_eq : t.nodes.size = s.nodes.size
  content_eq : ∀ x, t.content x = s.content x
  source_eq : ∀ x, t.source x = s.source x
  parent_eq : ∀ x, t.parent x = if x ∈ ids then some parent else s.parent x

/-- No nodes have moved at the start. -/
theorem Gathered.nil {rank : NodeId → Nat} (h : s.IsLinked) (hr : s.Ranked rank)
    (parent : NodeId) : Gathered rank s s parent [] :=
  ⟨h, hr, rfl, fun _ => rfl, fun _ => rfl, fun x => by rw [if_neg List.not_mem_nil]⟩

/-- One node moves before the others do. -/
theorem Gathered.cons {rank : NodeId → Nat} {t : Sheet} {parent id : NodeId} {ids : List NodeId}
    {place : List NodeId → List NodeId} (hid : s.Has id)
    (h : Gathered rank (s.move parent id place) t parent ids) :
    Gathered rank s t parent (id :: ids) where
  linked := h.linked
  ranked := h.ranked
  size_eq := by rw [h.size_eq, size_move]
  content_eq x := by rw [h.content_eq, content_move]
  source_eq x := by rw [h.source_eq, source_move]
  parent_eq x := by
    rw [h.parent_eq, parent_move hid]
    by_cases hx : x ∈ ids
    · rw [if_pos hx, if_pos (List.mem_cons_of_mem _ hx)]
    · by_cases hxid : x = id <;> simp [hx, hxid]

/-- A node may move to the end of the children of a node with a lower number. -/
theorem append_eq_ok (h : s.IsForest) {rank : NodeId → Nat} (hr : s.Ranked rank)
    {parent id : NodeId} (hp : s.Has parent) (hlt : rank parent < rank id) :
    s.append parent id = .ok (s.move parent id (· ++ [id])) := by
  apply if_neg
  intro ha
  -- A node that the new parent hangs on has no higher number than it.
  have hle : rank id ≤ rank parent := ((h.isAncestorOrSelf_iff hp).1 ha).rank_le hr
  omega

/-- A node may also move behind another one among the children of a node with a lower number. -/
theorem insertAfter_eq_ok (h : s.IsForest) {rank : NodeId → Nat} (hr : s.Ranked rank)
    {container anchor id : NodeId} (hc : s.Has container) (hlt : rank container < rank id)
    (hne : id ≠ anchor) :
    s.insertAfter container anchor id = .ok (s.move container id (placeAfter anchor id)) := by
  refine (if_neg hne).trans (if_neg ?_)
  intro ha
  have hle : rank id ≤ rank container := ((h.isAncestorOrSelf_iff hc).1 ha).rank_le hr
  omega

/-- In a list of different nodes, a node behind the last one of the front stands between the front
and the back. -/
theorem placeAfter_append {anchor : NodeId} (id : NodeId) {front back : List NodeId}
    (hlast : front.getLast? = some anchor) (hnd : (front ++ back).Nodup) :
    placeAfter anchor id (front ++ back) = front ++ id :: back := by
  obtain ⟨init, rfl⟩ := List.getLast?_eq_some_iff.1 hlast
  have hinit : anchor ∉ init := fun h => by
    rw [List.append_assoc] at hnd
    exact (List.nodup_append.1 hnd).2.2 anchor h anchor (by simp) rfl
  clear hlast hnd
  -- The search for the anchor passes all that stands before it.
  induction init with
  | nil => simp [placeAfter]
  | cons c cs ih =>
    have hc : c ≠ anchor := fun e => hinit (e ▸ List.mem_cons_self)
    have hcs : anchor ∉ cs := fun h => hinit (List.mem_cons_of_mem _ h)
    simpa [placeAfter, hc] using ih hcs

/-- From `s` to `t` a new node came to stand between `front` and `back` in the container. -/
structure Inserted (s t : Sheet) (container : NodeId) (front back : List NodeId)
    (content : Content) (source : Option Source) : Prop where
  linked : t.IsLinked
  size_eq : t.nodes.size = s.nodes.size + 1
  content_new : t.content ⟨s.nodes.size⟩ = content
  source_new : t.source ⟨s.nodes.size⟩ = source
  content_eq : ∀ id, s.Has id → t.content id = s.content id
  source_eq : ∀ id, s.Has id → t.source id = s.source id
  container_eq : t.children container = front ++ ⟨s.nodes.size⟩ :: back
  other_eq : ∀ id, id ≠ container → t.children id = s.children id

/-- What is not there is no child. -/
theorem IsLinked.not_mem_children (h : s.IsLinked) {id : NodeId} (hid : ¬ s.Has id) (q : NodeId) :
    id ∉ s.children q :=
  fun hq => hid (has_of_parent (h.mem_children_iff.1 hq))

/-- A new node that moves behind the last one of the front comes to stand between front and back. -/
theorem IsLinked.inserted (h : s.IsLinked) {container anchor : NodeId} {front back : List NodeId}
    (hc : s.Has container) (heq : s.children container = front ++ back)
    (hlast : front.getLast? = some anchor) (content : Content) (source : Option Source) :
    Inserted s ((s.create content source).2.move container ⟨s.nodes.size⟩
      (placeAfter anchor ⟨s.nodes.size⟩)) container front back content source := by
  have hlinked := h.create content source
  have hc' : (s.create content source).2.Has container := by simp [hc]
  -- The new node stands nowhere yet, so moving it takes it from nowhere.
  have hnew : ∀ q, (⟨s.nodes.size⟩ : NodeId) ∉ (s.create content source).2.children q := fun q => by
    rw [children_create]
    exact h.not_mem_children (not_has_new s) q
  constructor
  case linked =>
    exact hlinked.move hc' (by simp) (adds_placeAfter _ _)
  case size_eq =>
    simp
  case content_new =>
    rw [content_move, content_create, if_pos rfl]
  case source_new =>
    rw [source_move, source_create, if_pos rfl]
  case content_eq =>
    intro id hid
    rw [content_move, content_create, if_neg hid.ne_new]
  case source_eq =>
    intro id hid
    rw [source_move, source_create, if_neg hid.ne_new]
  case container_eq =>
    rw [children_move_self hlinked hc' (hnew _), children_create, heq]
    exact placeAfter_append _ hlast (heq ▸ h.nodup_children container)
  case other_eq =>
    intro id hid
    rw [children_move_of_not_mem hlinked hc' hid (hnew _), children_create]

/-! ## Putting a node in the place of another -/

section Replace

variable {old new p : NodeId}

/-- To put a node in the place of another is to move it there and to let the other go. -/
theorem replaceWith_eq (hne : old ≠ new) (hp : s.parent old = some p) :
    s.replaceWith old new = (s.move p new (·.replace old new)).setParent old none := by
  rw [replaceWith, if_neg hne, hp]
  rfl

theorem size_replaceWith (hne : old ≠ new) (hp : s.parent old = some p) :
    (s.replaceWith old new).nodes.size = s.nodes.size := by
  simp [replaceWith_eq hne hp]

theorem inputs_replaceWith (hne : old ≠ new) (hp : s.parent old = some p) :
    (s.replaceWith old new).inputs = s.inputs := by
  rw [replaceWith_eq hne hp]
  exact inputs_move s p new (·.replace old new)

theorem content_replaceWith (hne : old ≠ new) (hp : s.parent old = some p) (x : NodeId) :
    (s.replaceWith old new).content x = s.content x := by
  simp [replaceWith_eq hne hp]

theorem source_replaceWith (hne : old ≠ new) (hp : s.parent old = some p) (x : NodeId) :
    (s.replaceWith old new).source x = s.source x := by
  simp [replaceWith_eq hne hp]

/-- The node that goes hangs on nothing, and the new one where the other did. -/
theorem parent_replaceWith (hne : old ≠ new) (hp : s.parent old = some p) (hnew : s.Has new)
    (x : NodeId) :
    (s.replaceWith old new).parent x =
      if x = old then none else if x = new then some p else s.parent x := by
  rw [replaceWith_eq hne hp, parent_setParent _ _ (by simpa using has_of_parent hp),
    parent_move hnew]

/-- The new node leaves all children, and among those of the parent it replaces the one that goes.
-/
theorem children_replaceWith (h : s.IsLinked) (hne : old ≠ new) (hp : s.parent old = some p)
    (q : NodeId) :
    (s.replaceWith old new).children q =
      if q = p then ((s.children q).filter (· ≠ new)).replace old new
      else (s.children q).filter (· ≠ new) := by
  rw [replaceWith_eq hne hp, children_setParent, children_move h (h.has_parent hp)]

/-- In a list of different items, replacing one of them puts the other in its place. -/
theorem replace_eq_of_eq_append {l front back : List NodeId} (hl : l = front ++ old :: back)
    (hnd : l.Nodup) : l.replace old new = front ++ new :: back := by
  subst hl
  have hfront : old ∉ front := fun h => (List.nodup_append.1 hnd).2.2 old h old (by simp) rfl
  rw [List.replace_append_right hfront, List.replace_cons_self]

/-- In a list of different items, replacing one of them exchanges it for the other. -/
theorem mem_replace_iff {l : List NodeId} (hnd : l.Nodup) (hold : old ∈ l) {c : NodeId} :
    c ∈ l.replace old new ↔ c = new ∨ c ≠ old ∧ c ∈ l := by
  obtain ⟨front, back, rfl⟩ := List.append_of_mem hold
  obtain ⟨-, hback, hapart⟩ := List.nodup_append.1 hnd
  have holdfront : old ∉ front := fun hin => hapart old hin old List.mem_cons_self rfl
  have holdback : old ∉ back := (List.nodup_cons.1 hback).1
  rw [replace_eq_of_eq_append rfl hnd]
  by_cases hc : c = old
  · subst hc
    simp [holdfront, holdback]
  · simp only [List.mem_append, List.mem_cons, hc, ne_eq, not_false_eq_true, true_and, false_or]
    exact or_left_comm

/-- Items stay different if one is replaced by another that was not among them. -/
theorem nodup_replace {l : List NodeId} (hnd : l.Nodup) (hold : old ∈ l) (hnew : new ∉ l) :
    (l.replace old new).Nodup := by
  obtain ⟨front, back, rfl⟩ := List.append_of_mem hold
  obtain ⟨hfront, hback, hapart⟩ := List.nodup_append.1 hnd
  simp only [List.mem_append, List.mem_cons, not_or] at hnew
  rw [replace_eq_of_eq_append rfl hnd]
  refine List.nodup_append.2
    ⟨hfront, List.nodup_cons.2 ⟨hnew.2.2, (List.nodup_cons.1 hback).2⟩, ?_⟩
  intro a ha b hb
  rcases List.mem_cons.1 hb with rfl | hb
  · exact fun e => hnew.1 (e ▸ ha)
  · exact hapart a ha b (List.mem_cons_of_mem _ hb)

/-- The links agree when a node is put in the place of another. -/
theorem IsLinked.replaceWith (h : s.IsLinked) (hne : old ≠ new) (hp : s.parent old = some p)
    (hnew : s.Has new) : (s.replaceWith old new).IsLinked := by
  have hnd : ∀ q, ((s.children q).filter (· ≠ new)).Nodup := fun q =>
    (h.nodup_children q).filter _
  have hmem : ∀ {q c}, c ∈ (s.children q).filter (· ≠ new) ↔ s.parent c = some q ∧ c ≠ new :=
    fun {q c} => by rw [List.mem_filter, h.mem_children_iff, decide_eq_true_iff]
  have hold : old ∈ (s.children p).filter (· ≠ new) := hmem.2 ⟨hp, hne⟩
  constructor
  case mem_children_iff =>
    intro q c
    rw [children_replaceWith h hne hp, parent_replaceWith hne hp hnew]
    by_cases hq : q = p
    · subst hq
      rw [if_pos rfl, mem_replace_iff (hnd q) hold, hmem]
      by_cases hco : c = old
      · simp [hco, hne]
      · by_cases hcn : c = new <;> simp [hco, hcn, Ne.symm hne]
    · rw [if_neg hq, hmem]
      by_cases hco : c = old
      · simp [hco, hp, Ne.symm hq]
      · by_cases hcn : c = new <;> simp [hco, hcn, Ne.symm hne, Ne.symm hq]
  case nodup_children =>
    intro q
    rw [children_replaceWith h hne hp]
    split
    · rename_i hq
      subst hq
      exact nodup_replace (hnd q) hold fun hin => (hmem.1 hin).2 rfl
    · exact hnd q

/-- Numbers still grow from parent to child if the new node has a higher one than the parent. -/
theorem Ranked.replaceWith {rank : NodeId → Nat} (h : s.Ranked rank) (hne : old ≠ new)
    (hp : s.parent old = some p) (hnew : s.Has new) (hlt : rank p < rank new) :
    (s.replaceWith old new).Ranked rank := by
  intro c q hq
  rw [parent_replaceWith hne hp hnew] at hq
  split at hq
  · cases hq
  · split at hq
    · rename_i hc
      rw [hc, ← Option.some.inj hq]
      exact hlt
    · exact h hq

/-- A node may take the place of one that does not hang on it. -/
theorem IsForest.replaceWith (h : s.IsForest) (hne : old ≠ new) (hp : s.parent old = some p)
    (hnew : s.Has new) (hout : ¬ s.HangsOn old new) : (s.replaceWith old new).IsForest := by
  have hmoved : (s.move p new (· ++ [new])).IsForest :=
    h.move (h.has_parent hp) hnew (fun hpn => hout (hpn.head hp)) (adds_append new)
  -- The parents are those after a move to the place's parent, but for the node that goes out.
  have hranked : (s.replaceWith old new).Ranked (s.move p new (· ++ [new])).depth := by
    intro c q hq
    refine hmoved.ranked_depth ?_
    rw [parent_replaceWith hne hp hnew] at hq
    rw [parent_move hnew]
    split at hq
    · cases hq
    · exact hq
  exact .of_ranked (h.toIsLinked.replaceWith hne hp hnew) hranked

end Replace

end ClassRules.Sheet
