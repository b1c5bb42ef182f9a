import ClassRules.Proofs.Sheet.Trees

/-!
# Moves in the text

A move changes two lists of children. In the text, which is the walk over all nodes from the root,
it takes out a node with all that stands below it, and puts that in again at one place, whole.

## What this module delivers

- `Sheet.block`: a node with the nodes below it, in document order. `Sheet.blockWithout`: what is
  left of a block where another one is taken out.
- `block_detach`: the block of any other node after a node was taken out.
- `Swaps`: in a list, one part gave way to another. `PastedInto`: two forests differ in the children
  of one node only. `PastedInto.swaps_block`: then its block gives way in every block that it is
  part of.
- `IsRooted.append_swaps`, `IsRooted.insertAfter_swaps`, `IsRooted.replaceWith_swaps`: the places
  where a block is put in again. `IsRooted.block_remove`: removal.
- `moves_cut_and_paste`: all four.
-/

set_option autoImplicit false

namespace ClassRules.Sheet

variable {s t u : Sheet}

/-! ## Blocks -/

/-- A node and the nodes below it, in document order. -/
def block (s : Sheet) (id : NodeId) : List NodeId :=
  id :: s.descendants id

/-- What is left of the block of `x` where the block of `id` is taken out. -/
def blockWithout (s : Sheet) (id x : NodeId) : List NodeId :=
  (s.block x).filter (· ∉ s.block id)

theorem IsForest.block_eq (h : s.IsForest) (id : NodeId) :
    s.block id = id :: (s.children id).flatMap s.block := by
  rw [block, h.descendants_eq]
  rfl

theorem IsForest.mem_block_iff (h : s.IsForest) {id x : NodeId} :
    x ∈ s.block id ↔ s.HangsOn x id := by
  rw [block, List.mem_cons, h.mem_descendants_iff]
  constructor
  · rintro (rfl | ⟨-, hx⟩)
    · exact .refl s x
    · exact hx
  · intro hx
    by_cases heq : x = id
    · exact .inl heq
    · exact .inr ⟨heq, hx⟩

theorem mem_block_self (s : Sheet) (id : NodeId) : id ∈ s.block id :=
  List.mem_cons_self

/-- A node is no part of the blocks of its children. -/
theorem IsForest.not_mem_block_child (h : s.IsForest) {c p : NodeId} (hc : c ∈ s.children p) :
    p ∉ s.block c := by
  rw [h.mem_block_iff]
  exact h.not_hangsOn_child (h.mem_children_iff.1 hc)

/-- Where the parent of a node is no part of a block, the node is none either, unless the block is
its own. -/
theorem IsForest.not_mem_block_of_parent (h : s.IsForest) {c p id : NodeId}
    (hp : s.parent c = some p) (hne : c ≠ id) (hout : p ∉ s.block id) : c ∉ s.block id := by
  rw [h.mem_block_iff] at hout ⊢
  rw [HangsOn.iff_of_parent hp]
  rintro (heq | hon)
  · exact hne heq
  · exact hout hon

/-- A block is the same in two forests that agree on the children of the nodes in it. -/
theorem IsForest.block_congr (hs : s.IsForest) (ht : t.IsForest) {id : NodeId}
    (heq : ∀ x ∈ s.block id, t.children x = s.children x) : t.block id = s.block id := by
  induction id using hs.children_induction with
  | step id ih =>
    rw [ht.block_eq, heq id (s.mem_block_self id), hs.block_eq]
    congr 1
    apply List.flatMap_congr
    intro c hc
    apply ih c hc
    intro x hx
    apply heq
    rw [hs.block_eq]
    exact List.mem_cons_of_mem _ (List.mem_flatMap.2 ⟨c, hc, hx⟩)

/-! ## Taking a block out -/

/-- The block of a node that is taken out stays whole. -/
theorem IsForest.block_detach_self (h : s.IsForest) (id : NodeId) :
    (s.detach id).block id = s.block id := by
  apply h.block_congr (h.detach id)
  intro x hx
  apply children_detach_of_not_mem h.toIsLinked
  intro hmem
  exact h.not_mem_block_child hmem hx

/-- The block of a node outside loses what it has of the block that is taken out. -/
theorem IsForest.block_detach (h : s.IsForest) {id x : NodeId} (hx : x ∉ s.block id) :
    (s.detach id).block x = s.blockWithout id x := by
  have hwithout : ∀ x, s.blockWithout id x = (s.block x).filter (· ∉ s.block id) := fun _ => rfl
  induction x using h.children_induction with
  | step x ih =>
    rw [(h.detach id).block_eq, children_detach h.toIsLinked, hwithout, h.block_eq x,
      List.filter_cons_of_pos (by simpa using hx), List.filter_flatMap]
    congr 1
    have hp : ∀ c ∈ s.children x, s.parent c = some x := fun c hc => h.mem_children_iff.1 hc
    -- Child by child: the node itself goes with all of its block, and of the others the rest stays.
    generalize s.children x = cs at ih hp
    induction cs with
    | nil => rfl
    | cons c cs ihcs =>
      have hrest := ihcs (fun d hd => ih d (List.mem_cons_of_mem c hd))
        (fun d hd => hp d (List.mem_cons_of_mem c hd))
      rw [List.flatMap_cons]
      by_cases hc : c = id
      · have hgone : (s.block c).filter (· ∉ s.block id) = [] := by
          rw [List.filter_eq_nil_iff, hc]
          simp
        rw [List.filter_cons_of_neg (by simpa using hc), hrest, hgone, List.nil_append]
      · have hcout : c ∉ s.block id :=
          h.not_mem_block_of_parent (hp c List.mem_cons_self) hc hx
        rw [List.filter_cons_of_pos (by simpa using hc), List.flatMap_cons, hrest,
          ih c List.mem_cons_self hcout, hwithout]

/-- A node that is in a block and not in the one taken out is still in that block. -/
theorem IsForest.hangsOn_detach (h : s.IsForest) {id x y : NodeId} (hx : x ∉ s.block id)
    (hy : y ∉ s.block id) (hon : s.HangsOn y x) : (s.detach id).HangsOn y x := by
  rw [← (h.detach id).mem_block_iff, h.block_detach hx, blockWithout, List.mem_filter]
  exact ⟨h.mem_block_iff.2 hon, decide_eq_true hy⟩

/-! ## Putting a block in -/

/-- From `l` to `l'` the part `a` gave way to `b`, and what stands before and behind it stayed. -/
def Swaps (l l' a b : List NodeId) : Prop :=
  ∃ front back, l = front ++ a ++ back ∧ l' = front ++ b ++ back

theorem Swaps.refl (a b : List NodeId) : Swaps a b a b :=
  ⟨[], [], by simp, by simp⟩

theorem Swaps.trans {l l' a b c d : List NodeId} (h : Swaps l l' a b) (h' : Swaps a b c d) :
    Swaps l l' c d := by
  obtain ⟨front, back, rfl, rfl⟩ := h
  obtain ⟨front', back', rfl, rfl⟩ := h'
  exact ⟨front ++ front', back' ++ back, by simp, by simp⟩

/-- Two forests that differ in the children of one node only. -/
structure PastedInto (u t : Sheet) (p : NodeId) : Prop where
  before : u.IsForest
  after : t.IsForest
  children_eq : ∀ q, q ≠ p → t.children q = u.children q

namespace PastedInto

variable {p : NodeId} (h : PastedInto u t p)
include h

/-- Below the node that has got other children, the blocks are those that were there before. -/
theorem block_child {c : NodeId} (hc : c ∈ t.children p) : t.block c = u.block c := by
  refine (h.after.block_congr h.before fun x hx => (h.children_eq x ?_).symm).symm
  rintro rfl
  exact h.after.not_mem_block_child hc hx

theorem flatMap_block {cs : List NodeId} (hcs : ∀ c ∈ cs, c ∈ t.children p) :
    cs.flatMap t.block = cs.flatMap u.block :=
  List.flatMap_congr fun c hc => h.block_child (hcs c hc)

/-- A block that the node is not part of stays. -/
theorem block_eq_of_not_mem {x : NodeId} (hx : p ∉ u.block x) : t.block x = u.block x := by
  refine h.before.block_congr h.after fun y hy => h.children_eq y ?_
  rintro rfl
  exact hx hy

/-- In every block that the node is part of, its own block gives way to its new one. -/
theorem swaps_block {x : NodeId} (hon : u.HangsOn p x) :
    Swaps (u.block x) (t.block x) (u.block p) (t.block p) := by
  -- The induction goes up from the node, past one list of siblings at each step.
  induction hon with
  | refl => exact .refl _ _
  | @tail y x hpy hyx ih =>
    refine .trans ?_ ih
    have hne : x ≠ p := by
      rintro rfl
      exact h.before.not_hangsOn_child hyx hpy
    have hmem : y ∈ u.children x := h.before.mem_children_iff.2 hyx
    -- The way up from the node passes one of the siblings only.
    have hother : ∀ c ∈ u.children x, c ≠ y → t.block c = u.block c := by
      intro c hc hcy
      apply h.block_eq_of_not_mem
      rw [h.before.mem_block_iff]
      intro hpc
      exact hcy (h.before.eq_of_hangsOn_siblings (h.before.mem_children_iff.1 hc) hyx hpc hpy)
    obtain ⟨front, back, hchildren⟩ := List.append_of_mem hmem
    have hnd := h.before.nodup_children x
    rw [hchildren] at hother hnd
    obtain ⟨-, hback, hfront⟩ := List.nodup_append.1 hnd
    have hfrontEq : front.flatMap t.block = front.flatMap u.block :=
      List.flatMap_congr fun c hc =>
        hother c (List.mem_append_left _ hc) (hfront c hc y List.mem_cons_self)
    have hbackEq : back.flatMap t.block = back.flatMap u.block := by
      apply List.flatMap_congr
      intro c hc
      apply hother c (List.mem_append_right _ (List.mem_cons_of_mem y hc))
      rintro rfl
      exact (List.nodup_cons.1 hback).1 hc
    refine ⟨x :: front.flatMap u.block, back.flatMap u.block, ?_, ?_⟩
    · rw [h.before.block_eq, hchildren]
      simp
    · rw [h.after.block_eq, h.children_eq x hne, hchildren]
      simp [hfrontEq, hbackEq]

/-- Where the new children stand in the place of others, so do their blocks. -/
theorem swaps_children {front a b back : List NodeId} (hu : u.children p = front ++ a ++ back)
    (ht : t.children p = front ++ b ++ back) :
    Swaps (u.block p) (t.block p) (a.flatMap u.block) (b.flatMap u.block) := by
  refine ⟨p :: front.flatMap u.block, back.flatMap u.block, ?_, ?_⟩
  · rw [h.before.block_eq, hu]
    simp
  · rw [h.after.block_eq, h.flatMap_block fun c hc => hc, ht]
    simp

/-- A node that comes to stand behind all children comes to stand behind all of the block. -/
theorem block_of_concat {id : NodeId} (ht : t.children p = u.children p ++ [id]) :
    t.block p = u.block p ++ u.block id := by
  rw [h.after.block_eq, h.flatMap_block fun c hc => hc, ht, h.before.block_eq]
  simp

end PastedInto

/-- A node that is taken out and put in somewhere. -/
theorem IsForest.pastedInto_move (h : s.IsForest) {p id : NodeId} (hp : s.Has p) (hid : s.Has id)
    (hout : p ∉ s.block id) {place : List NodeId → List NodeId} (hplace : Adds id place) :
    PastedInto (s.detach id) (s.move p id place) p where
  before := h.detach id
  after := h.move hp hid (fun hon => hout (h.mem_block_iff.2 hon)) hplace
  children_eq q hq := by
    rw [children_move h.toIsLinked hp, if_neg hq, children_detach h.toIsLinked]

theorem children_move_detach (h : s.IsLinked) {p : NodeId} (hp : s.Has p) (id : NodeId)
    (place : List NodeId → List NodeId) :
    (s.move p id place).children p = place ((s.detach id).children p) := by
  rw [children_move h hp, if_pos rfl, children_detach h]

theorem placeAfter_of_not_mem {anchor : NodeId} (id : NodeId) {l : List NodeId}
    (hl : anchor ∉ l) : placeAfter anchor id l = l ++ [id] := by
  induction l with
  | nil => rfl
  | cons c cs ih =>
    obtain ⟨hc, hcs⟩ := not_or.1 (mt List.mem_cons.2 hl)
    rw [placeAfter, if_neg (Ne.symm hc), ih hcs, List.cons_append]

/-! ## The text after a move -/

namespace IsRooted

variable (h : s.IsRooted) {p id : NodeId}
include h

/-- A node that something attached does not hang on is not above the root either. -/
theorem root_not_mem_block (hp : s.HangsOn p root) (hout : p ∉ s.block id) :
    root ∉ s.block id := by
  rw [h.mem_block_iff] at hout ⊢
  exact fun hroot => hout (hp.trans hroot)

/-- When a node was put in below `p`, the text has the block of `p` that it has got in the place of
what was left of the old one. -/
theorem swaps_root (hp : s.HangsOn p root) (hout : p ∉ s.block id)
    (hpaste : PastedInto (s.detach id) t p) :
    Swaps (s.blockWithout id root) (t.block root) (s.blockWithout id p) (t.block p) := by
  have hroot := h.root_not_mem_block hp hout
  rw [← h.block_detach hroot, ← h.block_detach hout]
  exact hpaste.swaps_block (h.hangsOn_detach hroot hout hp)

/-- When a node was put in behind all children of `p`, its block stands behind what was left of the
block of `p`. -/
theorem concat_swaps (hp : s.HangsOn p root) (hid : s.Has id) (hout : p ∉ s.block id)
    {place : List NodeId → List NodeId} (hplace : Adds id place)
    (hlast : place ((s.detach id).children p) = (s.detach id).children p ++ [id]) :
    Swaps (s.blockWithout id root) ((s.move p id place).block root) (s.blockWithout id p)
      (s.blockWithout id p ++ s.block id) := by
  have hhas := h.has_of_hangsOn hp
  have hpaste := h.pastedInto_move hhas hid hout hplace
  have hblock := hpaste.block_of_concat
    ((children_move_detach h.toIsLinked hhas id place).trans hlast)
  rw [h.block_detach hout, h.block_detach_self] at hblock
  rw [← hblock]
  exact h.swaps_root hp hout hpaste

/-- When a node was put in behind a child of `p`, its block stands behind what was left of the block
of that child. -/
theorem behind_swaps (hp : s.HangsOn p root) (hid : s.Has id) (hout : p ∉ s.block id)
    {anchor : NodeId} (hne : id ≠ anchor) (hanchor : anchor ∈ s.children p) :
    Swaps (s.blockWithout id root) ((s.move p id (placeAfter anchor id)).block root)
      (s.blockWithout id anchor) (s.blockWithout id anchor ++ s.block id) := by
  have hhas := h.has_of_hangsOn hp
  have hpaste := h.pastedInto_move hhas hid hout (adds_placeAfter anchor id)
  have houtAnchor : anchor ∉ s.block id :=
    h.not_mem_block_of_parent (h.mem_children_iff.1 hanchor) (Ne.symm hne) hout
  have hmem : anchor ∈ (s.detach id).children p := by
    rw [children_detach h.toIsLinked, List.mem_filter]
    exact ⟨hanchor, decide_eq_true (Ne.symm hne)⟩
  obtain ⟨front, back, hsplit⟩ := List.append_of_mem hmem
  have hbefore : (s.detach id).children p = front ++ [anchor] ++ back := by simp [hsplit]
  have hafter : (s.move p id (placeAfter anchor id)).children p =
      front ++ [anchor, id] ++ back := by
    have hnd := (h.toIsLinked.detach id).nodup_children p
    rw [children_move_detach h.toIsLinked hhas, hbefore, placeAfter_append id (by simp)
      (hbefore ▸ hnd)]
    simp
  -- The block of the anchor gives way to itself and the block of the node.
  have hchildren := hpaste.swaps_children hbefore hafter
  rw [h.block_detach hout] at hchildren
  simpa [h.block_detach houtAnchor, h.block_detach_self] using
    (h.swaps_root hp hout hpaste).trans hchildren

theorem append_swaps (hp : s.isAttached p = true) (hid : s.Has id)
    (hok : s.append p id = .ok t) :
    Swaps (s.blockWithout id root) (t.block root) (s.blockWithout id p)
      (s.blockWithout id p ++ s.block id) := by
  have hon := h.isAttached_iff.1 hp
  rw [append] at hok
  split at hok
  · cases hok
  rename_i hout
  rw [h.isAncestorOrSelf_iff (h.has_of_hangsOn hon), ← h.mem_block_iff] at hout
  obtain rfl : s.move p id (· ++ [id]) = t := Except.ok.inj hok
  exact h.concat_swaps hon hid hout (adds_append id) rfl

theorem insertAfter_swaps {anchor : NodeId} (hp : s.isAttached p = true) (hid : s.Has id)
    (hne : id ≠ anchor) (hok : s.insertAfter p anchor id = .ok t) :
    let before := if anchor ∈ s.children p then anchor else p
    Swaps (s.blockWithout id root) (t.block root) (s.blockWithout id before)
      (s.blockWithout id before ++ s.block id) := by
  have hon := h.isAttached_iff.1 hp
  rw [insertAfter, if_neg hne] at hok
  split at hok
  · cases hok
  rename_i hout
  rw [h.isAncestorOrSelf_iff (h.has_of_hangsOn hon), ← h.mem_block_iff] at hout
  obtain rfl : s.move p id (placeAfter anchor id) = t := Except.ok.inj hok
  dsimp only
  split
  · rename_i hanchor
    exact h.behind_swaps hon hid hout hne hanchor
  · rename_i hanchor
    -- The search for the anchor comes to the end of the children.
    have hnone : anchor ∉ (s.detach id).children p := by
      rw [children_detach h.toIsLinked]
      exact fun hmem => hanchor (List.mem_filter.1 hmem).1
    exact h.concat_swaps hon hid hout (adds_placeAfter anchor id) (placeAfter_of_not_mem id hnone)

theorem replaceWith_swaps {old new : NodeId} (hold : s.isAttached old = true)
    (hroot : old ≠ root) (hnew : s.Has new) (hout : ¬ s.HangsOn old new) :
    Swaps (s.blockWithout new root) ((s.replaceWith old new).block root)
      (s.blockWithout new old) (s.block new) := by
  have hon := h.isAttached_iff.1 hold
  obtain ⟨p, hp, hpon⟩ := (HangsOn.iff_parent.1 hon).resolve_left hroot
  have hne : old ≠ new := fun heq => hout (heq ▸ .refl s old)
  have houtOld : old ∉ s.block new := mt h.mem_block_iff.1 hout
  have houtParent : p ∉ s.block new := fun hmem =>
    hout ((h.mem_block_iff.1 hmem).head hp)
  have hchildren := children_replaceWith h.toIsLinked hne hp
  have hpaste : PastedInto (s.detach new) (s.replaceWith old new) p := by
    refine ⟨h.detach new, h.replaceWith hne hp hnew hout, fun q hq => ?_⟩
    rw [hchildren, if_neg hq, children_detach h.toIsLinked]
  have hmem : old ∈ (s.detach new).children p := by
    rw [children_detach h.toIsLinked, List.mem_filter]
    exact ⟨h.mem_children_iff.2 hp, decide_eq_true hne⟩
  obtain ⟨front, back, hsplit⟩ := List.append_of_mem hmem
  have hbefore : (s.detach new).children p = front ++ [old] ++ back := by simp [hsplit]
  have hafter : (s.replaceWith old new).children p = front ++ [new] ++ back := by
    rw [hchildren, if_pos rfl, ← children_detach h.toIsLinked,
      replace_eq_of_eq_append hsplit ((h.toIsLinked.detach new).nodup_children p)]
    simp
  have hswap := hpaste.swaps_children hbefore hafter
  rw [h.block_detach houtParent] at hswap
  simpa [h.block_detach houtOld, h.block_detach_self] using
    (h.swaps_root hpon houtParent hpaste).trans hswap

theorem block_remove (hroot : id ≠ root) :
    (s.remove id).block root = s.blockWithout id root := by
  apply h.block_detach
  rw [h.mem_block_iff, HangsOn.iff_eq_of_parent_none h.parent_root]
  exact Ne.symm hroot

end IsRooted

/-- In a forest whose root has no parent, a move takes the block of a node out of the text and puts
it in again whole: behind what is left of the block of the new parent, behind what is left of the
block of the anchor, or behind the container's if the anchor is no child of it, and in the place of
what is left of the block of the node that goes out. A removal takes it out. No node stands in the
text twice, so this leaves one place. -/
theorem moves_cut_and_paste (h : s.IsRooted) :
    (∀ parent id t, s.isAttached parent = true → s.Has id → s.append parent id = .ok t →
      Swaps (s.blockWithout id root) (t.block root) (s.blockWithout id parent)
        (s.blockWithout id parent ++ s.block id)) ∧
    (∀ container anchor id t, s.isAttached container = true → s.Has id → id ≠ anchor →
      s.insertAfter container anchor id = .ok t →
      let before := if anchor ∈ s.children container then anchor else container
      Swaps (s.blockWithout id root) (t.block root) (s.blockWithout id before)
        (s.blockWithout id before ++ s.block id)) ∧
    (∀ old new, s.isAttached old = true → old ≠ root → s.Has new → ¬ s.HangsOn old new →
      Swaps (s.blockWithout new root) ((s.replaceWith old new).block root)
        (s.blockWithout new old) (s.block new)) ∧
    ∀ id, id ≠ root → (s.remove id).block root = s.blockWithout id root := by
  refine ⟨?append, ?insertAfter, ?replaceWith, ?remove⟩
  case append => exact fun parent id t hp hid hok => h.append_swaps hp hid hok
  case insertAfter =>
    exact fun container anchor id t hp hid hne hok => h.insertAfter_swaps hp hid hne hok
  case replaceWith =>
    exact fun old new hold hroot hnew hout => h.replaceWith_swaps hold hroot hnew hout
  case remove => exact fun id hroot => h.block_remove hroot

/-- For instance, the second of two rules in a rule comes to stand behind that rule, with the rule
in it; and it takes the place of the rule that it stands in, which goes out with the first one. -/
theorem moves_cut_and_paste_rules :
    let s := read [(.ofFile "a.css", "a { b {} c { d {} } } e {}")]
    s.IsRooted ∧
    (∃ t, s.insertAfter root ⟨1⟩ ⟨3⟩ = .ok t ∧ Swaps [root, ⟨1⟩, ⟨2⟩, ⟨5⟩] (t.block root)
      [⟨1⟩, ⟨2⟩] [⟨1⟩, ⟨2⟩, ⟨3⟩, ⟨4⟩]) ∧
    Swaps [root, ⟨1⟩, ⟨2⟩, ⟨5⟩] ((s.replaceWith ⟨1⟩ ⟨3⟩).block root) [⟨1⟩, ⟨2⟩] [⟨3⟩, ⟨4⟩] := by
  intro s
  have hs : s.IsRooted := isRooted_read _
  have hroot : s.isAttached root = true := by decide +kernel
  have hrule : s.isAttached ⟨1⟩ = true := by decide +kernel
  have hhas : s.Has ⟨3⟩ := by decide +kernel
  have hout : ¬ s.HangsOn ⟨1⟩ ⟨3⟩ := by
    rw [← hs.isAncestorOrSelf_iff (by decide +kernel)]
    decide +kernel
  have hblock : s.block ⟨3⟩ = [⟨3⟩, ⟨4⟩] := by decide +kernel
  have hleft : s.blockWithout ⟨3⟩ ⟨1⟩ = [⟨1⟩, ⟨2⟩] ∧
      s.blockWithout ⟨3⟩ root = [root, ⟨1⟩, ⟨2⟩, ⟨5⟩] := by decide +kernel
  have hanchor : (⟨1⟩ : NodeId) ∈ s.children root := by decide +kernel
  obtain ⟨-, hinsert, hreplace, -⟩ := moves_cut_and_paste hs
  refine ⟨hs, ?_, ?_⟩
  · have hok : s.insertAfter root ⟨1⟩ ⟨3⟩ = .ok (s.move root ⟨3⟩ (placeAfter ⟨1⟩ ⟨3⟩)) := by
      refine (if_neg (by decide)).trans (if_neg ?_)
      decide +kernel
    refine ⟨_, hok, ?_⟩
    have hswap := hinsert root ⟨1⟩ ⟨3⟩ _ hroot hhas (by decide) hok
    simp only [if_pos hanchor, hblock, hleft] at hswap
    exact hswap
  · have hswap := hreplace ⟨1⟩ ⟨3⟩ hrule (by decide) hhas hout
    rwa [hblock, hleft.1, hleft.2] at hswap

end ClassRules.Sheet
