import ClassRules.Lowering
import ClassRules.Proofs.Sheet.Layout

/-!
# Sheets that were read

## What this module delivers

- `Sheet.read`: the sheet of a list of texts. The sheets that `processInputs` lowers are such.
- `IsRooted`: a forest whose first node is the root of the text. `IsSound`: one in which, besides,
  only nodes that may have children have some.
- `isSound_read`, `hangsOn_root_read`: sheets that were read are so, and all their nodes belong to
  the text.
-/

set_option autoImplicit false

namespace ClassRules

namespace Sheet

open ClassRules.Tree

/-- The sheet of some texts, with whatever errors. -/
def read (texts : List (Input × String)) : Sheet :=
  texts.foldl (fun s text => (s.addText text.1 text.2).2) empty

/-- A forest in which the root stands under no other node. -/
structure IsRooted (s : Sheet) : Prop extends s.IsForest where
  has_root : s.Has root
  parent_root : s.parent root = none

/-- A forest with a root, in which only nodes that may have children have some. -/
structure IsSound (s : Sheet) : Prop extends s.IsForest where
  has_root : s.Has root
  parent_root : s.parent root = none
  content_root : s.content root = .root
  carries : ∀ id, s.children id ≠ [] → (s.content id).carries = true

theorem IsSound.isRooted {s : Sheet} (h : s.IsSound) : s.IsRooted :=
  ⟨h.toIsForest, h.has_root, h.parent_root⟩

/-- The inputs of a sheet do not matter to its nodes. -/
theorem IsSound.withInputs {s : Sheet} (h : s.IsSound) (inputs : Array Input) :
    IsSound ⟨s.nodes, inputs⟩ where
  mem_children_iff := h.mem_children_iff
  nodup_children := h.nodup_children
  wf_parent := h.wf_parent
  has_root := h.has_root
  parent_root := h.parent_root
  content_root := h.content_root
  carries := h.carries

/-- What belongs to the text is a node of the sheet. -/
theorem IsRooted.has_of_hangsOn {s : Sheet} (h : s.IsRooted) {id : NodeId}
    (hid : s.HangsOn id root) : s.Has id := by
  rcases HangsOn.iff_parent.1 hid with rfl | ⟨p, hp, -⟩
  · exact h.has_root
  · exact has_of_parent hp

theorem IsRooted.isAttached_iff {s : Sheet} (h : s.IsRooted) {id : NodeId} :
    s.isAttached id = true ↔ s.HangsOn id root := by
  constructor
  · intro hatt
    rw [isAttached, decide_eq_true_eq] at hatt
    exact hangsOn_of_mem_lineageTo hatt
  · intro hon
    exact (h.toIsForest.isAttached_iff (h.has_of_hangsOn hon)).2 hon

theorem IsSound.has_of_hangsOn {s : Sheet} (h : s.IsSound) {id : NodeId}
    (hid : s.HangsOn id root) : s.Has id :=
  h.isRooted.has_of_hangsOn hid

theorem IsSound.isAttached_iff {s : Sheet} (h : s.IsSound) {id : NodeId} :
    s.isAttached id = true ↔ s.HangsOn id root :=
  h.isRooted.isAttached_iff

/-- All nodes but the root have a parent. -/
def IsWhole (s : Sheet) : Prop :=
  ∀ id, s.Has id → id ≠ root → ∃ p, s.parent id = some p

variable {s : Sheet}

/-- Then all nodes hang on the root. -/
theorem IsWhole.hangsOn_root (hw : s.IsWhole) (h : s.IsForest) {id : NodeId} (hid : s.Has id) :
    s.HangsOn id root := by
  induction id using h.wf_parent.induction with
  | _ id ih =>
    by_cases hroot : id = root
    · rw [hroot]
      exact .refl s root
    · obtain ⟨p, hp⟩ := hw id hid hroot
      exact .head hp (ih p hp (h.has_parent hp))

/-! ## Adding trees -/

section AddForest

/-- Trees of any kind may be added under the root. -/
theorem IsRooted.addForest (h : s.IsRooted) (trees : List Tree) :
    (s.addForest root trees).IsRooted := by
  refine ⟨h.toIsForest.addForest trees h.has_root, h.has_root.mono ?_, ?_⟩
  · exact Nat.le.intro (size_addForest ..).symm
  · rw [parent_addForest_of_has trees h.has_root, h.parent_root]

variable {trees : List Tree}

theorem IsSound.addForest (h : s.IsSound) (ht : EverywhereIn Carries trees) :
    (s.addForest root trees).IsSound := by
  refine { h.isRooted.addForest trees with content_root := ?_, carries := ?_ }
  · rw [content_addForest_of_has trees h.has_root, h.content_root]
  · intro id hne
    rcases has_addForest root trees (has_of_mem_children (List.head_mem hne)) with
      hold | ⟨i, n, rfl, hn⟩
    · rw [children_addForest_of_has trees h.has_root hold] at hne
      rw [content_addForest_of_has trees hold]
      split at hne
      · rename_i hroot
        rw [hroot, h.content_root]
        rfl
      · exact h.carries id hne
    · rw [children, node_addForest_new root trees hn] at hne
      rw [Sheet.content, node_addForest_new root trees hn]
      exact carries_layOutAll root s.nodes.size trees ht n (List.mem_of_getElem? hn) hne

theorem IsWhole.addForest (h : s.IsWhole) : (s.addForest root trees).IsWhole := by
  intro id hid hroot
  rcases has_addForest root trees hid with hold | ⟨i, n, rfl, hn⟩
  · rw [parent_addForest_of_has trees hold]
    exact h id hold hroot
  · rw [Sheet.parent, node_addForest_new root trees hn]
    rcases (laid_newNodes root trees s).parent_cases i n hn with
      ⟨hp, -⟩ | ⟨j, -, -, -, hp, -⟩
    · exact ⟨root, hp⟩
    · exact ⟨⟨s.nodes.size + j⟩, hp⟩

end AddForest

/-! ## Reading -/

theorem isSound_empty : empty.IsSound := by
  have hnode : ∀ id : NodeId, empty.node id = ⟨.root, none, none, []⟩ := fun id => by
    rcases id with ⟨_ | i⟩ <;> rfl
  have hchildren : ∀ id : NodeId, empty.children id = [] := fun id => by rw [children, hnode]
  have hparent : ∀ id : NodeId, empty.parent id = none := fun id => by rw [Sheet.parent, hnode]
  have hlinked : empty.IsLinked :=
    ⟨by simp [hchildren, hparent], fun p => hchildren p ▸ List.nodup_nil⟩
  have hranked : empty.Ranked fun _ => 0 := fun c p hp => by
    rw [hparent] at hp
    cases hp
  exact { IsForest.of_ranked hlinked hranked with
    has_root := Nat.zero_lt_one, parent_root := hparent root, content_root := rfl,
    carries := fun id hne => absurd (hchildren id) hne }

theorem isWhole_empty : empty.IsWhole := by
  rintro ⟨i⟩ hi hroot
  obtain rfl : i = 0 := Nat.lt_one_iff.1 hi
  exact absurd rfl hroot

/-- What a text adds leaves the sheet sound and whole. -/
theorem addText_sound (hs : s.IsSound) (hw : s.IsWhole) (input : Input) (text : String) :
    (s.addText input text).2.IsSound ∧ (s.addText input text).2.IsWhole := by
  exact ⟨(hs.withInputs _).addForest (parse_carried _ text),
    IsWhole.addForest (s := (s.addInput input).2) hw⟩

theorem read_sound (texts : List (Input × String)) :
    (read texts).IsSound ∧ (read texts).IsWhole := by
  unfold read
  generalize hs : empty = s
  have hsound : s.IsSound := hs ▸ isSound_empty
  have hwhole : s.IsWhole := hs ▸ isWhole_empty
  clear hs
  induction texts generalizing s with
  | nil => exact ⟨hsound, hwhole⟩
  | cons text texts ih =>
    obtain ⟨hsound', hwhole'⟩ := addText_sound hsound hwhole text.1 text.2
    exact ih _ hsound' hwhole'

theorem isSound_read (texts : List (Input × String)) : (read texts).IsSound :=
  (read_sound texts).1

theorem isRooted_read (texts : List (Input × String)) : (read texts).IsRooted :=
  (isSound_read texts).isRooted

theorem hangsOn_root_read (texts : List (Input × String)) {id : NodeId}
    (hid : (read texts).Has id) : (read texts).HangsOn id root :=
  (read_sound texts).2.hangsOn_root (isSound_read texts).toIsForest hid

/-- The sheet that checked texts add up to is the one that is read from them. -/
theorem eq_read_of_addChecked {texts : List (Input × String)}
    (h : texts.foldlM (fun s text => s.addChecked text.1 text.2) empty = .ok s) :
    s = read texts := by
  unfold read
  generalize empty = t at h ⊢
  induction texts generalizing t with
  | nil => exact (Except.ok.inj h).symm
  | cons text texts ih =>
    rw [List.foldlM_cons] at h
    rw [List.foldl_cons]
    cases hadd : t.addText text.1 text.2 with
    | mk errors u =>
      cases errors with
      | nil =>
        simp only [addChecked, hadd] at h
        exact ih u h
      | cons error errors =>
        simp only [addChecked, hadd] at h
        cases h

end Sheet

end ClassRules
