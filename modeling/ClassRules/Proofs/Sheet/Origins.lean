import ClassRules.Proofs.Sheet.Read
import ClassRules.Proofs.Tree.Order

/-!
# Where the nodes of a sheet start

## What this module delivers

- `Sheet.IsTraced`: all nodes but the root come from inputs of the sheet, no two from the same
  place.
- `isTraced_read`: the nodes of a sheet that was read are so. The nodes of each text start at
  different bytes, and the input of a text is new when its nodes are added.
-/

set_option autoImplicit false

namespace ClassRules.Sheet

open ClassRules.Tree

variable {s : Sheet}

mutual

/-- Nodes made for a tree say what those of the tree say, and start where they do. -/
theorem marks_layOut (parent : NodeId) (next : Nat) : ∀ t : Tree,
    (layOut parent next t).map (fun n => (n.content, n.source.map Source.origin)) = marks t
  | .node content source children => by
    rw [layOut, List.map_cons, marks_layOutAll ⟨next⟩ (next + 1) children, marks]

theorem marks_layOutAll (parent : NodeId) (next : Nat) : ∀ ts : List Tree,
    (layOutAll parent next ts).map (fun n => (n.content, n.source.map Source.origin)) = marksIn ts
  | [] => rfl
  | t :: ts => by
    rw [layOutAll, List.map_append, marks_layOut parent next t,
      marks_layOutAll parent (next + t.size) ts, marksIn]

end

/-- All nodes but the root come from inputs of the sheet, no two from the same place, and none of
them says that it is a root. -/
structure IsTraced (s : Sheet) : Prop where
  source_root : s.source root = none
  exists_source : ∀ id, s.Has id → id ≠ root →
    ∃ source, s.source id = some source ∧ source.input.index < s.inputs.size
  source_inj : ∀ a b, s.Has a → s.Has b → s.source a = s.source b → a = b
  content_ne : ∀ id, s.Has id → id ≠ root → s.content id ≠ .root

/-- A source of a node is in one of the inputs. -/
theorem IsTraced.input_lt (h : s.IsTraced) {id : NodeId} {source : Source} (hid : s.Has id)
    (hsource : s.source id = some source) : source.input.index < s.inputs.size := by
  by_cases hne : id = root
  · rw [hne, h.source_root] at hsource
    cases hsource
  · obtain ⟨source', hsource', hlt⟩ := h.exists_source id hid hne
    obtain rfl := Option.some.inj (hsource'.symm.trans hsource)
    exact hlt

theorem isTraced_empty : empty.IsTraced := by
  have hall : ∀ id, empty.Has id → id = root := by
    rintro ⟨i⟩ hi
    obtain rfl : i = 0 := Nat.lt_one_iff.1 hi
    rfl
  exact ⟨rfl, fun id hid hne => absurd (hall id hid) hne,
    fun a b ha hb _ => (hall a ha).trans (hall b hb).symm,
    fun id hid hne => absurd (hall id hid) hne⟩

/-- A node that trees add says what one of theirs says, and starts where that one does. -/
theorem mark_newNodes {trees : List Tree} {input : InputId} {read : List (Content × Nat)} {i : Nat}
    {n : Node} (hread : marksIn trees = read.map fun x => (x.1, some (input, x.2)))
    (hi : (s.newNodes root trees)[i]? = some n) :
    ∃ source, n.source = some source ∧ source.input = input ∧
      read[i]? = some (n.content, source.span.start.byte) := by
  have hmap := congrArg (·[i]?) ((marks_layOutAll root s.nodes.size trees).trans hread)
  simp only [List.getElem?_map] at hmap
  rw [← newNodes, hi] at hmap
  cases hx : read[i]? with
  | none =>
    rw [hx] at hmap
    cases hmap
  | some x =>
    rw [hx] at hmap
    cases hsource : n.source with
    | none => simp [hsource] at hmap
    | some source =>
      simp only [hsource, Option.map_some, Option.some.injEq, Source.origin, Prod.mk.injEq] at hmap
      obtain ⟨hcontent, hinput, hbyte⟩ := hmap
      exact ⟨source, rfl, hinput, by rw [hcontent, hbyte]⟩

/-- A text adds nodes from a new input, each from another place. -/
theorem IsTraced.addText (h : s.IsTraced) (hroot : s.Has root) (input : Input) (text : String) :
    (s.addText input text).2.IsTraced := by
  obtain ⟨read, hne, hpair, hread⟩ := parse_marks ⟨s.inputs.size⟩ text
  have hsize : (s.addText input text).2.inputs.size = s.inputs.size + 1 := Array.size_push input
  have hold : ∀ {id}, s.Has id → (s.addText input text).2.source id = s.source id :=
    fun {id} hid => source_addForest_of_has (s := (s.addInput input).2) _ hid
  have hcontent : ∀ {id}, s.Has id → (s.addText input text).2.content id = s.content id :=
    fun {id} hid => content_addForest_of_has (s := (s.addInput input).2) _ hid
  have hcases : ∀ {id}, (s.addText input text).2.Has id → s.Has id ∨
      ∃ i source, id = ⟨s.nodes.size + i⟩ ∧ (s.addText input text).2.source id = some source ∧
        source.input = ⟨s.inputs.size⟩ ∧
        read[i]? = some ((s.addText input text).2.content id, source.span.start.byte) := by
    intro id hid
    rcases has_addForest (s := (s.addInput input).2) root _ hid with hid | ⟨i, n, rfl, hn⟩
    · exact .inl hid
    · obtain ⟨source, hsource, hinput, hi⟩ := mark_newNodes hread hn
      have hnode := node_addForest_new root _ hn
      refine .inr ⟨i, source, rfl, (congrArg Node.source hnode).trans hsource, hinput, ?_⟩
      exact hi.trans (by rw [← congrArg Node.content hnode]; rfl)
  -- An old node does not come from the new input.
  have hapart : ∀ {id source}, s.Has id → source.input = ⟨s.inputs.size⟩ →
      s.source id ≠ some source := by
    intro id source hid hinput hsource
    have hlt := h.input_lt hid hsource
    rw [hinput] at hlt
    exact Nat.lt_irrefl _ hlt
  constructor
  case source_root => exact (hold hroot).trans h.source_root
  case exists_source =>
    intro id hid hne
    rcases hcases hid with hid | ⟨i, source, -, hsource, hinput, -⟩
    · obtain ⟨source, hsource, hlt⟩ := h.exists_source id hid hne
      exact ⟨source, (hold hid).trans hsource, by omega⟩
    · refine ⟨source, hsource, ?_⟩
      rw [hinput, hsize]
      exact Nat.lt_succ_self _
  case source_inj =>
    intro a b ha hb hab
    rcases hcases ha with ha | ⟨i, source, rfl, hsource, hinput, hi⟩
    · rcases hcases hb with hb | ⟨j, source', rfl, hsource', hinput', -⟩
      · rw [hold ha, hold hb] at hab
        exact h.source_inj a b ha hb hab
      · rw [hold ha, hsource'] at hab
        exact absurd hab (hapart ha hinput')
    · rcases hcases hb with hb | ⟨j, source', rfl, hsource', -, hj⟩
      · rw [hold hb, hsource] at hab
        exact absurd hab.symm (hapart hb hinput)
      · rw [hsource, hsource', Option.some.injEq] at hab
        have hi' : (read.map Prod.snd)[i]? = some source.span.start.byte := by
          rw [List.getElem?_map, hi, Option.map_some]
        have hj' : (read.map Prod.snd)[j]? = some source.span.start.byte := by
          rw [List.getElem?_map, hj, Option.map_some, hab]
        have hlt := (List.getElem?_eq_some_iff.1 hi').1
        have hij : i = j := (List.getElem?_inj hlt hpair.nodup).1 (hi'.trans hj'.symm)
        rw [hij]
  case content_ne =>
    intro id hid hroot'
    rcases hcases hid with hid | ⟨i, source, -, -, -, hi⟩
    · rw [hcontent hid]
      exact h.content_ne id hid hroot'
    · exact hne _ (List.mem_of_getElem? hi)

theorem isTraced_read (texts : List (Input × String)) : (read texts).IsTraced := by
  unfold read
  generalize hs : empty = s
  have htraced : s.IsTraced := hs ▸ isTraced_empty
  have hsound : s.IsSound := hs ▸ isSound_empty
  have hwhole : s.IsWhole := hs ▸ isWhole_empty
  clear hs
  induction texts generalizing s with
  | nil => exact htraced
  | cons text texts ih =>
    obtain ⟨hsound', hwhole'⟩ := addText_sound hsound hwhole text.1 text.2
    exact ih _ (htraced.addText hsound.has_root text.1 text.2) hsound' hwhole'

end ClassRules.Sheet
