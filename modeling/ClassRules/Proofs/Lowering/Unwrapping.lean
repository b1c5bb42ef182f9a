import ClassRules.Proofs.Lowering.FixedPoint
import ClassRules.Proofs.Lowering.Plan
import ClassRules.Proofs.Lowering.Resolution

/-!
# Namespaces without components

In a sheet without components the pass over the namespaces does nothing but splice: every namespace
gives way to what stands in it, however deep it stands and whatever it stands in, and one without a
block, which holds nothing, just goes.

The pass goes from namespace to namespace in document order, so a block is out of the way before the
ones that stood in it have their turn, and these have got another container by then.

## What this module delivers

- `Tree.unwrap`, `Tree.unwrapForest`: the splice as a recursion over trees.
- `SplicedTo`: how it stands when some nodes have given way, with what has come in the place of each
  node. `SplicedTo.next`: one more. `SplicedTo.hangsOn_root`: the others are still in the text.
- `SplicedTo.map_tree`: what has come in the place of a node is, as trees, what the recursion gives.
- `Unwrapping`: the same with what the pass keeps besides, and `Unwrapping.step_block` and
  `Unwrapping.step_input` for its two kinds of steps.
- `lowerNamespaces_unwraps`: the whole pass.
-/

set_option autoImplicit false

namespace ClassRules

namespace Tree

variable (P : Content → Bool)

mutual

/-- What a tree comes to when each node that `P` holds of gives way to what it carries. -/
def unwrap : Tree → List Tree
  | node content source children =>
    if P content then unwrapForest children else [node content source (unwrapForest children)]

/-- What some trees come to, in a row. -/
def unwrapForest : List Tree → List Tree
  | [] => []
  | t :: ts => unwrap t ++ unwrapForest ts

end

theorem unwrapForest_eq_flatMap (ts : List Tree) : unwrapForest P ts = ts.flatMap (unwrap P) := by
  induction ts with
  | nil => rw [unwrapForest, List.flatMap_nil]
  | cons t ts ih => rw [unwrapForest, ih, List.flatMap_cons]

end Tree

namespace Lowering

open Sheet ClassRules.Tree

variable {cx : Context} {s t u : Sheet} {done : List NodeId} {image : NodeId → List NodeId}
  {a container : NodeId}

/-! ## Nodes that give way -/

/-- From `s` to `t` the nodes `done` have given way to what they carry: what has come in the place
of such a node is what has come in the place of its children. -/
structure SplicedTo (s : Sheet) (done : List NodeId) (image : NodeId → List NodeId) (t : Sheet) :
    Prop where
  sound : t.IsSound
  size_eq : t.nodes.size = s.nodes.size
  inputs_eq : t.inputs = s.inputs
  content_eq : ∀ x, t.content x = s.content x
  source_eq : ∀ x, t.source x = s.source x
  image_done : ∀ x ∈ done, image x = (s.children x).flatMap image
  image_other : ∀ x, x ∉ done → image x = [x]
  children_eq : ∀ x, x ∉ done → t.children x = (s.children x).flatMap image

namespace SplicedTo

theorem refl (hs : s.IsSound) : SplicedTo s [] (fun x => [x]) s where
  sound := hs
  size_eq := rfl
  inputs_eq := rfl
  content_eq _ := rfl
  source_eq _ := rfl
  image_done _ hx := absurd hx List.not_mem_nil
  image_other _ _ := rfl
  children_eq x _ := by simp

variable (h : SplicedTo s done image t)
include h

theorem isA_iff {kind : RuleKind} {x : NodeId} : cx.isA t kind x = cx.isA s kind x :=
  Context.isA_congr (h.content_eq x)

theorem params_eq (x : NodeId) : t.params x = s.params x := by
  rw [params, params, h.content_eq]

theorem sourceName_eq (x : NodeId) : t.sourceName? x = s.sourceName? x := by
  simp only [sourceName?, inputName, h.source_eq, h.inputs_eq]

theorem has_iff {x : NodeId} : t.Has x ↔ s.Has x := by
  rw [Has, Has, h.size_eq]

/-- What has come in the place of a node of a whole sheet is still in the text. -/
theorem hangsOn_root (hs : s.IsForest) (hw : s.IsWhole) (hroot : root ∉ done) {x y : NodeId}
    (hy : s.Has y) (hx : x ∈ image y) : t.HangsOn x root := by
  -- The induction goes up to the root. A node that has not given way holds what has come in the
  -- place of its children, and one that has given way has passed it on.
  induction y using hs.wf_parent.induction generalizing x with
  | _ y ih =>
    by_cases hyroot : y = root
    · rw [hyroot, h.image_other root hroot, List.mem_singleton] at hx
      rw [hx]
      exact .refl t root
    · obtain ⟨q, hq⟩ := hw y hy hyroot
      have hin : x ∈ (s.children q).flatMap image :=
        List.mem_flatMap.2 ⟨y, hs.mem_children_iff.2 hq, hx⟩
      by_cases hdone : q ∈ done
      · rw [← h.image_done q hdone] at hin
        exact ih q hq (hs.has_parent hq) hin
      · rw [← h.children_eq q hdone] at hin
        have hself : q ∈ image q := by
          rw [h.image_other q hdone]
          exact List.mem_singleton_self q
        exact .head (h.sound.mem_children_iff.1 hin) (ih q hq (hs.has_parent hq) hself)

/-- One more node gives way: wherever it had come to stand, its children come to stand. -/
theorem next (ha : a ∉ done) (hp : t.parent a = some container) (hu : u.IsSound)
    (hleads : (Edit.splice t a container).Leads t u) :
    SplicedTo s (done ++ [a]) (fun x => putFor a (t.children a) (image x)) u := by
  have hsize : u.nodes.size = t.nodes.size := hleads.size_eq
  have hself : a ∉ t.children a := fun hmem =>
    h.sound.parent_ne (h.sound.mem_children_iff.1 hmem) rfl
  have hnode : ∀ x, ¬ t.Has x → u.node x = t.node x := by
    intro x hx
    have hxu : ¬ u.Has x := by rwa [Has, hsize]
    rw [node_of_not_has hx, node_of_not_has hxu]
  have hchildren : ∀ x, x ≠ a → u.children x = putFor a (t.children a) (t.children x) := by
    intro x hxa
    by_cases hcontainer : x = container
    · rw [hcontainer]
      exact hleads.children_container
    · have hout : a ∉ t.children x := fun hmem => hcontainer
        (Option.some.inj ((h.sound.mem_children_iff.1 hmem).symm.trans hp))
      rw [putFor_of_not_mem hout]
      by_cases hx : t.Has x
      · refine (hleads.children_other x hx hcontainer ?_).trans (filter_singleton_eq_self hout)
        exact fun hmem => hxa (List.mem_singleton.1 hmem)
      · rw [Sheet.children, Sheet.children, hnode x hx]
  -- Putting nodes in a place goes through a list child by child.
  have hput : ∀ l : List NodeId, putFor a (t.children a) (l.flatMap image) =
      l.flatMap fun x => putFor a (t.children a) (image x) := fun l => by
    rw [putFor, List.flatMap_assoc]
    rfl
  constructor
  case sound => exact hu
  case size_eq => rw [hsize, h.size_eq]
  case inputs_eq => rw [hleads.inputs_eq, h.inputs_eq]
  case content_eq =>
    intro x
    rw [← h.content_eq]
    by_cases hx : t.Has x
    · exact hleads.content_eq x hx
    · rw [Sheet.content, Sheet.content, hnode x hx]
  case source_eq =>
    intro x
    rw [← h.source_eq]
    by_cases hx : t.Has x
    · exact hleads.source_eq x hx
    · rw [Sheet.source, Sheet.source, hnode x hx]
  case image_done =>
    intro x hx
    rw [← hput]
    rcases List.mem_append.1 hx with hx | hx
    · rw [h.image_done x hx]
    · rw [List.mem_singleton.1 hx, h.image_other a ha, ← h.children_eq a ha,
        putFor_of_not_mem hself]
      simp [putFor]
  case image_other =>
    intro x hx
    obtain ⟨hx, hxa⟩ := not_or.1 (mt List.mem_append.2 hx)
    rw [h.image_other x hx]
    refine putFor_of_not_mem (fun hmem => hxa ?_) _
    exact List.mem_singleton.2 (List.mem_singleton.1 hmem).symm
  case children_eq =>
    intro x hx
    obtain ⟨hx, hxa⟩ := not_or.1 (mt List.mem_append.2 hx)
    rw [hchildren x fun heq => hxa (List.mem_singleton.2 heq), h.children_eq x hx, hput]

/-- When all nodes that `P` holds of have given way, what has come in the place of a node is what
the recursion over its tree gives. -/
theorem map_tree {P : Content → Bool} (hs : s.IsForest)
    (hdone : ∀ x, x ∈ done ↔ P (s.content x) = true) (x : NodeId) :
    (image x).map t.tree = unwrap P (s.tree x) := by
  induction x using hs.children_induction with
  | step x ih =>
    have hbelow : ((s.children x).flatMap image).map t.tree =
        unwrapForest P ((s.children x).map s.tree) := by
      rw [unwrapForest_eq_flatMap, List.flatMap_map, List.map_flatMap]
      exact List.flatMap_congr ih
    rw [hs.tree_eq, unwrap]
    by_cases hx : x ∈ done
    · rw [if_pos ((hdone x).1 hx), h.image_done x hx, hbelow]
    · rw [if_neg (mt (hdone x).2 hx), h.image_other x hx, List.map_singleton,
        h.sound.toIsForest.tree_eq, h.content_eq, h.source_eq, h.children_eq x hx, hbelow]

theorem forest_eq {P : Content → Bool} (hs : s.IsForest) (hroot : root ∉ done)
    (hdone : ∀ x, x ∈ done ↔ P (s.content x) = true) :
    t.forest = unwrapForest P s.forest := by
  rw [forest, forest, h.children_eq root hroot, unwrapForest_eq_flatMap, List.flatMap_map,
    List.map_flatMap]
  exact List.flatMap_congr fun x _ => h.map_tree hs hdone x

theorem noneLeft (hs : s.IsSound) (hw : s.IsWhole) {kind : RuleKind} (hnone : NoneLeft cx s kind) :
    NoneLeft cx t kind := by
  intro x hx
  rw [h.isA_iff]
  exact hnone x (hw.hangsOn_root hs.toIsForest (h.has_iff.1 (h.sound.has_of_hangsOn hx)))

end SplicedTo

/-! ## The steps of the pass -/

/-- How it stands after the namespaces `done`, from `p` on: these have given way, those for whole
inputs are noted by the names of the inputs, and all are counted. -/
structure Unwrapping (p : Progress) (done : List NodeId) (state : NamespaceMap × Progress) :
    Prop where
  spliced : ∃ image, SplicedTo p.sheet done image state.2.sheet
  warnings_eq : state.2.warnings = p.warnings
  stats_eq : state.2.stats = p.stats + { namespaces := done.length }
  get?_eq : ∀ name, state.1.get? name = (lastFor? p.sheet (some name) done).map p.sheet.params

theorem lowerBlock_of_noneLeft {p : Progress} (hs : p.sheet.IsSound) (ha : p.sheet.HangsOn a root)
    (hnone : NoneLeft cx p.sheet .component) (ns : String) : lowerBlock cx p a ns = .ok p := by
  have hfind : cx.find p.sheet a .component = [] := by
    rw [find_eq_filter, List.filter_eq_nil_iff]
    intro c hc
    rw [hnone c ((hs.mem_descendants_iff.1 hc).2.trans ha)]
    exact Bool.false_ne_true
  rw [lowerBlock, hfind]
  rfl

namespace Unwrapping

variable {p : Progress} {state : NamespaceMap × Progress}

theorem refl (hs : p.sheet.IsSound) : Unwrapping p [] ({}, p) := by
  refine ⟨⟨_, .refl hs⟩, rfl, ?_, fun _ => rfl⟩
  exact (Stats.add_zero p.stats).symm

/-- One more namespace is counted. -/
theorem stats_next (h : Unwrapping p done state) (a : NodeId) :
    state.2.stats + { namespaces := 1 } = p.stats + { namespaces := (done ++ [a]).length } := by
  rw [h.stats_eq, List.length_append, Stats.add_assoc]
  rfl

/-- A namespace with a block gives way to what the block holds. -/
theorem step_block (h : Unwrapping p done state) (hon : state.2.sheet.HangsOn a root)
    (hnone : NoneLeft cx state.2.sheet .component) (ha : a ∉ done)
    (hisA : cx.isA p.sheet .componentNamespace a = true)
    (hbody : (p.sheet.content a).hasBody = true) :
    ∃ next, lowerNamespace cx state a = .ok next ∧ Unwrapping p (done ++ [a]) next := by
  obtain ⟨map, q⟩ := state
  obtain ⟨image, hq⟩ := h.spliced
  have hs : q.sheet.IsSound := hq.sound
  have hcustom : cx.IsCustom q.sheet a := ⟨_, hq.isA_iff.trans hisA⟩
  obtain ⟨container, r, hp, hr, hlow, hleads⟩ := exists_unwrapBlock
    (p := q.count fun c => { c with namespaces := c.namespaces + 1 }) hs hon hcustom
  obtain ⟨t, ht, -⟩ := performs_unwrapBlock
    (p := q.count fun c => { c with namespaces := c.namespaces + 1 }) hs hp
  obtain rfl := Except.ok.inj (ht.symm.trans hr)
  have hrun : lowerNamespace cx (map, q) a =
      .ok (map, ⟨t, q.warnings ++ [], q.stats + { namespaces := 1 } + {}⟩) := by
    rw [lowerNamespace_of_hasBody cx map (hs.isAttached_iff.2 hon)
      ((congrArg Content.hasBody (hq.content_eq a)).trans hbody)]
    rw [lowerBlock_of_noneLeft (p := q.count _) hs hon hnone]
    exact (congrArg (fun r => r >>= fun q => pure (map, q)) ht).trans rfl
  refine ⟨_, hrun, ⟨_, hq.next ha hp (hlow.exchange hs).sound hleads⟩, ?_, ?_, ?_⟩
  · exact (List.append_nil _).trans h.warnings_eq
  · exact (Stats.add_zero _).trans (h.stats_next a)
  · intro name
    rw [lastFor?_append, if_neg fun hinput => by rw [hbody] at hinput; cases hinput.1]
    exact h.get?_eq name

/-- A namespace for a whole input is noted by the name of the input, and goes. -/
theorem step_input (h : Unwrapping p done state) (hon : state.2.sheet.HangsOn a root)
    (ha : a ∉ done) (hisA : cx.isA p.sheet .componentNamespace a = true)
    (hbody : (p.sheet.content a).hasBody = false) :
    ∃ next, lowerNamespace cx state a = .ok next ∧ Unwrapping p (done ++ [a]) next := by
  obtain ⟨map, q⟩ := state
  obtain ⟨image, hq⟩ := h.spliced
  have hs : q.sheet.IsSound := hq.sound
  have hbody' : (q.sheet.content a).hasBody = false := by rw [hq.content_eq, hbody]
  obtain ⟨container, hp, hlow, hleads⟩ := remove_splices hs hon
    ⟨.componentNamespace, hq.isA_iff.trans hisA⟩ hbody'
  refine ⟨_, lowerNamespace_of_not_hasBody cx map (hs.isAttached_iff.2 hon) hbody',
    ⟨_, hq.next ha hp (hlow.exchange hs).sound hleads⟩, h.warnings_eq, h.stats_next a, ?_⟩
  intro name
  have hget : map.get? name = _ := h.get?_eq name
  rw [lastFor?_append, hq.sourceName_eq, hq.params_eq]
  cases hsource : p.sheet.sourceName? a with
  | none => simpa [hbody] using hget
  | some source =>
    by_cases hname : name = source
    · simp [hbody, hname, NamespaceMap.get?_insert]
    · simpa [hbody, hname, Ne.symm hname, NamespaceMap.get?_insert] using hget

end Unwrapping

/-- In a whole sheet without components the pass over the namespaces goes through. -/
theorem exists_unwrapping {p : Progress} (hs : p.sheet.IsSound) (hw : p.sheet.IsWhole)
    (hnone : NoneLeft cx p.sheet .component) :
    ∃ last, lowerNamespaces cx p = .ok last ∧
      Unwrapping p (cx.find p.sheet root .componentNamespace) last := by
  have hnodup : (cx.find p.sheet root .componentNamespace).Nodup := by
    rw [find_eq_filter]
    exact (hs.nodup_descendants root).filter _
  refine exists_foldlM_steps ?_ (Unwrapping.refl hs)
  intro done a rest state hsplit h
  rw [hsplit] at hnodup
  have hisA : ∀ x ∈ done ++ a :: rest, cx.isA p.sheet .componentNamespace x = true := by
    rw [← hsplit]
    exact fun x hx => (Context.mem_find_iff.1 hx).2
  have hisAa := hisA a (by simp)
  have ha : a ∉ done := fun hdone =>
    (List.nodup_append.1 hnodup).2.2 a hdone a List.mem_cons_self rfl
  have hroot : root ∉ done := fun hr =>
    Context.ne_root_of_isA hs (hisA root (List.mem_append_left _ hr)) rfl
  -- Its turn has not come, so it stands somewhere in the text, if not where it stood at first.
  obtain ⟨image, hspliced⟩ := h.spliced
  have hon : state.2.sheet.HangsOn a root := by
    apply hspliced.hangsOn_root hs.toIsForest hw hroot (Context.has_of_isA hisAa)
    rw [hspliced.image_other a ha]
    exact List.mem_singleton_self a
  cases hbody : (p.sheet.content a).hasBody with
  | true => exact h.step_block hon (hspliced.noneLeft hs hw hnone) ha hisAa hbody
  | false => exact h.step_input hon ha hisAa hbody

/-- In a sheet of read texts that holds no component, the pass over the namespaces goes through and
splices: each namespace gives way to what is in its block, at any depth, or to nothing if it has
none, and all else stays as it is. What it notes for a name is the last namespace without a block in
an input of that name, in document order, so it notes nothing for a name without one. It counts all
namespaces. -/
theorem lowerNamespaces_unwraps (cx : Context) (texts : List (Input × String))
    (warnings : List Warning) (stats : Stats) (hnone : NoneLeft cx (read texts) .component) :
    let s := read texts
    let namespaces := cx.find s root .componentNamespace
    ∃ map t, lowerNamespaces cx ⟨s, warnings, stats⟩ =
        .ok (map, ⟨t, warnings, stats + { namespaces := namespaces.length }⟩) ∧
      t.forest = unwrapForest (cx.means .componentNamespace) s.forest ∧
      ∀ name, map.get? name = (lastFor? s (some name) namespaces).map s.params := by
  intro s namespaces
  obtain ⟨hs, hw⟩ := read_sound texts
  obtain ⟨⟨map, t, warnings', stats'⟩, hrun, ⟨⟨image, hspliced⟩, hwarnings, hstats, hget⟩⟩ :=
    exists_unwrapping (p := ⟨s, warnings, stats⟩) hs hw hnone
  have hmem : ∀ x, x ∈ namespaces ↔ cx.means .componentNamespace (s.content x) = true := fun x =>
    ⟨fun hx => (Context.mem_find_iff.1 hx).2, fun hx => mem_find_root hs hw hx⟩
  have hroot : root ∉ namespaces := fun hr => Context.ne_root_of_isA hs ((hmem root).1 hr) rfl
  obtain rfl : warnings' = warnings := hwarnings
  obtain rfl : stats' = stats + { namespaces := namespaces.length } := hstats
  exact ⟨map, t, hrun, hspliced.forest_eq hs.toIsForest hroot hmem, hget⟩

/-- For instance, a block within a block, in a query in a rule, and two namespaces for the input. -/
theorem lowerNamespaces_unwraps_nested :
    let s := read [(.ofFile "a.css", "@n a; .x { @n b { c: d; @media m { @n e { .y {} } } } } @n f;")]
    let cx := Context.ofOptions { shortcuts := { componentNamespace := some "n" } }
    NoneLeft cx s .component ∧ ∃ map t,
      lowerNamespaces cx { sheet := s } = .ok (map, ⟨t, [], { namespaces := 4 }⟩) ∧
      renderForest 0 t.forest = ".x \x7b\n  c: d;\n  @media m \x7b\n    .y \x7b\x7d\n  \x7d\n\x7d" ∧
      map.get? "a.css" = some "f" ∧ map.get? "b.css" = none := by
  intro s cx
  have hs : s.IsSound := isSound_read _
  obtain ⟨hall, hcount, hlast, hother, hrender⟩ :
      (∀ i < s.nodes.size, cx.isA s .component ⟨i⟩ = false) ∧
      (cx.find s root .componentNamespace).length = 4 ∧
      (lastFor? s (some "a.css") (cx.find s root .componentNamespace)).map s.params = some "f" ∧
      (lastFor? s (some "b.css") (cx.find s root .componentNamespace)).map s.params = none ∧
      renderForest 0 (unwrapForest (cx.means .componentNamespace) s.forest) =
        ".x \x7b\n  c: d;\n  @media m \x7b\n    .y \x7b\x7d\n  \x7d\n\x7d" := by
    decide +kernel
  have hnone : NoneLeft cx s .component := fun id hid => hall id.index (hs.has_of_hangsOn hid)
  obtain ⟨map, t, hrun, hforest, hget⟩ := lowerNamespaces_unwraps cx _ [] {} hnone
  refine ⟨hnone, map, t, ?_, ?_, (hget _).trans hlast, (hget _).trans hother⟩
  · rw [hrun, Stats.zero_add]
    simp only [← hcount]
    rfl
  · rw [hforest]
    exact hrender

end Lowering

end ClassRules
