import ClassRules.Proofs.Sheet.Trees
import ClassRules.Proofs.Tree.Alike

/-!
# One sheet in another

The text of a sheet can stand in another sheet: as a part of that one's text, or in a block of it.

## What this module delivers

- `Copy`, `IsCopy`: under which nodes of another sheet those of a sheet are found again.
- `IsCopy.parent_eq`, `attached_iff`, `descendants_eq`: parents, the text and walks correspond.
- `IsCopy.alikeIn_forest`, `exists_isCopy`: the trees of a copy are alike, and trees that are alike
  make a copy.
- `IsCopy.transfer`: a copy stays one as long as its nodes do, whatever happens around it.
-/

set_option autoImplicit false

namespace ClassRules.Sheet

open ClassRules.Tree

/-- Where the nodes and inputs of a sheet are found in another one. What stood on the root stands
between other nodes there. -/
structure Copy where
  node : NodeId → NodeId
  input : InputId → InputId
  before : List NodeId
  behind : List NodeId

/-- The children that a node has in the copy, given those that come from its own. -/
def Copy.around (C : Copy) (id : NodeId) (children : List NodeId) : List NodeId :=
  if id = root then C.before ++ children ++ C.behind else children

/-- The second copy stands on the same node, between the same others. -/
structure Copy.Continues (C C' : Copy) : Prop where
  node_root : C'.node root = C.node root
  input_eq : C'.input = C.input
  before_eq : C'.before = C.before
  behind_eq : C'.behind = C.behind

/-- The copy is all that stands on the root. -/
structure Copy.IsWhole (C : Copy) : Prop where
  node_root : C.node root = root
  before_eq : C.before = []
  behind_eq : C.behind = []

theorem Copy.Continues.isWhole {C C' : Copy} (h : C.Continues C') (hC : C.IsWhole) : C'.IsWhole :=
  ⟨h.node_root.trans hC.node_root, h.before_eq.trans hC.before_eq, h.behind_eq.trans hC.behind_eq⟩

/-- The copy on the root, with nothing beside it. -/
def Copy.lifted (C : Copy) : Copy :=
  ⟨fun x => if x = root then root else C.node x, C.input, [], []⟩

theorem Copy.isWhole_lifted (C : Copy) : C.lifted.IsWhole :=
  ⟨by simp [Copy.lifted], rfl, rfl⟩

theorem Copy.lifted_of_ne (C : Copy) {x : NodeId} (hx : x ≠ root) : C.lifted.node x = C.node x :=
  if_neg hx

/-- All of `s` is found in `t`, with contents that go together. The nodes that correspond to the
root may say something else. -/
structure IsCopy (R : Content → Content → Prop) (C : Copy) (s t : Sheet) : Prop where
  has : ∀ a, s.Has a → t.Has (C.node a)
  inj : ∀ a b, s.Has a → s.Has b → C.node a = C.node b → a = b
  root_only : ∀ a, s.Has a → C.node a = root → a = root
  attached : t.HangsOn (C.node root) root
  content : ∀ a, s.Has a → a ≠ root → R (s.content a) (t.content (C.node a))
  source_eq : ∀ a, s.Has a → a ≠ root →
    t.source (C.node a) = (s.source a).map (Source.relabel C.input)
  inputName_eq : ∀ a, s.Has a → a ≠ root → ∀ source, s.source a = some source →
    t.inputName (C.input source.input) = s.inputName source.input
  children : ∀ a, s.Has a → t.children (C.node a) = C.around a ((s.children a).map C.node)
  outside : ∀ x ∈ C.before ++ C.behind, ∀ a, s.Has a → C.node a ≠ x
  orphan : ∀ a, s.Has a → a ≠ root → s.parent a = none → t.parent (C.node a) = none

namespace IsCopy

variable {R : Content → Content → Prop} {C : Copy} {s t : Sheet} (h : IsCopy R C s t)

include h

/-! ## Children and parents -/

theorem children_eq {a : NodeId} (ha : s.Has a) (hne : a ≠ root) :
    t.children (C.node a) = (s.children a).map C.node := by
  rw [h.children a ha, Copy.around, if_neg hne]

theorem children_root (hs : s.IsSound) :
    t.children (C.node root) = C.before ++ (s.children root).map C.node ++ C.behind := by
  rw [h.children root hs.has_root, Copy.around, if_pos rfl]

theorem mem_children {a c : NodeId} (ha : s.Has a) (hc : c ∈ s.children a) :
    C.node c ∈ t.children (C.node a) := by
  have hmem : C.node c ∈ (s.children a).map C.node := List.mem_map_of_mem hc
  rw [h.children a ha, Copy.around]
  split
  · exact List.mem_append_left _ (List.mem_append_right _ hmem)
  · exact hmem

theorem parent_eq (hs : s.IsSound) (ht : t.IsSound) {a : NodeId} (ha : s.Has a)
    (hne : a ≠ root) : t.parent (C.node a) = (s.parent a).map C.node := by
  cases hp : s.parent a with
  | none => exact h.orphan a ha hne hp
  | some p =>
    exact ht.mem_children_iff.1 (h.mem_children (hs.has_parent hp) (hs.mem_children_iff.2 hp))

theorem parent_of_parent (hs : s.IsSound) (ht : t.IsSound) {a p : NodeId}
    (hp : s.parent a = some p) : t.parent (C.node a) = some (C.node p) := by
  rw [h.parent_eq hs ht (has_of_parent hp) (hs.ne_root_of_parent hp), hp]
  rfl

/-- The copy of a node is in the text if the node is. -/
theorem attached_iff (hs : s.IsSound) (ht : t.IsSound) {a : NodeId} (ha : s.Has a) :
    t.HangsOn (C.node a) root ↔ s.HangsOn a root := by
  induction a using hs.wf_parent.induction with
  | _ a ih =>
    by_cases hroot : a = root
    · rw [hroot]
      exact iff_of_true h.attached (.refl s root)
    have hparent := h.parent_eq hs ht ha hroot
    have hne : C.node a ≠ root := fun e => hroot (h.root_only a ha e)
    cases hp : s.parent a with
    | none =>
      rw [hp] at hparent
      rw [HangsOn.iff_eq_of_parent_none hparent, HangsOn.iff_eq_of_parent_none hp]
      exact iff_of_false hne hroot
    | some p =>
      rw [hp] at hparent
      rw [HangsOn.iff_of_parent hparent, HangsOn.iff_of_parent hp, ih p hp (hs.has_parent hp)]
      simp only [hne, hroot, false_or]

theorem hangsOn (hs : s.IsSound) (ht : t.IsSound) {a b : NodeId} (hab : s.HangsOn a b) :
    t.HangsOn (C.node a) (C.node b) := by
  induction hab with
  | refl => exact .refl t _
  | tail _ hp ih => exact ih.trans (.single (h.parent_of_parent hs ht hp))

theorem isAttached_eq (hs : s.IsSound) (ht : t.IsSound) {a : NodeId} (ha : s.Has a) :
    t.isAttached (C.node a) = s.isAttached a := by
  rw [Bool.eq_iff_iff, ht.isAttached_iff, hs.isAttached_iff, h.attached_iff hs ht ha]

/-! ## Walks -/

/-- Below the copy of a node stand the copies of what stands below the node. -/
theorem descendants_eq (hs : s.IsSound) (ht : t.IsSound) {a : NodeId} (ha : s.Has a)
    (hne : a ≠ root) : t.descendants (C.node a) = (s.descendants a).map C.node := by
  induction a using hs.children_induction with
  | step a ih =>
    rw [ht.toIsForest.descendants_eq, hs.toIsForest.descendants_eq, h.children_eq ha hne,
      List.flatMap_map, List.map_flatMap]
    apply List.flatMap_congr
    intro c hc
    have hp := hs.mem_children_iff.1 hc
    have hroot : c ≠ root := hs.ne_root_of_parent hp
    rw [ih c hc (has_of_parent hp) hroot, List.map_cons]

/-- What the root has at its copy, with all that stands below, are the copies of what stands below
the root. -/
theorem flatMap_descendants (hs : s.IsSound) (ht : t.IsSound) :
    (((s.children root).map C.node).flatMap fun c => c :: t.descendants c) =
      (s.descendants root).map C.node := by
  rw [hs.toIsForest.descendants_eq root, List.flatMap_map, List.map_flatMap]
  apply List.flatMap_congr
  intro c hc
  have hp := hs.mem_children_iff.1 hc
  rw [h.descendants_eq hs ht (has_of_parent hp) (hs.ne_root_of_parent hp), List.map_cons]

/-! ## Trees -/

theorem alike_tree (hs : s.IsSound) (ht : t.IsSound) {a : NodeId} (ha : s.Has a)
    (hne : a ≠ root) : Alike R C.input (s.tree a) (t.tree (C.node a)) := by
  induction a using hs.children_induction with
  | step a ih =>
    rw [hs.tree_eq, ht.tree_eq, Alike, h.source_eq a ha hne, h.children_eq ha hne]
    refine ⟨h.content a ha hne, rfl, ?_⟩
    rw [List.map_map, alikeIn_iff_forall₂, List.forall₂_map_left_iff, List.forall₂_map_right_iff,
      List.forall₂_same]
    intro c hc
    have hp := hs.mem_children_iff.1 hc
    have hroot : c ≠ root := hs.ne_root_of_parent hp
    exact ih c hc (has_of_parent hp) hroot

theorem alikeIn_forest (hs : s.IsSound) (ht : t.IsSound) :
    AlikeIn R C.input s.forest (((s.children root).map C.node).map t.tree) := by
  rw [forest, List.map_map, alikeIn_iff_forall₂, List.forall₂_map_left_iff,
    List.forall₂_map_right_iff, List.forall₂_same]
  intro c hc
  have hp := hs.mem_children_iff.1 hc
  have hroot : c ≠ root := hs.ne_root_of_parent hp
  exact h.alike_tree hs ht (has_of_parent hp) hroot

/-- Where the copy is all of the text, the texts are alike. -/
theorem alikeIn_forest_of_isWhole (hs : s.IsSound) (ht : t.IsSound) (hC : C.IsWhole) :
    AlikeIn R C.input s.forest t.forest := by
  have hroot := h.children_root hs
  rw [hC.node_root, hC.before_eq, hC.behind_eq, List.nil_append, List.append_nil] at hroot
  rw [forest.eq_def t, hroot]
  exact h.alikeIn_forest hs ht

omit h in
/-- A copy on the root is a part of the text. -/
theorem forest_eq {C : Copy} (h : IsCopy Eq C s t) (hs : s.IsSound) (ht : t.IsSound)
    (hroot : C.node root = root) : t.forest =
      C.before.map t.tree ++ relabelForest C.input s.forest ++ C.behind.map t.tree := by
  rw [forest, ← hroot, h.children_root hs, List.map_append, List.map_append]
  congr 2
  exact (alikeIn_eq_iff C.input _ _).1 (h.alikeIn_forest hs ht)

/-! ## What happens around a copy -/

/-- A copy stays one if its nodes do, also if the nodes around it are others, and if it comes to
stand under another node. -/
theorem transfer (hs : s.IsSound) {C' : Copy} {t' : Sheet}
    (hnode : ∀ a, a ≠ root → C'.node a = C.node a) (hinput : C'.input = C.input)
    (hname : ∀ i, t'.inputName i = t.inputName i) (hattached : t'.HangsOn (C'.node root) root)
    (hhas : ∀ a, s.Has a → t'.Has (C'.node a))
    (hroot : ∀ a, s.Has a → a ≠ root → C.node a ≠ C'.node root)
    (hcontent : ∀ a, s.Has a → a ≠ root → t'.content (C.node a) = t.content (C.node a))
    (hsource : ∀ a, s.Has a → a ≠ root → t'.source (C.node a) = t.source (C.node a))
    (hchildren : ∀ a, s.Has a → a ≠ root → t'.children (C.node a) = t.children (C.node a))
    (horphan : ∀ a, s.Has a → a ≠ root → s.parent a = none → t'.parent (C.node a) = none)
    (hscope : t'.children (C'.node root) =
      C'.before ++ (s.children root).map C.node ++ C'.behind)
    (houtside : ∀ x ∈ C'.before ++ C'.behind, ∀ a, s.Has a → C'.node a ≠ x) :
    IsCopy R C' s t' := by
  have hsame : ∀ a, (s.children a).map C'.node = (s.children a).map C.node := fun a =>
    List.map_congr_left fun c hc => hnode c (hs.ne_root_of_parent (hs.mem_children_iff.1 hc))
  constructor
  case has =>
    exact hhas
  case inj =>
    intro a b ha hb hab
    -- Only the root may have another copy than before, and no other node has that one.
    by_cases hra : a = root
    · by_cases hrb : b = root
      · rw [hra, hrb]
      · rw [hra, hnode b hrb] at hab
        exact absurd hab.symm (hroot b hb hrb)
    · by_cases hrb : b = root
      · rw [hrb, hnode a hra] at hab
        exact absurd hab (hroot a ha hra)
      · rw [hnode a hra, hnode b hrb] at hab
        exact h.inj a b ha hb hab
  case root_only =>
    intro a ha hr
    by_contra hra
    rw [hnode a hra] at hr
    exact hra (h.root_only a ha hr)
  case attached =>
    exact hattached
  case content =>
    intro a ha hra
    rw [hnode a hra, hcontent a ha hra]
    exact h.content a ha hra
  case source_eq =>
    intro a ha hra
    rw [hnode a hra, hsource a ha hra, hinput]
    exact h.source_eq a ha hra
  case inputName_eq =>
    intro a ha hra source hsrc
    rw [hinput, hname]
    exact h.inputName_eq a ha hra source hsrc
  case children =>
    intro a ha
    rw [hsame, Copy.around]
    by_cases hra : a = root
    · rw [if_pos hra, hra, hscope]
    · rw [if_neg hra, hnode a hra, hchildren a ha hra, h.children_eq ha hra]
  case outside =>
    exact houtside
  case orphan =>
    intro a ha hra hp
    rw [hnode a hra]
    exact horphan a ha hra hp

end IsCopy

/-! ## Copies from trees -/

/-- The nodes on `id` are found in `t` under the handles that `f` gives. -/
def Matches (R : Content → Content → Prop) (g : InputId → InputId) (s t : Sheet)
    (f : NodeId → NodeId) (id : NodeId) : Prop :=
  ∀ a, s.HangsOn a id → R (s.content a) (t.content (f a)) ∧
    t.source (f a) = (s.source a).map (Source.relabel g) ∧
    t.children (f a) = (s.children a).map f

section Match

variable {R : Content → Content → Prop} {g : InputId → InputId} {s t : Sheet}

theorem Matches.congr (hs : s.IsForest) {f f' : NodeId → NodeId} {id : NodeId}
    (h : Matches R g s t f id) (hf : ∀ a, s.HangsOn a id → f' a = f a) :
    Matches R g s t f' id := by
  intro a ha
  obtain ⟨hcontent, hsource, hchildren⟩ := h a ha
  rw [hf a ha]
  refine ⟨hcontent, hsource, hchildren.trans (List.map_congr_left fun b hb => ?_)⟩
  exact (hf b (.head (hs.mem_children_iff.1 hb) ha)).symm

/-- What matches below several siblings can be put together, as nothing hangs on two of them. -/
theorem exists_matches_siblings (hs : s.IsForest) {p : NodeId} {cs ds : List NodeId}
    {Fit : NodeId → NodeId → Prop} (hp : ∀ c ∈ cs, s.parent c = some p) (hnd : cs.Nodup)
    (hfit : ∀ c ∈ cs, ∀ d, Fit c d → ∃ f, f c = d ∧ Matches R g s t f c)
    (h : List.Forall₂ Fit cs ds) : ∃ f, cs.map f = ds ∧ ∀ c ∈ cs, Matches R g s t f c := by
  classical
  induction h with
  | nil => exact ⟨id, rfl, fun c hc => absurd hc List.not_mem_nil⟩
  | @cons c d cs ds hcd _ ih =>
    obtain ⟨f, hfc, hf⟩ := hfit c List.mem_cons_self d hcd
    obtain ⟨f', hf'cs, hf'⟩ := ih (fun e he => hp e (List.mem_cons_of_mem _ he))
      (List.nodup_cons.1 hnd).2 fun e he => hfit e (List.mem_cons_of_mem _ he)
    have hapart : ∀ e ∈ cs, ∀ a, s.HangsOn a e → ¬ s.HangsOn a c := fun e he a hae hac => by
      have heq := hs.eq_of_hangsOn_siblings (hp c List.mem_cons_self)
        (hp e (List.mem_cons_of_mem _ he)) hac hae
      exact (List.nodup_cons.1 hnd).1 (heq ▸ he)
    refine ⟨fun a => if s.HangsOn a c then f a else f' a, ?_, ?_⟩
    · rw [List.map_cons, if_pos (.refl s c), hfc, ← hf'cs]
      congr 1
      apply List.map_congr_left
      intro e he
      exact if_neg (hapart e he e (.refl s e))
    · intro e he
      rcases List.mem_cons.1 he with rfl | he
      · exact hf.congr hs fun a ha => if_pos ha
      · exact (hf' e he).congr hs fun a ha => if_neg (hapart e he a ha)

/-- Above siblings that match stands a node that does. -/
theorem matches_of_children (hs : s.IsForest) {f : NodeId → NodeId} {id x : NodeId}
    (hcontent : R (s.content id) (t.content x))
    (hsource : t.source x = (s.source id).map (Source.relabel g))
    (hchildren : (s.children id).map f = t.children x)
    (h : ∀ c ∈ s.children id, Matches R g s t f c) :
    Matches R g s t (fun a => if a = id then x else f a) id := by
  have hne : ∀ c ∈ s.children id, ∀ a, s.HangsOn a c → a ≠ id := by
    rintro c hc a hac rfl
    exact hs.not_hangsOn_child (hs.mem_children_iff.1 hc) hac
  intro a ha
  rcases (HangsOn.iff_children hs.toIsLinked).1 ha with rfl | ⟨c, hc, hac⟩
  · dsimp only
    rw [if_pos rfl]
    refine ⟨hcontent, hsource, hchildren.symm.trans (List.map_congr_left fun c hc => ?_)⟩
    exact (if_neg (hne c hc c (.refl s c))).symm
  · exact (h c hc).congr hs (fun b hb => if_neg (hne c hc b hb)) a hac

/-- Where the trees of two nodes are alike, what hangs on the one matches what hangs on the
other. -/
theorem exists_matches (hs : s.IsForest) (ht : t.IsForest) (id x : NodeId)
    (h : Alike R g (s.tree id) (t.tree x)) : ∃ f, f id = x ∧ Matches R g s t f id := by
  induction id using hs.children_induction generalizing x with
  | step id ih =>
    rw [hs.tree_eq, ht.tree_eq, Alike, alikeIn_iff_forall₂, List.forall₂_map_left_iff,
      List.forall₂_map_right_iff] at h
    obtain ⟨hcontent, hsource, hchildren⟩ := h
    obtain ⟨f, hf, hmatch⟩ := exists_matches_siblings hs (fun c hc => hs.mem_children_iff.1 hc)
      (hs.nodup_children id) ih hchildren
    exact ⟨fun a => if a = id then x else f a, if_pos rfl,
      matches_of_children hs hcontent hsource hf hmatch⟩

/-- The handles `f` put all nodes of `s` where they match, and the root on the node `x`, between
other nodes. -/
structure Places (R : Content → Content → Prop) (g : InputId → InputId) (s t : Sheet)
    (f : NodeId → NodeId) (x : NodeId) (before behind : List NodeId) : Prop where
  root_eq : f root = x
  children_root : t.children x = before ++ (s.children root).map f ++ behind
  node : ∀ a, s.Has a → a ≠ root → R (s.content a) (t.content (f a)) ∧
    t.source (f a) = (s.source a).map (Source.relabel g) ∧ t.children (f a) = (s.children a).map f

namespace Places

variable {f : NodeId → NodeId} {x : NodeId} {before behind : List NodeId}
  (h : Places R g s t f x before behind) (hs : s.IsSound) (hw : s.IsWhole) (ht : t.IsSound)

include h ht

theorem nodup_map (p : NodeId) (hp : s.Has p) : ((s.children p).map f).Nodup := by
  by_cases hpr : p = root
  · have hall := ht.nodup_children x
    rw [h.children_root] at hall
    rw [hpr]
    exact (List.nodup_append.1 (List.nodup_append.1 hall).1).2.1
  · rw [← (h.node p hp hpr).2.2]
    exact ht.nodup_children _

include hs

theorem parent_eq {a p : NodeId} (hp : s.parent a = some p) : t.parent (f a) = some (f p) := by
  refine ht.mem_children_iff.1 ?_
  have hmem : f a ∈ (s.children p).map f := List.mem_map_of_mem (hs.mem_children_iff.2 hp)
  by_cases hpr : p = root
  · rw [hpr, h.root_eq, h.children_root]
    exact List.mem_append_left _ (List.mem_append_right _ (hpr ▸ hmem))
  · rw [(h.node p (hs.has_parent hp) hpr).2.2]
    exact hmem

include hw

theorem hangsOn {a : NodeId} (ha : s.Has a) : t.HangsOn (f a) x := by
  induction a using hs.wf_parent.induction with
  | _ a ih =>
    by_cases hr : a = root
    · rw [hr, h.root_eq]
      exact .refl t x
    · obtain ⟨p, hp⟩ := hw a ha hr
      exact .head (h.parent_eq hs ht hp) (ih p hp (hs.has_parent hp))

theorem eq_root {a : NodeId} (ha : s.Has a) (hax : f a = x) : a = root := by
  by_contra hr
  obtain ⟨p, hp⟩ := hw a ha hr
  exact ht.not_hangsOn_child (hax ▸ h.parent_eq hs ht hp) (h.hangsOn hs hw ht (hs.has_parent hp))

/-- Nodes go to the same place only if their parents do. -/
theorem inj (a b : NodeId) (ha : s.Has a) (hb : s.Has b) (hab : f a = f b) : a = b := by
  induction a using hs.wf_parent.induction generalizing b with
  | _ a ih =>
    by_cases hra : a = root
    · rw [hra, h.root_eq] at hab
      rw [hra, h.eq_root hs hw ht hb hab.symm]
    by_cases hrb : b = root
    · rw [hrb, h.root_eq] at hab
      rw [hrb, h.eq_root hs hw ht ha hab]
    obtain ⟨p, hp⟩ := hw a ha hra
    obtain ⟨q, hq⟩ := hw b hb hrb
    have hpq : f p = f q := Option.some.inj ((h.parent_eq hs ht hp).symm.trans
      ((congrArg t.parent hab).trans (h.parent_eq hs ht hq)))
    obtain rfl := ih p hp q (hs.has_parent hp) (hs.has_parent hq) hpq
    exact List.inj_on_of_nodup_map (h.nodup_map ht p (hs.has_parent hp))
      (hs.mem_children_iff.2 hp) (hs.mem_children_iff.2 hq) hab

theorem outside {a y : NodeId} (ha : s.Has a) (hy : y ∈ before ++ behind) : f a ≠ y := by
  rintro rfl
  have hin : f a ∈ t.children x := by
    rw [h.children_root]
    rcases List.mem_append.1 hy with hy | hy
    · exact List.mem_append_left _ (List.mem_append_left _ hy)
    · exact List.mem_append_right _ hy
  have hpx := ht.mem_children_iff.1 hin
  have hne : a ≠ root := by
    rintro rfl
    exact ht.parent_ne hpx h.root_eq.symm
  obtain ⟨p, hp⟩ := hw a ha hne
  -- Its parent comes from the root, so it stands in the middle, and nowhere else.
  have hpr : p = root := h.eq_root hs hw ht (hs.has_parent hp)
    (Option.some.inj ((h.parent_eq hs ht hp).symm.trans hpx))
  have hmem : f a ∈ (s.children root).map f :=
    List.mem_map_of_mem (hpr ▸ hs.mem_children_iff.2 hp)
  have hall := ht.nodup_children x
  rw [h.children_root] at hall
  obtain ⟨hfront, -, happart⟩ := List.nodup_append.1 hall
  rcases List.mem_append.1 hy with hy | hy
  · exact (List.nodup_append.1 hfront).2.2 _ hy _ hmem rfl
  · exact happart _ (List.mem_append_right _ hmem) _ hy rfl

/-- Nodes in their places are a copy, if messages name their inputs alike. -/
theorem isCopy (hx : t.HangsOn x root)
    (hname : ∀ a, s.Has a → ∀ source, s.source a = some source →
      t.inputName (g source.input) = s.inputName source.input) :
    IsCopy R ⟨f, g, before, behind⟩ s t := by
  have hroot := h.root_eq
  constructor
  case has =>
    exact fun a ha => ht.has_of_hangsOn ((h.hangsOn hs hw ht ha).trans hx)
  case inj =>
    exact h.inj hs hw ht
  case root_only =>
    intro a ha hr
    by_contra hne
    obtain ⟨p, hp⟩ := hw a ha hne
    exact ht.ne_root_of_parent (h.parent_eq hs ht hp) hr
  case attached =>
    exact (congrArg (t.HangsOn · root) hroot).mpr hx
  case content =>
    exact fun a ha hne => (h.node a ha hne).1
  case source_eq =>
    exact fun a ha hne => (h.node a ha hne).2.1
  case inputName_eq =>
    exact fun a ha _ => hname a ha
  case children =>
    intro a ha
    rw [Copy.around]
    split
    · rename_i hr
      rw [hr]
      exact (congrArg t.children hroot).trans h.children_root
    · rename_i hr
      exact (h.node a ha hr).2.2
  case outside =>
    exact fun y hy a ha => h.outside hs hw ht ha hy
  case orphan =>
    intro a ha hne hp
    obtain ⟨p, hp'⟩ := hw a ha hne
    rw [hp'] at hp
    cases hp

end Places

/-- Trees under a node of the text that are alike to those of a sheet make a copy of it. -/
theorem exists_isCopy (hs : s.IsSound) (hw : s.IsWhole) (ht : t.IsSound) {x : NodeId}
    (hx : t.HangsOn x root) (before mid behind : List NodeId)
    (hchildren : t.children x = before ++ mid ++ behind)
    (halike : AlikeIn R g s.forest (mid.map t.tree))
    (hname : ∀ a, s.Has a → ∀ source, s.source a = some source →
      t.inputName (g source.input) = s.inputName source.input) :
    ∃ f, f root = x ∧ (s.children root).map f = mid ∧
      IsCopy R ⟨f, g, before, behind⟩ s t := by
  rw [forest, alikeIn_iff_forall₂, List.forall₂_map_left_iff, List.forall₂_map_right_iff] at halike
  obtain ⟨f, hmid, hmatch⟩ := exists_matches_siblings hs.toIsForest
    (fun c hc => hs.mem_children_iff.1 hc) (hs.nodup_children root)
    (fun c _ d hcd => exists_matches hs.toIsForest ht.toIsForest c d hcd) halike
  have hother : ∀ a, a ≠ root → (if a = root then x else f a) = f a := fun a ha => if_neg ha
  have hmap : ∀ a, (s.children a).map (fun c => if c = root then x else f c) =
      (s.children a).map f := fun a => List.map_congr_left fun c hc =>
    hother c (hs.ne_root_of_parent (hs.mem_children_iff.1 hc))
  refine ⟨fun a => if a = root then x else f a, if_pos rfl, (hmap root).trans hmid,
    Places.isCopy (x := x) ⟨if_pos rfl, ?_, ?_⟩ hs hw ht hx hname⟩
  · rw [hmap, hmid, hchildren]
  · intro a ha hne
    obtain ⟨c, hc, hac⟩ := ((HangsOn.iff_children hs.toIsLinked).1
      (hw.hangsOn_root hs.toIsForest ha)).resolve_left hne
    rw [hother a hne, hmap]
    exact hmatch c hc a hac

end Match

end ClassRules.Sheet
