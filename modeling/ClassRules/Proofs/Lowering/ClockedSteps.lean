import ClassRules.Proofs.Lowering.Clocked
import ClassRules.Proofs.Lowering.Region
import ClassRules.Proofs.Sheet.Preorder
import Mathlib.Data.List.Induction
import Mathlib.Order.Filter.AtTopBot.Basic

/-!
# Loops that end

In a forest each loop of the passes is over by the clock if the clock is late enough, and gives what
the walks that stop after as many steps as the sheet has nodes give.

## What this module delivers

- `Ends`: a part of a run has the given result by every clock that is late enough. `EndsWith`: and
  something holds then. `EndsWith.bind` and `EndsWith.foldlM` put parts together.
- `meets?_ends`, `find?_ends`: the walks up and down.
- `append_ends`, `insertAfter_ends`, `moveChildren_ends`: moves.
- `Shrunk`: only a container and new nodes have got children. `lowerNested_ends`: the recursion over
  nested at-rules, by induction on how much deeper a node can stand.
- `unwrapChildren_ends`: the loop over a block, which loses a child in each round.
-/

set_option autoImplicit false

namespace ClassRules.Clocked

open Lowering Sheet Filter

variable {s t : Sheet} {p q : Progress}

/-! ## Runs that end -/

/-- A run has a result by every clock that is late enough. -/
def Ends {α : Type} (R : Nat → Run α) (r : Except Stopped α) : Prop :=
  ∀ᶠ clock in atTop, R clock = .of r

/-- A loop that does something first may do it by the clock that is left to the rest. -/
theorem eventually_of_succ {P : Nat → Prop} (h : ∀ᶠ clock in atTop, P (clock + 1)) :
    ∀ᶠ clock in atTop, P clock := by
  rw [← map_add_atTop_eq_nat 1]
  exact h

namespace Ends

variable {α β : Type}

theorem of (r : Except Stopped α) : Ends (fun _ => .of r) r :=
  .of_forall fun _ => rfl

theorem bind {R : Nat → Run α} {r : Except Stopped α} {F : Nat → α → Run β}
    {f : α → Except Stopped β} (h : Ends R r)
    (hf : ∀ a, r = .ok a → Ends (fun clock => F clock a) (f a)) :
    Ends (fun clock => R clock >>= F clock) (r >>= f) := by
  cases r with
  | error stopped =>
    filter_upwards [h] with clock hclock
    rw [hclock]
    rfl
  | ok a =>
    filter_upwards [h, hf a rfl] with clock hclock hrest
    rw [hclock]
    exact hrest

end Ends

/-- A part of a run ends, and if it goes through, `P` holds of what it gives. -/
structure EndsWith {α : Type} (P : α → Prop) (R : Nat → Run α) (r : Except Stopped α) : Prop where
  ends : Ends R r
  holds : ∀ a, r = .ok a → P a

namespace EndsWith

variable {α β : Type} {P : α → Prop} {Q : β → Prop}

theorem ok {a : α} (h : P a) : EndsWith P (fun _ => pure a) (.ok a) :=
  ⟨.of (.ok a), fun _ hb => by cases hb; exact h⟩

theorem bind {R : Nat → Run α} {r : Except Stopped α} {F : Nat → α → Run β}
    {f : α → Except Stopped β} (h : EndsWith P R r)
    (hf : ∀ a, P a → EndsWith Q (fun clock => F clock a) (f a)) :
    EndsWith Q (fun clock => R clock >>= F clock) (r >>= f) where
  ends := h.ends.bind fun a ha => (hf a (h.holds a ha)).ends
  holds b hb := by
    obtain ⟨a, ha, hb⟩ := exists_of_bind_eq_ok hb
    exact (hf a (h.holds a ha)).holds b hb

/-- A fold ends if each of its steps does, as long as `P` holds, which the steps keep up. -/
theorem foldlM {F : Nat → α → β → Run α} {f : α → β → Except Stopped α} {bs : List β} {a : α}
    (h : P a) (hstep : ∀ a b, b ∈ bs → P a → EndsWith P (fun clock => F clock a b) (f a b)) :
    EndsWith P (fun clock => bs.foldlM (F clock) a) (bs.foldlM f a) := by
  induction bs generalizing a with
  | nil => exact .ok h
  | cons b bs ih =>
    simp only [List.foldlM_cons]
    exact (hstep a b List.mem_cons_self h).bind fun next hnext => ih hnext fun a c hc =>
      hstep a c (List.mem_cons_of_mem _ hc)

end EndsWith

/-! ## Walks -/

theorem meets?_ends (h : s.IsForest) (target : NodeId) {id : NodeId} (hid : s.Has id) :
    ∀ᶠ clock in atTop, meets? s target clock id = some (s.isAncestorOrSelf target id) := by
  induction id using h.wf_parent.induction with
  | _ id ih =>
    refine eventually_of_succ ?_
    simp only [meets?]
    split
    · rename_i heq
      rw [(h.isAncestorOrSelf_iff hid).2 (heq ▸ HangsOn.refl s id)]
      exact .of_forall fun _ => rfl
    · rename_i hne
      split
      · rename_i parent hp
        have hsame : s.isAncestorOrSelf target id = s.isAncestorOrSelf target parent := by
          rw [Bool.eq_iff_iff, h.isAncestorOrSelf_iff hid,
            h.isAncestorOrSelf_iff (h.has_parent hp), HangsOn.iff_of_parent hp, or_iff_right hne]
        rw [hsame]
        exact ih parent hp (h.has_parent hp)
      · rename_i hp
        have hout : ¬ s.isAncestorOrSelf target id = true := by
          rw [h.isAncestorOrSelf_iff hid, HangsOn.iff_eq_of_parent_none hp]
          exact hne
        rw [Bool.eq_false_iff.2 hout]
        exact .of_forall fun _ => rfl

theorem isAttached?_ends (h : s.IsForest) {id : NodeId} (hid : s.Has id) :
    ∀ᶠ clock in atTop, isAttached? clock s id = some (s.isAttached id) :=
  meets?_ends h root hid

/-- A walk that ends before its last step has ended because its stack was empty. -/
theorem walk?_eq_of_length_lt {fuel clock : Nat} {stack : List NodeId} (hle : fuel ≤ clock)
    (h : (s.walkStack fuel stack).length < fuel) :
    walk? s clock stack = some (s.walkStack fuel stack) := by
  induction fuel generalizing clock stack with
  | zero => exact absurd h (Nat.not_lt_zero _)
  | succ fuel ih =>
    cases stack with
    | nil => rw [walk?, walkStack]
    | cons id stack =>
      obtain ⟨clock, rfl⟩ := Nat.exists_eq_add_of_le' (Nat.le_of_add_left_le hle)
      rw [walkStack, List.length_cons] at h
      rw [walk?, ih (Nat.le_of_succ_le_succ hle) (Nat.lt_of_succ_lt_succ h), walkStack]
      rfl

theorem walk?_ends (h : s.IsForest) (id : NodeId) :
    ∀ᶠ clock in atTop, walk? s clock (s.children id) = some (s.descendants id) := by
  by_cases hid : s.Has id
  · refine eventually_atTop.2 ⟨_, fun clock hclock => walk?_eq_of_length_lt hclock ?_⟩
    have hnd : (id :: s.descendants id).Nodup := by
      refine List.nodup_cons.2 ⟨fun hmem => ?_, h.nodup_descendants id⟩
      exact (h.mem_descendants_iff.1 hmem).1 rfl
    refine length_le_size hnd fun x hx => ?_
    rcases List.mem_cons.1 hx with rfl | hx
    · exact hid
    · obtain ⟨hne, hon⟩ := h.mem_descendants_iff.1 hx
      obtain ⟨parent, hp, -⟩ := (HangsOn.iff_parent.1 hon).resolve_left hne
      exact has_of_parent hp
  · refine .of_forall fun clock => ?_
    rw [descendants, children_of_not_has hid, walk?]
    cases s.nodes.size <;> rfl

theorem find?_ends (h : s.IsForest) (cx : Context) (scope : NodeId) (kind : RuleKind) :
    ∀ᶠ clock in atTop, find? clock cx s scope kind = some (cx.find s scope kind) := by
  filter_upwards [walk?_ends h scope] with clock hclock
  rw [find?, hclock]
  rfl

/-! ## Moves -/

theorem append_ends (h : p.sheet.IsForest) {parent : NodeId} (hp : p.sheet.Has parent)
    (id : NodeId) : Ends (fun clock => append clock p parent id) (p.append parent id) := by
  filter_upwards [meets?_ends h id hp] with clock hclock
  rw [append, hclock, Progress.append, Sheet.append]
  cases p.sheet.isAncestorOrSelf id parent <;> rfl

theorem insertAfter_ends (h : p.sheet.IsForest) {container : NodeId}
    (hc : p.sheet.Has container) (anchor id : NodeId) :
    Ends (fun clock => insertAfter clock p container anchor id)
      (p.insertAfter container anchor id) := by
  filter_upwards [meets?_ends h id hc] with clock hclock
  rw [insertAfter, hclock, Progress.insertAfter, Sheet.insertAfter]
  split
  · rfl
  · cases p.sheet.isAncestorOrSelf id container <;> rfl

theorem eq_move_of_append (h : p.sheet.IsForest) {parent id : NodeId} (hp : p.sheet.Has parent)
    (hq : p.append parent id = .ok q) :
    q.sheet = p.sheet.move parent id (· ++ [id]) ∧ ¬ p.sheet.HangsOn parent id := by
  rw [Progress.append, Sheet.append] at hq
  split at hq
  · cases hq
  · rename_i hout
    cases hq
    exact ⟨rfl, fun hon => hout ((h.isAncestorOrSelf_iff hp).2 hon)⟩

theorem eq_move_of_insertAfter (h : p.sheet.IsForest) {container anchor id : NodeId}
    (hc : p.sheet.Has container) (hne : id ≠ anchor)
    (hq : p.insertAfter container anchor id = .ok q) :
    q.sheet = p.sheet.move container id (placeAfter anchor id) ∧
      ¬ p.sheet.HangsOn container id := by
  rw [Progress.insertAfter, Sheet.insertAfter, if_neg hne] at hq
  split at hq
  · cases hq
  · rename_i hout
    cases hq
    exact ⟨rfl, fun hon => hout ((h.isAncestorOrSelf_iff hc).2 hon)⟩

theorem moveChildren_ends (h : p.sheet.IsForest) (source : NodeId) {target : NodeId}
    (ht : p.sheet.Has target) :
    Ends (fun clock => moveChildren clock p source target) (p.moveChildren source target) := by
  have hchild : ∀ c ∈ p.sheet.children source, p.sheet.Has c := fun c hc =>
    has_of_parent (h.mem_children_iff.1 hc)
  let P (q : Progress) : Prop :=
    q.sheet.IsForest ∧ q.sheet.nodes.size = p.sheet.nodes.size
  refine (EndsWith.foldlM (show P p from ⟨h, rfl⟩) ?_).ends
  rintro q c hc ⟨hq, hsize⟩
  have hhas {x : NodeId} (hx : p.sheet.Has x) : q.sheet.Has x :=
    hx.mono (Nat.le_of_eq hsize.symm)
  refine ⟨append_ends hq (hhas ht) c, fun r hr => ?_⟩
  obtain ⟨hmove, hout⟩ := eq_move_of_append hq (hhas ht) hr
  simp only [P]
  rw [hmove, size_move]
  exact ⟨hq.move (hhas ht) (hhas (hchild c hc)) hout (adds_append c), hsize⟩

/-! ## Nested at-rules -/

/-- A forest with at least `size` nodes. Of the nodes of `s`, which are among the first of them,
only the container has got children. -/
structure Shrunk (s : Sheet) (container : NodeId) (size : Nat) (t : Sheet) : Prop where
  forest : t.IsForest
  base_le : s.nodes.size ≤ size
  size_le : size ≤ t.nodes.size
  children_sub : ∀ x, s.Has x → x ≠ container → ∀ c ∈ t.children x, c ∈ s.children x

namespace Shrunk

variable {container : NodeId} {size : Nat}

theorem has (h : Shrunk s container size t) {x : NodeId} (hx : s.Has x) : t.Has x :=
  Nat.lt_of_lt_of_le hx (Nat.le_trans h.base_le h.size_le)

/-- The number of nodes may be taken lower, and as it is now. -/
theorem of_le {size' : Nat} (h : Shrunk s container size t) (hbase : s.nodes.size ≤ size')
    (hle : size' ≤ t.nodes.size) : Shrunk s container size' t :=
  ⟨h.forest, hbase, hle, h.children_sub⟩

theorem create (h : Shrunk s container size t) (content : Content) (source : Option Source) :
    Shrunk s container size (t.create content source).2 where
  forest := h.forest.create content source
  base_le := h.base_le
  size_le := by
    rw [size_create]
    exact Nat.le_succ_of_le h.size_le
  children_sub x hx hne c hc := h.children_sub x hx hne c (children_create t content source x ▸ hc)

theorem detach (h : Shrunk s container size t) (id : NodeId) :
    Shrunk s container size (t.detach id) where
  forest := h.forest.detach id
  base_le := h.base_le
  size_le := by
    rw [size_detach]
    exact h.size_le
  children_sub x hx hne c hc := by
    rw [children_detach h.forest.toIsLinked] at hc
    exact h.children_sub x hx hne c (List.mem_of_mem_filter hc)

/-- A node may move to the container or to a new node. -/
theorem move (h : Shrunk s container size t) {parent id : NodeId} (hp : t.Has parent)
    (hid : t.Has id) (hout : ¬ t.HangsOn parent id) {place : List NodeId → List NodeId}
    (hplace : Adds id place) (hto : parent = container ∨ ¬ s.Has parent) :
    Shrunk s container size (t.move parent id place) where
  forest := h.forest.move hp hid hout hplace
  base_le := h.base_le
  size_le := by
    rw [size_move]
    exact h.size_le
  children_sub x hx hne c hc := by
    have hxp : x ≠ parent := by
      rintro rfl
      exact hto.elim hne fun hnew => hnew hx
    rw [children_move h.forest.toIsLinked hp, if_neg hxp] at hc
    exact h.children_sub x hx hne c (List.mem_of_mem_filter hc)

end Shrunk

section Nested

variable {container rule c last : NodeId} {size : Nat} {children : List NodeId}
  {F : Nat → Progress → NodeId → NodeId → Run (Option NodeId × Progress)}
  {f : Progress → NodeId → NodeId → Except Stopped (Option NodeId × Progress)}

/-- What is done with an at-rule or its children ends, and leaves only the container and new nodes
with more children. -/
abbrev EndsShrunk {α : Type} (s : Sheet) (container : NodeId) (size : Nat) :
    (Nat → Run (α × Progress)) → Except Stopped (α × Progress) → Prop :=
  EndsWith fun state => Shrunk s container size state.2.sheet

/-- A child that came to nothing is moved to the rule. -/
theorem append_shrunk (hp : Shrunk s container size p.sheet) (hnew : ¬ s.Has rule)
    (hrule : rule.index < size) (hc : s.Has c) :
    EndsShrunk s container size (fun clock => append clock p rule c >>= fun p => pure (last, p))
      (p.append rule c >>= fun p => pure (last, p)) := by
  have hhas : p.sheet.Has rule := Nat.lt_of_lt_of_le hrule hp.size_le
  refine ⟨(append_ends hp.forest hhas c).bind fun q _ => .of (.ok (last, q)), fun next hnext => ?_⟩
  obtain ⟨q, hq, hnext⟩ := exists_of_bind_eq_ok hnext
  obtain ⟨hmove, hout⟩ := eq_move_of_append hp.forest hhas hq
  cases hnext
  rw [hmove]
  exact hp.move hhas (hp.has hc) hout (adds_append c) (.inr hnew)

/-- Going through the children of an at-rule ends if what is done with each of them does. -/
theorem distribute_ends (last : NodeId) (hp : Shrunk s container size p.sheet)
    (hnew : ¬ s.Has rule) (hrule : rule.index < size) (hchildren : ∀ c ∈ children, s.Has c)
    (hlower : ∀ c ∈ children, ∀ (p : Progress) (last : NodeId), Shrunk s container size p.sheet →
      EndsShrunk s container size (fun clock => F clock p c last) (f p c last)) :
    EndsShrunk s container size (fun clock => distribute clock (F clock) rule children last p)
      (Lowering.distribute f rule children last p) := by
  refine EndsWith.foldlM (a := (last, p)) hp ?_
  rintro ⟨last, q⟩ c hc hq
  by_cases hk : q.sheet.kind c = .atRule
  · simp only [if_pos hk]
    refine (hlower c hc q last hq).bind ?_
    rintro ⟨_ | inserted, r⟩ hr
    · exact append_shrunk hr hnew hrule (hchildren c hc)
    · exact .ok hr
  · simp only [if_neg hk]
    exact append_shrunk hq hnew hrule (hchildren c hc)

/-- The class of a nested at-rule changes the counts only. -/
theorem sheet_of_nestedName? {cx : Context} {parentClass name : String}
    (h : nestedName? cx p parentClass c = some (name, q)) : q.sheet = p.sheet := by
  unfold nestedName? at h
  dsimp only at h
  split at h
  · cases h
    rfl
  · split at h
    · cases h
      rfl
    · cases h

/-- The rule of a nested at-rule is put among the children of the container. -/
theorem insertAfter_shrunk (after : NodeId) (hp : Shrunk s container size p.sheet)
    (hcontainer : s.Has container) (hid : p.sheet.Has c) :
    EndsWith (fun q => Shrunk s container size q.sheet)
      (fun clock => insertAfter clock p container after c) (p.insertAfter container after c) := by
  refine ⟨insertAfter_ends hp.forest (hp.has hcontainer) after c, fun q hq => ?_⟩
  by_cases hne : c = after
  · rw [Progress.insertAfter, Sheet.insertAfter, if_pos hne] at hq
    cases hq
    exact hp
  · obtain ⟨hmove, hout⟩ := eq_move_of_insertAfter hp.forest (hp.has hcontainer) hne hq
    rw [hmove]
    exact hp.move (hp.has hcontainer) hid hout (adds_placeAfter after c) (.inl rfl)

/-- A nested at-rule is lowered to its end with any number of steps that is not below the number of
levels under it. The container does not stand under it, so only nodes that stood there in `s` are
gone through. -/
theorem lowerNested_ends (cx : Context) (hs : s.IsForest) (hcontainer : s.Has container)
    (fuel : Nat) (parentClass : String) (hp : Shrunk s container size p.sheet) (hc : s.Has c)
    (hout : ¬ s.HangsOn container c) (hfuel : s.nodes.size ≤ fuel + s.depth c) :
    EndsShrunk s container size
      (fun clock => lowerNested cx container clock parentClass p c last)
      (lowerNestedTo cx container fuel parentClass p c last) := by
  induction fuel generalizing size parentClass p c last with
  | zero =>
    have hlt := hs.depth_lt hc
    omega
  | succ fuel ih =>
    suffices h : EndsShrunk s container size
        (fun clock => lowerNested cx container (clock + 1) parentClass p c last)
        (lowerNestedTo cx container (fuel + 1) parentClass p c last) from
      ⟨eventually_of_succ h.ends, h.holds⟩
    simp only [lowerNested, lowerNestedTo]
    cases hname : nestedName? cx p parentClass c with
    | none => exact .ok hp
    | some named =>
      obtain ⟨name, q⟩ := named
      have hq : Shrunk s container size q.sheet := sheet_of_nestedName? hname ▸ hp
      let rule : NodeId := ⟨q.sheet.nodes.size⟩
      let p₁ := (q.createRule ("." ++ name) c).2
      have hp₁ : Shrunk s container (q.sheet.nodes.size + 1) p₁.sheet :=
        (hq.create (.rule ("." ++ name)) (q.sheet.source c)).of_le
          (Nat.le_succ_of_le (Nat.le_trans hq.base_le hq.size_le))
          (Nat.le_of_eq (size_create _ _ _).symm)
      have hnew : ¬ s.Has rule := fun h => hq.has h |> not_has_new q.sheet
      have hins := insertAfter_shrunk last hp₁ hcontainer
        (c := rule) ((has_create _ _ _ _).2 (.inl rfl))
      -- What stands in the at-rule stood there in `s`, one level further down.
      have hinner : ∀ r : Progress, Shrunk s container (q.sheet.nodes.size + 1) r.sheet →
          EndsShrunk s container (q.sheet.nodes.size + 1)
            (fun clock => distribute clock (lowerNested cx container clock name) rule
              (r.sheet.children c) rule r >>= fun state => pure (some state.1, state.2.remove c))
            (Lowering.distribute (lowerNestedTo cx container fuel name) rule (r.sheet.children c)
              rule r >>= fun state => pure (some state.1, state.2.remove c)) := by
        intro r hr
        have hne : c ≠ container := fun e => hout (e ▸ HangsOn.refl s c)
        have hparent : ∀ d ∈ r.sheet.children c, s.parent d = some c := fun d hd =>
          hs.mem_children_iff.1 (hr.children_sub c hc hne d hd)
        refine (distribute_ends rule hr hnew (Nat.lt_succ_self _)
          (fun d hd => has_of_parent (hparent d hd)) fun d hd p last hp => ?_).bind ?_
        · have hdepth := hs.depth_of_parent (hparent d hd)
          exact ih name hp (has_of_parent (hparent d hd))
            (fun hon => hout (hon.trans (.single (hparent d hd)))) (by omega)
        · rintro ⟨inserted, r'⟩ hr'
          exact .ok (hr'.detach c)
      obtain ⟨hends, hholds⟩ := hins.bind hinner
      refine ⟨hends, fun next hnext => ?_⟩
      have hdone := hholds next hnext
      exact hdone.of_le hp.base_le (Nat.le_trans (Nat.le_succ_of_le hq.size_le) hdone.size_le)

end Nested

/-! ## Blocks -/

/-- If its last child is put behind it, a block stands where it stood and has its other
children. -/
theorem move_last_child {front : List NodeId} {child container block : NodeId} (h : s.IsForest)
    (hp : s.parent block = some container) (hl : s.children block = front ++ [child]) :
    (s.move container child (placeAfter block child)).IsForest ∧
      (s.move container child (placeAfter block child)).parent block = some container ∧
      (s.move container child (placeAfter block child)).children block = front := by
  have hchild : s.parent child = some block :=
    h.mem_children_iff.1 (hl ▸ List.mem_append_right front (List.mem_singleton_self child))
  have hcontainer := h.has_parent hp
  have hlt : s.depth container < s.depth child := by
    rw [h.depth_of_parent hchild, h.depth_of_parent hp]
    omega
  refine ⟨.of_ranked (h.toIsLinked.move hcontainer (has_of_parent hchild) (adds_placeAfter _ _))
    (h.ranked_depth.move (has_of_parent hchild) hlt _), ?_, ?_⟩
  · rw [parent_move (has_of_parent hchild), if_neg (h.parent_ne hchild), hp]
  · have hnd := h.nodup_children block
    rw [hl] at hnd
    have hout : child ∉ front := fun hmem =>
      (List.nodup_append.1 hnd).2.2 child hmem child (List.mem_singleton_self child) rfl
    rw [children_move h.toIsLinked hcontainer, if_neg (h.parent_ne hp).symm, hl,
      List.filter_append, List.filter_eq_self.2 fun x hx => by
        simpa using fun e : x = child => hout (e ▸ hx)]
    simp

/-- Each round of the loop takes the last child out of the block, so the loop goes through the
children from the last to the first. -/
theorem unwrapChildren_ends {container block : NodeId} (h : p.sheet.IsForest)
    (hp : p.sheet.parent block = some container) :
    Ends (fun clock => unwrapChildren container block clock p)
      ((p.sheet.children block).reverse.foldlM
        (fun p child => p.insertAfter container block child) p) := by
  generalize hl : p.sheet.children block = l
  induction l using List.reverseRecOn generalizing p with
  | nil =>
    refine eventually_of_succ ?_
    simp only [unwrapChildren, hl, List.getLast?_nil]
    exact Ends.of (.ok p)
  | append_singleton front child ih =>
    have hchild : p.sheet.parent child = some block :=
      h.mem_children_iff.1 (hl ▸ List.mem_append_right front (List.mem_singleton_self child))
    have hne : child ≠ block := (h.parent_ne hchild).symm
    have hcontainer := h.has_parent hp
    have hlt : p.sheet.depth container < p.sheet.depth child := by
      rw [h.depth_of_parent hchild, h.depth_of_parent hp]
      omega
    have hins := Progress.insertAfter_eq_ok h h.ranked_depth hcontainer hlt hne
    obtain ⟨hmoved, hparent, hfront⟩ := move_last_child h hp hl
    rw [List.reverse_append, List.reverse_singleton, List.singleton_append, List.foldlM_cons]
    refine eventually_of_succ ?_
    simp only [unwrapChildren, hl, List.getLast?_concat]
    refine (insertAfter_ends h hcontainer block child).bind fun q hq => ?_
    rw [hins] at hq
    cases hq
    exact ih hmoved hparent hfront

end ClassRules.Clocked
