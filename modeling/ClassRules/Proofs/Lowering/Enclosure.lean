import ClassRules.Proofs.Lowering.ParallelRun

/-!
# Lowering within another at-rule

An at-rule that stands for no class, such as a media query, is passed over by every search. A run
over a sheet with one such at-rule around all of it does what a run over the rest does.

## What this module delivers

- `findsCopies_of_around`: such an at-rule is never found, however far the run has come.
- `transform_around`, `transform_whole`: runs over some trees, in the at-rule and on their own.
- `transform_enclosed`: both compared with each other.
-/

set_option autoImplicit false

namespace ClassRules

open ClassRules.Tree

namespace Lowering

open Sheet

variable {R : Content → Content → Prop} {N : String → Prop} {C C' : Copy} {cx cx' : Context}
  {s t : Sheet} {p q : Progress}

/-! ## Searching around the copy -/

/-- The node that holds a copy, alone on the root, is still alone there. -/
theorem Along.children_root (h : Along cx' R N C C' s t p q) (hs : s.IsSound) (ht : t.IsSound)
    (hcopy : IsCopy R C s t) (hroot : t.children root = [C.node root]) :
    q.sheet.children root = [C'.node root] := by
  have hp : t.parent (C.node root) = some root :=
    ht.mem_children_iff.1 (hroot ▸ List.mem_cons_self)
  have hout : ∀ y, s.Has y → C.node y ≠ root := fun y hy e =>
    ht.ne_root_of_parent hp (hcopy.root_only y hy e ▸ e)
  -- The root is no copy, so the run has left it alone.
  have hsame : q.sheet.node root = t.node root := (h.follows.elsewhere root ht.has_root hout).1
  rw [Sheet.children, hsame, (h.follows.continues hs).node_root]
  exact hroot

/-- An at-rule of no kind around a copy is never found. -/
theorem findsCopies_of_around (hR : Likeness cx cx' R) (hs : s.IsSound) (ht : t.IsSound)
    (hcopy : IsCopy R C s t) (hbefore : C.before = []) (hbehind : C.behind = [])
    (hroot : t.children root = [C.node root])
    (hnone : ∀ kind, cx'.isA t kind (C.node root) = false) : FindsCopies cx cx' R N C s t := by
  intro C' p q h kind
  have hcont := h.follows.continues hs
  obtain ⟨replaced, dropped, hex⟩ := h.exchange
  have hisA : cx'.isA q.sheet kind (C'.node root) = false := by
    rw [hcont.node_root, Context.isA_congr (hex.content_eq _ (hcopy.has root hs.has_root))]
    exact hnone kind
  rw [find_of_around hR h.copy h.sound h.sound_copy (hcont.before_eq.trans hbefore)
    (hcont.behind_eq.trans hbehind) (h.children_root hs ht hcopy hroot)]
  simp [hisA]

end Lowering

open Lowering

namespace Sheet

variable {s t : Sheet} {o : Options} {name params : String} {source : Option Source}
  {trees : List Tree}

/-! ## Runs over some trees -/

/-- A run over a sheet goes like one over the sheet of its trees. -/
theorem transform_whole (hs : s.IsSound)
    (hsource : ∀ n ∈ walkForest 0 s.forest, ∃ y, n.2.2 = some y) :
    EndsAlike (fun p q => q.sheet.forest = p.sheet.forest ∧ q.warnings = p.warnings ∧
        q.stats = p.stats) ((ofForest s.inputs s.forest).transform o) (s.transform o) := by
  have hu := isSound_ofForest s.inputs hs.carries_forest
  obtain ⟨C, hnode, hid, hbefore, hbehind, htied⟩ := exists_tied (N := fun _ => True) hs
    hs.carries_forest (.refl s root) (by rw [Sheet.kind, hs.content_root]; decide) []
    (s.children root) [] (by simp) rfl fun n hn => by simpa using hsource n hn
  have hC : C.IsWhole := ⟨hnode, hbefore, hbehind⟩
  have hrun := transform_parallel (.refl (.ofOptions o)) rfl htied
    (findsCopies_of_isWhole (.refl (.ofOptions o)) hu hC)
  refine hrun.mono ?_
  rintro p q - - ⟨C', htied', hf⟩
  have hcont := hf.continues hu
  refine ⟨?_, hf.report_eq⟩
  have hcopy : IsCopy Eq C' p.sheet q.sheet := htied'.copy
  rw [hcopy.forest_eq htied'.sound htied'.sound_copy (hcont.node_root.trans hnode),
    hcont.before_eq, hbefore, hcont.behind_eq, hbehind, hcont.input_eq, hid, relabelForest_id]
  exact List.append_nil _

/-- A run over a sheet with one at-rule around all of it goes like one over what it holds. -/
theorem transform_around (ht : t.IsSound)
    (hforest : t.forest = [.node (.atRule name params true) source trees])
    (hname : ∀ kind, o.shortcuts.names kind name = false)
    (hsource : ∀ n ∈ walkForest 0 trees, ∃ y, n.2.2 = some y) :
    EndsAlike (fun p q =>
        q.sheet.forest = [.node (.atRule name params true) source p.sheet.forest] ∧
          q.warnings = p.warnings ∧ q.stats = p.stats)
      ((ofForest t.inputs trees).transform o) (t.transform o) := by
  have hcarries : EverywhereIn Carries trees := (hforest ▸ ht.carries_forest).1.2
  have hu := isSound_ofForest t.inputs hcarries
  obtain ⟨w, rest, hroot, hw, hrest⟩ := List.map_eq_cons_iff.1 hforest
  obtain rfl := List.map_eq_nil_iff.1 hrest
  rw [ht.tree_eq, Tree.node.injEq] at hw
  obtain ⟨hcontent, hsrc, hmid⟩ := hw
  have hp : t.parent w = some root := ht.mem_children_iff.1 (hroot ▸ List.mem_cons_self)
  obtain ⟨C, rfl, hid, hbefore, hbehind, htied⟩ := exists_tied (N := fun _ => True) ht hcarries
    (.single hp) (by rw [Sheet.kind, hcontent, Content.kind]; decide) [] (t.children w) []
    (by simp) hmid fun n hn => by simpa using hsource n hn
  have hcopy : IsCopy Eq C (ofForest t.inputs trees) t := htied.copy
  have hnone : ∀ kind, (Context.ofOptions o).isA t kind (C.node root) = false := by
    intro kind
    rw [Context.isA, hcontent]
    exact hname kind
  -- The at-rule means no kind, so a search around it finds the copies and nothing else.
  have hrun := transform_parallel (.refl (.ofOptions o)) rfl htied
    (findsCopies_of_around (.refl (.ofOptions o)) hu ht hcopy hbefore hbehind hroot hnone)
  refine hrun.mono ?_
  rintro p q - hq ⟨C', htied', hf⟩
  have hcont := hf.continues hu
  obtain ⟨replaced, hex⟩ := exists_exchange_of_transform ht hq
  have halong : Along (.ofOptions o) Eq _ C C' (ofForest t.inputs trees) t p q :=
    ⟨htied', hf, replaced, _, hex⟩
  refine ⟨?_, hf.report_eq⟩
  have hq : q.sheet.IsSound := htied'.sound_copy
  have hinner : ((p.sheet.children root).map C'.node).map q.sheet.tree = p.sheet.forest := by
    have halike := (alikeIn_eq_iff C'.input _ _).1
      (htied'.copy.alikeIn_forest htied'.sound htied'.sound_copy)
    rwa [hcont.input_eq, hid, relabelForest_id] at halike
  have hchildren : q.sheet.children (C'.node root) = (p.sheet.children root).map C'.node := by
    have hall := htied'.copy.children_root htied'.sound
    rwa [hcont.before_eq, hbefore, hcont.behind_eq, hbehind, List.append_nil] at hall
  rw [forest, halong.children_root hu ht hcopy hroot, List.map_singleton, hq.tree_eq, hchildren,
    hcont.node_root, hex.content_eq _ (has_of_parent hp), hex.source_eq _ (has_of_parent hp),
    hcontent, hsrc]
  exact congrArg (fun ts => [Tree.node _ _ ts]) hinner

/-! ## Both runs -/

/-- What is lowered does not depend on an at-rule around it. A sheet whose trees all stand in one
at-rule with a body that means no kind, and a sheet with the same trees on its root: both runs
succeed, warn of the same and count the same, and leave the same trees, in that at-rule on the one
side; or both stop with the same fault. -/
theorem transform_enclosed (hs : s.IsSound) (ht : t.IsSound) (hinputs : t.inputs = s.inputs)
    (hforest : t.forest = [.node (.atRule name params true) source s.forest])
    (hname : ∀ kind, o.shortcuts.names kind name = false)
    (hsource : ∀ n ∈ walkForest 0 s.forest, ∃ y, n.2.2 = some y) :
    match s.transform o, t.transform o with
    | .ok p, .ok q => q.sheet.forest = [.node (.atRule name params true) source p.sheet.forest] ∧
        q.warnings = p.warnings ∧ q.stats = p.stats
    | .error e, .error e' => e'.fault = e.fault
    | _, _ => False := by
  have hfirst := transform_whole (o := o) hs hsource
  have hsecond := transform_around (o := o) ht hforest hname hsource
  rw [hinputs] at hsecond
  -- Both are compared with one run over the trees alone.
  revert hfirst hsecond
  generalize (ofForest s.inputs s.forest).transform o = r
  generalize s.transform o = r₁
  generalize t.transform o = r₂
  intro hfirst hsecond
  cases hfirst with
  | ok h₁ =>
    cases hsecond with
    | ok h₂ =>
      exact ⟨h₂.1.trans (by rw [h₁.1]), h₂.2.1.trans h₁.2.1.symm, h₂.2.2.trans h₁.2.2.symm⟩
  | error h₁ =>
    cases hsecond with
    | error h₂ => exact h₂.trans h₁.symm

/-- For instance, a component with a modifier in a media query. -/
theorem transform_enclosed_media :
    let source : Source := ⟨⟨0⟩, .zero⟩
    let trees := [Tree.node (.atRule "component" "Card" true) (some source)
      [.node (.atRule "modifier" "wide" true) (some source) []]]
    let s := ofForest #[.ofFile "a.css"] trees
    let t := ofForest #[.ofFile "a.css"] [.node (.atRule "media" "print" true) none trees]
    ∃ p q, s.transform {} = .ok p ∧ t.transform {} = .ok q ∧
      p.sheet.print = ".Card {}\n.Card--wide {}" ∧
      q.sheet.forest = [.node (.atRule "media" "print" true) none p.sheet.forest] ∧
      q.warnings = p.warnings ∧ q.stats = p.stats := by
  intro source trees s t
  have hs : s.IsSound :=
    isSound_ofForest _ (by simp [trees, EverywhereIn, Everywhere, Carries, Content.carries])
  have ht : t.IsSound :=
    isSound_ofForest _ (by simp [trees, EverywhereIn, Everywhere, Carries, Content.carries])
  have hinputs : t.inputs = s.inputs := rfl
  have htrees : s.forest = trees := forest_ofForest _ _
  have hforest : t.forest = [.node (.atRule "media" "print" true) none s.forest] := by
    rw [htrees]
    exact forest_ofForest _ _
  have hname : ∀ kind, ({} : Options).shortcuts.names kind "media" = false := by
    intro kind
    cases kind <;> decide
  have hsource : ∀ n ∈ walkForest 0 s.forest, ∃ y, n.2.2 = some y := by
    rw [htrees]
    simp [trees, walkForest, walk]
  have hprint : (s.transform {}).toOption.any (fun p =>
      p.sheet.print == ".Card {}\n.Card--wide {}") = true := by
    decide +kernel
  -- The sheets have done their part; with their values at hand the rest would be computed again.
  clear_value s t
  have halike := transform_enclosed hs ht hinputs hforest hname hsource
  cases hp : s.transform {} with
  | error e =>
    rw [hp] at hprint
    cases hprint
  | ok p =>
    cases hq : t.transform {} with
    | error e => simp [hp, hq] at halike
    | ok q =>
      rw [hp, hq] at halike
      rw [hp] at hprint
      exact ⟨p, q, rfl, rfl, of_decide_eq_true hprint, halike⟩

end Sheet

end ClassRules
