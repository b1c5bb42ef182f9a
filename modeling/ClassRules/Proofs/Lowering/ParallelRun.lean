import ClassRules.Proofs.Lowering.ParallelPasses

/-!
# Whole runs side by side

A run over a sheet and one over a copy of it go on side by side from pass to pass, as long as the
second one finds the copies of what the first one finds, and nothing else.

## What this module delivers

- `EndsAlike`: two runs that both succeed, or both stop with the same fault.
- `find_of_isWhole`, `find_of_beside`, `find_of_around`: what is found in a copy, beside it and
  around it.
- `Along`, `Along.pass`: two runs that have come side by side to somewhere, and one more pass.
- `transform_parallel`: whole runs end alike, and tied.
- `ofForest`, `exists_tied`: the sheet of some trees, and how it is tied to one that has them.
-/

set_option autoImplicit false

namespace ClassRules

open ClassRules.Tree

namespace Lowering

open Sheet

/-! ## Runs that end alike -/

/-- Both runs succeed, with results that go together, or both stop with the same fault. -/
inductive EndsAlike {σ τ : Type} (P : σ → τ → Prop) :
    Except Stopped σ → Except Stopped τ → Prop where
  | ok {x : σ} {y : τ} : P x y → EndsAlike P (.ok x) (.ok y)
  | error {e e' : Stopped} : e'.fault = e.fault → EndsAlike P (.error e) (.error e')

theorem EndsAlike.bind {σ τ σ' τ' : Type} {P : σ → τ → Prop} {P' : σ' → τ' → Prop}
    {r : Except Stopped σ} {r' : Except Stopped τ} (h : EndsAlike P r r')
    {k : σ → Except Stopped σ'} {k' : τ → Except Stopped τ'}
    (hk : ∀ x y, r = .ok x → r' = .ok y → P x y → EndsAlike P' (k x) (k' y)) :
    EndsAlike P' (r >>= k) (r' >>= k') := by
  cases h with
  | ok hxy => exact hk _ _ rfl rfl hxy
  | error he => exact .error he

theorem EndsAlike.mono {σ τ : Type} {P P' : σ → τ → Prop} {r : Except Stopped σ}
    {r' : Except Stopped τ} (h : EndsAlike P r r')
    (hP : ∀ x y, r = .ok x → r' = .ok y → P x y → P' x y) : EndsAlike P' r r' := by
  cases h with
  | ok hxy => exact .ok (hP _ _ rfl rfl hxy)
  | error he => exact .error he

variable {R : Content → Content → Prop} {N : String → Prop} {C C' : Copy} {cx cx' : Context}
  {s t : Sheet} {p q : Progress}

/-! ## Searching beside and around a copy -/

section Find

variable (hR : Likeness cx cx' R)

include hR

/-- A search of a sheet that is all a copy finds the copies. -/
theorem find_of_isWhole (h : IsCopy R C s t) (hC : C.IsWhole) (hs : s.IsSound) (ht : t.IsSound)
    (kind : RuleKind) : cx'.find t root kind = (cx.find s root kind).map C.node := by
  have hall := find_copy_root hR h hs ht kind
  rw [hC.node_root, hC.before_eq, hC.behind_eq] at hall
  simpa using hall

/-- Beside a copy, one node that holds nothing may be found as well. -/
theorem find_of_beside (h : IsCopy R C s t) (hs : s.IsSound) (ht : t.IsSound)
    (hnode : C.node root = root) {a : NodeId} (hbefore : C.before = [a]) (hbehind : C.behind = [])
    (hnil : t.children a = []) (kind : RuleKind) : cx'.find t root kind =
      [a].filter (cx'.isA t kind) ++ (cx.find s root kind).map C.node := by
  have hall := find_copy_root hR h hs ht kind
  rw [hnode, hbefore, hbehind] at hall
  rw [hall]
  simp [ht.toIsForest.descendants_eq a, hnil]

/-- What is found in the node that holds a copy are copies. -/
theorem find_of_within (h : IsCopy R C s t) (hs : s.IsSound) (ht : t.IsSound)
    (hbefore : C.before = []) (hbehind : C.behind = []) (kind : RuleKind) :
    cx'.find t (C.node root) kind = (cx.find s root kind).map C.node := by
  have hall := find_copy_root hR h hs ht kind
  rw [hbefore, hbehind] at hall
  simpa using hall

/-- Around a copy, the one node that holds it may be found as well. -/
theorem find_of_around (h : IsCopy R C s t) (hs : s.IsSound) (ht : t.IsSound)
    (hbefore : C.before = []) (hbehind : C.behind = []) (hroot : t.children root = [C.node root])
    (kind : RuleKind) : cx'.find t root kind =
      [C.node root].filter (cx'.isA t kind) ++ (cx.find s root kind).map C.node := by
  rw [← find_of_within hR h hs ht hbefore hbehind, find_eq_filter, find_eq_filter,
    ht.toIsForest.descendants_eq root, hroot, List.flatMap_singleton, ← List.singleton_append,
    List.filter_append]

end Find

/-! ## From pass to pass -/

/-- Where a run stands between two passes, with nothing noted. -/
def Progress.standing (p : Progress) : Standing :=
  ⟨{}, [], p⟩

/-- What followed still does when what was noted is dropped. -/
theorem Follows.restart {Q : Prop} {a b a' b' : Standing} (h : Follows Q N C C' a b a' b') :
    Follows Q N C C' a.progress.standing b.progress.standing a'.progress.standing
      b'.progress.standing :=
  { h with
    elsewhere := fun x hx hout => ⟨(h.elsewhere x hx hout).1, rfl⟩
    map_elsewhere := fun _ _ => rfl }

theorem Parallel.endsTied {Q : Prop} {σ τ : Type} {v : σ → Standing} {w : τ → Standing}
    {a b : Standing} {r : Except Stopped σ} {r' : Except Stopped τ}
    (h : Parallel R Q N v w C a b r r') :
    EndsAlike (fun x y => ∃ C', Tied R N C' (v x) (w y) ∧ Follows Q N C C' a b (v x) (w y))
      r r' := by
  cases h with
  | ok htied hf => exact .ok ⟨_, htied, hf⟩
  | error he => exact .error he

/-- Two runs, one from `s` and one from its copy `t` on, have come side by side to `p` and `q`. -/
structure Along (cx' : Context) (R : Content → Content → Prop) (N : String → Prop) (C C' : Copy)
    (s t : Sheet) (p q : Progress) : Prop where
  tied : Tied R N C' p.standing q.standing
  follows : Follows False N C C' (Progress.standing { sheet := s })
    (Progress.standing { sheet := t }) p.standing q.standing
  exchange : ∃ replaced dropped, Exchange cx' t q.sheet replaced dropped

namespace Along

theorem sound (h : Along cx' R N C C' s t p q) : p.sheet.IsSound := h.tied.sound

theorem sound_copy (h : Along cx' R N C C' s t p q) : q.sheet.IsSound := h.tied.sound_copy

theorem copy (h : Along cx' R N C C' s t p q) : IsCopy R C' p.sheet q.sheet := h.tied.copy

end Along

/-- Runs that began with nothing noted have warned of the same and counted the same. -/
theorem Follows.report_eq {Q : Prop}
    (h : Follows Q N C C' (Progress.standing { sheet := s }) (Progress.standing { sheet := t })
      p.standing q.standing) : q.warnings = p.warnings ∧ q.stats = p.stats := by
  obtain ⟨ws, st, -, hw, hw', hst, hst'⟩ := h.gains
  exact ⟨hw'.trans hw.symm, hst'.trans hst.symm⟩

/-- All along, the second run finds the copies of what the first one finds. -/
def FindsCopies (cx cx' : Context) (R : Content → Content → Prop) (N : String → Prop) (C : Copy)
    (s t : Sheet) : Prop :=
  ∀ C' p q, Along cx' R N C C' s t p q → ∀ kind,
    cx'.find q.sheet root kind = (cx.find p.sheet root kind).map C'.node

theorem findsCopies_of_isWhole (hR : Likeness cx cx' R) (hs : s.IsSound) (hC : C.IsWhole) :
    FindsCopies cx cx' R N C s t := by
  intro C' p q h kind
  exact find_of_isWhole hR h.copy ((h.follows.continues hs).isWhole hC) h.sound h.sound_copy kind

/-- One more pass in parallel. What was noted in it is kept. -/
theorem Along.pass (ht : t.IsSound) (h : Along cx' R N C C' s t p q) {σ τ : Type}
    {v : σ → Standing} {w : τ → Standing} {a b : Standing} (ha : a.progress = p)
    (hb : b.progress = q) {r : Except Stopped σ} {r' : Except Stopped τ}
    (hpass : Parallel R False N v w C' a b r r') {dropped : List NodeId} {kinds : RuleKind → Prop}
    (hended : Ended cx' (fun y => (w y).progress) q dropped kinds r') :
    EndsAlike (fun x y => ∃ C'', Tied R N C'' (v x) (w y) ∧
      Along cx' R N C C'' s t (v x).progress (w y).progress) r r' := by
  subst ha hb
  cases hpass with
  | error he => exact .error he
  | @ok C'' x y htied hf =>
    obtain ⟨⟨replaced', hlow⟩, -⟩ := hended
    obtain ⟨replaced, dropped', hex⟩ := h.exchange
    refine .ok ⟨C'', htied, htied.restart, h.follows.trans hf.restart, ?_⟩
    exact ⟨_, _, hex.trans ht hlow.exchange⟩

theorem states_endAlike (hR : Likeness cx cx' R) (h : Tied R N C p.standing q.standing)
    (hfind : cx'.find q.sheet root .when = (cx.find p.sheet root .when).map C.node) :
    EndsAlike (fun p' q' => ∃ C', Tied R N C' p'.standing q'.standing ∧
      Follows False N C C' p.standing q.standing p'.standing q'.standing)
      (lowerStates cx p) (lowerStates cx' q) := by
  have hpass := states_parallel (Q := False) hR h
  rw [← hfind] at hpass
  refine EndsAlike.bind (P := fun x y => ∃ C', Tied R N C' ⟨{}, x.1, x.2⟩ ⟨{}, y.1, y.2⟩ ∧
    Follows False N C C' p.standing q.standing ⟨{}, x.1, x.2⟩ ⟨{}, y.1, y.2⟩) ?_ ?_
  · exact hpass.endsTied
  · rintro x y - - ⟨C', htied, hf⟩
    exact .ok ⟨C', htied.restart, hf.restart⟩

/-- Whole runs over a sheet and a copy of it, under contexts and options that say the same of what
goes together. -/
theorem transform_parallel {o o' : Options}
    (hR : Likeness (.ofOptions o) (.ofOptions o') R)
    (hdefault : o'.defaultNamespace = o.defaultNamespace)
    (h : Tied R N C (Progress.standing { sheet := s }) (Progress.standing { sheet := t }))
    (hfind : FindsCopies (.ofOptions o) (.ofOptions o') R N C s t) :
    EndsAlike (fun p q => ∃ C', Tied R N C' p.standing q.standing ∧
      Follows False N C C' (Progress.standing { sheet := s }) (Progress.standing { sheet := t })
        p.standing q.standing) (s.transform o) (t.transform o') := by
  have ht : t.IsSound := h.sound_copy
  have hconvention : o'.convention = o.convention := hR.convention_eq
  have hstart : Along (.ofOptions o') R N C C s t { sheet := s } { sheet := t } :=
    ⟨h, .refl False N C _ _, [], [], .refl _ ht⟩
  rw [transform_eq, transform_eq]
  -- The utilities.
  refine EndsAlike.bind (P := fun p q => ∃ C', Along (.ofOptions o') R N C C' s t p q) ?_ ?_
  · unfold withoutUtilities
    rw [hconvention]
    split
    · have hpass := utilities_parallel hR h
      rw [← hfind _ _ _ hstart .utility] at hpass
      refine (hstart.pass ht rfl rfl hpass (lowerUtilities_ended ht)).mono ?_
      rintro p q - - ⟨C', -, h'⟩
      exact ⟨C', h'⟩
    · exact .ok ⟨C, hstart⟩
  rintro p q - - ⟨C₁, h₁⟩
  -- The namespaces. What they say of inputs is needed for the components.
  have hnamespaces := namespaces_parallel (Q := False) hR h₁.tied
  rw [← hfind _ _ _ h₁ .componentNamespace] at hnamespaces
  refine EndsAlike.bind (h₁.pass ht rfl rfl hnamespaces
    (lowerNamespaces_ended (.ofOptions o') h₁.sound_copy)) ?_
  rintro x y - - ⟨C₂, htied, h₂⟩
  -- The components.
  have hcomponents := components_parallel (Q := False) hR htied o.defaultNamespace
  rw [← hfind _ _ _ h₂ .component] at hcomponents
  rw [hdefault]
  refine EndsAlike.bind (h₂.pass ht rfl rfl hcomponents
    (lowerComponents_ended h₂.sound_copy y.1 o.defaultNamespace)) ?_
  rintro p q - - ⟨C₃, -, h₃⟩
  -- The states.
  rw [hconvention]
  split
  · refine (states_endAlike hR h₃.tied (hfind _ _ _ h₃ .when)).mono ?_
    rintro p' q' - - ⟨C', htied', hf⟩
    exact ⟨C', htied', h₃.follows.trans hf⟩
  · exact .ok ⟨C₃, h₃.tied, h₃.follows⟩

end Lowering

open Lowering

namespace Sheet

/-! ## The sheet of some trees -/

/-- The sheet of some trees from some inputs. -/
def ofForest (inputs : Array Input) (trees : List Tree) : Sheet :=
  Sheet.addForest ⟨empty.nodes, inputs⟩ root trees

section OfForest

variable (inputs : Array Input) {trees : List Tree}

theorem isSound_ofForest (h : EverywhereIn Carries trees) : (ofForest inputs trees).IsSound :=
  (isSound_empty.withInputs inputs).addForest h

theorem isWhole_ofForest (trees : List Tree) : (ofForest inputs trees).IsWhole :=
  IsWhole.addForest (s := ⟨empty.nodes, inputs⟩) isWhole_empty

theorem forest_ofForest (trees : List Tree) : (ofForest inputs trees).forest = trees :=
  (isSound_empty.withInputs inputs).forest_addForest trees

end OfForest

/-- A run over some trees is tied to one over a sheet in which they stand under a node. -/
theorem exists_tied {t : Sheet} {trees : List Tree} {N : String → Prop} (ht : t.IsSound)
    (hcarries : EverywhereIn Carries trees) {x : NodeId} (hx : t.HangsOn x root)
    (hkind : t.kind x ≠ .rule) (before mid behind : List NodeId)
    (hchildren : t.children x = before ++ mid ++ behind) (hmid : mid.map t.tree = trees)
    (hsource : ∀ n ∈ walkForest 0 trees, ∃ y, n.2.2 = some y ∧ N (t.inputName y.input)) :
    ∃ C : Copy, C.node root = x ∧ C.input = id ∧ C.before = before ∧ C.behind = behind ∧
      Tied Eq N C (Progress.standing { sheet := ofForest t.inputs trees })
        (Progress.standing { sheet := t }) := by
  have hs := isSound_ofForest t.inputs hcarries
  have hw := isWhole_ofForest t.inputs trees
  obtain ⟨f, hf, -, hcopy⟩ := exists_isCopy (R := Eq) (g := id) hs hw ht hx before mid behind
    hchildren
    ((alikeIn_eq_iff id _ _).2 (by rw [forest_ofForest, relabelForest_id, hmid]))
    fun a _ source _ => rfl
  refine ⟨_, hf, rfl, rfl, rfl, .start hs ht hcopy ?_ ?_⟩
  · change t.kind (f root) ≠ .rule
    rwa [hf]
  · intro a ha hne
    obtain ⟨d, hd⟩ := hs.toIsForest.exists_mem_walkForest (hw.hangsOn_root hs.toIsForest ha) hne
    rw [forest_ofForest] at hd
    obtain ⟨y, hy, hN⟩ := hsource _ hd
    have hy : (ofForest t.inputs trees).source a = some y := hy
    refine ⟨_, ?_, hN⟩
    change ((ofForest t.inputs trees).source a).map _ = _
    rw [hy]
    rfl

end Sheet

end ClassRules
