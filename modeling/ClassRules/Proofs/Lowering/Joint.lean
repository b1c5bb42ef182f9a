import ClassRules.Proofs.Lowering.ParallelPasses

/-!
# Two sheets in one

A sheet whose text is that of two others, one behind the other, is lowered as these are.

## What this module delivers

- `Joint`: a run on a sheet in which those of two other runs stand one behind the other.
- `Tied.beside`: what is done to one of the two leaves the other a copy.
- `Joint.pass`: a pass over the joint sheet goes through the first part and then through the second.
- `transform_joint`: a whole run ends as the two runs do.
-/

set_option autoImplicit false

namespace ClassRules

namespace Lowering

open Sheet

variable {R : Content → Content → Prop} {Q : Prop} {M N : String → Prop} {C C' D D' : Copy}
  {a a' b b' w w' : Standing}

/-! ## Two parts -/

/-- The sheets of `a` and `b` stand one behind the other in the sheet of `w`. Their inputs have
other names, `M` and `N`, and `w` has warned of what `a` and then of what `b` has warned of. -/
structure Joint (M N : String → Prop) (C D : Copy) (a b w : Standing) : Prop where
  left : Tied Eq M C a w
  right : Tied Eq N D b w
  left_root : C.node root = root
  right_root : D.node root = root
  left_before : C.before = []
  left_behind : C.behind = (b.sheet.children root).map D.node
  right_before : D.before = (a.sheet.children root).map C.node
  right_behind : D.behind = []
  apart : ∀ x y, a.sheet.Has x → b.sheet.Has y → x ≠ root → C.node x ≠ D.node y
  names_apart : ∀ n, M n → ¬ N n
  warnings_eq : w.progress.warnings = a.progress.warnings ++ b.progress.warnings

/-- A copy on the root stays one when its nodes and what is noted for them stay, whatever is done
beside it. -/
theorem Tied.beside (h : Tied R N D b w) (hroot : D.node root = root) {before behind : List NodeId}
    (hsound : w'.sheet.IsSound) (hinputs : w'.sheet.inputs = w.sheet.inputs)
    (hhas : ∀ x, w.sheet.Has x → w'.sheet.Has x)
    (hsame : ∀ y, b.sheet.Has y → y ≠ root → w'.sheet.node (D.node y) = w.sheet.node (D.node y) ∧
      w'.emitted.lookup (D.node y) = w.emitted.lookup (D.node y))
    (hmap : ∀ n, N n → w'.map.get? n = w.map.get? n)
    (hemitted : ∀ x y, w'.emitted.lookup x = some y → w'.sheet.Has x)
    (hchildren : w'.sheet.children root = before ++ (b.sheet.children root).map D.node ++ behind)
    (hout : ∀ x ∈ before ++ behind, ∀ y, b.sheet.Has y → D.node y ≠ x) :
    Tied R N ⟨D.node, D.input, before, behind⟩ b w' := by
  have hnode : ∀ y, b.sheet.Has y → y ≠ root →
      w'.sheet.node (D.node y) = w.sheet.node (D.node y) := fun y hy hne => (hsame y hy hne).1
  constructor
  case sound => exact h.sound
  case sound_copy => exact hsound
  case copy =>
    -- Only the root has other children.
    refine h.copy.transfer h.sound (fun _ _ => rfl) rfl ?_ ?_ (fun y hy => hhas _ (h.copy.has y hy))
      ?_ ?_ ?_ ?_ ?_ ?_ hout
    · intro i
      rw [inputName, inputName, hinputs]
    · rw [hroot]
      exact .refl _ _
    · intro y hy hne e
      exact hne (h.copy.root_only y hy (e.trans hroot))
    · exact fun y hy hne => congrArg Node.content (hnode y hy hne)
    · exact fun y hy hne => congrArg Node.source (hnode y hy hne)
    · exact fun y hy hne => congrArg Node.children (hnode y hy hne)
    · exact fun y hy hne hp =>
        (congrArg Node.parent (hnode y hy hne)).trans (h.copy.orphan y hy hne hp)
    · rw [hroot]
      exact hchildren
  case scope =>
    change (w'.sheet.content (D.node root)).kind ≠ .rule
    rw [hroot, hsound.content_root]
    decide
  case named => exact h.named
  case map_eq => exact fun n hn => (hmap n hn).trans (h.map_eq n hn)
  case emitted_eq =>
    exact fun y hy hne => (hsame y hy hne).2.trans (h.emitted_eq y hy hne)
  case emitted_has => exact h.emitted_has
  case emitted_has_copy => exact hemitted

/-- What a step does to a part leaves alone what is a copy of the other one. -/
theorem Follows.beside (hf : Follows Q M C C' a w a' w') (ht : Tied R M C' a' w')
    (h : Tied R N D b w) (hnode : D.node root = root)
    (hapart : ∀ y, b.sheet.Has y → y ≠ root → ∀ x, a.sheet.Has x → C.node x ≠ D.node y)
    (hnames : ∀ n, N n → ¬ M n) {before behind : List NodeId}
    (hchildren : w'.sheet.children root = before ++ (b.sheet.children root).map D.node ++ behind)
    (hout : ∀ x ∈ before ++ behind, ∃ c ∈ a'.sheet.children root, C'.node c = x) :
    Tied R N ⟨D.node, D.input, before, behind⟩ b w' := by
  refine h.beside hnode ht.sound_copy hf.inputs_copy_eq hf.has_copy ?_
    (fun n hn => hf.map_elsewhere n (hnames n hn)) ht.emitted_has_copy hchildren ?_
  · exact fun y hy hne => hf.elsewhere _ (h.copy.has y hy) (hapart y hy hne)
  · rintro _ hx y hy e
    obtain ⟨c, hc, rfl⟩ := hout _ hx
    have hp := ht.sound.mem_children_iff.1 hc
    by_cases hne : y = root
    · have hcr := ht.copy.root_only c (has_of_parent hp) (by rw [← e, hne, hnode])
      exact ht.sound.ne_root_of_parent hp hcr
    · exact hf.ne_of_elsewhere (h.copy.has y hy) (hapart y hy hne) c (has_of_parent hp) e.symm

namespace Joint

variable (h : Joint M N C D a b w)

include h

theorem apart_right (y : NodeId) (hy : b.sheet.Has y) (hne : y ≠ root) (x : NodeId)
    (hx : a.sheet.Has x) : C.node x ≠ D.node y := by
  by_cases hroot : x = root
  · intro e
    rw [hroot, h.left_root] at e
    exact hne (h.right.copy.root_only y hy e.symm)
  · exact h.apart x y hx hy hroot

/-- The first part is lowered further. -/
theorem advance_left (ht : Tied Eq M C' a' w') (hf : Follows Q M C C' a w a' w')
    (hquiet : Q ∨ b.progress.warnings = []) :
    ∃ D', D'.node = D.node ∧ Joint M N C' D' a' b w' := by
  have hcont := hf.continues h.left.sound
  have hnode : C'.node root = root := hcont.node_root.trans h.left_root
  -- The second part still stands behind all that has become of the first one.
  have hchildren : w'.sheet.children root = (a'.sheet.children root).map C'.node ++
      (b.sheet.children root).map D.node ++ [] := by
    have hroot := ht.copy.children_root ht.sound
    rw [hnode, hcont.before_eq, h.left_before, hcont.behind_eq, h.left_behind] at hroot
    rw [hroot]
    simp
  refine ⟨⟨D.node, D.input, (a'.sheet.children root).map C'.node, []⟩, rfl, ?_⟩
  constructor
  case left => exact ht
  case right =>
    refine hf.beside ht h.right h.right_root h.apart_right
      (fun n hN hM => h.names_apart n hM hN) hchildren fun x hx => ?_
    rw [List.append_nil] at hx
    exact List.mem_map.1 hx
  case left_root => exact hnode
  case right_root => exact h.right_root
  case left_before => exact hcont.before_eq.trans h.left_before
  case left_behind => exact hcont.behind_eq.trans h.left_behind
  case right_before => rfl
  case right_behind => rfl
  case apart =>
    intro x y hx hy hne
    by_cases hold : a.sheet.Has x
    · rw [hf.node_eq x hold]
      exact h.apart x y hold hy hne
    · exact fun e => hf.fresh x hold hx (e ▸ h.right.copy.has y hy)
  case names_apart => exact h.names_apart
  case warnings_eq =>
    obtain ⟨warnings, -, hQ, hw, hw', -, -⟩ := hf.gains
    rw [hw, hw', h.warnings_eq]
    -- New warnings come behind those of the second part, so one of both must be without any.
    rcases hquiet with hquiet | hnil
    · simp [hQ hquiet]
    · simp [hnil]

/-- The second part is lowered further. -/
theorem advance_right (ht : Tied Eq N D' b' w') (hf : Follows Q N D D' b w b' w') :
    ∃ C', C'.node = C.node ∧ Joint M N C' D' a b' w' := by
  have hcont := hf.continues h.right.sound
  have hnode : D'.node root = root := hcont.node_root.trans h.right_root
  have hchildren : w'.sheet.children root = [] ++ (a.sheet.children root).map C.node ++
      (b'.sheet.children root).map D'.node := by
    have hroot := ht.copy.children_root ht.sound
    rw [hnode, hcont.before_eq, h.right_before, hcont.behind_eq, h.right_behind] at hroot
    rw [hroot]
    simp
  refine ⟨⟨C.node, C.input, [], (b'.sheet.children root).map D'.node⟩, rfl, ?_⟩
  constructor
  case left =>
    refine hf.beside ht h.left h.left_root (fun x hx hne y hy e => h.apart x y hx hy hne e.symm)
      h.names_apart hchildren fun x hx => List.mem_map.1 hx
  case right => exact ht
  case left_root => exact h.left_root
  case right_root => exact hnode
  case left_before => rfl
  case left_behind => rfl
  case right_before => exact hcont.before_eq.trans h.right_before
  case right_behind => exact hcont.behind_eq.trans h.right_behind
  case apart =>
    intro x y hx hy hne
    by_cases hold : b.sheet.Has y
    · rw [hf.node_eq y hold]
      exact h.apart x y hx hold hne
    · exact fun e => hf.fresh y hold hy (e ▸ h.left.copy.has x hx)
  case names_apart => exact h.names_apart
  case warnings_eq =>
    obtain ⟨warnings, -, -, hw, hw', -, -⟩ := hf.gains
    rw [hw, hw', h.warnings_eq, List.append_assoc]

/-- Between two passes nothing is noted. -/
theorem restart : Joint M N C D ⟨{}, [], a.progress⟩ ⟨{}, [], b.progress⟩ ⟨{}, [], w.progress⟩ :=
  { h with left := h.left.restart, right := h.right.restart }

/-- A search goes through the first part and then through the second. -/
theorem find_root (cx : Context) (kind : RuleKind) : cx.find w.sheet root kind =
    (cx.find a.sheet root kind).map C.node ++ (cx.find b.sheet root kind).map D.node := by
  have hall := find_copy_root (.refl cx) h.left.copy h.left.sound h.left.sound_copy kind
  rw [h.left_root, h.left_before, h.left_behind,
    h.right.copy.flatMap_descendants h.right.sound h.right.sound_copy,
    filter_isA_map (.refl cx) h.right.copy kind fun x hx => h.right.sound.of_mem_descendants hx,
    ← find_eq_filter] at hall
  simpa using hall

end Joint

/-! ## Runs over two parts -/

/-- How a joint run ends: as both runs do, or with the fault of one of them. -/
inductive JointEnd {σ τ υ : Type} (P : σ → τ → υ → Prop) :
    Except Stopped σ → Except Stopped τ → Except Stopped υ → Prop where
  | ok {x : σ} {y : τ} {z : υ} : P x y z → JointEnd P (.ok x) (.ok y) (.ok z)
  | left {e e' : Stopped} {r : Except Stopped τ} :
    e'.fault = e.fault → JointEnd P (.error e) r (.error e')
  | right {e e' : Stopped} {r : Except Stopped σ} :
    e'.fault = e.fault → JointEnd P r (.error e) (.error e')

theorem JointEnd.bind {σ τ υ σ' τ' υ' : Type} {P : σ → τ → υ → Prop} {P' : σ' → τ' → υ' → Prop}
    {r₁ : Except Stopped σ} {r₂ : Except Stopped τ} {r : Except Stopped υ}
    (h : JointEnd P r₁ r₂ r) {k₁ : σ → Except Stopped σ'} {k₂ : τ → Except Stopped τ'}
    {k : υ → Except Stopped υ'} (hk : ∀ x y z, P x y z → JointEnd P' (k₁ x) (k₂ y) (k z)) :
    JointEnd P' (r₁ >>= k₁) (r₂ >>= k₂) (r >>= k) := by
  cases h with
  | ok hxyz => exact hk _ _ _ hxyz
  | left he => exact .left he
  | right he => exact .right he

/-- A pass over the first part and then over the second one. -/
theorem Joint.pass {σ τ υ : Type} {v₁ : σ → Standing} {v₂ : τ → Standing} {v : υ → Standing}
    (h : Joint M N C D a b w) (hquiet : Q ∨ b.progress.warnings = []) {r₁ : Except Stopped σ}
    {r₂ : Except Stopped τ} {r : Except Stopped υ} {k : υ → Except Stopped υ}
    (hleft : Parallel Eq Q M v₁ v C a w r₁ r)
    (hright : ∀ D' z, D'.node = D.node → Tied Eq N D' b (v z) →
      Parallel Eq Q N v₂ v D' b (v z) r₂ (k z)) :
    JointEnd (fun x y z => ∃ C D, Joint M N C D (v₁ x) (v₂ y) (v z)) r₁ r₂ (r >>= k) := by
  cases hleft with
  | error he => exact .left he
  | @ok C' x z ht hf =>
    obtain ⟨D', hD, h'⟩ := h.advance_left ht hf hquiet
    change JointEnd _ _ _ (k z)
    have hsecond := hright D' z hD h'.right
    revert hsecond
    generalize k z = r
    intro hsecond
    cases hsecond with
    | error he => exact .right he
    | ok ht' hf' =>
      obtain ⟨C'', -, h''⟩ := h'.advance_right ht' hf'
      exact .ok ⟨C'', _, h''⟩

/-! ## The four passes -/

section Passes

variable {cx : Context} {p q r : Progress} {m m₁ m₂ : NamespaceMap}

theorem lowerUtilities_joint (h : Joint M N C D ⟨{}, [], p⟩ ⟨{}, [], q⟩ ⟨{}, [], r⟩)
    (hquiet : q.warnings = []) :
    JointEnd (fun p q r => ∃ C D, Joint M N C D ⟨{}, [], p⟩ ⟨{}, [], q⟩ ⟨{}, [], r⟩)
      (lowerUtilities cx p) (lowerUtilities cx q) (lowerUtilities cx r) := by
  have hfind : cx.find r.sheet root .utility = _ := h.find_root cx .utility
  rw [lowerUtilities.eq_def cx r, hfind, List.foldlM_append]
  refine h.pass (.inr hquiet) (utilities_parallel (.refl cx) h.left) fun D' z hD ht => ?_
  rw [← hD]
  exact utilities_parallel (.refl cx) ht

theorem lowerNamespaces_joint (h : Joint M N C D ⟨{}, [], p⟩ ⟨{}, [], q⟩ ⟨{}, [], r⟩) :
    JointEnd (fun x y z => ∃ C D,
        Joint M N C D ⟨x.1, [], x.2⟩ ⟨y.1, [], y.2⟩ ⟨z.1, [], z.2⟩)
      (lowerNamespaces cx p) (lowerNamespaces cx q) (lowerNamespaces cx r) := by
  have hfind : cx.find r.sheet root .componentNamespace = _ := h.find_root cx .componentNamespace
  rw [lowerNamespaces.eq_def cx r, hfind, List.foldlM_append]
  refine h.pass (Q := True) (.inl trivial) (namespaces_parallel (.refl cx) h.left)
    fun D' z hD ht => ?_
  rw [← hD]
  exact namespaces_parallel (.refl cx) ht

theorem lowerComponents_joint (h : Joint M N C D ⟨m₁, [], p⟩ ⟨m₂, [], q⟩ ⟨m, [], r⟩)
    (default : Option String) :
    JointEnd (fun p q r => ∃ C D, Joint M N C D ⟨m₁, [], p⟩ ⟨m₂, [], q⟩ ⟨m, [], r⟩)
      (lowerComponents cx m₁ default p) (lowerComponents cx m₂ default q)
      (lowerComponents cx m default r) := by
  have hfind : cx.find r.sheet root .component = _ := h.find_root cx .component
  rw [lowerComponents.eq_def cx m default r, hfind, List.foldlM_append]
  refine h.pass (Q := True) (.inl trivial) (components_parallel (.refl cx) h.left default)
    fun D' z hD ht => ?_
  rw [← hD]
  exact components_parallel (.refl cx) ht default

theorem lowerStates_joint (h : Joint M N C D ⟨{}, [], p⟩ ⟨{}, [], q⟩ ⟨{}, [], r⟩) :
    JointEnd (fun p q r => ∃ C D, Joint M N C D ⟨{}, [], p⟩ ⟨{}, [], q⟩ ⟨{}, [], r⟩)
      (lowerStates cx p) (lowerStates cx q) (lowerStates cx r) := by
  have hfind : cx.find r.sheet root .when = _ := h.find_root cx .when
  rw [lowerStates.eq_def cx r, hfind, List.foldlM_append]
  have hpass : JointEnd (fun x y z => ∃ C D,
      Joint M N C D ⟨{}, x.1, x.2⟩ ⟨{}, y.1, y.2⟩ ⟨{}, z.1, z.2⟩)
      ((cx.find p.sheet root .when).foldlM (lowerState cx) ([], p))
      ((cx.find q.sheet root .when).foldlM (lowerState cx) ([], q))
      (((cx.find p.sheet root .when).map C.node).foldlM (lowerState cx) ([], r) >>= fun z =>
        ((cx.find q.sheet root .when).map D.node).foldlM (lowerState cx) z) := by
    refine h.pass (Q := True) (.inl trivial) (states_parallel (.refl cx) h.left)
      fun D' z hD ht => ?_
    rw [← hD]
    exact states_parallel (.refl cx) ht
  refine hpass.bind ?_
  rintro x y z ⟨C, D, h'⟩
  exact .ok ⟨C, D, h'.restart⟩

end Passes

end Lowering

open Lowering

namespace Sheet

/-- A whole run over two sheets in one. -/
theorem transform_joint {M N : String → Prop} {C D : Copy} {s t u : Sheet} (o : Options)
    (h : Joint M N C D ⟨{}, [], { sheet := s }⟩ ⟨{}, [], { sheet := t }⟩
      ⟨{}, [], { sheet := u }⟩) :
    JointEnd (fun p q r => ∃ C D, Joint M N C D ⟨{}, [], p⟩ ⟨{}, [], q⟩ ⟨{}, [], r⟩)
      (s.transform o) (t.transform o) (u.transform o) := by
  rw [transform_eq, transform_eq, transform_eq]
  refine JointEnd.bind (P := fun p q r => ∃ C D,
    Joint M N C D ⟨{}, [], p⟩ ⟨{}, [], q⟩ ⟨{}, [], r⟩) ?_ ?_
  · unfold withoutUtilities
    split
    · exact lowerUtilities_joint h rfl
    · exact .ok ⟨C, D, h⟩
  rintro p q r ⟨C, D, h⟩
  refine (lowerNamespaces_joint h).bind ?_
  rintro x y z ⟨C, D, h⟩
  refine (lowerComponents_joint h o.defaultNamespace).bind ?_
  rintro p q r ⟨C, D, h⟩
  split
  · exact lowerStates_joint h.restart
  · exact .ok ⟨C, D, h.restart⟩

end Sheet

end ClassRules
