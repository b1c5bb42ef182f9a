import ClassRules.Proofs.Lowering.PlanCopy

/-!
# Runs side by side

A run on a sheet and a run on a copy of it that make the same steps stay side by side.

## What this module delivers

- `Standing`: what a pass goes on with.
- `Tied`: how two runs stand to each other, one on a copy of the other's sheet.
- `Tied.start`: runs that have noted nothing yet are tied.
- `Follows`: what both runs do from there on, and what the second one leaves alone.
- `Parallel`: both runs come to an end in which they are tied, or stop with the same fault.
- `Tied.step`, `Parallel.bind`, `parallel_foldlM`: so does one edit, so do two parts of a run, and
  so does a run over a list.
-/

set_option autoImplicit false

namespace ClassRules.Lowering

open Sheet

/-- What a pass goes on with: the namespaces of inputs, for rules that have had states the last rule
put behind them, and what was done. -/
structure Standing where
  map : NamespaceMap
  emitted : List (NodeId × NodeId)
  progress : Progress

/-- The sheet that a pass goes on with. -/
def Standing.sheet (a : Standing) : Sheet :=
  a.progress.sheet

/-- The run `b` is on a copy of the sheet of `a`, which stands in no rule. For the inputs of these
nodes, which have the names `N`, and for these nodes themselves, both have noted the same. -/
structure Tied (R : Content → Content → Prop) (N : String → Prop) (C : Copy) (a b : Standing) :
    Prop where
  sound : a.sheet.IsSound
  sound_copy : b.sheet.IsSound
  copy : IsCopy R C a.sheet b.sheet
  scope : b.sheet.kind (C.node root) ≠ .rule
  named : ∀ x, a.sheet.Has x → x ≠ root → ∃ n, a.sheet.sourceName? x = some n ∧ N n
  map_eq : ∀ n, N n → b.map.get? n = a.map.get? n
  emitted_eq : ∀ x, a.sheet.Has x → x ≠ root →
    b.emitted.lookup (C.node x) = (a.emitted.lookup x).map C.node
  emitted_has : ∀ x y, a.emitted.lookup x = some y → a.sheet.Has x ∧ a.sheet.Has y ∧ y ≠ root
  emitted_has_copy : ∀ x y, b.emitted.lookup x = some y → b.sheet.Has x

/-- From `a` to `a'` and from `b` to `b'`, the same was noted and counted, and nothing was noted if
that is so in quiet runs, `Q`. Nodes that were there say the same as before, and the second run
leaves alone what is no copy. -/
structure Follows (Q : Prop) (N : String → Prop) (C C' : Copy) (a b a' b' : Standing) : Prop where
  input_eq : C'.input = C.input
  before_eq : C'.before = C.before
  behind_eq : C'.behind = C.behind
  has : ∀ x, a.sheet.Has x → a'.sheet.Has x
  node_eq : ∀ x, a.sheet.Has x → C'.node x = C.node x
  content_eq : ∀ x, a.sheet.Has x → a'.sheet.content x = a.sheet.content x
  has_copy : ∀ x, b.sheet.Has x → b'.sheet.Has x
  fresh : ∀ x, ¬ a.sheet.Has x → a'.sheet.Has x → ¬ b.sheet.Has (C'.node x)
  inputs_eq : a'.sheet.inputs = a.sheet.inputs
  inputs_copy_eq : b'.sheet.inputs = b.sheet.inputs
  elsewhere : ∀ x, b.sheet.Has x → (∀ y, a.sheet.Has y → C.node y ≠ x) →
    b'.sheet.node x = b.sheet.node x ∧ b'.emitted.lookup x = b.emitted.lookup x
  map_elsewhere : ∀ n, ¬ N n → b'.map.get? n = b.map.get? n
  gains : ∃ warnings stats, (Q → warnings = []) ∧
    a'.progress.warnings = a.progress.warnings ++ warnings ∧
    b'.progress.warnings = b.progress.warnings ++ warnings ∧
    a'.progress.stats = a.progress.stats + stats ∧ b'.progress.stats = b.progress.stats + stats

/-- Both runs end tied, having followed each other from `a` and `b` on, or stop with the same
fault. -/
inductive Parallel {σ τ : Type} (R : Content → Content → Prop) (Q : Prop) (N : String → Prop)
    (v : σ → Standing) (w : τ → Standing) (C : Copy) (a b : Standing) :
    Except Stopped σ → Except Stopped τ → Prop where
  | ok {C' : Copy} {x : σ} {y : τ} : Tied R N C' (v x) (w y) → Follows Q N C C' a b (v x) (w y) →
    Parallel R Q N v w C a b (.ok x) (.ok y)
  | error {e e' : Stopped} : e'.fault = e.fault → Parallel R Q N v w C a b (.error e) (.error e')

variable {R : Content → Content → Prop} {Q : Prop} {N : String → Prop} {C C' C'' : Copy}
  {a b a' b' a'' b'' : Standing}

/-- Two runs that have noted nothing are tied if one is on a copy of the other's sheet. -/
theorem Tied.start {p q : Progress} (hs : p.sheet.IsSound) (ht : q.sheet.IsSound)
    (hcopy : IsCopy R C p.sheet q.sheet) (hscope : q.sheet.kind (C.node root) ≠ .rule)
    (hnamed : ∀ x, p.sheet.Has x → x ≠ root → ∃ n, p.sheet.sourceName? x = some n ∧ N n) :
    Tied R N C ⟨{}, [], p⟩ ⟨{}, [], q⟩ where
  sound := hs
  sound_copy := ht
  copy := hcopy
  scope := hscope
  named := hnamed
  map_eq _ _ := rfl
  emitted_eq _ _ _ := rfl
  emitted_has _ _ h := by cases h
  emitted_has_copy _ _ h := by cases h

namespace Follows

theorem refl (Q : Prop) (N : String → Prop) (C : Copy) (a b : Standing) :
    Follows Q N C C a b a b where
  input_eq := rfl
  before_eq := rfl
  behind_eq := rfl
  has _ hx := hx
  node_eq _ _ := rfl
  content_eq _ _ := rfl
  has_copy _ hx := hx
  fresh _ hnew hx := absurd hx hnew
  inputs_eq := rfl
  inputs_copy_eq := rfl
  elsewhere _ _ _ := ⟨rfl, rfl⟩
  map_elsewhere _ _ := rfl
  gains := ⟨[], {}, fun _ => rfl, by simp, by simp, (Stats.add_zero _).symm,
    (Stats.add_zero _).symm⟩

/-- What is no copy at the beginning is none afterwards. -/
theorem ne_of_elsewhere (h : Follows Q N C C' a b a' b') {x : NodeId} (hx : b.sheet.Has x)
    (hout : ∀ y, a.sheet.Has y → C.node y ≠ x) (y : NodeId) (hy : a'.sheet.Has y) :
    C'.node y ≠ x := by
  rintro rfl
  by_cases hold : a.sheet.Has y
  · exact hout y hold (h.node_eq y hold).symm
  · exact h.fresh y hold hy hx

theorem continues (h : Follows Q N C C' a b a' b') (hs : a.sheet.IsSound) : C.Continues C' :=
  ⟨h.node_eq root hs.has_root, h.input_eq, h.before_eq, h.behind_eq⟩

theorem trans (h₁ : Follows Q N C C' a b a' b') (h₂ : Follows Q N C' C'' a' b' a'' b'') :
    Follows Q N C C'' a b a'' b'' := by
  constructor
  case input_eq => exact h₂.input_eq.trans h₁.input_eq
  case before_eq => exact h₂.before_eq.trans h₁.before_eq
  case behind_eq => exact h₂.behind_eq.trans h₁.behind_eq
  case has => exact fun x hx => h₂.has x (h₁.has x hx)
  case node_eq =>
    exact fun x hx => (h₂.node_eq x (h₁.has x hx)).trans (h₁.node_eq x hx)
  case content_eq =>
    exact fun x hx => (h₂.content_eq x (h₁.has x hx)).trans (h₁.content_eq x hx)
  case has_copy => exact fun x hx => h₂.has_copy x (h₁.has_copy x hx)
  case fresh =>
    intro x hnew hx hhas
    -- What the first part made keeps its copy in the second one.
    by_cases hold : a'.sheet.Has x
    · rw [h₂.node_eq x hold] at hhas
      exact h₁.fresh x hnew hold hhas
    · exact h₂.fresh x hold hx (h₁.has_copy _ hhas)
  case inputs_eq => exact h₂.inputs_eq.trans h₁.inputs_eq
  case inputs_copy_eq => exact h₂.inputs_copy_eq.trans h₁.inputs_copy_eq
  case elsewhere =>
    intro x hx hout
    obtain ⟨hnode, hlookup⟩ := h₁.elsewhere x hx hout
    obtain ⟨hnode', hlookup'⟩ := h₂.elsewhere x (h₁.has_copy x hx) (h₁.ne_of_elsewhere hx hout)
    exact ⟨hnode'.trans hnode, hlookup'.trans hlookup⟩
  case map_elsewhere =>
    exact fun n hn => (h₂.map_elsewhere n hn).trans (h₁.map_elsewhere n hn)
  case gains =>
    obtain ⟨ws, st, hq, hw, hw', hst, hst'⟩ := h₁.gains
    obtain ⟨ws', st', hq', hws, hws', hsts, hsts'⟩ := h₂.gains
    refine ⟨ws ++ ws', st + st', fun hQ => ?_, ?_, ?_, ?_, ?_⟩
    · rw [hq hQ, hq' hQ]
      rfl
    · rw [hws, hw, List.append_assoc]
    · rw [hws', hw', List.append_assoc]
    · rw [hsts, hst, Stats.add_assoc]
    · rw [hsts', hst', Stats.add_assoc]

end Follows

namespace Parallel

variable {σ τ σ' τ' : Type} {v : σ → Standing} {w : τ → Standing} {v' : σ' → Standing}
  {w' : τ' → Standing}

/-- Nothing is done on both sides. -/
theorem refl (h : Tied R N C a b) {x : σ} {y : τ} (hx : v x = a) (hy : w y = b) :
    Parallel R Q N v w C a b (.ok x) (.ok y) := by
  subst hx hy
  exact .ok h (.refl Q N C _ _)

/-- What goes on in parallel from where two runs that followed each other have come. -/
theorem trans (hf : Follows Q N C C' a b a' b') {r : Except Stopped σ} {r' : Except Stopped τ}
    (h : Parallel R Q N v w C' a' b' r r') : Parallel R Q N v w C a b r r' := by
  cases h with
  | ok ht hf' => exact .ok ht (hf.trans hf')
  | error he => exact .error he

theorem bind {r : Except Stopped σ} {r' : Except Stopped τ} (h : Parallel R Q N v w C a b r r')
    {k : σ → Except Stopped σ'} {k' : τ → Except Stopped τ'}
    (hk : ∀ C' x y, r = .ok x → Tied R N C' (v x) (w y) → Follows Q N C C' a b (v x) (w y) →
      Parallel R Q N v' w' C' (v x) (w y) (k x) (k' y)) :
    Parallel R Q N v' w' C a b (r >>= k) (r' >>= k') := by
  cases h with
  | ok ht hf => exact .trans hf (hk _ _ _ rfl ht hf)
  | error he => exact .error he

end Parallel

/-- If single steps go in parallel, so does a run over nodes of the sheet that are at-rules of a
kind, and over their copies. -/
theorem parallel_foldlM {σ τ : Type} (v : σ → Standing) (w : τ → Standing) (cx : Context)
    {f : σ → NodeId → Except Stopped σ} {g : τ → NodeId → Except Stopped τ}
    (hstep : ∀ C x y c, Tied R N C (v x) (w y) → (v x).sheet.Has c → c ≠ root →
      cx.IsCustom (v x).sheet c →
      Parallel R Q N v w C (v x) (w y) (f x c) (g y (C.node c)))
    (cs : List NodeId) {x : σ} {y : τ} (h : Tied R N C (v x) (w y))
    (hcs : ∀ c ∈ cs, (v x).sheet.Has c ∧ c ≠ root ∧ cx.IsCustom (v x).sheet c) :
    Parallel R Q N v w C (v x) (w y) (cs.foldlM f x) ((cs.map C.node).foldlM g y) := by
  induction cs generalizing C x y with
  | nil => exact .refl h rfl rfl
  | cons c cs ih =>
    obtain ⟨hc, hne, hcustom⟩ := hcs c List.mem_cons_self
    rw [List.foldlM_cons, List.map_cons, List.foldlM_cons]
    refine (hstep C x y c h hc hne hcustom).bind fun C' x' y' _ ht hf => ?_
    have hrest : ∀ d ∈ cs, (v x).sheet.Has d ∧ d ≠ root ∧ cx.IsCustom (v x).sheet d :=
      fun d hd => hcs d (List.mem_cons_of_mem _ hd)
    have hmap : cs.map C.node = cs.map C'.node :=
      List.map_congr_left fun d hd => (hf.node_eq d (hrest d hd).1).symm
    rw [hmap]
    refine ih ht fun d hd => ?_
    obtain ⟨hd, hne, hcustom⟩ := hrest d hd
    exact ⟨hf.has d hd, hne, (Context.isCustom_congr (hf.content_eq d hd)).2 hcustom⟩

/-! ## Single steps -/

/-- The standing behind a step that leads to `s` and adds to warnings and counts. -/
def Standing.advance (a : Standing) (s : Sheet) (warnings : List Warning) (stats : Stats) :
    Standing :=
  { a with progress := ⟨s, a.progress.warnings ++ warnings, a.progress.stats + stats⟩ }

/-- What is noted for a node is noted for its copy, also once there are new nodes: nothing has been
noted for one of these yet. -/
theorem Tied.lookup_extend (h : Tied R N C a b) {x : NodeId} (hne : x ≠ root) :
    b.emitted.lookup ((C.extend a.sheet b.sheet).node x) =
      (a.emitted.lookup x).map (C.extend a.sheet b.sheet).node := by
  by_cases hold : a.sheet.Has x
  · rw [C.extend_of_has b.sheet hold, h.emitted_eq x hold hne]
    cases hlookup : a.emitted.lookup x with
    | none => rfl
    | some y =>
      rw [Option.map_some, Option.map_some,
        C.extend_of_has b.sheet (h.emitted_has x y hlookup).2.1]
  · have hnone : a.emitted.lookup x = none := by
      by_contra hsome
      obtain ⟨y, hy⟩ := Option.ne_none_iff_exists'.1 hsome
      exact hold (h.emitted_has x y hy).1
    have hnone' : b.emitted.lookup ((C.extend a.sheet b.sheet).node x) = none := by
      by_contra hsome
      obtain ⟨y, hy⟩ := Option.ne_none_iff_exists'.1 hsome
      exact C.not_has_extend b.sheet hold (h.emitted_has_copy _ y hy)
    rw [hnone, hnone']
    rfl

/-- Corresponding edits keep two runs tied. -/
theorem Tied.step (hrule : ∀ selector, R (.rule selector) (.rule selector)) (h : Tied R N C a b)
    {e : Edit} {s t : Sheet} (hm : Mirror R C e a.sheet b.sheet s t) (warnings : List Warning)
    (hquiet : Q → warnings = []) (stats : Stats) :
    Tied R N (C.extend a.sheet b.sheet) (a.advance s warnings stats)
        (b.advance t warnings stats) ∧
      Follows Q N C (C.extend a.sheet b.sheet) a b (a.advance s warnings stats)
        (b.advance t warnings stats) := by
  constructor
  · constructor
    case sound => exact hm.sound_after
    case sound_copy => exact hm.sound_copy_after
    case copy => exact hm.isCopy hrule
    case scope =>
      have hroot := hm.leads_copy.content_eq _ (h.copy.has root h.sound.has_root)
      change (t.content _).kind ≠ .rule
      rw [C.extend_of_has b.sheet h.sound.has_root, hroot]
      exact h.scope
    case named =>
      intro x hx hne
      rcases (hm.leads.has_iff x).1 hx with hold | ⟨i, r, hi, rfl⟩
      · obtain ⟨n, hn, hN⟩ := h.named x hold hne
        exact ⟨n, (hm.leads.sourceName?_eq hold).trans hn, hN⟩
      · -- A new rule comes from the input that an at-rule came from.
        obtain ⟨g, hg, hsame⟩ := hm.leads.exists_sourceName?_eq hm.fits hi
        obtain ⟨n, hn, hN⟩ := h.named g (hm.fits.gone g hg).1 (hm.fits.gone g hg).2.1
        exact ⟨n, hsame.trans hn, hN⟩
    case map_eq => exact h.map_eq
    case emitted_eq => exact fun x _ hne => h.lookup_extend hne
    case emitted_has =>
      intro x y hxy
      obtain ⟨hx, hy, hne⟩ := h.emitted_has x y hxy
      exact ⟨hm.has_after hx, hm.has_after hy, hne⟩
    case emitted_has_copy => exact fun x y hxy => hm.has_copy_after (h.emitted_has_copy x y hxy)
  · constructor
    case input_eq => rfl
    case before_eq => rfl
    case behind_eq => rfl
    case has => exact fun x hx => hm.has_after hx
    case node_eq => exact fun x hx => C.extend_of_has b.sheet hx
    case content_eq => exact fun x hx => hm.leads.content_eq x hx
    case has_copy => exact fun x hx => hm.has_copy_after hx
    case fresh => exact fun x hnew _ => C.not_has_extend b.sheet hnew
    case inputs_eq => exact hm.leads.inputs_eq
    case inputs_copy_eq => exact hm.leads_copy.inputs_eq
    case elsewhere => exact fun x hx hout => ⟨hm.elsewhere hx hout, rfl⟩
    case map_elsewhere => exact fun _ _ => rfl
    case gains => exact ⟨warnings, stats, hquiet, rfl, rfl, rfl, rfl⟩

/-- Counting on both sides. -/
theorem Tied.count {m m' : NamespaceMap} {em em' : List (NodeId × NodeId)} {p q : Progress}
    (h : Tied R N C ⟨m, em, p⟩ ⟨m', em', q⟩) (stats : Stats) :
    Tied R N C ⟨m, em, { p with stats := p.stats + stats }⟩
        ⟨m', em', { q with stats := q.stats + stats }⟩ ∧
      Follows Q N C C ⟨m, em, p⟩ ⟨m', em', q⟩ ⟨m, em, { p with stats := p.stats + stats }⟩
        ⟨m', em', { q with stats := q.stats + stats }⟩ := by
  refine ⟨⟨h.sound, h.sound_copy, h.copy, h.scope, h.named, h.map_eq, h.emitted_eq, h.emitted_has,
    h.emitted_has_copy⟩, ?_⟩
  exact { Follows.refl Q N C ⟨m, em, p⟩ ⟨m', em', q⟩ with
    gains := ⟨[], stats, fun _ => rfl, by simp, by simp, rfl, rfl⟩ }

/-- Noting the namespace of an input on both sides. -/
theorem Tied.insert {m m' : NamespaceMap} {em em' : List (NodeId × NodeId)} {p q : Progress}
    (h : Tied R N C ⟨m, em, p⟩ ⟨m', em', q⟩) (name ns : String) :
    Tied R N C ⟨m.insert name ns, em, p⟩ ⟨m'.insert name ns, em', q⟩ := by
  refine ⟨h.sound, h.sound_copy, h.copy, h.scope, h.named, ?_, h.emitted_eq, h.emitted_has,
    h.emitted_has_copy⟩
  intro n hn
  change KeyedList.get? (KeyedList.insert name ns m'.entries) n =
    KeyedList.get? (KeyedList.insert name ns m.entries) n
  by_cases heq : n = name
  · rw [heq, KeyedList.get?_insert_self, KeyedList.get?_insert_self]
  · rw [KeyedList.get?_insert_of_ne heq, KeyedList.get?_insert_of_ne heq]
    exact h.map_eq n hn

/-- A step on both sides that makes corresponding edits, or stops. -/
theorem parallel_of_performs (hrule : ∀ selector, R (.rule selector) (.rule selector))
    (h : Tied R N C a b) {plan : Except Fault Plan} {r r' : Except Stopped Progress}
    (hr : Performs a.progress plan r)
    (hr' : Performs b.progress (plan.map (Plan.copy (C.extend a.sheet b.sheet))) r')
    (hfit : ∀ p, plan = .ok p → p.edit.Fits a.sheet)
    (hquiet : ∀ p, plan = .ok p → Q → p.warnings = []) (hs : ∀ p, r = .ok p → p.sheet.IsSound)
    (ht : ∀ q, r' = .ok q → q.sheet.IsSound ∧ q.sheet.HangsOn (C.node root) root) :
    Parallel R Q N (fun p => ⟨a.map, a.emitted, p⟩) (fun q => ⟨b.map, b.emitted, q⟩) C a b
      r r' := by
  cases plan with
  | error fault =>
    rw [hr, hr']
    exact .error rfl
  | ok plan =>
    obtain ⟨s, rfl, hleads⟩ := hr
    obtain ⟨t, rfl, hleads'⟩ := hr'
    obtain ⟨hsound, hattached⟩ := ht _ rfl
    have hstep := h.step hrule (e := plan.edit) ⟨h.copy, hfit plan rfl, hleads, hleads', h.sound,
      h.sound_copy, hs _ rfl, hsound, hattached⟩ plan.warnings (hquiet plan rfl)
        plan.stats
    exact .ok hstep.1 hstep.2

end ClassRules.Lowering
