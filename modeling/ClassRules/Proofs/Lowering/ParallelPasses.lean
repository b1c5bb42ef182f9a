import ClassRules.Proofs.Lowering.ParallelSteps
import ClassRules.Proofs.Lowering.Runs

/-!
# Passes side by side

A pass over a sheet goes in parallel with a run over the copies of what it finds.

## What this module delivers

- `utilities_parallel`, `namespaces_parallel`, `components_parallel`, `states_parallel`: the four
  passes.
- `Tied.restart`: between two passes nothing is noted.
-/

set_option autoImplicit false

namespace ClassRules.Lowering

open Sheet

variable {R : Content → Content → Prop} {Q : Prop} {N : String → Prop} {C C' : Copy}
  {cx cx' : Context} {m m' : NamespaceMap} {em em' : List (NodeId × NodeId)} {p q : Progress}
  {a b : Standing}

/-- What was noted in one pass is not needed in the next one. -/
theorem Tied.restart (h : Tied R N C a b) :
    Tied R N C ⟨{}, [], a.progress⟩ ⟨{}, [], b.progress⟩ :=
  .start h.sound h.sound_copy h.copy h.scope h.named

/-- What a search of the whole sheet finds can be gone through in parallel with its copies. -/
theorem Tied.of_mem_find (h : Tied R N C a b) (cx : Context) (kind : RuleKind) :
    ∀ c ∈ cx.find a.sheet root kind,
      a.sheet.Has c ∧ c ≠ root ∧ cx.IsCustom a.sheet c := by
  intro c hc
  obtain ⟨hhas, hcustom, hne, -⟩ := Lowering.of_mem_find h.sound hc
  exact ⟨hhas, hne, hcustom⟩

section Passes

variable (hR : Likeness cx cx' R)

include hR

/-- The utilities of a sheet and their copies go in parallel. -/
theorem utilities_parallel (h : Tied R N C ⟨m, em, p⟩ ⟨m', em', q⟩) :
    Parallel R False N (fun p => ⟨m, em, p⟩) (fun q => ⟨m', em', q⟩) C ⟨m, em, p⟩ ⟨m', em', q⟩
      (lowerUtilities cx p)
      (((cx.find p.sheet root .utility).map C.node).foldlM lowerUtility q) :=
  parallel_foldlM (fun p => ⟨m, em, p⟩) (fun q => ⟨m', em', q⟩) cx
    (fun _ _ _ _ ht hc hne hcustom => lowerUtility_parallel hR ht hc hne hcustom) _ h
    (h.of_mem_find cx .utility)

/-- So do the namespaces, whatever the copy has noted of other inputs. -/
theorem namespaces_parallel (h : Tied R N C ⟨{}, em, p⟩ ⟨m', em', q⟩) :
    Parallel R Q N (fun x => ⟨x.1, em, x.2⟩) (fun y => ⟨y.1, em', y.2⟩) C ⟨{}, em, p⟩ ⟨m', em', q⟩
      (lowerNamespaces cx p)
      (((cx.find p.sheet root .componentNamespace).map C.node).foldlM (lowerNamespace cx')
        (m', q)) :=
  parallel_foldlM (fun x => ⟨x.1, em, x.2⟩) (fun y => ⟨y.1, em', y.2⟩) cx
    (fun _ _ _ _ ht hc hne hcustom => lowerNamespace_parallel hR ht hc hne hcustom) _
    (x := ({}, p)) (y := (m', q)) h (h.of_mem_find cx .componentNamespace)

omit hR in
/-- A component and its copy are in the same namespace. -/
theorem namespaceOf_copy (h : Tied R N C ⟨m, em, p⟩ ⟨m', em', q⟩) {c : NodeId}
    (hc : p.sheet.Has c) (hne : c ≠ root) (default : Option String) :
    namespaceOf q.sheet m' default (C.node c) = namespaceOf p.sheet m default c := by
  have hcopy : IsCopy R C p.sheet q.sheet := h.copy
  obtain ⟨n, hn, hN⟩ := h.named c hc hne
  have hn : p.sheet.sourceName? c = some n := hn
  have hmap : m'.get? n = m.get? n := h.map_eq n hN
  rw [namespaceOf, namespaceOf, sourceName?_copy hcopy hc hne, hn, Option.bind_some,
    Option.bind_some, hmap]

/-- So do the components, as each is in the namespace of its copy. -/
theorem components_parallel (h : Tied R N C ⟨m, em, p⟩ ⟨m', em', q⟩) (default : Option String) :
    Parallel R Q N (fun p => ⟨m, em, p⟩) (fun q => ⟨m', em', q⟩) C ⟨m, em, p⟩ ⟨m', em', q⟩
      (lowerComponents cx m default p)
      (((cx.find p.sheet root .component).map C.node).foldlM (fun q c =>
        if q.sheet.isAttached c then lowerComponent cx' q c (namespaceOf q.sheet m' default c)
        else .ok q) q) :=
  foldlM_components_parallel hR (fun s c => namespaceOf s m default c)
    (fun s c => namespaceOf s m' default c)
    (fun _ _ _ _ ht hc hne => namespaceOf_copy ht hc hne default) _ h
    (h.of_mem_find cx .component)

/-- So do the states. -/
theorem states_parallel (h : Tied R N C ⟨m, [], p⟩ ⟨m', em', q⟩) :
    Parallel R Q N (fun x => ⟨m, x.1, x.2⟩) (fun y => ⟨m', y.1, y.2⟩) C ⟨m, [], p⟩ ⟨m', em', q⟩
      ((cx.find p.sheet root .when).foldlM (lowerState cx) ([], p))
      (((cx.find p.sheet root .when).map C.node).foldlM (lowerState cx') (em', q)) :=
  parallel_foldlM (fun x => ⟨m, x.1, x.2⟩) (fun y => ⟨m', y.1, y.2⟩) cx
    (fun _ _ _ _ ht hc hne hcustom => lowerState_parallel hR ht hc hne hcustom) _
    (x := ([], p)) (y := (em', q)) h (h.of_mem_find cx .when)

end Passes

end ClassRules.Lowering
