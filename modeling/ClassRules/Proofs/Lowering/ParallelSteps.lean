import ClassRules.Proofs.Lowering.Parallel

/-!
# Steps side by side

## What this module delivers

- `lowerUtility_parallel`, `lowerComponent_parallel`, `lowerState_parallel`,
  `lowerNamespace_parallel`: a step over an at-rule and one over its copy go in parallel.
- `foldlM_components_parallel`: so do runs over components that give them the same namespaces.
-/

set_option autoImplicit false

namespace ClassRules.Lowering

open Sheet

variable {R : Content → Content → Prop} {Q : Prop} {N : String → Prop} {C : Copy} {cx cx' : Context}
  {m m' : NamespaceMap} {em em' : List (NodeId × NodeId)} {p q : Progress} {c : NodeId}

/-- A step over the copy of a node of the text leaves the node that the copy hangs on in the
text. -/
theorem Tied.scope_of_settled {a b : Standing} {τ : Type} {progress : τ → Progress}
    {dropped : List NodeId} {state : τ} (h : Tied R N C a b) (hc : a.sheet.Has c) (hne : c ≠ root)
    (hon : a.sheet.HangsOn c root)
    (hrun : Settled cx' progress b.progress dropped [C.node c] (.ok state))
    (hout : C.node root ∉ dropped) :
    (progress state).sheet.IsSound ∧ (progress state).sheet.HangsOn (C.node root) root := by
  refine ⟨hrun.isSound, hrun.hangsOn h.sound_copy h.copy.attached ?_ ?_ hout⟩
  · exact h.copy.hangsOn h.sound h.sound_copy hon
  · exact fun e => hne (h.copy.inj c root hc h.sound.has_root e)

/-! ## Utilities -/

theorem lowerUtility_of_not_isAttached (h : p.sheet.isAttached c = false) :
    lowerUtility p c = .ok p := by
  unfold lowerUtility
  simp [h]

theorem lowerUtility_parallel (hR : Likeness cx cx' R)
    (h : Tied R N C ⟨m, em, p⟩ ⟨m', em', q⟩) (hc : p.sheet.Has c) (hne : c ≠ root)
    (hcustom : cx.IsCustom p.sheet c) :
    Parallel R False N (fun p => ⟨m, em, p⟩) (fun q => ⟨m', em', q⟩) C ⟨m, em, p⟩ ⟨m', em', q⟩
      (lowerUtility p c) (lowerUtility q (C.node c)) := by
  have hs : p.sheet.IsSound := h.sound
  have ht : q.sheet.IsSound := h.sound_copy
  have hcopy : IsCopy R C p.sheet q.sheet := h.copy
  have hatt := hcopy.isAttached_eq hs ht hc
  cases hon : p.sheet.isAttached c with
  | false =>
    rw [lowerUtility_of_not_isAttached hon, lowerUtility_of_not_isAttached (hatt.trans hon)]
    exact .refl h rfl rfl
  | true =>
    rw [hs.isAttached_iff] at hon
    have hon' := (hcopy.attached_iff hs ht hc).2 hon
    have hcustom' := (isCustom_copy hR hcopy hc hne).2 hcustom
    obtain ⟨container, hp, hcontainer⟩ := hcustom.exists_container hs hon
    have hp' := hcopy.parent_of_parent hs ht hp
    have hperforms := performs_lowerUtility ht hon' hcustom' hp'
    -- Both do what is planned, and the plan for the copy is the copy of the plan.
    rw [utilityPlan_copy hR hcopy hs hc hne hcustom (hs.has_parent hp)] at hperforms
    refine parallel_of_performs hR.rule h (performs_lowerUtility hs hon hcustom hp) hperforms
      ?_ (fun _ _ hf => hf.elim) ?_ ?_
    · intro plan hplan
      obtain ⟨selector, hedit⟩ := edit_of_utilityPlan hplan
      exact hedit ▸ Edit.fits_swap hs hp selector
    · intro p' hp'
      have hrun : Settled cx id p [] [c] (lowerUtility p c) := lowerUtility_settled hs hcustom
      rw [hp'] at hrun
      exact hrun.isSound
    · intro q' hq'
      have hrun : Settled cx' id q [] [C.node c] (lowerUtility q (C.node c)) :=
        lowerUtility_settled ht hcustom'
      rw [hq'] at hrun
      exact h.scope_of_settled hc hne hon hrun List.not_mem_nil

/-! ## Components -/

theorem lowerComponent_parallel (hR : Likeness cx cx' R)
    (h : Tied R N C ⟨m, em, p⟩ ⟨m', em', q⟩) (hc : p.sheet.Has c) (hne : c ≠ root)
    (hcustom : cx.IsCustom p.sheet c) (ns : Option String) :
    Parallel R Q N (fun p => ⟨m, em, p⟩) (fun q => ⟨m', em', q⟩) C ⟨m, em, p⟩ ⟨m', em', q⟩
      (if p.sheet.isAttached c then lowerComponent cx p c ns else .ok p)
      (if q.sheet.isAttached (C.node c) then lowerComponent cx' q (C.node c) ns else .ok q) := by
  have hs : p.sheet.IsSound := h.sound
  have ht : q.sheet.IsSound := h.sound_copy
  have hcopy : IsCopy R C p.sheet q.sheet := h.copy
  have hcustom' := (isCustom_copy hR hcopy hc hne).2 hcustom
  have hrun := lowerComponent_settled (p := p) hs hcustom ns
  have hrun' := lowerComponent_settled (p := q) ht hcustom' ns
  rw [hcopy.isAttached_eq hs ht hc] at hrun' ⊢
  by_cases hatt : p.sheet.isAttached c = true
  · rw [if_pos hatt] at hrun hrun' ⊢
    rw [if_pos hatt]
    have hon := hs.isAttached_iff.1 hatt
    obtain ⟨container, hp, hcontainer⟩ := hcustom.exists_container hs hon
    obtain ⟨region, hregion, hperforms⟩ := performs_lowerComponent cx hs hp ns
    obtain ⟨region', hregion', hperforms'⟩ := performs_lowerComponent cx' ht
      (hcopy.parent_of_parent hs ht hp) ns
    have hchild : ∀ d ∈ p.sheet.children c, p.sheet.Has d ∧ d ≠ root := fun d hd => by
      have hpd := hs.mem_children_iff.1 hd
      exact ⟨has_of_parent hpd, hs.ne_root_of_parent hpd⟩
    have hpieces : ∀ x ∈ region, p.sheet.Has x.atRule ∧ x.atRule ≠ root := fun x hx => by
      refine ⟨hregion.has hs.toIsForest x hx, fun e => ?_⟩
      have hbelow := (hregion.hangsOn_and_ne hs.toIsForest x hx).1
      rw [e, HangsOn.iff_eq_of_parent_none hs.parent_root] at hbelow
      exact hne hbelow.symm
    have hname : cx'.componentName ns (q.sheet.params (C.node c)) =
        cx.componentName ns (p.sheet.params c) := by
      rw [params_copy hR hcopy hc hne hcustom]
      unfold Context.componentName
      rw [hR.convention_eq]
    -- The region in the copy consists of the copies.
    have hcopied := Region.copy hR hcopy hs hregion hchild
    rw [← hcopy.children_eq hc hne] at hcopied
    rw [hname] at hregion' hperforms'
    rw [hregion'.unique hcopied, componentPlan_copy hR hcopy hs hc hne (hs.has_parent hp) hpieces]
      at hperforms'
    refine parallel_of_performs hR.rule h hperforms hperforms' ?_
      (fun _ hplan _ => Except.ok.inj hplan ▸ rfl) ?_ ?_
    · intro plan hplan
      cases hplan
      exact Edit.fits_flatten hs hp hregion
    · intro p' hp'
      rw [hp'] at hrun
      exact hrun.isSound
    · intro q' hq'
      rw [hq'] at hrun'
      exact h.scope_of_settled hc hne hon hrun' List.not_mem_nil
  · rw [if_neg hatt, if_neg hatt]
    exact .refl h rfl rfl

/-- Runs over components and over their copies, as long as both give them the same namespaces. -/
theorem foldlM_components_parallel (hR : Likeness cx cx' R)
    (ns ns' : Sheet → NodeId → Option String)
    (hns : ∀ C p q c, Tied R N C ⟨m, em, p⟩ ⟨m', em', q⟩ → p.sheet.Has c → c ≠ root →
      ns' q.sheet (C.node c) = ns p.sheet c) (cs : List NodeId)
    (h : Tied R N C ⟨m, em, p⟩ ⟨m', em', q⟩)
    (hcs : ∀ c ∈ cs, p.sheet.Has c ∧ c ≠ root ∧ cx.IsCustom p.sheet c) :
    Parallel R Q N (fun p => ⟨m, em, p⟩) (fun q => ⟨m', em', q⟩) C ⟨m, em, p⟩ ⟨m', em', q⟩
      (cs.foldlM (fun p c => if p.sheet.isAttached c then lowerComponent cx p c (ns p.sheet c)
        else .ok p) p)
      ((cs.map C.node).foldlM (fun q c => if q.sheet.isAttached c then
        lowerComponent cx' q c (ns' q.sheet c) else .ok q) q) := by
  refine parallel_foldlM (fun p => ⟨m, em, p⟩) (fun q => ⟨m', em', q⟩) cx ?_ cs h hcs
  intro C p q c h hc hne hcustom
  rw [hns C p q c h hc hne]
  exact lowerComponent_parallel hR h hc hne hcustom _

/-! ## Namespaces -/

/-- Components in a block and in its copy. -/
theorem lowerBlock_parallel (hR : Likeness cx cx' R) (h : Tied R N C ⟨m, em, p⟩ ⟨m', em', q⟩)
    (hc : p.sheet.Has c) (hne : c ≠ root) (ns : String) :
    Parallel R Q N (fun p => ⟨m, em, p⟩) (fun q => ⟨m', em', q⟩) C ⟨m, em, p⟩ ⟨m', em', q⟩
      (lowerBlock cx p c ns) (lowerBlock cx' q (C.node c) ns) := by
  have hs : p.sheet.IsSound := h.sound
  have ht : q.sheet.IsSound := h.sound_copy
  have hcopy : IsCopy R C p.sheet q.sheet := h.copy
  unfold lowerBlock
  rw [find_copy hR hcopy hs ht hc hne]
  refine foldlM_components_parallel hR (fun _ _ => some ns) (fun _ _ => some ns)
    (fun _ _ _ _ _ _ _ => rfl) _ h fun d hd => ?_
  obtain ⟨hbelow, hkind⟩ := Context.mem_find_iff.1 hd
  obtain ⟨hhas, hroot⟩ := hs.of_mem_descendants hbelow
  exact ⟨hhas, hroot, ⟨_, hkind⟩⟩

/-- A block and its copy are replaced by what they hold. -/
theorem unwrapBlock_parallel (hR : Likeness cx cx' R) (h : Tied R N C ⟨m, em, p⟩ ⟨m', em', q⟩)
    (hc : p.sheet.Has c) (hne : c ≠ root) (hcustom : cx.IsCustom p.sheet c)
    (hon : p.sheet.HangsOn c root) :
    Parallel R Q N (fun p => ⟨m, em, p⟩) (fun q => ⟨m', em', q⟩) C ⟨m, em, p⟩ ⟨m', em', q⟩
      (unwrapBlock p c) (unwrapBlock q (C.node c)) := by
  have hs : p.sheet.IsSound := h.sound
  have ht : q.sheet.IsSound := h.sound_copy
  have hcopy : IsCopy R C p.sheet q.sheet := h.copy
  have hon' := (hcopy.attached_iff hs ht hc).2 hon
  have hcustom' := (isCustom_copy hR hcopy hc hne).2 hcustom
  obtain ⟨container, hp, hcontainer⟩ := hcustom.exists_container hs hon
  have hperforms := performs_unwrapBlock ht (hcopy.parent_of_parent hs ht hp)
  rw [splice_copy hcopy hs hc hne (hs.has_parent hp)] at hperforms
  obtain ⟨p', hrun, hex, -⟩ := unwrapBlock_lowers hs hon hcustom
  obtain ⟨q', hrun', hex', -⟩ := unwrapBlock_lowers ht hon' hcustom'
  refine parallel_of_performs hR.rule h (performs_unwrapBlock hs hp) hperforms ?_
    (fun _ hplan _ => Except.ok.inj hplan ▸ rfl) ?_ ?_
  · intro plan hplan
    cases hplan
    exact Edit.fits_splice hs hp
  · intro p₁ hp₁
    obtain rfl : p' = p₁ := Except.ok.inj (hrun.symm.trans hp₁)
    exact hex.sound
  · intro q₁ hq₁
    obtain rfl : q' = q₁ := Except.ok.inj (hrun'.symm.trans hq₁)
    refine ⟨hex'.sound, (hex'.hangsOn_iff _ (hcopy.has root hs.has_root) ?_).2 hcopy.attached⟩
    intro hmem
    exact hne (hcopy.inj root c hs.has_root hc (by simpa using hmem)).symm

/-- A declaration and its copy are noted under the same name and taken out. -/
theorem dropNamespace_parallel (hR : Likeness cx cx' R) (h : Tied R N C ⟨m, em, p⟩ ⟨m', em', q⟩)
    (hc : p.sheet.Has c) (hne : c ≠ root) (hcustom : cx.IsCustom p.sheet c)
    (hon : p.sheet.HangsOn c root) (hbody : (p.sheet.content c).hasBody = false) :
    Parallel R Q N (fun x => ⟨x.1, em, x.2⟩) (fun y => ⟨y.1, em', y.2⟩) C ⟨m, em, p⟩ ⟨m', em', q⟩
      (.ok (match p.sheet.sourceName? c with
        | some source => m.insert source (p.sheet.params c)
        | none => m, (p.count fun c => { c with namespaces := c.namespaces + 1 }).remove c))
      (.ok (match q.sheet.sourceName? (C.node c) with
        | some source => m'.insert source (q.sheet.params (C.node c))
        | none => m', (q.count fun c => { c with namespaces := c.namespaces + 1 }).remove
          (C.node c))) := by
  have hs : p.sheet.IsSound := h.sound
  have ht : q.sheet.IsSound := h.sound_copy
  have hcopy : IsCopy R C p.sheet q.sheet := h.copy
  have hcustom' := (isCustom_copy hR hcopy hc hne).2 hcustom
  have hbody' := (hasBody_copy hR hcopy hc hne).trans hbody
  have hon' := (hcopy.attached_iff hs ht hc).2 hon
  obtain ⟨container, hp, hcontainer⟩ := hcustom.exists_container hs hon
  have hleads := leads_remove ht (hcopy.parent_of_parent hs ht hp)
    (children_nil_of_not_hasBody ht hcustom' hbody')
  rw [splice_copy hcopy hs hc hne (hs.has_parent hp)] at hleads
  have hdrop := remove_lowers hs hon hcustom hbody
  have hdrop' := remove_lowers ht hon' hcustom' hbody'
  have hattached : (q.sheet.detach (C.node c)).HangsOn (C.node root) root := by
    refine (hdrop'.hangsOn_iff _ (hcopy.has root hs.has_root) fun hmem => ?_).2 hcopy.attached
    exact hne (hcopy.inj root c hs.has_root hc (by simpa using hmem)).symm
  obtain ⟨htied, hfollows⟩ := h.step hR.rule (e := .splice p.sheet c container) (a := ⟨m, em, p⟩)
    (b := ⟨m', em', q⟩) ⟨hcopy, Edit.fits_splice hs hp,
      leads_remove hs hp (children_nil_of_not_hasBody hs hcustom hbody), hleads, hs, ht,
      hdrop.sound, hdrop'.sound, hattached⟩ [] (Q := Q) (fun _ => rfl) { namespaces := 1 }
  obtain ⟨n, hn, hN⟩ := h.named c hc hne
  have hn : p.sheet.sourceName? c = some n := hn
  rw [sourceName?_copy hcopy hc hne, hn, params_copy hR hcopy hc hne hcustom]
  simp only [Standing.advance, List.append_nil] at htied hfollows
  refine .ok (htied.insert n (p.sheet.params c)) { hfollows with map_elsewhere := fun n' hn' => ?_ }
  have hne' : n' ≠ n := fun e => hn' (e ▸ hN)
  exact KeyedList.get?_insert_of_ne hne' _ _

theorem lowerNamespace_parallel (hR : Likeness cx cx' R) (h : Tied R N C ⟨m, em, p⟩ ⟨m', em', q⟩)
    (hc : p.sheet.Has c) (hne : c ≠ root) (hcustom : cx.IsCustom p.sheet c) :
    Parallel R Q N (fun x => ⟨x.1, em, x.2⟩) (fun y => ⟨y.1, em', y.2⟩) C ⟨m, em, p⟩ ⟨m', em', q⟩
      (lowerNamespace cx (m, p) c) (lowerNamespace cx' (m', q) (C.node c)) := by
  have hs : p.sheet.IsSound := h.sound
  have ht : q.sheet.IsSound := h.sound_copy
  have hcopy : IsCopy R C p.sheet q.sheet := h.copy
  have hatt' := hcopy.isAttached_eq hs ht hc
  have hbody' := hasBody_copy hR hcopy hc hne
  cases hatt : p.sheet.isAttached c with
  | false =>
    rw [lowerNamespace_of_not_isAttached hatt,
      lowerNamespace_of_not_isAttached (hatt'.trans hatt)]
    exact .refl h rfl rfl
  | true =>
    have hon := hs.isAttached_iff.1 hatt
    cases hbody : (p.sheet.content c).hasBody with
    | false =>
      rw [lowerNamespace_of_not_hasBody cx m hatt hbody,
        lowerNamespace_of_not_hasBody cx' m' (hatt'.trans hatt) (hbody'.trans hbody)]
      exact dropNamespace_parallel hR h hc hne hcustom hon hbody
    | true =>
      rw [lowerNamespace_of_hasBody cx m hatt hbody,
        lowerNamespace_of_hasBody cx' m' (hatt'.trans hatt) (hbody'.trans hbody),
        params_copy hR hcopy hc hne hcustom]
      obtain ⟨htied, hfollows⟩ := h.count (Q := Q) { namespaces := 1 }
      refine .trans hfollows ((lowerBlock_parallel hR htied hc hne (p.sheet.params c)).bind ?_)
      intro C' p' q' hp' htied' hfollows'
      obtain ⟨-, hon', hcontent⟩ := hangsOn_of_lowerBlock
        (p := { p with stats := p.stats + { namespaces := 1 } }) hs hon hp'
      have hnode : C'.node c = C.node c := hfollows'.node_eq c hc
      have hunwrap := unwrapBlock_parallel (Q := Q) hR htied' (hfollows'.has c hc) hne
        ((Context.isCustom_congr hcontent).2 hcustom) hon'
      rw [hnode] at hunwrap
      exact hunwrap.bind fun C'' p'' q'' _ htied'' _ => .refl htied'' rfl rfl

/-! ## States -/

/-- The rule that a state stands in, and the node beside which the new rule goes, are found at their
copies. -/
theorem enclosingRule?_copy (hR : Likeness cx cx' R) (h : Tied R N C ⟨m, em, p⟩ ⟨m', em', q⟩)
    (hc : p.sheet.Has c) (hne : c ≠ root) : enclosingRule? q.sheet (C.node c) =
      (enclosingRule? p.sheet c).map fun x => (C.node x.1, C.node x.2) := by
  have hs : p.sheet.IsSound := h.sound
  have ht : q.sheet.IsSound := h.sound_copy
  have hcopy : IsCopy R C p.sheet q.sheet := h.copy
  have hscope : q.sheet.kind (C.node root) ≠ .rule := h.scope
  unfold enclosingRule?
  rw [hcopy.parent_eq hs ht hc hne]
  cases hp : p.sheet.parent c with
  | none => rfl
  | some rule =>
    have hhas := hs.has_parent hp
    simp only [Option.map_some, Option.bind_eq_bind, Option.bind_some]
    by_cases hroot : rule = root
    · have hkind : p.sheet.kind root ≠ .rule := by
        rw [Sheet.kind, hs.content_root]
        decide
      rw [hroot, if_neg hscope, if_neg hkind]
      rfl
    · rw [kind_copy hR hcopy hhas hroot, hcopy.parent_eq hs ht hhas hroot]
      split
      · cases p.sheet.parent rule <;> rfl
      · rfl

theorem stateAnchor_copy (h : Tied R N C ⟨m, em, p⟩ ⟨m', em', q⟩) {parent container : NodeId}
    (hparent : p.sheet.parent parent = some container) :
    stateAnchor em' q.sheet (C.node parent) (C.node container) =
      C.node (stateAnchor em p.sheet parent container) := by
  have hs : p.sheet.IsSound := h.sound
  have hcopy : IsCopy R C p.sheet q.sheet := h.copy
  have hlookup : em'.lookup (C.node parent) = (em.lookup parent).map C.node :=
    h.emitted_eq parent (has_of_parent hparent) (hs.ne_root_of_parent hparent)
  unfold stateAnchor
  rw [hlookup]
  cases hprevious : em.lookup parent with
  | none => rfl
  | some previous =>
    obtain ⟨-, hhas, hne⟩ := h.emitted_has parent previous hprevious
    have hiff : q.sheet.parent (C.node previous) = some (C.node container) ↔
        p.sheet.parent previous = some container := by
      rw [hcopy.parent_eq hs h.sound_copy hhas hne, Option.map_eq_some_iff]
      constructor
      · rintro ⟨d, hd, hdc⟩
        rw [hd, hcopy.inj d container (hs.has_parent hd) (hs.has_parent hparent) hdc]
      · exact fun hd => ⟨container, hd, rfl⟩
    simp only [Option.map_some, hiff]
    split <;> rfl

theorem lookup_cons_eq (x parent rule : NodeId) (l : List (NodeId × NodeId)) :
    ((parent, rule) :: l).lookup x = if x = parent then some rule else l.lookup x := by
  rw [List.lookup_cons]
  by_cases h : x = parent
  · simp [h]
  · simp [h, beq_false_of_ne h]

/-- Noting the rule that was put behind another one, on both sides. -/
theorem Tied.emit {a b : Standing} (h : Tied R N C a b) (parent rule : NodeId)
    (hparent : a.sheet.Has parent) (hrule : a.sheet.Has rule) (hne : rule ≠ root) :
    Tied R N C { a with emitted := (parent, rule) :: a.emitted }
      { b with emitted := (C.node parent, C.node rule) :: b.emitted } := by
  refine ⟨h.sound, h.sound_copy, h.copy, h.scope, h.named, h.map_eq, ?_, ?_, ?_⟩
  · intro x hx hroot
    rw [lookup_cons_eq, lookup_cons_eq]
    by_cases heq : x = parent
    · rw [if_pos heq, if_pos (congrArg C.node heq)]
      rfl
    · rw [if_neg heq, if_neg fun e => heq (h.copy.inj x parent hx hparent e)]
      exact h.emitted_eq x hx hroot
  · intro x y hxy
    rw [lookup_cons_eq] at hxy
    split at hxy
    · rename_i heq
      cases hxy
      exact ⟨heq ▸ hparent, hrule, hne⟩
    · exact h.emitted_has x y hxy
  · intro x y hxy
    rw [lookup_cons_eq] at hxy
    split at hxy
    · rename_i heq
      exact heq ▸ h.copy.has parent hparent
    · exact h.emitted_has_copy x y hxy

/-- Noting it leaves alone what is noted for nodes that are no copies. -/
theorem Follows.emit {a b a' b' : Standing} {C' : Copy} (h : Follows Q N C C' a b a' b')
    {parent : NodeId} (hparent : a.sheet.Has parent) (rule rule' : NodeId) :
    Follows Q N C C' a b { a' with emitted := (parent, rule) :: a'.emitted }
      { b' with emitted := (C.node parent, rule') :: b'.emitted } := by
  refine { h with elsewhere := fun x hx hout => ⟨(h.elsewhere x hx hout).1, ?_⟩ }
  rw [lookup_cons_eq, if_neg fun e => hout parent hparent e.symm]
  exact (h.elsewhere x hx hout).2

theorem lowerState_of_not_isAttached (h : p.sheet.isAttached c = false) :
    lowerState cx (em, p) c = .ok (em, p) := by
  unfold lowerState
  simp [h]

/-- A state of the text that stands in a rule and its copy are lowered by corresponding edits. -/
theorem exists_mirror_lowerState (hR : Likeness cx cx' R)
    (h : Tied R N C ⟨m, em, p⟩ ⟨m', em', q⟩) (hc : p.sheet.Has c) (hne : c ≠ root)
    (hcustom : cx.IsCustom p.sheet c) (hatt : p.sheet.isAttached c = true)
    {parent container : NodeId} (henclosing : enclosingRule? p.sheet c = some (parent, container)) :
    ∃ s' t', lowerState cx (em, p) c = .ok ((parent, ⟨p.sheet.nodes.size⟩) :: em,
        ⟨s', p.warnings, p.stats + { states := 1 }⟩) ∧
      lowerState cx' (em', q) (C.node c) = .ok ((C.node parent, ⟨q.sheet.nodes.size⟩) :: em',
        ⟨t', q.warnings, q.stats + { states := 1 }⟩) ∧
      Mirror R C (statePlan cx p.sheet c parent container
        (stateAnchor em p.sheet parent container)).edit p.sheet q.sheet s' t' := by
  have hs : p.sheet.IsSound := h.sound
  have ht : q.sheet.IsSound := h.sound_copy
  have hcopy : IsCopy R C p.sheet q.sheet := h.copy
  have hatt' := (hcopy.isAttached_eq hs ht hc).trans hatt
  have hon := hs.isAttached_iff.1 hatt
  have hcustom' := (isCustom_copy hR hcopy hc hne).2 hcustom
  have henclosing' := enclosingRule?_copy hR h hc hne
  rw [henclosing] at henclosing'
  obtain ⟨hp, hkind, hpp⟩ := enclosingRule?_eq_some henclosing
  obtain ⟨hbelow, -⟩ := enclosing_container hs hon hcustom henclosing
  have hanchor := parent_stateAnchor em hpp
  obtain ⟨s', hrun, hleads⟩ := lowerState_eq_ok hs.toIsForest hatt henclosing em
  obtain ⟨t', hrun', hleads'⟩ := lowerState_eq_ok ht.toIsForest hatt' henclosing' em'
  have hsettled : Settled cx Prod.snd p [] [c] (lowerState cx (em, p) c) :=
    lowerState_settled hs hcustom
  have hsettled' : Settled cx' Prod.snd q [] [C.node c] (lowerState cx' (em', q) (C.node c)) :=
    lowerState_settled ht hcustom'
  rw [hrun] at hsettled
  rw [hrun'] at hsettled'
  obtain ⟨hsound', hattached⟩ := h.scope_of_settled hc hne hon hsettled' List.not_mem_nil
  -- The plan for the copy is the copy of the plan.
  rw [stateAnchor_copy h hpp, statePlan_copy hR hcopy hs hc hne hcustom (hs.has_parent hp)
    (hs.ne_root_of_parent hpp) (hs.has_parent hpp) (has_of_parent hanchor)] at hleads'
  exact ⟨s', t', hrun, hrun', hcopy, Edit.fits_follow hs hc hne hbelow.1 hanchor _, hleads,
    hleads', hs, ht, hsettled.isSound, hsound', hattached⟩

theorem lowerState_parallel (hR : Likeness cx cx' R) (h : Tied R N C ⟨m, em, p⟩ ⟨m', em', q⟩)
    (hc : p.sheet.Has c) (hne : c ≠ root) (hcustom : cx.IsCustom p.sheet c) :
    Parallel R Q N (fun x => ⟨m, x.1, x.2⟩) (fun y => ⟨m', y.1, y.2⟩) C ⟨m, em, p⟩ ⟨m', em', q⟩
      (lowerState cx (em, p) c) (lowerState cx' (em', q) (C.node c)) := by
  have hs : p.sheet.IsSound := h.sound
  have hcopy : IsCopy R C p.sheet q.sheet := h.copy
  have hatt' := hcopy.isAttached_eq hs h.sound_copy hc
  cases hatt : p.sheet.isAttached c with
  | false =>
    rw [lowerState_of_not_isAttached hatt, lowerState_of_not_isAttached (hatt'.trans hatt)]
    exact .refl h rfl rfl
  | true =>
    cases henclosing : enclosingRule? p.sheet c with
    | none =>
      have henclosing' := enclosingRule?_copy hR h hc hne
      rw [henclosing] at henclosing'
      rw [lowerState_eq_error hatt henclosing,
        lowerState_eq_error (hatt'.trans hatt) henclosing', misuse_copy hcopy hc hne]
      exact .error rfl
    | some found =>
      obtain ⟨parent, container⟩ := found
      have hparent := hs.has_parent (enclosingRule?_eq_some henclosing).1
      obtain ⟨s', t', hrun, hrun', hm⟩ :=
        exists_mirror_lowerState hR h hc hne hcustom hatt henclosing
      obtain ⟨htied, hfollows⟩ := h.step hR.rule (a := ⟨m, em, p⟩) (b := ⟨m', em', q⟩) hm []
        (Q := Q) (fun _ => rfl) { states := 1 }
      -- Both runs note the rule that they have made for the rule that it goes behind.
      have hnew : (C.extend p.sheet q.sheet).node ⟨p.sheet.nodes.size⟩ = ⟨q.sheet.nodes.size⟩ :=
        C.extend_new p.sheet q.sheet 0
      have hold := C.extend_of_has q.sheet hparent
      simp only [Standing.advance, List.append_nil] at htied hfollows
      have hemit := htied.emit parent ⟨p.sheet.nodes.size⟩ (hm.has_after hparent)
        ((hm.leads.has_iff _).2 (.inr ⟨0, _, rfl, rfl⟩)) (hm.new_ne_root 0)
      have hfollows' := hfollows.emit hparent ⟨p.sheet.nodes.size⟩ ⟨q.sheet.nodes.size⟩
      rw [hrun, hrun']
      change Tied R N (C.extend p.sheet q.sheet) _ ⟨_, ((C.extend p.sheet q.sheet).node parent,
        (C.extend p.sheet q.sheet).node ⟨p.sheet.nodes.size⟩) :: _, _⟩ at hemit
      rw [hnew, hold] at hemit
      exact .ok hemit hfollows'

end ClassRules.Lowering
