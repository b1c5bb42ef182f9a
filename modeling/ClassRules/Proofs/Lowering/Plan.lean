import ClassRules.Proofs.Lowering.Edit
import ClassRules.Proofs.Lowering.Namespaces

/-!
# What a step is going to do

The sheet alone tells what a step over an at-rule will do: which edit it makes, what it warns of and
counts, or why it stops.

## What this module delivers

- `misuse`, `remarks`: the fault and the warnings about an at-rule, which name its place.
- `Plan`, `Performs`: an edit with its warnings and counts, or the fault that keeps a step from it.
- `performs_lowerUtility`, `performs_lowerComponent`, `performs_unwrapBlock`, `leads_remove`,
  `lowerState_eq_ok`, `lowerState_eq_error`: each step does what is planned.
- `leads_of_lowerUtility`, `leads_of_lowerState`, `exists_unwrapBlock`, `remove_splices`: the edits
  of steps in the text.
-/

set_option autoImplicit false

namespace ClassRules.Lowering

open Sheet

/-! ## Messages about an at-rule -/

/-- The fault that stops a run for a wrong use of the at-rule `a`. -/
def misuse (s : Sheet) (a : NodeId) (reason : String) : Fault :=
  if s.isLocatable a then .misuse ⟨reason, s.location? a⟩ else .place

/-- What a message says of the place of a node is told from its source and the inputs. -/
theorem place_congr {s t : Sheet} {a : NodeId} (hsource : t.source a = s.source a)
    (hinputs : t.inputs = s.inputs) :
    t.isLocatable a = s.isLocatable a ∧ t.location? a = s.location? a := by
  refine ⟨by rw [isLocatable, isLocatable, hsource], ?_⟩
  simp only [location?, inputName, hsource, hinputs]

theorem misuse_congr {s t : Sheet} {a : NodeId} (hsource : t.source a = s.source a)
    (hinputs : t.inputs = s.inputs) (reason : String) : misuse t a reason = misuse s a reason := by
  obtain ⟨hplace, hlocation⟩ := place_congr hsource hinputs
  rw [misuse, misuse, hplace, hlocation]

theorem Progress.stop_eq (α : Type) (p : Progress) (a : NodeId) (reason : String) :
    (p.stop a reason : Except Stopped α) = .error ⟨misuse p.sheet a reason, p⟩ := by
  unfold stop locate misuse
  split
  · rfl
  · rfl

/-- The warnings about an at-rule, or a fault if there are some and its place cannot be named. -/
def remarks (s : Sheet) (a : NodeId) (messages : List String) : Except Fault (List Warning) :=
  if messages.isEmpty || s.isLocatable a then .ok (messages.map fun m => ⟨m, s.location? a⟩)
  else .error .place

theorem Progress.warnAll_eq (p : Progress) (a : NodeId) (messages : List String) :
    messages.foldlM (·.warn a ·) p =
      match remarks p.sheet a messages with
      | .ok warnings => .ok { p with warnings := p.warnings ++ warnings }
      | .error fault => .error ⟨fault, p⟩ := by
  by_cases hl : p.sheet.isLocatable a = true
  · have hremarks : ∀ (q : Progress) (ms : List String), q.sheet = p.sheet →
        remarks q.sheet a ms = .ok (ms.map fun m => ⟨m, p.sheet.location? a⟩) := by
      intro q ms hq
      rw [remarks, hq, hl, Bool.or_true]
      rfl
    rw [hremarks p messages rfl]
    dsimp only
    induction messages generalizing p with
    | nil => simp [pure, Except.pure]
    | cons message messages ih =>
      have hwarn : p.warn a message =
          .ok { p with warnings := p.warnings ++ [⟨message, p.sheet.location? a⟩] } := by
        simp only [warn, locate, if_pos hl]
        rfl
      rw [List.foldlM_cons, hwarn]
      refine (ih { p with warnings := p.warnings ++ [⟨message, p.sheet.location? a⟩] } hl
        hremarks).trans ?_
      simp
  · cases messages with
    | nil => simp [remarks, pure, Except.pure]
    | cons message messages =>
      have hwarn : p.warn a message = .error ⟨.place, p⟩ := by
        simp only [warn, locate, if_neg hl]
        rfl
      rw [List.foldlM_cons, hwarn, remarks]
      simp only [List.isEmpty_cons, Bool.false_or, if_neg hl]
      rfl

/-! ## Plans -/

/-- An edit with the warnings and counts that go with it. -/
structure Plan where
  edit : Edit
  warnings : List Warning
  stats : Stats

/-- A step from `p` on makes the edit, or stops with the fault where it is. -/
def Performs (p : Progress) (plan : Except Fault Plan) (r : Except Stopped Progress) : Prop :=
  match plan with
  | .ok plan => ∃ t, r = .ok ⟨t, p.warnings ++ plan.warnings, p.stats + plan.stats⟩ ∧
      plan.edit.Leads p.sheet t
  | .error fault => r = .error ⟨fault, p⟩

/-- The plan for a utility in `container`. -/
def utilityPlan (s : Sheet) (a container : NodeId) : Except Fault Plan :=
  let items := utilityItems (s.params a)
  if items.isEmpty then .error (misuse s a noNames)
  else (remarks s a (items.flatMap utilityWarnings)).map fun warnings =>
    ⟨.swap s a container (joinComma (items.map utilitySelector)), warnings, { utilities := 1 }⟩

/-- The plan for a component in `container` with the pieces that go along, itself first. -/
def componentPlan (cx : Context) (s : Sheet) (component container : NodeId) (name : String)
    (region : List Piece) : Plan where
  edit := .flatten s component container (⟨component, name⟩ :: region)
  warnings := []
  stats := { components := 1 } + regionStats cx s region

/-- The plan for a state in the rule `parent`, whose new rule goes behind `anchor`. -/
def statePlan (cx : Context) (s : Sheet) (a parent container anchor : NodeId) : Plan where
  edit := .follow s a container anchor
    (stateSelector cx.convention (s.selector parent) (s.params a))
  warnings := []
  stats := { states := 1 }

section Steps

variable {cx : Context} {p : Progress} {a container : NodeId}

/-- A rule that takes over can be made, as new nodes may get any number. -/
theorem moveChildren_takeover (p : Progress) (hs : p.sheet.IsForest)
    (hbelow : a ≠ container ∧ p.sheet.HangsOn a container) (selector : String) :
    (p.createRule selector a).2.moveChildren a ⟨p.sheet.nodes.size⟩ =
        .ok { p with sheet := takeover p.sheet a selector } ∧
      Gathered (levels p.sheet container) (p.sheet.createRule selector a).2
        (takeover p.sheet a selector) ⟨p.sheet.nodes.size⟩ (p.sheet.children a) := by
  obtain ⟨t, ht, hg, rfl⟩ := exists_takeover p hs hbelow selector
  exact ⟨ht, hg⟩

/-- Only the children of `a` stand elsewhere when a rule has taken over. -/
theorem parent_takeover {s : Sheet} {selector : String}
    (hg : Gathered (levels s container) (s.createRule selector a).2 (takeover s a selector)
      ⟨s.nodes.size⟩ (s.children a)) (x : NodeId) : (takeover s a selector).parent x =
    if x ∈ s.children a then some ⟨s.nodes.size⟩ else s.parent x := by
  rw [hg.parent_eq, createRule, parent_create]

/-- Lowering a utility of the text does what is planned. -/
theorem performs_lowerUtility (hs : p.sheet.IsSound) (hon : p.sheet.HangsOn a root)
    (hc : cx.IsCustom p.sheet a) (hp : p.sheet.parent a = some container) :
    Performs p (utilityPlan p.sheet a container) (lowerUtility p a) := by
  have hatt : p.sheet.isAttached a = true := hs.isAttached_iff.2 hon
  unfold lowerUtility utilityPlan
  simp only [hatt, Bool.not_true, Bool.false_eq_true, if_false]
  by_cases hitems : (utilityItems (p.sheet.params a)).isEmpty = true
  · rw [if_pos hitems, if_pos hitems]
    exact Progress.stop_eq Progress p a noNames
  rw [if_neg hitems, if_neg hitems, Progress.warnAll_eq]
  generalize joinComma ((utilityItems (p.sheet.params a)).map utilitySelector) = selector
  cases remarks p.sheet a ((utilityItems (p.sheet.params a)).flatMap utilityWarnings) with
  | error fault => exact rfl
  | ok warnings =>
    obtain ⟨hmove, hg⟩ := moveChildren_takeover { p with warnings := p.warnings ++ warnings }
      hs.toIsForest (below_parent hs hp) selector
    have hcontainer : p.sheet.HangsOn container root :=
      ((HangsOn.iff_of_parent hp).1 hon).resolve_left fun e => by
        rw [e, hs.parent_root] at hp
        cases hp
    have hlow := lowered_of_replaceWith hs hon hc hp hcontainer hg
    have hself : a ∉ p.sheet.children a := fun hmem =>
      hs.parent_ne (hs.mem_children_iff.1 hmem) rfl
    have hpt : (takeover p.sheet a selector).parent a = some container := by
      rw [parent_takeover hg, if_neg hself, hp]
    refine ⟨(takeover p.sheet a selector).replaceWith a ⟨p.sheet.nodes.size⟩, ?_,
      Edit.leads_swap hs hp selector hg.linked hpt hlow.forest⟩
    exact (congrArg (fun r => r >>= fun q => pure ((q.replaceWith a ⟨p.sheet.nodes.size⟩).count
      fun c => { c with utilities := c.utilities + 1 })) hmove).trans rfl

/-- If there is a plan for a utility, a rule is to take its place. -/
theorem edit_of_utilityPlan {s : Sheet} {plan : Plan} (h : utilityPlan s a container = .ok plan) :
    ∃ selector, plan.edit = .swap s a container selector := by
  unfold utilityPlan at h
  dsimp only at h
  split at h
  · cases h
  · cases hremarks : remarks s a ((utilityItems (s.params a)).flatMap utilityWarnings) with
    | error fault =>
      rw [hremarks] at h
      cases h
    | ok warnings =>
      rw [hremarks] at h
      cases h
      exact ⟨_, rfl⟩

/-- A utility of the text that was lowered has been swapped for a rule. -/
theorem leads_of_lowerUtility {q : Progress} (hs : p.sheet.IsSound) (hon : p.sheet.HangsOn a root)
    (hc : cx.IsCustom p.sheet a) (hr : lowerUtility p a = .ok q) :
    ∃ container selector, p.sheet.parent a = some container ∧
      (Edit.swap p.sheet a container selector).Leads p.sheet q.sheet := by
  obtain ⟨container, hp, -⟩ := hc.exists_container hs hon
  have hperforms := performs_lowerUtility hs hon hc hp
  rw [hr] at hperforms
  cases hplan : utilityPlan p.sheet a container with
  | error fault =>
    rw [hplan] at hperforms
    cases hperforms
  | ok plan =>
    rw [hplan] at hperforms
    obtain ⟨t, ht, hleads⟩ := hperforms
    cases ht
    obtain ⟨selector, hedit⟩ := edit_of_utilityPlan hplan
    exact ⟨container, selector, hp, hedit ▸ hleads⟩

/-- Lowering a component does what is planned. -/
theorem performs_lowerComponent (cx : Context) (hs : p.sheet.IsSound)
    (hp : p.sheet.parent a = some container)
    (ns : Option String) :
    ∃ region, Region cx p.sheet (cx.componentName ns (p.sheet.params a))
        (p.sheet.children a) region ∧
      Performs p (.ok (componentPlan cx p.sheet a container
        (cx.componentName ns (p.sheet.params a)) region)) (lowerComponent cx p a ns) := by
  obtain ⟨region, q, hr, hq, hflat, htally⟩ := exists_flattened cx hs.toIsForest hp ns
  refine ⟨region, hr, q.sheet, ?_, ?_⟩
  · obtain ⟨sheet, warnings, stats⟩ := q
    obtain ⟨rfl, rfl, -⟩ := htally
    rw [hq]
    simp [componentPlan]
  · exact Edit.leads_flatten hs hflat htally.inputs_eq (hr.parent_of_mem_cons hs.toIsForest hp)

/-- Unwrapping a block puts its children in its place. -/
theorem performs_unwrapBlock (hs : p.sheet.IsSound) (hp : p.sheet.parent a = some container) :
    Performs p (.ok ⟨.splice p.sheet a container, [], {}⟩) (unwrapBlock p a) := by
  obtain ⟨t, ht, hg, rfl⟩ := exists_unwrapped hs.toIsForest hp
  refine ⟨(p.sheet.moveAll container (placeAfter a) (p.sheet.children a).reverse).detach a, ?_, ?_⟩
  · rw [ht, List.append_nil, Stats.add_zero]
  · exact Edit.leads_splice hs hp hg.linked (IsForest.detach (.of_ranked hg.linked hg.ranked) a)

/-- A block of the text gives way to its children. -/
theorem exists_unwrapBlock (hs : p.sheet.IsSound) (hon : p.sheet.HangsOn a root)
    (hc : cx.IsCustom p.sheet a) : ∃ container q, p.sheet.parent a = some container ∧
      unwrapBlock p a = .ok q ∧ Lowered cx p.sheet q.sheet container [] [a] ∧
      (Edit.splice p.sheet a container).Leads p.sheet q.sheet := by
  obtain ⟨container, q, hp, hq, hlow, -⟩ := unwrapBlock_lowered hs hon hc
  obtain ⟨t, ht, hleads⟩ := performs_unwrapBlock hs hp
  obtain rfl := Except.ok.inj (hq.symm.trans ht)
  exact ⟨container, _, hp, hq, hlow, hleads⟩

/-- Taking out an at-rule without children is splicing as well. -/
theorem leads_remove {s : Sheet} (hs : s.IsSound) (hp : s.parent a = some container)
    (hnil : s.children a = []) : (Edit.splice s a container).Leads s (s.detach a) := by
  have hall : s.moveAll container (placeAfter a) (s.children a).reverse = s := by
    rw [hnil]
    rfl
  have hleads := Edit.leads_splice hs hp (by rw [hall]; exact hs.toIsLinked)
    (by rw [hall]; exact hs.toIsForest.detach a)
  rwa [hall] at hleads

/-- A declaration of the text is spliced out. -/
theorem remove_splices (hs : p.sheet.IsSound) (hon : p.sheet.HangsOn a root)
    (hc : cx.IsCustom p.sheet a) (hbody : (p.sheet.content a).hasBody = false) :
    ∃ container, p.sheet.parent a = some container ∧
      Lowered cx p.sheet (p.remove a).sheet container [] [a] ∧
      (Edit.splice p.sheet a container).Leads p.sheet (p.remove a).sheet := by
  obtain ⟨container, hp, hlow⟩ := remove_lowered hs hon hc hbody
  exact ⟨container, hp, hlow, leads_remove hs hp (children_nil_of_not_hasBody hs hc hbody)⟩

/-- Where the new rule for a state is to go can be told before it takes over. -/
theorem stateAnchor_takeover {s : Sheet} (parent : NodeId) {selector : String} (hs : s.IsForest)
    (hcont : s.Has container) (hac : container ≠ a) (emitted : List (NodeId × NodeId))
    (hg : Gathered (levels s container) (s.createRule selector a).2 (takeover s a selector)
      ⟨s.nodes.size⟩ (s.children a)) :
    stateAnchor emitted (takeover s a selector) parent container =
      stateAnchor emitted s parent container := by
  unfold stateAnchor
  cases emitted.lookup parent with
  | none => rfl
  | some previous =>
    have hiff : (takeover s a selector).parent previous = some container ↔
        s.parent previous = some container := by
      rw [parent_takeover hg]
      split
      · rename_i hmem
        rw [hs.mem_children_iff.1 hmem]
        simp [Ne.symm hac, Ne.symm hcont.ne_new]
      · exact Iff.rfl
    simp only [hiff]

/-- Among the children of the container stands the anchor. -/
theorem parent_stateAnchor {s : Sheet} {parent : NodeId} (emitted : List (NodeId × NodeId))
    (h : s.parent parent = some container) :
    s.parent (stateAnchor emitted s parent container) = some container := by
  unfold stateAnchor
  split
  · split
    · assumption
    · exact h
  · exact h

/-- The moves that lower a state, one behind the other. -/
theorem lowerState_of_moves {parent : NodeId} {emitted : List (NodeId × NodeId)} {t u : Sheet}
    (hatt : p.sheet.isAttached a = true)
    (henclosing : enclosingRule? p.sheet a = some (parent, container))
    (hmove : (p.createRule (stateSelector cx.convention (p.sheet.selector parent)
      (p.sheet.params a)) a).2.moveChildren a ⟨p.sheet.nodes.size⟩ = .ok { p with sheet := t })
    (hins : Progress.insertAfter { p with sheet := t } container
      (stateAnchor emitted t parent container) ⟨p.sheet.nodes.size⟩ =
        .ok { p with sheet := u }) :
    lowerState cx (emitted, p) a = .ok ((parent, ⟨p.sheet.nodes.size⟩) :: emitted,
      ⟨u.detach a, p.warnings, p.stats + { states := 1 }⟩) := by
  unfold lowerState
  simp only [hatt, Bool.not_true, Bool.false_eq_true, if_false, henclosing]
  refine (congrArg (fun r => r >>= fun q => q.insertAfter container
    (stateAnchor emitted q.sheet parent container) ⟨p.sheet.nodes.size⟩ >>= fun q =>
      pure ((parent, ⟨p.sheet.nodes.size⟩) :: emitted,
        (q.remove a).count fun c => { c with states := c.states + 1 })) hmove).trans ?_
  exact (congrArg (fun r => r >>= fun q => pure ((parent, ⟨p.sheet.nodes.size⟩) :: emitted,
    (q.remove a).count fun c => { c with states := c.states + 1 })) hins).trans rfl

/-- Lowering a state of the text that stands in a rule does what is planned. -/
theorem lowerState_eq_ok (hs : p.sheet.IsForest) (hatt : p.sheet.isAttached a = true)
    {parent : NodeId} (henclosing : enclosingRule? p.sheet a = some (parent, container))
    (emitted : List (NodeId × NodeId)) :
    ∃ t, lowerState cx (emitted, p) a = .ok ((parent, ⟨p.sheet.nodes.size⟩) :: emitted,
        ⟨t, p.warnings, p.stats + { states := 1 }⟩) ∧
      (statePlan cx p.sheet a parent container
        (stateAnchor emitted p.sheet parent container)).edit.Leads p.sheet t := by
  obtain ⟨hp, -, hpp⟩ := enclosingRule?_eq_some henclosing
  have hac : container ≠ a := by
    rintro rfl
    exact hs.not_hangsOn_child hp (.single hpp)
  have hcont : p.sheet.Has container := hs.has_parent hpp
  have hout : a ∉ p.sheet.children container := fun hmem => by
    have hparent : parent = container :=
      Option.some.inj (hp.symm.trans (hs.mem_children_iff.1 hmem))
    exact hs.parent_ne hpp hparent.symm
  obtain ⟨hmove, hg⟩ := moveChildren_takeover p hs ⟨hac.symm, .head hp (.single hpp)⟩
    (stateSelector cx.convention (p.sheet.selector parent) (p.sheet.params a))
  have hsame := stateAnchor_takeover parent hs hcont hac emitted hg
  have hanchor : stateAnchor emitted p.sheet parent container ≠ ⟨p.sheet.nodes.size⟩ :=
    (has_of_parent (parent_stateAnchor emitted hpp)).ne_new
  have hins := insertAfter_of_takeover hcont hg hanchor
  have hforest := (isForest_insertAfter_of_takeover hcont hg
    (stateAnchor emitted p.sheet parent container)).detach a
  refine ⟨_, lowerState_of_moves hatt henclosing hmove ?_,
    Edit.leads_follow hs hp (parent_stateAnchor emitted hpp) hac hout _ hg.linked hforest⟩
  rw [hsame]
  exact hins

/-- A state of the text that stands in no rule stops the run. -/
theorem lowerState_eq_error (hatt : p.sheet.isAttached a = true)
    (henclosing : enclosingRule? p.sheet a = none) (emitted : List (NodeId × NodeId)) :
    lowerState cx (emitted, p) a = .error ⟨misuse p.sheet a notInRule, p⟩ := by
  unfold lowerState
  simp only [hatt, Bool.not_true, Bool.false_eq_true, if_false, henclosing]
  exact Progress.stop_eq _ p a notInRule

/-- A step over a state that succeeds does nothing, or puts a rule behind another one. -/
theorem leads_of_lowerState (hs : p.sheet.IsForest) {emitted : List (NodeId × NodeId)}
    {next : List (NodeId × NodeId) × Progress} (hr : lowerState cx (emitted, p) a = .ok next) :
    next = (emitted, p) ∨ ∃ container anchor selector,
      (Edit.follow p.sheet a container anchor selector).Leads p.sheet next.2.sheet := by
  by_cases hatt : p.sheet.isAttached a = true
  · cases henclosing : enclosingRule? p.sheet a with
    | none =>
      rw [lowerState_eq_error hatt henclosing] at hr
      cases hr
    | some enclosing =>
      obtain ⟨t, ht, hleads⟩ := lowerState_eq_ok hs hatt henclosing emitted
      obtain rfl := Except.ok.inj (hr.symm.trans ht)
      exact .inr ⟨_, _, _, hleads⟩
  · rw [lowerState] at hr
    simp only [hatt] at hr
    cases hr
    exact .inl rfl

end Steps

end ClassRules.Lowering
