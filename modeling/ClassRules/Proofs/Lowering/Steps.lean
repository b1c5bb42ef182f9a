import ClassRules.Lowering.State
import ClassRules.Lowering.Utility
import ClassRules.Proofs.Lowering.Settled
import ClassRules.Proofs.Lowering.Takeover

/-!
# Each step settles its at-rule

## What this module delivers

- `lowerUtility_settled`, `lowerComponent_settled`, `lowerState_settled`: a step over an at-rule
  does nothing if the at-rule is gone, or stops with the sheet as it was, or exchanges the at-rule,
  and the region of a component with it, for rules.
-/

set_option autoImplicit false

namespace ClassRules.Lowering

open Sheet

/-! ## Utilities -/

section Utilities

variable {cx : Context} {p : Progress} {a : NodeId}

/-- A step over a utility either does nothing, or stops with the sheet as it was, or puts a rule in
the place of the utility. -/
theorem lowerUtility_settled (hs : p.sheet.IsSound)
    (hc : cx.IsCustom p.sheet a) : Settled cx id p [] [a] (lowerUtility p a) := by
  unfold lowerUtility
  dsimp only
  split
  · rename_i hout
    rw [Bool.not_eq_true'] at hout
    refine settled_of_not_hangsOn hs ?_ rfl
    intro hon
    rw [hs.isAttached_iff.2 hon] at hout
    cases hout
  rename_i hatt
  have hon : p.sheet.HangsOn a root := hs.isAttached_iff.1 (by simpa using hatt)
  split
  · obtain ⟨fault, hstop⟩ := Progress.stop_eq_error Progress p a noNames
    rw [hstop]
    exact settled_error hs rfl
  -- What the warnings and the selector say does not matter from here on.
  generalize (utilityItems (p.sheet.params a)).flatMap utilityWarnings = messages
  generalize joinComma ((utilityItems (p.sheet.params a)).map utilitySelector) = selector
  rcases Progress.warnAll_cases p a messages with
    ⟨⟨sheet, warnings, stats⟩, hq, rfl, rfl⟩ | ⟨stopped, hstopped, hsheet⟩
  · rw [hq]
    obtain ⟨container, hp, hcontainer⟩ := hc.exists_container hs hon
    have hbelow := below_parent hs hp
    obtain ⟨t, ht, hg, -⟩ := exists_takeover ⟨p.sheet, warnings, p.stats⟩ hs.toIsForest
      hbelow selector
    have hlow := lowered_of_replaceWith hs hon hc hp hcontainer hg
    refine (congrArg (fun r => Settled cx id p [] [a] (r >>= fun q =>
      pure ((q.replaceWith a ⟨p.sheet.nodes.size⟩).count fun c =>
        { c with utilities := c.utilities + 1 }))) ht).mpr ?_
    refine settled_of_lowers hs ⟨hlow.exchange hs, ?_, rfl⟩ (List.mem_singleton_self a) ?_
    · simp only [Stats.rules, Progress.count, Progress.replaceWith, id, List.length_singleton]
      omega
    · intro x hx
      rw [List.mem_singleton.1 hx]
      exact .refl _ a
  · rw [hstopped]
    exact settled_error hs hsheet

end Utilities

/-! ## Components -/

section Components

variable {cx : Context} {s t : Sheet} {component container : NodeId} {region : List Piece}
  {name : String}

theorem Context.isCustom_of_isNested {id : NodeId} (h : cx.isNested s id = true) :
    cx.IsCustom s id := by
  rcases (Bool.or_eq_true _ _).mp h with h | h
  · exact ⟨.modifier, h⟩
  · exact ⟨.descendent, h⟩

/-- Flattening a component lowers it and its region. -/
theorem Flattened.lowered (hs : s.IsSound)
    (hr : Region cx s name (s.children component) region) (hc : cx.IsCustom s component)
    (hp : s.parent component = some container) (hon : s.HangsOn component root)
    (hcontainer : s.HangsOn container root)
    (h : Flattened s t container component (⟨component, name⟩ :: region)) :
    Lowered cx s t container ((⟨component, name⟩ :: region : List Piece).map Piece.atRule) [] := by
  have hmem : ∀ a, a ∈ (⟨component, name⟩ :: region : List Piece).map Piece.atRule ++
      ([] : List NodeId) ↔ ∃ x ∈ (⟨component, name⟩ :: region : List Piece), x.atRule = a := by
    intro a
    rw [List.append_nil, List.mem_map]
  -- All that is taken out hung on the component, so it was in the text and below the container.
  have hregion := hr.hangsOn_and_ne hs.toIsForest
  have hbelow : ∀ x ∈ (⟨component, name⟩ :: region : List Piece), s.HangsOn x.atRule component := by
    intro x hx
    rcases List.mem_cons.1 hx with rfl | hx
    · exact .refl s component
    · exact (hregion x hx).1
  constructor
  case forest =>
    exact h.forest
  case size_eq =>
    rw [h.size_eq, List.length_map]
  case content_eq =>
    exact h.content_eq
  case source_eq =>
    exact h.source_eq
  case nodup =>
    rw [List.append_nil, List.map_cons]
    refine List.nodup_cons.2 ⟨?_, hr.nodup_inside hs.toIsForest⟩
    intro hin
    obtain ⟨x, hx, heq⟩ := List.mem_map.1 hin
    exact (hregion x hx).2 heq
  case was_custom =>
    intro a ha
    obtain ⟨x, hx, rfl⟩ := (hmem a).1 ha
    refine ⟨(hbelow x hx).trans hon, ?_⟩
    rcases List.mem_cons.1 hx with rfl | hx
    · exact hc
    · exact Context.isCustom_of_isNested (hr.isNested x hx)
  case below =>
    intro a ha
    obtain ⟨x, hx, rfl⟩ := (hmem a).1 ha
    refine ⟨?_, (hbelow x hx).trans (.single hp)⟩
    intro e
    exact hs.not_hangsOn_child hp (e ▸ hbelow x hx)
  case container_hangsOn =>
    exact hcontainer
  case container_ne_nil =>
    exact List.ne_nil_of_mem (hs.mem_children_iff.2 hp)
  case parent_gone =>
    intro a ha
    obtain ⟨x, hx, rfl⟩ := (hmem a).1 ha
    exact (h.taken_out x hx).1
  case parent_rule =>
    intro r hr
    obtain ⟨front, back, -, hplace⟩ := h.container_eq
    refine h.forest.mem_children_iff.1 ?_
    rw [hplace, List.mem_append, List.mem_append]
    rw [List.length_map] at hr
    exact .inl (.inr hr)
  case parent_inside =>
    intro a ha c hcnot hpc
    obtain ⟨x, hx, rfl⟩ := (hmem a).1 ha
    obtain ⟨r, hr, hstands⟩ := exists_of_forall₂ h.stands.flip hx
    -- What stood in a piece stands in the rule for it, unless it is a piece itself.
    refine .inr ⟨r, by rw [List.length_map]; exact hr, h.forest.mem_children_iff.1 ?_⟩
    have hstands : StandsFor _ s t r x := hstands
    rw [hstands.children_eq, List.mem_filter]
    refine ⟨hs.mem_children_iff.2 hpc, ?_⟩
    rw [List.append_nil] at hcnot
    simpa using hcnot
  case parent_other =>
    intro id hid hnot hout
    refine h.parent_eq id hid fun x hx => ⟨fun e => hnot ((hmem id).2 ⟨x, hx, e⟩), ?_⟩
    exact hout x.atRule ((hmem _).2 ⟨x, hx, rfl⟩)
  case rules =>
    rw [List.length_map, List.forall₂_map_right_iff]
    refine h.stands.imp fun r x hstands => ⟨?_, hstands.source_eq⟩
    rw [Sheet.kind, hstands.content_eq]
    rfl

/-- A step over a component does nothing or flattens it. -/
theorem lowerComponent_settled {p : Progress} (hs : p.sheet.IsSound)
    (hc : cx.IsCustom p.sheet component) (ns : Option String) :
    Settled cx id p [] [component]
      (if p.sheet.isAttached component then lowerComponent cx p component ns else .ok p) := by
  split
  · rename_i hatt
    have hon := hs.isAttached_iff.1 hatt
    obtain ⟨container, hp, hcontainer⟩ := hc.exists_container hs hon
    obtain ⟨region, q, hr, hq, hflat, hcounts⟩ := exists_flattened cx hs.toIsForest hp ns
    rw [hq]
    have hlow := hflat.lowered hs hr hc hp hon hcontainer
    refine settled_of_lowers hs ⟨hlow.exchange hs, ?_⟩ List.mem_cons_self ?_
    · have hrules : ({ components := 1 } + regionStats cx p.sheet region : Stats).rules =
          region.length + 1 := by
        rw [Stats.rules_add, rules_regionStats]
        exact Nat.add_comm _ _
      rw [List.length_map, List.length_cons, ← hrules]
      exact hcounts.counts
    · intro a ha
      obtain ⟨x, hx, rfl⟩ := List.mem_map.1 ha
      rcases List.mem_cons.1 hx with rfl | hx
      · exact .refl _ component
      · exact (hr.hangsOn_and_ne hs.toIsForest x hx).1
  · rename_i hout
    exact settled_of_not_hangsOn hs (fun hon => hout (hs.isAttached_iff.2 hon)) rfl

end Components

/-! ## States -/

section States

variable {cx : Context} {a : NodeId}

/-- The rule that a state stands in hangs on another node of the text. -/
theorem enclosingRule?_eq_some {s : Sheet} {parent container : NodeId}
    (h : enclosingRule? s a = some (parent, container)) :
    s.parent a = some parent ∧ s.kind parent = .rule ∧ s.parent parent = some container := by
  obtain ⟨rule, hp, h⟩ := Option.bind_eq_some_iff.1 h
  split at h
  · rename_i hk
    obtain ⟨above, hpp, h⟩ := Option.bind_eq_some_iff.1 h
    cases h
    exact ⟨hp, hk, hpp⟩
  · cases h

theorem enclosingRule?_of_parent {s : Sheet} {parent container : NodeId}
    (hp : s.parent a = some parent) (hk : s.kind parent = .rule)
    (hpp : s.parent parent = some container) :
    enclosingRule? s a = some (parent, container) := by
  simp [enclosingRule?, hp, hk, hpp]

/-- The node beside which the rule for a state goes is in the text, and the state stands below
it. -/
theorem enclosing_container {s : Sheet} {parent container : NodeId} (hs : s.IsSound)
    (hon : s.HangsOn a root) (hc : cx.IsCustom s a)
    (h : enclosingRule? s a = some (parent, container)) :
    (a ≠ container ∧ s.HangsOn a container) ∧ s.HangsOn container root := by
  obtain ⟨hp, hk, hpp⟩ := enclosingRule?_eq_some h
  obtain ⟨parent', hp', hparent⟩ := hc.exists_container hs hon
  obtain rfl : parent = parent' := Option.some.inj (hp.symm.trans hp')
  obtain ⟨container', hpp', hcontainer⟩ := exists_parent hs hparent (by rw [hk]; decide)
  obtain rfl : container = container' := Option.some.inj (hpp.symm.trans hpp')
  refine ⟨⟨?_, .head hp (.single hpp)⟩, hcontainer⟩
  rintro rfl
  exact hs.not_hangsOn_child hpp (.single hp)

/-- A new rule is not put behind itself. -/
theorem stateAnchor_ne {emitted : List (NodeId × NodeId)} {s : Sheet}
    {parent container rule : NodeId} (hparent : parent ≠ rule) (hrule : s.parent rule = none) :
    stateAnchor emitted s parent container ≠ rule := by
  unfold stateAnchor
  split
  · split
    · rename_i hp
      rintro rfl
      rw [hrule] at hp
      cases hp
    · exact hparent
  · exact hparent

/-- A step over a state either does nothing, or stops with the sheet as it was, or puts a rule for
the state behind the one that it stands in. -/
theorem lowerState_settled {state : List (NodeId × NodeId) × Progress}
    (hs : state.2.sheet.IsSound) (hc : cx.IsCustom state.2.sheet a) :
    Settled cx Prod.snd state.2 [] [a] (lowerState cx state a) := by
  obtain ⟨emitted, p⟩ := state
  unfold lowerState
  dsimp only at hs hc ⊢
  split
  · rename_i hout
    rw [Bool.not_eq_true'] at hout
    refine settled_of_not_hangsOn hs ?_ rfl
    intro hon
    rw [hs.isAttached_iff.2 hon] at hout
    cases hout
  rename_i hatt
  have hon : p.sheet.HangsOn a root := hs.isAttached_iff.1 (by simpa using hatt)
  split
  · obtain ⟨fault, hstop⟩ := Progress.stop_eq_error
      (List (NodeId × NodeId) × Progress) p a notInRule
    rw [hstop]
    exact settled_error hs rfl
  · rename_i parent container henclosing
    obtain ⟨hp, -, hpp⟩ := enclosingRule?_eq_some henclosing
    obtain ⟨hbelow, hcontainer⟩ := enclosing_container hs hon hc henclosing
    -- What the selector of the rule says does not matter from here on.
    generalize stateSelector cx.convention (p.sheet.selector parent) (p.sheet.params a) = selector
    obtain ⟨t, ht, hg, -⟩ := exists_takeover p hs.toIsForest hbelow selector
    have hlow := lowered_of_insertAfter hs hon hc hbelow hcontainer
      (List.ne_nil_of_mem (hs.mem_children_iff.2 hpp)) hg (stateAnchor emitted t parent container)
    have hanchor : stateAnchor emitted t parent container ≠ ⟨p.sheet.nodes.size⟩ :=
      stateAnchor_ne (hs.has_parent hp).ne_new (parent_new_of_takeover hs.toIsForest hg)
    have hins := insertAfter_of_takeover (hs.has_parent hpp) hg hanchor
    refine (congrArg (fun r => Settled cx Prod.snd p [] [a] (r >>= fun q =>
      q.insertAfter container (stateAnchor emitted q.sheet parent container)
        ⟨p.sheet.nodes.size⟩ >>= fun q => pure ((parent, ⟨p.sheet.nodes.size⟩) :: emitted,
          (q.remove a).count fun c => { c with states := c.states + 1 }))) ht).mpr ?_
    refine (congrArg (fun r => Settled cx Prod.snd p [] [a] (r >>= fun q =>
      pure ((parent, ⟨p.sheet.nodes.size⟩) :: emitted,
        (q.remove a).count fun c => { c with states := c.states + 1 }))) hins).mpr ?_
    refine settled_of_lowers hs ⟨hlow.exchange hs, ?_, rfl⟩ (List.mem_singleton_self a) ?_
    · simp only [Stats.rules, Progress.count, Progress.remove, List.length_singleton]
      omega
    · intro x hx
      rw [List.mem_singleton.1 hx]
      exact .refl _ a

end States

end ClassRules.Lowering
