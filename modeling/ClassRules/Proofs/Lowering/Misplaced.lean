import ClassRules.Proofs.Lowering.StateRules

/-!
# Misplaced states

A state is lowered only in a rule, or in a state whose own turn comes before. Whether the pass over
the states meets one that stands elsewhere is told from the sheet as it was, although what a state
stands in has been exchanged for a rule by the time of its turn.

## What this module delivers

- `Context.IsMisplaced`: a state stands in a node that is neither a rule nor a state.
- `lowerState_of_isMisplaced`: such a state stops the pass, whatever came before it.
- `exists_statesReplaced`: how the pass ends, with all states lowered or those before a misplaced
  one.
- `lowerStates_stops`: it fails exactly if there is a misplaced state. The first one in document
  order is named, those before it are lowered, and none from it on.
-/

set_option autoImplicit false

namespace ClassRules.Lowering

open Sheet

variable {cx : Context} {s t : Sheet}

/-- A state stands in a node that is neither a rule nor a state. -/
def Context.IsMisplaced (cx : Context) (s : Sheet) (w : NodeId) : Prop :=
  ∃ parent, s.parent w = some parent ∧ s.kind parent ≠ .rule ∧ cx.isA s .when parent = false

instance (cx : Context) (s : Sheet) (w : NodeId) : Decidable (cx.IsMisplaced s w) :=
  decidable_of_iff
    ((s.parent w).any fun parent => s.kind parent ≠ .rule && !cx.isA s .when parent)
    (by simp [Context.IsMisplaced, Option.any_eq_true])

theorem Context.not_isMisplaced_iff {w : NodeId} : ¬ cx.IsMisplaced s w ↔
    ∀ parent ∈ s.parent w, s.kind parent = .rule ∨ cx.isA s .when parent = true := by
  simp [IsMisplaced, or_iff_not_imp_left]

/-- A state stands directly in a rule only if what it hangs on is one. -/
theorem enclosingRule?_of_not_rule {w parent : NodeId} (hparent : s.parent w = some parent)
    (hkind : s.kind parent ≠ .rule) : enclosingRule? s w = none := by
  cases henclosing : enclosingRule? s w with
  | none => rfl
  | some enclosing =>
    obtain ⟨hp, hrule, -⟩ := enclosingRule?_eq_some henclosing
    obtain rfl := Option.some.inj (hparent.symm.trans hp)
    exact absurd hrule hkind

/-! ## Where the pass stops -/

section Stop

variable (hs : s.IsForest) (hroot : s.kind root = .root)

include hs hroot

/-- When the turn of a misplaced state comes, it stands where it stood, and its parent has not
become a rule. -/
theorem lowerState_of_isMisplaced {done rest : List NodeId} {w : NodeId}
    (hws : cx.states s = done ++ w :: rest) (hw : cx.IsMisplaced s w) {p : Progress}
    (h : StatesReplaced cx s done p.sheet) (emitted : List (NodeId × NodeId)) :
    lowerState cx (emitted, p) w = .error ⟨misuse s w notInRule, p⟩ := by
  obtain ⟨parent, hparent, hkind, hno⟩ := hw
  have hhas := Context.has_of_isA (isA_of_mem_states (mem_states_next hws))
  have hout : parent ∉ done := fun hmem => by
    rw [isA_of_mem_states (hws ▸ List.mem_append_left _ hmem)] at hno
    cases hno
  have hup := h.parent_eq hs hparent (not_mem_done hs hws)
  rw [standIn_of_not_mem hout] at hup
  have hkind' : p.sheet.kind parent ≠ .rule := by
    rwa [Sheet.kind, h.content_old parent (hs.has_parent hparent)]
  rw [lowerState_eq_error (h.isAttached_next hs hroot hws) (enclosingRule?_of_not_rule hup hkind'),
    misuse_congr (h.source_old w hhas) h.inputs_eq]

/-- The pass goes through the states that are not misplaced, up to the first that is. -/
theorem exists_statesReplaced {p : Progress} (hp : p.sheet = s) {done rest : List NodeId}
    (hws : cx.states s = done ++ rest) (hin : ∀ w ∈ done, ¬ cx.IsMisplaced s w) :
    ∃ emitted t, StatesReplaced cx s done t ∧ (cx.states s).foldlM (lowerState cx) ([], p) =
      rest.foldlM (lowerState cx) (emitted,
        ⟨t, p.warnings, p.stats + { states := done.length }⟩) := by
  subst hp
  have hws' : cx.states p.sheet = [] ++ (done ++ rest) := hws
  obtain ⟨emitted, t, ht, h⟩ := statesReplaced_foldlM hs hroot hws'
    (fun w hw => Context.not_isMisplaced_iff.1 (hin w hw)) (.nil hs) []
  refine ⟨emitted, t, h, ?_⟩
  rw [hws, List.foldlM_append, ht]
  rfl

end Stop

/-- If no state is misplaced, the pass goes through. -/
theorem exists_lowerStates_of_not_isMisplaced {p : Progress} (hs : p.sheet.IsForest)
    (hroot : p.sheet.kind root = .root)
    (hin : ∀ w ∈ cx.states p.sheet, ¬ cx.IsMisplaced p.sheet w) :
    ∃ t, StatesReplaced cx p.sheet (cx.states p.sheet) t ∧ lowerStates cx p =
      .ok ⟨t, p.warnings, p.stats + { states := (cx.states p.sheet).length }⟩ := by
  obtain ⟨emitted, t, h, ht⟩ := exists_statesReplaced hs hroot rfl (List.append_nil _).symm hin
  refine ⟨t, h, ?_⟩
  rw [lowerStates, ht]
  rfl

/-- If a state is the first misplaced one, the pass stops there, with those before it lowered. -/
theorem exists_lowerStates_of_isMisplaced {p : Progress} (hs : p.sheet.IsForest)
    (hroot : p.sheet.kind root = .root) {done rest : List NodeId} {w : NodeId}
    (hws : cx.states p.sheet = done ++ w :: rest) (hin : ∀ v ∈ done, ¬ cx.IsMisplaced p.sheet v)
    (hw : cx.IsMisplaced p.sheet w) :
    ∃ t, StatesReplaced cx p.sheet done t ∧ lowerStates cx p =
      .error ⟨misuse p.sheet w notInRule, t, p.warnings,
        p.stats + { states := done.length }⟩ := by
  obtain ⟨emitted, t, h, ht⟩ := exists_statesReplaced hs hroot rfl hws hin
  have hstop := lowerState_of_isMisplaced hs hroot hws hw
    (p := ⟨t, p.warnings, p.stats + { states := done.length }⟩) h emitted
  refine ⟨t, h, ?_⟩
  rw [lowerStates, ht, List.foldlM_cons, hstop]
  rfl

/-- Where some states of a list are misplaced, one of them is the first. -/
theorem Context.exists_first_isMisplaced {ws : List NodeId} {w : NodeId} (hmem : w ∈ ws)
    (hw : cx.IsMisplaced s w) : ∃ done v rest, ws = done ++ v :: rest ∧
      (∀ u ∈ done, ¬ cx.IsMisplaced s u) ∧ cx.IsMisplaced s v := by
  have hfind : ws.find? (cx.IsMisplaced s ·) ≠ none := fun hnone =>
    List.find?_eq_none.1 hnone w hmem (decide_eq_true hw)
  obtain ⟨v, hv⟩ := Option.ne_none_iff_exists'.1 hfind
  obtain ⟨hbad, done, rest, hws, hdone⟩ := List.find?_eq_some_iff_append.1 hv
  exact ⟨done, v, rest, hws, fun u hu => by simpa using hdone u hu, of_decide_eq_true hbad⟩

/-- The pass over the states fails exactly if one of them is misplaced. It fails at the first one in
document order, whose place it names. By then those before it are lowered, and it is still in the
text with all behind it. -/
theorem lowerStates_stops (cx : Context) {p : Progress} (hs : p.sheet.IsForest)
    (hroot : p.sheet.kind root = .root) :
    ((∃ stopped, lowerStates cx p = .error stopped) ↔
      ∃ w ∈ cx.states p.sheet, cx.IsMisplaced p.sheet w) ∧
    ∀ done w rest, cx.states p.sheet = done ++ w :: rest →
      (∀ v ∈ done, ¬ cx.IsMisplaced p.sheet v) → cx.IsMisplaced p.sheet w →
      ∃ t, lowerStates cx p = .error ⟨misuse p.sheet w notInRule, t, p.warnings,
          p.stats + { states := done.length }⟩ ∧
        StatesReplaced cx p.sheet done t ∧ ∀ v, v ∈ cx.states t ↔ v ∈ w :: rest := by
  refine ⟨⟨?_, ?_⟩, ?_⟩
  · rintro ⟨stopped, hstopped⟩
    by_contra hnone
    obtain ⟨t, -, ht⟩ := exists_lowerStates_of_not_isMisplaced hs hroot
      fun w hw hbad => hnone ⟨w, hw, hbad⟩
    rw [ht] at hstopped
    cases hstopped
  · rintro ⟨w, hmem, hw⟩
    obtain ⟨done, v, rest, hws, hin, hv⟩ := Context.exists_first_isMisplaced hmem hw
    obtain ⟨t, -, ht⟩ := exists_lowerStates_of_isMisplaced hs hroot hws hin hv
    exact ⟨_, ht⟩
  · intro done w rest hws hin hw
    obtain ⟨t, h, ht⟩ := exists_lowerStates_of_isMisplaced hs hroot hws hin hw
    exact ⟨t, ht, h, fun v => h.mem_states_iff hs hroot hws⟩

/-- For instance, if the second of three states stands in a query. -/
theorem lowerStates_stops_media :
    let s := read [(.ofFile "a.css", ".A { @when a {} } @media m { @when b {} } .B { @when c {} }")]
    ∃ t, lowerStates (.ofOptions {}) { sheet := s } =
        .error ⟨.misuse ⟨notInRule, some ⟨"a.css", 1, 30⟩⟩, t, [], { states := 1 }⟩ ∧
      StatesReplaced (.ofOptions {}) s [⟨2⟩] t ∧
      ∀ v, v ∈ (Context.ofOptions {}).states t ↔ v ∈ [(⟨4⟩ : NodeId), ⟨6⟩] := by
  intro s
  have hs : s.IsForest := (isSound_read _).toIsForest
  have hroot : s.kind root = .root := by decide +kernel
  have hws : (Context.ofOptions {}).states s = [⟨2⟩] ++ ⟨4⟩ :: [⟨6⟩] := by decide +kernel
  have hin : ∀ v ∈ [(⟨2⟩ : NodeId)], ¬ (Context.ofOptions {}).IsMisplaced s v := by decide +kernel
  have hbad : (Context.ofOptions {}).IsMisplaced s ⟨4⟩ := by decide +kernel
  have hplace : misuse s ⟨4⟩ notInRule = .misuse ⟨notInRule, some ⟨"a.css", 1, 30⟩⟩ := by
    decide +kernel
  rw [← hplace]
  exact (lowerStates_stops (.ofOptions {}) (p := { sheet := s }) hs hroot).2 _ _ _ hws hin hbad

end ClassRules.Lowering
