import ClassRules.Lowering.State
import ClassRules.Proofs.ItemList.Pieces

/-!
# The selector of a state

Each state stands on each selector of the rule that it is in. As long as quotes and parentheses are
closed where the parts are joined, the selector that comes of it has exactly these items again.

## What this module delivers

- `isItem_joinState`: a selector with a separator and a state behind it is one item.
- `splitComma_stateSelector`: the items of the new selector are all selectors with all states.
-/

set_option autoImplicit false

namespace ClassRules.Lowering

open ItemList Text

/-- A selector with a separator and a state behind it is one item, if quotes and parentheses are
closed in the separator and no comma stands outside them. -/
theorem isItem_joinState {c : Convention} {part state : String} (hpart : IsItem part)
    (hstate : IsItem state)
    (hseparator : Passes (· == ',') {} c.separators.state.toList {}) :
    IsItem (c.joinState part state) := by
  have hjoin : (c.joinState part state).toList =
      part.toList ++ c.separators.state.toList ++ state.toList := by
    simp [Convention.joinState, Convention.join, BySeparator.get]
  refine ⟨?_, ?_, ?_⟩
  · rw [hjoin]
    exact hpart.trimmed.append hpart.ne_nil hstate.trimmed hstate.ne_nil _
  · rw [hjoin]
    exact List.append_ne_nil_of_right_ne_nil _ hstate.ne_nil
  · rw [hjoin]
    exact (hpart.passes.append hseparator).append hstate.passes

/-- Let neither the selector nor the params have a backslash or leave a quote or a parenthesis open,
nor the separator leave any open, and let no comma of the separator stand outside these. Then the
items of the new selector are all selectors with all states, all states of the first one first. -/
theorem splitComma_stateSelector (c : Convention) {selector params : String}
    (hselector : '\\' ∉ selector.toList ∧ ({} : Scan).afterAll selector.toList = {})
    (hparams : '\\' ∉ params.toList ∧ ({} : Scan).afterAll params.toList = {})
    (hseparator : ({} : Scan).afterAll c.separators.state.toList = {})
    (hcomma : ∀ front back, c.separators.state.toList = front ++ ',' :: back →
      (({} : Scan).afterAll front).atTop = false) :
    splitComma (stateSelector c selector params) =
        ((splitComma selector).flatMap fun part =>
          (splitComma params).map fun state => part ++ c.separators.state ++ state) ∧
      (splitComma (stateSelector c selector params)).length =
        (splitComma selector).length * (splitComma params).length := by
  have hpasses : Passes (· == ',') {} c.separators.state.toList {} := by
    have hall : Passes (· == ',') {} c.separators.state.toList
        (({} : Scan).afterAll c.separators.state.toList) := by
      refine .of_forall _ fun front d back heq hd => ?_
      obtain rfl := eq_of_beq hd
      exact hcomma front back heq
    rwa [hseparator] at hall
  have hitems : splitComma (stateSelector c selector params) =
      (splitComma selector).flatMap fun part =>
        (splitComma params).map fun state => c.joinState part state := by
    refine splitComma_joinComma fun item hmem => ?_
    obtain ⟨part, hpart, hmem⟩ := List.mem_flatMap.1 hmem
    obtain ⟨state, hstate, rfl⟩ := List.mem_map.1 hmem
    exact isItem_joinState (isItem_of_mem_splitComma hselector.2 hselector.1 hpart)
      (isItem_of_mem_splitComma hparams.2 hparams.1 hstate) hpasses
  refine ⟨hitems, ?_⟩
  have hrow : ∀ part, ((splitComma params).map fun state => c.joinState part state).length =
      (splitComma params).length := fun part => List.length_map _
  rw [hitems, List.length_flatMap, funext hrow, List.map_const', List.sum_replicate_nat]

/-- For instance, with a comma and a parenthesis in quotes, and one in parentheses. -/
theorem splitComma_stateSelector_quoted :
    splitComma (stateSelector (.ofStyle .suit) ".A[t=\"a, (b\"], .B:not(.C, .D)" "on, off") =
        [".A[t=\"a, (b\"].is-on", ".A[t=\"a, (b\"].is-off", ".B:not(.C, .D).is-on",
          ".B:not(.C, .D).is-off"] := by
  have hcomma : ∀ front back, ".is-".toList = front ++ ',' :: back →
      (({} : Scan).afterAll front).atTop = false := by
    intro front back heq
    have hmem : ',' ∈ ".is-".toList := heq ▸ List.mem_append_right front List.mem_cons_self
    exact absurd hmem (by decide)
  have hselector : '\\' ∉ ".A[t=\"a, (b\"], .B:not(.C, .D)".toList ∧
      ({} : Scan).afterAll ".A[t=\"a, (b\"], .B:not(.C, .D)".toList = {} := by decide
  have hparams : '\\' ∉ "on, off".toList ∧ ({} : Scan).afterAll "on, off".toList = {} := by decide
  have hitems :=
    splitComma_stateSelector (.ofStyle .suit) hselector hparams (by decide) hcomma
  exact hitems.1.trans (by decide +kernel)

end ClassRules.Lowering
