import ClassRules.Lowering.Component
import ClassRules.Proofs.Lowering.Exchange

/-!
# One at-rule after the other

## What this module delivers

- `Lowers`: an exchange within a run, with the counts of what was exchanged.
- `Settled`: how it stands with some at-rules after a run over them, whether it stopped or not.
- `Settled.cons`, `settled_foldlM`: if each step settles its at-rule, a run settles all of them.
- `settled_of_lowers`, `settled_of_not_hangsOn`, `settled_error`: the ways in which a step does.
-/

set_option autoImplicit false

namespace ClassRules.Lowering

open Sheet

/-- From `p` to `q` at-rules were exchanged for rules or dropped, and all of them were counted. -/
structure Lowers (cx : Context) (p q : Progress) (replaced dropped : List NodeId) : Prop where
  exchange : Exchange cx p.sheet q.sheet replaced dropped
  counts : Counts p q replaced.length dropped.length

namespace Lowers

variable {cx : Context} {p q r : Progress} {replaced dropped replaced' dropped' : List NodeId}

theorem refl (cx : Context) (h : p.sheet.IsSound) : Lowers cx p p [] [] :=
  ⟨.refl cx h, .of_eq rfl⟩

theorem trans (hs : p.sheet.IsSound) (h₁ : Lowers cx p q replaced dropped)
    (h₂ : Lowers cx q r replaced' dropped') :
    Lowers cx p r (replaced ++ replaced') (dropped ++ dropped') := by
  refine ⟨h₁.exchange.trans hs h₂.exchange, ?_⟩
  rw [List.length_append, List.length_append]
  exact h₁.counts.trans h₂.counts

end Lowers

/-- How it stands with the at-rules `as` after a run over them from `p` on, which has dropped some.
None is in the text any more unless the run stopped, and nothing was replaced that stands above all
of them. -/
def Settled {σ : Type} (cx : Context) (progress : σ → Progress) (p : Progress)
    (dropped as : List NodeId) : Except Stopped σ → Prop
  | .ok state => ∃ replaced, Lowers cx p (progress state) replaced dropped ∧
      (∀ a ∈ as, ¬ (progress state).sheet.HangsOn a root) ∧
      ∀ rank : NodeId → Nat, p.sheet.Ranked rank → ∀ x ∈ replaced, ∃ a ∈ as, rank a ≤ rank x
  | .error stopped => ∃ replaced, Exchange cx p.sheet stopped.progress.sheet replaced dropped

theorem Settled.isSound {σ : Type} {cx : Context} {progress : σ → Progress} {p : Progress}
    {dropped as : List NodeId} {state : σ}
    (h : Settled cx progress p dropped as (.ok state)) : (progress state).sheet.IsSound := by
  obtain ⟨replaced, hlow, -⟩ := h
  exact hlow.exchange.sound

/-- What stands above an at-rule that was settled is still in the text, unless it was dropped. -/
theorem Settled.hangsOn {σ : Type} {cx : Context} {progress : σ → Progress} {p : Progress}
    {dropped : List NodeId} {state : σ} {a x : NodeId} (hs : p.sheet.IsSound)
    (h : Settled cx progress p dropped [a] (.ok state)) (hx : p.sheet.HangsOn x root)
    (hax : p.sheet.HangsOn a x) (hne : a ≠ x) (hout : x ∉ dropped) :
    (progress state).sheet.HangsOn x root := by
  obtain ⟨replaced, hlow, -, hrank⟩ := h
  refine (hlow.exchange.hangsOn_iff x (hs.has_of_hangsOn hx) fun hmem => ?_).2 hx
  obtain ⟨b, hb, hle⟩ := hrank p.sheet.depth hs.ranked_depth x
    ((List.mem_append.1 hmem).resolve_right hout)
  rw [List.mem_singleton.1 hb] at hle
  exact Nat.lt_irrefl _ (Nat.lt_of_lt_of_le (hax.rank_lt hs.ranked_depth hne) hle)

/-- What a run over a list drops is what its steps drop one by one. -/
def Traces {σ : Type} (f : σ → NodeId → Except Stopped σ)
    (dropped : σ → List NodeId → List NodeId) : Prop :=
  (∀ state, dropped state [] = []) ∧ ∀ state a as, dropped state (a :: as) =
    dropped state [a] ++ match f state a with
      | .ok next => dropped next as
      | .error _ => []

/-- A run that drops nothing. -/
theorem traces_nil {σ : Type} (f : σ → NodeId → Except Stopped σ) : Traces f fun _ _ => [] := by
  refine ⟨fun _ => rfl, ?_⟩
  intro state a as
  cases f state a with
  | ok next => rfl
  | error stopped => rfl

section Runs

variable {σ : Type} {cx : Context} (progress : σ → Progress)
  {f : σ → NodeId → Except Stopped σ} {dropped : σ → List NodeId → List NodeId}

/-- After a step that settled its at-rule, a run over the others settles all of them: the at-rule
that is gone does not come back. -/
theorem Settled.cons {p : Progress} {next : σ} {a : NodeId} {as dropped dropped' : List NodeId}
    {r : Except Stopped σ} (hs : p.sheet.IsSound)
    (has : ∀ b ∈ a :: as, p.sheet.Has b ∧ cx.IsCustom p.sheet b)
    (hfirst : Settled cx progress p dropped [a] (.ok next))
    (hrest : Settled cx progress (progress next) dropped' as r) :
    Settled cx progress p (dropped ++ dropped') (a :: as) r := by
  obtain ⟨replaced, hlow, hout, hrank⟩ := hfirst
  have hex := hlow.exchange
  obtain ⟨ha, hcustom⟩ := has a List.mem_cons_self
  cases r with
  | error stopped =>
    obtain ⟨replaced', hex'⟩ := hrest
    exact ⟨replaced ++ replaced', hex.trans hs hex'⟩
  | ok last =>
    obtain ⟨replaced', hlow', hout', hrank'⟩ := hrest
    have hex' := hlow'.exchange
    refine ⟨replaced ++ replaced', hlow.trans hs hlow', ?_, ?_⟩
    · intro b hb hon
      rcases List.mem_cons.1 hb with rfl | hb
      · -- An at-rule that is in the text at the end was there before the run over the others.
        have hk : (progress last).sheet.kind b = .atRule := by
          rw [Sheet.kind, hex'.content_eq b (hex.has ha), hex.content_eq b ha]
          exact hcustom.kind_eq
        refine hout b List.mem_cons_self ?_
        exact hex'.hangsOn_of_atRule hex.sound (hex'.has (hex.has ha)) hk hon
      · exact hout' b hb hon
    · intro rank hr x hx
      rcases List.mem_append.1 hx with hx | hx
      · obtain ⟨b, hb, hle⟩ := hrank rank hr x hx
        rw [List.mem_singleton] at hb
        exact ⟨a, List.mem_cons_self, hb ▸ hle⟩
      · obtain ⟨rank', heq, hr'⟩ := hex.ranked rank hr
        obtain ⟨b, hb, hle⟩ := hrank' rank' hr' x hx
        -- What is replaced later is an at-rule, so it has its number from the beginning.
        obtain ⟨hhas, -, hc⟩ := hex'.was_custom x (List.mem_append_left _ hx)
        rw [heq b (has b (List.mem_cons_of_mem _ hb)).1,
          heq x (hex.has_of_atRule hhas hc.kind_eq)] at hle
        exact ⟨b, List.mem_cons_of_mem _ hb, hle⟩

/-- If each step settles its at-rule, a run settles all of them. -/
theorem settled_foldlM (htrace : Traces f dropped)
    (hstep : ∀ (state : σ) (a : NodeId), (progress state).sheet.IsSound →
      (progress state).sheet.Has a → cx.IsCustom (progress state).sheet a →
      Settled cx progress (progress state) (dropped state [a]) [a] (f state a))
    (as : List NodeId) (state : σ) (hs : (progress state).sheet.IsSound)
    (has : ∀ a ∈ as, (progress state).sheet.Has a ∧ cx.IsCustom (progress state).sheet a) :
    Settled cx progress (progress state) (dropped state as) as (as.foldlM f state) := by
  induction as generalizing state with
  | nil =>
    rw [htrace.1]
    refine ⟨[], .refl cx hs, ?_, ?_⟩
    · intro a ha
      exact absurd ha List.not_mem_nil
    · intro rank _ x hx
      exact absurd hx List.not_mem_nil
  | cons a as ih =>
    have hfirst := hstep state a hs (has a List.mem_cons_self).1 (has a List.mem_cons_self).2
    rw [List.foldlM_cons, htrace.2]
    cases hfa : f state a with
    | error stopped =>
      rw [hfa] at hfirst
      dsimp only
      rw [List.append_nil]
      exact hfirst
    | ok next =>
      rw [hfa] at hfirst
      obtain ⟨replaced, hlow, -, -⟩ := id hfirst
      have hex := hlow.exchange
      refine hfirst.cons progress hs has (ih next hex.sound ?_)
      -- The step leaves the contents of the at-rules behind its own alone.
      intro b hb
      obtain ⟨hhas, hcustom⟩ := has b (List.mem_cons_of_mem _ hb)
      exact ⟨hex.has hhas, (Context.isCustom_congr (hex.content_eq b hhas)).2 hcustom⟩

variable {progress}

/-- A step settles an at-rule by exchanging it and nodes that hang on it. -/
theorem settled_of_lowers {p : Progress} {state : σ} {a : NodeId} {replaced : List NodeId}
    (hs : p.sheet.IsSound) (h : Lowers cx p (progress state) replaced []) (ha : a ∈ replaced)
    (hon : ∀ x ∈ replaced, p.sheet.HangsOn x a) : Settled cx progress p [] [a] (.ok state) := by
  refine ⟨replaced, h, ?_, ?_⟩
  · intro b hb
    rw [List.mem_singleton] at hb
    exact h.exchange.not_hangsOn_root hs (by rw [List.append_nil, hb]; exact ha)
  · intro rank hr x hx
    exact ⟨a, List.mem_singleton_self a, (hon x hx).rank_le hr⟩

/-- A step that does nothing settles an at-rule that is not in the text. -/
theorem settled_of_not_hangsOn {p : Progress} {state : σ} {a : NodeId} (hs : p.sheet.IsSound)
    (ha : ¬ p.sheet.HangsOn a root) (heq : progress state = p) :
    Settled cx progress p [] [a] (.ok state) := by
  refine ⟨[], by rw [heq]; exact .refl cx hs, ?_,
    fun rank _ x hx => absurd hx List.not_mem_nil⟩
  intro b hb
  rw [List.mem_singleton] at hb
  rw [hb, heq]
  exact ha

/-- A step that stops leaves the sheet as it was. -/
theorem settled_error {p : Progress} {stopped : Stopped} {as : List NodeId} (hs : p.sheet.IsSound)
    (heq : stopped.progress.sheet = p.sheet) : Settled cx progress p [] as (.error stopped) :=
  ⟨[], by rw [heq]; exact .refl cx hs⟩

end Runs

end ClassRules.Lowering
