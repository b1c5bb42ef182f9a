import ClassRules.Proofs.Lowering.Conservation
import ClassRules.Proofs.Lowering.Namespaces

/-!
# Whole runs

## What this module delivers

- `NoneLeft`: no at-rule of a kind is in the text. What is gone stays away.
- `Ended`: a pass over the sheet as an exchange that leaves nothing of some kinds. `Ended.bind` puts
  two passes one behind the other, and `transform_ended` is the whole run. `noneLeft_of_transform`:
  what a run that succeeds leaves.
- `transform_conserves`: a run loses nothing and doubles nothing, whether it stops or not.
- `transform_transform`: a run leaves nothing to do for another one.
-/

set_option autoImplicit false

namespace ClassRules

namespace Lowering

open Sheet

variable {cx : Context} {s t : Sheet} {replaced dropped : List NodeId}

/-! ## Passes -/

/-- No at-rule of a kind is in the text. -/
def NoneLeft (cx : Context) (s : Sheet) (kind : RuleKind) : Prop :=
  ∀ id, s.HangsOn id root → cx.isA s kind id = false

/-- As no at-rule comes into the text, a kind that is gone stays away. -/
theorem NoneLeft.of_exchange {kind : RuleKind} (h : NoneLeft cx s kind) (hs : s.IsSound)
    (hex : Exchange cx s t replaced dropped) : NoneLeft cx t kind := by
  intro id hon
  by_contra hk
  rw [Bool.not_eq_false] at hk
  have hid := hex.sound.has_of_hangsOn hon
  have hold := hex.has_of_atRule hid (Context.kind_of_isA hk)
  have hnone := h id (hex.hangsOn_of_atRule hs hid (Context.kind_of_isA hk) hon)
  rw [← Context.isA_congr (hex.content_eq id hold), hk] at hnone
  cases hnone

/-- How a pass from `p` on ends: at-rules were exchanged and dropped, and if the pass did not stop,
no at-rule of some kinds is left. -/
def Ended {σ : Type} (cx : Context) (progress : σ → Progress) (p : Progress)
    (dropped : List NodeId) (kinds : RuleKind → Prop) : Except Stopped σ → Prop
  | .ok state => (∃ replaced, Lowers cx p (progress state) replaced dropped) ∧
      ∀ kind, kinds kind → NoneLeft cx (progress state).sheet kind
  | .error stopped => ∃ replaced, Exchange cx p.sheet stopped.progress.sheet replaced dropped

section Passes

variable {σ τ : Type} {progress : σ → Progress} {p : Progress} {kinds kinds' : RuleKind → Prop}

/-- A pass over all at-rules of a kind leaves none. -/
theorem Settled.ended {kind : RuleKind} (hs : p.sheet.IsSound) {r : Except Stopped σ}
    (h : Settled cx progress p dropped (cx.find p.sheet root kind) r) :
    Ended cx progress p dropped (· = kind) r := by
  cases r with
  | error stopped => exact h
  | ok state =>
    obtain ⟨replaced, hlow, hout, -⟩ := h
    refine ⟨⟨replaced, hlow⟩, ?_⟩
    -- What is left of the kind was there at the beginning, so the search found it.
    rintro _ rfl id hon
    by_contra hk
    rw [Bool.not_eq_false] at hk
    have hex := hlow.exchange
    have hid := hex.sound.has_of_hangsOn hon
    have hold := hex.has_of_atRule hid (Context.kind_of_isA hk)
    have hkind := (Context.isA_congr (hex.content_eq id hold)).symm.trans hk
    refine hout id (Context.mem_find_iff.2 ⟨hs.mem_descendants_iff.2 ⟨?_, ?_⟩, hkind⟩) hon
    · rintro rfl
      have hroot := Context.kind_of_isA hkind
      rw [Sheet.kind, hs.content_root] at hroot
      cases hroot
    · exact hex.hangsOn_of_atRule hs hid (Context.kind_of_isA hk) hon

theorem Ended.mono {r : Except Stopped σ} (h : Ended cx progress p dropped kinds r)
    (hkinds : ∀ kind, kinds' kind → kinds kind) : Ended cx progress p dropped kinds' r := by
  cases r with
  | error stopped => exact h
  | ok state => exact ⟨h.1, fun kind hkind => h.2 kind (hkinds kind hkind)⟩

/-- A pass that only SUIT makes. -/
theorem Ended.ite {kind : RuleKind} {b : Bool} {f : Progress → Except Stopped Progress}
    (hs : p.sheet.IsSound) (h : Ended cx id p [] (· = kind) (f p)) :
    Ended cx id p [] (fun k => b = true ∧ k = kind) (if b = true then f p else .ok p) := by
  split
  · exact h.mono fun _ hk => hk.2
  · rename_i hb
    exact ⟨⟨[], .refl cx hs⟩, fun _ hk => absurd hk.1 hb⟩

/-- One pass behind another. If the first one stops, the second drops nothing. -/
theorem Ended.bind (progress' : τ → Progress) (dropped' : List NodeId) (hs : p.sheet.IsSound)
    {r : Except Stopped σ} {f : σ → Except Stopped τ}
    (h : Ended cx progress p dropped kinds r)
    (hstop : ∀ stopped, r = .error stopped → dropped' = [])
    (hf : ∀ state, r = .ok state → (progress state).sheet.IsSound →
      Ended cx progress' (progress state) dropped' kinds' (f state)) :
    Ended cx progress' p (dropped ++ dropped') (fun kind => kinds kind ∨ kinds' kind)
      (r >>= f) := by
  cases r with
  | error stopped =>
    rw [hstop stopped rfl, List.append_nil]
    exact h
  | ok state =>
    obtain ⟨⟨replaced, hlow⟩, hnone⟩ := h
    have hsecond := hf state rfl hlow.exchange.sound
    change Ended cx progress' p (dropped ++ dropped') _ (f state)
    cases hfs : f state with
    | error stopped =>
      rw [hfs] at hsecond
      obtain ⟨replaced', hex⟩ := hsecond
      exact ⟨replaced ++ replaced', hlow.exchange.trans hs hex⟩
    | ok state' =>
      rw [hfs] at hsecond
      obtain ⟨⟨replaced', hlow'⟩, hnone'⟩ := hsecond
      refine ⟨⟨replaced ++ replaced', hlow.trans hs hlow'⟩, ?_⟩
      intro kind hkind
      rcases hkind with hkind | hkind
      · exact (hnone kind hkind).of_exchange hlow.exchange.sound hlow'.exchange
      · exact hnone' kind hkind

end Passes

/-! ## The four passes -/

section Four

variable {p : Progress}

/-- What a search of the whole sheet finds can be gone through. -/
theorem of_mem_find_root (hs : s.IsSound) (kind : RuleKind) :
    ∀ a ∈ cx.find s root kind, s.Has a ∧ cx.IsCustom s a := fun _ ha =>
  ⟨(of_mem_find hs ha).1, (of_mem_find hs ha).2.1⟩

theorem lowerUtilities_ended (hs : p.sheet.IsSound) :
    Ended cx id p [] (· = .utility) (lowerUtilities cx p) :=
  Settled.ended hs (settled_foldlM id (traces_nil _)
    (fun _ _ hq _ hc => lowerUtility_settled hq hc) _ p hs
    (of_mem_find_root hs .utility))

theorem lowerNamespaces_ended (cx : Context) (hs : p.sheet.IsSound) :
    Ended cx Prod.snd p
      (namespacesLowered cx ({}, p) (cx.find p.sheet root .componentNamespace))
      (· = .componentNamespace) (lowerNamespaces cx p) :=
  Settled.ended hs (settled_foldlM Prod.snd (traces_namespacesLowered cx)
    (fun _ _ hq ha hc => lowerNamespace_settled hq ha hc) _ ({}, p) hs
    (of_mem_find_root hs .componentNamespace))

theorem lowerComponents_ended (hs : p.sheet.IsSound) (map : NamespaceMap)
    (default : Option String) :
    Ended cx id p [] (· = .component) (lowerComponents cx map default p) :=
  Settled.ended hs (settled_foldlM id (traces_nil _)
    (fun _ _ hq _ hc => lowerComponent_settled hq hc _) _ p hs
    (of_mem_find_root hs .component))

theorem lowerStates_ended (hs : p.sheet.IsSound) :
    Ended cx id p [] (· = .when) (lowerStates cx p) := by
  have hrun : Ended cx Prod.snd p [] (· = .when)
      ((cx.find p.sheet root .when).foldlM (lowerState cx) ([], p)) :=
    Settled.ended hs (settled_foldlM Prod.snd (traces_nil _)
      (fun _ _ hq _ hc => lowerState_settled hq hc) _ ([], p) hs (of_mem_find_root hs .when))
  unfold lowerStates
  cases hfold : (cx.find p.sheet root .when).foldlM (lowerState cx) ([], p) with
  | error stopped =>
    rw [hfold] at hrun
    exact hrun
  | ok state =>
    rw [hfold] at hrun
    exact hrun

end Four

end Lowering

open Lowering

/-- Utilities are rewritten under SUIT only. -/
theorem Options.rewritesUtilities_iff {o : Options} :
    o.convention.rewritesUtilities = true ↔ o.style = .suit := by
  simp [Options.convention, Convention.rewritesUtilities]

/-- States are rewritten under SUIT only. -/
theorem Options.rewritesStates_iff {o : Options} :
    o.convention.rewritesStates = true ↔ o.style = .suit := by
  simp [Options.convention, Convention.rewritesStates]

/-- The kinds of which a run leaves nothing. -/
def Options.Exhausts (o : Options) (kind : RuleKind) : Prop :=
  kind = .component ∨ kind = .componentNamespace ∨
    o.style = .suit ∧ (kind = .utility ∨ kind = .when)

namespace Sheet

variable {s : Sheet}

/-- The state of a run behind the utilities. -/
def withoutUtilities (s : Sheet) (o : Options) : Except Stopped Progress :=
  if o.convention.rewritesUtilities then lowerUtilities (.ofOptions o) { sheet := s }
  else .ok { sheet := s }

/-- The at-rules that a run lowers as namespaces. -/
def namespacesLowered (s : Sheet) (o : Options) : List NodeId :=
  match s.withoutUtilities o with
  | .ok p => Lowering.namespacesLowered (.ofOptions o) ({}, p)
      ((Context.ofOptions o).find p.sheet root .componentNamespace)
  | .error _ => []

/-- The utilities of a sheet are exchanged for rules. -/
theorem exists_exchange_withoutUtilities {o : Options} {p : Progress} (hs : s.IsSound)
    (h : s.withoutUtilities o = .ok p) :
    ∃ replaced, Exchange (.ofOptions o) s p.sheet replaced [] := by
  have hended : Ended (.ofOptions o) id { sheet := s } [] _ (s.withoutUtilities o) :=
    Ended.ite (p := { sheet := s }) hs (lowerUtilities_ended hs)
  rw [h] at hended
  obtain ⟨⟨replaced, hlow⟩, -⟩ := hended
  exact ⟨replaced, hlow.exchange⟩

/-- The four passes of a run. -/
theorem transform_eq (s : Sheet) (o : Options) :
    s.transform o = s.withoutUtilities o >>= fun p => lowerNamespaces (.ofOptions o) p >>=
      fun state => lowerComponents (.ofOptions o) state.1 o.defaultNamespace state.2 >>=
        fun q => if o.convention.rewritesStates then lowerStates (.ofOptions o) q else .ok q := by
  unfold withoutUtilities
  by_cases h : o.convention.rewritesUtilities = true
  · rw [if_pos h]
    exact if_pos h
  · rw [if_neg h]
    exact if_neg h

/-- A run that succeeds, pass by pass. -/
theorem exists_passes {s : Sheet} {o : Options} {p : Progress} (h : s.transform o = .ok p) :
    ∃ p₁ state p₃, s.withoutUtilities o = .ok p₁ ∧
      lowerNamespaces (.ofOptions o) p₁ = .ok state ∧
      lowerComponents (.ofOptions o) state.1 o.defaultNamespace state.2 = .ok p₃ ∧
      (if o.convention.rewritesStates then lowerStates (.ofOptions o) p₃ else .ok p₃) = .ok p := by
  rw [transform_eq] at h
  obtain ⟨p₁, h₁, h⟩ := exists_of_bind_eq_ok h
  obtain ⟨state, h₂, h⟩ := exists_of_bind_eq_ok h
  obtain ⟨p₃, h₃, h⟩ := exists_of_bind_eq_ok h
  exact ⟨p₁, state, p₃, h₁, h₂, h₃, h⟩

/-- Lowering the states of a sheet is going through those that a search finds. -/
theorem exists_of_lowerStates {cx : Context} {p q : Progress} (h : lowerStates cx p = .ok q) :
    ∃ emitted, (cx.find p.sheet root .when).foldlM (lowerState cx) ([], p) =
      .ok (emitted, q) := by
  obtain ⟨⟨emitted, r⟩, hr, heq⟩ := exists_of_bind_eq_ok h
  cases heq
  exact ⟨emitted, hr⟩

section Passes

variable {o : Options} {p : Progress}

/-- Components and states. -/
theorem components_ended (hs : p.sheet.IsSound) (map : NamespaceMap) :
    Ended (.ofOptions o) id p []
      (fun kind => kind = .component ∨ o.convention.rewritesStates = true ∧ kind = .when)
      (lowerComponents (.ofOptions o) map o.defaultNamespace p >>= fun q =>
        if o.convention.rewritesStates then lowerStates (.ofOptions o) q else .ok q) :=
  (lowerComponents_ended hs map o.defaultNamespace).bind id [] hs (fun _ _ => rfl) fun _ _ hsq =>
    Ended.ite hsq (lowerStates_ended hsq)

/-- Namespaces, and what comes behind them. -/
theorem namespaces_ended (hs : p.sheet.IsSound) :
    Ended (.ofOptions o) id p
      (Lowering.namespacesLowered (.ofOptions o) ({}, p)
        ((Context.ofOptions o).find p.sheet root .componentNamespace))
      (fun kind => kind = .componentNamespace ∨ kind = .component ∨
        o.convention.rewritesStates = true ∧ kind = .when)
      (lowerNamespaces (.ofOptions o) p >>= fun state =>
        lowerComponents (.ofOptions o) state.1 o.defaultNamespace state.2 >>= fun q =>
          if o.convention.rewritesStates then lowerStates (.ofOptions o) q else .ok q) := by
  have hrun := (lowerNamespaces_ended (.ofOptions o) hs).bind id [] hs (fun _ _ => rfl)
    fun state _ hss => components_ended (o := o) hss state.1
  rw [List.append_nil] at hrun
  exact hrun

/-- A run exchanges at-rules for rules and drops namespaces, and nothing else. -/
theorem transform_ended (hs : s.IsSound) (o : Options) :
    Ended (.ofOptions o) id { sheet := s } (s.namespacesLowered o) o.Exhausts
      (s.transform o) := by
  have hfirst : Ended (.ofOptions o) id { sheet := s } []
      (fun kind => o.convention.rewritesUtilities = true ∧ kind = .utility)
      (s.withoutUtilities o) :=
    Ended.ite (p := { sheet := s }) hs (lowerUtilities_ended hs)
  have hrun := hfirst.bind id (s.namespacesLowered o) hs
    (fun stopped hstopped => by rw [namespacesLowered, hstopped]) fun p hp hsp => by
      have hrest := namespaces_ended (o := o) (p := p) hsp
      rw [namespacesLowered, hp]
      exact hrest
  rw [transform_eq]
  apply Ended.mono hrun
  rintro kind (hk | hk | ⟨hstyle, hk | hk⟩)
  · exact .inr (.inr (.inl hk))
  · exact .inr (.inl hk)
  · exact .inl ⟨Options.rewritesUtilities_iff.2 hstyle, hk⟩
  · exact .inr (.inr (.inr ⟨Options.rewritesStates_iff.2 hstyle, hk⟩))

/-- A run that succeeds has exchanged at-rules for rules. -/
theorem exists_exchange_of_transform (hs : s.IsSound) (h : s.transform o = .ok p) :
    ∃ replaced, Exchange (.ofOptions o) s p.sheet replaced (s.namespacesLowered o) := by
  have hrun := transform_ended hs o
  rw [h] at hrun
  obtain ⟨⟨replaced, hlow⟩, -⟩ := hrun
  exact ⟨replaced, hlow.exchange⟩

/-- A run that succeeds leaves nothing of the kinds that it goes through. -/
theorem noneLeft_of_transform (hs : s.IsSound) (h : s.transform o = .ok p) :
    p.sheet.IsSound ∧
      ∀ kind, o.Exhausts kind → NoneLeft (.ofOptions o) p.sheet kind := by
  have hrun := transform_ended hs o
  rw [h] at hrun
  obtain ⟨⟨replaced, hlow⟩, hnone⟩ := hrun
  exact ⟨hlow.exchange.sound, hnone⟩

end Passes

/-! ## Runs over sheets that were read -/

/-- Whether it succeeds or stops, a run conserves the text of a sheet that was read. If it succeeds,
the text has lost as many nodes as namespaces were counted, and the sheet has got as many rules as
all else that was counted. -/
theorem transform_conserves (texts : List (Input × String)) (o : Options) :
    match (read texts).transform o with
    | .ok p => Conserved (.ofOptions o) (read texts) p.sheet ((read texts).namespacesLowered o) ∧
        p.sheet.attachedCount + p.stats.namespaces = (read texts).attachedCount ∧
        p.sheet.nodes.size = (read texts).nodes.size + (p.stats.utilities + p.stats.components +
          p.stats.modifiers + p.stats.descendents + p.stats.states)
    | .error stopped => Conserved (.ofOptions o) (read texts) stopped.progress.sheet
        ((read texts).namespacesLowered o) := by
  have hs := isSound_read texts
  have hrun := transform_ended hs o
  cases htransform : (read texts).transform o with
  | error stopped =>
    rw [htransform] at hrun
    obtain ⟨replaced, hex⟩ := hrun
    exact Exchange.conserved hs hex
  | ok p =>
    rw [htransform] at hrun
    obtain ⟨⟨replaced, hlow⟩, -⟩ := hrun
    have hex : Exchange (.ofOptions o) (read texts) p.sheet replaced
      ((read texts).namespacesLowered o) := hlow.exchange
    -- A run starts with counts of zero.
    have hrules : p.stats.rules = 0 + replaced.length := hlow.counts.rules_eq
    have hnamespaces : p.stats.namespaces = 0 + ((read texts).namespacesLowered o).length :=
      hlow.counts.namespaces_eq
    refine ⟨Exchange.conserved hs hex, ?_, ?_⟩
    · rw [hnamespaces, Nat.zero_add]
      exact hex.attachedCount_eq hs
    · rw [hex.size_eq]
      simp only [Stats.rules] at hrules
      omega

/-! ## A second run -/

/-- Where no at-rule of a kind is left, a search finds none. -/
theorem find_eq_nil {cx : Context} (hs : s.IsSound) {kind : RuleKind} (h : NoneLeft cx s kind) :
    cx.find s root kind = [] := by
  apply List.eq_nil_iff_forall_not_mem.2
  intro id hid
  have hkind := (Context.mem_find_iff.1 hid).2
  rw [h id (of_mem_find hs hid).2.2.2] at hkind
  cases hkind

/-- A run over a sheet in which it finds nothing does nothing. -/
theorem transform_eq_ok (hs : s.IsSound) (o : Options)
    (h : ∀ kind, o.Exhausts kind → NoneLeft (.ofOptions o) s kind) :
    s.transform o = .ok { sheet := s } := by
  have hnone : ∀ kind, o.Exhausts kind → (Context.ofOptions o).find s root kind = [] :=
    fun kind hkind => find_eq_nil hs (h kind hkind)
  -- None of the four passes finds anything to do.
  have hfirst : s.withoutUtilities o = .ok { sheet := s } := by
    unfold withoutUtilities
    split
    · rename_i hsuit
      have hstyle := Options.rewritesUtilities_iff.1 hsuit
      rw [lowerUtilities, hnone .utility (.inr (.inr ⟨hstyle, .inl rfl⟩))]
      rfl
    · rfl
  have hnamespaces : lowerNamespaces (.ofOptions o) { sheet := s } = .ok ({}, { sheet := s }) := by
    rw [lowerNamespaces, hnone .componentNamespace (.inr (.inl rfl))]
    rfl
  have hcomponents : lowerComponents (.ofOptions o) {} o.defaultNamespace { sheet := s } =
      .ok { sheet := s } := by
    rw [lowerComponents, hnone .component (.inl rfl)]
    rfl
  have hlast : (if o.convention.rewritesStates then lowerStates (.ofOptions o) { sheet := s }
      else .ok { sheet := s }) = .ok { sheet := s } := by
    split
    · rename_i hsuit
      have hstyle := Options.rewritesStates_iff.1 hsuit
      rw [lowerStates, hnone .when (.inr (.inr ⟨hstyle, .inr rfl⟩))]
      rfl
    · rfl
  rw [transform_eq, hfirst]
  change (lowerNamespaces (.ofOptions o) { sheet := s } >>= _) = _
  rw [hnamespaces]
  change (lowerComponents (.ofOptions o) {} o.defaultNamespace { sheet := s } >>= _) = _
  rw [hcomponents]
  exact hlast

/-- A run that succeeds leaves no component and no namespace in the text, and under SUIT no utility
and no state either. So a second run succeeds, changes nothing, warns of nothing and counts
nothing. -/
theorem transform_transform (texts : List (Input × String)) (o : Options) {p : Progress}
    (h : (read texts).transform o = .ok p) :
    (∀ kind, o.Exhausts kind → ∀ id, p.sheet.isAttached id = true →
        (Context.ofOptions o).isA p.sheet kind id = false) ∧
      p.sheet.transform o = .ok { sheet := p.sheet, warnings := [], stats := {} } := by
  obtain ⟨hs, hnone⟩ := noneLeft_of_transform (isSound_read texts) h
  exact ⟨fun kind hkind id hatt => hnone kind hkind id (hs.isAttached_iff.1 hatt),
    transform_eq_ok hs o hnone⟩

/-- For instance, where a keyword means a component and a namespace at once. -/
theorem transform_transform_alias :
    ∃ p, (read [(.ofFile "a.css", "@c A { @c B { @modifier x { y: z; } } }")]).transform
        { shortcuts := { component := some "c", componentNamespace := some "c" } } = .ok p ∧
      p.sheet.transform { shortcuts := { component := some "c", componentNamespace := some "c" } } =
        .ok { sheet := p.sheet, warnings := [], stats := {} } := by
  have hok : ((read [(.ofFile "a.css", "@c A { @c B { @modifier x { y: z; } } }")]).transform
      { shortcuts := { component := some "c", componentNamespace := some "c" } }).toBool =
        true := by
    decide +kernel
  cases h : (read [(.ofFile "a.css", "@c A { @c B { @modifier x { y: z; } } }")]).transform
      { shortcuts := { component := some "c", componentNamespace := some "c" } } with
  | error stopped =>
    rw [h] at hok
    cases hok
  | ok p => exact ⟨p, rfl, (transform_transform _ _ h).2⟩

end Sheet

end ClassRules
