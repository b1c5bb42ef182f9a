import ClassRules.Proofs.Lowering.Plan
import ClassRules.Proofs.Lowering.Runs
import ClassRules.Proofs.Sheet.DocumentOrder
import ClassRules.Proofs.Sheet.Origins

/-!
# At-rules stay where they stand among each other

While at-rules are lowered, those that are left stay within the same at-rules as before.

## What this module delivers

- `Shortcuts.IsUnambiguous`: no keyword means two kinds.
- `Lowered.hangsOn_old_iff`: a step that takes out at-rules, each of which stands directly in the
  container or in another of them, leaves what is above what.
- `Named`: after some steps, the rules made for components have the names that they should have.
- `Nests`: moreover the at-rules that are left stand within each other as at the beginning.
- `Named.lowerState`, `Nests.lowerUtility`, `Nests.lowerComponent`, `Nests.drop`: all steps keep
  this up.
-/

set_option autoImplicit false

namespace ClassRules

/-- No keyword means two kinds. -/
def Shortcuts.IsUnambiguous (shortcuts : Shortcuts) : Prop :=
  ∀ kind kind' keyword, shortcuts.names kind keyword = true →
    shortcuts.names kind' keyword = true → kind = kind'

/-- Without shortcuts each kind has its own keyword. -/
theorem Shortcuts.isUnambiguous_empty : Shortcuts.IsUnambiguous {} := by
  intro kind kind' keyword h h'
  rw [Shortcuts.names_empty] at h h'
  exact RuleKind.keyword_inj ((eq_of_beq h).symm.trans (eq_of_beq h'))

namespace Lowering

open Sheet

variable {cx : Context} {s t u : Sheet} {dropped : List NodeId}

theorem Context.kind_unique (hk : cx.shortcuts.IsUnambiguous) {kind kind' : RuleKind} {id : NodeId}
    (h : cx.isA s kind id = true) (h' : cx.isA s kind' id = true) : kind = kind' := by
  unfold isA at h h'
  cases hname : (s.content id).name? with
  | none =>
    rw [hname] at h
    cases h
  | some keyword =>
    rw [hname] at h h'
    exact hk kind kind' keyword h h'

/-- What goes along with a component is of no other kind. -/
theorem Context.eq_of_isNested (hk : cx.shortcuts.IsUnambiguous) {kind : RuleKind} {id : NodeId}
    (h : cx.isNested s id = true) (hkind : cx.isA s kind id = true) :
    kind = .modifier ∨ kind = .descendent := by
  rcases (Bool.or_eq_true _ _).mp h with h | h
  · exact .inl (kind_unique hk hkind h)
  · exact .inr (kind_unique hk hkind h)

/-- Only nodes of the sheet are at-rules. -/
theorem has_of_kind {id : NodeId} (h : s.kind id = .atRule) : s.Has id := by
  by_contra hout
  rw [Sheet.kind, content, node_of_not_has hout] at h
  cases h

theorem Context.has_of_isA {kind : RuleKind} {id : NodeId} (h : cx.isA s kind id = true) :
    s.Has id :=
  has_of_kind (kind_of_isA h)

/-! ## What is above what -/

namespace Lowered

variable {container : NodeId} {replaced dropped : List NodeId}

/-- Nodes only move up: what an old node hangs on afterwards it hung on before. -/
theorem hangsOn_of_hangsOn (hs : s.IsSound) (h : Lowered cx s t container replaced dropped)
    {x y : NodeId} (hxy : t.HangsOn x y) (hy : s.Has y) :
    (s.Has x → s.HangsOn x y) ∧ (¬ s.Has x → s.HangsOn container y) := by
  induction hxy using Relation.ReflTransGen.head_induction_on with
  | refl => exact ⟨fun _ => .refl s y, fun hnew => absurd hy hnew⟩
  | head hp _ ih =>
    have hcontainer : s.Has container := hs.has_of_hangsOn h.container_hangsOn
    rcases h.parent_cases hp with ⟨hnew, rfl⟩ | ⟨a, ha, hold, hpa, hcase⟩ | ⟨hold, -, hpa⟩
    · exact ⟨fun hold => absurd hold hnew, fun _ => ih.1 hcontainer⟩
    · -- It stood in an at-rule that was taken out, which hung on the container.
      have hup : s.HangsOn container y := by
        rcases hcase with rfl | hmem
        · exact ih.1 hcontainer
        · exact ih.2 fun hhas => not_mem_handles_of_has hhas (Nat.le_refl _) _ hmem
      exact ⟨fun _ => .head hpa ((h.below a ha).2.trans hup), fun hnew => absurd hold hnew⟩
    · exact ⟨fun _ => .head hpa (ih.1 (hs.has_parent hpa)), fun hnew => absurd hold hnew⟩

/-- Each at-rule that is taken out stands directly in the container or in another one of them. -/
def IsDirect (s : Sheet) (container : NodeId) (gone : List NodeId) : Prop :=
  ∀ a ∈ gone, ∀ q, s.parent a = some q → q = container ∨ q ∈ gone

/-- Then what stays and is above one of them is above the container. -/
theorem IsDirect.hangsOn_container {gone : List NodeId} (h : IsDirect s container gone)
    {a y : NodeId} (ha : a ∈ gone) (hon : s.HangsOn a y) (hy : y ∉ gone) :
    s.HangsOn container y := by
  induction hon using Relation.ReflTransGen.head_induction_on with
  | refl => exact absurd ha hy
  | head hp hon ih =>
    rcases h _ ha _ hp with rfl | hq
    · exact hon
    · exact ih hq

/-- What stays hangs on the same nodes as before, as far as these stay as well. The induction is on
the depth, since what stood in an at-rule that is taken out goes on from the container. -/
theorem hangsOn_old_iff (hs : s.IsSound) (h : Lowered cx s t container replaced dropped)
    (hdirect : IsDirect s container (replaced ++ dropped)) {x y : NodeId} (hx : s.Has x)
    (hy : s.Has y) (hxnot : x ∉ replaced ++ dropped) (hynot : y ∉ replaced ++ dropped) :
    t.HangsOn x y ↔ s.HangsOn x y := by
  refine ⟨fun hxy => (h.hangsOn_of_hangsOn hs hxy hy).1 hx, fun hxy => ?_⟩
  induction hd : s.depth x using Nat.strongRecOn generalizing x with
  | ind d ih =>
    rcases HangsOn.iff_parent.1 hxy with rfl | ⟨q, hq, hqy⟩
    · exact .refl t x
    have hdepth := hs.depth_of_parent hq
    by_cases hgone : q ∈ replaced ++ dropped
    · have hlt := (h.below q hgone).2.rank_lt hs.ranked_depth (h.below q hgone).1
      have hcontainer : t.HangsOn container y :=
        ih (s.depth container) (by omega) (hs.has_of_hangsOn h.container_hangsOn)
          h.container_not_gone (hdirect.hangsOn_container hgone hqy hynot) rfl
      rcases h.parent_inside q hgone x hxnot hq with hc | ⟨r, hr, hc⟩
      · exact .head hc hcontainer
      · exact .head hc (.head (h.parent_rule r hr) hcontainer)
    · have hsame : t.parent x = some q := by
        rw [h.parent_other x hx hxnot, hq]
        rintro a ha hpa
        exact hgone (Option.some.inj (hq.symm.trans hpa) ▸ ha)
      exact .head hsame (ih (s.depth q) (by omega) (hs.has_parent hq) hgone hqy rfl)

end Lowered

/-! ## The rules for components -/

/-- Where no two nodes come from the same place, an at-rule that was exchanged is known by the one
new rule that comes from its place. -/
theorem Exchange.exists_rule (htraced : s.IsTraced) {replaced : List NodeId}
    (h : Exchange cx s t replaced dropped) {a : NodeId} (ha : a ∈ replaced) :
    ∃ r, ∀ id, (t.Has id ∧ ¬ s.Has id) ∧ t.source id = s.source a ↔ id = r := by
  have hhas : ∀ {b}, b ∈ replaced → s.Has b := fun hb =>
    (h.was_custom _ (List.mem_append_left _ hb)).1
  obtain ⟨n, hn, rfl⟩ := List.mem_iff_getElem.1 ha
  refine ⟨⟨s.nodes.size + n⟩, fun id => ?_⟩
  constructor
  · rintro ⟨⟨hid, hnew⟩, hsource⟩
    obtain ⟨m, hm, rfl, hm'⟩ := h.exists_number hid hnew
    have hsame := htraced.source_inj _ _ (hhas (List.getElem_mem hm)) (hhas (List.getElem_mem hn))
      (hm'.symm.trans hsource)
    rw [(List.nodup_append.1 h.nodup).1.getElem_inj_iff.1 hsame]
  · rintro rfl
    have hid : t.Has ⟨s.nodes.size + n⟩ := by
      simp only [Has, h.size_eq]
      omega
    have hnew : ¬ s.Has ⟨s.nodes.size + n⟩ := by simp [Has]
    obtain ⟨m, hm, heq, hm'⟩ := h.exists_number hid hnew
    obtain rfl : n = m := by simpa using heq
    exact ⟨⟨hid, hnew⟩, hm'⟩

/-- From `s` to `t` at-rules were exchanged for rules, and those made for components have the names
of these in the namespaces `ns`. -/
structure Named (cx : Context) (s : Sheet) (ns : NodeId → Option String) (dropped : List NodeId)
    (t : Sheet) : Prop where
  exchange : ∃ replaced, Exchange cx s t replaced dropped
  content_eq : ∀ r c, t.Has r → ¬ s.Has r → cx.isA s .component c = true →
    t.source r = s.source c → t.content r = .rule ("." ++ cx.componentName (ns c) (s.params c))

variable {ns : NodeId → Option String}

namespace Named

variable (h : Named cx s ns dropped t)

include h

theorem sound : t.IsSound := by
  obtain ⟨replaced, hex⟩ := h.exchange
  exact hex.sound

theorem has_of_atRule {a : NodeId} (hid : t.Has a) (ha : t.kind a = .atRule) : s.Has a := by
  obtain ⟨replaced, hex⟩ := h.exchange
  exact hex.has_of_atRule hid ha

theorem content_old {a : NodeId} (ha : s.Has a) : t.content a = s.content a := by
  obtain ⟨replaced, hex⟩ := h.exchange
  exact hex.content_eq a ha

theorem source_old {a : NodeId} (ha : s.Has a) : t.source a = s.source a := by
  obtain ⟨replaced, hex⟩ := h.exchange
  exact hex.source_eq a ha

theorem isA_iff {a : NodeId} {kind : RuleKind} :
    cx.isA t kind a = true ↔ cx.isA s kind a = true := by
  constructor
  · intro ha
    have hold := h.has_of_atRule (Context.has_of_isA ha) (Context.kind_of_isA ha)
    rwa [Context.isA_congr (h.content_old hold)] at ha
  · intro ha
    rwa [Context.isA_congr (h.content_old (Context.has_of_isA ha))]

/-- An at-rule that comes from the same place as a component is that component. -/
theorem eq_of_source (htraced : s.IsTraced) {a c : NodeId} (hid : t.Has a) (ha : t.kind a = .atRule)
    (hc : cx.isA s .component c = true) (hsource : t.source a = s.source c) : a = c := by
  have hold := h.has_of_atRule hid ha
  rw [h.source_old hold] at hsource
  exact htraced.source_inj a c hold (Context.has_of_isA hc) hsource

/-- One more exchange, if the new rules have the right names. -/
theorem step (hs : s.IsSound) {replaced' dropped' : List NodeId}
    (hex : Exchange cx t u replaced' dropped')
    (hnew : ∀ r c, u.Has r → ¬ t.Has r → cx.isA s .component c = true →
      u.source r = s.source c → u.content r = .rule ("." ++ cx.componentName (ns c) (s.params c))) :
    Named cx s ns (dropped ++ dropped') u := by
  obtain ⟨replaced, hex₀⟩ := h.exchange
  refine ⟨⟨_, hex₀.trans hs hex⟩, ?_⟩
  intro r c hr hnot hc hsource
  by_cases hold : t.Has r
  · rw [hex.source_eq r hold] at hsource
    rw [hex.content_eq r hold]
    exact h.content_eq r c hold hnot hc hsource
  · exact hnew r c hr hold hc hsource

/-- A single new rule, made for an at-rule of another kind, is none for a component. -/
theorem step_other (hs : s.IsSound) (htraced : s.IsTraced) (hk : cx.shortcuts.IsUnambiguous)
    {replaced' dropped' : List NodeId} (hex : Exchange cx t u replaced' dropped') {a : NodeId}
    {kind : RuleKind} (ha : cx.isA t kind a = true) (hkind : kind ≠ .component)
    (hsize : u.nodes.size = t.nodes.size + 1) (hsource : u.source ⟨t.nodes.size⟩ = t.source a) :
    Named cx s ns (dropped ++ dropped') u := by
  refine h.step hs hex fun r c hr hnot hc hrc => ?_
  obtain rfl : r = ⟨t.nodes.size⟩ := by
    cases r
    simp only [Has, hsize, NodeId.mk.injEq] at hr hnot ⊢
    omega
  obtain rfl := h.eq_of_source htraced (Context.has_of_isA ha) (Context.kind_of_isA ha) hc
    (hsource.symm.trans hrc)
  exact absurd (Context.kind_unique hk (h.isA_iff.1 ha) hc) hkind

/-- Of the rules for a component and its region only the first one is for a component, and it is
named right. -/
theorem flattened (hs : s.IsSound) (htraced : s.IsTraced) (hk : cx.shortcuts.IsUnambiguous)
    {component container : NodeId} {region : List Piece}
    (hisA : cx.isA t .component component = true)
    (hregion : Region cx t (cx.componentName (ns component) (t.params component))
      (t.children component) region)
    (hflat : Flattened t u container component
      (⟨component, cx.componentName (ns component) (t.params component)⟩ :: region))
    {replaced' : List NodeId} (hex : Exchange cx t u replaced' []) :
    Named cx s ns (dropped ++ []) u := by
  refine h.step hs hex fun r c hr hnot hc hsource => ?_
  obtain ⟨x, hx, hstands⟩ := exists_of_forall₂ hflat.stands
    (mem_handles_of_new hflat.size_eq hr hnot)
  have hstands : StandsFor _ t u r x := hstands
  rw [hstands.source_eq] at hsource
  rcases List.mem_cons.1 hx with rfl | hx
  · obtain rfl := h.eq_of_source htraced (Context.has_of_isA hisA) (Context.kind_of_isA hisA) hc
      hsource
    rw [hstands.content_eq, params, h.content_old (Context.has_of_isA hc)]
    rfl
  · -- A rule for a piece of the region comes from the place of that piece.
    have hnested := hregion.isNested x hx
    have hkind := Context.kind_of_isNested hnested
    obtain rfl := h.eq_of_source htraced (has_of_kind hkind) hkind hc hsource
    rcases Context.eq_of_isNested hk hnested (h.isA_iff.2 hc) with heq | heq
    · cases heq
    · cases heq

end Named

/-- A sheet is named as long as nothing has happened. -/
theorem Named.refl (cx : Context) (ns : NodeId → Option String) (hs : s.IsSound) :
    Named cx s ns [] s :=
  ⟨⟨[], .refl cx hs⟩, fun _ _ hr hnot => absurd hr hnot⟩

/-- A step over a state leaves the names of components alone. -/
theorem Named.lowerState (hs : s.IsSound) (htraced : s.IsTraced) (hk : cx.shortcuts.IsUnambiguous)
    {state next : List (NodeId × NodeId) × Progress} {a : NodeId}
    (h : Named cx s ns dropped state.2.sheet) (ha : cx.isA s .when a = true)
    (hr : lowerState cx state a = .ok next) : Named cx s ns dropped next.2.sheet := by
  obtain ⟨emitted, p⟩ := state
  have hsound : p.sheet.IsSound := h.sound
  have hisA : cx.isA p.sheet .when a = true := h.isA_iff.2 ha
  have hc : cx.IsCustom p.sheet a := ⟨.when, hisA⟩
  rcases leads_of_lowerState hsound.toIsForest hr with rfl | ⟨container, anchor, selector, hleads⟩
  · exact h
  · have hsettled : Settled cx Prod.snd p [] [a] (.ok next) := hr ▸ lowerState_settled hsound hc
    obtain ⟨replaced, hlow, -⟩ := hsettled
    have hnext := h.step_other hs htraced hk hlow.exchange hisA (by decide) hleads.size_eq
      (hleads.source_new 0 _ rfl)
    rwa [List.append_nil] at hnext

/-! ## At-rules within each other -/

/-- Moreover the at-rules that are left stand within each other as at the beginning, and namespaces
are only dropped. -/
structure Nests (cx : Context) (s : Sheet) (ns : NodeId → Option String) (dropped : List NodeId)
    (t : Sheet) : Prop extends Named cx s ns dropped t where
  inputs_eq : t.inputs = s.inputs
  hangsOn_iff : ∀ x y, s.kind x = .atRule → s.kind y = .atRule → t.HangsOn x root →
    t.HangsOn y root → (t.HangsOn x y ↔ s.HangsOn x y)
  stays : ∀ a, cx.isA s .componentNamespace a = true → a ∉ dropped → s.HangsOn a root →
    t.HangsOn a root

theorem Nests.refl (cx : Context) (ns : NodeId → Option String) (hs : s.IsSound) :
    Nests cx s ns [] s :=
  ⟨.refl cx ns hs, rfl, fun _ _ _ _ _ _ => Iff.rfl, fun _ _ _ hon => hon⟩

namespace Nests

theorem sourceName_eq (h : Nests cx s ns dropped t) {a : NodeId} (ha : s.Has a) :
    t.sourceName? a = s.sourceName? a := by
  unfold sourceName? inputName
  rw [h.source_old ha, h.inputs_eq]

/-- One more exchange that leaves the at-rules within each other and the namespaces in the text. -/
theorem next (h : Nests cx s ns dropped t) {replaced' dropped' : List NodeId}
    (hex : Exchange cx t u replaced' dropped') (hnext : Named cx s ns (dropped ++ dropped') u)
    (hinputs : u.inputs = t.inputs)
    (hnested : ∀ x y, t.kind x = .atRule → t.kind y = .atRule → u.HangsOn x root →
      u.HangsOn y root → (u.HangsOn x y ↔ t.HangsOn x y))
    (hstays : ∀ a, cx.isA t .componentNamespace a = true → a ∉ dropped' → t.HangsOn a root →
      u.HangsOn a root) : Nests cx s ns (dropped ++ dropped') u where
  toNamed := hnext
  inputs_eq := hinputs.trans h.inputs_eq
  hangsOn_iff := by
    intro x y hx hy hxon hyon
    have hback : ∀ z, s.kind z = .atRule → u.HangsOn z root →
        t.kind z = .atRule ∧ t.HangsOn z root := by
      intro z hz hon
      have htk : t.kind z = .atRule := by
        rw [Sheet.kind, h.content_old (has_of_kind hz)]
        exact hz
      have huk : u.kind z = .atRule := by
        rw [Sheet.kind, hnext.content_old (has_of_kind hz)]
        exact hz
      exact ⟨htk, hex.hangsOn_of_atRule h.sound (has_of_kind huk) huk hon⟩
    obtain ⟨hxt, hxon'⟩ := hback x hx hxon
    obtain ⟨hyt, hyon'⟩ := hback y hy hyon
    rw [hnested x y hxt hyt hxon hyon, h.hangsOn_iff x y hx hy hxon' hyon']
  stays := by
    intro a ha hnot hon
    rw [List.mem_append, not_or] at hnot
    exact hstays a (h.isA_iff.2 ha) hnot.2 (h.stays a ha hnot.1 hon)

/-- A step that only takes out at-rules which stand directly in the container or in each other. -/
theorem lowered (h : Nests cx s ns dropped t) {container : NodeId}
    {replaced' dropped' : List NodeId} (hlow : Lowered cx t u container replaced' dropped')
    (hdirect : Lowered.IsDirect t container (replaced' ++ dropped'))
    (hnext : Named cx s ns (dropped ++ dropped') u) (hinputs : u.inputs = t.inputs)
    (hkind : ∀ a ∈ replaced', cx.isA t .componentNamespace a = false) :
    Nests cx s ns (dropped ++ dropped') u := by
  have ht := h.sound
  have hex := hlow.exchange ht
  refine h.next hex hnext hinputs ?_ ?_
  · intro x y hx hy hxon hyon
    exact hlow.hangsOn_old_iff ht hdirect (has_of_kind hx) (has_of_kind hy)
      (fun hmem => hex.not_hangsOn_root ht hmem hxon)
      fun hmem => hex.not_hangsOn_root ht hmem hyon
  · intro a ha hnot hon
    refine (hex.hangsOn_iff a (Context.has_of_isA ha) fun hmem => ?_).2 hon
    rcases List.mem_append.1 hmem with hmem | hmem
    · rw [hkind a hmem] at ha
      cases ha
    · exact hnot hmem

/-- Taking out a namespace from what it stands in. -/
theorem drop (hs : s.IsSound) (h : Nests cx s ns dropped t) {a container : NodeId}
    (hp : t.parent a = some container) (hlow : Lowered cx t u container [] [a])
    (hinputs : u.inputs = t.inputs) : Nests cx s ns (dropped ++ [a]) u := by
  refine h.lowered hlow ?_ (h.step hs (hlow.exchange h.sound) ?_) hinputs ?_
  · intro x hx q hq
    rw [List.nil_append, List.mem_singleton] at hx
    rw [hx, hp] at hq
    exact .inl (Option.some.inj hq).symm
  · -- No rule was made.
    intro r c hr hnot
    rw [Has, hlow.size_eq] at hr
    exact absurd hr hnot
  · exact fun x hx => absurd hx List.not_mem_nil

/-- Lowering a component that is in the text, in its namespace. -/
theorem lowerComponent (hs : s.IsSound) (htraced : s.IsTraced) (hk : cx.shortcuts.IsUnambiguous)
    {p q : Progress} {component : NodeId} (h : Nests cx s ns dropped p.sheet)
    (hc : cx.isA s .component component = true) (hon : p.sheet.HangsOn component root)
    (hr : lowerComponent cx p component (ns component) = .ok q) :
    Nests cx s ns dropped q.sheet := by
  have ht := h.sound
  have hisA : cx.isA p.sheet .component component = true := h.isA_iff.2 hc
  obtain ⟨container, hp, hcontainer⟩ :=
    Context.IsCustom.exists_container ⟨_, hisA⟩ ht hon
  obtain ⟨region, q', hregion, hq', hflat, htally⟩ :=
    exists_flattened cx ht.toIsForest hp (ns component)
  obtain rfl : q' = q := Except.ok.inj (hq'.symm.trans hr)
  have hlow := hflat.lowered ht hregion ⟨.component, hisA⟩ hp hon hcontainer
  have hnext := h.toNamed.flattened hs htraced hk hisA hregion hflat (hlow.exchange ht)
  have hall := h.lowered hlow ?_ hnext htally.inputs_eq ?_
  · rwa [List.append_nil] at hall
  · intro a ha d hd
    rw [List.append_nil] at ha ⊢
    obtain ⟨x, hx, rfl⟩ := List.mem_map.1 ha
    exact hregion.parent_of_mem_cons ht.toIsForest hp x hx d hd
  · intro a ha
    obtain ⟨x, hx, rfl⟩ := List.mem_map.1 ha
    rw [Bool.eq_false_iff]
    intro hns
    rcases List.mem_cons.1 hx with rfl | hx
    · cases Context.kind_unique hk hns hisA
    · rcases Context.eq_of_isNested hk (hregion.isNested x hx) hns with hkind | hkind
      · cases hkind
      · cases hkind

end Nests

/-! ## Utilities -/

/-- The new rule in the place of an at-rule, and all other nodes as they are. -/
def swapped (s : Sheet) (a x : NodeId) : NodeId :=
  if x = a then ⟨s.nodes.size⟩ else x

theorem swapped_of_ne {a x : NodeId} (h : x ≠ a) : swapped s a x = x :=
  if_neg h

theorem map_swapped {a : NodeId} {l : List NodeId} (h : a ∉ l) : l.map (swapped s a) = l :=
  (List.map_congr_left fun _ hx => swapped_of_ne (ne_of_mem_of_not_mem hx h)).trans (List.map_id' l)

theorem swapped_inj {a x y : NodeId} (hx : s.Has x) (hy : s.Has y)
    (h : swapped s a x = swapped s a y) : x = y := by
  unfold swapped at h
  split at h
  · rename_i hxa
    split at h
    · rename_i hya
      rw [hxa, hya]
    · exact absurd h.symm hy.ne_new
  · split at h
    · exact absurd h hx.ne_new
    · exact h

/-- A rule that takes the place of an at-rule takes its children as well, so all children
correspond. -/
theorem Edit.Leads.children_swapped (hs : s.IsSound) {a container : NodeId} {selector : String}
    (hp : s.parent a = some container) (h : (Edit.swap s a container selector).Leads s t)
    {x : NodeId} (hx : s.Has x) :
    t.children (swapped s a x) = (s.children x).map (swapped s a) := by
  by_cases hxa : x = a
  · subst hxa
    have hself : x ∉ s.children x := fun hmem => hs.parent_ne (hs.mem_children_iff.1 hmem) rfl
    rw [map_swapped hself, swapped, if_pos rfl]
    exact h.children_new 0 _ rfl
  rw [swapped_of_ne hxa]
  by_cases hxc : x = container
  · subst hxc
    refine h.children_container.trans ?_
    rw [putFor, ← List.flatMap_pure_eq_map]
    apply List.flatMap_congr
    intro c _
    change (if c = a then _ else _) = [swapped s a c]
    rw [swapped]
    split
    · rfl
    · rfl
  · have hout : a ∉ s.children x := fun hmem =>
      hxc (Option.some.inj ((hs.mem_children_iff.1 hmem).symm.trans hp))
    rw [map_swapped hout, h.children_other x hx hxc fun hmem => hxa (List.mem_singleton.1 hmem)]
    exact filter_singleton_eq_self hout

/-- Lowering a utility leaves all other at-rules where they are, in their order. -/
theorem Nests.lowerUtility (hs : s.IsSound) (htraced : s.IsTraced)
    (hk : cx.shortcuts.IsUnambiguous) {p q : Progress} {a : NodeId}
    (h : Nests cx s ns dropped p.sheet) (ha : cx.isA s .utility a = true)
    (hr : lowerUtility p a = .ok q) : Nests cx s ns dropped q.sheet ∧
      cx.find q.sheet root .componentNamespace = cx.find p.sheet root .componentNamespace := by
  have ht := h.sound
  have hisA : cx.isA p.sheet .utility a = true := h.isA_iff.2 ha
  by_cases hatt : p.sheet.isAttached a = true
  · have hon := ht.isAttached_iff.1 hatt
    have hcustom : cx.IsCustom p.sheet a := ⟨.utility, hisA⟩
    obtain ⟨container, selector, hp, hleads⟩ := leads_of_lowerUtility ht hon hcustom hr
    have hsettled : Settled cx id p [] [a] (Lowering.lowerUtility p a) :=
      lowerUtility_settled ht hcustom
    rw [hr] at hsettled
    obtain ⟨replaced, hlow, hgone, -⟩ := hsettled
    have hex : Exchange cx p.sheet q.sheet replaced [] := hlow.exchange
    have hchildren := fun x hx => hleads.children_swapped ht hp (x := x) hx
    have hnested : ∀ {x y}, p.sheet.Has x → p.sheet.Has y → x ≠ a → y ≠ a →
        (q.sheet.HangsOn x y ↔ p.sheet.HangsOn x y) := by
      intro x y hx hy hxa hya
      have hiff := ht.toIsForest.hangsOn_map_iff hleads.forest hchildren
        (fun _ _ => swapped_inj) hx hy
      rwa [swapped_of_ne hxa, swapped_of_ne hya] at hiff
    have hroot : root ≠ a := (ht.ne_root_of_parent hp).symm
    have hne : ∀ {b}, cx.isA p.sheet .componentNamespace b = true → b ≠ a := by
      rintro b hb rfl
      cases Context.kind_unique hk hb hisA
    refine ⟨?_, ?_⟩
    · have hnext := h.step_other hs htraced hk hex hisA (by decide) hleads.size_eq
        (hleads.source_new 0 _ rfl)
      have hall := h.next hex hnext hleads.inputs_eq ?_ ?_
      · rwa [List.append_nil] at hall
      · intro x y hx hy hxon hyon
        have hout : ∀ z, q.sheet.HangsOn z root → z ≠ a := fun z hz e =>
          hgone a (List.mem_singleton_self a) (e ▸ hz)
        exact hnested (has_of_kind hx) (has_of_kind hy) (hout x hxon) (hout y hyon)
      · intro b hb _ hbon
        exact (hnested (Context.has_of_isA hb) ht.has_root (hne hb) hroot).2 hbon
    · have hmap := ht.toIsForest.descendants_map hleads.forest hchildren ht.has_root
      rw [swapped_of_ne hroot] at hmap
      rw [find_eq_filter, find_eq_filter, hmap, List.filter_map]
      -- The new rule is no namespace, as little as the utility was one.
      have hsame : ∀ x ∈ p.sheet.descendants root,
          (cx.isA q.sheet .componentNamespace ∘ swapped p.sheet a) x =
            cx.isA p.sheet .componentNamespace x := by
        intro x hx
        by_cases hxa : x = a
        · have hcontent : q.sheet.content ⟨p.sheet.nodes.size⟩ = .rule selector :=
            hleads.content_new 0 _ rfl
          rw [Function.comp_apply, swapped, if_pos hxa, Context.isA, hcontent, hxa]
          exact (Bool.eq_false_iff.2 fun hns => hne hns rfl).symm
        · rw [Function.comp_apply, swapped_of_ne hxa]
          exact Context.isA_congr (hex.content_eq x (ht.of_mem_descendants hx).1)
      rw [List.filter_congr hsame]
      exact map_swapped fun hmem => hne (List.mem_filter.1 hmem).2 rfl
  · rw [Lowering.lowerUtility] at hr
    simp only [hatt] at hr
    cases hr
    exact ⟨h, rfl⟩

end Lowering

end ClassRules
