import ClassRules.Proofs.Lowering.Resolution

/-!
# Modifiers and descendents that are left over

A rule that is made for a component, or for a modifier or descendent in one, leaves these behind in
what it takes over. Blocks that are unwrapped later can still bring some into it: those that stood
in a block within a component that was lowered for the sake of a block around it.

## What this module delivers

- `Exchange.hangsOn_of_hangsOn`: whatever is lowered, nodes only move up.
- `Sheet.classRules`: the rules that a run makes for components, modifiers and descendents.
- `Context.IsSheltered`, `Context.IsWrapped`: a component in a block, and a block in such a
  component, around a node.
- `Edit.Leads.mem_children_cases`: how a node comes to stand in an old one.
- `LeavesWrapped`: what is left over in some rules was wrapped.
- `Sweeping`: how it stands with the rules made so far while namespaces are lowered, step by step.
- `transform_leaves`: what is left over in the rules of a run was wrapped so.
- `transform_leaves_modifier`: such a modifier is left over indeed.
-/

set_option autoImplicit false

namespace ClassRules

namespace Lowering

open Sheet

variable {cx : Context} {s t u : Sheet}

/-! ## Nodes only move up -/

/-- Whatever is lowered, old nodes hang only on those that they hung on before. If `x` did not hang
on `y`, numbers could grow from parent to child and yet be greater at `y` than at `x`. -/
theorem Exchange.hangsOn_of_hangsOn (hs : s.IsSound) {replaced dropped : List NodeId}
    (h : Exchange cx s t replaced dropped) {x y : NodeId} (hx : s.Has x) (hy : s.Has y)
    (hxy : t.HangsOn x y) : s.HangsOn x y := by
  classical
  by_contra hnot
  have hranked : s.Ranked fun z => s.depth z + if s.HangsOn z y then s.depth x + 1 else 0 := by
    intro c p hp
    have hdepth := hs.depth_of_parent hp
    by_cases hup : s.HangsOn p y
    · simp only [if_pos hup, if_pos (HangsOn.head hp hup)]
      omega
    · simp only [if_neg hup]
      omega
  obtain ⟨rank, heq, hrank⟩ := h.ranked _ hranked
  have hle := hxy.rank_le hrank
  rw [heq x hx, heq y hy, if_neg hnot, if_pos (.refl s y)] at hle
  omega

/-! ## Components in blocks -/

/-- A node stands in a component that stands in a block. -/
def Context.IsSheltered (cx : Context) (s : Sheet) (x : NodeId) : Prop :=
  ∃ component block, cx.isA s .component component = true ∧ cx.isBlock s block = true ∧
    (x ≠ component ∧ s.HangsOn x component) ∧ component ≠ block ∧ s.HangsOn component block

/-- A node stands in a block that stands in a component in another block. -/
def Context.IsWrapped (cx : Context) (s : Sheet) (x : NodeId) : Prop :=
  ∃ block, cx.isBlock s block = true ∧ (x ≠ block ∧ s.HangsOn x block) ∧ cx.IsSheltered s block

/-! ## Edits and old nodes -/

theorem Context.isNested_congr {id : NodeId} (h : t.content id = s.content id) :
    cx.isNested t id = cx.isNested s id := by
  rw [isNested, isNested, isA_congr h, isA_congr h]

namespace Edit.Leads

variable {e : Edit} {r m : NodeId}

/-- A new node is one of the rules that were to be made. -/
theorem exists_rule (h : e.Leads s t) (hr : t.Has r) (hnew : ¬ s.Has r) :
    ∃ rule ∈ e.rules, t.content r = .rule rule.selector ∧ t.children r = rule.children := by
  have hsize := h.size_eq
  simp only [Has] at hr hnew
  have hi : r.index - s.nodes.size < e.rules.length := by omega
  have hget := List.getElem?_eq_getElem hi
  have heq : (⟨s.nodes.size + (r.index - s.nodes.size)⟩ : NodeId) = r :=
    congrArg NodeId.mk (by omega)
  refine ⟨_, List.getElem_mem hi, ?_, ?_⟩
  · rw [← h.content_new _ _ hget, heq]
  · rw [← h.children_new _ _ hget, heq]

/-- A modifier or descendent is as old as the sheet. -/
theorem has_of_isNested (h : e.Leads s t) (hm : cx.isNested t m = true) : s.Has m := by
  have hkind := Context.kind_of_isNested hm
  by_contra hnew
  obtain ⟨rule, -, hcontent, -⟩ := h.exists_rule (has_of_kind hkind) hnew
  rw [Sheet.kind, hcontent] at hkind
  cases hkind

/-- What stands in an old node stood there before, or came into the container in the place of
another one. -/
theorem mem_children_cases (h : e.Leads s t) (hr : s.Has r) (hm : m ∈ t.children r) :
    m ∈ s.children r ∨ r = e.container ∧ e.old ∈ s.children r ∧ m ∈ e.news := by
  by_cases hgone : r ∈ e.gone
  · rw [h.children_gone r hgone] at hm
    exact absurd hm List.not_mem_nil
  by_cases hcontainer : r = e.container
  · rw [hcontainer, h.children_container, putFor, List.mem_flatMap] at hm
    obtain ⟨c, hc, hmc⟩ := hm
    rw [hcontainer]
    split at hmc
    · rename_i heq
      exact .inr ⟨rfl, heq ▸ hc, hmc⟩
    · exact .inl (List.mem_singleton.1 hmc ▸ hc)
  · rw [h.children_other r hr hcontainer hgone] at hm
    exact .inl (List.mem_of_mem_filter hm)

end Edit.Leads

/-- Lowering a component flattens it with its region. -/
theorem leads_of_lowerComponent {p q : Progress} (hs : p.sheet.IsSound) {c container : NodeId}
    (hp : p.sheet.parent c = some container) {ns : Option String}
    (hr : lowerComponent cx p c ns = .ok q) :
    ∃ name region, Region cx p.sheet name (p.sheet.children c) region ∧
      (Edit.flatten p.sheet c container (⟨c, name⟩ :: region)).Leads p.sheet q.sheet := by
  obtain ⟨region, hregion, t, ht, hleads⟩ := performs_lowerComponent cx hs hp ns
  obtain rfl := Except.ok.inj (hr.symm.trans ht)
  exact ⟨_, region, hregion, hleads⟩

/-- What stands in a new rule then stood in one of the pieces, and is no modifier or descendent. -/
theorem of_mem_children_new {c container r m : NodeId} {name : String} {region : List Piece}
    (hregion : Region cx s name (s.children c) region)
    (hleads : (Edit.flatten s c container (⟨c, name⟩ :: region)).Leads s t) (hr : t.Has r)
    (hnew : ¬ s.Has r) (hm : m ∈ t.children r) : cx.isNested s m = false ∧
      ∃ x ∈ (⟨c, name⟩ :: region : List Piece), m ∈ s.children x.atRule := by
  obtain ⟨rule, hrule, -, hchildren⟩ := hleads.exists_rule hr hnew
  obtain ⟨x, hx, rfl⟩ := List.mem_map.1 hrule
  rw [hchildren] at hm
  obtain ⟨hmx, hnot⟩ := List.mem_filter.1 hm
  refine ⟨?_, x, hx, hmx⟩
  rw [Bool.eq_false_iff]
  intro hnested
  -- A modifier or descendent that stood in a piece is a piece itself.
  obtain ⟨y, hy, rfl⟩ : ∃ y ∈ region, y.atRule = m := by
    rcases List.mem_cons.1 hx with rfl | hx
    · exact hregion.mem_of_mem hmx hnested
    · exact hregion.mem_of_mem_children hx hmx hnested
  exact of_decide_eq_true hnot (List.mem_map_of_mem (List.mem_cons_of_mem _ hy))

/-! ## What is left over in some rules -/

/-- The modifiers and descendents that stand directly in the rules `made` were wrapped in `u`. -/
def LeavesWrapped (cx : Context) (u : Sheet) (made : NodeId → Prop) (t : Sheet) : Prop :=
  ∀ r m, made r → m ∈ t.children r → cx.isNested t m = true → cx.IsWrapped u m

variable {made : NodeId → Prop}

/-- A step that brings no old nodes together, and leaves nothing in rules that it makes. -/
theorem LeavesWrapped.step (h : LeavesWrapped cx u made s) {e : Edit} (hleads : e.Leads s t)
    (hnews : ∀ c ∈ e.news, s.Has c → c = e.old)
    (hnew : ∀ r m, made r → ¬ s.Has r → m ∈ t.children r → cx.isNested s m = false) :
    LeavesWrapped cx u made t := by
  intro r m hr hm hnested
  have hhas := hleads.has_of_isNested hnested
  have hold := (Context.isNested_congr (hleads.content_eq m hhas)).symm.trans hnested
  by_cases hrold : s.Has r
  · refine h r m hr ?_ hold
    rcases hleads.mem_children_cases hrold hm with hmr | ⟨-, hmem, hmnews⟩
    · exact hmr
    · exact hnews m hmnews hhas ▸ hmem
  · rw [hnew r m hr hrold hm] at hold
    cases hold

/-- Lowering a component leaves nothing more over. -/
theorem LeavesWrapped.lowerComponent {p q : Progress} (hs : p.sheet.IsSound)
    (h : LeavesWrapped cx u made p.sheet) {c : NodeId} {ns : Option String}
    (hc : cx.isA p.sheet .component c = true) (hon : p.sheet.HangsOn c root)
    (hr : lowerComponent cx p c ns = .ok q) : LeavesWrapped cx u made q.sheet := by
  obtain ⟨container, hp, -⟩ := Context.IsCustom.exists_container ⟨_, hc⟩ hs hon
  obtain ⟨name, region, hregion, hleads⟩ := leads_of_lowerComponent hs hp hr
  refine h.step hleads ?_ ?_
  · intro d hd hold
    exact absurd hd (not_mem_handles_of_has hold (Nat.le_refl _) _)
  · intro r m _ hnew hm
    exact (of_mem_children_new hregion hleads (has_of_mem_children hm) hnew hm).1

/-- Lowering a state leaves nothing more over in the rules that were there before. -/
theorem LeavesWrapped.lowerState {state next : List (NodeId × NodeId) × Progress} {a : NodeId}
    (hs : state.2.sheet.IsSound) (h : LeavesWrapped cx u made state.2.sheet)
    (hmade : ∀ r, made r → state.2.sheet.Has r)
    (hr : lowerState cx state a = .ok next) : LeavesWrapped cx u made next.2.sheet := by
  obtain ⟨emitted, p⟩ := state
  rcases leads_of_lowerState hs.toIsForest hr with rfl | ⟨container, anchor, selector, hleads⟩
  · exact h
  · refine h.step hleads ?_ ?_
    · intro c hc hold
      rcases List.mem_cons.1 hc with hc | hc
      · exact hc
      · exact absurd (List.mem_singleton.1 hc) hold.ne_new
    · intro r m hr hnew
      exact absurd (hmade r hr) hnew

/-! ## Namespaces -/

/-- How it stands with the rules made since `u` while namespaces are lowered. What hangs on them was
sheltered, and modifiers and descendents in them were wrapped. -/
structure Sweeping (cx : Context) (u t : Sheet) : Prop where
  exchange : ∃ replaced dropped, Exchange cx u t replaced dropped
  sheltered : ∀ r x, ¬ u.Has r → u.Has x → t.HangsOn x r → cx.IsSheltered u x
  leaves : LeavesWrapped cx u (¬ u.Has ·) t

namespace Sweeping

theorem refl (cx : Context) (hu : u.IsSound) : Sweeping cx u u := by
  refine ⟨⟨[], [], .refl cx hu⟩, ?_, ?_⟩
  · intro r x hr hx hon
    exact absurd (hon.has hu.toIsLinked hx) hr
  · intro r m hr hm
    exact absurd (has_of_mem_children hm) hr

variable {p q : Progress}

/-- A component that stands in a block is lowered. What it holds is sheltered by it. -/
theorem lowerComponent (hu : u.IsSound) (h : Sweeping cx u p.sheet) {c block : NodeId}
    {ns : Option String} (hblock : cx.isBlock u block = true)
    (hc : cx.isA u .component c = true) (hbelow : c ≠ block ∧ u.HangsOn c block)
    (hon : p.sheet.HangsOn c root) (hr : lowerComponent cx p c ns = .ok q) :
    Sweeping cx u q.sheet := by
  obtain ⟨replaced, dropped, hex⟩ := h.exchange
  have hs := hex.sound
  have hhas := Context.has_of_isA hc
  have hisA : cx.isA p.sheet .component c = true := by
    rwa [Context.isA_congr (hex.content_eq c hhas)]
  obtain ⟨container, hp, hcontainer⟩ :=
    Context.IsCustom.exists_container ⟨_, hisA⟩ hs hon
  obtain ⟨name, region, hregion, hleads⟩ := leads_of_lowerComponent hs hp hr
  have hsettled := lowerComponent_settled hs ⟨.component, hisA⟩ ns
  rw [if_pos (hs.isAttached_iff.2 hon), hr] at hsettled
  obtain ⟨replaced', hlow, -⟩ := hsettled
  have hstep : Exchange cx p.sheet q.sheet replaced' [] := hlow.exchange
  refine ⟨⟨_, _, hex.trans hu hstep⟩, ?_, h.leaves.lowerComponent hs hisA hon hr⟩
  intro r x hrnew hx hxr
  have hxp := hex.has hx
  by_cases hrp : p.sheet.Has r
  · exact h.sheltered r x hrnew hx (hstep.hangsOn_of_hangsOn hs hxp hrp hxr)
  · -- What hangs on a new rule hangs on one of its children, which stood in a piece.
    obtain ⟨y, hy, hxy⟩ := ((HangsOn.iff_children hstep.sound.toIsLinked).1 hxr).resolve_left
      fun e => hrp (e ▸ hxp)
    obtain ⟨-, piece, hpiece, hypiece⟩ :=
      of_mem_children_new hregion hleads (has_of_mem_children hy) hrp hy
    have hpar := hs.mem_children_iff.1 hypiece
    have hxy' := hstep.hangsOn_of_hangsOn hs hxp (has_of_parent hpar) hxy
    have hpc : p.sheet.HangsOn piece.atRule c := by
      rcases List.mem_cons.1 hpiece with rfl | hpiece
      · exact .refl _ c
      · exact (hregion.hangsOn_and_ne hs.toIsForest piece hpiece).1
    refine ⟨c, block, hc, hblock, ⟨?_, ?_⟩, hbelow⟩
    · rintro rfl
      exact hs.not_hangsOn_child hpar (hpc.trans hxy')
    · exact hex.hangsOn_of_hangsOn hu hx hhas (hxy'.trans ((HangsOn.single hpar).trans hpc))

/-- A block is unwrapped. Where it stood in a rule it was sheltered, so what it leaves there was
wrapped. -/
theorem splice (hu : u.IsSound) (h : Sweeping cx u s) {b container : NodeId}
    (hb : s.children b ≠ [] → cx.isBlock u b = true) {replaced dropped : List NodeId}
    (hex : Exchange cx s t replaced dropped)
    (hleads : (Edit.splice s b container).Leads s t) : Sweeping cx u t := by
  obtain ⟨replaced₀, dropped₀, hex₀⟩ := h.exchange
  have hs := hex₀.sound
  have hold : ∀ {x}, t.Has x → s.Has x := fun {x} hx => by
    rw [Has, hleads.size_eq] at hx
    exact hx
  refine ⟨⟨_, _, hex₀.trans hu hex⟩, ?_, ?_⟩
  · intro r x hr hx hxr
    have hxs := hex₀.has hx
    exact h.sheltered r x hr hx (hex.hangsOn_of_hangsOn hs hxs
      (hold (hxr.has hex.sound.toIsLinked (hex.has hxs))) hxr)
  · intro r m hr hm hnested
    have hmold := hleads.has_of_isNested hnested
    have hnested' := (Context.isNested_congr (hleads.content_eq m hmold)).symm.trans hnested
    rcases hleads.mem_children_cases (hold (has_of_mem_children hm)) hm with hmr | ⟨-, hbr, hmb⟩
    · exact h.leaves r m hr hmr hnested'
    · -- It stood in the block, which stood in the rule.
      have hpar := hs.mem_children_iff.1 hmb
      have hblock := hb (List.ne_nil_of_mem hmb)
      have hbu : u.Has b := Context.has_of_isA ((Bool.and_eq_true _ _).mp hblock).1
      have hmu : u.Has m := hex₀.has_of_atRule hmold (Context.kind_of_isNested hnested')
      refine ⟨b, hblock, ⟨(hs.parent_ne hpar).symm, ?_⟩,
        h.sheltered r b hr hbu (.single (hs.mem_children_iff.1 hbr))⟩
      exact hex₀.hangsOn_of_hangsOn hu hmu hbu (.single hpar)

/-- The components in a block are lowered. -/
theorem lowerBlock (hu : u.IsSound) (h : Sweeping cx u p.sheet) {block : NodeId} {ns : String}
    (hblock : cx.isBlock u block = true) (hr : lowerBlock cx p block ns = .ok q) :
    Sweeping cx u q.sheet := by
  obtain ⟨replaced, dropped, hex⟩ := h.exchange
  refine foldlM_of_step (P := fun r : Progress => Sweeping cx u r.sheet) ?_ h hr
  intro r c next hc hsweep hstep
  obtain ⟨hhas, -, hne, hon⟩ := of_mem_find hex.sound hc
  have hisA := (Context.mem_find_iff.1 hc).2
  have hcu := hex.has_of_atRule hhas (Context.kind_of_isA hisA)
  have hbu := Context.has_of_isA ((Bool.and_eq_true _ _).mp hblock).1
  split at hstep
  · rename_i hatt
    obtain ⟨_, _, hex'⟩ := hsweep.exchange
    refine hsweep.lowerComponent hu hblock ?_ ⟨hne, hex.hangsOn_of_hangsOn hu hcu hbu hon⟩
      (hex'.sound.isAttached_iff.1 hatt) hstep
    rwa [Context.isA_congr (hex.content_eq c hcu)] at hisA
  · cases hstep
    exact hsweep

/-- One namespace, with a block or without. -/
theorem lowerNamespace (hu : u.IsSound) {state next : NamespaceMap × Progress}
    (h : Sweeping cx u state.2.sheet) {b : NodeId}
    (hb : cx.isA u .componentNamespace b = true) (hr : lowerNamespace cx state b = .ok next) :
    Sweeping cx u next.2.sheet := by
  obtain ⟨map, p⟩ := state
  obtain ⟨replaced, dropped, hex⟩ := h.exchange
  have hs : p.sheet.IsSound := hex.sound
  have hcontent : p.sheet.content b = u.content b := hex.content_eq b (Context.has_of_isA hb)
  have hcustom : cx.IsCustom p.sheet b :=
    ⟨.componentNamespace, (Context.isA_congr hcontent).trans hb⟩
  by_cases hatt : p.sheet.isAttached b = true
  · have hon := hs.isAttached_iff.1 hatt
    cases hbody : (u.content b).hasBody with
    | true =>
      have hblock : cx.isBlock u b = true := by rw [Context.isBlock, hb, hbody]; rfl
      rw [lowerNamespace_of_hasBody cx map hatt (hcontent ▸ hbody)] at hr
      obtain ⟨q, hq, hr⟩ := exists_of_bind_eq_ok hr
      obtain ⟨r, hunwrap, hr⟩ := exists_of_bind_eq_ok hr
      cases hr
      have hsweep : Sweeping cx u q.sheet :=
        lowerBlock (p := p.count fun c => { c with namespaces := c.namespaces + 1 }) hu h hblock hq
      obtain ⟨hsq, honq, hcontentq⟩ := hangsOn_of_lowerBlock
        (p := p.count fun c => { c with namespaces := c.namespaces + 1 }) hs hon hq
      obtain ⟨container, r', -, hr', hlow, hleads⟩ := exists_unwrapBlock hsq honq
        ((Context.isCustom_congr hcontentq).2 hcustom)
      obtain rfl := Except.ok.inj (hr'.symm.trans hunwrap)
      exact hsweep.splice hu (fun _ => hblock) (hlow.exchange hsq) hleads
    | false =>
      have hbody' : (p.sheet.content b).hasBody = false := hcontent ▸ hbody
      rw [lowerNamespace_of_not_hasBody cx map hatt hbody'] at hr
      cases hr
      obtain ⟨container, -, hlow, hleads⟩ := remove_splices hs hon hcustom hbody'
      have hnil := children_nil_of_not_hasBody hs hcustom hbody'
      exact h.splice hu (fun hne => absurd hnil hne) (hlow.exchange hs) hleads
  · rw [lowerNamespace_of_not_isAttached (by simpa using hatt)] at hr
    cases hr
    exact h

end Sweeping

/-- What was wrapped after some steps was so before them. -/
theorem Context.IsWrapped.of_exchange (hs : s.IsSound) {replaced dropped : List NodeId}
    (h : Exchange cx s t replaced dropped) {x : NodeId} (hx : s.Has x)
    (hwrapped : cx.IsWrapped t x) : cx.IsWrapped s x := by
  have hold : ∀ {kind a}, cx.isA t kind a = true → s.Has a := fun ha =>
    h.has_of_atRule (has_of_isA ha) (kind_of_isA ha)
  have hisA : ∀ {kind a}, cx.isA t kind a = true → cx.isA s kind a = true := fun ha => by
    rwa [isA_congr (h.content_eq _ (hold ha))] at ha
  have hblock : ∀ {a}, cx.isBlock t a = true → s.Has a ∧ cx.isBlock s a = true := fun {a} ha => by
    have hhas := hold ((Bool.and_eq_true _ _).mp ha).1
    rw [isBlock, isA_congr (h.content_eq a hhas), h.content_eq a hhas] at ha
    exact ⟨hhas, ha⟩
  obtain ⟨b, hb, ⟨hxb, hxon⟩, c, outer, hc, houter, ⟨hbc, hbon⟩, hco, hcon⟩ := hwrapped
  obtain ⟨hbs, hb⟩ := hblock hb
  obtain ⟨hos, houter⟩ := hblock houter
  exact ⟨b, hb, ⟨hxb, h.hangsOn_of_hangsOn hs hx hbs hxon⟩, c, outer, hisA hc, houter,
    ⟨hbc, h.hangsOn_of_hangsOn hs hbs (hold hc) hbon⟩, hco,
    h.hangsOn_of_hangsOn hs (hold hc) hos hcon⟩

/-- Components that are lowered one after the other leave nothing more over. -/
theorem LeavesWrapped.foldlM_components (name : Progress → NodeId → Option String)
    {cs : List NodeId} {p q : Progress} (hs : p.sheet.IsSound)
    (hcs : ∀ c ∈ cs, cx.isA p.sheet .component c = true) (h : LeavesWrapped cx u made p.sheet)
    (hr : cs.foldlM (fun p c => if p.sheet.isAttached c then
      Lowering.lowerComponent cx p c (name p c) else .ok p) p = .ok q) :
    LeavesWrapped cx u made q.sheet := by
  have hall : (∃ replaced dropped, Exchange cx p.sheet q.sheet replaced dropped) ∧
      LeavesWrapped cx u made q.sheet := by
    refine foldlM_of_step (P := fun r : Progress =>
      (∃ replaced dropped, Exchange cx p.sheet r.sheet replaced dropped) ∧
        LeavesWrapped cx u made r.sheet) ?_ ⟨⟨[], [], .refl cx hs⟩, h⟩ hr
    rintro r c next hc ⟨⟨replaced, dropped, hex⟩, hleaves⟩ hstep
    have hisA : cx.isA r.sheet .component c = true := by
      rw [Context.isA_congr (hex.content_eq c (Context.has_of_isA (hcs c hc)))]
      exact hcs c hc
    have hsettled := lowerComponent_settled hex.sound ⟨.component, hisA⟩ (name r c)
    rw [hstep] at hsettled
    obtain ⟨replaced', hlow, -⟩ := hsettled
    refine ⟨⟨_, _, hex.trans hs hlow.exchange⟩, ?_⟩
    split at hstep
    · rename_i hatt
      exact hleaves.lowerComponent hex.sound hisA (hex.sound.isAttached_iff.1 hatt) hstep
    · cases hstep
      exact hleaves
  exact hall.2

/-- States that are lowered one after the other leave nothing more over in rules that were there. -/
theorem LeavesWrapped.foldlM_states {as : List NodeId}
    {state next : List (NodeId × NodeId) × Progress} (hs : state.2.sheet.IsSound)
    (has : ∀ a ∈ as, cx.isA state.2.sheet .when a = true)
    (hmade : ∀ r, made r → state.2.sheet.Has r) (h : LeavesWrapped cx u made state.2.sheet)
    (hr : as.foldlM (Lowering.lowerState cx) state = .ok next) :
    LeavesWrapped cx u made next.2.sheet := by
  have hall : (∃ replaced dropped, Exchange cx state.2.sheet next.2.sheet replaced dropped) ∧
      LeavesWrapped cx u made next.2.sheet := by
    refine foldlM_of_step (P := fun r : List (NodeId × NodeId) × Progress =>
      (∃ replaced dropped, Exchange cx state.2.sheet r.2.sheet replaced dropped) ∧
        LeavesWrapped cx u made r.2.sheet) ?_ ⟨⟨[], [], .refl cx hs⟩, h⟩ hr
    rintro r a next' ha ⟨⟨replaced, dropped, hex⟩, hleaves⟩ hstep
    have hisA : cx.isA r.2.sheet .when a = true := by
      rw [Context.isA_congr (hex.content_eq a (Context.has_of_isA (has a ha)))]
      exact has a ha
    have hsettled : Settled cx Prod.snd r.2 [] [a] (Lowering.lowerState cx r a) :=
      lowerState_settled hex.sound ⟨.when, hisA⟩
    rw [hstep] at hsettled
    obtain ⟨replaced', hlow, -⟩ := hsettled
    exact ⟨⟨_, _, hex.trans hs hlow.exchange⟩,
      hleaves.lowerState hex.sound (fun x hx => hex.has (hmade x hx)) hstep⟩
  exact hall.2

end Lowering

open Lowering

namespace Sheet

variable {s : Sheet} {o : Options}

/-! ## Whole runs -/

/-- The rules that a run makes for components and for the modifiers and descendents in them: those
that come to the sheet while namespaces and components are lowered. -/
def classRules (s : Sheet) (o : Options) : List NodeId :=
  match s.withoutUtilities o with
  | .error _ => []
  | .ok p =>
    match lowerNamespaces (.ofOptions o) p >>= fun state =>
      lowerComponents (.ofOptions o) state.1 o.defaultNamespace state.2 with
    | .error _ => []
    | .ok q => handles p.sheet.nodes.size (q.sheet.nodes.size - p.sheet.nodes.size)

theorem mem_classRules_iff {p₁ p₃ : Progress} {state : NamespaceMap × Progress} {r : NodeId}
    (h₁ : s.withoutUtilities o = .ok p₁) (h₂ : lowerNamespaces (.ofOptions o) p₁ = .ok state)
    (h₃ : lowerComponents (.ofOptions o) state.1 o.defaultNamespace state.2 = .ok p₃) :
    r ∈ s.classRules o ↔ ¬ p₁.sheet.Has r ∧ p₃.sheet.Has r := by
  have hrun : (lowerNamespaces (.ofOptions o) p₁ >>= fun state =>
      lowerComponents (.ofOptions o) state.1 o.defaultNamespace state.2) = .ok p₃ := by
    rw [h₂]
    exact h₃
  simp only [classRules, h₁, hrun, mem_handles, Has]
  omega

/-- Lowering the namespaces leaves only what was wrapped when that began. -/
theorem sweeping_lowerNamespaces {cx : Context} {p : Progress} {state : NamespaceMap × Progress}
    (hs : p.sheet.IsSound) (h : lowerNamespaces cx p = .ok state) :
    Sweeping cx p.sheet state.2.sheet := by
  refine foldlM_of_step (P := fun r : NamespaceMap × Progress => Sweeping cx p.sheet r.2.sheet) ?_
    (.refl cx hs) h
  intro r b next hb hsweep hstep
  exact hsweep.lowerNamespace hs (Context.mem_find_iff.1 hb).2 hstep

/-- A run that succeeds leaves a modifier or descendent directly in a rule that it made for a
component, a modifier or a descendent only if that stood, in the sheet that was read, in a block of
a namespace within a component in another such block. -/
theorem transform_leaves (texts : List (Input × String)) (o : Options) {p : Progress}
    (h : (read texts).transform o = .ok p) {r : NodeId} (hr : r ∈ (read texts).classRules o)
    {m : NodeId} (hm : m ∈ p.sheet.children r)
    (hnested : (Context.ofOptions o).isNested p.sheet m = true) :
    (Context.ofOptions o).IsWrapped (read texts) m := by
  have hs := isSound_read texts
  obtain ⟨p₁, ⟨map, p₂⟩, p₃, hutilities, hnamespaces, hcomponents, hstates⟩ := exists_passes h
  obtain ⟨replaced, hex⟩ := exists_exchange_withoutUtilities hs hutilities
  have hsweep := sweeping_lowerNamespaces hex.sound hnamespaces
  obtain ⟨_, _, hex₂⟩ := hsweep.exchange
  have hs₂ := hex₂.sound
  have hended : Ended (.ofOptions o) id p₂ [] (· = .component)
      (lowerComponents (.ofOptions o) map o.defaultNamespace p₂) :=
    lowerComponents_ended hs₂ map o.defaultNamespace
  rw [hcomponents] at hended
  obtain ⟨⟨_, hlow⟩, -⟩ := hended
  have hleaves : LeavesWrapped (.ofOptions o) p₁.sheet (· ∈ (read texts).classRules o)
      p₃.sheet := by
    have hall := hsweep.leaves.foldlM_components
      (fun p c => namespaceOf p.sheet map o.defaultNamespace c) hs₂
      (fun c hc => (Context.mem_find_iff.1 hc).2) hcomponents
    intro r m hr
    exact hall r m ((mem_classRules_iff hutilities hnamespaces hcomponents).1 hr).1
  have hlast : LeavesWrapped (.ofOptions o) p₁.sheet (· ∈ (read texts).classRules o) p.sheet := by
    split at hstates
    · obtain ⟨emitted, hstates⟩ := exists_of_lowerStates hstates
      exact LeavesWrapped.foldlM_states hlow.exchange.sound
        (fun a ha => (Context.mem_find_iff.1 ha).2)
        (fun r hr => ((mem_classRules_iff hutilities hnamespaces hcomponents).1 hr).2)
        hleaves hstates
    · cases hstates
      exact hleaves
  -- A modifier or descendent is an at-rule, and these were all there at the beginning.
  obtain ⟨_, hrun⟩ := exists_exchange_of_transform hs h
  have hkind := Context.kind_of_isNested hnested
  have hmold : (read texts).Has m := hrun.has_of_atRule (has_of_kind hkind) hkind
  exact (hlast r m hr hm hnested).of_exchange hs hex hmold

/-- For instance, where a block within a component is itself in a block. -/
theorem transform_leaves_blocks :
    let s := read [(.ofFile "a.css",
      "@component-namespace a { @component C { @component-namespace b { @modifier m {} } } }")]
    ∃ p r m, s.transform {} = .ok p ∧ r ∈ s.classRules {} ∧ m ∈ p.sheet.children r ∧
      (Context.ofOptions {}).IsWrapped s m := by
  intro s
  have hok : (s.transform {}).toOption.any (fun p => ⟨4⟩ ∈ p.sheet.children ⟨5⟩ ∧
      (Context.ofOptions {}).isNested p.sheet ⟨4⟩ = true) = true := by
    decide +kernel
  have hr : (⟨5⟩ : NodeId) ∈ s.classRules {} := by decide +kernel
  cases h : s.transform {} with
  | error stopped =>
    rw [h] at hok
    cases hok
  | ok p =>
    rw [h] at hok
    obtain ⟨hm, hnested⟩ := of_decide_eq_true hok
    exact ⟨p, ⟨5⟩, ⟨4⟩, rfl, hr, hm, transform_leaves _ {} h hr hm hnested⟩

/-- Such a modifier is left over indeed. Without the outer block the inner one would be unwrapped
first, and nothing would be left. -/
theorem transform_leaves_modifier :
    let s := read [(.ofFile "a.css",
      "@component-namespace a { @component C { @component-namespace b { @modifier m {} } } }")]
    ∃ p, s.transform {} = .ok p ∧ ∃ r ∈ s.classRules {}, ∃ m ∈ p.sheet.children r,
      (Context.ofOptions {}).isNested p.sheet m = true := by
  intro s
  have hok : (s.transform {}).toOption.any (fun p => ∃ r ∈ s.classRules {},
      ∃ m ∈ p.sheet.children r, (Context.ofOptions {}).isNested p.sheet m = true) = true := by
    decide +kernel
  cases h : s.transform {} with
  | error stopped =>
    rw [h] at hok
    cases hok
  | ok p =>
    rw [h] at hok
    exact ⟨p, rfl, of_decide_eq_true hok⟩

end Sheet

end ClassRules
