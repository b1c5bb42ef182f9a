import ClassRules.Proofs.Lowering.Nesting

/-!
# The namespace of a component

A component is named in the namespace of the outermost block that it stands in. Outside all blocks
the last namespace for an input of the same name decides, and where there is none, the default.

## What this module delivers

- `outermostBlock?`, `lastFor?`, `resolvedNamespace`: this, read off the sheet before a run.
- `Resolving`: how it stands when some namespaces have been lowered. `Resolving.step_input` and
  `Resolving.step_block`: one more. `Resolving.foldlM`: all of them.
- `transform_resolves`: a run that succeeds makes one rule for each component, named so.
-/

set_option autoImplicit false

namespace ClassRules

namespace NamespaceMap

theorem get?_insert (m : NamespaceMap) (source ns name : String) :
    (m.insert source ns).get? name = if name = source then some ns else m.get? name := by
  split
  · rename_i heq
    rw [heq]
    exact KeyedList.get?_insert_self source ns m.entries
  · rename_i hne
    exact KeyedList.get?_insert_of_ne hne ns m.entries

end NamespaceMap

namespace Lowering

open Sheet

/-! ## Before the run -/

/-- The outermost block that a node stands in. -/
def outermostBlock? (cx : Context) (s : Sheet) (id : NodeId) : Option NodeId :=
  ((s.lineage id).tail.filter (cx.isBlock s)).getLast?

/-- The last of some namespaces that is one for a whole input, with the given name. -/
def lastFor? (s : Sheet) (name : Option String) (namespaces : List NodeId) : Option NodeId :=
  (namespaces.filter fun d => !(s.content d).hasBody && s.sourceName? d == name).getLast?

/-- The namespace in which a component is to be named. -/
def resolvedNamespace (cx : Context) (s : Sheet) (default : Option String) (id : NodeId) :
    Option String :=
  (((outermostBlock? cx s id).or
    (lastFor? s (s.sourceName? id) (cx.find s root .componentNamespace))).map s.params).or default

variable {cx : Context} {s : Sheet} {default : Option String} {c b : NodeId}

/-- A node stands in those that it hangs on, apart from itself. -/
theorem mem_tail_lineage_iff (hs : s.IsSound) (hc : s.Has c) :
    b ∈ (s.lineage c).tail ↔ b ≠ c ∧ s.HangsOn c b := by
  cases hp : s.parent c with
  | none =>
    have htail : ∀ fuel, (s.lineageTo fuel c).tail = [] := by
      intro fuel
      cases fuel with
      | zero => rfl
      | succ fuel => simp [lineageTo, hp]
    rw [HangsOn.iff_eq_of_parent_none hp, lineage, htail]
    exact iff_of_false List.not_mem_nil fun h => h.1 h.2.symm
  | some p =>
    rw [hs.lineage_of_parent hp, List.tail_cons, hs.mem_lineage_iff (hs.has_parent hp),
      HangsOn.iff_of_parent hp]
    constructor
    · intro hpb
      refine ⟨?_, .inr hpb⟩
      rintro rfl
      exact hs.not_hangsOn_child hp hpb
    · rintro ⟨hne, heq | hpb⟩
      · exact absurd heq.symm hne
      · exact hpb

/-- The outermost block is one that stands in all others. -/
theorem outermostBlock?_eq_some (hs : s.IsSound) (hc : s.Has c) (hb : cx.isBlock s b = true)
    (hne : b ≠ c) (hon : s.HangsOn c b)
    (hmax : ∀ d, cx.isBlock s d = true → s.HangsOn c d → s.HangsOn d b) :
    outermostBlock? cx s c = some b := by
  have hmem : b ∈ (s.lineage c).tail.filter (cx.isBlock s) :=
    List.mem_filter.2 ⟨(mem_tail_lineage_iff hs hc).2 ⟨hne, hon⟩, hb⟩
  have hpair : ((s.lineage c).tail.filter (cx.isBlock s)).Pairwise s.HangsOn :=
    ((hs.pairwise_lineage c).sublist (List.tail_sublist _)).sublist List.filter_sublist
  -- The last block of the list is above this one, which is above all others.
  obtain ⟨front, d, hsplit⟩ := (List.eq_nil_or_concat' _).resolve_left (List.ne_nil_of_mem hmem)
  rw [outermostBlock?, hsplit, List.getLast?_concat, Option.some.injEq]
  obtain ⟨hd, hblock⟩ := List.mem_filter.1 (hsplit ▸ List.mem_concat_self)
  have hdb := hmax d hblock ((mem_tail_lineage_iff hs hc).1 hd).2
  rw [hsplit] at hmem hpair
  rcases List.mem_append.1 hmem with hfront | hlast
  · exact hs.antisymm hdb ((List.pairwise_append.1 hpair).2.2 b hfront d List.mem_cons_self)
  · exact (List.mem_singleton.1 hlast).symm

theorem outermostBlock?_eq_none (hs : s.IsSound) (hc : s.Has c)
    (hnone : ∀ d, cx.isBlock s d = true → ¬ s.HangsOn c d) : outermostBlock? cx s c = none := by
  rw [outermostBlock?, List.getLast?_eq_none_iff, List.filter_eq_nil_iff]
  intro d hd hblock
  exact hnone d hblock ((mem_tail_lineage_iff hs hc).1 hd).2

/-- In a block a component is named in the namespace of the outermost one. -/
theorem resolvedNamespace_of_block (hs : s.IsSound) (hc : s.Has c) (hb : cx.isBlock s b = true)
    (hne : b ≠ c) (hon : s.HangsOn c b)
    (hmax : ∀ d, cx.isBlock s d = true → s.HangsOn c d → s.HangsOn d b) :
    resolvedNamespace cx s default c = some (s.params b) := by
  rw [resolvedNamespace, outermostBlock?_eq_some hs hc hb hne hon hmax]
  rfl

/-- Outside all blocks it is named in the last namespace for its input, or else in the default. -/
theorem resolvedNamespace_of_forall (hs : s.IsSound) (hc : s.Has c)
    (hnone : ∀ d, cx.isBlock s d = true → ¬ s.HangsOn c d) :
    resolvedNamespace cx s default c =
      ((lastFor? s (s.sourceName? c) (cx.find s root .componentNamespace)).map s.params).or
        default := by
  rw [resolvedNamespace, outermostBlock?_eq_none hs hc hnone, Option.none_or]

/-- One more namespace counts if it is for the whole input of this name. -/
theorem lastFor?_append (s : Sheet) (name : Option String) (done : List NodeId) (d : NodeId) :
    lastFor? s name (done ++ [d]) =
      if (s.content d).hasBody = false ∧ s.sourceName? d = name then some d
      else lastFor? s name done := by
  rw [lastFor?, lastFor?, List.filter_append, List.filter_singleton]
  by_cases hd : (s.content d).hasBody = false ∧ s.sourceName? d = name
  · rw [if_pos hd]
    simp [hd]
  · rw [if_neg hd]
    have hout : (!(s.content d).hasBody && s.sourceName? d == name) = false := by
      simpa using hd
    rw [hout]
    simp

/-- The root is no at-rule. -/
theorem Context.ne_root_of_isA (hs : s.IsSound) {kind : RuleKind} (h : cx.isA s kind b = true) :
    b ≠ root := by
  rintro rfl
  have hkind := Context.kind_of_isA h
  rw [Sheet.kind, hs.content_root] at hkind
  cases hkind

/-- In a sheet whose nodes all belong to the text a search finds all at-rules of a kind. -/
theorem mem_find_root (hs : s.IsSound) (hw : s.IsWhole) {kind : RuleKind}
    (h : cx.isA s kind b = true) : b ∈ cx.find s root kind :=
  Context.mem_find_iff.2 ⟨hs.mem_descendants_iff.2 ⟨Context.ne_root_of_isA hs h,
    hw.hangsOn_root hs.toIsForest (Context.has_of_isA h)⟩, h⟩

/-! ## Components one after the other -/

section Passes

variable (hs : s.IsSound) (htraced : s.IsTraced) (hk : cx.shortcuts.IsUnambiguous)

include hs htraced hk

/-- Components that are lowered one after the other are named right if each is lowered in its
namespace. -/
theorem Nests.foldlM_components {ns : NodeId → Option String} {dropped : List NodeId}
    (name : Progress → NodeId → Option String) {cs : List NodeId}
    (hcs : ∀ c ∈ cs, cx.isA s .component c = true) {p q : Progress}
    (h : Nests cx s ns dropped p.sheet)
    (hname : ∀ r c, c ∈ cs → p.sheet.HangsOn c root → Nests cx s ns dropped r.sheet →
      name r c = ns c)
    (hr : cs.foldlM (fun p c => if p.sheet.isAttached c then
      Lowering.lowerComponent cx p c (name p c) else .ok p) p = .ok q) :
    Nests cx s ns dropped q.sheet := by
  induction cs generalizing p with
  | nil =>
    cases hr
    exact h
  | cons c cs ih =>
    have hsettled := lowerComponent_settled h.sound
      ⟨.component, h.isA_iff.2 (hcs c List.mem_cons_self)⟩ (name p c)
    rw [List.foldlM_cons] at hr
    cases hstep : (if p.sheet.isAttached c then Lowering.lowerComponent cx p c (name p c)
        else .ok p) with
    | error stopped =>
      rw [hstep] at hr
      cases hr
    | ok r =>
      rw [hstep] at hr hsettled
      obtain ⟨replaced, hlow, -⟩ := hsettled
      have hex : Exchange cx p.sheet r.sheet replaced [] := hlow.exchange
      have hnext : Nests cx s ns dropped r.sheet := by
        split at hstep
        · rename_i hatt
          have hon := h.sound.isAttached_iff.1 hatt
          rw [hname p c List.mem_cons_self hon h] at hstep
          exact h.lowerComponent hs htraced hk (hcs c List.mem_cons_self) hon hstep
        · cases hstep
          exact h
      refine ih (fun d hd => hcs d (List.mem_cons_of_mem _ hd)) hnext ?_ hr
      -- What is still in the text was there before the step.
      intro t d hd hon ht
      have hisA := hnext.isA_iff.2 (hcs d (List.mem_cons_of_mem _ hd))
      exact hname t d (List.mem_cons_of_mem _ hd)
        (hex.hangsOn_of_atRule h.sound (Context.has_of_isA hisA) (Context.kind_of_isA hisA) hon) ht

end Passes

/-! ## Namespaces one after the other -/

/-- How it stands after the namespaces `done`: no component is left in their blocks, and those for
whole inputs are noted by the names of these. -/
structure Resolving (cx : Context) (s : Sheet) (default : Option String) (done : List NodeId)
    (state : NamespaceMap × Progress) : Prop where
  nests : Nests cx s (resolvedNamespace cx s default) done state.2.sheet
  emptied : ∀ b ∈ done, (s.content b).hasBody = true → ∀ c, cx.isA s .component c = true →
    state.2.sheet.HangsOn c root → ¬ s.HangsOn c b
  get?_eq : ∀ name, state.1.get? name = (lastFor? s (some name) done).map s.params

/-- What a search finds in a block of the text are components that were in it from the start. -/
theorem Resolving.of_mem_find_block {done : List NodeId} {state : NamespaceMap × Progress}
    (h : Resolving cx s default done state) (hisA : cx.isA s .componentNamespace b = true)
    (hon : state.2.sheet.HangsOn b root) (hc : c ∈ cx.find state.2.sheet b .component) :
    cx.isA s .component c = true ∧ s.HangsOn c b := by
  have hp : Nests cx s (resolvedNamespace cx s default) done state.2.sheet := h.nests
  have hcb := (of_mem_find hp.sound hc).2.2.2
  have hcomponent := hp.isA_iff.1 (Context.mem_find_iff.1 hc).2
  exact ⟨hcomponent, (hp.hangsOn_iff c b (Context.kind_of_isA hcomponent)
    (Context.kind_of_isA hisA) (hcb.trans hon) hon).1 hcb⟩

section Namespaces

variable (hs : s.IsSound) (hw : s.IsWhole) (htraced : s.IsTraced) (hk : cx.shortcuts.IsUnambiguous)
  {done todo : List NodeId} {state next : NamespaceMap × Progress}

include hs

/-- A block above the next namespace has been lowered before, as it comes before in the text. -/
theorem mem_done_of_hangsOn (hw : s.IsWhole)
    (hsplit : done ++ b :: todo = cx.find s root .componentNamespace) {d : NodeId}
    (hd : cx.isA s .componentNamespace d = true) (hne : d ≠ b) (hbd : s.HangsOn b d) :
    d ∈ done := by
  have hmem : d ∈ done ++ b :: todo := hsplit ▸ mem_find_root hs hw hd
  have hpair : (done ++ b :: todo).Pairwise fun x y => ¬ s.HangsOn x y := by
    rw [hsplit, find_eq_filter]
    exact (hs.pairwise_descendants root).sublist List.filter_sublist
  refine (List.mem_append.1 hmem).resolve_right fun hrest => ?_
  have htodo := (List.mem_cons.1 hrest).resolve_left hne
  exact (List.pairwise_cons.1 (List.pairwise_append.1 hpair).2.1).1 d htodo hbd

/-- A namespace for a whole input is noted and dropped. -/
theorem Resolving.step_input (h : Resolving cx s default done state)
    (hisA : cx.isA s .componentNamespace b = true) (hbody : (s.content b).hasBody = false)
    (hon : state.2.sheet.HangsOn b root) (hr : lowerNamespace cx state b = .ok next) :
    Resolving cx s default (done ++ [b]) next := by
  obtain ⟨map, p⟩ := state
  have hp : Nests cx s (resolvedNamespace cx s default) done p.sheet := h.nests
  have hsound : p.sheet.IsSound := hp.sound
  have hhas : s.Has b := Context.has_of_isA hisA
  have hcontent : p.sheet.content b = s.content b := hp.content_old hhas
  rw [lowerNamespace_of_not_hasBody cx map (hsound.isAttached_iff.2 hon) (hcontent ▸ hbody)] at hr
  cases hr
  obtain ⟨container, hparent, hlow⟩ :=
    remove_lowered hsound hon ⟨.componentNamespace, hp.isA_iff.2 hisA⟩ (hcontent ▸ hbody)
  have hdropped := hp.drop hs hparent hlow (inputs_detach _ _)
  refine ⟨hdropped, ?_, ?_⟩
  · intro d hd hdbody c hc hcon
    have hcp := (hlow.exchange hsound).hangsOn_of_atRule hsound
      (Context.has_of_isA (hdropped.isA_iff.2 hc)) (Context.kind_of_isA (hdropped.isA_iff.2 hc))
      hcon
    rcases List.mem_append.1 hd with hd | hd
    · exact h.emptied d hd hdbody c hc hcp
    · rw [List.mem_singleton.1 hd, hbody] at hdbody
      cases hdbody
  · intro name
    have hparams : p.sheet.params b = s.params b := by
      rw [params, params, hcontent]
    rw [lastFor?_append, hp.sourceName_eq hhas, hparams]
    cases hsource : s.sourceName? b with
    | none => simpa [hbody] using h.get?_eq name
    | some source =>
      -- Only what is known of inputs with this name is another now.
      have hget := h.get?_eq name
      by_cases hname : name = source
      · simp [hbody, hname, NamespaceMap.get?_insert]
      · have hname' : source ≠ name := fun e => hname e.symm
        simpa [hbody, hname, hname', NamespaceMap.get?_insert] using hget

include hw hk

/-- The components that are left in a block are in the namespace of this block, as none is left in a
block above it. -/
theorem Resolving.namespace_of_block (h : Resolving cx s default done state)
    (hsplit : done ++ b :: todo = cx.find s root .componentNamespace)
    (hb : cx.isBlock s b = true) (hc : cx.isA s .component c = true)
    (hon : state.2.sheet.HangsOn c root) (hcb : s.HangsOn c b) :
    resolvedNamespace cx s default c = some (s.params b) := by
  obtain ⟨hisA, hbody⟩ := (Bool.and_eq_true _ _).mp hb
  have hne : b ≠ c := by
    rintro rfl
    cases Context.kind_unique hk hisA hc
  refine resolvedNamespace_of_block hs (Context.has_of_isA hc) hb hne hcb fun d hd hcd => ?_
  obtain ⟨hdisA, hdbody⟩ := (Bool.and_eq_true _ _).mp hd
  rcases hcb.total hcd with hbd | hdb
  · by_cases heq : d = b
    · exact heq ▸ .refl s d
    · have hdone := mem_done_of_hangsOn hs hw hsplit hdisA heq hbd
      exact absurd hcd (h.emptied d hdone hdbody c hc hon)
  · exact hdb

include htraced

/-- Once the components in the next block are lowered, all that are lowered are named right, and
none is left in this block. -/
theorem Resolving.of_lowerBlock (h : Resolving cx s default done state)
    (hsplit : done ++ b :: todo = cx.find s root .componentNamespace)
    (hb : cx.isBlock s b = true) (hon : state.2.sheet.HangsOn b root) {q : Progress}
    (hq : lowerBlock cx (state.2.count fun c => { c with namespaces := c.namespaces + 1 }) b
      (s.params b) = .ok q) :
    Nests cx s (resolvedNamespace cx s default) done q.sheet ∧
      (∃ replaced, Exchange cx state.2.sheet q.sheet replaced []) ∧
      ∀ c, cx.isA s .component c = true → q.sheet.HangsOn c root → ¬ s.HangsOn c b := by
  obtain ⟨map, p⟩ := state
  have hisA := ((Bool.and_eq_true _ _).mp hb).1
  have hp : Nests cx s (resolvedNamespace cx s default) done p.sheet := h.nests
  have hsound : p.sheet.IsSound := hp.sound
  have hfound := fun c hc => h.of_mem_find_block (c := c) hisA hon hc
  have hnested : Nests cx s (resolvedNamespace cx s default) done q.sheet :=
    hp.foldlM_components hs htraced hk (p := p.count _) (fun _ _ => some (s.params b))
      (fun c hc => (hfound c hc).1)
      (fun _ c hc hcon _ => (h.namespace_of_block hs hw hk hsplit hb (hfound c hc).1 hcon
        (hfound c hc).2).symm) hq
  have hsettled : Settled cx id (p.count fun c => { c with namespaces := c.namespaces + 1 }) []
      (cx.find p.sheet b .component) (.ok q) :=
    hq ▸ settled_foldlM id (traces_nil _)
      (fun r _ hr _ hc => lowerComponent_settled (p := r) hr hc (some (s.params b))) _
      (p.count fun c => { c with namespaces := c.namespaces + 1 }) hsound
      fun c hc => ⟨(of_mem_find hsound hc).1, (of_mem_find hsound hc).2.1⟩
  obtain ⟨replaced, hlowers, hgone, -⟩ := hsettled
  have hex : Exchange cx p.sheet q.sheet replaced [] := hlowers.exchange
  refine ⟨hnested, ⟨replaced, hex⟩, ?_⟩
  -- What was left in the block was found there, so it has been lowered.
  intro c hc hcq hcd
  have hcp := hex.hangsOn_of_atRule hsound (Context.has_of_isA (hnested.isA_iff.2 hc))
    (Context.kind_of_isA (hnested.isA_iff.2 hc)) hcq
  have hcb := (hp.hangsOn_iff c b (Context.kind_of_isA hc) (Context.kind_of_isA hisA) hcp
    hon).2 hcd
  have hne : c ≠ b := by
    rintro rfl
    cases Context.kind_unique hk hisA hc
  exact hgone c (Context.mem_find_iff.2 ⟨hsound.mem_descendants_iff.2 ⟨hne, hcb⟩,
    hp.isA_iff.2 hc⟩) hcq

/-- A block has its components lowered in its namespace, and is dropped. -/
theorem Resolving.step_block (h : Resolving cx s default done state)
    (hsplit : done ++ b :: todo = cx.find s root .componentNamespace)
    (hb : cx.isBlock s b = true) (hon : state.2.sheet.HangsOn b root)
    (hr : lowerNamespace cx state b = .ok next) : Resolving cx s default (done ++ [b]) next := by
  obtain ⟨map, p⟩ := state
  obtain ⟨hisA, hbody⟩ := (Bool.and_eq_true _ _).mp hb
  have hp : Nests cx s (resolvedNamespace cx s default) done p.sheet := h.nests
  have hsound : p.sheet.IsSound := hp.sound
  have hcontent : p.sheet.content b = s.content b := hp.content_old (Context.has_of_isA hisA)
  have hatt : p.sheet.isAttached b = true := hsound.isAttached_iff.2 hon
  rw [lowerNamespace_of_hasBody cx map hatt (hcontent ▸ hbody)] at hr
  have hparams : p.sheet.params b = s.params b := by
    rw [params, params, hcontent]
  rw [hparams] at hr
  cases hq : lowerBlock cx (p.count fun c => { c with namespaces := c.namespaces + 1 }) b
      (s.params b) with
  | error stopped =>
    rw [hq] at hr
    cases hr
  | ok q =>
    rw [hq] at hr
    obtain ⟨hnested, ⟨replaced, hex⟩, hnone⟩ := h.of_lowerBlock hs hw htraced hk hsplit hb hon hq
    obtain ⟨-, honq, -⟩ := hangsOn_of_lowerBlock
      (p := p.count fun c => { c with namespaces := c.namespaces + 1 }) hsound hon hq
    obtain ⟨container, r, hparent, hrun, hlow, hleads⟩ :=
      exists_unwrapBlock hnested.sound honq ⟨.componentNamespace, hnested.isA_iff.2 hisA⟩
    have hnext : next = (map, r) :=
      (Except.ok.inj ((congrArg (fun x => x >>= fun q => pure (map, q)) hrun).symm.trans hr)).symm
    rw [hnext]
    have hdropped := hnested.drop hs hparent hlow hleads.inputs_eq
    refine ⟨hdropped, ?_, ?_⟩
    · intro d hd hdbody c hc hcon hcd
      have hcq := (hlow.exchange hnested.sound).hangsOn_of_atRule hnested.sound
        (Context.has_of_isA (hdropped.isA_iff.2 hc))
        (Context.kind_of_isA (hdropped.isA_iff.2 hc)) hcon
      rcases List.mem_append.1 hd with hd | hd
      · have hcp := hex.hangsOn_of_atRule hsound (Context.has_of_isA (hnested.isA_iff.2 hc))
          (Context.kind_of_isA (hnested.isA_iff.2 hc)) hcq
        exact h.emptied d hd hdbody c hc hcp hcd
      · exact hnone c hc hcq (List.mem_singleton.1 hd ▸ hcd)
    · intro name
      rw [lastFor?_append, if_neg fun hd => absurd hd.1 (by rw [hbody]; decide)]
      exact h.get?_eq name

/-- All namespaces one after the other. -/
theorem Resolving.foldlM (h : Resolving cx s default done state)
    (hsplit : done ++ todo = cx.find s root .componentNamespace)
    (hr : todo.foldlM (lowerNamespace cx) state = .ok next) :
    Resolving cx s default (done ++ todo) next := by
  induction todo generalizing done state with
  | nil =>
    cases hr
    rwa [List.append_nil]
  | cons b todo ih =>
    have hmem : b ∈ cx.find s root .componentNamespace := hsplit ▸ by simp
    have hisA := (Context.mem_find_iff.1 hmem).2
    have hnot : b ∉ done := fun hdone => by
      have hnodup : (done ++ b :: todo).Nodup := by
        rw [hsplit, find_eq_filter]
        exact (hs.nodup_descendants root).filter _
      exact (List.nodup_append.1 hnodup).2.2 b hdone b List.mem_cons_self rfl
    have hon := h.nests.stays b hisA hnot (hw.hangsOn_root hs.toIsForest (Context.has_of_isA hisA))
    rw [List.foldlM_cons] at hr
    cases hstep : lowerNamespace cx state b with
    | error stopped =>
      rw [hstep] at hr
      cases hr
    | ok mid =>
      rw [hstep] at hr
      have hmid : Resolving cx s default (done ++ [b]) mid := by
        cases hbody : (s.content b).hasBody with
        | true =>
          exact h.step_block hs hw htraced hk hsplit
            (by rw [Context.isBlock, hisA, hbody]; rfl) hon hstep
        | false => exact h.step_input hs hisA hbody hon hstep
      have hall := ih hmid (by simpa using hsplit) hr
      simpa using hall

end Namespaces

/-! ## The other passes -/

section Passes

variable (hs : s.IsSound) (hw : s.IsWhole) (htraced : s.IsTraced) (hk : cx.shortcuts.IsUnambiguous)
  {ns : NodeId → Option String} {dropped : List NodeId}

include hs htraced hk

/-- Utilities that are lowered one after the other leave the namespaces in their order. -/
theorem Nests.foldlM_utilities {as : List NodeId} (has : ∀ a ∈ as, cx.isA s .utility a = true)
    {p q : Progress} (h : Nests cx s ns dropped p.sheet)
    (hr : as.foldlM Lowering.lowerUtility p = .ok q) : Nests cx s ns dropped q.sheet ∧
      cx.find q.sheet root .componentNamespace = cx.find p.sheet root .componentNamespace := by
  induction as generalizing p with
  | nil =>
    cases hr
    exact ⟨h, rfl⟩
  | cons a as ih =>
    rw [List.foldlM_cons] at hr
    cases hstep : Lowering.lowerUtility p a with
    | error stopped =>
      rw [hstep] at hr
      cases hr
    | ok r =>
      rw [hstep] at hr
      obtain ⟨hnext, hfind⟩ := h.lowerUtility hs htraced hk (has a List.mem_cons_self) hstep
      obtain ⟨hlast, hfind'⟩ := ih (fun b hb => has b (List.mem_cons_of_mem _ hb)) hnext hr
      exact ⟨hlast, hfind'.trans hfind⟩

/-- States that are lowered one after the other leave the names of components alone. -/
theorem Named.foldlM_states {as : List NodeId} (has : ∀ a ∈ as, cx.isA s .when a = true)
    {state next : List (NodeId × NodeId) × Progress} (h : Named cx s ns dropped state.2.sheet)
    (hr : as.foldlM (Lowering.lowerState cx) state = .ok next) :
    Named cx s ns dropped next.2.sheet := by
  induction as generalizing state with
  | nil =>
    cases hr
    exact h
  | cons a as ih =>
    rw [List.foldlM_cons] at hr
    cases hstep : Lowering.lowerState cx state a with
    | error stopped =>
      rw [hstep] at hr
      cases hr
    | ok mid =>
      rw [hstep] at hr
      exact ih (fun b hb => has b (List.mem_cons_of_mem _ hb))
        (h.lowerState hs htraced hk (has a List.mem_cons_self) hstep) hr

include hw

omit hk in
/-- The components that are left after all namespaces are in none of the blocks. -/
theorem Resolving.namespaceOf_eq {map : NamespaceMap} {p : Progress}
    (h : Resolving cx s default (cx.find s root .componentNamespace) (map, p)) {t : Sheet}
    (ht : Nests cx s ns dropped t) (hc : cx.isA s .component c = true)
    (hon : p.sheet.HangsOn c root) :
    namespaceOf t map default c = resolvedNamespace cx s default c := by
  have hhas := Context.has_of_isA hc
  rw [resolvedNamespace_of_forall hs hhas]
  · obtain ⟨source, hsource, -⟩ := htraced.exists_source c hhas (Context.ne_root_of_isA hs hc)
    have hname : s.sourceName? c = some (s.inputName source.input) := by
      rw [sourceName?, hsource, Option.map_some]
    rw [namespaceOf, ht.sourceName_eq hhas, hname]
    exact congrArg (·.or default) (h.get?_eq _)
  · intro d hd hcd
    obtain ⟨hisA, hbody⟩ := (Bool.and_eq_true _ _).mp hd
    exact h.emptied d (mem_find_root hs hw hisA) hbody c hc hon hcd

end Passes

end Lowering

open Lowering

namespace Sheet

variable {s : Sheet} {o : Options}

/-! ## Whole runs -/

/-- A run that succeeds names the rules for all components as it should. -/
theorem named_transform (hs : s.IsSound) (hw : s.IsWhole) (htraced : s.IsTraced)
    (hk : o.shortcuts.IsUnambiguous) {p : Progress} (h : s.transform o = .ok p) :
    Named (.ofOptions o) s (resolvedNamespace (.ofOptions o) s o.defaultNamespace)
      ((Context.ofOptions o).find s root .componentNamespace) p.sheet := by
  obtain ⟨p₁, ⟨map, p₂⟩, p₃, hutilities, hnamespaces, hcomponents, hstates⟩ := exists_passes h
  have hstart := Nests.refl (.ofOptions o)
    (resolvedNamespace (.ofOptions o) s o.defaultNamespace) hs
  obtain ⟨h₁, hfind⟩ : Nests (.ofOptions o) s
      (resolvedNamespace (.ofOptions o) s o.defaultNamespace) [] p₁.sheet ∧
        (Context.ofOptions o).find p₁.sheet root .componentNamespace =
          (Context.ofOptions o).find s root .componentNamespace := by
    unfold withoutUtilities at hutilities
    split at hutilities
    · exact Nests.foldlM_utilities hs htraced hk (p := { sheet := s })
        (fun a ha => (Context.mem_find_iff.1 ha).2) hstart hutilities
    · cases hutilities
      exact ⟨hstart, rfl⟩
  have h₂ : Resolving (.ofOptions o) s o.defaultNamespace
      ((Context.ofOptions o).find s root .componentNamespace) (map, p₂) := by
    rw [lowerNamespaces, hfind] at hnamespaces
    refine Resolving.foldlM hs hw htraced hk ⟨h₁, ?_, ?_⟩ (List.nil_append _).symm hnamespaces
    · exact fun b hb => absurd hb List.not_mem_nil
    · exact fun name => rfl
  have h₃ : Nests (.ofOptions o) s (resolvedNamespace (.ofOptions o) s o.defaultNamespace)
      ((Context.ofOptions o).find s root .componentNamespace) p₃.sheet :=
    h₂.nests.foldlM_components hs htraced hk
      (fun p c => namespaceOf p.sheet map o.defaultNamespace c)
      (fun c hc => h₂.nests.isA_iff.1 (Context.mem_find_iff.1 hc).2)
      (fun r c hc hon hr => h₂.namespaceOf_eq hs hw htraced hr
        (h₂.nests.isA_iff.1 (Context.mem_find_iff.1 hc).2) hon) hcomponents
  split at hstates
  · obtain ⟨emitted, hstates⟩ := exists_of_lowerStates hstates
    exact Named.foldlM_states hs htraced hk
      (fun a ha => h₃.isA_iff.1 (Context.mem_find_iff.1 ha).2) h₃.toNamed hstates
  · cases hstates
    exact h₃.toNamed

/-- A run that succeeds puts one rule in the place of each component of a sheet that was read. The
rule comes from where the component came from, and its class is the name of the component in the
namespace of the outermost block around it, or else in the last one for an input of the same name,
or else in the default one. -/
theorem transform_resolves (texts : List (Input × String)) (o : Options)
    (hk : o.shortcuts.IsUnambiguous) {p : Progress} (h : (read texts).transform o = .ok p)
    {c : NodeId} (hc : (Context.ofOptions o).isA (read texts) .component c = true) :
    p.sheet.isAttached c = false ∧
      ∃ r, p.sheet.isAttached r = true ∧
        (∀ id, (p.sheet.Has id ∧ ¬ (read texts).Has id) ∧
          p.sheet.source id = (read texts).source c ↔ id = r) ∧
        p.sheet.content r = .rule ("." ++ o.convention.namespacePrefix
          (resolvedNamespace (.ofOptions o) (read texts) o.defaultNamespace c) ++
            (read texts).params c) := by
  have hs := isSound_read texts
  have hw := (read_sound texts).2
  have htraced := isTraced_read texts
  have hnamed := named_transform hs hw htraced hk h
  have hhas := Context.has_of_isA hc
  obtain ⟨replaced, hex⟩ := hnamed.exchange
  have hgone : p.sheet.isAttached c = false := by
    rw [Bool.eq_false_iff]
    intro hatt
    obtain ⟨hsp, hnone⟩ := noneLeft_of_transform hs h
    have hleft := hnone .component (.inl rfl) c (hsp.isAttached_iff.1 hatt)
    rw [hnamed.isA_iff.2 hc] at hleft
    cases hleft
  -- The component is no namespace, so it was not dropped but exchanged for a rule.
  have hmem : c ∈ replaced := (hex.mem_replaced_iff hs).2
    ⟨hs.isAttached_iff.2 (hw.hangsOn_root hs.toIsForest hhas), hgone, fun hdropped => by
      cases Context.kind_unique hk hc (Context.mem_find_iff.1 hdropped).2⟩
  obtain ⟨r, hiff⟩ := hex.exists_rule htraced hmem
  obtain ⟨⟨hnew, hnot⟩, hsource⟩ := (hiff r).2 rfl
  refine ⟨hgone, r, ((hex.conserved hs).created r hnew hnot).1, hiff, ?_⟩
  rw [hnamed.content_eq r c hnew hnot hc hsource, Context.componentName_eq, String.append_assoc]
  rfl

/-- For instance, in a block within a block. -/
theorem transform_resolves_blocks :
    let s := read [(.ofFile "a.css",
      "@component-namespace a { @component-namespace b { @component C {} } }")]
    ∃ p r, s.transform {} = .ok p ∧ p.sheet.isAttached ⟨3⟩ = false ∧
      p.sheet.isAttached r = true ∧ p.sheet.source r = s.source ⟨3⟩ ∧
      p.sheet.content r = .rule ".a-C" := by
  intro s
  have hok : (s.transform {}).toBool = true := by decide +kernel
  have hc : (Context.ofOptions {}).isA s .component ⟨3⟩ = true := by decide +kernel
  have hname : Content.rule ("." ++ (Options.convention {}).namespacePrefix
      (resolvedNamespace (.ofOptions {}) s none ⟨3⟩) ++ s.params ⟨3⟩) = .rule ".a-C" := by
    decide +kernel
  cases h : s.transform {} with
  | error stopped =>
    rw [h] at hok
    cases hok
  | ok p =>
    obtain ⟨hgone, r, hon, hiff, hcontent⟩ :=
      transform_resolves _ {} Shortcuts.isUnambiguous_empty h hc
    exact ⟨p, r, rfl, hgone, hon, ((hiff r).2 rfl).2, hcontent.trans hname⟩

end Sheet

end ClassRules
