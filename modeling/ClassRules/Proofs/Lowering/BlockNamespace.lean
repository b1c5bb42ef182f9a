import ClassRules.Proofs.Lowering.ParallelRun

/-!
# A namespace for an input and one for a block

## What this module delivers

- `Abreast`: a run on a copy of a sheet that has counted more before.
- `isCopy_lifted`: what is left of a copy when the node beside or above it is taken out.
- `transform_declaration_eq_block`: a declaration of a namespace before some nodes, and a block with
  that namespace around them, end alike.
-/

set_option autoImplicit false

namespace ClassRules

open ClassRules.Tree

namespace Lowering

open Sheet

variable {R : Content → Content → Prop} {Q : Prop} {N : String → Prop} {C C' : Copy}
  {cx : Context} {k : Stats} {p q : Progress} {s t : Sheet} {o : Options}

/-- The second run is on a copy, has warned of the same, and has counted `k` more. -/
structure Abreast (N : String → Prop) (C : Copy) (k : Stats) (p q : Progress) : Prop where
  tied : Tied Eq N C ⟨{}, [], p⟩ ⟨{}, [], q⟩
  warnings_eq : q.warnings = p.warnings
  stats_eq : q.stats = p.stats + k

namespace Abreast

variable (h : Abreast N C k p q)

include h

theorem sound : p.sheet.IsSound := h.tied.sound

theorem sound_copy : q.sheet.IsSound := h.tied.sound_copy

theorem copy : IsCopy Eq C p.sheet q.sheet := h.tied.copy

end Abreast

/-- Runs side by side stay abreast. -/
theorem Parallel.endsAlike {σ τ : Type} {v : σ → Standing} {w : τ → Standing} {a b : Standing}
    {r : Except Stopped σ} {r' : Except Stopped τ} (h : Parallel Eq Q N v w C a b r r')
    (hw : b.progress.warnings = a.progress.warnings)
    (hk : b.progress.stats = a.progress.stats + k) :
    EndsAlike (fun x y => ∃ C', Abreast N C' k (v x).progress (w y).progress ∧
      Follows Q N C C' a b (v x) (w y)) r r' := by
  cases h with
  | error he => exact .error he
  | @ok C' x y ht hf =>
    obtain ⟨ws, st, -, hws, hws', hst, hst'⟩ := hf.gains
    refine .ok ⟨C', ⟨ht.restart, ?_, ?_⟩, hf⟩
    · rw [hws, hws', hw]
    · rw [hst, hst', hk, Stats.add_assoc, Stats.add_assoc, Stats.add_comm k]

/-! ## Passes -/

theorem Abreast.forest_eq (h : Abreast N C k p q) (hC : C.IsWhole) (hid : C.input = id) :
    q.sheet.forest = p.sheet.forest := by
  rw [h.copy.forest_eq h.sound h.sound_copy hC.node_root, hC.before_eq, hC.behind_eq, hid,
    relabelForest_id]
  exact List.append_nil _

theorem withoutUtilities_endsAlike (h : Abreast N C k { sheet := s } { sheet := t })
    (hfind : o.convention.rewritesUtilities = true → (Context.ofOptions o).find t root .utility =
      ((Context.ofOptions o).find s root .utility).map C.node) :
    EndsAlike (fun p q => ∃ C', Abreast N C' k p q ∧ Follows False N C C'
        ⟨{}, [], { sheet := s }⟩ ⟨{}, [], { sheet := t }⟩ ⟨{}, [], p⟩ ⟨{}, [], q⟩)
      (s.withoutUtilities o) (t.withoutUtilities o) := by
  unfold withoutUtilities
  split
  · rename_i hsuit
    have hpass := utilities_parallel (.refl (.ofOptions o)) h.tied
    rw [← hfind hsuit] at hpass
    exact hpass.endsAlike h.warnings_eq h.stats_eq
  · exact .ok ⟨C, h, .refl ..⟩

/-- How the results go together in the end: the same trees, the same warnings, and the counts apart
by `k`. -/
def SameText (k : Stats) (p q : Progress) : Prop :=
  q.sheet.forest = p.sheet.forest ∧ q.warnings = p.warnings ∧ q.stats = p.stats + k

theorem states_endsAlike (h : Abreast N C k p q) (hC : C.IsWhole) (hid : C.input = id) :
    EndsAlike (SameText k)
      (if o.convention.rewritesStates then lowerStates (.ofOptions o) p else .ok p)
      (if o.convention.rewritesStates then lowerStates (.ofOptions o) q else .ok q) := by
  split
  · have hpass := states_parallel (Q := False) (.refl (.ofOptions o)) h.tied
    rw [← find_of_isWhole (.refl _) h.copy hC h.sound h.sound_copy] at hpass
    refine EndsAlike.bind (hpass.endsAlike h.warnings_eq h.stats_eq) ?_
    rintro x y - - ⟨C', h', hf⟩
    have hcont := hf.continues h.sound
    exact .ok ⟨h'.forest_eq (hcont.isWhole hC) (hcont.input_eq.trans hid), h'.warnings_eq,
      h'.stats_eq⟩
  · exact .ok ⟨h.forest_eq hC hid, h.warnings_eq, h.stats_eq⟩

/-! ## Taking out what stands beside or above a copy -/

/-- What is left of a copy is all of the text when the node beside it, or the one that it stood in,
is taken out of the root. -/
theorem isCopy_lifted (h : IsCopy R C s t) (hs : s.IsSound) (ht : t.IsSound) {a : NodeId}
    {t' : Sheet} {back : List NodeId} (hout : ∀ x, s.Has x → x ≠ root → C.node x ≠ a)
    (hleads : (Edit.splice t a root).Leads t t') (hex : Exchange cx t t' [] [a])
    (hroot : t.children root = a :: back)
    (hrest : t.children a ++ back = (s.children root).map C.node) :
    IsCopy R C.lifted s t' := by
  have hp : t.parent a = some root := ht.mem_children_iff.1 (hroot ▸ List.mem_cons_self)
  have hne : ∀ x, s.Has x → x ≠ root → C.node x ≠ root := fun x hx hxr e =>
    hxr (h.root_only x hx e)
  have hnode : C.lifted.node root = root := C.isWhole_lifted.node_root
  refine h.transfer hs (fun x hx => C.lifted_of_ne hx) rfl ?_ ?_ ?_ ?_ ?_ ?_ ?_ ?_ ?_
    fun _ hmem => absurd hmem List.not_mem_nil
  · intro i
    rw [inputName, inputName, hleads.inputs_eq]
  · rw [hnode]
    exact .refl t' root
  · intro x hx
    by_cases hxr : x = root
    · rw [hxr, hnode]
      exact hex.sound.has_root
    · rw [C.lifted_of_ne hxr]
      exact hex.has (h.has x hx)
  · intro x hx hxr
    rw [hnode]
    exact hne x hx hxr
  · exact fun x hx _ => hleads.content_eq _ (h.has x hx)
  · exact fun x hx _ => hleads.source_eq _ (h.has x hx)
  · intro x hx hxr
    have hgone : C.node x ∉ [a] := fun hmem => hout x hx hxr (List.mem_singleton.1 hmem)
    rw [hleads.children_other _ (h.has x hx) (hne x hx hxr) hgone, List.filter_eq_self]
    intro c hc
    -- The node that is taken out hangs on the root.
    have hca : c ≠ a := fun e => hne x hx hxr
      (Option.some.inj ((ht.mem_children_iff.1 hc).symm.trans (e ▸ hp)))
    simpa [Edit.splice] using hca
  · exact fun x hx hxr hpx => hex.parent_none _ (h.has x hx) (h.orphan x hx hxr hpx)
  · have hcontainer := hleads.children_container
    rw [hnode]
    refine hcontainer.trans ?_
    change putFor a (t.children a) (t.children root) = _
    rw [putFor_eq (hroot.trans (List.nil_append _).symm) (ht.nodup_children root), List.nil_append,
      hrest]
    simp [Copy.lifted]

/-- Runs stay abreast when the node beside or above the copy is taken out. -/
theorem Abreast.lifted (h : Abreast N C k p q) {a : NodeId} {r : Progress} {back : List NodeId}
    (hout : ∀ x, p.sheet.Has x → x ≠ root → C.node x ≠ a)
    (hleads : (Edit.splice q.sheet a root).Leads q.sheet r.sheet)
    (hex : Exchange cx q.sheet r.sheet [] [a]) (hroot : q.sheet.children root = a :: back)
    (hrest : q.sheet.children a ++ back = (p.sheet.children root).map C.node) {k' : Stats}
    (hw : r.warnings = q.warnings) (hk : r.stats = p.stats + k') :
    Abreast N C.lifted k' p r := by
  have hscope : r.sheet.kind (C.lifted.node root) ≠ .rule := by
    rw [C.isWhole_lifted.node_root, Sheet.kind, hex.sound.content_root]
    decide
  exact ⟨.start h.sound hex.sound
    (isCopy_lifted h.copy h.sound h.sound_copy hout hleads hex hroot hrest) hscope h.tied.named,
    hw.trans h.warnings_eq, hk⟩

/-- A block that holds the copy, and is all that stands on the root, is replaced by the copy. -/
theorem Abreast.exists_unwrapBlock (h : Abreast N C k p q) (hbefore : C.before = [])
    (hbehind : C.behind = []) (hroot : q.sheet.children root = [C.node root])
    (hc : cx.IsCustom q.sheet (C.node root)) :
    ∃ r, unwrapBlock q (C.node root) = .ok r ∧ Abreast N C.lifted k p r := by
  have hp : q.sheet.parent (C.node root) = some root :=
    h.sound_copy.mem_children_iff.1 (hroot ▸ List.mem_cons_self)
  obtain ⟨t, hrun, hleads⟩ := performs_unwrapBlock h.sound_copy hp
  obtain ⟨r, hrun', hex, -⟩ := unwrapBlock_lowers h.sound_copy (.single hp) hc
  obtain rfl := Except.ok.inj (hrun'.symm.trans hrun)
  refine ⟨_, hrun, h.lifted ?_ hleads hex hroot ?_ (List.append_nil _) ?_⟩
  · intro x hx hxr e
    exact hxr (h.copy.inj x root hx h.sound.has_root e)
  · rw [h.copy.children_root h.sound, hbefore, hbehind]
    simp
  · rw [← h.stats_eq]
    exact Stats.add_zero _

/-! ## The two forms -/

/-- Lowers the components of a sheet in one namespace, and then its states. -/
def lowerIn (o : Options) (ns : String) (p : Progress) : Except Stopped Progress :=
  ((Context.ofOptions o).find p.sheet root .component).foldlM (fun p c =>
    if p.sheet.isAttached c then lowerComponent (.ofOptions o) p c (some ns) else .ok p) p >>=
      fun q => if o.convention.rewritesStates then lowerStates (.ofOptions o) q else .ok q

/-- What a run does behind the utilities. -/
def lowerBehind (o : Options) (p : Progress) : Except Stopped Progress :=
  lowerNamespaces (.ofOptions o) p >>= fun state =>
    lowerComponents (.ofOptions o) state.1 o.defaultNamespace state.2 >>= fun q =>
      if o.convention.rewritesStates then lowerStates (.ofOptions o) q else .ok q

/-- Components and their copies, all of them lowered in the same namespace. -/
theorem components_endsAlike (h : Abreast N C k p q) (ns : String)
    (ns' : Sheet → NodeId → Option String)
    (hns : ∀ C p q c, Tied Eq N C ⟨{}, [], p⟩ ⟨{}, [], q⟩ → p.sheet.Has c → c ≠ root →
      ns' q.sheet (C.node c) = some ns) {found : List NodeId}
    (hfound : found = (cx.find p.sheet root .component).map C.node) :
    EndsAlike (fun p' q' => ∃ C', Abreast N C' k p' q' ∧
        Follows False N C C' ⟨{}, [], p⟩ ⟨{}, [], q⟩ ⟨{}, [], p'⟩ ⟨{}, [], q'⟩)
      ((cx.find p.sheet root .component).foldlM (fun p c =>
        if p.sheet.isAttached c then lowerComponent cx p c (some ns) else .ok p) p)
      (found.foldlM (fun q c =>
        if q.sheet.isAttached c then lowerComponent cx q c (ns' q.sheet c) else .ok q) q) := by
  subst hfound
  exact (foldlM_components_parallel (.refl cx) (fun _ _ => some ns) ns' hns _ h.tied
    (h.tied.of_mem_find cx .component)).endsAlike h.warnings_eq h.stats_eq

theorem lowerNamespaces_of_find {a : NodeId}
    (h : cx.find p.sheet root .componentNamespace = [a]) :
    lowerNamespaces cx p = lowerNamespace cx ({}, p) a := by
  rw [lowerNamespaces, h, List.foldlM_cons]
  exact bind_pure _

variable {kw ns name : String} {a : NodeId}

/-- With a declaration before them, the components are lowered in its namespace if they come from
its input. -/
theorem declaration_endsAlike (h : Abreast (· = name) C {} p q) (hnode : C.node root = root)
    (hbefore : C.before = [a]) (hbehind : C.behind = []) (hid : C.input = id)
    (hcontent : q.sheet.content a = .atRule kw ns false)
    (hname : q.sheet.sourceName? a = some name)
    (hkw : o.shortcuts.names .componentNamespace kw = true)
    (hnone : NoneLeft (.ofOptions o) p.sheet .componentNamespace) :
    EndsAlike (SameText { namespaces := 1 }) (lowerIn o ns p) (lowerBehind o q) := by
  have hs := h.sound
  have ht := h.sound_copy
  have hroot : q.sheet.children root = a :: (p.sheet.children root).map C.node := by
    rw [← hnode, h.copy.children_root hs, hbefore, hbehind, List.append_nil, hnode]
    rfl
  have hp : q.sheet.parent a = some root := ht.mem_children_iff.1 (hroot ▸ List.mem_cons_self)
  have hon : q.sheet.HangsOn a root := .single hp
  have hisA : (Context.ofOptions o).isA q.sheet .componentNamespace a = true := by
    rw [Context.isA, hcontent]
    exact hkw
  have hbody : (q.sheet.content a).hasBody = false := by rw [hcontent]; rfl
  have hnil := children_nil_of_not_hasBody ht ⟨_, hisA⟩ hbody
  have hfind : (Context.ofOptions o).find q.sheet root .componentNamespace = [a] := by
    rw [find_of_beside (.refl _) h.copy hs ht hnode hbefore hbehind hnil, find_eq_nil hs hnone]
    simp [hisA]
  have hparams : q.sheet.params a = ns := by
    rw [params, hcontent]
    rfl
  rw [lowerBehind, lowerNamespaces_of_find hfind,
    lowerNamespace_of_not_hasBody _ _ (ht.isAttached_iff.2 hon) hbody, hname, hparams]
  -- From here on the declaration is gone, and the rest is a copy of the other sheet.
  have h₁ : Abreast (· = name) C.lifted { namespaces := 1 } p
      ((q.count fun c => { c with namespaces := c.namespaces + 1 }).remove a) := by
    refine h.lifted (r := (q.count fun c => { c with namespaces := c.namespaces + 1 }).remove a)
      (fun x hx _ => h.copy.outside a (by simp [hbefore]) x hx) (leads_remove ht hp hnil)
      (remove_lowers ht hon ⟨_, hisA⟩ hbody) hroot (by rw [hnil, List.nil_append]) rfl ?_
    change q.stats + { namespaces := 1 } = _
    rw [h.stats_eq, Stats.add_zero]
  refine EndsAlike.bind (components_endsAlike h₁ ns
    (fun s c => namespaceOf s (({} : NamespaceMap).insert name ns) o.defaultNamespace c) ?_
    (find_of_isWhole (.refl _) h₁.copy C.isWhole_lifted hs h₁.sound_copy .component)) ?_
  · intro C p q c ht hc hne
    have hcopy : IsCopy Eq C p.sheet q.sheet := ht.copy
    obtain ⟨n, hn, rfl⟩ := ht.named c hc hne
    have hn : p.sheet.sourceName? c = some n := hn
    have hget : (({} : NamespaceMap).insert n ns).get? n = some ns :=
      KeyedList.get?_insert_self _ _ _
    rw [namespaceOf, sourceName?_copy hcopy hc hne, hn, Option.bind_some, hget]
    rfl
  · rintro x y - - ⟨C', h', hf⟩
    have hcont := hf.continues hs
    exact states_endsAlike h' (hcont.isWhole C.isWhole_lifted) (hcont.input_eq.trans hid)

/-- In a block, the components are lowered in its namespace, wherever they come from. -/
theorem block_endsAlike (h : Abreast N C {} p q) (hne : C.node root ≠ root)
    (hbefore : C.before = []) (hbehind : C.behind = []) (hid : C.input = id)
    (hcontent : q.sheet.content (C.node root) = .atRule kw ns true)
    (hroot : q.sheet.children root = [C.node root])
    (hkw : o.shortcuts.names .componentNamespace kw = true)
    (hnone : NoneLeft (.ofOptions o) p.sheet .componentNamespace) :
    EndsAlike (SameText { namespaces := 1 }) (lowerIn o ns p) (lowerBehind o q) := by
  have hs := h.sound
  have ht := h.sound_copy
  have hp : q.sheet.parent (C.node root) = some root :=
    ht.mem_children_iff.1 (hroot ▸ List.mem_cons_self)
  have hon : q.sheet.HangsOn (C.node root) root := .single hp
  have hisA : (Context.ofOptions o).isA q.sheet .componentNamespace (C.node root) = true := by
    rw [Context.isA, hcontent]
    exact hkw
  have hbody : (q.sheet.content (C.node root)).hasBody = true := by rw [hcontent]; rfl
  have hfind : (Context.ofOptions o).find q.sheet root .componentNamespace = [C.node root] := by
    rw [find_of_around (.refl _) h.copy hs ht hbefore hbehind hroot, find_eq_nil hs hnone]
    simp [hisA]
  have hparams : q.sheet.params (C.node root) = ns := by
    rw [params, hcontent]
    rfl
  rw [lowerBehind, lowerNamespaces_of_find hfind,
    lowerNamespace_of_hasBody _ _ (ht.isAttached_iff.2 hon) hbody, hparams, lowerBlock, bind_assoc]
  have h₀ : Abreast N C { namespaces := 1 } p
      (q.count fun c => { c with namespaces := c.namespaces + 1 }) := by
    refine ⟨.start hs ht h.copy h.tied.scope h.tied.named, h.warnings_eq, ?_⟩
    change q.stats + { namespaces := 1 } = _
    rw [h.stats_eq, Stats.add_zero]
  refine EndsAlike.bind (components_endsAlike h₀ ns (fun _ _ => some ns)
    (fun _ _ _ _ _ _ _ => rfl)
    (find_of_within (.refl _) h.copy hs ht hbefore hbehind .component)) ?_
  rintro p' q' hr hr' ⟨C', h', hf⟩
  have hcont := hf.continues hs
  -- The block is still there, and still alone.
  obtain ⟨-, hon', hcontent'⟩ := hangsOn_of_lowerBlock
    (p := q.count fun c => { c with namespaces := c.namespaces + 1 }) ht hon hr'
  have hroot' : q'.sheet.children root = [C'.node root] := by
    have hout : ∀ y, p.sheet.Has y → C.node y ≠ root := fun y hy e =>
      hne (h.copy.root_only y hy e ▸ e)
    have hnode : q'.sheet.node root = q.sheet.node root := (hf.elsewhere root ht.has_root hout).1
    rw [Sheet.children, hnode, hcont.node_root]
    exact hroot
  obtain ⟨r, hunwrap, h₂⟩ := h'.exists_unwrapBlock
    (hcont.before_eq.trans hbefore) (hcont.behind_eq.trans hbehind) hroot' (by
      rw [hcont.node_root]
      exact (Context.isCustom_congr hcontent').2 ⟨_, hisA⟩)
  -- No component is left for the namespaces of inputs.
  have hended : Ended (.ofOptions o) id p [] (· = .component) (.ok p') :=
    hr ▸ Settled.ended hs (settled_foldlM id (traces_nil _)
      (fun _ _ hq _ hc => lowerComponent_settled hq hc _) _ p hs (of_mem_find_root hs .component))
  have hleft := find_eq_nil h'.sound (hended.2 _ rfl)
  rw [hcont.node_root] at hunwrap
  rw [hunwrap]
  change EndsAlike _ _ (lowerComponents (.ofOptions o) {} o.defaultNamespace r >>= _)
  rw [lowerComponents,
    find_of_isWhole (.refl _) h₂.copy C'.isWhole_lifted h₂.sound h₂.sound_copy, hleft]
  exact states_endsAlike h₂ C'.isWhole_lifted (hcont.input_eq.trans hid)

end Lowering

open Lowering

namespace Sheet

variable {s t : Sheet} {o : Options} {kw ns : String} {source : Source} {trees : List Tree}

/-- A run over some trees, and one over a sheet in which they stand under a node, start abreast. -/
theorem exists_abreast (ht : t.IsSound) (hcarries : EverywhereIn Carries trees) {x : NodeId}
    (hx : t.HangsOn x root) (hkind : t.kind x ≠ .rule) (before mid behind : List NodeId)
    (hchildren : t.children x = before ++ mid ++ behind) (hmid : mid.map t.tree = trees)
    (hsource : ∀ n ∈ walkForest 0 trees, ∃ y, n.2.2 = some y ∧ y.input = source.input) :
    ∃ C : Copy, C.node root = x ∧ C.input = id ∧ C.before = before ∧ C.behind = behind ∧
      Abreast (· = t.inputName source.input) C {} { sheet := ofForest t.inputs trees }
        { sheet := t } := by
  have hname : ∀ n ∈ walkForest 0 trees, ∃ y, n.2.2 = some y ∧
      t.inputName y.input = t.inputName source.input := by
    intro n hn
    obtain ⟨y, hy, hinput⟩ := hsource n hn
    exact ⟨y, hy, congrArg t.inputName hinput⟩
  obtain ⟨C, hnode, hid, hbefore, hbehind, htied⟩ :=
    exists_tied (N := (· = t.inputName source.input)) ht hcarries hx hkind before mid behind
      hchildren hmid hname
  exact ⟨C, hnode, hid, hbefore, hbehind, htied, rfl, (Stats.add_zero _).symm⟩

/-- No at-rule of a kind is in the text of trees that have none. -/
theorem noneLeft_ofForest (cx : Context) (inputs : Array Input) (kind : RuleKind)
    (hcarries : EverywhereIn Carries trees)
    (h : ∀ n ∈ walkForest 0 trees, n.2.1.name?.any (cx.shortcuts.names kind) = false) :
    NoneLeft cx (ofForest inputs trees) kind := by
  have hs := isSound_ofForest inputs hcarries
  intro id hon
  by_cases hroot : id = root
  · rw [hroot, Context.isA, hs.content_root]
    rfl
  · obtain ⟨d, hd⟩ := hs.toIsForest.exists_mem_walkForest hon hroot
    rw [forest_ofForest] at hd
    exact h _ hd

/-! ## Whole runs -/

/-- A run over some trees that lowers all components in one namespace. -/
def transformIn (s : Sheet) (o : Options) (ns : String) : Except Stopped Progress :=
  s.withoutUtilities o >>= lowerIn o ns

section EndsAlike

variable (hkw : o.shortcuts.names .componentNamespace kw = true)
  (hutility : o.convention.rewritesUtilities = true → o.shortcuts.names .utility kw = false)
  (hsource : ∀ n ∈ walkForest 0 trees, ∃ y, n.2.2 = some y ∧ y.input = source.input)
  (hnone : ∀ n ∈ walkForest 0 trees,
    n.2.1.name?.any (o.shortcuts.names .componentNamespace) = false)

include hkw hutility hsource hnone

theorem transform_declaration_endsAlike (hs : s.IsSound)
    (hforest : s.forest = .node (.atRule kw ns false) (some source) [] :: trees) :
    EndsAlike (SameText { namespaces := 1 }) ((ofForest s.inputs trees).transformIn o ns)
      (s.transform o) := by
  have hcarries : EverywhereIn Carries trees := (hforest ▸ hs.carries_forest).2
  obtain ⟨a, rest, hroot, ha, hrest⟩ := List.map_eq_cons_iff.1 hforest
  rw [hs.tree_eq, Tree.node.injEq, List.map_eq_nil_iff] at ha
  obtain ⟨hcontent, hsrc, hnil⟩ := ha
  have hp : s.parent a = some root := hs.mem_children_iff.1 (hroot ▸ List.mem_cons_self)
  obtain ⟨C, hnode, hid, hbefore, hbehind, h⟩ := exists_abreast hs hcarries (.refl s root)
    (by rw [Sheet.kind, hs.content_root]; decide) [a] rest [] (by rw [hroot]; simp) hrest hsource
  have hu := isSound_ofForest s.inputs hcarries
  have hcopy : IsCopy Eq C (ofForest s.inputs trees) s := h.copy
  have hfind : o.convention.rewritesUtilities = true →
      (Context.ofOptions o).find s root .utility =
        ((Context.ofOptions o).find (ofForest s.inputs trees) root .utility).map C.node := by
    intro hsuit
    have hisA : (Context.ofOptions o).isA s .utility a = false := by
      rw [Context.isA, hcontent]
      exact hutility hsuit
    rw [find_of_beside (.refl _) hcopy hu hs hnode hbefore hbehind hnil]
    simp [hisA]
  rw [transform_eq]
  refine EndsAlike.bind (withoutUtilities_endsAlike h hfind) ?_
  rintro p q hr - ⟨C', h', hf⟩
  have hcont := hf.continues hu
  -- The declaration has been left alone.
  have hsame : q.sheet.node a = s.node a := (hf.elsewhere a (has_of_parent hp)
    (hcopy.outside a (by simp [hbefore]))).1
  obtain ⟨replaced, hex⟩ := exists_exchange_withoutUtilities hu hr
  refine declaration_endsAlike h' (hcont.node_root.trans hnode) (hcont.before_eq.trans hbefore)
    (hcont.behind_eq.trans hbehind) (hcont.input_eq.trans hid) ?_ ?_ hkw
    ((noneLeft_ofForest _ _ _ hcarries hnone).of_exchange hu hex)
  · rw [Sheet.content, hsame]
    exact hcontent
  · have hinputs : q.sheet.inputs = s.inputs := hf.inputs_copy_eq
    have hsrc' : (q.sheet.node a).source = some source := (congrArg Node.source hsame).trans hsrc
    rw [sourceName?, Sheet.source, hsrc', Option.map_some, inputName, inputName, hinputs]

theorem transform_block_endsAlike (ht : t.IsSound) {source' : Option Source}
    (hforest : t.forest = [.node (.atRule kw ns true) source' trees]) :
    EndsAlike (SameText { namespaces := 1 }) ((ofForest t.inputs trees).transformIn o ns)
      (t.transform o) := by
  have hcarries : EverywhereIn Carries trees := (hforest ▸ ht.carries_forest).1.2
  obtain ⟨b, rest, hroot, hb, hrest⟩ := List.map_eq_cons_iff.1 hforest
  obtain rfl := List.map_eq_nil_iff.1 hrest
  rw [ht.tree_eq, Tree.node.injEq] at hb
  obtain ⟨hcontent, -, hmid⟩ := hb
  have hp : t.parent b = some root := ht.mem_children_iff.1 (hroot ▸ List.mem_cons_self)
  obtain ⟨C, rfl, hid, hbefore, hbehind, h⟩ := exists_abreast ht hcarries (.single hp)
    (by rw [Sheet.kind, hcontent, Content.kind]; decide) [] (t.children b) [] (by simp) hmid hsource
  have hu := isSound_ofForest t.inputs hcarries
  have hcopy : IsCopy Eq C (ofForest t.inputs trees) t := h.copy
  have hne : C.node root ≠ root := ht.ne_root_of_parent hp
  have hfind : o.convention.rewritesUtilities = true →
      (Context.ofOptions o).find t root .utility =
        ((Context.ofOptions o).find (ofForest t.inputs trees) root .utility).map C.node := by
    intro hsuit
    have hisA : (Context.ofOptions o).isA t .utility (C.node root) = false := by
      rw [Context.isA, hcontent]
      exact hutility hsuit
    rw [find_of_around (.refl _) hcopy hu ht hbefore hbehind hroot]
    simp [hisA]
  rw [transform_eq]
  refine EndsAlike.bind (withoutUtilities_endsAlike h hfind) ?_
  rintro p q hr hr' ⟨C', h', hf⟩
  have hcont := hf.continues hu
  obtain ⟨replaced, hex⟩ := exists_exchange_withoutUtilities hu hr
  obtain ⟨replaced', hex'⟩ := exists_exchange_withoutUtilities ht hr'
  refine block_endsAlike h' (by rwa [hcont.node_root]) (hcont.before_eq.trans hbefore)
    (hcont.behind_eq.trans hbehind) (hcont.input_eq.trans hid) ?_ ?_ hkw
    ((noneLeft_ofForest _ _ _ hcarries hnone).of_exchange hu hex)
  · rw [hcont.node_root, hex'.content_eq _ (has_of_parent hp), hcontent]
  · have hout : ∀ y, (ofForest t.inputs trees).Has y → C.node y ≠ root := fun y hy e =>
      hne (hcopy.root_only y hy e ▸ e)
    have hsame : q.sheet.node root = t.node root := (hf.elsewhere root ht.has_root hout).1
    rw [Sheet.children, hsame, hcont.node_root]
    exact hroot

end EndsAlike

/-- The namespace of an input, declared before some nodes from that input, and a block with the same
namespace around these nodes: both runs succeed and give the same trees, warnings and counts, or
both stop with the same fault. There is no namespace among the nodes, and the keyword must not mean
a utility, as utilities are lowered first. -/
theorem transform_declaration_eq_block (hs : s.IsSound) (ht : t.IsSound)
    (hinputs : t.inputs = s.inputs) {o : Options} {source' : Option Source}
    (hdeclaration : s.forest = .node (.atRule kw ns false) (some source) [] :: trees)
    (hblock : t.forest = [.node (.atRule kw ns true) source' trees])
    (hkw : o.shortcuts.names .componentNamespace kw = true)
    (hutility : o.convention.rewritesUtilities = true → o.shortcuts.names .utility kw = false)
    (hsource : ∀ n ∈ walkForest 0 trees, ∃ y, n.2.2 = some y ∧ y.input = source.input)
    (hnone : ∀ n ∈ walkForest 0 trees,
      n.2.1.name?.any (o.shortcuts.names .componentNamespace) = false) :
    match s.transform o, t.transform o with
    | .ok p, .ok q => q.sheet.forest = p.sheet.forest ∧ q.warnings = p.warnings ∧ q.stats = p.stats
    | .error e, .error e' => e'.fault = e.fault
    | _, _ => False := by
  have hfirst := transform_declaration_endsAlike hkw hutility hsource hnone hs hdeclaration
  have hsecond := transform_block_endsAlike hkw hutility hsource hnone ht hblock
  rw [hinputs] at hsecond
  -- Both are compared with one run over the nodes alone.
  revert hfirst hsecond
  generalize (ofForest s.inputs trees).transformIn o ns = r
  generalize s.transform o = r₁
  generalize t.transform o = r₂
  intro hfirst hsecond
  cases hfirst with
  | ok h₁ =>
    cases hsecond with
    | ok h₂ =>
      exact ⟨h₂.1.trans h₁.1.symm, h₂.2.1.trans h₁.2.1.symm, h₂.2.2.trans h₁.2.2.symm⟩
  | error h₁ =>
    cases hsecond with
    | error h₂ => exact h₂.trans h₁.symm

/-- For instance, with one component that has a modifier. -/
theorem transform_declaration_eq_block_card :
    let source : Source := ⟨⟨0⟩, .zero⟩
    let trees := [Tree.node (.atRule "component" "Card" true) (some source)
      [.node (.atRule "modifier" "wide" true) (some source) []]]
    let s := ofForest #[.ofFile "a.css"]
      (.node (.atRule "component-namespace" "ui" false) (some source) [] :: trees)
    let t := ofForest #[.ofFile "a.css"]
      [.node (.atRule "component-namespace" "ui" true) (some source) trees]
    ∃ p q, s.transform {} = .ok p ∧ t.transform {} = .ok q ∧
      p.sheet.print = ".ui-Card {}\n.ui-Card--wide {}" ∧ q.sheet.forest = p.sheet.forest ∧
      q.warnings = p.warnings ∧ q.stats = p.stats := by
  intro source trees s t
  have hs : s.IsSound :=
    isSound_ofForest _ (by simp [trees, EverywhereIn, Everywhere, Carries, Content.carries])
  have ht : t.IsSound :=
    isSound_ofForest _ (by simp [trees, EverywhereIn, Everywhere, Carries, Content.carries])
  have hinputs : t.inputs = s.inputs := rfl
  have hdeclaration : s.forest =
      .node (.atRule "component-namespace" "ui" false) (some source) [] :: trees :=
    forest_ofForest _ _
  have hblock : t.forest = [.node (.atRule "component-namespace" "ui" true) (some source) trees] :=
    forest_ofForest _ _
  have hsource : ∀ n ∈ walkForest 0 trees, ∃ y, n.2.2 = some y ∧ y.input = source.input := by
    simp [trees, walkForest, walk]
  have hnone : ∀ n ∈ walkForest 0 trees,
      n.2.1.name?.any (({} : Options).shortcuts.names .componentNamespace) = false := by
    simp [trees, walkForest, walk]
    decide
  have hprint : (s.transform {}).toOption.any (fun p =>
      p.sheet.print == ".ui-Card {}\n.ui-Card--wide {}") = true := by
    decide +kernel
  -- The sheets have done their part; with their values at hand the rest would be computed again.
  clear_value s t
  have halike := transform_declaration_eq_block hs ht hinputs hdeclaration hblock (by decide)
    (by decide) hsource hnone
  cases hp : s.transform {} with
  | error e =>
    rw [hp] at hprint
    cases hprint
  | ok p =>
    cases hq : t.transform {} with
    | error e => simp [hp, hq] at halike
    | ok q =>
      rw [hp, hq] at halike
      rw [hp] at hprint
      exact ⟨p, q, rfl, rfl, of_decide_eq_true hprint, halike⟩

end Sheet

end ClassRules
