import ClassRules.Lowering.Namespace
import ClassRules.Proofs.Lowering.Steps

/-!
# Namespaces are dropped

## What this module delivers

- `namespacesLowered`: the namespaces that a run over some at-rules lowers.
- `Context.isBlock`: whether a node is a namespace with a block.
- `lowerBlock_lowers`: the components in a block are replaced, and the block stays where it is.
- `lowerNamespace_settled`: a step drops its namespace if that is still in the text.
-/

set_option autoImplicit false

namespace ClassRules.Lowering

open Sheet

/-- A namespace with a block. -/
def Context.isBlock (cx : Context) (s : Sheet) (id : NodeId) : Bool :=
  cx.isA s .componentNamespace id && (s.content id).hasBody

/-- The namespaces among some at-rules that a run over these lowers: those that are still in the
text when their turn comes. -/
def namespacesLowered (cx : Context) : NamespaceMap × Progress → List NodeId → List NodeId
  | _, [] => []
  | state, a :: as =>
    match lowerNamespace cx state a with
    | .ok next =>
      (if state.2.sheet.isAttached a then [a] else []) ++ namespacesLowered cx next as
    | .error _ => []

theorem traces_namespacesLowered (cx : Context) :
    Traces (lowerNamespace cx) (namespacesLowered cx) := by
  refine ⟨fun _ => rfl, ?_⟩
  intro state a as
  simp only [namespacesLowered]
  cases lowerNamespace cx state a with
  | ok next => simp
  | error stopped => rfl

section Steps

variable {cx : Context} {s t : Sheet} {p : Progress} {a container : NodeId}

/-- A step that takes an at-rule out and hangs its children on what it stood in. -/
theorem lowered_of_drop (hs : s.IsSound) (ha : s.HangsOn a root) (hc : cx.IsCustom s a)
    (hp : s.parent a = some container) (hcontainer : s.HangsOn container root) (ht : t.IsForest)
    (hsize : t.nodes.size = s.nodes.size) (hcontent : ∀ x, t.content x = s.content x)
    (hsource : ∀ x, t.source x = s.source x)
    (hparent : ∀ x, t.parent x = if x = a then none else if x ∈ s.children a then some container
      else s.parent x) : Lowered cx s t container [] [a] := by
  have hone : ∀ x ∈ ([] : List NodeId) ++ [a], x = a := fun x hx => by simpa using hx
  constructor
  case forest =>
    exact ht
  case size_eq =>
    exact hsize
  case content_eq =>
    exact fun id _ => hcontent id
  case source_eq =>
    exact fun id _ => hsource id
  case nodup =>
    simp
  case was_custom =>
    intro x hx
    rw [hone x hx]
    exact ⟨ha, hc⟩
  case below =>
    intro x hx
    rw [hone x hx]
    exact below_parent hs hp
  case container_hangsOn =>
    exact hcontainer
  case container_ne_nil =>
    exact List.ne_nil_of_mem (hs.mem_children_iff.2 hp)
  case parent_gone =>
    intro x hx
    rw [hparent, hone x hx, if_pos rfl]
  case parent_rule =>
    exact fun r hr => absurd hr List.not_mem_nil
  case parent_inside =>
    intro x hx c _ hpc
    rw [hone x hx] at hpc
    -- There is no rule to stand in, so what stood in the at-rule stands in the container now.
    refine .inl ?_
    rw [hparent, if_neg (hs.parent_ne hpc).symm, if_pos (hs.mem_children_iff.2 hpc)]
  case parent_other =>
    intro id _ hnot hout
    have hida : id ≠ a := fun e => hnot (by simp [e])
    have hin : id ∉ s.children a := fun hmem => hout a (by simp) (hs.mem_children_iff.1 hmem)
    rw [hparent, if_neg hida, if_neg hin]
  case rules =>
    exact .nil

/-- What a search finds below a node are nodes of the text of a kind that stands for classes. -/
theorem of_mem_find (hs : s.IsSound) {scope id : NodeId} {kind : RuleKind}
    (h : id ∈ cx.find s scope kind) :
    s.Has id ∧ cx.IsCustom s id ∧ id ≠ scope ∧ s.HangsOn id scope := by
  obtain ⟨hbelow, hkind⟩ := Context.mem_find_iff.1 h
  obtain ⟨hne, hon⟩ := hs.mem_descendants_iff.1 hbelow
  refine ⟨?_, ⟨kind, hkind⟩, hne, hon⟩
  rcases HangsOn.iff_parent.1 hon with heq | ⟨p, hp, -⟩
  · exact absurd heq hne
  · exact has_of_parent hp

/-- The components in a block are exchanged for rules. The block stands above all of them, so it
stays in the text. -/
theorem lowerBlock_lowers (cx : Context) (hs : p.sheet.IsSound) (ns : String) :
    match lowerBlock cx p a ns with
    | .ok q => ∃ replaced, Lowers cx p q replaced [] ∧
        ∀ rank : NodeId → Nat, p.sheet.Ranked rank → ∀ x ∈ replaced, rank a < rank x
    | .error stopped => ∃ replaced, Exchange cx p.sheet stopped.progress.sheet replaced [] := by
  have hrun : Settled cx id p [] (cx.find p.sheet a .component) (lowerBlock cx p a ns) :=
    settled_foldlM id (traces_nil _)
      (fun q _ hq _ hc => lowerComponent_settled (p := q) hq hc (some ns))
      (cx.find p.sheet a .component) p hs
      fun c hc => ⟨(of_mem_find hs hc).1, (of_mem_find hs hc).2.1⟩
  cases hq : lowerBlock cx p a ns with
  | error stopped =>
    rw [hq] at hrun
    exact hrun
  | ok q =>
    rw [hq] at hrun
    obtain ⟨replaced, hlow, -, hrank⟩ := hrun
    refine ⟨replaced, hlow, ?_⟩
    intro rank hr x hx
    obtain ⟨c, hc, hle⟩ := hrank rank hr x hx
    obtain ⟨-, -, hne, hon⟩ := of_mem_find hs hc
    exact Nat.lt_of_lt_of_le (hon.rank_lt hr hne) hle

/-- The children of a block come to hang on what the block stands in. The last one is moved first,
so that they come to stand behind the block in their order. -/
theorem exists_unwrapped (hs : p.sheet.IsForest) (hp : p.sheet.parent a = some container) :
    ∃ t, unwrapBlock p a = .ok { p with sheet := t.detach a } ∧
      Gathered p.sheet.depth p.sheet t container (p.sheet.children a).reverse ∧
      t = p.sheet.moveAll container (placeAfter a) (p.sheet.children a).reverse := by
  have hchild : ∀ c ∈ (p.sheet.children a).reverse, p.sheet.parent c = some a := fun c hmem =>
    hs.mem_children_iff.1 (List.mem_reverse.1 hmem)
  have hdepth := hs.depth_of_parent hp
  -- The depths at the beginning serve for all the moves, which only lead upwards.
  have hlt : ∀ c ∈ (p.sheet.children a).reverse, p.sheet.depth container < p.sheet.depth c :=
    fun c hmem => by
      rw [hs.depth_of_parent (hchild c hmem), hdepth]
      omega
  obtain ⟨t, ht, hg, hall⟩ := Progress.exists_gathered (p := p) (·.insertAfter container a ·)
    (placeAfter a) (p.sheet.children a).reverse (adds_placeAfter a) hlt
    (fun q c hq hr hcont hlt hmem =>
      Progress.insertAfter_eq_ok hq hr hcont hlt (hs.parent_ne (hchild c hmem)).symm)
    hs.toIsLinked hs.ranked_depth (hs.has_parent hp) fun c hmem => has_of_parent (hchild c hmem)
  refine ⟨t, ?_, hg, hall⟩
  simp only [unwrapBlock, hp]
  exact (congrArg (fun r => r >>= fun q => pure (q.remove a)) ht).trans rfl

/-- Unwrapping a block of the text takes it out of what it stands in. -/
theorem unwrapBlock_lowered (hs : p.sheet.IsSound) (ha : p.sheet.HangsOn a root)
    (hc : cx.IsCustom p.sheet a) :
    ∃ container q, p.sheet.parent a = some container ∧ unwrapBlock p a = .ok q ∧
      Lowered cx p.sheet q.sheet container [] [a] ∧ q.stats = p.stats := by
  obtain ⟨container, hp, hcontainer⟩ := hc.exists_container hs ha
  obtain ⟨t, ht, hg, -⟩ := exists_unwrapped hs.toIsForest hp
  refine ⟨container, { p with sheet := t.detach a }, hp, ht, ?_, rfl⟩
  refine lowered_of_drop hs ha hc hp hcontainer ?_ ?_ ?_ ?_ ?_
  · exact IsForest.detach (.of_ranked hg.linked hg.ranked) a
  · exact (size_detach t a).trans hg.size_eq
  · exact fun x => (content_detach t a x).trans (hg.content_eq x)
  · exact fun x => (source_detach t a x).trans (hg.source_eq x)
  · intro x
    refine (parent_detach t a x).trans ?_
    rw [hg.parent_eq]
    simp only [List.mem_reverse]

/-- Unwrapping a block of the text drops it. -/
theorem unwrapBlock_lowers (hs : p.sheet.IsSound) (ha : p.sheet.HangsOn a root)
    (hc : cx.IsCustom p.sheet a) :
    ∃ q, unwrapBlock p a = .ok q ∧ Exchange cx p.sheet q.sheet [] [a] ∧ q.stats = p.stats := by
  obtain ⟨container, q, -, hq, hlow, hstats⟩ := unwrapBlock_lowered hs ha hc
  exact ⟨q, hq, hlow.exchange hs, hstats⟩

/-- In a sound sheet only an at-rule with a block carries children. -/
theorem children_nil_of_not_hasBody (hs : s.IsSound) (hc : cx.IsCustom s a)
    (hbody : (s.content a).hasBody = false) : s.children a = [] := by
  by_contra hne
  have hcarries := hs.carries a hne
  have hk := hc.kind_eq
  rw [Sheet.kind] at hk
  cases hcontent : s.content a <;> simp_all [Content.kind, Content.carries, Content.hasBody]

/-- Taking out a namespace without a block leaves all else where it is, as nothing stands in it. -/
theorem remove_lowered (hs : p.sheet.IsSound) (ha : p.sheet.HangsOn a root)
    (hc : cx.IsCustom p.sheet a) (hbody : (p.sheet.content a).hasBody = false) :
    ∃ container, p.sheet.parent a = some container ∧
      Lowered cx p.sheet (p.remove a).sheet container [] [a] := by
  obtain ⟨container, hp, hcontainer⟩ := hc.exists_container hs ha
  have hnil := children_nil_of_not_hasBody hs hc hbody
  refine ⟨container, hp, lowered_of_drop hs ha hc hp hcontainer ?_ ?_ ?_ ?_ ?_⟩
  · exact hs.toIsForest.detach a
  · exact size_detach _ a
  · exact content_detach _ a
  · exact source_detach _ a
  · intro x
    refine (parent_detach _ a x).trans ?_
    rw [hnil]
    simp

/-- So it is dropped. -/
theorem remove_lowers (hs : p.sheet.IsSound) (ha : p.sheet.HangsOn a root)
    (hc : cx.IsCustom p.sheet a) (hbody : (p.sheet.content a).hasBody = false) :
    Exchange cx p.sheet (p.remove a).sheet [] [a] := by
  obtain ⟨container, -, hlow⟩ := remove_lowered hs ha hc hbody
  exact hlow.exchange hs

/-! ### The three cases of a step -/

theorem lowerNamespace_of_not_isAttached {map : NamespaceMap}
    (hatt : p.sheet.isAttached a = false) : lowerNamespace cx (map, p) a = .ok (map, p) := by
  simp only [lowerNamespace, hatt]
  rfl

/-- With a block, the components in it are lowered and it is unwrapped. -/
theorem lowerNamespace_of_hasBody (cx : Context) (map : NamespaceMap)
    (hatt : p.sheet.isAttached a = true) (hbody : (p.sheet.content a).hasBody = true) :
    lowerNamespace cx (map, p) a =
      (lowerBlock cx (p.count fun c => { c with namespaces := c.namespaces + 1 }) a
        (p.sheet.params a) >>= fun q => unwrapBlock q a >>= fun q => pure (map, q)) := by
  simp only [lowerNamespace, hatt, hbody]
  rfl

/-- Without a block, the namespace is noted for its input and taken out. -/
theorem lowerNamespace_of_not_hasBody (cx : Context) (map : NamespaceMap)
    (hatt : p.sheet.isAttached a = true) (hbody : (p.sheet.content a).hasBody = false) :
    lowerNamespace cx (map, p) a =
      .ok (match p.sheet.sourceName? a with
        | some source => map.insert source (p.sheet.params a)
        | none => map, (p.count fun c => { c with namespaces := c.namespaces + 1 }).remove a) := by
  simp only [lowerNamespace, hatt, hbody]
  rfl

/-- A step over a namespace of the text drops it, unless the run stops there. -/
theorem namespacesLowered_of_eq_ok {map : NamespaceMap} {next : NamespaceMap × Progress}
    (hatt : p.sheet.isAttached a = true) (h : lowerNamespace cx (map, p) a = .ok next) :
    namespacesLowered cx (map, p) [a] = [a] := by
  simp only [namespacesLowered, h, if_pos hatt]
  rfl

/-- A step over a namespace that is not in the text any more does nothing. -/
theorem lowerNamespace_settled_of_not_isAttached {map : NamespaceMap} (hs : p.sheet.IsSound)
    (hatt : ¬ p.sheet.isAttached a = true) :
    Settled cx Prod.snd p (namespacesLowered cx (map, p) [a]) [a]
      (lowerNamespace cx (map, p) a) := by
  have hrun : lowerNamespace cx (map, p) a = .ok (map, p) :=
    lowerNamespace_of_not_isAttached (by simpa using hatt)
  have hnone : namespacesLowered cx (map, p) [a] = [] := by
    simp only [namespacesLowered, hrun, hatt]
    rfl
  rw [hnone, hrun]
  exact settled_of_not_hangsOn hs (fun hon => hatt (hs.isAttached_iff.2 hon)) rfl

/-- A step over a namespace without a block drops it. -/
theorem lowerNamespace_settled_of_not_hasBody {map : NamespaceMap} (hs : p.sheet.IsSound)
    (hc : cx.IsCustom p.sheet a) (hatt : p.sheet.isAttached a = true)
    (hbody : ¬ (p.sheet.content a).hasBody = true) :
    Settled cx Prod.snd p (namespacesLowered cx (map, p) [a]) [a]
      (lowerNamespace cx (map, p) a) := by
  have hdrop := remove_lowers hs (hs.isAttached_iff.1 hatt) hc (by simpa using hbody)
  have hrun := lowerNamespace_of_not_hasBody cx map hatt (by simpa using hbody)
  rw [namespacesLowered_of_eq_ok hatt hrun, hrun]
  refine ⟨[], ⟨hdrop, rfl, rfl⟩, ?_, ?_⟩
  · intro b hb
    exact hdrop.not_hangsOn_root hs (List.mem_append_right _ hb)
  · intro rank _ x hx
    exact absurd hx List.not_mem_nil

/-- The components in a block leave it in the text. -/
theorem hangsOn_of_lowerBlock {q : Progress} {ns : String} (hs : p.sheet.IsSound)
    (hon : p.sheet.HangsOn a root) (h : lowerBlock cx p a ns = .ok q) :
    q.sheet.IsSound ∧ q.sheet.HangsOn a root ∧ q.sheet.content a = p.sheet.content a := by
  have hlower := lowerBlock_lowers cx (a := a) hs ns
  rw [h] at hlower
  obtain ⟨replaced, hlow, hrank⟩ := hlower
  have hhas := hs.has_of_hangsOn hon
  refine ⟨hlow.exchange.sound, (hlow.exchange.hangsOn_iff a hhas fun hmem => ?_).2 hon,
    hlow.exchange.content_eq a hhas⟩
  exact Nat.lt_irrefl _ (hrank p.sheet.depth hs.ranked_depth a (by simpa using hmem))

/-- After the components in the block of a namespace, the block itself is dropped. -/
theorem exists_lowers_of_block {q : Progress} {replaced : List NodeId} (hs : p.sheet.IsSound)
    (hhas : p.sheet.Has a) (hc : cx.IsCustom p.sheet a) (hon : p.sheet.HangsOn a root)
    (hlow : Lowers cx (p.count fun c => { c with namespaces := c.namespaces + 1 }) q replaced [])
    (hrank : ∀ rank : NodeId → Nat, p.sheet.Ranked rank → ∀ x ∈ replaced, rank a < rank x) :
    ∃ r, unwrapBlock q a = .ok r ∧ Lowers cx p r replaced [a] := by
  have hex : Exchange cx p.sheet q.sheet replaced [] := hlow.exchange
  -- The block is not among what was replaced, as all that stands below it.
  have hnot : a ∉ replaced ++ ([] : List NodeId) := fun hmem =>
    Nat.lt_irrefl _ (hrank p.sheet.depth hs.ranked_depth a (by simpa using hmem))
  obtain ⟨r, hr, hdrop, hstats⟩ := unwrapBlock_lowers hex.sound
    ((hex.hangsOn_iff a hhas hnot).2 hon) ((Context.isCustom_congr (hex.content_eq a hhas)).2 hc)
  have htotal := hex.trans hs hdrop
  rw [List.append_nil, List.nil_append] at htotal
  refine ⟨r, hr, htotal, ?_, ?_⟩
  · rw [hstats]
    exact hlow.counts.rules_eq
  · rw [hstats]
    exact hlow.counts.namespaces_eq

/-- A step over a namespace with a block drops it after the components in the block, unless the run
stops at one of them. -/
theorem lowerNamespace_settled_of_hasBody {map : NamespaceMap} (hs : p.sheet.IsSound)
    (hhas : p.sheet.Has a) (hc : cx.IsCustom p.sheet a) (hatt : p.sheet.isAttached a = true)
    (hbody : (p.sheet.content a).hasBody = true) :
    Settled cx Prod.snd p (namespacesLowered cx (map, p) [a]) [a]
      (lowerNamespace cx (map, p) a) := by
  have hblock := lowerBlock_lowers cx (a := a)
    (p := p.count fun c => { c with namespaces := c.namespaces + 1 }) hs (p.sheet.params a)
  have hrun := lowerNamespace_of_hasBody cx map hatt hbody
  cases hq : lowerBlock cx (p.count fun c => { c with namespaces := c.namespaces + 1 }) a
      (p.sheet.params a) with
  | error stopped =>
    rw [hq] at hblock hrun
    have hnone : namespacesLowered cx (map, p) [a] = [] := by
      simp only [namespacesLowered, hrun]
      rfl
    rw [hnone, hrun]
    exact hblock
  | ok q =>
    rw [hq] at hblock hrun
    obtain ⟨replaced, hlow, hrank⟩ := hblock
    obtain ⟨r, hr, htotal⟩ :=
      exists_lowers_of_block hs hhas hc (hs.isAttached_iff.1 hatt) hlow hrank
    have hrun' : lowerNamespace cx (map, p) a = .ok (map, r) := by
      rw [hrun]
      exact (congrArg (fun x => x >>= fun q => pure (map, q)) hr).trans rfl
    rw [namespacesLowered_of_eq_ok hatt hrun', hrun']
    refine ⟨replaced, htotal, ?_, ?_⟩
    · intro b hb
      exact htotal.exchange.not_hangsOn_root hs (List.mem_append_right _ hb)
    · intro rank hr x hx
      exact ⟨a, List.mem_singleton_self a, Nat.le_of_lt (hrank rank hr x hx)⟩

/-- A step over a namespace does nothing, or drops it after the components in its block. -/
theorem lowerNamespace_settled {state : NamespaceMap × Progress} (hs : state.2.sheet.IsSound)
    (hhas : state.2.sheet.Has a) (hc : cx.IsCustom state.2.sheet a) :
    Settled cx Prod.snd state.2 (namespacesLowered cx state [a]) [a]
      (lowerNamespace cx state a) := by
  by_cases hatt : state.2.sheet.isAttached a = true
  · by_cases hbody : (state.2.sheet.content a).hasBody = true
    · exact lowerNamespace_settled_of_hasBody hs hhas hc hatt hbody
    · exact lowerNamespace_settled_of_not_hasBody hs hc hatt hbody
  · exact lowerNamespace_settled_of_not_isAttached hs hatt

end Steps

end ClassRules.Lowering
