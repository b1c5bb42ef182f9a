import ClassRules.Proofs.Lowering.StateOrder

/-!
# What becomes of states

The pass over the states goes through a list that was made before it began, and each step moves the
states inside the one that it lowers. What comes of it can be told from the sheet as it was: a rule
for each state, with a selector made of those above it, beside the nearest node above that is no
state, and with the children that are left. The sheet may be any forest; nodes that hang on nothing
and states in them are left alone.

## What this module delivers

- `SelectorOf`: the selector that a node gives to the states in it.
- `Edit.Leads.mem_children_of_follow`: what has a parent after a rule came behind another one.
- `StatesReplaced`: where everything is and what it says once some states are lowered.
  `StatesReplaced.next`: one state more; `statesReplaced_foldlM`: the rest of them.
  `StatesReplaced.mem_states_iff`: the states of the text are then those that are left.
- `RulesForStates`: what is there in the end, as said above. `lowerStates_rules`: the pass goes
  through, and this comes of it.
-/

set_option autoImplicit false

namespace ClassRules.Lowering

open Sheet

variable {cx : Context} {s t u : Sheet}

/-- The selector that a node gives to the states that stand in it. A rule gives its own. A state
gives that of the rule made for it: each of its states on each of the selectors that it is given,
all states of the first selector first. -/
inductive SelectorOf (cx : Context) (s : Sheet) : NodeId → String → Prop where
  | rule {r : NodeId} : s.kind r = .rule → SelectorOf cx s r (s.selector r)
  | state {w p : NodeId} {given : String} : cx.isA s .when w = true → s.parent w = some p →
      SelectorOf cx s p given →
      SelectorOf cx s w (", ".intercalate ((splitComma given).flatMap fun part =>
        (splitComma (s.params w)).map fun state => cx.convention.joinState part state))

/-- Only at-rules are of a kind, so that nothing else can be. -/
theorem Context.kind_ne_of_isA {kind : RuleKind} {id : NodeId} {k : Content.Kind}
    (h : cx.isA s kind id = true) (hk : k ≠ .atRule) : s.kind id ≠ k := by
  rw [Context.kind_of_isA h]
  exact hk.symm

/-- It is no more than one. -/
theorem SelectorOf.unique {x : NodeId} {f g : String} (hf : SelectorOf cx s x f)
    (hg : SelectorOf cx s x g) : f = g := by
  induction hf generalizing g with
  | rule hrule =>
    cases hg with
    | rule => rfl
    | state hisA => exact absurd hrule (Context.kind_ne_of_isA hisA (by decide))
  | state hisA hparent _ ih =>
    cases hg with
    | rule hrule => exact absurd hrule (Context.kind_ne_of_isA hisA (by decide))
    | state _ hparent' hgives =>
      obtain rfl := Option.some.inj (hparent.symm.trans hparent')
      rw [ih hgives]

/-! ## Putting a rule behind another one -/

/-- The others stay as they are when a node is put behind one of them. -/
theorem filter_putFor {anchor new : NodeId} {P : NodeId → Bool} (hnew : P new = false)
    (l : List NodeId) : (putFor anchor [anchor, new] l).filter P = l.filter P := by
  induction l with
  | nil => rfl
  | cons c l ih =>
    rw [putFor, List.flatMap_cons, ← putFor, List.filter_append, ih]
    by_cases hc : c = anchor
    · rw [if_pos hc, hc]
      by_cases hP : P anchor = true
      · simp [hP, hnew]
      · simp [hP, hnew]
    · rw [if_neg hc, ← List.filter_append]
      rfl

section Follow

variable {a container anchor x y : NodeId} {selector : String}
  (ht : t.IsForest) (h : (Edit.follow t a container anchor selector).Leads t u)

include ht h in
/-- What has a parent afterwards is the new rule, or had one before and was not taken out. -/
theorem Edit.Leads.mem_children_of_follow (ha : t.Has a) (hout : a ∉ t.children container)
    (hx : x ∈ u.children y) : x ≠ a ∧ (x = ⟨t.nodes.size⟩ ∨ ∃ z, x ∈ t.children z) := by
  have hkept : ∀ {z}, x ∈ t.children z → x ≠ a → x ≠ a ∧ (x = ⟨t.nodes.size⟩ ∨
      ∃ z, x ∈ t.children z) := fun hz hne => ⟨hne, .inr ⟨_, hz⟩⟩
  have hy : u.Has y := has_of_mem_children hx
  by_cases hold : t.Has y
  · by_cases hya : y = a
    · rw [hya, h.children_gone a (List.mem_singleton_self a)] at hx
      cases hx
    · by_cases hyc : y = container
      · have hcontainer : u.children container = putFor anchor [anchor, ⟨t.nodes.size⟩]
            (t.children container) := h.children_container
        rw [hyc, hcontainer, putFor, List.mem_flatMap] at hx
        obtain ⟨c, hc, hxc⟩ := hx
        have hca : c ≠ a := fun e => hout (e ▸ hc)
        split at hxc
        · rename_i heq
          rcases List.mem_pair.1 hxc with rfl | rfl
          · exact hkept (heq ▸ hc) (heq ▸ hca)
          · exact ⟨ha.ne_new.symm, .inl rfl⟩
        · rw [List.mem_singleton.1 hxc]
          exact ⟨hca, .inr ⟨_, hc⟩⟩
      · have hgone : y ∉ (Edit.follow t a container anchor selector).gone := fun hmem =>
          hya (List.mem_singleton.1 hmem)
        rw [h.children_other y hold hyc hgone, List.mem_filter] at hx
        exact hkept hx.1 (by simpa [Edit.follow] using hx.2)
  · -- The only other node is the new rule, which has the children of `a`.
    have hnew : y = ⟨t.nodes.size + 0⟩ := by
      have hsize := h.size_eq
      cases y
      simp only [Has, hsize, Edit.follow, List.length_singleton, NodeId.mk.injEq] at hy hold ⊢
      omega
    rw [hnew, h.children_new 0 _ rfl] at hx
    refine hkept hx ?_
    rintro rfl
    exact ht.parent_ne (ht.mem_children_iff.1 hx) rfl

include ht h in
/-- What has no parent gets none, and what is taken out loses its own. -/
theorem Edit.Leads.parent_eq_none_of_follow (ha : t.Has a) (hout : a ∉ t.children container)
    (hx : x = a ∨ t.Has x ∧ t.parent x = none) : u.parent x = none := by
  rw [Option.eq_none_iff_forall_ne_some]
  intro y hy
  obtain ⟨hne, hfrom⟩ := h.mem_children_of_follow ht ha hout (h.forest.mem_children_iff.2 hy)
  obtain ⟨hhas, hnone⟩ := hx.resolve_left hne
  rcases hfrom with heq | ⟨z, hz⟩
  · exact hhas.ne_new heq
  · rw [ht.mem_children_iff.1 hz] at hnone
    cases hnone

include h in
/-- What has no children gets none, and what is taken out loses its own. -/
theorem Edit.Leads.children_eq_nil_of_follow (hcontainer : t.children container ≠ [])
    (hx : x = a ∨ t.Has x ∧ t.children x = []) : u.children x = [] := by
  by_cases hxa : x = a
  · exact h.children_gone x (List.mem_singleton.2 hxa)
  · obtain ⟨hhas, hnil⟩ := hx.resolve_left hxa
    have hxc : x ≠ container := by
      rintro rfl
      exact hcontainer hnil
    have hgone : x ∉ (Edit.follow t a container anchor selector).gone := fun hmem =>
      hxa (List.mem_singleton.1 hmem)
    rw [h.children_other x hhas hxc hgone, hnil]
    rfl

include ht h in
/-- But for the new rule, all children stay, in their order, of the node that stands there then. -/
theorem Edit.Leads.filter_children_of_follow {P : NodeId → Bool} (hnew : P ⟨t.nodes.size⟩ = false)
    (hout : a ∉ t.children container) (hy : t.Has y) :
    (u.children (if y = a then ⟨t.nodes.size⟩ else y)).filter P =
      ((t.children y).filter (· ≠ a)).filter P := by
  have hsame : ∀ {z}, a ∉ t.children z → (t.children z).filter (· ≠ a) = t.children z := by
    intro z hz
    refine List.filter_eq_self.2 fun c hc => decide_eq_true ?_
    rintro rfl
    exact hz hc
  split
  · rename_i hya
    have hself : a ∉ t.children a := fun hmem => ht.parent_ne (ht.mem_children_iff.1 hmem) rfl
    have hchildren : u.children ⟨t.nodes.size⟩ = t.children a := h.children_new 0 _ rfl
    rw [hya, hchildren, hsame hself]
  · rename_i hya
    by_cases hyc : y = container
    · have hcontainer : u.children container = putFor anchor [anchor, ⟨t.nodes.size⟩]
          (t.children container) := h.children_container
      rw [hyc, hcontainer, filter_putFor hnew, hsame hout]
    · have hgone : y ∉ (Edit.follow t a container anchor selector).gone := fun hmem =>
        hya (List.mem_singleton.1 hmem)
      rw [h.children_other y hy hyc hgone]
      congr 1
      exact List.filter_congr fun c _ => by simp [Edit.follow]

include ht h in
/-- The new rule stands where the node stands that it came behind. -/
theorem Edit.Leads.parent_new_of_follow (hanchor : t.parent anchor = some container) :
    u.parent ⟨t.nodes.size⟩ = some container := by
  have hplaced : u.children container = putFor anchor [anchor, ⟨t.nodes.size⟩]
      (t.children container) := h.children_container
  refine h.forest.mem_children_iff.1 ?_
  rw [hplaced, putFor, List.mem_flatMap]
  exact ⟨anchor, ht.mem_children_iff.2 hanchor, by simp⟩

end Follow

/-! ## Some states are lowered -/

/-- The states `done` are lowered. -/
structure StatesReplaced (cx : Context) (s : Sheet) (done : List NodeId) (t : Sheet) : Prop where
  forest : t.IsForest
  size_eq : t.nodes.size = s.nodes.size + done.length
  inputs_eq : t.inputs = s.inputs
  content_old : ∀ x, s.Has x → t.content x = s.content x
  source_old : ∀ x, s.Has x → t.source x = s.source x
  content_new : ∀ w ∈ done, ∃ selector, SelectorOf cx s w selector ∧
    t.content (ruleFor s (cx.states s) w) = .rule selector
  source_new : ∀ w ∈ done, t.source (ruleFor s (cx.states s) w) = s.source w
  parent_gone : ∀ w ∈ done, t.parent w = none
  children_gone : ∀ w ∈ done, t.children w = []
  /-- Without the new rules, the children are those that were there and are not lowered. -/
  children_old : ∀ x, s.Has x →
    (t.children (standIn s (cx.states s) done x)).filter (s.Has ·) =
      (s.children x).filter (· ∉ done)
  /-- The rules stand beside what their states stood in. -/
  beside : ∀ w ∈ done, ∃ r container, cx.IsStateIn s r w ∧ s.kind r = .rule ∧
    t.parent r = some container ∧ t.parent (ruleFor s (cx.states s) w) = some container

/-- Before the first state is lowered, all is as it was. -/
theorem StatesReplaced.nil (hs : s.IsForest) : StatesReplaced cx s [] s := by
  constructor
  case forest => exact hs
  case size_eq => rfl
  case inputs_eq => rfl
  case content_old => exact fun _ _ => rfl
  case source_old => exact fun _ _ => rfl
  case content_new => exact fun _ hmem => absurd hmem List.not_mem_nil
  case source_new => exact fun _ hmem => absurd hmem List.not_mem_nil
  case parent_gone => exact fun _ hmem => absurd hmem List.not_mem_nil
  case children_gone => exact fun _ hmem => absurd hmem List.not_mem_nil
  case children_old =>
    intro x _
    rw [standIn_of_not_mem List.not_mem_nil]
    refine List.filter_congr fun c hc => ?_
    have hhas : s.Has c := has_of_parent (hs.mem_children_iff.1 hc)
    simp [hhas]
  case beside => exact fun _ hmem => absurd hmem List.not_mem_nil

section Replaced

variable {done rest : List NodeId} {a : NodeId} (hs : s.IsForest) (hroot : s.kind root = .root)
  (hws : cx.states s = done ++ rest) (h : StatesReplaced cx s done t)

include hs hroot in
/-- The rule that a state of the text stands in is part of the text, and not the root. -/
theorem Context.IsStateIn.hangsOn_root {r w : NodeId} (hstate : cx.IsStateIn s r w)
    (hr : s.kind r = .rule) (hw : s.HangsOn w root) : r ≠ root ∧ s.HangsOn r root := by
  have hne : r ≠ root := by
    rintro rfl
    rw [hroot] at hr
    cases hr
  refine ⟨hne, (hstate.hangsOn.total hw).resolve_right fun hon => ?_⟩
  -- Otherwise the root would be one of the states on the way up to the rule.
  exact Context.kind_ne_of_isA (hstate.of_hangsOn hs hw hon hne.symm).isA (by decide) hroot

theorem isA_of_mem_states {w : NodeId} (hw : w ∈ cx.states s) : cx.isA s .when w = true :=
  (Context.mem_find_iff.1 hw).2

theorem hangsOn_of_mem_states {w : NodeId} (hs : s.IsForest) (hw : w ∈ cx.states s) :
    w ≠ root ∧ s.HangsOn w root :=
  hs.mem_descendants_iff.1 (Context.mem_find_iff.1 hw).1

include h in
theorem StatesReplaced.has_old {x : NodeId} (hx : s.Has x) : t.Has x :=
  has_of_size h.size_eq hx

include hws h in
theorem StatesReplaced.has_new {w : NodeId} (hw : w ∈ done) :
    t.Has (ruleFor s (cx.states s) w) :=
  has_ruleFor h.size_eq hws hw

include hs hws h in
/-- The new nodes are the rules for states. -/
theorem StatesReplaced.exists_ruleFor {x : NodeId} (hx : t.Has x) (hnew : ¬ s.Has x) :
    ∃ w ∈ done, x = ruleFor s (cx.states s) w := by
  have hnd : (cx.states s).Nodup := nodup_states hs
  simp only [Has, h.size_eq] at hx hnew
  have hi : x.index - s.nodes.size < done.length := by omega
  have hi' : x.index - s.nodes.size < (cx.states s).length := by
    rw [hws, List.length_append]
    omega
  have hget : (cx.states s)[x.index - s.nodes.size] = done[x.index - s.nodes.size] := by
    simp only [hws]
    exact List.getElem_append_left hi
  refine ⟨_, List.getElem_mem hi, ?_⟩
  rw [ruleFor, ← hget, hnd.idxOf_getElem _ hi']
  exact congrArg NodeId.mk (by omega)

include hs h in
/-- What is not lowered stands where it stood, or in the rule for the state that it stood in. -/
theorem StatesReplaced.parent_eq {x p : NodeId} (hp : s.parent x = some p) (hx : x ∉ done) :
    t.parent x = some (standIn s (cx.states s) done p) := by
  have hmem : x ∈ (s.children p).filter (· ∉ done) :=
    List.mem_filter.2 ⟨hs.mem_children_iff.2 hp, by simpa using hx⟩
  rw [← h.children_old p (hs.has_parent hp)] at hmem
  exact h.forest.mem_children_iff.1 (List.mem_filter.1 hmem).1

include hs hroot hws h in
/-- What is part of the text stays so, or its rule takes its place there. -/
theorem StatesReplaced.attached {x : NodeId} (hx : s.HangsOn x root) :
    t.HangsOn (standIn s (cx.states s) done x) root := by
  -- On the depth in `s`, as rules stand higher in `t` than their states did in `s`.
  induction hd : s.depth x using Nat.strongRecOn generalizing x with
  | ind n ih =>
    subst hd
    by_cases hmem : x ∈ done
    · -- The rule stands beside a node that is further up.
      obtain ⟨r, container, hstate, hr, hrc, hnew⟩ := h.beside x hmem
      have hrout : r ∉ done := fun hrd =>
        not_mem_states_of_rule hr (hws ▸ List.mem_append_left _ hrd)
      obtain ⟨hrne, hrroot⟩ := hstate.hangsOn_root hs hroot hr hx
      have hlt := hstate.hangsOn.rank_lt hs.ranked_depth (hstate.ne hs)
      have hron := ih _ hlt hrroot rfl
      rw [standIn_of_not_mem hrout, HangsOn.iff_of_parent hrc] at hron
      rw [standIn_of_mem hmem]
      exact .head hnew (hron.resolve_left hrne)
    · rw [standIn_of_not_mem hmem]
      rcases HangsOn.iff_parent.1 hx with rfl | ⟨p, hp, hon⟩
      · exact HangsOn.refl t root
      · exact .head (h.parent_eq hs hp hmem)
          (ih _ (hs.ranked_depth hp) hon rfl)

section Next

variable {parent : NodeId} (hnext : cx.states s = done ++ a :: rest)
  (hparent : s.parent a = some parent)

include hnext in
theorem mem_states_next : a ∈ cx.states s :=
  hnext ▸ List.mem_append_right _ List.mem_cons_self

include hs hnext in
/-- What is lowered next has not been lowered. -/
theorem not_mem_done : a ∉ done :=
  not_mem_of_next hnext (nodup_states hs)

include hs hroot hnext hparent in
/-- The state that the next one stands in has been lowered. -/
theorem mem_done_of_parent (hisA : cx.isA s .when parent = true) : parent ∈ done := by
  obtain ⟨hne, hon⟩ := hangsOn_of_mem_states hs (mem_states_next hnext)
  have hpon := ((HangsOn.iff_of_parent hparent).1 hon).resolve_left hne
  have hpne : parent ≠ root := by
    rintro rfl
    exact Context.kind_ne_of_isA hisA (by decide) hroot
  have hmem : parent ∈ cx.states s :=
    Context.mem_find_iff.2 ⟨hs.mem_descendants_iff.2 ⟨hpne, hpon⟩, hisA⟩
  -- The list is in the order of positions, and what stands above comes first.
  have hlt := hs.position_lt hpon (.single hparent) (hs.parent_ne hparent).symm
  have hsorted : (cx.states s).Pairwise fun v w => s.position v < s.position w :=
    pairwise_states hs
  rw [hnext] at hmem hsorted
  refine (List.mem_append.1 hmem).resolve_right fun hrest => ?_
  have hrest' := (List.mem_cons.1 hrest).resolve_left (hs.parent_ne hparent)
  have hgt := (List.pairwise_cons.1 (List.pairwise_append.1 hsorted).2.1).1 parent hrest'
  omega

include hnext h in
/-- What was a rule, or is a state that is lowered, has got its selector. -/
theorem StatesReplaced.selectorOf_standIn {x : NodeId} (hhas : s.Has x)
    (hx : s.kind x = .rule ∨ x ∈ done) :
    t.kind (standIn s (cx.states s) done x) = .rule ∧
      SelectorOf cx s x (t.selector (standIn s (cx.states s) done x)) := by
  rcases hx with hrule | hmem
  · have hnot : x ∉ done := fun hmem =>
      not_mem_states_of_rule hrule (hnext ▸ List.mem_append_left _ hmem)
    rw [standIn_of_not_mem hnot, Sheet.kind, Sheet.selector, h.content_old x hhas]
    exact ⟨hrule, .rule hrule⟩
  · obtain ⟨selector, hgives, hcontent⟩ := h.content_new x hmem
    rw [standIn_of_mem hmem, Sheet.kind, Sheet.selector, hcontent]
    exact ⟨rfl, hgives⟩

include hs hroot hnext h hparent in
/-- What the next state stands in then stands beside the rule that all of them stand in. -/
theorem StatesReplaced.exists_beside (hin : s.kind parent = .rule ∨ parent ∈ done) :
    ∃ r container, cx.IsStateIn s r a ∧ s.kind r = .rule ∧ t.parent r = some container ∧
      t.parent (standIn s (cx.states s) done parent) = some container := by
  have hmem : a ∈ cx.states s := mem_states_next hnext
  have hisA := isA_of_mem_states hmem
  rcases hin with hrule | hdone
  · -- A rule is never lowered, so that it stands where it stood, and is the one looked for.
    have hdirect : cx.IsStateIn s parent a := .direct hisA hparent
    obtain ⟨hne, hon⟩ := hdirect.hangsOn_root hs hroot hrule (hangsOn_of_mem_states hs hmem).2
    have hnot : parent ∉ done := fun hmem =>
      not_mem_states_of_rule hrule (hnext ▸ List.mem_append_left _ hmem)
    have hatt := h.attached hs hroot hnext hon
    rw [standIn_of_not_mem hnot] at hatt ⊢
    obtain ⟨container, hcontainer, -⟩ := (HangsOn.iff_parent.1 hatt).resolve_left hne
    exact ⟨parent, container, hdirect, hrule, hcontainer, hcontainer⟩
  · -- The rule for a state was put beside the one that its state stood in.
    obtain ⟨r, container, hr, hrule, hrc, hnew⟩ := h.beside parent hdone
    rw [standIn_of_mem hdone]
    exact ⟨r, container, .nested hisA hparent hr, hrule, hrc, hnew⟩

include hs hroot hnext h in
/-- The next state is still part of the text when it is lowered. -/
theorem StatesReplaced.isAttached_next : t.isAttached a = true := by
  have hmem : a ∈ cx.states s := mem_states_next hnext
  have hhas := Context.has_of_isA (isA_of_mem_states hmem)
  have hon := h.attached hs hroot hnext (hangsOn_of_mem_states hs hmem).2
  rw [standIn_of_not_mem (not_mem_done hs hnext)] at hon
  exact (h.forest.isAttached_iff (h.has_old hhas)).2 hon

include hs hnext h in
/-- One state more, if its rule comes behind a node that stands beside what all of them stand in. -/
theorem StatesReplaced.follow {r enclosing container anchor : NodeId} {selector : String}
    (hgives : SelectorOf cx s a selector) (hup : t.parent a = some enclosing)
    (hupc : t.parent enclosing = some container) (hanchor : t.parent anchor = some container)
    (hstate : cx.IsStateIn s r a) (hr : s.kind r = .rule) (hrc : t.parent r = some container)
    (hleads : (Edit.follow t a container anchor selector).Leads t u) :
    StatesReplaced cx s (done ++ [a]) u := by
  have hisA := isA_of_mem_states (mem_states_next hnext)
  have hhas := Context.has_of_isA hisA
  have hout : a ∉ done := not_mem_done hs hnext
  have hnd : (cx.states s).Nodup := nodup_states hs
  have hruleFor : ruleFor s (cx.states s) a = ⟨t.nodes.size⟩ := by
    rw [ruleFor_next hnext hnd, h.size_eq]
  have hold : ∀ {x}, s.Has x → t.Has x := h.has_old
  have hdone : ∀ {w}, w ∈ done → t.Has w := fun hw =>
    hold (Context.has_of_isA (isA_of_mem_states (hnext ▸ List.mem_append_left _ hw)))
  -- The state stands one step deeper than its rule will, so it need not be taken out there.
  have hfree : a ∉ t.children container := by
    intro hmem
    have heq := Option.some.inj (hup.symm.trans (h.forest.mem_children_iff.1 hmem))
    exact h.forest.parent_ne hupc heq.symm
  constructor
  case forest => exact hleads.forest
  case size_eq => exact hleads.size_concat h.size_eq rfl
  case inputs_eq => exact hleads.inputs_eq.trans h.inputs_eq
  case content_old =>
    intro x hx
    exact (hleads.content_eq x (hold hx)).trans (h.content_old x hx)
  case source_old =>
    intro x hx
    exact (hleads.source_eq x (hold hx)).trans (h.source_old x hx)
  case content_new =>
    intro w hw
    rcases List.mem_append.1 hw with hw | hw
    · rw [hleads.content_eq _ (h.has_new hnext hw)]
      exact h.content_new w hw
    · rw [List.mem_singleton.1 hw]
      exact ⟨selector, hgives, hleads.content_ruleFor_next h.size_eq hnext hnd rfl⟩
  case source_new =>
    exact hleads.source_ruleFor h.size_eq hnext hnd rfl (h.source_old a hhas) h.source_new
  case parent_gone =>
    intro w hw
    refine hleads.parent_eq_none_of_follow h.forest (hold hhas) hfree ?_
    exact (List.mem_append.1 hw).symm.imp List.mem_singleton.1 fun hw =>
      ⟨hdone hw, h.parent_gone w hw⟩
  case children_gone =>
    intro w hw
    have hfull : t.children container ≠ [] :=
      List.ne_nil_of_mem (h.forest.mem_children_iff.2 hupc)
    refine hleads.children_eq_nil_of_follow hfull ?_
    exact (List.mem_append.1 hw).symm.imp List.mem_singleton.1 fun hw =>
      ⟨hdone hw, h.children_gone w hw⟩
  case children_old =>
    intro x hx
    -- The new rule is no node of `s`, so the filter does not see where it was put.
    have hP : decide (s.Has ⟨t.nodes.size⟩) = false := decide_eq_false fun hhas =>
      not_has_new t (hold hhas)
    have hstand : t.Has (standIn s (cx.states s) done x) := has_standIn h.size_eq hnext hx
    have hfilter := hleads.filter_children_of_follow h.forest (P := fun c => decide (s.Has c)) hP
      hfree hstand
    rw [← standIn_concat hhas hout, hruleFor, hfilter, List.filter_comm, h.children_old x hx,
      List.filter_filter]
    exact List.filter_congr fun c _ => by simp [and_comm]
  case beside =>
    have hne : ∀ {x}, s.kind x = .rule → x ≠ a := by
      rintro x hx rfl
      exact Context.kind_ne_of_isA hisA (by decide) hx
    intro w hw
    rcases List.mem_append.1 hw with hw | hw
    · obtain ⟨r, k, hstate, hr, hrk, hwk⟩ := h.beside w hw
      exact ⟨r, _, hstate, hr, hleads.parent_of_follow h.forest.toIsLinked hrk (hne hr),
        hleads.parent_of_follow h.forest.toIsLinked hwk (ruleFor_ne hhas)⟩
    · -- The container itself does not go, as the state stands below it.
      have hac : container ≠ a := by
        rintro rfl
        exact h.forest.not_hangsOn_child hup (.single hupc)
      have hrc' := hleads.parent_of_follow h.forest.toIsLinked hrc (hne hr)
      rw [if_neg hac] at hrc'
      rw [List.mem_singleton.1 hw, hruleFor]
      exact ⟨r, container, hstate, hr, hrc', hleads.parent_new_of_follow h.forest hanchor⟩

include hs hroot hnext h hparent in
/-- The next state can be lowered, and then it is one more. -/
theorem StatesReplaced.next (hin : s.kind parent = .rule ∨ cx.isA s .when parent = true)
    {p : Progress} (hp : p.sheet = t) (emitted : List (NodeId × NodeId)) :
    ∃ emitted' u, lowerState cx (emitted, p) a =
        .ok (emitted', ⟨u, p.warnings, p.stats + { states := 1 }⟩) ∧
      StatesReplaced cx s (done ++ [a]) u := by
  subst hp
  have hisA := isA_of_mem_states (mem_states_next hnext)
  have hlowered : s.kind parent = .rule ∨ parent ∈ done :=
    hin.imp_right (mem_done_of_parent hs hroot hnext hparent)
  obtain ⟨r, container, hstate, hr, hrc, hupc⟩ := h.exists_beside hs hroot hnext hparent hlowered
  obtain ⟨hkind, hgives⟩ := h.selectorOf_standIn hnext (hs.has_parent hparent) hlowered
  have hup := h.parent_eq hs hparent (not_mem_done hs hnext)
  obtain ⟨u, hu, hleads⟩ := lowerState_eq_ok (p := p) h.forest (h.isAttached_next hs hroot hnext)
    (enclosingRule?_of_parent hup hkind hupc) emitted
  have hparams : p.sheet.params a = s.params a := by
    rw [Sheet.params, Sheet.params, h.content_old a (Context.has_of_isA hisA)]
  have hselector : SelectorOf cx s a (stateSelector cx.convention
      (p.sheet.selector (standIn s (cx.states s) done parent)) (p.sheet.params a)) := by
    rw [hparams]
    exact .state hisA hparent hgives
  exact ⟨_, u, hu, h.follow hs hnext hselector hup hupc (parent_stateAnchor emitted hupc) hstate hr
    hrc hleads⟩

end Next

include hs hws h in
/-- Nothing comes into the text that was not part of it. -/
theorem StatesReplaced.hangsOn_old {x : NodeId} (hon : t.HangsOn x root) (hx : s.Has x)
    (hout : x ∉ done) : s.HangsOn x root := by
  induction hon using Relation.ReflTransGen.head_induction_on with
  | refl => exact HangsOn.refl s root
  | @head x y hxy _ ih =>
    have hmem := h.forest.mem_children_iff.2 hxy
    have hold : ∀ {z}, s.Has z → y = standIn s (cx.states s) done z → s.parent x = some z := by
      intro z hz hyz
      have hkept : x ∈ (t.children y).filter (s.Has ·) :=
        List.mem_filter.2 ⟨hmem, by simpa using hx⟩
      rw [hyz, h.children_old z hz] at hkept
      exact hs.mem_children_iff.1 (List.mem_filter.1 hkept).1
    by_cases hy : s.Has y
    · have hyout : y ∉ done := fun hdone => by
        rw [h.children_gone y hdone] at hmem
        cases hmem
      exact .head (hold hy (standIn_of_not_mem hyout).symm) (ih hy hyout)
    · obtain ⟨w, hw, hyw⟩ := h.exists_ruleFor hs hws (h.forest.has_parent hxy) hy
      have hwmem : w ∈ cx.states s := hws ▸ List.mem_append_left _ hw
      have hwhas := Context.has_of_isA (isA_of_mem_states hwmem)
      exact .head (hold hwhas (hyw.trans (standIn_of_mem hw).symm))
        (hangsOn_of_mem_states hs hwmem).2

include hs hroot hws h in
/-- The states of the text are those that are left. -/
theorem StatesReplaced.mem_states_iff {x : NodeId} : x ∈ cx.states t ↔ x ∈ rest := by
  constructor
  · intro hx
    obtain ⟨hne, hon⟩ := hangsOn_of_mem_states h.forest hx
    have hisA := isA_of_mem_states hx
    by_cases hold : s.Has x
    · rw [Context.isA_congr (h.content_old x hold)] at hisA
      have hout : x ∉ done := fun hdone =>
        hne ((HangsOn.iff_eq_of_parent_none (h.parent_gone x hdone)).1 hon)
      have hmem : x ∈ cx.states s := Context.mem_find_iff.2
        ⟨hs.mem_descendants_iff.2 ⟨hne, h.hangsOn_old hs hws hon hold hout⟩, hisA⟩
      rw [hws] at hmem
      exact (List.mem_append.1 hmem).resolve_left hout
    · -- What is new is a rule.
      obtain ⟨w, hw, rfl⟩ := h.exists_ruleFor hs hws (Context.has_of_isA hisA) hold
      obtain ⟨selector, -, hcontent⟩ := h.content_new w hw
      have hrule : t.kind (ruleFor s (cx.states s) w) = .rule := by
        rw [Sheet.kind, hcontent]
        rfl
      exact absurd hrule (Context.kind_ne_of_isA hisA (by decide))
  · intro hx
    have hmem : x ∈ cx.states s := hws ▸ List.mem_append_right _ hx
    have hout : x ∉ done := fun hdone =>
      List.disjoint_of_nodup_append (hws ▸ nodup_states hs) hdone hx
    obtain ⟨hne, hon⟩ := hangsOn_of_mem_states hs hmem
    have hisA := isA_of_mem_states hmem
    have hatt := h.attached hs hroot hws hon
    rw [standIn_of_not_mem hout] at hatt
    refine Context.mem_find_iff.2 ⟨h.forest.mem_descendants_iff.2 ⟨hne, hatt⟩, ?_⟩
    rwa [Context.isA_congr (h.content_old x (Context.has_of_isA hisA))]

end Replaced

/-! ## All states are lowered -/

/-- The states `todo` are lowered one after the other, if each stands in a rule or in a state. -/
theorem statesReplaced_foldlM (hs : s.IsForest) (hroot : s.kind root = .root)
    {done todo rest : List NodeId} (hws : cx.states s = done ++ (todo ++ rest))
    (hin : ∀ w ∈ todo, ∀ p ∈ s.parent w, s.kind p = .rule ∨ cx.isA s .when p = true)
    {p : Progress} (h : StatesReplaced cx s done p.sheet) (emitted : List (NodeId × NodeId)) :
    ∃ emitted' t, todo.foldlM (lowerState cx) (emitted, p) =
        .ok (emitted', ⟨t, p.warnings, p.stats + { states := todo.length }⟩) ∧
      StatesReplaced cx s (done ++ todo) t := by
  have hrun : ∃ last, todo.foldlM (lowerState cx) (emitted, p) = .ok last ∧
      last.2.warnings = p.warnings ∧ last.2.stats = p.stats + { states := todo.length } ∧
        StatesReplaced cx s (done ++ todo) last.2.sheet := by
    refine exists_foldlM_steps (P := fun part (last : List (NodeId × NodeId) × Progress) =>
      last.2.warnings = p.warnings ∧ last.2.stats = p.stats + { states := part.length } ∧
        StatesReplaced cx s (done ++ part) last.2.sheet) ?_
      ⟨rfl, (Stats.add_zero _).symm, by rwa [List.append_nil]⟩
    rintro part a later ⟨emitted, q⟩ heq ⟨hwarnings, hstats, hq⟩
    have hmem : a ∈ todo := heq ▸ List.mem_append_right part List.mem_cons_self
    -- The list stays that of `s`, however often the sheet has changed.
    have hnext : cx.states s = (done ++ part) ++ a :: (later ++ rest) := by
      rw [hws, heq]
      simp
    obtain ⟨hne, hon⟩ := hangsOn_of_mem_states hs (mem_states_next hnext)
    obtain ⟨parent, hparent, -⟩ := (HangsOn.iff_parent.1 hon).resolve_left hne
    obtain ⟨emitted', u, hu, hlast⟩ := hq.next hs hroot hnext hparent
      (hin a hmem parent hparent) rfl emitted
    refine ⟨(emitted', ⟨u, _, _⟩), hu, hwarnings, ?_, by rwa [← List.append_assoc]⟩
    change q.stats + { states := 1 } = _
    rw [hstats, Stats.add_assoc, List.length_append]
    rfl
  obtain ⟨⟨emitted', t, warnings, stats⟩, hq, rfl, rfl, hreplaced⟩ := hrun
  exact ⟨emitted', t, hq, hreplaced⟩

/-- What comes of the states of a sheet `s`: the rule `ruleOf w` of each state `w`, and nothing else
is new. -/
structure RulesForStates (cx : Context) (s : Sheet) (ruleOf : NodeId → NodeId) (t : Sheet) :
    Prop where
  forest : t.IsForest
  size_eq : t.nodes.size = s.nodes.size + (cx.states s).length
  /-- There is one rule for each state, and there are no other new nodes. -/
  bijOn : Set.BijOn ruleOf {w | w ∈ cx.states s} {x | t.Has x ∧ ¬ s.Has x}
  selector : ∀ w ∈ cx.states s, ∃ selector, SelectorOf cx s w selector ∧
    t.content (ruleOf w) = .rule selector
  source : ∀ w ∈ cx.states s, t.source (ruleOf w) = s.source w
  /-- The rule stands beside the nearest node above the state that is no state itself. -/
  beside : ∀ w ∈ cx.states s, ∃ r container, cx.IsStateIn s r w ∧ cx.isA s .when r = false ∧
    t.parent r = some container ∧ t.parent (ruleOf w) = some container
  /-- Without the new rules, a node has the children that it had, except for the states. -/
  children_kept : ∀ x, s.Has x → x ∉ cx.states s →
    (t.children x).filter (s.Has ·) = (s.children x).filter (· ∉ cx.states s)
  /-- The rule for a state has those that the state had. -/
  children_moved : ∀ w ∈ cx.states s,
    (t.children (ruleOf w)).filter (s.Has ·) = (s.children w).filter (· ∉ cx.states s)
  /-- The states are taken out. -/
  parent_gone : ∀ w ∈ cx.states s, t.parent w = none
  children_gone : ∀ w ∈ cx.states s, t.children w = []
  none_left : cx.states t = []
  content_eq : ∀ x, s.Has x → t.content x = s.content x
  source_eq : ∀ x, s.Has x → t.source x = s.source x
  inputs_eq : t.inputs = s.inputs

section All

variable (hs : s.IsForest) (hroot : s.kind root = .root)
  (h : StatesReplaced cx s (cx.states s) t)

include hs hroot h

theorem StatesReplaced.states_eq_nil : cx.states t = [] :=
  List.eq_nil_iff_forall_not_mem.2 fun _ hx => List.not_mem_nil
    ((h.mem_states_iff hs hroot (List.append_nil _).symm).1 hx)

theorem StatesReplaced.rulesForStates :
    RulesForStates cx s (ruleFor s (cx.states s)) t := by
  have hws : cx.states s = cx.states s ++ [] := (List.append_nil _).symm
  have hhas : ∀ {w}, w ∈ cx.states s → s.Has w := fun hw =>
    Context.has_of_isA (isA_of_mem_states hw)
  constructor
  case forest => exact h.forest
  case size_eq => exact h.size_eq
  case bijOn =>
    refine ⟨fun w hw => ⟨h.has_new hws hw, fun hold => ruleFor_ne hold rfl⟩, ?_, ?_⟩
    · intro v hv w hw heq
      have hstand : standIn s (cx.states s) (cx.states s) v =
          standIn s (cx.states s) (cx.states s) w := by
        rwa [standIn_of_mem hv, standIn_of_mem hw]
      exact standIn_inj (List.Subset.refl _) (hhas hv) (hhas hw) hstand
    · rintro x ⟨hx, hnew⟩
      obtain ⟨w, hw, rfl⟩ := h.exists_ruleFor hs hws hx hnew
      exact ⟨w, hw, rfl⟩
  case selector => exact h.content_new
  case source => exact h.source_new
  case beside =>
    intro w hw
    obtain ⟨r, container, hstate, hr, hrc, hnew⟩ := h.beside w hw
    have hno : cx.isA s .when r = false :=
      Bool.eq_false_iff.2 fun hisA => Context.kind_ne_of_isA hisA (by decide) hr
    exact ⟨r, container, hstate, hno, hrc, hnew⟩
  case children_kept =>
    intro x hx hout
    have hchildren := h.children_old x hx
    rwa [standIn_of_not_mem hout] at hchildren
  case children_moved =>
    intro w hw
    have hchildren := h.children_old w (hhas hw)
    rwa [standIn_of_mem hw] at hchildren
  case parent_gone => exact h.parent_gone
  case children_gone => exact h.children_gone
  case none_left => exact h.states_eq_nil hs hroot
  case content_eq => exact h.content_old
  case source_eq => exact h.source_old
  case inputs_eq => exact h.inputs_eq

end All

/-- If every state of the text stands in a rule or in another state, the pass over the states goes
through, none is left, and what comes of them is as said. -/
theorem lowerStates_rules (cx : Context) {p : Progress} (hs : p.sheet.IsForest)
    (hroot : p.sheet.kind root = .root)
    (hin : ∀ w ∈ cx.states p.sheet, ∀ parent ∈ p.sheet.parent w,
      p.sheet.kind parent = .rule ∨ cx.isA p.sheet .when parent = true) :
    ∃ t ruleOf, lowerStates cx p =
        .ok ⟨t, p.warnings, p.stats + { states := (cx.states p.sheet).length }⟩ ∧
      RulesForStates cx p.sheet ruleOf t := by
  have hws : cx.states p.sheet = [] ++ (cx.states p.sheet ++ []) := (List.append_nil _).symm
  obtain ⟨emitted, t, ht, h⟩ := statesReplaced_foldlM hs hroot hws hin
    (.nil hs) []
  refine ⟨t, _, ?_, h.rulesForStates hs hroot⟩
  rw [lowerStates, ht]
  rfl

/-- For instance, if states stand in a rule with two selectors, one of them in another one. -/
theorem lowerStates_rules_nested :
    let s := read [(.ofFile "a.css", ".A, .B { @when a, b { @when c {} } @when d {} }")]
    ∃ t ruleOf, lowerStates (.ofOptions {}) { sheet := s } =
        .ok ⟨t, [], {} + { states := ((Context.ofOptions {}).states s).length }⟩ ∧
      RulesForStates (.ofOptions {}) s ruleOf t ∧
      t.content (ruleOf ⟨2⟩) = .rule ".A.is-a, .A.is-b, .B.is-a, .B.is-b" ∧
      t.content (ruleOf ⟨3⟩) = .rule ".A.is-a.is-c, .A.is-b.is-c, .B.is-a.is-c, .B.is-b.is-c" ∧
      t.content (ruleOf ⟨4⟩) = .rule ".A.is-d, .B.is-d" := by
  intro s
  have hs : s.IsForest := (isSound_read _).toIsForest
  obtain ⟨hroot, hin, hrule, hselector, hstates⟩ : s.kind root = .root ∧
      (∀ w ∈ (Context.ofOptions {}).states s, ∀ parent ∈ s.parent w,
        s.kind parent = .rule ∨ (Context.ofOptions {}).isA s .when parent = true) ∧
      s.kind ⟨1⟩ = .rule ∧ s.selector ⟨1⟩ = ".A, .B" ∧
      ∀ w ∈ [(⟨2⟩, ⟨1⟩, "a, b"), (⟨3⟩, ⟨2⟩, "c"), (⟨4⟩, ⟨1⟩, "d")],
        w.1 ∈ (Context.ofOptions {}).states s ∧ s.parent w.1 = some w.2.1 ∧
          s.params w.1 = w.2.2 := by decide +kernel
  simp only [List.forall_mem_cons] at hstates
  obtain ⟨⟨htwo, hparent₂, hparams₂⟩, ⟨hthree, hparent₃, hparams₃⟩, ⟨hfour, hparent₄, hparams₄⟩,
    -⟩ := hstates
  obtain ⟨t, ruleOf, ht, hrules⟩ := lowerStates_rules (.ofOptions {}) (p := { sheet := s }) hs hroot
    hin
  -- What a state is given decides its selector, and so what its rule says.
  have hgives : ∀ {w p given selector}, w ∈ (Context.ofOptions {}).states s →
      s.parent w = some p → SelectorOf (.ofOptions {}) s p given →
      (", ".intercalate ((splitComma given).flatMap fun part => (splitComma (s.params w)).map
        fun state => (Context.ofOptions {}).convention.joinState part state)) = selector →
      SelectorOf (.ofOptions {}) s w selector := by
    rintro w p given _ hw hp hgiven rfl
    exact .state (isA_of_mem_states hw) hp hgiven
  have hsays : ∀ {w selector}, w ∈ (Context.ofOptions {}).states s →
      SelectorOf (.ofOptions {}) s w selector → t.content (ruleOf w) = .rule selector := by
    intro w selector hw hselector
    obtain ⟨other, hother, hcontent⟩ := hrules.selector w hw
    rw [hcontent, hother.unique hselector]
  have hone : SelectorOf (.ofOptions {}) s ⟨1⟩ ".A, .B" := hselector ▸ .rule hrule
  have hfirst : SelectorOf (.ofOptions {}) s ⟨2⟩ ".A.is-a, .A.is-b, .B.is-a, .B.is-b" :=
    hgives htwo hparent₂ hone (by rw [hparams₂]; decide +kernel)
  have hinner : SelectorOf (.ofOptions {}) s ⟨3⟩
      ".A.is-a.is-c, .A.is-b.is-c, .B.is-a.is-c, .B.is-b.is-c" :=
    hgives hthree hparent₃ hfirst (by rw [hparams₃]; decide +kernel)
  have hlast : SelectorOf (.ofOptions {}) s ⟨4⟩ ".A.is-d, .B.is-d" :=
    hgives hfour hparent₄ hone (by rw [hparams₄]; decide +kernel)
  exact ⟨t, ruleOf, ht, hrules, hsays htwo hfirst, hsays hthree hinner, hsays hfour hlast⟩

end ClassRules.Lowering
