import ClassRules.Proofs.Lowering.Resolution

/-!
# The order of the rules for states

The rules for the states in a rule come to stand behind it, beside one another. A state that follows
others in the same rule goes right behind the last of theirs, and so before those for the states in
them.

## What this module delivers

- `Context.IsStateIn`: a state stands in a rule, directly or in other states.
- `sublist_putFor`, `pair_sublist_putFor`: how nodes stand after one was put behind another.
- `ruleFor`, `StatesLowered`: where everything is once some states are lowered.
- `StatesLowered.exists_anchor`: what stands before the place for the next rule, and what behind.
- `StatesOrdered`: how the rules for the states in a rule stand, step by step.
- `lowerStates_order`: how they stand at the end of a run.
- `lowerStates_order_nested`: this is not the order of the states.
-/

set_option autoImplicit false

namespace ClassRules.Lowering

open Sheet

variable {cx : Context} {s t u : Sheet}

/-! ## States in a rule -/

/-- The states of the text. -/
abbrev Context.states (cx : Context) (s : Sheet) : List NodeId :=
  cx.find s root .when

/-- A state stands in a rule, directly or in other states that do. -/
inductive Context.IsStateIn (cx : Context) (s : Sheet) (r : NodeId) : NodeId → Prop
  | direct {w : NodeId} : cx.isA s .when w = true → s.parent w = some r → IsStateIn cx s r w
  | nested {w p : NodeId} : cx.isA s .when w = true → s.parent w = some p →
      IsStateIn cx s r p → IsStateIn cx s r w

namespace Context.IsStateIn

variable {r w : NodeId}

theorem isA (h : cx.IsStateIn s r w) : cx.isA s .when w = true := by
  cases h with
  | direct hw _ => exact hw
  | nested hw _ _ => exact hw

theorem hangsOn (h : cx.IsStateIn s r w) : s.HangsOn w r := by
  induction h with
  | direct _ hp => exact .single hp
  | nested _ hp _ ih => exact .head hp ih

theorem ne (hs : s.IsForest) (h : cx.IsStateIn s r w) : w ≠ r := by
  rintro rfl
  cases h with
  | direct _ hp => exact hs.parent_ne hp rfl
  | nested _ hp hin => exact hs.not_hangsOn_child hp hin.hangsOn

/-- Where a state stands is the rule, or a state in it. -/
theorem parent_cases (h : cx.IsStateIn s r w) {p : NodeId} (hp : s.parent w = some p) :
    p = r ∨ cx.IsStateIn s r p := by
  cases h with
  | direct _ hp' => exact .inl (Option.some.inj (hp.symm.trans hp'))
  | nested _ hp' hin => exact .inr (Option.some.inj (hp.symm.trans hp') ▸ hin)

/-- What stands between a rule and a state in it is such a state. -/
theorem of_hangsOn (hs : s.IsForest) (h : cx.IsStateIn s r w) {x : NodeId} (hwx : s.HangsOn w x)
    (hxr : s.HangsOn x r) (hne : x ≠ r) : cx.IsStateIn s r x := by
  induction h with
  | @direct w hw hp =>
    rcases HangsOn.iff_parent.1 hwx with rfl | ⟨p, hp', hpx⟩
    · exact .direct hw hp
    · obtain rfl := Option.some.inj (hp.symm.trans hp')
      exact absurd (hs.antisymm hxr hpx) hne
  | @nested w p hw hp hin ih =>
    rcases HangsOn.iff_parent.1 hwx with rfl | ⟨p', hp', hpx⟩
    · exact .nested hw hp hin
    · obtain rfl := Option.some.inj (hp.symm.trans hp')
      exact ih hpx

end Context.IsStateIn

/-! ## Two nodes in a list -/

theorem exists_of_pair_sublist {a b : NodeId} {l : List NodeId} (h : [a, b].Sublist l) :
    ∃ front back, l = front ++ a :: back ∧ b ∈ back := by
  obtain ⟨l₁, l₂, rfl, ha, hb⟩ := List.cons_sublist_iff.1 h
  obtain ⟨front, back, rfl⟩ := List.append_of_mem ha
  exact ⟨front, back ++ l₂, by simp, List.mem_append_right _ (List.singleton_sublist.1 hb)⟩

theorem pair_sublist_append {a b : NodeId} (front : List NodeId) {back : List NodeId}
    (hb : b ∈ back) : [a, b].Sublist (front ++ a :: back) :=
  (List.cons_sublist_cons.2 (List.singleton_sublist.2 hb)).trans (List.sublist_append_right _ _)

section Put

variable {anchor new x : NodeId} {l : List NodeId}

/-- A new node behind another one leaves the others in their order. -/
theorem sublist_putFor (anchor new : NodeId) (l : List NodeId) :
    l.Sublist (putFor anchor [anchor, new] l) := by
  induction l with
  | nil => exact .slnil
  | cons c l ih =>
    rw [putFor, List.flatMap_cons, ← putFor]
    split
    · rename_i h
      exact h ▸ .cons_cons anchor (.cons new ih)
    · exact .cons_cons c ih

/-- What stood before the anchor, or is the anchor, stands before the new node. -/
theorem pair_sublist_putFor_new (hnd : l.Nodup) (hanchor : anchor ∈ l)
    (h : x = anchor ∨ [x, anchor].Sublist l) :
    [x, new].Sublist (putFor anchor [anchor, new] l) := by
  rcases h with rfl | h
  · obtain ⟨front, back, rfl⟩ := List.append_of_mem hanchor
    rw [putFor_eq rfl hnd, List.append_assoc]
    exact pair_sublist_append front List.mem_cons_self
  · obtain ⟨front, back, rfl, hmem⟩ := exists_of_pair_sublist h
    obtain ⟨middle, back, rfl⟩ := List.append_of_mem hmem
    have heq : front ++ x :: (middle ++ anchor :: back) =
        (front ++ x :: middle) ++ anchor :: back := by simp
    rw [putFor_eq heq hnd]
    simp only [List.append_assoc, List.cons_append]
    exact pair_sublist_append front (by simp)

/-- What stood behind the anchor stands behind the new node. -/
theorem pair_sublist_putFor_old (hnd : l.Nodup) (h : [anchor, x].Sublist l) :
    [new, x].Sublist (putFor anchor [anchor, new] l) := by
  obtain ⟨front, back, rfl, hmem⟩ := exists_of_pair_sublist h
  rw [putFor_eq rfl hnd]
  have heq : front ++ [anchor, new] ++ back = (front ++ [anchor]) ++ new :: back := by simp
  rw [heq]
  exact pair_sublist_append _ hmem

end Put

/-! ## Where the nodes go -/

/-- The rule for the at-rule `w`, if the at-rules `ws` are lowered one after the other. -/
def ruleFor (s : Sheet) (ws : List NodeId) (w : NodeId) : NodeId :=
  ⟨s.nodes.size + ws.idxOf w⟩

/-- What is found in the place of a node once the at-rules `done` among `ws` are lowered. -/
def standIn (s : Sheet) (ws done : List NodeId) (x : NodeId) : NodeId :=
  if x ∈ done then ruleFor s ws x else x

/-- The last one of `done` that stood directly in `p`. -/
def lastIn? (s : Sheet) (done : List NodeId) (p : NodeId) : Option NodeId :=
  (done.filter fun w => s.parent w = some p).getLast?

/-- The states `done` among `ws` are lowered. All other nodes are where they were, or in the rules
for states that they were in. -/
structure StatesLowered (s : Sheet) (ws done : List NodeId) (emitted : List (NodeId × NodeId))
    (t : Sheet) : Prop where
  sound : t.IsSound
  size_eq : t.nodes.size = s.nodes.size + done.length
  content_eq : ∀ x, s.Has x → t.content x = s.content x
  source_old : ∀ x, s.Has x → t.source x = s.source x
  source_new : ∀ w ∈ done, t.source (ruleFor s ws w) = s.source w
  attached : ∀ x, s.Has x → x ∉ done → t.HangsOn x root
  parent_eq : ∀ x p, s.parent x = some p → x ∉ done → t.parent x = some (standIn s ws done p)
  emitted_eq : ∀ p, s.Has p →
    emitted.lookup (standIn s ws ws p) = (lastIn? s done p).map (ruleFor s ws)

section Step

variable {ws done rest : List NodeId} {emitted : List (NodeId × NodeId)} {a : NodeId}

theorem standIn_of_not_mem {x : NodeId} (h : x ∉ done) : standIn s ws done x = x :=
  if_neg h

theorem standIn_of_mem {x : NodeId} (h : x ∈ done) : standIn s ws done x = ruleFor s ws x :=
  if_pos h

theorem ruleFor_ne {w x : NodeId} (hx : s.Has x) : ruleFor s ws w ≠ x := by
  rintro rfl
  simp only [Has, ruleFor] at hx
  omega

/-- A node that was there before is found in no other place than its own. -/
theorem eq_of_standIn_eq {x : NodeId} (ha : s.Has a) (h : standIn s ws done x = a) : x = a := by
  by_cases hmem : x ∈ done
  · rw [standIn_of_mem hmem] at h
    exact absurd h (ruleFor_ne ha)
  · rwa [standIn_of_not_mem hmem] at h

/-- Different nodes have different ones in their place. -/
theorem standIn_inj {x y : NodeId} (hsub : done ⊆ ws) (hx : s.Has x) (hy : s.Has y)
    (h : standIn s ws done x = standIn s ws done y) : x = y := by
  by_cases hyw : y ∈ done
  · by_cases hxw : x ∈ done
    · rw [standIn_of_mem hxw, standIn_of_mem hyw, ruleFor, ruleFor, NodeId.mk.injEq,
        Nat.add_left_cancel_iff] at h
      exact (List.idxOf_inj (hsub hxw)).1 h
    · rw [standIn_of_not_mem hxw] at h
      exact (eq_of_standIn_eq hx h.symm).symm
  · rw [standIn_of_not_mem hyw] at h
    exact eq_of_standIn_eq hy h

/-- When one at-rule more is lowered, its rule stands in its place. -/
theorem standIn_concat (ha : s.Has a) (hout : a ∉ done) (x : NodeId) :
    (if standIn s ws done x = a then ruleFor s ws a else standIn s ws done x) =
      standIn s ws (done ++ [a]) x := by
  by_cases hxa : x = a
  · rw [hxa, standIn_of_not_mem hout, if_pos rfl, standIn_of_mem (by simp)]
  · by_cases hx : x ∈ done
    · rw [standIn_of_mem hx, if_neg (ruleFor_ne ha), standIn_of_mem (List.mem_append_left _ hx)]
    · rw [standIn_of_not_mem hx, if_neg hxa, standIn_of_not_mem (by simp [hx, hxa])]

/-- What is lowered next has not been lowered. -/
theorem not_mem_of_next (hws : ws = done ++ a :: rest) (hnd : ws.Nodup) : a ∉ done := fun hmem =>
  List.disjoint_of_nodup_append (hws ▸ hnd) hmem List.mem_cons_self

/-- The rule for the next at-rule is made next. -/
theorem ruleFor_next (hws : ws = done ++ a :: rest) (hnd : ws.Nodup) :
    ruleFor s ws a = ⟨s.nodes.size + done.length⟩ := by
  rw [ruleFor, hws, List.idxOf_append_of_notMem (not_mem_of_next hws hnd), List.idxOf_cons_self,
    Nat.add_zero]

section New

variable (hsize : t.nodes.size = s.nodes.size + done.length)

include hsize

/-- No node is lost when there are new ones. -/
theorem has_of_size {x : NodeId} (hx : s.Has x) : t.Has x :=
  hx.mono (Nat.le.intro hsize.symm)

theorem has_ruleFor (hws : ws = done ++ rest) {w : NodeId} (hw : w ∈ done) :
    t.Has (ruleFor s ws w) := by
  have hidx := List.idxOf_lt_length_of_mem hw
  simp only [Has, hsize, ruleFor, hws, List.idxOf_append_of_mem hw]
  omega

theorem has_standIn (hws : ws = done ++ rest) {x : NodeId} (hx : s.Has x) :
    t.Has (standIn s ws done x) := by
  by_cases hmem : x ∈ done
  · rw [standIn_of_mem hmem]
    exact has_ruleFor hsize hws hmem
  · rw [standIn_of_not_mem hmem]
    exact has_of_size hsize hx

end New

section NextRule

variable {e : Edit} {rule : NewRule} (hsize : t.nodes.size = s.nodes.size + done.length)
  (hws : ws = done ++ a :: rest) (hnd : ws.Nodup) (h : e.Leads t u) (hrules : e.rules = [rule])

include hsize h hrules in
/-- With the next at-rule lowered there is one node more. -/
theorem Edit.Leads.size_concat : u.nodes.size = s.nodes.size + (done ++ [a]).length := by
  rw [List.length_append, ← Nat.add_assoc, ← hsize, h.size_eq, hrules]
  rfl

include hsize hws hnd h hrules

/-- The new node is the rule for the next at-rule. -/
theorem Edit.Leads.content_ruleFor_next :
    u.content (ruleFor s ws a) = .rule rule.selector := by
  rw [ruleFor_next hws hnd, ← hsize]
  exact h.content_new 0 rule (hrules ▸ rfl)

/-- If it has the position of its at-rule, as those before it have, all of them have. -/
theorem Edit.Leads.source_ruleFor (hsource : rule.source = s.source a)
    (hdone : ∀ w ∈ done, t.source (ruleFor s ws w) = s.source w) :
    ∀ w ∈ done ++ [a], u.source (ruleFor s ws w) = s.source w := by
  intro w hw
  rcases List.mem_append.1 hw with hw | hw
  · exact (h.source_eq _ (has_ruleFor hsize hws hw)).trans (hdone w hw)
  · rw [List.mem_singleton.1 hw, ruleFor_next hws hnd, ← hsize, ← hsource]
    exact h.source_new 0 rule (hrules ▸ rfl)

end NextRule

theorem lastIn?_concat (p : NodeId) : lastIn? s (done ++ [a]) p =
    if s.parent a = some p then some a else lastIn? s done p := by
  rw [lastIn?, List.filter_append]
  split
  · rename_i h
    rw [List.filter_singleton, decide_eq_true h]
    exact List.getLast?_concat
  · rename_i h
    rw [List.filter_singleton, decide_eq_false h]
    exact congrArg List.getLast? (List.append_nil _)

/-- Putting a rule behind another one leaves all other nodes where they were. -/
theorem Edit.Leads.parent_of_follow {container anchor x y : NodeId} {selector : String}
    (ht : t.IsLinked) (h : (Edit.follow t a container anchor selector).Leads t u)
    (hxy : t.parent x = some y) (hne : x ≠ a) :
    u.parent x = some (if y = a then ⟨t.nodes.size⟩ else y) := by
  have hmem := ht.mem_children_iff.2 hxy
  split
  · rename_i heq
    have hnew := h.children_new 0 _ rfl
    exact h.forest.mem_children_iff.1 (hnew ▸ heq ▸ hmem)
  · rename_i hya
    by_cases hyc : y = container
    · have hcontainer : u.children container = putFor anchor [anchor, ⟨t.nodes.size⟩]
          (t.children container) := h.children_container
      rw [hyc] at hmem ⊢
      exact h.forest.mem_children_iff.1 (hcontainer ▸ (sublist_putFor _ _ _).subset hmem)
    · have hother := h.children_other y (ht.has_parent hxy) hyc
        fun hgone => hya (List.mem_singleton.1 hgone)
      refine h.forest.mem_children_iff.1 (hother ▸ List.mem_filter.2 ⟨hmem, ?_⟩)
      simpa [Edit.follow] using hne

/-- Nor does it change the order of other nodes. -/
theorem Edit.Leads.sublist_of_follow {container anchor x y z : NodeId} {selector : String}
    (h : (Edit.follow t a container anchor selector).Leads t u) (hz : t.Has z) (hza : z ≠ a)
    (hx : x ≠ a) (hy : y ≠ a) (hxy : [x, y].Sublist (t.children z)) :
    [x, y].Sublist (u.children z) := by
  by_cases hzc : z = container
  · have hcontainer : u.children container = putFor anchor [anchor, ⟨t.nodes.size⟩]
        (t.children container) := h.children_container
    rw [hzc] at hxy ⊢
    rw [hcontainer]
    exact hxy.trans (sublist_putFor _ _ _)
  · have hother := h.children_other z hz hzc fun hgone => hza (List.mem_singleton.1 hgone)
    have hkept : [x, y].filter (· ∉ [a]) = [x, y] := by simp [hx, hy]
    rw [hother]
    exact hkept ▸ hxy.filter _

/-- One state more. It is not told here where among its siblings the rule comes to stand. -/
theorem StatesLowered.next (hs : s.IsSound) (hws : ws = done ++ a :: rest)
    (hnd : ws.Nodup) (h : StatesLowered s ws done emitted t) (ha : cx.isA s .when a = true)
    {p : Progress} (hp : p.sheet = t) {parent container : NodeId}
    (henclosing : enclosingRule? t a = some (standIn s ws ws parent, container))
    (hparent : s.parent a = some parent) :
    ∃ q, lowerState cx (emitted, p) a =
        .ok ((standIn s ws ws parent, ruleFor s ws a) :: emitted, q) ∧
      StatesLowered s ws (done ++ [a])
        ((standIn s ws ws parent, ruleFor s ws a) :: emitted) q.sheet ∧
      (Edit.follow t a container (stateAnchor emitted t (standIn s ws ws parent) container)
        (stateSelector cx.convention (t.selector (standIn s ws ws parent)) (t.params a))).Leads t
          q.sheet := by
  subst hp
  have hhas := Context.has_of_isA ha
  have hout : a ∉ done := not_mem_of_next hws hnd
  have hrule : ruleFor s ws a = ⟨p.sheet.nodes.size⟩ := by
    rw [ruleFor_next hws hnd, h.size_eq]
  have hold : ∀ {x}, s.Has x → p.sheet.Has x := has_of_size h.size_eq
  have hisA : cx.isA p.sheet .when a = true := by
    rwa [Context.isA_congr (h.content_eq a hhas)]
  have hon := h.attached a hhas hout
  obtain ⟨q, hq, hleads⟩ := lowerState_eq_ok h.sound.toIsForest
    (h.sound.isAttached_iff.2 hon) henclosing emitted
  have hsettled : Settled cx Prod.snd p [] [a] (lowerState cx (emitted, p) a) :=
    lowerState_settled h.sound ⟨.when, hisA⟩
  rw [hq] at hsettled
  obtain ⟨replaced, hlow, hgone, -⟩ := hsettled
  have hex : Exchange cx p.sheet q replaced [] := hlow.exchange
  -- Only one at-rule was replaced, and the state is in the text no more.
  have hreplaced : ∀ x ∈ replaced, x = a := by
    have hlength : replaced.length = 1 :=
      Nat.add_left_cancel (hex.size_eq.symm.trans hleads.size_eq)
    obtain ⟨b, rfl⟩ := List.length_eq_one_iff.1 hlength
    have hab : a ∈ [b] ++ [] := by
      by_contra hkept
      exact hgone a (List.mem_singleton_self a) ((hex.hangsOn_iff a (hold hhas) hkept).2 hon)
    intro x hx
    rw [List.mem_singleton.1 hx, List.mem_singleton.1 hab]
  refine ⟨⟨q, p.warnings, p.stats + { states := 1 }⟩, hrule ▸ hq, ?_, hleads⟩
  constructor
  case sound => exact hex.sound
  case size_eq => exact hleads.size_concat h.size_eq rfl
  case content_eq =>
    intro x hx
    exact (hleads.content_eq x (hold hx)).trans (h.content_eq x hx)
  case source_old =>
    intro x hx
    exact (hleads.source_eq x (hold hx)).trans (h.source_old x hx)
  case source_new =>
    exact hleads.source_ruleFor h.size_eq hws hnd rfl (h.source_old a hhas) h.source_new
  case attached =>
    intro x hx hxout
    rw [List.mem_append, not_or] at hxout
    refine (hex.hangsOn_iff x (hold hx) fun hmem => ?_).2 (h.attached x hx hxout.1)
    rw [List.append_nil] at hmem
    exact hxout.2 (List.mem_singleton.2 (hreplaced x hmem))
  case parent_eq =>
    intro x y hxy hxout
    rw [List.mem_append, not_or, List.mem_singleton] at hxout
    rw [hleads.parent_of_follow h.sound.toIsLinked (h.parent_eq x y hxy hxout.1) hxout.2,
      ← hrule, standIn_concat hhas hout]
  case emitted_eq =>
    intro y hy
    rw [lastIn?_concat, hparent]
    -- Only what the new state stood in has another last one now.
    by_cases hyp : y = parent
    · rw [hyp, if_pos rfl, List.lookup_cons_self]
      rfl
    · have hne : standIn s ws ws y ≠ standIn s ws ws parent := fun e =>
        hyp (standIn_inj (List.Subset.refl ws) hy (hs.has_parent hparent) e)
      rw [if_neg fun e => hyp (Option.some.inj e).symm, List.lookup_cons, beq_false_of_ne hne]
      exact h.emitted_eq y hy

end Step

/-! ## The rules for the states in one rule -/

/-- The states stand in the order of their positions. -/
theorem pairwise_states (hs : s.IsForest) :
    (cx.states s).Pairwise fun a b => s.position a < s.position b := by
  rw [Context.states, find_eq_filter]
  exact ((pairwise_attachedNodes hs).sublist (List.sublist_cons_self root _)).filter _

/-- A search meets no at-rule twice. -/
theorem nodup_find (hs : s.IsForest) (scope : NodeId) (kind : RuleKind) :
    (cx.find s scope kind).Nodup := by
  rw [find_eq_filter]
  exact (hs.nodup_descendants scope).filter _

theorem nodup_states (hs : s.IsForest) : (cx.states s).Nodup :=
  nodup_find hs root .when

theorem not_mem_states_of_rule {r : NodeId} (hr : s.kind r = .rule) : r ∉ cx.states s := by
  intro hmem
  rw [Context.kind_of_isA (Context.mem_find_iff.1 hmem).2] at hr
  cases hr

/-- The rules for the states `done` that stand in `r` are behind `r`. Of two such rules, that for
the later state is behind the other one if that state stands in what the earlier one stood directly
in, and before it otherwise. -/
structure StatesOrdered (cx : Context) (s : Sheet) (ws : List NodeId) (r : NodeId)
    (done : List NodeId) (t : Sheet) : Prop where
  behind : ∀ k, t.parent r = some k → ∀ w ∈ done, cx.IsStateIn s r w →
    [r, ruleFor s ws w].Sublist (t.children k)
  ordered : ∀ k, t.parent r = some k → ∀ v ∈ done, ∀ w ∈ done, cx.IsStateIn s r v →
    cx.IsStateIn s r w → ∀ p, s.parent v = some p → s.position v < s.position w →
      (s.HangsOn w p → [ruleFor s ws v, ruleFor s ws w].Sublist (t.children k)) ∧
        (¬ s.HangsOn w p → [ruleFor s ws w, ruleFor s ws v].Sublist (t.children k))

section Order

variable {ws done rest : List NodeId} {emitted : List (NodeId × NodeId)} {a r k : NodeId}

theorem of_lastIn?_eq_some (hpw : done.Pairwise fun a b => s.position a < s.position b)
    {p w : NodeId} (h : lastIn? s done p = some w) : (w ∈ done ∧ s.parent w = some p) ∧
      ∀ u ∈ done, s.parent u = some p → s.position u ≤ s.position w := by
  obtain ⟨front, hfront⟩ := List.getLast?_eq_some_iff.1 h
  have hmem : ∀ {x}, x ∈ front ++ [w] ↔ x ∈ done ∧ s.parent x = some p := fun {x} => by
    rw [← hfront, List.mem_filter, decide_eq_true_eq]
  refine ⟨hmem.1 (by simp), ?_⟩
  intro u hu hup
  have hsorted := hfront ▸ hpw.filter fun w => s.parent w = some p
  rcases List.mem_append.1 (hmem.2 ⟨hu, hup⟩) with hu | hu
  · exact Nat.le_of_lt ((List.pairwise_append.1 hsorted).2.2 u hu w (by simp))
  · rw [List.mem_singleton.1 hu]

theorem of_lastIn?_eq_none {p : NodeId} (h : lastIn? s done p = none) {u : NodeId}
    (hu : u ∈ done) : s.parent u ≠ some p := by
  intro hup
  have hnil := List.getLast?_eq_none_iff.1 h
  exact absurd (List.mem_filter.2 ⟨hu, by simpa using hup⟩) (hnil ▸ List.not_mem_nil)

/-- A node that comes behind `v` hangs on what `v` stands directly in if its own parent does. -/
theorem hangsOn_parent_iff (hs : s.IsSound) (hw : s.IsWhole) {v x p y : NodeId}
    (hv : s.parent v = some p) (hx : s.parent x = some y) (hlt : s.position v < s.position x) :
    s.HangsOn x p ↔ s.HangsOn y p := by
  have hp : s.HangsOn p root := hw.hangsOn_root hs.toIsForest (hs.has_parent hv)
  have hpv := hs.position_lt hp (.single hv) (hs.parent_ne hv).symm
  constructor
  · intro hxp
    rcases HangsOn.iff_parent.1 hxp with rfl | ⟨y', hy', hon⟩
    · omega
    · exact Option.some.inj (hx.symm.trans hy') ▸ hon
  · exact fun hyp => .head hx hyp

/-- The node behind which the rule for the next state `a` is to come among those in `l`, so that all
stand in order. -/
structure IsAnchor (cx : Context) (s : Sheet) (ws : List NodeId) (r : NodeId) (done : List NodeId)
    (a : NodeId) (l : List NodeId) (anchor : NodeId) : Prop where
  mem : anchor ∈ l
  behind : r = anchor ∨ [r, anchor].Sublist l
  ordered : ∀ v ∈ done, cx.IsStateIn s r v → ∀ p, s.parent v = some p →
    (s.HangsOn a p → ruleFor s ws v = anchor ∨ [ruleFor s ws v, anchor].Sublist l) ∧
      (¬ s.HangsOn a p → [anchor, ruleFor s ws v].Sublist l)

section Anchor

variable (hs : s.IsSound) (hw : s.IsWhole) (hws : cx.states s = done ++ a :: rest)
  (h : StatesOrdered cx s ws r done t) (hk : t.parent r = some k) (ha : cx.IsStateIn s r a)
  {parent : NodeId} (hparent : s.parent a = some parent)

include hs hws in
/-- The states that come before the next one are done, and no others. -/
theorem mem_done_iff (hw : s.IsWhole) {x : NodeId} (hx : cx.isA s .when x = true) :
    x ∈ done ↔ s.position x < s.position a := by
  have hsorted : (cx.states s).Pairwise fun a b => s.position a < s.position b :=
    pairwise_states hs.toIsForest
  rw [hws, List.pairwise_append, List.pairwise_cons] at hsorted
  obtain ⟨-, ⟨hrest, -⟩, hdone⟩ := hsorted
  constructor
  · exact fun hmem => hdone x hmem a List.mem_cons_self
  · intro hlt
    have hmem : x ∈ cx.states s := mem_find_root hs hw hx
    rw [hws, List.mem_append, List.mem_cons] at hmem
    rcases hmem with hmem | rfl | hmem
    · exact hmem
    · omega
    · have := hrest x hmem
      omega

include hs hws in
theorem pairwise_done : done.Pairwise fun a b => s.position a < s.position b := by
  have hsorted : (cx.states s).Pairwise fun a b => s.position a < s.position b :=
    pairwise_states hs.toIsForest
  rw [hws, List.pairwise_append] at hsorted
  exact hsorted.1

include hs ha hparent in
/-- What stands directly in the node that the next state stands in, and has a state in `r` on it or
is one, is itself such a state. -/
theorem isStateIn_of_sibling {v c : NodeId} (hv : cx.IsStateIn s r v) (hvc : s.HangsOn v c)
    (hc : s.parent c = some parent) : cx.IsStateIn s r c := by
  have hpr : s.HangsOn parent r := by
    rcases ha.parent_cases hparent with rfl | hin
    · exact .refl s parent
    · exact hin.hangsOn
  refine hv.of_hangsOn hs.toIsForest hvc (.head hc hpr) ?_
  rintro rfl
  exact hs.not_hangsOn_child hc hpr

include hs hw hws ha hparent in
/-- A state between the last one that stood where the next one stands and that one stands in the
last one. -/
theorem hangsOn_of_lastIn? {w v : NodeId} (hlast : lastIn? s done parent = some w)
    (hv : v ∈ done) (hvstate : cx.IsStateIn s r v) (hlt : s.position w < s.position v) :
    s.HangsOn v w := by
  obtain ⟨⟨hmem, hwp⟩, hmax⟩ := of_lastIn?_eq_some (pairwise_done hs hws) hlast
  have hon : ∀ {x}, s.Has x → s.HangsOn x root := hw.hangsOn_root hs.toIsForest
  have hva := (mem_done_iff hs hws hw hvstate.isA).1 hv
  have hvon := hon (Context.has_of_isA hvstate.isA)
  have hwon := hon (has_of_parent hwp)
  have hpw := hs.position_lt (hon (hs.has_parent hwp)) (.single hwp) (hs.parent_ne hwp).symm
  have hvp : s.HangsOn v parent := hs.hangsOn_of_between (hon (hs.has_parent hwp)) hvon
    (.single hparent) (by omega) (by omega)
  -- The node below the common parent on which it hangs is a state that is done, so not a later one.
  rcases (HangsOn.iff_children hs.toIsLinked).1 hvp with rfl | ⟨c, hc, hvc⟩
  · omega
  have hcp := hs.mem_children_iff.1 hc
  have hcon := hon (has_of_parent hcp)
  have hcv := ((hs.hangsOn_iff_position hcon hvon).1 hvc).1
  have hcstate := isStateIn_of_sibling hs ha hparent hvstate hvc hcp
  have hcw := hmax c ((mem_done_iff hs hws hw hcstate.isA).2 (by omega)) hcp
  have hwc : s.HangsOn w c := hs.hangsOn_of_between hcon hwon hvc hcw (by omega)
  rcases HangsOn.iff_parent.1 hwc with rfl | ⟨y, hy, hyc⟩
  · exact hvc
  · obtain rfl := Option.some.inj (hwp.symm.trans hy)
    exact absurd hyc (hs.not_hangsOn_child hcp)

include hs hw hws h hk ha hparent

/-- The rule for the last state that stood where the next one stands is an anchor. -/
theorem isAnchor_of_lastIn?_eq_some {w : NodeId} (hlast : lastIn? s done parent = some w) :
    IsAnchor cx s ws r done a (t.children k) (ruleFor s ws w) := by
  obtain ⟨⟨hmem, hwp⟩, hmax⟩ := of_lastIn?_eq_some (pairwise_done hs hws) hlast
  have hon : ∀ {x}, s.Has x → s.HangsOn x root := hw.hangsOn_root hs.toIsForest
  have hisA : ∀ x ∈ done, cx.isA s .when x = true := fun x hx =>
    (Context.mem_find_iff.1 (hws ▸ List.mem_append_left _ hx)).2
  have hstate : cx.IsStateIn s r w := by
    rcases ha.parent_cases hparent with rfl | hin
    · exact .direct (hisA w hmem) hwp
    · exact .nested (hisA w hmem) hwp hin
  have hlt : ∀ x ∈ done, s.position x < s.position a := fun x hx =>
    (mem_done_iff hs hws hw (hisA x hx)).1 hx
  have hbehind := h.behind k hk w hmem hstate
  refine ⟨hbehind.subset (by simp), .inr hbehind, ?_⟩
  intro v hv hvstate p hvp
  have hva := hangsOn_parent_iff hs hw hvp hparent (hlt v hv)
  rcases Nat.lt_trichotomy (s.position v) (s.position w) with hvw | hvw | hvw
  · -- An earlier state sees the next one where it sees the last one.
    obtain ⟨hyes, hno⟩ := h.ordered k hk v hv w hmem hvstate hstate p hvp hvw
    rw [hangsOn_parent_iff hs hw hvp hwp hvw] at hyes hno
    rw [hva]
    exact ⟨fun hp => .inr (hyes hp), hno⟩
  · obtain rfl := position_inj hs.toIsForest (hon (has_of_parent hvp)) hvw
    obtain rfl := Option.some.inj (hwp.symm.trans hvp)
    exact ⟨fun _ => .inl rfl, fun hnot => absurd (.single hparent) hnot⟩
  · -- A later state stands in the last one.
    have hvw' := hangsOn_of_lastIn? hs hw hws ha hparent hlast hv hvstate hvw
    obtain ⟨p', hp', hpw⟩ := (HangsOn.iff_parent.1 hvw').resolve_left (by rintro rfl; omega)
    obtain rfl := Option.some.inj (hvp.symm.trans hp')
    have hnot : ¬ s.HangsOn a p := fun hap =>
      hs.not_hangsOn_child hwp ((hva.1 hap).trans hpw)
    refine ⟨fun hap => absurd hap hnot, fun _ => ?_⟩
    exact (h.ordered k hk w hmem v hv hstate hvstate parent hwp hvw).1 (hvw'.trans (.single hwp))

/-- If no state stood where the next one stands, what that stands in is an anchor. -/
theorem isAnchor_of_lastIn?_eq_none (ht : t.IsLinked) (hr : s.kind r = .rule)
    (hlast : lastIn? s done parent = none) :
    IsAnchor cx s ws r done a (t.children k) (standIn s ws done parent) := by
  have hon : ∀ {x}, s.Has x → s.HangsOn x root := hw.hangsOn_root hs.toIsForest
  have hnone : ∀ v ∈ done, s.parent v ≠ some parent := fun v => of_lastIn?_eq_none hlast
  have hlt : ∀ x ∈ done, cx.IsStateIn s r x → s.position x < s.position a := fun x hx hstate =>
    (mem_done_iff hs hws hw hstate.isA).1 hx
  have hrnot : r ∉ done := fun hmem =>
    not_mem_states_of_rule hr (hws ▸ List.mem_append_left _ hmem)
  rcases ha.parent_cases hparent with rfl | hin
  · -- The first state that stands directly in the rule goes right behind the rule.
    rw [standIn_of_not_mem hrnot]
    refine ⟨ht.mem_children_iff.2 hk, .inl rfl, ?_⟩
    · intro v hv hvstate p hvp
      have hva := hangsOn_parent_iff hs hw hvp hparent (hlt v hv hvstate)
      refine ⟨fun hap => ?_, fun _ => h.behind k hk v hv hvstate⟩
      rcases hvstate.parent_cases hvp with rfl | hpin
      · exact absurd hvp (hnone v hv)
      · exact absurd (hs.antisymm (hva.1 hap) hpin.hangsOn).symm (hpin.ne hs.toIsForest)
  · -- The first state that stands directly in another one goes right behind the rule for that one.
    have hpa := hs.position_lt (hon (hs.has_parent hparent)) (.single hparent)
      (hs.parent_ne hparent).symm
    have hmem := (mem_done_iff hs hws hw hin.isA).2 hpa
    rw [standIn_of_mem hmem]
    have hbehind := h.behind k hk parent hmem hin
    refine ⟨hbehind.subset (by simp), .inr hbehind, ?_⟩
    intro v hv hvstate p hvp
    have hva := hangsOn_parent_iff hs hw hvp hparent (hlt v hv hvstate)
    rcases Nat.lt_trichotomy (s.position v) (s.position parent) with hvq | hvq | hvq
    · obtain ⟨hyes, hno⟩ := h.ordered k hk v hv parent hmem hvstate hin p hvp hvq
      rw [hva]
      exact ⟨fun hp => .inr (hyes hp), hno⟩
    · obtain rfl := position_inj hs.toIsForest (hon (has_of_parent hvp)) hvq
      refine ⟨fun _ => .inl rfl, fun hnot => absurd (hva.2 (.single hvp)) hnot⟩
    · -- A later state stands in that one, though not directly.
      have hvparent : s.HangsOn v parent := hs.hangsOn_of_between (hon (hs.has_parent hparent))
        (hon (has_of_parent hvp)) (.single hparent) (by omega) (Nat.le_of_lt (hlt v hv hvstate))
      obtain ⟨p', hp', hpp⟩ := (HangsOn.iff_parent.1 hvparent).resolve_left (by rintro rfl; omega)
      obtain rfl := Option.some.inj (hvp.symm.trans hp')
      refine ⟨fun hap => ?_, fun _ => ?_⟩
      · obtain rfl := hs.antisymm (hva.1 hap) hpp
        exact absurd hvp (hnone v hv)
      · obtain ⟨q, hq⟩ : ∃ q, s.parent parent = some q := by
          cases hin with
          | direct _ hq => exact ⟨_, hq⟩
          | nested _ hq _ => exact ⟨_, hq⟩
        exact (h.ordered k hk parent hmem v hv hin hvstate q hq hvq).1
          (hvparent.trans (.single hq))

end Anchor

end Order

section Run

variable {ws done rest : List NodeId} {emitted : List (NodeId × NodeId)} {a r k : NodeId}

/-- The next state comes behind its anchor. -/
theorem IsAnchor.putFor {l : List NodeId} {anchor new : NodeId} (hnd : l.Nodup)
    (h : IsAnchor cx s ws r done a l anchor) :
    [r, new].Sublist (putFor anchor [anchor, new] l) ∧
      ∀ v ∈ done, cx.IsStateIn s r v → ∀ p, s.parent v = some p →
        (s.HangsOn a p → [ruleFor s ws v, new].Sublist (Lowering.putFor anchor [anchor, new] l)) ∧
          (¬ s.HangsOn a p → [new, ruleFor s ws v].Sublist
            (Lowering.putFor anchor [anchor, new] l)) := by
  refine ⟨pair_sublist_putFor_new hnd h.mem h.behind, ?_⟩
  intro v hv hvstate p hvp
  obtain ⟨hyes, hno⟩ := h.ordered v hv hvstate p hvp
  exact ⟨fun hon => pair_sublist_putFor_new hnd h.mem (hyes hon),
    fun hnot => pair_sublist_putFor_old hnd (hno hnot)⟩

variable (hs : s.IsSound) (hw : s.IsWhole) (hr : s.kind r = .rule)
  (hws : cx.states s = done ++ a :: rest)
  (hl : StatesLowered s (cx.states s) done emitted t)
  (h : StatesOrdered cx s (cx.states s) r done t)
  {parent container : NodeId} (hparent : s.parent a = some parent)
  (hcontainer : t.parent (standIn s (cx.states s) (cx.states s) parent) =
    some container)

include hs hw hws hparent in
/-- What the next state stands in is a state only if that is done. -/
theorem standIn_parent :
    standIn s (cx.states s) (cx.states s) parent =
      standIn s (cx.states s) done parent := by
  by_cases hmem : parent ∈ cx.states s
  · have hlt := hs.position_lt (hw.hangsOn_root hs.toIsForest (hs.has_parent hparent))
      (.single hparent) (hs.parent_ne hparent).symm
    rw [standIn_of_mem hmem,
      standIn_of_mem ((mem_done_iff hs hws hw (Context.mem_find_iff.1 hmem).2).2 hlt)]
  · have hnot : parent ∉ done := fun hdone => hmem (hws ▸ List.mem_append_left _ hdone)
    rw [standIn_of_not_mem hmem, standIn_of_not_mem hnot]

include hs hw hr hws hl h hparent hcontainer in
/-- The rule for the next state comes behind an anchor if that state stands in the rule. -/
theorem isAnchor_stateAnchor (ha : cx.IsStateIn s r a) (hk : t.parent r = some k) :
    container = k ∧ IsAnchor cx s (cx.states s) r done a (t.children k)
      (stateAnchor emitted t (standIn s (cx.states s) (cx.states s) parent)
        container) := by
  have hstand := standIn_parent hs hw hws hparent
  have hck : container = k := by
    rw [hstand] at hcontainer
    rcases ha.parent_cases hparent with rfl | hin
    · have hnot : parent ∉ done := fun hmem =>
        not_mem_states_of_rule hr (hws ▸ List.mem_append_left _ hmem)
      rw [standIn_of_not_mem hnot] at hcontainer
      exact Option.some.inj (hcontainer.symm.trans hk)
    · have hlt := hs.position_lt (hw.hangsOn_root hs.toIsForest (hs.has_parent hparent))
        (.single hparent) (hs.parent_ne hparent).symm
      have hmem := (mem_done_iff hs hws hw hin.isA).2 hlt
      rw [standIn_of_mem hmem] at hcontainer
      have hbehind := (h.behind k hk parent hmem hin).subset
        (List.mem_cons_of_mem r List.mem_cons_self)
      exact Option.some.inj (hcontainer.symm.trans (hl.sound.mem_children_iff.1 hbehind))
  subst hck
  refine ⟨rfl, ?_⟩
  rw [stateAnchor, hl.emitted_eq parent (hs.has_parent hparent)]
  cases hlast : lastIn? s done parent with
  | none =>
    rw [hstand]
    exact isAnchor_of_lastIn?_eq_none hs hw hws h hk ha hparent hl.sound.toIsLinked hr hlast
  | some w =>
    have hanchor := isAnchor_of_lastIn?_eq_some hs hw hws h hk ha hparent hlast
    have hpar := hl.sound.mem_children_iff.1 hanchor.mem
    simpa [hpar] using hanchor

include hs hw hws in
/-- If the rule itself stands in the next state, no state in it has been lowered yet. -/
theorem not_isStateIn_of_parent (hra : s.parent r = some a) :
    ∀ w ∈ done ++ [a], ¬ cx.IsStateIn s r w := by
  intro w hmem hstate
  rcases List.mem_append.1 hmem with hmem | hmem
  · have hon : ∀ {x}, s.Has x → s.HangsOn x root := hw.hangsOn_root hs.toIsForest
    have hwa : s.HangsOn w a := hstate.hangsOn.trans (.single hra)
    have hle := ((hs.hangsOn_iff_position (hon (hs.has_parent hra))
      (hon (Context.has_of_isA hstate.isA))).1 hwa).1
    have hlt := (mem_done_iff hs hws hw hstate.isA).1 hmem
    omega
  · exact hs.not_hangsOn_child hra (List.mem_singleton.1 hmem ▸ hstate.hangsOn)

include hs hw hr hws hl h hparent hcontainer in
/-- The rules for the states in `r` stay in order. -/
theorem StatesOrdered.next {top : NodeId} (htop : s.parent r = some top) {selector : String}
    (ha : cx.isA s .when a = true)
    (hleads : (Edit.follow t a container (stateAnchor emitted t
      (standIn s (cx.states s) (cx.states s) parent) container) selector).Leads t
        u) :
    StatesOrdered cx s (cx.states s) r (done ++ [a]) u := by
  have hnd : (cx.states s).Nodup := nodup_states hs.toIsForest
  have hra : r ≠ a := by
    rintro rfl
    rw [Context.kind_of_isA ha] at hr
    cases hr
  have hrnot : r ∉ done := fun hmem =>
    not_mem_states_of_rule hr (hws ▸ List.mem_append_left _ hmem)
  have hrule : ruleFor s (cx.states s) a = ⟨t.nodes.size⟩ := by
    rw [ruleFor_next hws hnd, hl.size_eq]
  have hhas := Context.has_of_isA ha
  have hnew : ∀ w, ruleFor s (cx.states s) w ≠ a := fun w => ruleFor_ne hhas
  have hlt : ∀ {x}, x ∈ done → s.position x < s.position a := fun hx =>
    (mem_done_iff hs hws hw (Context.mem_find_iff.1 (hws ▸ List.mem_append_left _ hx)).2).1 hx
  have hk := hl.parent_eq r top htop hrnot
  have hk' := hleads.parent_of_follow hl.sound.toIsLinked hk hra
  by_cases habove : standIn s (cx.states s) done top = a
  · obtain rfl := eq_of_standIn_eq hhas habove
    have hnone := not_isStateIn_of_parent hs hw hws htop
    exact ⟨fun k hk w hmem hstate => absurd hstate (hnone w hmem),
      fun k hk v hmem w _ hstate => absurd hstate (hnone v hmem)⟩
  rw [if_neg habove] at hk'
  -- The rules that are there keep their order, and the new one comes behind its anchor.
  have hkept : ∀ {x y}, x ≠ a → y ≠ a → [x, y].Sublist (t.children _) →
      [x, y].Sublist (u.children _) := fun hx hy =>
    hleads.sublist_of_follow (hl.sound.has_parent hk) habove hx hy
  have hadded : cx.IsStateIn s r a →
      [r, ruleFor s (cx.states s) a].Sublist
        (u.children (standIn s (cx.states s) done top)) ∧
      ∀ v ∈ done, cx.IsStateIn s r v → ∀ p, s.parent v = some p →
        (s.HangsOn a p → [ruleFor s (cx.states s) v,
          ruleFor s (cx.states s) a].Sublist
            (u.children (standIn s (cx.states s) done top))) ∧
        (¬ s.HangsOn a p → [ruleFor s (cx.states s) a,
          ruleFor s (cx.states s) v].Sublist
            (u.children (standIn s (cx.states s) done top))) := by
    intro hstate
    obtain ⟨rfl, hanchor⟩ :=
      isAnchor_stateAnchor hs hw hr hws hl h hparent hcontainer hstate hk
    have hchildren := hleads.children_container
    dsimp only [Edit.follow] at hchildren
    rw [hchildren, hrule]
    exact hanchor.putFor (hl.sound.nodup_children _)
  constructor
  case behind =>
    intro k huk w hmem hstate
    obtain rfl := Option.some.inj (hk'.symm.trans huk)
    rcases List.mem_append.1 hmem with hmem | hmem
    · exact hkept hra (hnew w) (h.behind _ hk w hmem hstate)
    · obtain rfl := List.mem_singleton.1 hmem
      exact (hadded hstate).1
  case ordered =>
    intro k huk v hv w hwmem hvstate hwstate p hvp hvw
    obtain rfl := Option.some.inj (hk'.symm.trans huk)
    rcases List.mem_append.1 hv with hv | hv
    · rcases List.mem_append.1 hwmem with hwmem | hwmem
      · obtain ⟨hyes, hno⟩ := h.ordered _ hk v hv w hwmem hvstate hwstate p hvp hvw
        exact ⟨fun hp => hkept (hnew v) (hnew w) (hyes hp),
          fun hp => hkept (hnew w) (hnew v) (hno hp)⟩
      · obtain rfl := List.mem_singleton.1 hwmem
        exact (hadded hwstate).2 v ‹_› hvstate p hvp
    · -- No state that is done comes behind the next one.
      obtain rfl := List.mem_singleton.1 hv
      rcases List.mem_append.1 hwmem with hwmem | hwmem
      · have := hlt hwmem
        omega
      · rw [List.mem_singleton.1 hwmem] at hvw
        omega

end Run

/-- A run over the states that succeeds puts the rules for those in `r` in order. -/
theorem statesOrdered_foldlM (hs : s.IsSound) (hw : s.IsWhole) {r top : NodeId}
    (hr : s.kind r = .rule) (htop : s.parent r = some top) {done rest : List NodeId}
    {state next : List (NodeId × NodeId) × Progress} (hws : cx.states s = done ++ rest)
    (hl : StatesLowered s (cx.states s) done state.1 state.2.sheet)
    (h : StatesOrdered cx s (cx.states s) r done state.2.sheet)
    (hrun : rest.foldlM (lowerState cx) state = .ok next) :
    StatesLowered s (cx.states s) (cx.states s) next.1 next.2.sheet ∧
      StatesOrdered cx s (cx.states s) r (cx.states s) next.2.sheet := by
  induction rest generalizing done state with
  | nil =>
    cases hrun
    rw [List.append_nil] at hws
    rw [← hws] at hl h
    exact ⟨hl, h⟩
  | cons a rest ih =>
    rw [List.foldlM_cons] at hrun
    obtain ⟨mid, hmid, hrun⟩ := exists_of_bind_eq_ok hrun
    obtain ⟨emitted, p⟩ := state
    have ha : cx.isA s .when a = true :=
      (Context.mem_find_iff.1 (hws ▸ List.mem_append_right _ List.mem_cons_self)).2
    have hhas := Context.has_of_isA ha
    obtain ⟨parent, hparent⟩ := hw a hhas (Context.ne_root_of_isA hs ha)
    have hout : a ∉ done := fun hmem =>
      Nat.lt_irrefl _ ((mem_done_iff hs hws hw ha).1 hmem)
    have hatt := hl.sound.isAttached_iff.2 (hl.attached a hhas hout)
    cases henclosing : enclosingRule? p.sheet a with
    | none =>
      rw [lowerState_eq_error hatt henclosing] at hmid
      cases hmid
    | some enclosing =>
      obtain ⟨inner, container⟩ := enclosing
      obtain ⟨hinner, -, hcontainer⟩ := enclosingRule?_eq_some henclosing
      -- What the state stands in now is what has come in the place of what it stood in.
      obtain rfl : inner = standIn s (cx.states s) (cx.states s) parent := by
        rw [standIn_parent hs hw hws hparent]
        exact Option.some.inj (hinner.symm.trans (hl.parent_eq a parent hparent hout))
      obtain ⟨q, hq, hl', hleads⟩ := hl.next hs hws (nodup_states hs.toIsForest) ha rfl henclosing
        hparent
      obtain rfl := Except.ok.inj (hq.symm.trans hmid)
      exact ih (by simpa using hws) hl'
        (h.next hs hw hr hws hl hparent hcontainer htop ha hleads) hrun

/-- Before the first state is lowered, all is as it was. -/
theorem StatesLowered.nil (hs : s.IsSound) (hw : s.IsWhole) (ws : List NodeId) :
    StatesLowered s ws [] [] s := by
  constructor
  case sound => exact hs
  case size_eq => rfl
  case content_eq => exact fun _ _ => rfl
  case source_old => exact fun _ _ => rfl
  case source_new => exact fun _ hmem => absurd hmem List.not_mem_nil
  case attached => exact fun x hx _ => hw.hangsOn_root hs.toIsForest hx
  case parent_eq => exact fun x p hp _ => hp
  case emitted_eq => exact fun p _ => rfl

theorem StatesOrdered.nil (ws : List NodeId) (r : NodeId) : StatesOrdered cx s ws r [] s :=
  ⟨fun _ _ _ hmem => absurd hmem List.not_mem_nil,
    fun _ _ _ hmem => absurd hmem List.not_mem_nil⟩

/-! ## Whole sheets -/

/-- The rule for a state is the only new one that comes from where the state comes from. -/
theorem StatesLowered.eq_ruleFor_iff (htraced : s.IsTraced) {ws : List NodeId}
    {emitted : List (NodeId × NodeId)} (h : StatesLowered s ws ws emitted t)
    (hold : ∀ w ∈ ws, s.Has w) (hnd : ws.Nodup) {w : NodeId} (hmem : w ∈ ws) (id : NodeId) :
    (t.Has id ∧ ¬ s.Has id) ∧ t.source id = s.source w ↔ id = ruleFor s ws w := by
  constructor
  · rintro ⟨⟨hnew, hnot⟩, hsource⟩
    simp only [Has, h.size_eq] at hnew hnot
    have hi : id.index - s.nodes.size < ws.length := by omega
    have hmem' := List.getElem_mem hi
    have heq : id = ruleFor s ws ws[id.index - s.nodes.size] := by
      rw [ruleFor, hnd.idxOf_getElem _ hi]
      exact congrArg NodeId.mk (by omega)
    rw [heq, h.source_new _ hmem'] at hsource
    rw [heq, htraced.source_inj _ _ (hold _ hmem') (hold w hmem) hsource]
  · rintro rfl
    have hidx := List.idxOf_lt_length_of_mem hmem
    refine ⟨⟨?_, ?_⟩, h.source_new w hmem⟩
    · simp only [Has, h.size_eq, ruleFor]
      omega
    · simp only [Has, ruleFor]
      omega

/-- Whenever the states of a sheet that was read can be lowered, the rules for the states in a rule
`r` end up behind `r`. Of the rules for two such states, that for the later state comes behind that
for the earlier one `v` only if the later state stands in what `v` stands directly in. Otherwise it
comes before it. -/
theorem lowerStates_order (texts : List (Input × String)) (cx : Context) {q : Progress}
    (h : lowerStates cx { sheet := read texts } = .ok q) {r : NodeId}
    (hr : (read texts).kind r = .rule) :
    ∃ (container : NodeId) (ruleOf : NodeId → NodeId), q.sheet.parent r = some container ∧
      (∀ w, cx.IsStateIn (read texts) r w →
        (∀ id, (q.sheet.Has id ∧ ¬ (read texts).Has id) ∧
          q.sheet.source id = (read texts).source w ↔ id = ruleOf w) ∧
        [r, ruleOf w].Sublist (q.sheet.children container)) ∧
      ∀ v w p, cx.IsStateIn (read texts) r v → cx.IsStateIn (read texts) r w →
        (read texts).parent v = some p → (read texts).position v < (read texts).position w →
          ((read texts).HangsOn w p →
            [ruleOf v, ruleOf w].Sublist (q.sheet.children container)) ∧
          (¬ (read texts).HangsOn w p →
            [ruleOf w, ruleOf v].Sublist (q.sheet.children container)) := by
  obtain ⟨hs, hw⟩ := read_sound texts
  have hhas : (read texts).Has r := by
    by_contra hout
    rw [Sheet.kind, content, node_of_not_has hout] at hr
    cases hr
  obtain ⟨top, htop⟩ := hw r hhas (by rintro rfl; rw [Sheet.kind, hs.content_root] at hr; cases hr)
  obtain ⟨emitted, hrun⟩ := exists_of_lowerStates h
  obtain ⟨hl, ho⟩ := statesOrdered_foldlM hs hw hr htop (List.nil_append _).symm
    (StatesLowered.nil hs hw _) (StatesOrdered.nil _ r) hrun
  have hk := hl.parent_eq r top htop (not_mem_states_of_rule hr)
  have hmem : ∀ {w}, cx.IsStateIn (read texts) r w → w ∈ cx.states (read texts) := fun hstate =>
    mem_find_root hs hw hstate.isA
  refine ⟨_, ruleFor (read texts) (cx.states (read texts)), hk, fun w hstate => ⟨?_, ?_⟩, ?_⟩
  · exact hl.eq_ruleFor_iff (isTraced_read texts)
      (fun w hw => Context.has_of_isA (Context.mem_find_iff.1 hw).2)
      (nodup_states hs.toIsForest) (hmem hstate)
  · exact ho.behind _ hk w (hmem hstate) hstate
  · exact fun v w p hv hw => ho.ordered _ hk v (hmem hv) w (hmem hw) hv hw p

/-- For instance, two states that stand directly in a rule keep their order. -/
theorem lowerStates_order_siblings :
    let s := read [(.ofFile "a.css", ".A { @when a { @when b {} } @when c {} }")]
    ∃ q container a c, lowerStates (.ofOptions {}) { sheet := s } = .ok q ∧
      q.sheet.source a = s.source ⟨2⟩ ∧ q.sheet.source c = s.source ⟨4⟩ ∧
      [a, c].Sublist (q.sheet.children container) := by
  intro s
  have hok : (lowerStates (.ofOptions {}) { sheet := s }).toBool = true := by decide +kernel
  have hr : s.kind ⟨1⟩ = .rule := by decide +kernel
  have hp : s.parent ⟨2⟩ = some ⟨1⟩ := by decide +kernel
  have hp' : s.parent ⟨4⟩ = some ⟨1⟩ := by decide +kernel
  have hlt : s.position ⟨2⟩ < s.position ⟨4⟩ := by decide +kernel
  have hv : (Context.ofOptions {}).IsStateIn s ⟨1⟩ ⟨2⟩ := .direct (by decide +kernel) hp
  have hw : (Context.ofOptions {}).IsStateIn s ⟨1⟩ ⟨4⟩ := .direct (by decide +kernel) hp'
  cases h : lowerStates (.ofOptions {}) { sheet := s } with
  | error stopped =>
    rw [h] at hok
    cases hok
  | ok q =>
    obtain ⟨container, ruleOf, -, hrule, hordered⟩ := lowerStates_order _ _ h hr
    exact ⟨q, container, ruleOf ⟨2⟩, ruleOf ⟨4⟩, rfl, (((hrule _ hv).1 _).2 rfl).2,
      (((hrule _ hw).1 _).2 rfl).2, (hordered _ _ _ hv hw hp hlt).1 (.single hp')⟩

/-- A state that stands in the first of them comes before the second, but its rule comes behind. -/
theorem lowerStates_order_nested :
    let s := read [(.ofFile "a.css", ".A { @when a { @when b {} } @when c {} }")]
    s.kind ⟨1⟩ = .rule ∧ (Context.ofOptions {}).IsStateIn s ⟨1⟩ ⟨3⟩ ∧
      (Context.ofOptions {}).IsStateIn s ⟨1⟩ ⟨4⟩ ∧ s.position ⟨3⟩ < s.position ⟨4⟩ ∧
      ∃ q, lowerStates (.ofOptions {}) { sheet := s } = .ok q ∧
        q.sheet.children root = [⟨1⟩, ⟨5⟩, ⟨7⟩, ⟨6⟩] ∧
        q.sheet.source ⟨6⟩ = s.source ⟨3⟩ ∧ q.sheet.source ⟨7⟩ = s.source ⟨4⟩ := by
  intro s
  have hb : (Context.ofOptions {}).IsStateIn s ⟨1⟩ ⟨3⟩ :=
    .nested (p := ⟨2⟩) (by decide +kernel) (by decide +kernel)
      (.direct (by decide +kernel) (by decide +kernel))
  have hc : (Context.ofOptions {}).IsStateIn s ⟨1⟩ ⟨4⟩ :=
    .direct (by decide +kernel) (by decide +kernel)
  have hok : (lowerStates (.ofOptions {}) { sheet := s }).toOption.any (fun q =>
      q.sheet.children root = [⟨1⟩, ⟨5⟩, ⟨7⟩, ⟨6⟩] ∧ q.sheet.source ⟨6⟩ = s.source ⟨3⟩ ∧
        q.sheet.source ⟨7⟩ = s.source ⟨4⟩) = true := by
    decide +kernel
  refine ⟨by decide +kernel, hb, hc, by decide +kernel, ?_⟩
  cases h : lowerStates (.ofOptions {}) { sheet := s } with
  | error stopped =>
    rw [h] at hok
    cases hok
  | ok q =>
    rw [h] at hok
    exact ⟨q, rfl, of_decide_eq_true hok⟩

end ClassRules.Lowering
