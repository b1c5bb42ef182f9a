import ClassRules.Proofs.Lowering.Flattening
import ClassRules.Proofs.Sheet.Gathering

/-!
# Steps as edits

What a step does to a sheet, said in full: the children of every node afterwards.

## What this module delivers

- `Edit`, `Edit.Leads`: some at-rules go, one node gets other children, and new rules come.
- `Edit.swap`, `Edit.flatten`, `Edit.splice`, `Edit.follow`: the edits for a utility, for a
  component with its region, for a namespace, and for a state.
- `Edit.leads_swap`, `Edit.leads_flatten`, `Edit.leads_splice`, `Edit.leads_follow`: the moves of a
  step lead where its edit says.
-/

set_option autoImplicit false

namespace ClassRules.Lowering

open Sheet

/-- A rule that is to be made. -/
structure NewRule where
  selector : String
  source : Option Source
  children : List NodeId

/-- What becomes of the nodes of a sheet: those in `gone` are taken out, among the children of the
container `news` come in the place of `old`, and the rules are made in this order. -/
structure Edit where
  gone : List NodeId
  container : NodeId
  old : NodeId
  news : List NodeId
  rules : List NewRule

/-- The list with `news` in the place of `old`. -/
def putFor (old : NodeId) (news l : List NodeId) : List NodeId :=
  l.flatMap fun c => if c = old then news else [c]

/-- The edit leads from `s` to `t`. -/
structure Edit.Leads (e : Edit) (s t : Sheet) : Prop where
  forest : t.IsForest
  size_eq : t.nodes.size = s.nodes.size + e.rules.length
  inputs_eq : t.inputs = s.inputs
  content_eq : ∀ id, s.Has id → t.content id = s.content id
  source_eq : ∀ id, s.Has id → t.source id = s.source id
  content_new : ∀ (i : Nat) (r : NewRule), e.rules[i]? = some r →
    t.content ⟨s.nodes.size + i⟩ = .rule r.selector
  source_new : ∀ (i : Nat) (r : NewRule), e.rules[i]? = some r →
    t.source ⟨s.nodes.size + i⟩ = r.source
  children_new : ∀ (i : Nat) (r : NewRule), e.rules[i]? = some r →
    t.children ⟨s.nodes.size + i⟩ = r.children
  children_gone : ∀ a ∈ e.gone, t.children a = []
  children_container : t.children e.container = putFor e.old e.news (s.children e.container)
  children_other : ∀ id, s.Has id → id ≠ e.container → id ∉ e.gone →
    t.children id = (s.children id).filter (· ∉ e.gone)

/-! ## Putting nodes in the place of one -/

theorem putFor_of_not_mem {old : NodeId} {l : List NodeId} (h : old ∉ l) (news : List NodeId) :
    putFor old news l = l := by
  induction l with
  | nil => rfl
  | cons c cs ih =>
    have hc : c ≠ old := fun e => h (e ▸ List.mem_cons_self)
    rw [putFor, List.flatMap_cons, if_neg hc, ← putFor,
      ih fun hcs => h (List.mem_cons_of_mem _ hcs)]
    rfl

theorem putFor_append (old : NodeId) (news l₁ l₂ : List NodeId) :
    putFor old news (l₁ ++ l₂) = putFor old news l₁ ++ putFor old news l₂ :=
  List.flatMap_append

/-- In a list of different nodes the new ones stand where the old one stood. -/
theorem putFor_eq {old : NodeId} {l front back : List NodeId} (hl : l = front ++ old :: back)
    (hnd : l.Nodup) (news : List NodeId) : putFor old news l = front ++ news ++ back := by
  subst hl
  obtain ⟨-, hback, hapart⟩ := List.nodup_append.1 hnd
  have hfront : old ∉ front := fun h => hapart old h old List.mem_cons_self rfl
  rw [putFor_append, putFor_of_not_mem hfront, putFor, List.flatMap_cons, if_pos rfl, ← putFor,
    putFor_of_not_mem (List.nodup_cons.1 hback).1, List.append_assoc]

/-- A node comes to stand behind another one if both come in the place of that one. -/
theorem placeAfter_eq_putFor {anchor id : NodeId} {l : List NodeId} (h : anchor ∈ l)
    (hnd : l.Nodup) : placeAfter anchor id l = putFor anchor [anchor, id] l := by
  induction l with
  | nil => exact absurd h List.not_mem_nil
  | cons c cs ih =>
    obtain ⟨hc, hcs⟩ := List.nodup_cons.1 hnd
    rw [placeAfter, putFor, List.flatMap_cons, ← putFor]
    by_cases heq : c = anchor
    · rw [if_pos heq, if_pos heq, putFor_of_not_mem (heq ▸ hc), heq]
      rfl
    · rw [if_neg heq, if_neg heq, ih ((List.mem_cons.1 h).resolve_left (Ne.symm heq)) hcs]
      rfl

/-! ## The edits -/

/-- A rule takes the place of an at-rule, and its children. -/
def Edit.swap (s : Sheet) (a container : NodeId) (selector : String) : Edit where
  gone := [a]
  container := container
  old := a
  news := [⟨s.nodes.size⟩]
  rules := [⟨selector, s.source a, s.children a⟩]

/-- Rules in a row take the place of a component, one for each piece. -/
def Edit.flatten (s : Sheet) (component container : NodeId) (pieces : List Piece) : Edit where
  gone := pieces.map Piece.atRule
  container := container
  old := component
  news := handles s.nodes.size pieces.length
  rules := pieces.map fun x => ⟨"." ++ x.name, s.source x.atRule,
    (s.children x.atRule).filter (· ∉ pieces.map Piece.atRule)⟩

/-- The children of an at-rule take its place. -/
def Edit.splice (s : Sheet) (a container : NodeId) : Edit where
  gone := [a]
  container := container
  old := a
  news := s.children a
  rules := []

/-- A rule takes the children of an at-rule, and stands behind `anchor` in the container. -/
def Edit.follow (s : Sheet) (a container anchor : NodeId) (selector : String) : Edit where
  gone := [a]
  container := container
  old := anchor
  news := [anchor, ⟨s.nodes.size⟩]
  rules := [⟨selector, s.source a, s.children a⟩]

/-- For a single new rule it is enough to look at that one. -/
theorem forall_getElem?_singleton {r : NewRule} {P : Nat → NewRule → Prop} (h : P 0 r) :
    ∀ (i : Nat) (r' : NewRule), [r][i]? = some r' → P i r' := by
  intro i r' hi
  cases i with
  | zero =>
    cases hi
    exact h
  | succ i => cases hi

section Leads

variable {s t : Sheet} {a container : NodeId}

/-- A child of `a` is no child of another node. -/
theorem filter_children_of_ne (h : s.IsLinked) {q : NodeId} (hq : q ≠ a) :
    (s.children q).filter (· ∉ s.children a) = s.children q := by
  apply filter_notMem_eq_self
  intro c hc hcq
  have hparent := (h.mem_children_iff.1 hc).symm.trans (h.mem_children_iff.1 hcq)
  exact hq (Option.some.inj hparent).symm

/-- Going through several moves leaves all but children alone. -/
theorem moveAll_eq (s : Sheet) (parent : NodeId) (place : NodeId → List NodeId → List NodeId)
    (ids : List NodeId) :
    (s.moveAll parent place ids).nodes.size = s.nodes.size ∧
      (s.moveAll parent place ids).inputs = s.inputs ∧
      (∀ x, (s.moveAll parent place ids).content x = s.content x) ∧
      ∀ x, (s.moveAll parent place ids).source x = s.source x := by
  induction ids generalizing s with
  | nil => exact ⟨rfl, rfl, fun _ => rfl, fun _ => rfl⟩
  | cons id ids ih =>
    obtain ⟨hsize, hinputs, hcontent, hsource⟩ := ih (s.move parent id (place id))
    refine ⟨?_, ?_, fun x => ?_, fun x => ?_⟩
    · exact hsize.trans (size_move _ _ _ _)
    · exact hinputs.trans (inputs_move _ _ _ _)
    · exact (hcontent x).trans (content_move _ _ _ _ x)
    · exact (hsource x).trans (source_move _ _ _ _ x)

/-- A new rule that takes the children of `a` and stands nowhere yet. -/
def takeover (s : Sheet) (a : NodeId) (selector : String) : Sheet :=
  (s.createRule selector a).2.moveAll ⟨s.nodes.size⟩ (fun id => (· ++ [id])) (s.children a)

section Takeover

variable {selector : String}

theorem size_takeover (s : Sheet) (a : NodeId) (selector : String) :
    (takeover s a selector).nodes.size = s.nodes.size + 1 :=
  (moveAll_eq _ _ _ _).1.trans (size_create s _ _)

theorem inputs_takeover (s : Sheet) (a : NodeId) (selector : String) :
    (takeover s a selector).inputs = s.inputs :=
  (moveAll_eq _ _ _ _).2.1

theorem content_takeover (x : NodeId) : (takeover s a selector).content x =
    if x = ⟨s.nodes.size⟩ then .rule selector else s.content x :=
  ((moveAll_eq _ _ _ _).2.2.1 x).trans (content_create s _ _ x)

theorem source_takeover (x : NodeId) : (takeover s a selector).source x =
    if x = ⟨s.nodes.size⟩ then s.source a else s.source x :=
  ((moveAll_eq _ _ _ _).2.2.2 x).trans (source_create s _ _ x)

/-- The new rule has the children of `a`, which has none any more. -/
theorem children_takeover (h : s.IsLinked) (q : NodeId) : (takeover s a selector).children q =
    if q = ⟨s.nodes.size⟩ then s.children a else if q = a then [] else s.children q := by
  have hcreated : (s.createRule selector a).2.IsLinked := h.create _ _
  have hrule : (s.createRule selector a).2.Has ⟨s.nodes.size⟩ := (has_create _ _ _ _).2 (.inl rfl)
  have hmoved := children_moveAll_append hcreated hrule (s.children a)
    (fun id hid => (has_create _ _ _ _).2 (.inr (has_of_parent (h.mem_children_iff.1 hid))))
    (h.nodup_children a) q
  refine hmoved.trans ?_
  have hold : (s.createRule selector a).2.children q = s.children q := children_create _ _ _ _
  rw [hold]
  by_cases hq : q = ⟨s.nodes.size⟩
  · rw [if_pos hq, if_pos hq, hq, children_of_not_has (not_has_new s)]
    rfl
  · rw [if_neg hq, if_neg hq]
    by_cases hqa : q = a
    · rw [if_pos hqa, hqa]
      simp
    · rw [if_neg hqa, filter_children_of_ne h hqa]

/-- The new rule stands nowhere. -/
theorem new_not_mem_children_takeover (h : s.IsLinked) (q : NodeId) :
    (⟨s.nodes.size⟩ : NodeId) ∉ (takeover s a selector).children q := by
  rw [children_takeover h]
  split
  · exact h.not_mem_children (not_has_new s) _
  · split
    · exact List.not_mem_nil
    · exact h.not_mem_children (not_has_new s) _

end Takeover

/-- What the children of an at-rule lose when it goes is nothing, unless it stands there. -/
theorem filter_singleton_eq_self {l : List NodeId} (h : a ∉ l) : l.filter (· ∉ [a]) = l :=
  filter_notMem_eq_self (List.forall_mem_singleton.2 h)

/-- If the rule that has taken over takes the place of the at-rule, only the container gets other
children by that. -/
theorem children_replaceWith_takeover (hs : s.IsForest) (hp : s.parent a = some container)
    {selector : String} (hlinked : (takeover s a selector).IsLinked)
    (hparent : (takeover s a selector).parent a = some container) (q : NodeId) :
    ((takeover s a selector).replaceWith a ⟨s.nodes.size⟩).children q =
      if q = container then putFor a [⟨s.nodes.size⟩] (s.children container)
      else (takeover s a selector).children q := by
  -- The rule stands nowhere before, so no list loses it.
  have hnew : ((takeover s a selector).children q).filter (· ≠ ⟨s.nodes.size⟩) =
      (takeover s a selector).children q :=
    List.filter_eq_self.2 fun c hc => decide_eq_true fun e =>
      new_not_mem_children_takeover hs.toIsLinked q (e ▸ hc)
  rw [children_replaceWith hlinked (has_of_parent hp).ne_new hparent, hnew]
  by_cases hq : q = container
  · subst hq
    obtain ⟨front, back, heq⟩ := List.append_of_mem (hs.mem_children_iff.2 hp)
    have hsame : (takeover s a selector).children q = s.children q := by
      rw [children_takeover hs.toIsLinked, if_neg (hs.has_parent hp).ne_new,
        if_neg (hs.parent_ne hp)]
    rw [if_pos rfl, if_pos rfl, hsame, replace_eq_of_eq_append heq (hs.nodup_children q),
      putFor_eq heq (hs.nodup_children q), List.append_cons]
  · rw [if_neg hq, if_neg hq]

/-- The rule that has taken over takes the place of the at-rule. -/
theorem Edit.leads_swap (hs : s.IsSound) (hp : s.parent a = some container) (selector : String)
    (hlinked : (takeover s a selector).IsLinked)
    (hparent : (takeover s a selector).parent a = some container)
    (hforest : ((takeover s a selector).replaceWith a ⟨s.nodes.size⟩).IsForest) :
    (Edit.swap s a container selector).Leads s
      ((takeover s a selector).replaceWith a ⟨s.nodes.size⟩) := by
  have hhas : s.Has a := has_of_parent hp
  have hne : a ≠ ⟨s.nodes.size⟩ := hhas.ne_new
  have hac : container ≠ a := hs.parent_ne hp
  have hcnew : container ≠ ⟨s.nodes.size⟩ := (hs.has_parent hp).ne_new
  have hchildren := children_replaceWith_takeover hs.toIsForest hp hlinked hparent
  constructor
  case forest =>
    exact hforest
  case size_eq =>
    rw [size_replaceWith hne hparent, size_takeover]
    rfl
  case inputs_eq =>
    rw [inputs_replaceWith hne hparent, inputs_takeover]
  case content_eq =>
    intro id hid
    rw [content_replaceWith hne hparent, content_takeover, if_neg hid.ne_new]
  case source_eq =>
    intro id hid
    rw [source_replaceWith hne hparent, source_takeover, if_neg hid.ne_new]
  case content_new =>
    apply forall_getElem?_singleton
    rw [Nat.add_zero, content_replaceWith hne hparent, content_takeover, if_pos rfl]
  case source_new =>
    apply forall_getElem?_singleton
    rw [Nat.add_zero, source_replaceWith hne hparent, source_takeover, if_pos rfl]
  case children_new =>
    apply forall_getElem?_singleton
    rw [Nat.add_zero, hchildren, if_neg (Ne.symm hcnew), children_takeover hs.toIsLinked,
      if_pos rfl]
  case children_gone =>
    intro x hx
    rw [List.mem_singleton.1 hx, hchildren, if_neg (Ne.symm hac), children_takeover hs.toIsLinked,
      if_neg hne, if_pos rfl]
  case children_container =>
    exact (hchildren container).trans (if_pos rfl)
  case children_other =>
    intro id hid hcont hgone
    have hidc : id ≠ container := hcont
    have hida : id ≠ a := fun e => hgone (List.mem_singleton.2 e)
    -- The at-rule stands in its container only, so no other node loses it.
    have hout : a ∉ s.children id := fun hmem =>
      hcont (Option.some.inj ((hs.mem_children_iff.1 hmem).symm.trans hp))
    rw [hchildren, if_neg hidc, children_takeover hs.toIsLinked, if_neg hid.ne_new, if_neg hida]
    exact (filter_singleton_eq_self hout).symm

/-- If the rule that has taken over comes to stand behind a node of the container, only the
container gets other children by that. -/
theorem children_move_takeover (hs : s.IsLinked) (hcont : s.Has container) (hac : container ≠ a)
    {selector : String} (hlinked : (takeover s a selector).IsLinked) (anchor q : NodeId) :
    ((takeover s a selector).move container ⟨s.nodes.size⟩
        (placeAfter anchor ⟨s.nodes.size⟩)).children q =
      if q = container then placeAfter anchor ⟨s.nodes.size⟩ (s.children container)
      else (takeover s a selector).children q := by
  have hnew : (⟨s.nodes.size⟩ : NodeId) ∉ (takeover s a selector).children q :=
    new_not_mem_children_takeover hs q
  have hcont' : (takeover s a selector).Has container :=
    hcont.mono (Nat.le.intro (size_takeover s a selector).symm)
  by_cases hq : q = container
  · subst hq
    rw [if_pos rfl, children_move_self hlinked hcont' hnew, children_takeover hs,
      if_neg hcont.ne_new, if_neg hac]
  · rw [if_neg hq, children_move_of_not_mem hlinked hcont' hq hnew]

/-- The rule that has taken over comes to stand behind the anchor, and the at-rule is taken out. -/
theorem Edit.leads_follow (hs : s.IsForest) {parent anchor : NodeId}
    (hp : s.parent a = some parent) (hanchor : s.parent anchor = some container)
    (hac : container ≠ a) (hout : a ∉ s.children container) (selector : String)
    (hlinked : (takeover s a selector).IsLinked)
    (hforest : (((takeover s a selector).move container ⟨s.nodes.size⟩
      (placeAfter anchor ⟨s.nodes.size⟩)).detach a).IsForest) :
    (Edit.follow s a container anchor selector).Leads s
      (((takeover s a selector).move container ⟨s.nodes.size⟩
        (placeAfter anchor ⟨s.nodes.size⟩)).detach a) := by
  have hhas : s.Has a := has_of_parent hp
  have hcont : s.Has container := hs.has_parent hanchor
  have hne : a ≠ ⟨s.nodes.size⟩ := hhas.ne_new
  have hcnew : container ≠ ⟨s.nodes.size⟩ := hcont.ne_new
  have hsize := size_takeover s a selector
  have hrule : (takeover s a selector).Has ⟨s.nodes.size⟩ := by
    rw [Has, hsize]
    exact Nat.lt_succ_self _
  have hmoved : ((takeover s a selector).move container ⟨s.nodes.size⟩
      (placeAfter anchor ⟨s.nodes.size⟩)).IsLinked :=
    hlinked.move (hcont.mono (Nat.le.intro hsize.symm)) hrule (adds_placeAfter _ _)
  have hchildren := children_move_takeover hs.toIsLinked hcont hac hlinked anchor
  constructor
  case forest =>
    exact hforest
  case size_eq =>
    rw [size_detach, size_move, hsize]
    rfl
  case inputs_eq =>
    rw [inputs_detach, inputs_move, inputs_takeover]
  case content_eq =>
    intro id hid
    rw [content_detach, content_move, content_takeover, if_neg hid.ne_new]
  case source_eq =>
    intro id hid
    rw [source_detach, source_move, source_takeover, if_neg hid.ne_new]
  case content_new =>
    apply forall_getElem?_singleton
    rw [Nat.add_zero, content_detach, content_move, content_takeover, if_pos rfl]
  case source_new =>
    apply forall_getElem?_singleton
    rw [Nat.add_zero, source_detach, source_move, source_takeover, if_pos rfl]
  case children_new =>
    apply forall_getElem?_singleton
    have hself : a ∉ s.children a := fun hmem => hs.parent_ne (hs.mem_children_iff.1 hmem) rfl
    have htaken : ((takeover s a selector).move container ⟨s.nodes.size⟩
        (placeAfter anchor ⟨s.nodes.size⟩)).children ⟨s.nodes.size⟩ = s.children a := by
      rw [hchildren, if_neg (Ne.symm hcnew), children_takeover hs.toIsLinked, if_pos rfl]
    have hin : a ∉ ((takeover s a selector).move container ⟨s.nodes.size⟩
        (placeAfter anchor ⟨s.nodes.size⟩)).children ⟨s.nodes.size⟩ := by
      rw [htaken]
      exact hself
    rw [Nat.add_zero, children_detach_of_not_mem hmoved hin, htaken]
  case children_gone =>
    intro x hx
    rw [List.mem_singleton.1 hx, children_detach hmoved, hchildren, if_neg (Ne.symm hac),
      children_takeover hs.toIsLinked, if_neg hne, if_pos rfl]
    rfl
  case children_container =>
    have hplaced := (hchildren container).trans (if_pos rfl)
    have hin : a ∉ ((takeover s a selector).move container ⟨s.nodes.size⟩
        (placeAfter anchor ⟨s.nodes.size⟩)).children container := by
      rw [hplaced]
      exact fun hmem =>
        (List.mem_cons.1 ((adds_placeAfter anchor _ _).mem_iff.1 hmem)).elim hne hout
    refine (children_detach_of_not_mem hmoved hin).trans (hplaced.trans ?_)
    exact placeAfter_eq_putFor (hs.mem_children_iff.2 hanchor) (hs.nodup_children container)
  case children_other =>
    -- The at-rule may stand in a node other than the container, which then loses it.
    intro id hid hidc hgone
    have hida : id ≠ a := fun e => hgone (List.mem_singleton.2 e)
    have hidc' : id ≠ container := hidc
    rw [children_detach hmoved, hchildren, if_neg hidc', children_takeover hs.toIsLinked,
      if_neg hid.ne_new, if_neg hida]
    exact List.filter_congr fun c _ => by simp [Edit.follow]

/-- The children of an at-rule come to stand behind it in their order, as the last one moves first.
All other nodes keep their children. -/
theorem children_moveAll_reverse (hs : s.IsForest) (hp : s.parent a = some container)
    {front back : List NodeId} (heq : s.children container = front ++ a :: back) (q : NodeId) :
    (s.moveAll container (placeAfter a) (s.children a).reverse).children q =
      if q = container then front ++ a :: (s.children a ++ back)
      else (s.children q).filter (· ∉ s.children a) := by
  have hchild : ∀ id ∈ (s.children a).reverse, s.parent id = some a := fun id hid =>
    hs.mem_children_iff.1 (List.mem_reverse.1 hid)
  have hall := children_moveAll_placeAfter hs.toIsLinked (hs.has_parent hp)
    (s.children a).reverse heq (fun id hid => has_of_parent (hchild id hid))
    (List.nodup_reverse.2 (hs.nodup_children a))
    (fun id hid hin => hs.parent_ne hp
      (Option.some.inj ((hs.mem_children_iff.1 hin).symm.trans (hchild id hid)))) q
  rw [List.reverse_reverse] at hall
  simpa only [List.mem_reverse] using hall

/-- The children of an at-rule come to stand behind it, and then it is taken out. -/
theorem Edit.leads_splice (hs : s.IsSound) (hp : s.parent a = some container)
    (hlinked : (s.moveAll container (placeAfter a) (s.children a).reverse).IsLinked)
    (hforest : ((s.moveAll container (placeAfter a) (s.children a).reverse).detach a).IsForest) :
    (Edit.splice s a container).Leads s
      ((s.moveAll container (placeAfter a) (s.children a).reverse).detach a) := by
  have hac : container ≠ a := hs.parent_ne hp
  obtain ⟨front, back, heq⟩ := List.append_of_mem (hs.mem_children_iff.2 hp)
  obtain ⟨hsize, hinputs, hcontent, hsource⟩ :=
    moveAll_eq s container (placeAfter a) (s.children a).reverse
  have hmoved := children_moveAll_reverse hs.toIsForest hp heq
  have hnd : (front ++ a :: (s.children a ++ back)).Nodup := by
    have hnodup := hlinked.nodup_children container
    rwa [hmoved, if_pos rfl] at hnodup
  constructor
  case forest =>
    exact hforest
  case size_eq =>
    rw [size_detach, hsize]
    rfl
  case inputs_eq =>
    rw [inputs_detach, hinputs]
  case content_eq =>
    intro id _
    rw [content_detach, hcontent]
  case source_eq =>
    intro id _
    rw [source_detach, hsource]
  case content_new =>
    intro i r hi
    cases hi
  case source_new =>
    intro i r hi
    cases hi
  case children_new =>
    intro i r hi
    cases hi
  case children_gone =>
    intro x hx
    have hnone : (s.children a).filter (· ∉ s.children a) = [] :=
      List.filter_eq_nil_iff.2 fun c hc => by simp [hc]
    rw [List.mem_singleton.1 hx, children_detach hlinked, hmoved, if_neg (Ne.symm hac), hnone]
    rfl
  case children_container =>
    refine (children_detach hlinked a container).trans ?_
    rw [hmoved, if_pos rfl]
    refine Eq.trans ?_ (putFor_eq heq (hs.nodup_children container) (s.children a)).symm
    -- The at-rule stands there once, in front of its former children.
    obtain ⟨-, hback, hapart⟩ := List.nodup_append.1 hnd
    have hfront : ∀ c ∈ front, c ≠ a := fun c hc => hapart c hc a List.mem_cons_self
    have hrest : ∀ c ∈ s.children a ++ back, c ≠ a := fun c hc e =>
      (List.nodup_cons.1 hback).1 (e ▸ hc)
    rw [List.filter_append, List.filter_cons_of_neg (by simp),
      List.filter_eq_self.2 fun c hc => decide_eq_true (hfront c hc),
      List.filter_eq_self.2 fun c hc => decide_eq_true (hrest c hc), List.append_assoc]
  case children_other =>
    intro id hid hidc hgone
    have hidc' : id ≠ container := hidc
    have hida : id ≠ a := fun e => hgone (List.mem_singleton.2 e)
    rw [children_detach hlinked, hmoved, if_neg hidc', filter_children_of_ne hs.toIsLinked hida]
    exact List.filter_congr fun c _ => by simp [Edit.splice]

/-- A rule of a flattened component, found by its number, stands for the piece of that number. -/
theorem Flattened.standsFor {component : NodeId} {pieces : List Piece}
    (h : Flattened s t container component pieces) (i : Nat) (r : NewRule)
    (hi : (Edit.flatten s component container pieces).rules[i]? = some r) :
    ∃ x, r = ⟨"." ++ x.name, s.source x.atRule,
        (s.children x.atRule).filter (· ∉ pieces.map Piece.atRule)⟩ ∧
      StandsFor (fun c => c ∈ pieces.map Piece.atRule) s t ⟨s.nodes.size + i⟩ x := by
  rw [Edit.flatten, List.getElem?_map] at hi
  obtain ⟨x, hx, rfl⟩ := Option.map_eq_some_iff.1 hi
  obtain ⟨hlt, hx⟩ := List.getElem?_eq_some_iff.1 hx
  have hlt' : i < (handles s.nodes.size pieces.length).length := by
    rwa [length_handles]
  have hget := h.stands.get hlt' hlt
  have hhandle : (handles s.nodes.size pieces.length).get ⟨i, hlt'⟩ = ⟨s.nodes.size + i⟩ := by
    simp [handles]
  refine ⟨x, rfl, ?_⟩
  rw [hhandle] at hget
  exact hx ▸ hget

/-- A component and its region have become rules in a row. -/
theorem Edit.leads_flatten {component : NodeId} {pieces : List Piece} (hs : s.IsSound)
    (h : Flattened s t container component pieces) (hinputs : t.inputs = s.inputs)
    (hinside : ∀ x ∈ pieces, ∀ q, s.parent x.atRule = some q →
      q = container ∨ q ∈ pieces.map Piece.atRule) :
    (Edit.flatten s component container pieces).Leads s t := by
  constructor
  case forest =>
    exact h.forest
  case size_eq =>
    rw [h.size_eq, Edit.flatten, List.length_map]
  case inputs_eq =>
    exact hinputs
  case content_eq =>
    exact h.content_eq
  case source_eq =>
    exact h.source_eq
  case content_new =>
    intro i r hi
    obtain ⟨x, rfl, hx⟩ := h.standsFor i r hi
    exact hx.content_eq
  case source_new =>
    intro i r hi
    obtain ⟨x, rfl, hx⟩ := h.standsFor i r hi
    exact hx.source_eq
  case children_new =>
    intro i r hi
    obtain ⟨x, rfl, hx⟩ := h.standsFor i r hi
    rw [hx.children_eq]
    exact List.filter_congr fun c _ => (decide_not ..).symm
  case children_gone =>
    intro a ha
    obtain ⟨x, hx, rfl⟩ := List.mem_map.1 ha
    exact (h.taken_out x hx).2
  case children_container =>
    obtain ⟨front, back, heq, hplace⟩ := h.container_eq
    exact hplace.trans (putFor_eq heq (hs.nodup_children container) _).symm
  case children_other =>
    intro id hid hidc hgone
    have hout : ∀ x ∈ pieces, x.atRule ≠ id := fun x hx e =>
      hgone (e ▸ List.mem_map_of_mem hx)
    rw [h.children_eq id hid hidc hout]
    -- No piece stands elsewhere, so a node outside has none to lose.
    refine (filter_notMem_eq_self fun a ha hmem => ?_).symm
    obtain ⟨x, hx, rfl⟩ := List.mem_map.1 ha
    rcases hinside x hx id (hs.mem_children_iff.1 hmem) with hc | hin
    · exact hidc hc
    · exact hgone hin

end Leads

end ClassRules.Lowering
