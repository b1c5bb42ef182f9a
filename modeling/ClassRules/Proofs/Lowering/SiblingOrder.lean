import ClassRules.Proofs.Lowering.Leftovers
import ClassRules.Proofs.Lowering.Mirror
import ClassRules.Proofs.Sheet.SourceOrder

/-!
# Siblings stay in source order

Rules for modifiers and descendents come to stand behind the rule for their component, among its
siblings, and blocks give way to what they hold. All of that comes from at-rules in which only
at-rules stand above it, and these start behind the component or the block, and before the next
sibling.

## What this module delivers

- `Sheet.Reaches`: the way down from a node that passes at-rules only.
- `Sheet.Ordered`: what is reached from a node starts behind it, and before its next siblings.
- `ordered_read`: a sheet that was read is so.
- `Edit.IsOrdered`: an edit that puts in the place of a node what is reached from it, in order.
- `Edit.IsOrdered.ordered`: such an edit keeps a sheet ordered.
- `isOrdered_swap`, `isOrdered_splice`, `isOrdered_flatten`: the edits for utilities, blocks and
  components are so.
-/

set_option autoImplicit false

namespace ClassRules

namespace Sheet

variable {s t : Sheet}

/-! ## Ordered sheets -/

/-- The node `x` is `a`, or stands below `a` with only at-rules above it, up to `a`. -/
def Reaches (s : Sheet) (a x : NodeId) : Prop :=
  Relation.ReflTransGen (fun p c => s.kind p = .atRule ∧ c ∈ s.children p) a x

/-- What stands in an at-rule starts behind it, and what is reached from a node starts before all
siblings behind that node. -/
structure Ordered (s : Sheet) : Prop where
  below : ∀ a c, s.kind a = .atRule → c ∈ s.children a → s.StartsBefore a c
  apart : ∀ p, (s.children p).Pairwise fun a b => ∀ x, s.Reaches a x → s.StartsBefore x b

theorem Reaches.hangsOn (h : s.IsLinked) {a x : NodeId} (hax : s.Reaches a x) : s.HangsOn x a := by
  induction hax with
  | refl => exact .refl s a
  | tail _ hstep ih => exact .head (h.mem_children_iff.1 hstep.2) ih

theorem Reaches.has (h : s.IsLinked) {a x : NodeId} (hax : s.Reaches a x) (ha : s.Has a) :
    s.Has x := by
  rcases HangsOn.iff_parent.1 (hax.hangsOn h) with rfl | ⟨p, hp, -⟩
  · exact ha
  · exact has_of_parent hp

theorem Reaches.child {a c : NodeId} (hk : s.kind a = .atRule) (hc : c ∈ s.children a) :
    s.Reaches a c :=
  .single ⟨hk, hc⟩

namespace Ordered

variable (h : s.Ordered) {a b x : NodeId}

include h

/-- What is reached from a node starts behind it. -/
theorem eq_or_startsBefore (hax : s.Reaches a x) : x = a ∨ s.StartsBefore a x := by
  induction hax with
  | refl => exact .inl rfl
  | tail _ hstep ih =>
    have hlt := h.below _ _ hstep.1 hstep.2
    rcases ih with rfl | hlt'
    · exact .inr hlt
    · exact .inr (hlt'.trans hlt)

theorem startsBefore_of_reaches (hab : s.StartsBefore a b) (hbx : s.Reaches b x) :
    s.StartsBefore a x := by
  rcases h.eq_or_startsBefore hbx with rfl | hlt
  · exact hab
  · exact hab.trans hlt

/-- Siblings start one behind the other. -/
theorem pairwise_children (p : NodeId) : (s.children p).Pairwise s.StartsBefore :=
  (h.apart p).imp fun hab => hab _ .refl

end Ordered

/-- Where the nodes of the text start one behind the other, a sheet without other nodes is
ordered. -/
theorem Ordered.of_pairwise (hs : s.IsSound) (hw : s.IsWhole)
    (h : (s.descendants root).Pairwise s.StartsBefore) : s.Ordered := by
  -- A node and what stands below it are a stretch of the whole.
  have hbelow : ∀ p, s.Has p → p ≠ root → (p :: s.descendants p).Pairwise s.StartsBefore := by
    intro p hp hne
    obtain ⟨front, back, heq⟩ := hs.toIsForest.exists_descendants_eq
      (hs.mem_descendants_iff.2 ⟨hne, hw.hangsOn_root hs.toIsForest hp⟩)
    rw [heq] at h
    exact (List.pairwise_append.1 (List.pairwise_append.1 h).1).2.1
  have hall : ∀ p, s.Has p → (s.descendants p).Pairwise s.StartsBefore := by
    intro p hp
    by_cases hne : p = root
    · rw [hne]
      exact h
    · exact (hbelow p hp hne).of_cons
  constructor
  case below =>
    intro a c hk hc
    have hne : a ≠ root := by
      rintro rfl
      rw [Sheet.kind, hs.content_root] at hk
      cases hk
    refine List.rel_of_pairwise_cons (hbelow a (has_of_mem_children hc) hne) ?_
    have hp := hs.mem_children_iff.1 hc
    exact hs.mem_descendants_iff.2 ⟨(hs.parent_ne hp).symm, .single hp⟩
  case apart =>
    intro p
    by_cases hp : s.Has p
    · have hflat := hall p hp
      rw [hs.toIsForest.descendants_eq, List.pairwise_flatMap] at hflat
      refine hflat.2.imp ?_
      intro a b hab x hax
      refine hab x ?_ b List.mem_cons_self
      by_cases hxa : x = a
      · exact hxa ▸ List.mem_cons_self
      · exact List.mem_cons_of_mem _ (hs.mem_descendants_iff.2 ⟨hxa, hax.hangsOn hs.toIsLinked⟩)
    · rw [children_of_not_has hp]
      exact .nil

theorem ordered_read (texts : List (Input × String)) : (read texts).Ordered :=
  .of_pairwise (isSound_read texts) (read_sound texts).2 (pairwise_descendants_read texts)

end Sheet

namespace Lowering

open Sheet

variable {cx : Context} {s t : Sheet} {e : Edit}

/-! ## Edits in order -/

/-- The at-rule that a new rule is made for. Old nodes are themselves. -/
def Edit.origin (e : Edit) (s : Sheet) (x : NodeId) : NodeId :=
  if s.Has x then x else (e.gone[x.index - s.nodes.size]?).getD x

/-- What is going to be reached from a node: from a new rule nothing but itself, which starts where
the at-rule did. -/
def Edit.Within (e : Edit) (s : Sheet) (a x : NodeId) : Prop :=
  if s.Has a then s.Reaches a x else x = e.origin s a

/-- What is going to be reached from `a` starts before `b` does. -/
def Edit.Apart (e : Edit) (s : Sheet) (a b : NodeId) : Prop :=
  ∀ x, e.Within s a x → s.StartsBefore x (e.origin s b)

/-- The rules come from at-rules that go, with children of theirs in the same order, and what comes
in the place of the old node is reached from it, in order. -/
structure Edit.IsOrdered (e : Edit) (s : Sheet) : Prop where
  old : e.old ∈ s.children e.container
  rules : ∀ (i : Nat) (r : NewRule), e.rules[i]? = some r → ∃ a, e.gone[i]? = some a ∧
    r.source = s.source a ∧ r.children.Sublist (s.children a)
  news : ∀ c ∈ e.news, s.Reaches e.old (e.origin s c)
  apart : e.news.Pairwise (e.Apart s)

theorem Edit.origin_of_has {x : NodeId} (hx : s.Has x) : e.origin s x = x :=
  if_pos hx

theorem Edit.origin_new {i : Nat} {a : NodeId} (hi : e.gone[i]? = some a) :
    e.origin s ⟨s.nodes.size + i⟩ = a := by
  have hnew : ¬ s.Has ⟨s.nodes.size + i⟩ := by simp [Has]
  rw [Edit.origin, if_neg hnew, Nat.add_sub_cancel_left, hi]
  rfl

/-- In a row, the new rules come from the at-rules that go. -/
theorem Edit.map_origin_handles (e : Edit) {n : Nat} (hn : n = e.gone.length) :
    (handles s.nodes.size n).map (e.origin s) = e.gone := by
  subst hn
  apply List.ext_getElem
  · rw [List.length_map, length_handles]
  · intro i _ hi
    have hget : e.gone[i]? = some e.gone[i] := List.getElem?_eq_getElem hi
    simpa [handles] using Edit.origin_new hget

theorem Edit.within_of_has {a x : NodeId} (ha : s.Has a) : e.Within s a x ↔ s.Reaches a x := by
  rw [Edit.Within, if_pos ha]

theorem Edit.within_of_not_has {a x : NodeId} (ha : ¬ s.Has a) :
    e.Within s a x ↔ x = e.origin s a := by
  rw [Edit.Within, if_neg ha]

theorem Edit.within_origin (e : Edit) (s : Sheet) (a : NodeId) : e.Within s a (e.origin s a) := by
  by_cases ha : s.Has a
  · rw [Edit.within_of_has ha, Edit.origin_of_has ha]
    exact .refl
  · exact (Edit.within_of_not_has ha).2 rfl

/-- Siblings of before are apart, as they are their own origins. -/
theorem Edit.pairwise_apart (hs : s.IsLinked) (ho : s.Ordered) (p : NodeId) :
    (s.children p).Pairwise (e.Apart s) := by
  have hhas : ∀ c ∈ s.children p, s.Has c := fun c hc =>
    has_of_parent (hs.mem_children_iff.1 hc)
  refine (ho.apart p).imp_of_mem ?_
  intro a b ha hb hab x hax
  rw [Edit.origin_of_has (hhas b hb)]
  exact hab x ((Edit.within_of_has (hhas a ha)).1 hax)

namespace Edit.IsOrdered

variable (he : e.IsOrdered s) (h : e.Leads s t)

include he

/-- What is reached from a node that comes in the place of the old one is reached from that. -/
theorem reaches_of_within {c x : NodeId} (hc : c ∈ e.news) (hcx : e.Within s c x) :
    s.Reaches e.old x := by
  have hreach := he.news c hc
  by_cases hhas : s.Has c
  · rw [Edit.origin_of_has hhas] at hreach
    exact hreach.trans ((Edit.within_of_has hhas).1 hcx)
  · rwa [(Edit.within_of_not_has hhas).1 hcx]

include h

/-- A node starts where its origin does. -/
theorem source_eq {x : NodeId} (hx : t.Has x) : t.source x = s.source (e.origin s x) := by
  rcases (h.has_iff x).1 hx with hold | ⟨i, r, hi, rfl⟩
  · rw [Edit.origin_of_has hold, h.source_eq x hold]
  · obtain ⟨a, ha, hsource, -⟩ := he.rules i r hi
    rw [Edit.origin_new ha, h.source_new i r hi, hsource]

theorem startsBefore {a b : NodeId} (ha : t.Has a) (hb : t.Has b)
    (hab : s.StartsBefore (e.origin s a) (e.origin s b)) : t.StartsBefore a b := by
  obtain ⟨x, y, hx, hy, hxy⟩ := hab
  exact ⟨x, y, (he.source_eq h ha).trans hx, (he.source_eq h hb).trans hy, hxy⟩

omit he in
/-- At-rules are old. -/
theorem has_of_atRule {a : NodeId} (hk : t.kind a = .atRule) : s.Has a ∧ s.kind a = .atRule := by
  have ha : s.Has a := by
    by_contra hnew
    obtain ⟨rule, -, hcontent, -⟩ := h.exists_rule (has_of_kind hk) hnew
    rw [Sheet.kind, hcontent] at hk
    cases hk
  refine ⟨ha, ?_⟩
  rwa [Sheet.kind, h.content_eq a ha] at hk

/-- What is reached after the edit was reached before it, up to the at-rules that rules are made
for. -/
theorem within_of_reaches (hs : s.IsLinked) {a x : NodeId} (hax : t.Reaches a x) :
    e.Within s a (e.origin s x) := by
  by_cases ha : s.Has a
  · rw [Edit.within_of_has ha]
    -- By induction on the way down. It passes at-rules only, and these are old.
    induction hax with
    | refl =>
      rw [Edit.origin_of_has ha]
      exact .refl
    | @tail y z _ hstep ih =>
      obtain ⟨hk, hz⟩ := hstep
      obtain ⟨hy, hk⟩ := has_of_atRule h hk
      rw [Edit.origin_of_has hy] at ih
      rcases h.mem_children_cases hy hz with hz | ⟨-, hold, hz⟩
      · rw [Edit.origin_of_has (has_of_parent (hs.mem_children_iff.1 hz))]
        exact ih.tail ⟨hk, hz⟩
      · exact (ih.tail ⟨hk, hold⟩).trans (he.news z hz)
  · rw [Edit.within_of_not_has ha]
    rcases Relation.ReflTransGen.cases_head hax with rfl | ⟨y, ⟨hk, -⟩, -⟩
    · rfl
    · exact absurd (has_of_atRule h hk).1 ha

omit h in
/-- What comes in the place of a child of the container is reached from that, so it keeps apart from
what comes in the place of the next ones. -/
theorem pairwise_putFor (hs : s.IsLinked) (ho : s.Ordered) :
    (putFor e.old e.news (s.children e.container)).Pairwise (e.Apart s) := by
  have hreach : ∀ {c d x}, c ∈ s.children e.container →
      d ∈ (if c = e.old then e.news else [c]) → e.Within s d x → s.Reaches c x := by
    intro c d x hc hd hdx
    split at hd
    · rename_i heq
      exact heq ▸ he.reaches_of_within hd hdx
    · rw [List.mem_singleton.1 hd] at hdx
      exact (Edit.within_of_has (has_of_parent (hs.mem_children_iff.1 hc))).1 hdx
  rw [putFor, List.pairwise_flatMap]
  constructor
  · intro c _
    split
    · exact he.apart
    · exact List.pairwise_singleton _ c
  · refine (ho.apart e.container).imp_of_mem ?_
    intro a b ha hb hab c hc d hd x hcx
    exact ho.startsBefore_of_reaches (hab x (hreach ha hc hcx))
      (hreach hb hd (e.within_origin s d))

/-- All siblings of afterwards come from where they keep apart. -/
theorem pairwise_children (hs : s.IsLinked) (ho : s.Ordered) (p : NodeId) :
    (t.children p).Pairwise (e.Apart s) := by
  by_cases hp : t.Has p
  · rcases (h.has_iff p).1 hp with hold | ⟨i, r, hi, rfl⟩
    · by_cases hgone : p ∈ e.gone
      · rw [h.children_gone p hgone]
        exact .nil
      by_cases hcontainer : p = e.container
      · rw [hcontainer, h.children_container]
        exact he.pairwise_putFor hs ho
      · rw [h.children_other p hold hcontainer hgone]
        exact (Edit.pairwise_apart hs ho p).filter _
    · obtain ⟨a, -, -, hsub⟩ := he.rules i r hi
      rw [h.children_new i r hi]
      exact (Edit.pairwise_apart hs ho a).sublist hsub
  · rw [children_of_not_has hp]
    exact .nil

/-- An edit in order keeps a sheet ordered. -/
theorem ordered (hs : s.IsLinked) (ho : s.Ordered) : t.Ordered := by
  have hhas : ∀ {p c}, c ∈ t.children p → t.Has c := fun hc =>
    has_of_parent (h.forest.mem_children_iff.1 hc)
  constructor
  case below =>
    intro a c hk hc
    obtain ⟨ha, hk⟩ := has_of_atRule h hk
    refine he.startsBefore h (has_of_mem_children hc) (hhas hc) ?_
    rw [Edit.origin_of_has ha]
    rcases h.mem_children_cases ha hc with hc | ⟨-, hold, hc⟩
    · rw [Edit.origin_of_has (has_of_parent (hs.mem_children_iff.1 hc))]
      exact ho.below a c hk hc
    · exact ho.startsBefore_of_reaches (ho.below a e.old hk hold) (he.news c hc)
  case apart =>
    -- Nodes start where their origins do, and those were apart before.
    intro p
    refine (he.pairwise_children h hs ho p).imp_of_mem ?_
    intro a b ha hb hab x hax
    refine he.startsBefore h (hax.has h.forest.toIsLinked (hhas ha)) (hhas hb) ?_
    exact hab _ (he.within_of_reaches h hs hax)

end Edit.IsOrdered

/-! ## The edits of the passes -/

section Edits

variable {a container : NodeId}

/-- A rule in the place of an at-rule. -/
theorem isOrdered_swap (hs : s.IsLinked) (hp : s.parent a = some container) (selector : String) :
    (Edit.swap s a container selector).IsOrdered s where
  old := hs.mem_children_iff.2 hp
  rules := forall_getElem?_singleton ⟨a, rfl, rfl, .refl _⟩
  news c hc := by
    have horigin : (Edit.swap s a container selector).origin s ⟨s.nodes.size⟩ = a :=
      Edit.origin_new (e := Edit.swap s a container selector) (i := 0) rfl
    rw [List.mem_singleton.1 hc, horigin]
    exact .refl
  apart := List.pairwise_singleton _ _

/-- The children of an at-rule in its place. -/
theorem isOrdered_splice (hs : s.IsLinked) (ho : s.Ordered) (hp : s.parent a = some container)
    (hk : s.kind a = .atRule) : (Edit.splice s a container).IsOrdered s where
  old := hs.mem_children_iff.2 hp
  rules i r hi := by cases hi
  news c hc := by
    rw [Edit.origin_of_has (has_of_parent (hs.mem_children_iff.1 hc))]
    exact .child hk hc
  apart := Edit.pairwise_apart hs ho a

/-- All at-rules of a region are reached from the nodes that were gone through. -/
theorem Region.exists_reaches {parentClass : String} {cs : List NodeId} {region : List Piece}
    (h : Region cx s parentClass cs region) :
    ∀ x ∈ region, ∃ c ∈ cs, s.Reaches c x.atRule := by
  induction h with
  | nil => exact fun x hx => absurd hx List.not_mem_nil
  | other _ _ ih =>
    intro x hx
    obtain ⟨c, hc, hcx⟩ := ih x hx
    exact ⟨c, List.mem_cons_of_mem _ hc, hcx⟩
  | @nested _ name c cs inside rest hname _ _ ihin ihrest =>
    intro x hx
    rcases List.mem_append.1 hx with hx | hx
    · refine ⟨c, List.mem_cons_self, ?_⟩
      rcases List.mem_cons.1 hx with rfl | hx
      · exact .refl
      · obtain ⟨d, hd, hdx⟩ := ihin x hx
        have hk := Context.kind_of_isNested (Context.isNested_of_nestedClass? hname)
        exact (Reaches.child hk hd).trans hdx
    · obtain ⟨d, hd, hdx⟩ := ihrest x hx
      exact ⟨d, List.mem_cons_of_mem _ hd, hdx⟩

/-- In document order, the at-rules of a region start one behind the other. -/
theorem Region.pairwise_startsBefore (ho : s.Ordered) {parentClass : String} {cs : List NodeId}
    {region : List Piece} (h : Region cx s parentClass cs region)
    (hcs : cs.Pairwise fun a b => ∀ x, s.Reaches a x → s.StartsBefore x b) :
    region.Pairwise fun x y => s.StartsBefore x.atRule y.atRule := by
  induction h with
  | nil => exact .nil
  | other _ _ ih => exact ih hcs.of_cons
  | @nested _ name c cs inside rest hname hinside hrest ihin ihrest =>
    have hk := Context.kind_of_isNested (Context.isNested_of_nestedClass? hname)
    -- What is further in is reached from the at-rule, what comes behind from its next siblings.
    have hin : ∀ x ∈ inside, s.StartsBefore c x.atRule ∧ s.Reaches c x.atRule := by
      intro x hx
      obtain ⟨d, hd, hdx⟩ := hinside.exists_reaches x hx
      exact ⟨ho.startsBefore_of_reaches (ho.below c d hk hd) hdx, (Reaches.child hk hd).trans hdx⟩
    have hbehind : ∀ y ∈ rest, ∀ x, s.Reaches c x → s.StartsBefore x y.atRule := by
      intro y hy x hcx
      obtain ⟨d, hd, hdy⟩ := hrest.exists_reaches y hy
      exact ho.startsBefore_of_reaches (List.rel_of_pairwise_cons hcs hd x hcx) hdy
    refine List.pairwise_append.2 ⟨.cons (fun x hx => (hin x hx).1) (ihin (ho.apart c)),
      ihrest hcs.of_cons, ?_⟩
    intro x hx y hy
    rcases List.mem_cons.1 hx with rfl | hx
    · exact hbehind y hy c .refl
    · exact hbehind y hy x.atRule (hin x hx).2

/-- Rules for a component and its region in a row. -/
theorem isOrdered_flatten (hs : s.IsLinked) (ho : s.Ordered) {name parentClass : String}
    {region : List Piece} (hp : s.parent a = some container) (hk : s.kind a = .atRule)
    (hregion : Region cx s parentClass (s.children a) region) :
    (Edit.flatten s a container (⟨a, name⟩ :: region)).IsOrdered s := by
  have hreach : ∀ x ∈ (⟨a, name⟩ :: region : List Piece), s.Reaches a x.atRule := by
    intro x hx
    rcases List.mem_cons.1 hx with rfl | hx
    · exact .refl
    · obtain ⟨c, hc, hcx⟩ := hregion.exists_reaches x hx
      exact (Reaches.child hk hc).trans hcx
  have hpieces : (⟨a, name⟩ :: region : List Piece).Pairwise fun x y =>
      s.StartsBefore x.atRule y.atRule := by
    refine .cons ?_ (hregion.pairwise_startsBefore ho (ho.apart a))
    intro x hx
    obtain ⟨c, hc, hcx⟩ := hregion.exists_reaches x hx
    exact ho.startsBefore_of_reaches (ho.below a c hk hc) hcx
  generalize (⟨a, name⟩ :: region : List Piece) = pieces at hreach hpieces
  -- The rules are in the order of the pieces that they are made for.
  have horigins : (handles s.nodes.size pieces.length).map
      ((Edit.flatten s a container pieces).origin s) = pieces.map Piece.atRule :=
    Edit.map_origin_handles (Edit.flatten s a container pieces) (List.length_map _).symm
  constructor
  case old => exact hs.mem_children_iff.2 hp
  case rules =>
    intro i r hi
    obtain ⟨x, hx, rfl⟩ := Option.map_eq_some_iff.1 ((List.getElem?_map ..).symm.trans hi)
    refine ⟨x.atRule, ?_, rfl, List.filter_sublist⟩
    exact (List.getElem?_map ..).trans (congrArg (Option.map Piece.atRule) hx)
  case news =>
    intro c hc
    obtain ⟨x, hx, heq⟩ := List.mem_map.1 (horigins ▸ List.mem_map_of_mem hc)
    rw [← heq]
    exact hreach x hx
  case apart =>
    have hnews : (handles s.nodes.size pieces.length).Pairwise fun c d =>
        s.StartsBefore ((Edit.flatten s a container pieces).origin s c)
          ((Edit.flatten s a container pieces).origin s d) := by
      rw [← List.pairwise_map (R := s.StartsBefore), horigins, List.pairwise_map]
      exact hpieces
    refine hnews.imp_of_mem ?_
    intro c d hc _ hcd x hcx
    have hnew : ¬ s.Has c := fun hold => not_mem_handles_of_has hold (Nat.le_refl _) _ hc
    rw [(Edit.within_of_not_has hnew).1 hcx]
    exact hcd

end Edits

end Lowering

end ClassRules
