import ClassRules.Proofs.Lowering.Region
import Mathlib.Data.List.Forall2

/-!
# What becomes of a component

## What this module delivers

- `handles`: the handles of new nodes, in the order in which they are made.
- `StandsFor`: a rule stands for a piece of a component.
- `Underway`: what holds while the children of an at-rule are gone through, with numbers that grow
  from parent to child and that no step spoils.
- `Spread`: what going through them does. `Spread.nil`, `Spread.moved` and `Entered.nested` put it
  together from what is done with the first child and with those behind it.
-/

set_option autoImplicit false

namespace ClassRules.Lowering

open Sheet

/-- The handles of `count` nodes from the number `first` on. -/
def handles (first count : Nat) : List NodeId :=
  (List.range' first count).map NodeId.mk

theorem handles_succ (first count : Nat) :
    handles first (count + 1) = ⟨first⟩ :: handles (first + 1) count := by
  simp [handles, List.range'_succ]

theorem handles_add (first m n : Nat) :
    handles first (m + n) = handles first m ++ handles (first + m) n := by
  rw [handles, ← List.range'_append_1, List.map_append]
  rfl

theorem mem_handles {first count : Nat} {id : NodeId} :
    id ∈ handles first count ↔ first ≤ id.index ∧ id.index < first + count := by
  cases id
  simp [handles, List.mem_range'_1]

@[simp] theorem length_handles (first count : Nat) : (handles first count).length = count := by
  simp [handles]

theorem nodup_handles (first count : Nat) : (handles first count).Nodup := by
  refine List.Nodup.map ?_ List.nodup_range'
  intro a b h
  exact NodeId.mk.inj h

/-- What is there does not get a handle once more. -/
theorem not_mem_handles_of_has {s : Sheet} {id : NodeId} (hid : s.Has id) {first : Nat}
    (hle : s.nodes.size ≤ first) (count : Nat) : id ∉ handles first count := by
  intro hmem
  have hfirst := (mem_handles.1 hmem).1
  simp only [Has] at hid
  omega

/-- When a sheet has grown by some nodes, what is new is one of these. -/
theorem mem_handles_of_new {s t : Sheet} {count : Nat}
    (hsize : t.nodes.size = s.nodes.size + count) {id : NodeId} (hid : t.Has id)
    (hnew : ¬ s.Has id) : id ∈ handles s.nodes.size count := by
  simp only [Has, hsize] at hid hnew
  exact mem_handles.2 ⟨by omega, hid⟩

/-! ## Lists side by side -/

section SideBySide

variable {α β : Type} {R S : α → β → Prop} {l₁ : List α} {l₂ : List β}

theorem forall₂_imp_of_mem (h : List.Forall₂ R l₁ l₂)
    (himp : ∀ a ∈ l₁, ∀ b ∈ l₂, R a b → S a b) : List.Forall₂ S l₁ l₂ := by
  induction h with
  | nil => exact .nil
  | cons hab _ ih =>
    refine .cons (himp _ List.mem_cons_self _ List.mem_cons_self hab) (ih ?_)
    intro a ha b hb
    exact himp a (List.mem_cons_of_mem _ ha) b (List.mem_cons_of_mem _ hb)

theorem exists_of_forall₂ (h : List.Forall₂ R l₁ l₂) {a : α} (ha : a ∈ l₁) :
    ∃ b ∈ l₂, R a b := by
  induction h with
  | nil => simp at ha
  | cons hab _ ih =>
    rcases List.mem_cons.1 ha with rfl | ha
    · exact ⟨_, List.mem_cons_self, hab⟩
    · obtain ⟨b, hb, hab⟩ := ih ha
      exact ⟨b, List.mem_cons_of_mem _ hb, hab⟩

end SideBySide

/-! ## What is proved of a component -/

/-- A rule stands for a piece: it has its class as selector, its source, and those of its children
that do not go along with it. -/
structure StandsFor (along : NodeId → Bool) (s t : Sheet) (rule : NodeId) (piece : Piece) :
    Prop where
  content_eq : t.content rule = .rule ("." ++ piece.name)
  source_eq : t.source rule = s.source piece.atRule
  children_eq : t.children rule = (s.children piece.atRule).filter (!along ·)

variable {cx : Context} {s : Sheet} {rank : NodeId → Nat}

/-- How things stand in `t` while the children of `owner` are gone through, `cs` being left. The
sheet at the beginning is `s`. What goes along is untouched, and all new nodes have the number of a
child of the container, so anything in the owner may move to one of them. -/
structure Underway (s : Sheet) (rank : NodeId → Nat) (container rule owner : NodeId)
    (cs : List NodeId) (region : List Piece) (t : Sheet) : Prop where
  linked : t.IsLinked
  ranked : t.Ranked rank
  size_le : s.nodes.size ≤ t.nodes.size
  rank_new : ∀ id, ¬ t.Has id → rank id = rank container + 1
  content_eq : ∀ id, s.Has id → t.content id = s.content id
  source_eq : ∀ id, s.Has id → t.source id = s.source id
  region_eq : ∀ x ∈ region, t.children x.atRule = s.children x.atRule
  region_ne : ∀ x ∈ region, x.atRule ≠ container ∧ x.atRule ≠ rule ∧ x.atRule ≠ owner
  region_has : ∀ x ∈ region, s.Has x.atRule
  owner_eq : t.children owner = cs
  parent_eq : ∀ c ∈ cs, s.parent c = some owner
  rank_lt : ∀ c ∈ cs, rank container + 1 < rank c
  has_container : t.Has container
  has_rule : t.Has rule
  rank_rule : rank rule ≤ rank container + 1
  container_ne_rule : container ≠ rule
  container_ne_owner : container ≠ owner
  rule_ne_owner : rule ≠ owner

/-- What going through the children `cs` of `owner` has done from `t` to `u`: new rules for the
region stand between `front` and `back` in the container, the other children have moved to `rule`,
and what went along is empty. -/
structure Spread (cx : Context) (s : Sheet) (rank : NodeId → Nat)
    (container rule owner : NodeId) (front back cs : List NodeId) (region : List Piece)
    (t u : Sheet) : Prop where
  linked : u.IsLinked
  ranked : u.Ranked rank
  size_eq : u.nodes.size = t.nodes.size + region.length
  content_eq : ∀ id, t.Has id → u.content id = t.content id
  source_eq : ∀ id, t.Has id → u.source id = t.source id
  container_eq :
    u.children container = front ++ handles t.nodes.size region.length ++ back
  rule_eq : u.children rule = t.children rule ++ cs.filter (!cx.isNested s ·)
  owner_eq : u.children owner = []
  region_eq : ∀ x ∈ region, u.children x.atRule = []
  other_eq : ∀ id, t.Has id → id ≠ container → id ≠ rule → id ≠ owner →
    (∀ x ∈ region, x.atRule ≠ id) → u.children id = t.children id
  stands : List.Forall₂ (StandsFor (cx.isNested s) s u) (handles t.nodes.size region.length) region

/-! ## One child after the other -/

section Loop

variable {container rule owner c : NodeId} {front back cs : List NodeId} {t u v : Sheet}

namespace Underway

variable {region : List Piece}

theorem isForest (h : Underway s rank container rule owner cs region t) : t.IsForest :=
  .of_ranked h.linked h.ranked

theorem has_of_has (h : Underway s rank container rule owner cs region t) {id : NodeId}
    (hid : s.Has id) : t.Has id :=
  Nat.lt_of_lt_of_le hid h.size_le

theorem parent_of_mem (h : Underway s rank container rule owner cs region t) (hc : c ∈ cs) :
    t.parent c = some owner :=
  h.linked.mem_children_iff.1 (h.owner_eq ▸ hc)

theorem has_of_mem (h : Underway s rank container rule owner cs region t) (hc : c ∈ cs) :
    t.Has c :=
  has_of_parent (h.parent_of_mem hc)

theorem not_mem_of_ne (h : Underway s rank container rule owner cs region t) (hc : c ∈ cs)
    {id : NodeId} (hid : id ≠ owner) : c ∉ t.children id := fun hcid =>
  hid (Option.some.inj ((h.linked.mem_children_iff.1 hcid).symm.trans (h.parent_of_mem hc)))

/-- After a child that goes nowhere has moved to the rule, the others are left. -/
theorem moved (h : Underway s rank container rule owner (c :: cs) region t) :
    Underway s rank container rule owner cs region (t.move rule c (· ++ [c])) := by
  have hc : c ∈ c :: cs := List.mem_cons_self
  have hlt : rank rule < rank c := Nat.lt_of_le_of_lt h.rank_rule (h.rank_lt c hc)
  -- Only the owner loses the child and only the rule gets it.
  have hother : ∀ id, id ≠ rule → id ≠ owner →
      (t.move rule c (· ++ [c])).children id = t.children id := fun id hr ho =>
    children_move_of_not_mem h.linked h.has_rule hr (h.not_mem_of_ne hc ho) _
  have howner : (t.move rule c (· ++ [c])).children owner = cs := by
    have hnd := h.owner_eq ▸ h.linked.nodup_children owner
    rw [children_move h.linked h.has_rule, if_neg (Ne.symm h.rule_ne_owner), h.owner_eq,
      List.filter_cons_of_neg (by simp)]
    exact List.filter_eq_self.2 fun d hd =>
      decide_eq_true fun e => (List.nodup_cons.1 hnd).1 (e ▸ hd)
  exact {
    linked := h.linked.move h.has_rule (h.has_of_mem hc) (adds_append c)
    ranked := h.ranked.move (h.has_of_mem hc) hlt _
    size_le := by simpa using h.size_le
    rank_new := fun id hid => h.rank_new id (by simpa using hid)
    content_eq := fun id hid => by rw [content_move, h.content_eq id hid]
    source_eq := fun id hid => by rw [source_move, h.source_eq id hid]
    region_eq := fun x hx => by
      rw [hother _ (h.region_ne x hx).2.1 (h.region_ne x hx).2.2, h.region_eq x hx]
    region_ne := h.region_ne
    region_has := h.region_has
    owner_eq := howner
    parent_eq := fun d hd => h.parent_eq d (List.mem_cons_of_mem _ hd)
    rank_lt := fun d hd => h.rank_lt d (List.mem_cons_of_mem _ hd)
    has_container := by simpa using h.has_container
    has_rule := by simpa using h.has_rule
    rank_rule := h.rank_rule
    container_ne_rule := h.container_ne_rule
    container_ne_owner := h.container_ne_owner
    rule_ne_owner := h.rule_ne_owner }

/-- Once the rule for a nested at-rule stands in the container, the children of the at-rule are to
be gone through. -/
theorem entered {name : String} {inside rest : List Piece}
    (h : Underway s rank container rule owner (c :: cs) (⟨c, name⟩ :: inside ++ rest) t)
    (hs : s.IsForest) (hsr : s.Ranked rank) (hin : Region cx s name (s.children c) inside)
    {content : Content} {source : Option Source}
    (hi : Inserted t u container front back content source) (hu : u.Ranked rank) :
    Underway s rank container ⟨t.nodes.size⟩ c (s.children c) inside u := by
  have hc : c ∈ c :: cs := List.mem_cons_self
  have hsize := hi.size_eq
  have hhas : ∀ {id}, t.Has id → u.Has id := fun hid => hid.mono (by omega)
  have hsub : ∀ x ∈ inside, x ∈ (⟨c, name⟩ :: inside ++ rest : List Piece) := fun x hx =>
    List.mem_append_left _ (List.mem_cons_of_mem _ hx)
  have hcc : c ≠ container := (h.region_ne ⟨c, name⟩ (by simp)).1
  exact {
    linked := hi.linked
    ranked := hu
    size_le := by have := h.size_le; omega
    rank_new := fun id hid => h.rank_new id fun ht => hid (hhas ht)
    content_eq := fun id hid => by rw [hi.content_eq id (h.has_of_has hid), h.content_eq id hid]
    source_eq := fun id hid => by rw [hi.source_eq id (h.has_of_has hid), h.source_eq id hid]
    region_eq := fun x hx => by
      rw [hi.other_eq _ (h.region_ne x (hsub x hx)).1, h.region_eq x (hsub x hx)]
    region_ne := fun x hx => ⟨(h.region_ne x (hsub x hx)).1,
      (h.has_of_has (h.region_has x (hsub x hx))).ne_new, (hin.hangsOn_and_ne hs x hx).2⟩
    region_has := fun x hx => h.region_has x (hsub x hx)
    owner_eq := by rw [hi.other_eq _ hcc, h.region_eq ⟨c, name⟩ (by simp)]
    parent_eq := fun d hd => hs.mem_children_iff.1 hd
    rank_lt := fun d hd => Nat.lt_trans (h.rank_lt c hc) (hsr (hs.mem_children_iff.1 hd))
    has_container := hhas h.has_container
    has_rule := by simp only [Has]; omega
    rank_rule := Nat.le_of_eq (h.rank_new _ (not_has_new t))
    container_ne_rule := h.has_container.ne_new
    container_ne_owner := Ne.symm hcc
    rule_ne_owner := Ne.symm (h.has_of_mem hc).ne_new }

end Underway

namespace Spread

/-- Nothing is left to do when no child is left. -/
theorem nil (h : Underway s rank container rule owner [] [] t)
    (heq : t.children container = front ++ back) :
    Spread cx s rank container rule owner front back [] [] t t where
  linked := h.linked
  ranked := h.ranked
  size_eq := rfl
  content_eq _ _ := rfl
  source_eq _ _ := rfl
  container_eq := by rw [heq, List.length_nil, handles, List.range'_zero]; simp
  rule_eq := by simp
  owner_eq := h.owner_eq
  region_eq := by simp
  other_eq _ _ _ _ _ _ := rfl
  stands := by simp [handles]

/-- A child that goes nowhere moves to the rule before the others are gone through. -/
theorem moved {region : List Piece}
    (h : Underway s rank container rule owner (c :: cs) region t)
    (hc : cx.isNested s c = false)
    (hs : Spread cx s rank container rule owner front back cs region (t.move rule c (· ++ [c])) u) :
    Spread cx s rank container rule owner front back (c :: cs) region t u where
  linked := hs.linked
  ranked := hs.ranked
  size_eq := by simpa using hs.size_eq
  content_eq id hid := by rw [hs.content_eq id (by simpa using hid), content_move]
  source_eq id hid := by rw [hs.source_eq id (by simpa using hid), source_move]
  container_eq := by simpa using hs.container_eq
  rule_eq := by
    have hcr := h.not_mem_of_ne List.mem_cons_self h.rule_ne_owner
    rw [hs.rule_eq, children_move_self h.linked h.has_rule hcr,
      List.filter_cons_of_pos (by simp [hc])]
    simp
  owner_eq := hs.owner_eq
  region_eq := hs.region_eq
  other_eq id hid hcont hrule howner hreg := by
    rw [hs.other_eq id (by simpa using hid) hcont hrule howner hreg,
      children_move_of_not_mem h.linked h.has_rule hrule
        (h.not_mem_of_ne List.mem_cons_self howner)]
  stands := by simpa using hs.stands

end Spread

/-- A nested at-rule `c` has been gone through, but still stands in its owner: from `t` to `u` its
rule came to stand in the container, and from `u` to `v` what stood in it was spread. -/
structure Entered (cx : Context) (s : Sheet) (rank : NodeId → Nat) (container rule owner c : NodeId)
    (front back cs : List NodeId) (name : String) (inside rest : List Piece) (t u v : Sheet) :
    Prop where
  forest : s.IsForest
  underway : Underway s rank container rule owner (c :: cs) (⟨c, name⟩ :: inside ++ rest) t
  nodup : ((⟨c, name⟩ :: inside ++ rest : List Piece).map Piece.atRule).Nodup
  inserted : Inserted t u container front back (.rule ("." ++ name)) (s.source c)
  spread : Spread cx s rank container ⟨t.nodes.size⟩ c (front ++ [⟨t.nodes.size⟩]) back
    (s.children c) inside u v

namespace Entered

variable {name : String} {inside rest : List Piece} {w : Sheet} {id : NodeId}
  (h : Entered cx s rank container rule owner c front back cs name inside rest t u v)

include h

theorem size_eq : v.nodes.size = t.nodes.size + 1 + inside.length := by
  rw [h.spread.size_eq, h.inserted.size_eq]

theorem has_inserted (hid : t.Has id) : u.Has id := by
  have hsize := h.inserted.size_eq
  simp only [Has] at hid ⊢
  omega

theorem has_detach (hid : t.Has id) : (v.detach c).Has id := by
  have hsize := h.size_eq
  simp only [Has, size_detach] at hid ⊢
  omega

theorem has_owner : t.Has owner :=
  h.underway.linked.has_parent (h.underway.parent_of_mem List.mem_cons_self)

/-- Going through the at-rule leaves the children of all other nodes alone but those of the
container and of what went along. -/
theorem children_spread (hid : t.Has id) (hcont : id ≠ container) (hidc : id ≠ c)
    (hreg : ∀ x ∈ inside, x.atRule ≠ id) : v.children id = t.children id := by
  rw [h.spread.other_eq id (h.has_inserted hid) hcont hid.ne_new hidc hreg,
    h.inserted.other_eq id hcont]

theorem children_owner_spread : v.children owner = c :: cs := by
  have hcont := Ne.symm h.underway.container_ne_owner
  have hoc : owner ≠ c := h.forest.parent_ne (h.underway.parent_eq c List.mem_cons_self)
  rw [h.children_spread h.has_owner hcont hoc, h.underway.owner_eq]
  exact fun x hx => (h.underway.region_ne x (by simp [hx])).2.2

theorem children_detach_of_ne (hid : id ≠ owner) : (v.detach c).children id = v.children id := by
  have hparent : v.parent c = some owner :=
    h.spread.linked.mem_children_iff.1 (by simp [h.children_owner_spread])
  refine children_detach_of_not_mem h.spread.linked fun hcid => hid ?_
  exact Option.some.inj ((h.spread.linked.mem_children_iff.1 hcid).symm.trans hparent)

/-- Only the other children of the owner are left in it. -/
theorem children_owner : (v.detach c).children owner = cs := by
  have hnd := h.children_owner_spread ▸ h.spread.linked.nodup_children owner
  rw [children_detach h.spread.linked, h.children_owner_spread, List.filter_cons_of_neg (by simp)]
  exact List.filter_eq_self.2 fun d hd =>
    decide_eq_true fun e => (List.nodup_cons.1 hnd).1 (e ▸ hd)

theorem children_old (hid : t.Has id) (hcont : id ≠ container) (hido : id ≠ owner) (hidc : id ≠ c)
    (hreg : ∀ x ∈ inside, x.atRule ≠ id) : (v.detach c).children id = t.children id := by
  rw [h.children_detach_of_ne hido, h.children_spread hid hcont hidc hreg]

theorem content_old (hid : t.Has id) : (v.detach c).content id = t.content id := by
  rw [content_detach, h.spread.content_eq id (h.has_inserted hid), h.inserted.content_eq id hid]

theorem source_old (hid : t.Has id) : (v.detach c).source id = t.source id := by
  rw [source_detach, h.spread.source_eq id (h.has_inserted hid), h.inserted.source_eq id hid]

/-- What goes along later is neither the at-rule nor a part of what went along with it. -/
theorem atRule_ne {x y : Piece} (hx : x ∈ (⟨c, name⟩ :: inside : List Piece)) (hy : y ∈ rest) :
    x.atRule ≠ y.atRule := by
  have hnd := h.nodup
  rw [List.map_append] at hnd
  exact (List.nodup_append.1 hnd).2.2 x.atRule (List.mem_map_of_mem hx) y.atRule
    (List.mem_map_of_mem hy)

/-- After the at-rule has been taken out, the children behind it are left. -/
theorem left : Underway s rank container rule owner cs rest (v.detach c) := by
  have hu := h.underway
  have hsize := h.size_eq
  have hsub : ∀ x ∈ rest, x ∈ (⟨c, name⟩ :: inside ++ rest : List Piece) := fun x hx =>
    List.mem_append_right _ hx
  exact {
    linked := h.spread.linked.detach c
    ranked := h.spread.ranked.detach c
    size_le := by have := hu.size_le; simp only [size_detach]; omega
    rank_new := fun id hid => hu.rank_new id fun ht => hid (h.has_detach ht)
    content_eq := fun id hid => by rw [h.content_old (hu.has_of_has hid), hu.content_eq id hid]
    source_eq := fun id hid => by rw [h.source_old (hu.has_of_has hid), hu.source_eq id hid]
    region_eq := fun x hx => by
      obtain ⟨hcont, -, ho⟩ := hu.region_ne x (hsub x hx)
      have hne : x.atRule ≠ c := Ne.symm (h.atRule_ne List.mem_cons_self hx)
      rw [h.children_old (hu.has_of_has (hu.region_has x (hsub x hx))) hcont ho hne
        fun y hy => h.atRule_ne (List.mem_cons_of_mem _ hy) hx, hu.region_eq x (hsub x hx)]
    region_ne := fun x hx => hu.region_ne x (hsub x hx)
    region_has := fun x hx => hu.region_has x (hsub x hx)
    owner_eq := h.children_owner
    parent_eq := fun d hd => hu.parent_eq d (List.mem_cons_of_mem _ hd)
    rank_lt := fun d hd => hu.rank_lt d (List.mem_cons_of_mem _ hd)
    has_container := h.has_detach hu.has_container
    has_rule := h.has_detach hu.has_rule
    rank_rule := hu.rank_rule
    container_ne_rule := hu.container_ne_rule
    container_ne_owner := hu.container_ne_owner
    rule_ne_owner := hu.rule_ne_owner }

/-! ### The children behind the at-rule -/

variable (hw : Spread cx s rank container rule owner
  (front ++ handles t.nodes.size (inside.length + 1)) back cs rest (v.detach c) w)

include hw

/-- What went along before the rest is no part of the rest, so the rest leaves it alone. -/
theorem children_along {x : Piece} (hx : x ∈ (⟨c, name⟩ :: inside : List Piece)) :
    w.children x.atRule = [] := by
  have hx' : x ∈ (⟨c, name⟩ :: inside ++ rest : List Piece) := List.mem_append_left _ hx
  obtain ⟨hcont, hrule, ho⟩ := h.underway.region_ne x hx'
  have hhas := h.has_detach (h.underway.has_of_has (h.underway.region_has x hx'))
  rw [hw.other_eq _ hhas hcont hrule ho fun y hy => Ne.symm (h.atRule_ne hx hy),
    h.children_detach_of_ne ho]
  rcases List.mem_cons.1 hx with rfl | hx
  · exact h.spread.owner_eq
  · exact h.spread.region_eq x hx

/-- The rest leaves the rules of what went along before it alone. -/
theorem new_eq (hid : v.Has id) (ht : ¬ t.Has id) :
    w.content id = v.content id ∧ w.source id = v.source id ∧ w.children id = v.children id := by
  have hid' : (v.detach c).Has id := by simpa using hid
  have hcont : id ≠ container := fun e => ht (e ▸ h.underway.has_container)
  have hrule : id ≠ rule := fun e => ht (e ▸ h.underway.has_rule)
  have howner : id ≠ owner := fun e => ht (e ▸ h.has_owner)
  have hreg : ∀ x ∈ rest, x.atRule ≠ id := fun x hx e =>
    ht (e ▸ h.underway.has_of_has (h.underway.region_has x (List.mem_append_right _ hx)))
  refine ⟨?_, ?_, ?_⟩
  · rw [hw.content_eq id hid', content_detach]
  · rw [hw.source_eq id hid', source_detach]
  · rw [hw.other_eq id hid' hcont hrule howner hreg, h.children_detach_of_ne howner]

/-- The rule of the at-rule, and behind it those of what went along, stand for these. -/
theorem stands : List.Forall₂ (StandsFor (cx.isNested s) s w)
    (handles t.nodes.size (inside.length + 1)) (⟨c, name⟩ :: inside) := by
  have hsize := h.inserted.size_eq
  have hfirst : StandsFor (cx.isNested s) s v ⟨t.nodes.size⟩ ⟨c, name⟩ := by
    have hid : u.Has ⟨t.nodes.size⟩ := by simp only [Has]; omega
    refine ⟨?_, ?_, ?_⟩
    · rw [h.spread.content_eq _ hid, h.inserted.content_new]
    · rw [h.spread.source_eq _ hid, h.inserted.source_new]
    · rw [h.spread.rule_eq, h.inserted.other_eq _ (Ne.symm h.underway.has_container.ne_new),
        children_of_not_has (not_has_new t), List.nil_append]
  -- They do so before the rest is gone through, and the rest leaves new nodes alone.
  have hbefore : List.Forall₂ (StandsFor (cx.isNested s) s v)
      (handles t.nodes.size (inside.length + 1)) (⟨c, name⟩ :: inside) := by
    rw [handles_succ]
    exact .cons hfirst (hsize ▸ h.spread.stands)
  apply forall₂_imp_of_mem hbefore
  intro r hr x _ hstands
  obtain ⟨hle, hlt⟩ := mem_handles.1 hr
  have hv : v.Has r := by
    have hsize' := h.size_eq
    simp only [Has]
    omega
  obtain ⟨hcontent, hsource, hchildren⟩ := h.new_eq hw hv (by simp only [Has]; omega)
  refine ⟨?_, ?_, ?_⟩
  · rw [hcontent, hstands.content_eq]
  · rw [hsource, hstands.source_eq]
  · rw [hchildren, hstands.children_eq]

/-- A nested at-rule is gone through and taken out before the children behind it. -/
theorem nested (hc : cx.isNested s c = true) :
    Spread cx s rank container rule owner front back (c :: cs) (⟨c, name⟩ :: inside ++ rest)
      t w := by
  have hu := h.underway
  have hsizew := hw.size_eq
  have hlen : (⟨c, name⟩ :: inside ++ rest : List Piece).length =
      inside.length + 1 + rest.length := by simp; omega
  have hstart : (v.detach c).nodes.size = t.nodes.size + (inside.length + 1) := by
    rw [size_detach, h.size_eq]
    omega
  constructor
  case linked =>
    exact hw.linked
  case ranked =>
    exact hw.ranked
  case size_eq =>
    rw [hlen]
    omega
  case content_eq =>
    intro id hid
    rw [hw.content_eq id (h.has_detach hid), h.content_old hid]
  case source_eq =>
    intro id hid
    rw [hw.source_eq id (h.has_detach hid), h.source_old hid]
  case container_eq =>
    rw [hw.container_eq, hlen, hstart, handles_add _ (inside.length + 1), List.append_assoc front]
  case rule_eq =>
    -- The rule of the owner gets none of what stood in the nested at-rule.
    have hcrule := (hu.region_ne ⟨c, name⟩ (by simp)).2.1
    have hrule := h.children_old hu.has_rule (Ne.symm hu.container_ne_rule) hu.rule_ne_owner
      (Ne.symm hcrule) fun x hx => (hu.region_ne x (by simp [hx])).2.1
    rw [hw.rule_eq, hrule, List.filter_cons_of_neg (by simp [hc])]
  case owner_eq =>
    exact hw.owner_eq
  case region_eq =>
    intro x hx
    rcases List.mem_append.1 hx with hx | hx
    · exact h.children_along hw hx
    · exact hw.region_eq x hx
  case other_eq =>
    intro id hid hcont hrule ho hreg
    have hidc : id ≠ c := fun e => hreg ⟨c, name⟩ (by simp) e.symm
    rw [hw.other_eq id (h.has_detach hid) hcont hrule ho fun x hx => hreg x (by simp [hx]),
      h.children_old hid hcont ho hidc fun x hx => hreg x (by simp [hx])]
  case stands =>
    rw [hlen, handles_add _ (inside.length + 1)]
    exact List.rel_append (h.stands hw) (hstart ▸ hw.stands)

end Entered

end Loop

end ClassRules.Lowering
