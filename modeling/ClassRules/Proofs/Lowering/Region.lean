import ClassRules.Lowering.Component
import ClassRules.Proofs.Lowering.Progress

/-!
# The at-rules that go with a component

A component takes the modifiers and descendents in it along, and those in them. Each at-rule that
goes along has a class: the class of the one that it stands in, the separator for its kind, and its
own params.

## What this module delivers

- `Convention.namespacePrefix`: what a namespace puts in front of the name of a component.
  `Context.componentName_eq`: the name that a component gets starts with it.
- `Context.nestedClass?`: the class of a modifier or descendent, part by part.
  `nestedName?_of_nestedClass?`: the name that such an at-rule gets is this one.
- `Region`: the at-rules that go along, in document order, each with its class.
- `exists_region`, `Region.unique`: in a forest there is one such list for any nodes.
- `Region.hangsOn`, `Region.isNested`, `Region.mem_of_mem_children`, `Region.nodup`: where they
  stand, and that they are all and different.
-/

set_option autoImplicit false

namespace ClassRules

/-- What a namespace puts in front of the name of a component. -/
def Convention.namespacePrefix (c : Convention) : Option String → String
  | none => ""
  | some ns => if ns = "" then "" else ns ++ c.separators.get .ns

namespace Lowering

open Sheet

/-- The class of a modifier or descendent: that of its parent, the separator and its own params. An
at-rule that is both is a modifier. -/
def Context.nestedClass? (cx : Context) (s : Sheet) (parentClass : String) (id : NodeId) :
    Option String :=
  if cx.isA s .modifier id then
    some (parentClass ++ cx.convention.separators.modifier ++ s.params id)
  else if cx.isA s .descendent id then
    some (parentClass ++ cx.convention.separators.descendent ++ s.params id)
  else none

/-- Whether a node is a modifier or a descendent. -/
def Context.isNested (cx : Context) (s : Sheet) (id : NodeId) : Bool :=
  cx.isA s .modifier id || cx.isA s .descendent id

/-- An at-rule with the class of the rule that is to stand for it. -/
structure Piece where
  atRule : NodeId
  name : String

/-- Among nodes in what has the class `parentClass`, and in what is found so, the modifiers and
descendents in document order. Other nodes are passed by, with all that they hold. -/
inductive Region (cx : Context) (s : Sheet) : String → List NodeId → List Piece → Prop where
  | nil {parentClass : String} : Region cx s parentClass [] []
  | other {parentClass : String} {c : NodeId} {cs : List NodeId} {rest : List Piece} :
    cx.nestedClass? s parentClass c = none → Region cx s parentClass cs rest →
    Region cx s parentClass (c :: cs) rest
  | nested {parentClass name : String} {c : NodeId} {cs : List NodeId}
      {inside rest : List Piece} :
    cx.nestedClass? s parentClass c = some name → Region cx s name (s.children c) inside →
    Region cx s parentClass cs rest →
    Region cx s parentClass (c :: cs) (⟨c, name⟩ :: inside ++ rest)

variable {cx : Context} {s t : Sheet}

/-! ## Classes -/

/-- The name of a component is what its namespace puts in front, and its own name. -/
theorem Context.componentName_eq (cx : Context) (ns : Option String) (name : String) :
    cx.componentName ns name = cx.convention.namespacePrefix ns ++ name := by
  cases ns with
  | none => simp [componentName, Convention.namespacePrefix]
  | some ns =>
    by_cases hempty : ns = ""
    · simp [componentName, Convention.namespacePrefix, hempty]
    · simp [componentName, Convention.namespacePrefix, Convention.joinNamespace, Convention.join,
        hempty]

theorem joinModifier_eq (c : Convention) (parentClass name : String) :
    c.joinModifier parentClass name = parentClass ++ c.separators.modifier ++ name :=
  rfl

theorem joinDescendent_eq (c : Convention) (parentClass name : String) :
    c.joinDescendent parentClass name = parentClass ++ c.separators.descendent ++ name :=
  rfl

theorem Context.nestedClass?_congr {id : NodeId} (h : t.content id = s.content id)
    (parentClass : String) :
    cx.nestedClass? t parentClass id = cx.nestedClass? s parentClass id := by
  simp only [nestedClass?, isA_congr h, Sheet.params, h]

theorem Context.nestedClass?_eq_none_iff {parentClass : String} {id : NodeId} :
    cx.nestedClass? s parentClass id = none ↔ cx.isNested s id = false := by
  unfold nestedClass? isNested
  cases cx.isA s .modifier id <;> cases cx.isA s .descendent id <;> simp

theorem Context.isNested_of_nestedClass? {parentClass name : String} {id : NodeId}
    (h : cx.nestedClass? s parentClass id = some name) : cx.isNested s id = true := by
  by_contra hn
  rw [Context.nestedClass?_eq_none_iff.2 (by simpa using hn)] at h
  cases h

/-- Only at-rules are modifiers or descendents. -/
theorem Context.kind_of_isNested {id : NodeId} (h : cx.isNested s id = true) :
    s.kind id = .atRule := by
  rcases (Bool.or_eq_true _ _).mp h with h | h <;> exact kind_of_isA h

/-- What is counted for the at-rules that go along. -/
def regionStats (cx : Context) (s : Sheet) (region : List Piece) : Stats where
  modifiers := region.countP (cx.isA s .modifier ·.atRule)
  descendents := region.countP (!cx.isA s .modifier ·.atRule)

theorem regionStats_append (cx : Context) (s : Sheet) (region region' : List Piece) :
    regionStats cx s (region ++ region') = regionStats cx s region + regionStats cx s region' := by
  simp [regionStats, Stats.add_def]

theorem regionStats_congr {cx : Context} {s t : Sheet} {region : List Piece}
    (h : ∀ x ∈ region, t.content x.atRule = s.content x.atRule) :
    regionStats cx t region = regionStats cx s region := by
  have hisA : ∀ x ∈ region, cx.isA t .modifier x.atRule = cx.isA s .modifier x.atRule :=
    fun x hx => by rw [Context.isA, Context.isA, h x hx]
  unfold regionStats
  congr 1
  · exact List.countP_congr fun x hx => by rw [hisA x hx]
  · exact List.countP_congr fun x hx => by rw [hisA x hx]

theorem rules_regionStats (cx : Context) (s : Sheet) (region : List Piece) :
    (regionStats cx s region).rules = region.length := by
  have hlength := List.length_eq_countP_add_countP (cx.isA s .modifier ·.atRule) (l := region)
  simp only [regionStats, Stats.rules]
  simp only [Bool.not_eq_true, Bool.decide_eq_false] at hlength
  omega

/-- Naming a nested at-rule counts it and leaves all else alone. -/
theorem nestedName?_of_nestedClass? {p : Progress} {parentClass name : String} {id : NodeId}
    (h : cx.nestedClass? p.sheet parentClass id = some name) :
    ∃ q, nestedName? cx p parentClass id = some (name, q) ∧ q.sheet = p.sheet ∧
      Tally p q (regionStats cx p.sheet [⟨id, name⟩]) := by
  unfold Context.nestedClass? at h
  unfold nestedName?
  split at h
  · rename_i hm
    refine ⟨p.count fun c => { c with modifiers := c.modifiers + 1 }, ?_, rfl, ?_, rfl, rfl⟩
    · rw [if_pos hm, joinModifier_eq, Option.some.inj h]
    · simp [regionStats, hm, Progress.count, Stats.add_def]
  · rename_i hm
    split at h
    · rename_i hd
      refine ⟨p.count fun c => { c with descendents := c.descendents + 1 }, ?_, rfl, ?_, rfl, rfl⟩
      · rw [if_neg hm, if_pos hd, joinDescendent_eq, Option.some.inj h]
      · simp [regionStats, hm, Progress.count, Stats.add_def]
    · cases h

theorem nestedName?_of_nestedClass?_none {p : Progress} {parentClass : String} {id : NodeId}
    (h : cx.nestedClass? p.sheet parentClass id = none) :
    nestedName? cx p parentClass id = none := by
  unfold Context.nestedClass? at h
  unfold nestedName?
  split at h
  · cases h
  · rename_i hm
    split at h
    · cases h
    · rename_i hd
      rw [if_neg hm, if_neg hd]

/-! ## Regions -/

/-- Depths end the search: the nodes below those of the greatest depth are none. -/
theorem exists_region (cx : Context) (h : s.IsForest) (n : Nat) (parentClass : String)
    (cs : List NodeId) (hcs : ∀ c ∈ cs, s.Has c ∧ s.nodes.size ≤ n + s.depth c) :
    ∃ region, Region cx s parentClass cs region := by
  -- The outer induction is on how much deeper a node can stand, the inner one on the siblings.
  induction n generalizing parentClass cs with
  | zero =>
    cases cs with
    | nil => exact ⟨[], .nil⟩
    | cons c cs =>
      obtain ⟨hc, hle⟩ := hcs c List.mem_cons_self
      have := h.depth_lt hc
      omega
  | succ n ih =>
    induction cs with
    | nil => exact ⟨[], .nil⟩
    | cons c cs ihcs =>
      obtain ⟨rest, hrest⟩ := ihcs fun d hd => hcs d (List.mem_cons_of_mem _ hd)
      cases hname : cx.nestedClass? s parentClass c with
      | none => exact ⟨rest, .other hname hrest⟩
      | some name =>
        have hbelow : ∀ d ∈ s.children c, s.Has d ∧ s.nodes.size ≤ n + s.depth d := by
          intro d hd
          have hp := h.mem_children_iff.1 hd
          have hle := (hcs c List.mem_cons_self).2
          have hdepth := h.depth_of_parent hp
          exact ⟨has_of_parent hp, by omega⟩
        obtain ⟨inside, hinside⟩ := ih name (s.children c) hbelow
        exact ⟨_, .nested hname hinside hrest⟩

namespace Region

variable {parentClass : String} {cs : List NodeId} {region : List Piece}

/-- The nodes that are searched fix what is found. -/
theorem unique (hr : Region cx s parentClass cs region) {other : List Piece}
    (ho : Region cx s parentClass cs other) : region = other := by
  induction hr generalizing other with
  | nil =>
    cases ho with
    | nil => rfl
  | other hname _ ih =>
    cases ho with
    | other _ hrest => exact ih hrest
    | nested hname' _ _ =>
      rw [hname] at hname'
      cases hname'
  | nested hname _ _ ihin ihrest =>
    cases ho with
    | other hname' _ =>
      rw [hname] at hname'
      cases hname'
    | nested hname' hin hrest =>
      obtain rfl := Option.some.inj (hname.symm.trans hname')
      rw [ihin hin, ihrest hrest]

/-- What goes along hangs on one of the nodes that were searched. -/
theorem hangsOn (h : s.IsLinked) (hr : Region cx s parentClass cs region) :
    ∀ x ∈ region, ∃ c ∈ cs, s.HangsOn x.atRule c := by
  induction hr with
  | nil => simp
  | other _ _ ih =>
    intro x hx
    obtain ⟨c, hc, hxc⟩ := ih x hx
    exact ⟨c, List.mem_cons_of_mem _ hc, hxc⟩
  | @nested _ _ c cs inside rest _ _ _ ihin ihrest =>
    intro x hx
    rcases List.mem_append.1 hx with hx | hx
    · refine ⟨c, List.mem_cons_self, ?_⟩
      rcases List.mem_cons.1 hx with rfl | hx
      · exact HangsOn.refl s c
      · obtain ⟨d, hd, hxd⟩ := ihin x hx
        exact hxd.trans (HangsOn.single (h.mem_children_iff.1 hd))
    · obtain ⟨d, hd, hxd⟩ := ihrest x hx
      exact ⟨d, List.mem_cons_of_mem _ hd, hxd⟩

theorem isNested (hr : Region cx s parentClass cs region) :
    ∀ x ∈ region, cx.isNested s x.atRule = true := by
  induction hr with
  | nil => simp
  | other _ _ ih => exact ih
  | nested hname _ _ ihin ihrest =>
    intro x hx
    rcases List.mem_append.1 hx with hx | hx
    · rcases List.mem_cons.1 hx with rfl | hx
      · exact Context.isNested_of_nestedClass? hname
      · exact ihin x hx
    · exact ihrest x hx

/-- A modifier or descendent among the nodes that were searched goes along. -/
theorem mem_of_mem (hr : Region cx s parentClass cs region) {c : NodeId} (hc : c ∈ cs)
    (hn : cx.isNested s c = true) : ∃ x ∈ region, x.atRule = c := by
  induction hr with
  | nil => simp at hc
  | other hname _ ih =>
    rcases List.mem_cons.1 hc with rfl | hc
    · rw [Context.nestedClass?_eq_none_iff.1 hname] at hn
      cases hn
    · exact ih hc
  | nested _ _ _ _ ihrest =>
    rcases List.mem_cons.1 hc with rfl | hc
    · exact ⟨_, List.mem_cons_self, rfl⟩
    · obtain ⟨x, hx, rfl⟩ := ihrest hc
      exact ⟨x, List.mem_append_right _ hx, rfl⟩

/-- So does a modifier or descendent in one that goes along. -/
theorem mem_of_mem_children (hr : Region cx s parentClass cs region) {x : Piece}
    (hx : x ∈ region) {c : NodeId} (hc : c ∈ s.children x.atRule)
    (hn : cx.isNested s c = true) : ∃ y ∈ region, y.atRule = c := by
  induction hr with
  | nil => simp at hx
  | other _ _ ih => exact ih hx
  | @nested _ _ _ _ inside _ _ hin _ ihin ihrest =>
    rcases List.mem_append.1 hx with hx | hx
    · obtain ⟨y, hy, rfl⟩ : ∃ y ∈ inside, y.atRule = c := by
        rcases List.mem_cons.1 hx with rfl | hx
        · exact hin.mem_of_mem hc hn
        · exact ihin hx
      exact ⟨y, List.mem_append_left _ (List.mem_cons_of_mem _ hy), rfl⟩
    · obtain ⟨y, hy, rfl⟩ := ihrest hx
      exact ⟨y, List.mem_append_right _ hy, rfl⟩

/-- What goes along stands among the nodes that were searched or in something that goes along. -/
theorem mem_or_mem_children (hr : Region cx s parentClass cs region) :
    ∀ x ∈ region, x.atRule ∈ cs ∨ ∃ y ∈ region, x.atRule ∈ s.children y.atRule := by
  induction hr with
  | nil => simp
  | other _ _ ih =>
    intro x hx
    exact (ih x hx).imp_left (List.mem_cons_of_mem _)
  | @nested _ name c cs inside rest _ _ _ ihin ihrest =>
    intro x hx
    rcases List.mem_append.1 hx with hx | hx
    · rcases List.mem_cons.1 hx with rfl | hx
      · exact .inl List.mem_cons_self
      · rcases ihin x hx with hc | ⟨y, hy, hxy⟩
        · exact .inr ⟨⟨c, name⟩, by simp, hc⟩
        · exact .inr ⟨y, by simp [hy], hxy⟩
    · rcases ihrest x hx with hc | ⟨y, hy, hxy⟩
      · exact .inl (List.mem_cons_of_mem _ hc)
      · exact .inr ⟨y, by simp [hy], hxy⟩

/-- What goes along from inside an at-rule stands strictly below it. -/
theorem hangsOn_and_ne (h : s.IsForest) {owner : NodeId}
    (hr : Region cx s parentClass (s.children owner) region) :
    ∀ x ∈ region, s.HangsOn x.atRule owner ∧ x.atRule ≠ owner := by
  intro x hx
  obtain ⟨c, hc, hxc⟩ := hr.hangsOn h.toIsLinked x hx
  have hp := h.mem_children_iff.1 hc
  refine ⟨hxc.trans (.single hp), ?_⟩
  intro e
  exact h.not_hangsOn_child hp (e ▸ hxc)

/-- Among siblings, every at-rule goes along once. -/
theorem nodup (h : s.IsForest) {owner : NodeId} (hr : Region cx s parentClass cs region)
    (hcs : cs.Nodup) (hp : ∀ c ∈ cs, s.parent c = some owner) :
    (region.map Piece.atRule).Nodup := by
  induction hr generalizing owner with
  | nil => simp
  | other _ _ ih =>
    exact ih (List.nodup_cons.1 hcs).2 fun c hc => hp c (List.mem_cons_of_mem _ hc)
  | @nested _ name c cs inside rest _ hin hrest ihin ihrest =>
    obtain ⟨hc, hcs⟩ := List.nodup_cons.1 hcs
    have hpc := hp c List.mem_cons_self
    have hpcs : ∀ d ∈ cs, s.parent d = some owner := fun d hd => hp d (List.mem_cons_of_mem _ hd)
    have hinside := ihin (h.nodup_children c) fun d hd => h.mem_children_iff.1 hd
    have hcin : c ∉ inside.map Piece.atRule := by
      intro hmem
      obtain ⟨x, hx, hxc⟩ := List.mem_map.1 hmem
      exact (hin.hangsOn_and_ne h x hx).2 hxc
    have hon : ∀ x ∈ (⟨c, name⟩ :: inside : List Piece), s.HangsOn x.atRule c := by
      intro x hx
      rcases List.mem_cons.1 hx with rfl | hx
      · exact HangsOn.refl s c
      · exact (hin.hangsOn_and_ne h x hx).1
    rw [List.map_append, List.map_cons]
    refine List.nodup_append.2 ⟨List.nodup_cons.2 ⟨hcin, hinside⟩, ihrest hcs hpcs, ?_⟩
    intro a ha b hb hab
    subst hab
    -- A node cannot hang on two siblings.
    rw [← List.map_cons] at ha
    obtain ⟨x, hx, rfl⟩ := List.mem_map.1 ha
    obtain ⟨y, hy, hyx⟩ := List.mem_map.1 hb
    obtain ⟨d, hd, hyd⟩ := hrest.hangsOn h.toIsLinked y hy
    have hcd : c = d := h.eq_of_hangsOn_siblings hpc (hpcs d hd) (hon x hx) (hyx ▸ hyd)
    exact hc (hcd ▸ hd)

end Region

end Lowering

end ClassRules
