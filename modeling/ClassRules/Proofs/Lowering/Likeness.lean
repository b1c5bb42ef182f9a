import ClassRules.Proofs.Lowering.Plan
import ClassRules.Proofs.Sheet.Copy

/-!
# What a run reads in a copy

A run looks at kinds, params, selectors and places. In a copy it finds the same.

## What this module delivers

- `Likeness`: contents that go together say the same to a run.
- `isA_copy`, `find_copy`, `Region.copy`: what is searched for is found at the corresponding nodes.
- `location?_copy`, `sourceName?_copy`: messages name the same places.
- `misuse_copy`, `remarks_copy`: so faults and warnings are the same.
-/

set_option autoImplicit false

namespace ClassRules.Lowering

open Sheet

/-- Contents that go together say the same to runs under the two contexts, and a rule says the same
as itself. -/
structure Likeness (cx cx' : Context) (R : Content → Content → Prop) : Prop where
  convention_eq : cx'.convention = cx.convention
  kind_eq : ∀ c c', R c c' → c'.kind = c.kind
  hasBody_eq : ∀ c c', R c c' → c'.hasBody = c.hasBody
  selector_eq : ∀ c c', R c c' → c'.selector? = c.selector?
  names_eq : ∀ c c', R c c' → ∀ kind,
    c'.name?.any (cx'.shortcuts.names kind) = c.name?.any (cx.shortcuts.names kind)
  params_eq : ∀ c c', R c c' → ∀ kind, c.name?.any (cx.shortcuts.names kind) = true →
    c'.params? = c.params?
  rule : ∀ selector, R (.rule selector) (.rule selector)

/-- The same content says the same. -/
theorem Likeness.refl (cx : Context) : Likeness cx cx Eq where
  convention_eq := rfl
  kind_eq _ _ h := by rw [h]
  hasBody_eq _ _ h := by rw [h]
  selector_eq _ _ h := by rw [h]
  names_eq _ _ h _ := by rw [h]
  params_eq _ _ h _ _ := by rw [h]
  rule _ := rfl

section Reading

variable {cx cx' : Context} {R : Content → Content → Prop} {C : Copy} {s t : Sheet} {a : NodeId}
  (hR : Likeness cx cx' R) (h : IsCopy R C s t)

include hR h

/-- A node and its copy are of the same kinds. -/
theorem isA_copy (ha : s.Has a) (hne : a ≠ root) (kind : RuleKind) :
    cx'.isA t kind (C.node a) = cx.isA s kind a :=
  hR.names_eq _ _ (h.content a ha hne) kind

/-- So one of them is to be lowered if the other is. -/
theorem isCustom_copy (ha : s.Has a) (hne : a ≠ root) :
    cx'.IsCustom t (C.node a) ↔ cx.IsCustom s a := by
  simp only [Context.IsCustom, isA_copy hR h ha hne]

theorem kind_copy (ha : s.Has a) (hne : a ≠ root) : t.kind (C.node a) = s.kind a :=
  hR.kind_eq _ _ (h.content a ha hne)

theorem hasBody_copy (ha : s.Has a) (hne : a ≠ root) :
    (t.content (C.node a)).hasBody = (s.content a).hasBody :=
  hR.hasBody_eq _ _ (h.content a ha hne)

theorem selector_copy (ha : s.Has a) (hne : a ≠ root) : t.selector (C.node a) = s.selector a := by
  rw [Sheet.selector, Sheet.selector, hR.selector_eq _ _ (h.content a ha hne)]

/-- What is to be lowered has the params of its copy. -/
theorem params_copy (ha : s.Has a) (hne : a ≠ root) (hc : cx.IsCustom s a) :
    t.params (C.node a) = s.params a := by
  obtain ⟨kind, hkind⟩ := hc
  rw [Sheet.params, Sheet.params, hR.params_eq _ _ (h.content a ha hne) kind hkind]

/-! ## Searching -/

/-- Among corresponding nodes, corresponding ones are of a kind. -/
theorem filter_isA_map (kind : RuleKind) {l : List NodeId}
    (hl : ∀ a ∈ l, s.Has a ∧ a ≠ root) :
    (l.map C.node).filter (cx'.isA t kind) = (l.filter (cx.isA s kind)).map C.node := by
  rw [List.filter_map]
  congr 1
  apply List.filter_congr
  intro a ha
  exact isA_copy hR h (hl a ha).1 (hl a ha).2 kind

/-- A search below corresponding nodes finds corresponding nodes. -/
theorem find_copy (hs : s.IsSound) (ht : t.IsSound) (ha : s.Has a) (hne : a ≠ root)
    (kind : RuleKind) : cx'.find t (C.node a) kind = (cx.find s a kind).map C.node := by
  rw [find_eq_filter, find_eq_filter, h.descendants_eq hs ht ha hne]
  exact filter_isA_map hR h kind fun x hx => hs.of_mem_descendants hx

/-- Where the root of a copy has other nodes beside it, the search goes through these as well. -/
theorem find_copy_root (hs : s.IsSound) (ht : t.IsSound) (kind : RuleKind) :
    cx'.find t (C.node root) kind =
      (C.before.flatMap fun c => c :: t.descendants c).filter (cx'.isA t kind) ++
        (cx.find s root kind).map C.node ++
          (C.behind.flatMap fun c => c :: t.descendants c).filter (cx'.isA t kind) := by
  rw [find_eq_filter, find_eq_filter, ht.toIsForest.descendants_eq, h.children_root hs,
    List.flatMap_append, List.flatMap_append, h.flatMap_descendants hs ht, List.filter_append,
    List.filter_append]
  congr 2
  exact filter_isA_map hR h kind fun x hx => hs.of_mem_descendants hx

/-! ## Regions -/

/-- A modifier or descendent has the class of its copy. -/
theorem nestedClass?_copy (ha : s.Has a) (hne : a ≠ root) (parentClass : String) :
    cx'.nestedClass? t parentClass (C.node a) = cx.nestedClass? s parentClass a := by
  unfold Context.nestedClass?
  rw [isA_copy hR h ha hne, isA_copy hR h ha hne, hR.convention_eq]
  split
  · rename_i hm
    rw [params_copy hR h ha hne ⟨_, hm⟩]
  · split
    · rename_i hd
      rw [params_copy hR h ha hne ⟨_, hd⟩]
    · rfl

omit hR h in
/-- The same class at the corresponding at-rule. -/
def Piece.copy (C : Copy) (x : Piece) : Piece :=
  ⟨C.node x.atRule, x.name⟩

/-- The region of a copy is the copy of the region. -/
theorem Region.copy (hs : s.IsSound) {parentClass : String} {cs : List NodeId}
    {region : List Piece} (hr : Region cx s parentClass cs region)
    (hcs : ∀ c ∈ cs, s.Has c ∧ c ≠ root) :
    Region cx' t parentClass (cs.map C.node) (region.map (Piece.copy C)) := by
  induction hr with
  | nil => exact .nil
  | other hname _ ih =>
    obtain ⟨hc, hne⟩ := hcs _ List.mem_cons_self
    refine .other ?_ (ih fun d hd => hcs d (List.mem_cons_of_mem _ hd))
    rw [nestedClass?_copy hR h hc hne, hname]
  | @nested _ name c cs inside rest hname _ _ ihin ihrest =>
    obtain ⟨hc, hne⟩ := hcs _ List.mem_cons_self
    have hinside := ihin fun d hd => by
      have hp := hs.mem_children_iff.1 hd
      exact ⟨has_of_parent hp, hs.ne_root_of_parent hp⟩
    rw [← h.children_eq hc hne] at hinside
    rw [List.map_append, List.map_cons, List.map_cons]
    refine .nested ?_ hinside (ihrest fun d hd => hcs d (List.mem_cons_of_mem _ hd))
    rw [nestedClass?_copy hR h hc hne, hname]

/-- The same is counted for it. -/
theorem regionStats_copy {region : List Piece}
    (hregion : ∀ x ∈ region, s.Has x.atRule ∧ x.atRule ≠ root) :
    regionStats cx' t (region.map (Piece.copy C)) = regionStats cx s region := by
  have hisA : ∀ x ∈ region, cx'.isA t .modifier (C.node x.atRule) =
      cx.isA s .modifier x.atRule := fun x hx =>
    isA_copy hR h (hregion x hx).1 (hregion x hx).2 .modifier
  unfold regionStats
  rw [List.countP_map, List.countP_map]
  congr 1
  · exact List.countP_congr fun x hx => by rw [Function.comp, Piece.copy, hisA x hx]
  · exact List.countP_congr fun x hx => by rw [Function.comp, Piece.copy, hisA x hx]

/-! ## Places -/

omit hR

theorem isLocatable_copy (ha : s.Has a) (hne : a ≠ root) :
    t.isLocatable (C.node a) = s.isLocatable a := by
  rw [isLocatable, isLocatable, h.source_eq a ha hne]
  cases s.source a <;> rfl

/-- A node and its copy are at places of the same name, line and column. -/
theorem location?_copy (ha : s.Has a) (hne : a ≠ root) :
    t.location? (C.node a) = s.location? a := by
  rw [location?, location?, h.source_eq a ha hne]
  cases hsource : s.source a with
  | none => rfl
  | some source => simp [Source.relabel, h.inputName_eq a ha hne source hsource]

theorem sourceName?_copy (ha : s.Has a) (hne : a ≠ root) :
    t.sourceName? (C.node a) = s.sourceName? a := by
  rw [sourceName?, sourceName?, h.source_eq a ha hne]
  cases hsource : s.source a with
  | none => rfl
  | some source => simp [Source.relabel, h.inputName_eq a ha hne source hsource]

/-- A fault about the copy of a node is the fault about the node. -/
theorem misuse_copy (ha : s.Has a) (hne : a ≠ root) (reason : String) :
    misuse t (C.node a) reason = misuse s a reason := by
  rw [misuse, misuse, isLocatable_copy h ha hne, location?_copy h ha hne]

/-- So are the warnings. -/
theorem remarks_copy (ha : s.Has a) (hne : a ≠ root) (messages : List String) :
    remarks t (C.node a) messages = remarks s a messages := by
  rw [remarks, remarks, isLocatable_copy h ha hne, location?_copy h ha hne]

end Reading

end ClassRules.Lowering
