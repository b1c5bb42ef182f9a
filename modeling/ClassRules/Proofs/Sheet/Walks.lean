import ClassRules.Proofs.Lowering.ClockedSteps
import ClassRules.Proofs.Sheet.Trees

/-!
# The walks through a sheet agree

The walk down takes the next node from the end of a stack and puts its children on the stack, the
last one first. The walk up goes from parent to parent. In a forest both end, the walk down meets
the nodes below its start in the order in which a recursion over the children lists them, and what
it meets below the root is what the walk up finds attached.

## What this module delivers

- `drain?`: the walk down, with the stack and the nodes met so far as the loop keeps them.
  `drain?_reverse`: it is the walk whose stack begins with the node that comes next.
- `IsPreorder`: what a recursion over siblings lists, and `IsPreorder.unique`: it lists one thing
  only.
- `IsForest.isPreorder_iff`: the walk down lists what the recursion lists.
- `IsRooted.eq_root_or_mem_descendants_iff`, `IsRooted.attachedCount_eq_countP`: walks down and up.
- `walks_agree`: all of these for each node of a sheet.
-/

set_option autoImplicit false

namespace ClassRules.Sheet

open Filter

variable {s : Sheet}

/-! ## The stack of the walk down -/

/-- The nodes met so far and those met on the way down from a stack whose last node comes next. The
children of a node go on the stack in reverse. Without a result if `clock` rounds are not enough. -/
def drain? (s : Sheet) : Nat → List NodeId → List NodeId → Option (List NodeId)
  | 0, _, _ => none
  | clock + 1, met, stack =>
    match stack.getLast? with
    | some next => drain? s clock (met ++ [next]) (stack.dropLast ++ (s.children next).reverse)
    | none => some met

/-- A stack that is read from its end is walked as the reversed stack is from its beginning. The
loop has one round more, in which it finds the stack empty. -/
theorem drain?_reverse (s : Sheet) (clock : Nat) (met stack : List NodeId) :
    s.drain? (clock + 1) met stack.reverse = (Clocked.walk? s clock stack).map (met ++ ·) := by
  induction clock generalizing met stack with
  | zero => cases stack <;> simp [drain?, Clocked.walk?]
  | succ clock ih =>
    cases stack with
    | nil => simp [drain?, Clocked.walk?]
    | cons next stack =>
      have hpush : stack.reverse ++ (s.children next).reverse =
          (s.children next ++ stack).reverse := List.reverse_append.symm
      rw [drain?, Clocked.walk?]
      simp only [List.reverse_cons, List.getLast?_concat, List.dropLast_concat, hpush, ih]
      cases Clocked.walk? s clock (s.children next ++ stack) <;> simp

theorem IsForest.drain?_ends (h : s.IsForest) (id : NodeId) :
    ∀ᶠ clock in atTop, s.drain? clock [] (s.children id).reverse = some (s.descendants id) := by
  apply Clocked.eventually_of_succ
  filter_upwards [Clocked.walk?_ends h id] with clock hclock
  simp [drain?_reverse, hclock]

/-! ## The recursion over siblings -/

/-- What a recursion over siblings lists: each of them, followed by what it lists for the children
of that one. -/
inductive IsPreorder (s : Sheet) : List NodeId → List NodeId → Prop
  | nil : IsPreorder s [] []
  | cons {c : NodeId} {cs inside rest : List NodeId} :
      IsPreorder s (s.children c) inside → IsPreorder s cs rest →
      IsPreorder s (c :: cs) (c :: inside ++ rest)

theorem IsPreorder.unique {cs l l' : List NodeId} (h : s.IsPreorder cs l)
    (h' : s.IsPreorder cs l') : l = l' := by
  induction h generalizing l' with
  | nil => cases h'; rfl
  | cons _ _ ihInside ihRest =>
    cases h' with
    | cons hinside hrest => rw [ihInside hinside, ihRest hrest]

/-- The lists of siblings, put one behind the other. -/
theorem IsPreorder.flatMap {below : NodeId → List NodeId} {cs : List NodeId}
    (h : ∀ c ∈ cs, s.IsPreorder (s.children c) (below c)) :
    s.IsPreorder cs (cs.flatMap fun c => c :: below c) := by
  induction cs with
  | nil => exact .nil
  | cons c cs ih =>
    rw [List.flatMap_cons]
    apply IsPreorder.cons
    · exact h c List.mem_cons_self
    · exact ih fun d hd => h d (List.mem_cons_of_mem c hd)

/-- The recursion ends in a forest, and it lists what the walk down meets. -/
theorem IsForest.isPreorder_iff (h : s.IsForest) (id : NodeId) {l : List NodeId} :
    s.IsPreorder (s.children id) l ↔ l = s.descendants id := by
  -- The recursion goes down from a node to its children, and so does the induction.
  have hlist : s.IsPreorder (s.children id) (s.descendants id) := by
    induction id using h.children_induction with
    | step id ih =>
      rw [h.descendants_eq]
      exact .flatMap ih
  constructor
  · exact fun hl => hl.unique hlist
  · rintro rfl
    exact hlist

/-! ## Down from the root and up to it -/

/-- What the walk down from the root meets is what the walk up finds attached. -/
theorem IsRooted.eq_root_or_mem_descendants_iff (h : s.IsRooted) {id : NodeId} :
    id = root ∨ id ∈ s.descendants root ↔ s.isAttached id = true := by
  rw [h.isAttached_iff, ← mem_attachedNodes_iff h.toIsForest, attachedNodes, List.mem_cons]

/-- The nodes of a sheet, attached or not. -/
def allNodes (s : Sheet) : List NodeId :=
  (List.range s.nodes.size).map NodeId.mk

@[simp] theorem mem_allNodes {id : NodeId} : id ∈ s.allNodes ↔ s.Has id := by
  simp only [allNodes, List.mem_map, List.mem_range]
  constructor
  · rintro ⟨index, hlt, rfl⟩
    exact hlt
  · exact fun hid => ⟨id.index, hid, rfl⟩

theorem nodup_allNodes (s : Sheet) : s.allNodes.Nodup :=
  List.nodup_range.map fun _ _ heq => congrArg NodeId.index heq

/-- The nodes that the walk down counts are those that the walk up finds attached. -/
theorem IsRooted.attachedCount_eq_countP (h : s.IsRooted) :
    s.attachedCount = s.allNodes.countP s.isAttached := by
  -- Both are the length of a list without repetitions, and the lists have the same nodes.
  have hperm : s.attachedNodes.Perm (s.allNodes.filter s.isAttached) := by
    apply (List.perm_ext_iff_of_nodup (nodup_attachedNodes h.toIsForest)
      (s.nodup_allNodes.filter _)).2
    intro id
    rw [List.mem_filter, mem_allNodes, mem_attachedNodes_iff h.toIsForest, h.isAttached_iff]
    exact ⟨fun hon => ⟨h.has_of_hangsOn hon, hon⟩, And.right⟩
  rw [attachedCount_eq, hperm.length_eq, List.countP_eq_length_filter]

/-- In a forest whose root has no parent, the walk down from any node ends, meets what a recursion
over its children lists and meets no node twice. The walk up from any node ends too, and it comes to
the root from the root itself and from what the walk down from the root meets, and from nowhere
else. So the attached nodes are as many as the walk down counts. -/
theorem walks_agree (h : s.IsRooted) :
    (∀ id, s.Has id →
      (∀ᶠ clock in atTop, s.drain? clock [] (s.children id).reverse = some (s.descendants id)) ∧
      (∀ l, s.IsPreorder (s.children id) l ↔ l = s.descendants id) ∧
      (s.descendants id).Nodup ∧
      (∀ᶠ clock in atTop, Clocked.isAttached? clock s id = some (s.isAttached id)) ∧
      (id = root ∨ id ∈ s.descendants root ↔ s.isAttached id = true)) ∧
    s.attachedCount = s.allNodes.countP s.isAttached := by
  refine ⟨fun id hid => ⟨?ends, ?preorder, ?nodup, ?endsUp, ?attached⟩, ?count⟩
  case ends => exact h.drain?_ends id
  case preorder => exact fun l => h.isPreorder_iff id
  case nodup => exact h.nodup_descendants id
  case endsUp => exact Clocked.isAttached?_ends h.toIsForest hid
  case attached => exact h.eq_root_or_mem_descendants_iff
  case count => exact h.attachedCount_eq_countP

/-- For instance, where a rule was taken out of a media query with the rule and the declaration in
it: the walk from the root meets what is left, and the walk from that rule what it has kept. -/
theorem walks_agree_media :
    let s := (read [(.ofFile "a.css", "@media m { a { b { c: d } } e {} }")]).remove ⟨2⟩
    s.IsRooted ∧ s.IsPreorder (s.children root) [⟨1⟩, ⟨5⟩] ∧
      s.IsPreorder (s.children ⟨2⟩) [⟨3⟩, ⟨4⟩] ∧ s.isAttached ⟨3⟩ ≠ true ∧
      s.allNodes.countP s.isAttached = 3 := by
  intro s
  have hread := isRooted_read [(.ofFile "a.css", "@media m { a { b { c: d } } e {} }")]
  have hs : s.IsRooted := by
    refine ⟨hread.toIsForest.detach ⟨2⟩, (has_detach _ _ _).2 hread.has_root, ?_⟩
    exact (parent_detach _ _ _).trans ((if_neg (by decide)).trans hread.parent_root)
  have hroot : s.Has root := hs.has_root
  have hhas : s.Has ⟨2⟩ ∧ s.Has ⟨3⟩ := by decide +kernel
  have hbelow : s.descendants root = [⟨1⟩, ⟨5⟩] ∧ s.descendants ⟨2⟩ = [⟨3⟩, ⟨4⟩] := by
    decide +kernel
  obtain ⟨heach, hcount⟩ := walks_agree hs
  obtain ⟨-, hpre, -⟩ := heach root hroot
  obtain ⟨-, hpre', -⟩ := heach ⟨2⟩ hhas.1
  obtain ⟨-, -, -, -, hatt⟩ := heach ⟨3⟩ hhas.2
  refine ⟨hs, (hpre _).2 hbelow.1.symm, (hpre' _).2 hbelow.2.symm, ?_, ?_⟩
  · rw [Ne, ← hatt, hbelow.1]
    decide
  · rw [← hcount, attachedCount, hbelow.1]
    rfl

end ClassRules.Sheet
