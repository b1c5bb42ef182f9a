import ClassRules.Proofs.Tree.Everywhere
import ClassRules.Proofs.Tree.Reading
import ClassRules.Tree.Printer

/-!
# Printing forests

## What this module delivers

- `render_bare`, `renderForest_congr`: sources are not printed.
- `everywhere_bare`: what is said of contents does not depend on sources.
- `renderForest_flatten`: forests in a row are printed as the texts of those that have one, a line
  break between any two.
-/

set_option autoImplicit false

namespace ClassRules.Tree

/-! ## Sources are not printed -/

theorem isEmpty_bareForest (ts : List Tree) : (bareForest ts).isEmpty = ts.isEmpty := by
  cases ts <;> rfl

/-- The sources of trees in a list are taken away one by one. -/
theorem bareForest_eq_map (ts : List Tree) : bareForest ts = ts.map bare := by
  induction ts with
  | nil => rfl
  | cons t ts ih => rw [bareForest, ih, List.map_cons]

mutual

/-- A tree is printed as it is without its sources. -/
theorem render_bare (depth : Nat) : ∀ t : Tree, render depth t.bare = render depth t
  | .node content source children => by
    have hforest := renderForest_bareForest (depth + 1) children
    have hsame := renderForest_bareForest depth children
    have hempty := isEmpty_bareForest children
    cases content with
    | root => rw [bare, render, render, hsame]
    | rule selector => rw [bare, render, render, hforest, hempty]
    | atRule name params body => rw [bare, render, render, hforest, hempty]
    | declaration property value important => rw [bare, render, render]
    | comment text => rw [bare, render, render]

theorem renderForest_bareForest (depth : Nat) : ∀ ts : List Tree,
    renderForest depth (bareForest ts) = renderForest depth ts
  | [] => rfl
  | t :: ts => by
    rw [bareForest, renderForest, renderForest, render_bare depth t,
      renderForest_bareForest depth ts, isEmpty_bareForest]

end

/-- Two forests that differ in sources only have the same text. -/
theorem renderForest_congr {ts us : List Tree} (h : bareForest ts = bareForest us) (depth : Nat) :
    renderForest depth ts = renderForest depth us := by
  rw [← renderForest_bareForest, h, renderForest_bareForest]

mutual

/-- What is said of contents alone holds of a tree with or without its sources. -/
theorem everywhere_bare {P : Content → Prop} : ∀ t : Tree,
    Everywhere (fun content _ => P content) t.bare ↔ Everywhere (fun content _ => P content) t
  | .node content source children => by
    rw [bare, Everywhere, Everywhere, everywhereIn_bareForest children]

theorem everywhereIn_bareForest {P : Content → Prop} : ∀ ts : List Tree,
    EverywhereIn (fun content _ => P content) (bareForest ts) ↔
      EverywhereIn (fun content _ => P content) ts
  | [] => Iff.rfl
  | t :: ts => by
    rw [bareForest, EverywhereIn, EverywhereIn, everywhere_bare t, everywhereIn_bareForest ts]

end

/-! ## Forests in a row -/

/-- Only a root may have no text. -/
theorem render_ne_empty {t : Tree} (h : t.content ≠ .root) (depth : Nat) : t.render depth ≠ "" := by
  obtain ⟨content, source, children⟩ := t
  cases content with
  | root => exact absurd rfl h
  | rule selector =>
    simp only [render, block]
    split <;> simp
  | atRule name params body => simp [render, atRuleHead]
  | declaration property value important => simp [render]
  | comment text => simp [render]

variable {depth : Nat} {ts us : List Tree}

/-- Two forests with trees in them are printed with a line break between them. -/
theorem renderForest_append (hts : ts ≠ []) (hus : us ≠ []) : renderForest depth (ts ++ us) =
    renderForest depth ts ++ "\n" ++ renderForest depth us := by
  induction ts with
  | nil => exact absurd rfl hts
  | cons t ts ih =>
    rw [List.cons_append, renderForest, renderForest]
    cases ts with
    | nil =>
      cases us with
      | nil => exact absurd rfl hus
      | cons u us => simp [String.append_assoc]
    | cons t' ts =>
      rw [ih (List.cons_ne_nil t' ts)]
      simp [String.append_assoc]

/-- Trees that have a text have one together. -/
theorem renderForest_eq_empty_iff (h : ∀ t ∈ ts, t.render depth ≠ "") :
    renderForest depth ts = "" ↔ ts = [] := by
  cases ts with
  | nil => simp [renderForest]
  | cons t ts =>
    have ht := h t List.mem_cons_self
    simp [renderForest, ht]

/-- Forests in a row are printed as the texts of those that have one. -/
theorem renderForest_flatten {forests : List (List Tree)}
    (h : ∀ ts ∈ forests, ∀ t ∈ ts, t.render depth ≠ "") : renderForest depth forests.flatten =
      "\n".intercalate ((forests.map (renderForest depth)).filter (· ≠ "")) := by
  induction forests with
  | nil => rfl
  | cons ts forests ih =>
    have ih := ih fun us hus => h us (List.mem_cons_of_mem _ hus)
    have hts := renderForest_eq_empty_iff (h ts List.mem_cons_self)
    have hrest : ∀ t ∈ forests.flatten, t.render depth ≠ "" := fun t ht => by
      obtain ⟨us, hus, htus⟩ := List.mem_flatten.1 ht
      exact h us (List.mem_cons_of_mem _ hus) t htus
    rw [List.flatten_cons, List.map_cons]
    by_cases hnil : ts = []
    · rw [List.filter_cons_of_neg (by simpa using hts.2 hnil), hnil, List.nil_append, ih]
    · rw [List.filter_cons_of_pos (by simpa using mt hts.1 hnil)]
      by_cases hflat : forests.flatten = []
      · -- All other texts are empty.
        have hnone : (forests.map (renderForest depth)).filter (· ≠ "") = [] := by
          rw [List.filter_eq_nil_iff, List.forall_mem_map]
          intro us hus
          have hempty : us = [] := List.eq_nil_iff_forall_not_mem.2 fun t ht =>
            List.not_mem_nil (hflat ▸ List.mem_flatten.2 ⟨us, hus, ht⟩)
          simp [hempty, renderForest]
        rw [hflat, hnone, List.append_nil, String.intercalate_singleton]
      · have hsome : (forests.map (renderForest depth)).filter (· ≠ "") ≠ [] := fun hnone => by
          rw [hnone, String.intercalate_nil, renderForest_eq_empty_iff hrest] at ih
          exact hflat ih
        rw [renderForest_append hnil hflat, String.intercalate_cons_of_ne_nil hsome, ih]

end ClassRules.Tree
