import ClassRules.Proofs.Tree.Printing
import ClassRules.Proofs.Lowering.Runs
import ClassRules.Proofs.Sheet.Trees
import ClassRules.Proofs.Tree.RoundTrip

/-!
# Running over the result once more

Text that a run has given holds nothing to lower. Where it is read as it was printed, a second run
gives it back.

## What this module delivers

- `noneLeft_iff_forest`: which kinds a sheet has at-rules of can be told from its trees.
- `process_print_of_isPrintable`: if the lowered sheet is printable, its text is a fixed point.
- `process_print_of_escaped_blank`: a value that ends in an escaped blank loses the blank, and the
  mark that is printed behind it joins the value. So not every text that a run gives is a fixed
  point.
-/

set_option autoImplicit false

namespace ClassRules

open ClassRules.Parser ClassRules.Tree

namespace Lowering

open Sheet

/-- Whether a content is that of an at-rule of a kind. -/
def Context.means (cx : Context) (kind : RuleKind) (content : Content) : Bool :=
  content.name?.any (cx.shortcuts.names kind)

/-- The root is no at-rule, so it is the trees on it that tell whether any of a kind is left. -/
theorem noneLeft_iff_forest {cx : Context} {s : Sheet} (hs : s.IsSound) {kind : RuleKind} :
    NoneLeft cx s kind ↔
      EverywhereIn (fun content _ => cx.means kind content = false) s.forest := by
  rw [hs.toIsForest.everywhereIn_forest_iff]
  constructor
  · intro h id _ hid
    exact h id hid
  · intro h id hid
    by_cases hroot : id = root
    · rw [hroot, Context.isA, hs.content_root]
      rfl
    · exact h id hroot hid

/-- Sources do not matter for that. -/
theorem NoneLeft.of_bareForest {cx : Context} {s t : Sheet} (hs : s.IsSound) (ht : t.IsSound)
    (heq : bareForest t.forest = bareForest s.forest) {kind : RuleKind}
    (h : NoneLeft cx s kind) : NoneLeft cx t kind := by
  rw [noneLeft_iff_forest ht, ← everywhereIn_bareForest, heq, everywhereIn_bareForest]
  exact (noneLeft_iff_forest hs).1 h

end Lowering

namespace Sheet

/-- The text of printable trees is read as these trees. -/
theorem parse_renderForest {ts : List Tree} (h : EverywhereIn Printable ts) (input : InputId) :
    (parse input (renderForest 0 ts)).errors = [] ∧
      bareForest (parse input (renderForest 0 ts)).nodes = bareForest ts := by
  apply parse_of_reads
  cases ts with
  | nil => exact ⟨[], fun rest => .done rest, .refl _⟩
  | cons t ts =>
    exact reads_renderForest 0 (t :: ts) h (List.cons_ne_nil t ts) [] ⟨[], []⟩
      fun a ha => absurd ha List.not_mem_nil

/-- Reading the text of a sheet of printable trees gives, apart from sources, the same trees. -/
theorem addChecked_print {s : Sheet} (hs : s.IsSound) (h : (s.tree root).IsPrintable)
    (input : Input) : ∃ t, empty.addChecked input s.print = .ok t ∧ t.IsSound ∧
      bareForest t.forest = bareForest s.forest := by
  have hprintable : EverywhereIn Printable s.forest := hs.toIsForest.forest_eq ▸ h.2
  obtain ⟨herrors, hnodes⟩ := parse_renderForest hprintable ⟨0⟩
  refine ⟨(empty.addText input s.print).2, ?_, ?_, ?_⟩
  · have hnone : (empty.addText input s.print).1 = [] := by
      rw [hs.toIsForest.print_eq]
      exact herrors
    unfold addChecked
    split
    · rename_i t heq
      rw [heq]
    · rename_i error errors t heq
      rw [heq] at hnone
      cases hnone
  · exact (addText_sound isSound_empty isWhole_empty input s.print).1
  · have hempty : (empty.addInput input).2.IsSound :=
      { isSound_empty with }
    rw [hs.toIsForest.print_eq]
    exact (congrArg bareForest (hempty.forest_addForest _)).trans hnodes

end Sheet

open Sheet Lowering

/-- A text that a run gives is a fixed point of the run, provided that the lowered sheet is
printable: its selectors, params, properties and values are then read as they were printed. -/
theorem process_print_of_isPrintable {css : String} {o : Options} {s : Sheet} {p : Progress}
    (hread : Sheet.empty.addChecked Sheet.empty.nextAnonymous css = .ok s)
    (hrun : s.transform o = .ok p) (hprintable : (p.sheet.tree root).IsPrintable) :
    process css o = .ok ⟨p.sheet.print, p.warnings⟩ ∧
      process p.sheet.print o = .ok ⟨p.sheet.print, []⟩ := by
  have hs : s.IsSound := by
    have heq : s = read [(Sheet.empty.nextAnonymous, css)] :=
      eq_read_of_addChecked (by rw [List.foldlM_cons, hread]; rfl)
    rw [heq]
    exact isSound_read _
  obtain ⟨hsp, hnone⟩ := noneLeft_of_transform hs hrun
  obtain ⟨t, ht, hst, hforest⟩ := addChecked_print hsp hprintable Sheet.empty.nextAnonymous
  -- The sheet that is read from the result has nothing to lower, as the result has not.
  have hagain : t.transform o = .ok { sheet := t } :=
    transform_eq_ok hst o fun kind hkind => (hnone kind hkind).of_bareForest hsp hst hforest
  have hprint : t.print = p.sheet.print := by
    rw [hst.toIsForest.print_eq, hsp.toIsForest.print_eq, renderForest_congr hforest]
  constructor
  · have hprocess : s.process o = .ok ⟨p.sheet.print, p.warnings⟩ := by
      rw [Sheet.process, hrun]
    exact (congrArg (fun r => r >>= fun u => Sheet.process u o) hread).trans hprocess
  · have hprocess : t.process o = .ok ⟨p.sheet.print, []⟩ := by
      rw [Sheet.process, hagain, ← hprint]
    exact (congrArg (fun r => r >>= fun u => Sheet.process u o) ht).trans hprocess

/-- A result that can be compared after its failures have been left out. -/
theorem eq_ok_of_toOption {ε α : Type} {r : Except ε α} {a : α} (h : r.toOption = some a) :
    r = .ok a := by
  cases r with
  | ok b => exact congrArg Except.ok (Option.some.inj h)
  | error e => cases h

/-- A component with a declaration, read and lowered. -/
def loweredCard : Sheet where
  nodes := #[
    { content := .root, children := [⟨3⟩] },
    { content := .atRule "component" "A" true, source := some ⟨⟨0⟩, .ofBytes 0 22⟩ },
    { content := .declaration "b" "c" false, source := some ⟨⟨0⟩, .ofBytes 15 20⟩,
      parent := some ⟨3⟩ },
    { content := .rule ".A", source := some ⟨⟨0⟩, .ofBytes 0 22⟩, parent := some root,
      children := [⟨2⟩] }]
  inputs := #[.anonymous 1]

theorem isPrintable_loweredCard : (loweredCard.tree root).IsPrintable := by
  have hdeclaration : (Content.declaration "b" "c" false).IsPrintable :=
    ⟨by decide +kernel, by decide +kernel, by decide +kernel, by decide +kernel, by decide +kernel,
      fun _ => by decide +kernel⟩
  have hrule : (Content.rule ".A").IsPrintable :=
    ⟨by decide +kernel, by decide +kernel, 0, by decide +kernel⟩
  have hleaf : Carries (.declaration "b" "c" false) [] := fun h => absurd rfl h
  exact ⟨rfl, ⟨⟨fun _ => rfl, hrule⟩, ⟨⟨hleaf, hdeclaration⟩, trivial⟩, trivial⟩, trivial⟩

theorem process_print_of_isPrintable_card :
    ∃ s p, Sheet.empty.addChecked Sheet.empty.nextAnonymous "@component A { b: c; }" = .ok s ∧
      s.transform {} = .ok p ∧ (p.sheet.tree root).IsPrintable ∧
      process "@component A { b: c; }" {} = .ok ⟨p.sheet.print, p.warnings⟩ ∧
      process p.sheet.print {} = .ok ⟨p.sheet.print, []⟩ := by
  have hcss : ((Sheet.empty.addChecked Sheet.empty.nextAnonymous
      "@component A { b: c; }").toOption.bind fun s => (s.transform {}).toOption).map
        Progress.sheet = some loweredCard := by
    decide +kernel
  obtain ⟨p, hp, hsheet⟩ := Option.map_eq_some_iff.1 hcss
  obtain ⟨s, hs, hrun⟩ := Option.bind_eq_some_iff.1 hp
  have hread := eq_ok_of_toOption hs
  have hok := eq_ok_of_toOption hrun
  have hprintable : (p.sheet.tree root).IsPrintable := hsheet ▸ isPrintable_loweredCard
  exact ⟨s, p, hread, hok, hprintable, process_print_of_isPrintable hread hok hprintable⟩

/-- The blank behind a backslash belongs to the value, but is taken off with the white space around
it. Behind what is left the mark of the end is printed, which a second run reads as a part of the
value, and puts another mark behind it. -/
theorem process_print_of_escaped_blank :
    process ".a \x7b b: c\\ ; \x7d" {} = .ok ⟨".a \x7b\n  b: c\\;\n\x7d", []⟩ ∧
      process ".a \x7b\n  b: c\\;\n\x7d" {} = .ok ⟨".a \x7b\n  b: c\\;;\n\x7d", []⟩ := by
  constructor
  · apply eq_ok_of_toOption
    decide +kernel
  · apply eq_ok_of_toOption
    decide +kernel

end ClassRules
