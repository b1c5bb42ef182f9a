import ClassRules.Proofs.Lowering.Joint
import ClassRules.Proofs.Sheet.Origins
import ClassRules.Proofs.Tree.Printing
import Mathlib.Data.List.Induction

/-!
# Inputs side by side

Texts that are lowered together do not meet.

## What this module delivers

- `joint_of_append`: where the trees of two sheets stand one behind the other in a third one, runs
  over the three are joint.
- `joint_read`: so it is with a sheet that was read from some texts and then another one.
- `transform_read`: a run over several texts ends as the runs over each of them.
- `foldlM_addChecked`: the errors of a text are those that it has alone.
- `processInputs_each`: from text to text, the result is put together from those of each input.
-/

set_option autoImplicit false

namespace ClassRules

open ClassRules.Tree Lowering

namespace Sheet

variable {s t u : Sheet} {M N : String → Prop}

/-! ## Joint sheets -/

/-- Where the trees of `s`, and behind them those of `t`, are found on the root of `u`, a run over
`u` is joint to runs over `s` and `t`. -/
theorem joint_of_append (hs : s.IsSound) (hsw : s.IsWhole) (ht : t.IsSound) (htw : t.IsWhole)
    (hu : u.IsSound) {front back : List NodeId} {g : InputId → InputId}
    (hroot : u.children root = front ++ back) (hfront : front.map u.tree = s.forest)
    (hback : back.map u.tree = relabelForest g t.forest)
    (hsname : ∀ a, s.Has a → ∀ source, s.source a = some source →
      u.inputName source.input = s.inputName source.input)
    (htname : ∀ a, t.Has a → ∀ source, t.source a = some source →
      u.inputName (g source.input) = t.inputName source.input)
    (hM : ∀ a, s.Has a → a ≠ root → ∃ n, s.sourceName? a = some n ∧ M n)
    (hN : ∀ a, t.Has a → a ≠ root → ∃ n, t.sourceName? a = some n ∧ N n)
    (hapart : ∀ n, M n → ¬ N n) :
    ∃ C D, Joint M N C D ⟨{}, [], { sheet := s }⟩ ⟨{}, [], { sheet := t }⟩
      ⟨{}, [], { sheet := u }⟩ := by
  obtain ⟨f, hf, hfmap, hleft⟩ := exists_isCopy (R := Eq) (g := id) hs hsw hu (.refl u root)
    [] front back hroot
    ((alikeIn_eq_iff id _ _).2 (by rw [relabelForest_id, hfront])) hsname
  obtain ⟨f', hf', hfmap', hright⟩ := exists_isCopy (R := Eq) (g := g) ht htw hu (.refl u root)
    front back [] (hroot.trans (List.append_nil _).symm)
    ((alikeIn_eq_iff g _ _).2 hback) htname
  have hscope : u.kind root ≠ .rule := by
    rw [Sheet.kind, hu.content_root]
    decide
  refine ⟨⟨f, id, [], back⟩, ⟨f', g, front, []⟩, ?_⟩
  constructor
  case left =>
    exact .start hs hu hleft ((congrArg (u.kind · ≠ .rule) hf).mpr hscope) hM
  case right =>
    exact .start ht hu hright ((congrArg (u.kind · ≠ .rule) hf').mpr hscope) hN
  case left_root => exact hf
  case right_root => exact hf'
  case left_before => rfl
  case left_behind => exact hfmap'.symm
  case right_before => exact hfmap.symm
  case right_behind => rfl
  case apart =>
    intro x y hx hy hne e
    have hsx : s.Has x := hx
    have hty : t.Has y := hy
    have hy' : y ≠ root := by
      rintro rfl
      exact hne (hleft.root_only x hsx (e.trans hf'))
    -- Both would hang on one child of the root, which would stand in front and behind.
    obtain ⟨c, hc, hxc⟩ := ((HangsOn.iff_children hs.toIsLinked).1
      (hsw.hangsOn_root hs.toIsForest hsx)).resolve_left hne
    obtain ⟨d, hd, hyd⟩ := ((HangsOn.iff_children ht.toIsLinked).1
      (htw.hangsOn_root ht.toIsForest hty)).resolve_left hy'
    have hcf : f c ∈ front := hfmap ▸ List.mem_map_of_mem hc
    have hdb : f' d ∈ back := hfmap' ▸ List.mem_map_of_mem hd
    have hpc := hu.mem_children_iff.1 (hroot ▸ List.mem_append_left back hcf)
    have hpd := hu.mem_children_iff.1 (hroot ▸ List.mem_append_right front hdb)
    have hxc' : u.HangsOn (f x) (f c) := hleft.hangsOn hs hu hxc
    have hyd' : u.HangsOn (f' y) (f' d) := hright.hangsOn ht hu hyd
    have heq : f c = f' d :=
      hu.toIsForest.eq_of_hangsOn_siblings hpc hpd hxc' ((show f x = f' y from e) ▸ hyd')
    have hnd := hu.nodup_children root
    rw [hroot] at hnd
    exact (List.nodup_append.1 hnd).2.2 _ hcf _ hdb heq
  case names_apart => exact hapart
  case warnings_eq => rfl

/-! ## Sheets that were read -/

theorem inputs_read (texts : List (Input × String)) :
    (read texts).inputs = (texts.map Prod.fst).toArray := by
  have hfold : ∀ s : Sheet, (texts.foldl (fun s text => (s.addText text.1 text.2).2) s).inputs =
      s.inputs ++ (texts.map Prod.fst).toArray := by
    intro s
    induction texts generalizing s with
    | nil => simp
    | cons text texts ih =>
      have hpush : (s.addText text.1 text.2).2.inputs = s.inputs.push text.1 := rfl
      rw [List.foldl_cons, ih, hpush]
      simp
  exact (hfold empty).trans (Array.empty_append)

theorem inputName_read_mem (texts : List (Input × String)) {id : InputId}
    (h : id.index < (read texts).inputs.size) :
    (read texts).inputName id ∈ texts.map (·.1.name) := by
  have hlt : id.index < texts.length := by simpa [inputs_read] using h
  rw [inputName, inputs_read]
  simp only [List.getElem?_toArray, List.getElem?_map, List.getElem?_eq_getElem hlt,
    Option.map_some, Option.getD_some]
  exact List.mem_map_of_mem (List.getElem_mem hlt)

/-- The trees of a text come behind those that were there, which stay what they were. -/
theorem forest_addText (hs : s.IsSound) (input : Input) (text : String) :
    ∃ back, (s.addText input text).2.children root = s.children root ++ back ∧
      (s.children root).map (s.addText input text).2.tree = s.forest ∧
      back.map (s.addText input text).2.tree = (parse ⟨s.inputs.size⟩ text).nodes := by
  have hs' : (s.addInput input).2.IsSound := hs.withInputs _
  have hchildren : (s.addText input text).2.children root = s.children root ++
      childIds s.nodes.size (parse ⟨s.inputs.size⟩ text).nodes :=
    (children_addForest_of_has _ hs'.has_root hs'.has_root).trans (if_pos rfl)
  have hforest := hs.forest_addText input text
  rw [forest.eq_def (s.addText input text).2, hchildren, List.map_append] at hforest
  obtain ⟨hfront, hback⟩ := List.append_inj hforest (by
    rw [List.length_map, forest, List.length_map])
  exact ⟨_, hchildren, hfront, hback⟩

/-- A sheet with one more text is joint from the sheet before and that of the text alone. -/
theorem joint_addText (hs : s.IsSound) (hw : s.IsWhole) (htraced : s.IsTraced) (input : Input)
    (text : String) (hM : ∀ id : InputId, id.index < s.inputs.size → M (s.inputName id))
    (hout : ¬ M input.name) :
    ∃ C D, Joint M (· = input.name) C D ⟨{}, [], { sheet := s }⟩
      ⟨{}, [], { sheet := read [(input, text)] }⟩
      ⟨{}, [], { sheet := (s.addText input text).2 }⟩ := by
  obtain ⟨ht, htw⟩ := read_sound [(input, text)]
  have httraced := isTraced_read [(input, text)]
  obtain ⟨back, hroot, hfront, hback⟩ := forest_addText hs input text
  obtain ⟨back', hroot', -, hback'⟩ := forest_addText isSound_empty input text
  have hforest : (read [(input, text)]).forest = (parse ⟨0⟩ text).nodes := by
    rw [forest]
    exact (congrArg (List.map _) hroot').trans hback'
  have hparse := parse_relabel (fun _ => ⟨s.inputs.size⟩) ⟨0⟩ text
  -- Of the two sheets, each knows its inputs by the names that the joint sheet has for them.
  have hold : ∀ id : InputId, id.index < s.inputs.size →
      (s.addText input text).2.inputName id = s.inputName id := fun id hid => by
    have hinputs : (s.addText input text).2.inputs = s.inputs.push input := rfl
    rw [inputName, inputName, hinputs, Array.getElem?_push_lt hid, Array.getElem?_eq_getElem hid]
  have hnew : (s.addText input text).2.inputName ⟨s.inputs.size⟩ = input.name := by
    have hinputs : (s.addText input text).2.inputs = s.inputs.push input := rfl
    rw [inputName, hinputs, Array.getElem?_push_size]
    rfl
  have halone : ∀ {a source}, (read [(input, text)]).Has a →
      (read [(input, text)]).source a = some source →
      (read [(input, text)]).inputName source.input = input.name := fun ha hsource =>
    List.mem_singleton.1 (inputName_read_mem [(input, text)] (httraced.input_lt ha hsource))
  refine joint_of_append hs hw ht htw (addText_sound hs hw input text).1 hroot hfront
    (g := fun _ => ⟨s.inputs.size⟩) ?_ ?_ ?_ ?_ ?_ fun n hn e => hout (e ▸ hn)
  · rw [hback, hforest]
    exact congrArg Parsed.nodes hparse
  · exact fun a ha source hsource => hold _ (htraced.input_lt ha hsource)
  · exact fun a ha source hsource => hnew.trans (halone ha hsource).symm
  · intro a ha hne
    obtain ⟨source, hsource, hlt⟩ := htraced.exists_source a ha hne
    exact ⟨_, by rw [sourceName?, hsource, Option.map_some], hM _ hlt⟩
  · intro a ha hne
    obtain ⟨source, hsource, -⟩ := httraced.exists_source a ha hne
    exact ⟨_, by rw [sourceName?, hsource, Option.map_some], halone ha hsource⟩

/-- Two joint sheets have the trees of both, one behind the other. -/
theorem bare_forest_of_joint {C D : Copy} {p q r : Progress}
    (h : Joint M N C D ⟨{}, [], p⟩ ⟨{}, [], q⟩ ⟨{}, [], r⟩) :
    bareForest r.sheet.forest = bareForest p.sheet.forest ++ bareForest q.sheet.forest := by
  have hp : p.sheet.IsSound := h.left.sound
  have hq : q.sheet.IsSound := h.right.sound
  have hr : r.sheet.IsSound := h.left.sound_copy
  have hleft : IsCopy Eq C p.sheet r.sheet := h.left.copy
  have hright : IsCopy Eq D q.sheet r.sheet := h.right.copy
  have hbehind : C.behind = (q.sheet.children root).map D.node := h.left_behind
  rw [hleft.forest_eq hp hr h.left_root, h.left_before, hbehind,
    (alikeIn_eq_iff D.input _ _).1 (hright.alikeIn_forest hq hr), List.map_nil, List.nil_append,
    bareForest_append, bareForest_relabelForest, bareForest_relabelForest]

/-! ## Runs over several texts -/

/-- In the sheet without texts there is nothing to do. -/
theorem transform_empty (o : Options) : empty.transform o = .ok { sheet := empty } := by
  refine transform_eq_ok isSound_empty o fun kind _ id hon => ?_
  obtain ⟨i⟩ := id
  obtain rfl : i = 0 := Nat.lt_one_iff.1 (isSound_empty.has_of_hangsOn hon)
  rfl

/-- A run over texts from inputs of different names succeeds if the runs over the single texts do.
It warns of what these warn of, and puts their trees in a row. If it stops, one of these stops with
the same fault. -/
theorem transform_read (texts : List (Input × String)) (hnames : (texts.map (·.1.name)).Nodup)
    (o : Options) :
    match (read texts).transform o with
    | .ok p => ∃ parts : List Progress,
        List.Forall₂ (fun text q => (read [text]).transform o = .ok q) texts parts ∧
        p.warnings = parts.flatMap Progress.warnings ∧
        bareForest p.sheet.forest = parts.flatMap fun q => bareForest q.sheet.forest
    | .error e => ∃ text ∈ texts, ∃ e', (read [text]).transform o = .error e' ∧
        e'.fault = e.fault := by
  -- The last text is the second part of the joint sheet.
  induction texts using List.reverseRecOn with
  | nil =>
    rw [show (read []).transform o = _ from transform_empty o]
    exact ⟨[], .nil, rfl, rfl⟩
  | append_singleton texts text ih =>
    rw [List.map_append, List.nodup_append] at hnames
    obtain ⟨hnd, -, hout⟩ := hnames
    obtain ⟨hs, hw⟩ := read_sound texts
    obtain ⟨C, D, hjoint⟩ := joint_addText (M := fun n => n ∈ texts.map (·.1.name)) hs hw
      (isTraced_read texts) text.1 text.2 (fun _ hid => inputName_read_mem texts hid)
      fun hmem => hout _ hmem _ (List.mem_singleton_self _) rfl
    have hend := transform_joint o hjoint
    have hread : read (texts ++ [text]) = ((read texts).addText text.1 text.2).2 :=
      List.foldl_append
    have ih := ih hnd
    have hlast : (read [text]).transform o = (read [(text.1, text.2)]).transform o := rfl
    rw [← hread, ← hlast] at hend
    revert hend ih
    generalize (read texts).transform o = r₁
    generalize hr₂ : (read [text]).transform o = r₂
    generalize (read (texts ++ [text])).transform o = r
    intro hend ih
    cases hend with
    | @ok p q r hjoint =>
      obtain ⟨C, D, hjoint⟩ := hjoint
      obtain ⟨parts, hparts, hwarnings, hforest⟩ := ih
      refine ⟨parts ++ [q], List.rel_append hparts (.cons hr₂ .nil), ?_, ?_⟩
      · have hw : r.warnings = p.warnings ++ q.warnings := hjoint.warnings_eq
        rw [hw, hwarnings, List.flatMap_append, List.flatMap_singleton]
      · rw [bare_forest_of_joint hjoint, hforest, List.flatMap_append, List.flatMap_singleton]
    | left he =>
      obtain ⟨text', htext', e', he', hfault⟩ := ih
      exact ⟨text', List.mem_append_left _ htext', e', he', hfault.trans he.symm⟩
    | @right e e' r he =>
      exact ⟨text, List.mem_append_right _ (List.mem_singleton_self _), e, hr₂, he.symm⟩

/-- The text of a sheet that was read and lowered is that of its trees. -/
theorem print_eq_of_transform {texts : List (Input × String)} {o : Options} {p : Progress}
    (h : (read texts).transform o = .ok p) : p.sheet.print = renderForest 0 p.sheet.forest := by
  obtain ⟨replaced, hex⟩ := exists_exchange_of_transform (isSound_read texts) h
  exact hex.sound.toIsForest.print_eq

/-- What a run leaves of a text has no second root among its nodes. -/
theorem content_ne_root_of_transform (texts : List (Input × String)) (o : Options) {p : Progress}
    (h : (read texts).transform o = .ok p) : ∀ t ∈ p.sheet.forest, t.content ≠ .root := by
  obtain ⟨replaced, hex⟩ := exists_exchange_of_transform (isSound_read texts) h
  have hs := hex.sound
  intro t ht
  obtain ⟨c, hc, rfl⟩ := List.mem_map.1 ht
  have hp := hs.mem_children_iff.1 hc
  rw [hs.tree_eq]
  change p.sheet.content c ≠ .root
  by_cases hold : (read texts).Has c
  · rw [hex.content_eq c hold]
    exact (isTraced_read texts).content_ne c hold (hs.ne_root_of_parent hp)
  · intro hroot
    have hkind := hex.kind_of_new (has_of_parent hp) hold
    rw [Sheet.kind, hroot] at hkind
    cases hkind

/-- If the trees of a run are those of runs over single texts in a row, its text is put together
from theirs. -/
theorem print_eq_intercalate {texts : List (Input × String)} {o : Options} {p : Progress}
    {parts : List Progress} (h : (read texts).transform o = .ok p)
    (hparts : ∀ q ∈ parts, ∃ text, (read [text]).transform o = .ok q)
    (hforest : bareForest p.sheet.forest = parts.flatMap fun q => bareForest q.sheet.forest) :
    p.sheet.print = "\n".intercalate ((parts.map fun q => q.sheet.print).filter (· ≠ "")) := by
  rw [print_eq_of_transform h, ← renderForest_bareForest, hforest, List.flatMap_def,
    renderForest_flatten, List.map_map]
  · congr 2
    apply List.map_congr_left
    intro q hq
    obtain ⟨text, htext⟩ := hparts q hq
    change renderForest 0 (bareForest q.sheet.forest) = q.sheet.print
    rw [print_eq_of_transform htext, renderForest_bareForest]
  · -- Each tree has a text, so only a run that leaves no tree is printed as nothing.
    rw [List.forall_mem_map]
    intro q hq t ht
    obtain ⟨text, htext⟩ := hparts q hq
    rw [bareForest_eq_map] at ht
    obtain ⟨u, hu, rfl⟩ := List.mem_map.1 ht
    rw [render_bare]
    exact render_ne_empty (content_ne_root_of_transform [text] o htext u hu) 0

end Sheet

/-! ## From text to text -/

/-- The errors of a text do not depend on what was read before. -/
theorem Sheet.addChecked_eq (s : Sheet) (input : Input) (text : String) :
    s.addChecked input text = match (parse ⟨0⟩ text).errors with
      | [] => .ok (s.addText input text).2
      | error :: _ => .error (.parse input.name error) := by
  have herrors : (s.addText input text).1 = (parse ⟨0⟩ text).errors := by
    have hparse := parse_relabel (fun _ => ⟨s.inputs.size⟩) ⟨0⟩ text
    change (parse ⟨s.inputs.size⟩ text).errors = _
    rw [hparse]
  unfold Sheet.addChecked
  rw [← herrors]
  cases hadd : s.addText input text with
  | mk errors t => cases errors <;> rfl

/-- Adding texts succeeds if they have no errors; otherwise it stops with what one of them alone
stops with. -/
theorem foldlM_addChecked (texts : List (Input × String)) (s : Sheet) :
    match texts.foldlM (fun s text => s.addChecked text.1 text.2) s with
    | .ok _ => ∀ text ∈ texts,
        Sheet.empty.addChecked text.1 text.2 = .ok (Sheet.read [text])
    | .error failure => ∃ text ∈ texts,
        Sheet.empty.addChecked text.1 text.2 = .error failure := by
  induction texts generalizing s with
  | nil => exact fun _ h => absurd h List.not_mem_nil
  | cons text texts ih =>
    rw [List.foldlM_cons, Sheet.addChecked_eq]
    have halone := Sheet.empty.addChecked_eq text.1 text.2
    cases herrors : (parse ⟨0⟩ text.2).errors with
    | cons error errors =>
      rw [herrors] at halone
      exact ⟨text, List.mem_cons_self, halone⟩
    | nil =>
      rw [herrors] at halone
      have ih := ih (s.addText text.1 text.2).2
      change match texts.foldlM (fun s text => s.addChecked text.1 text.2)
        (s.addText text.1 text.2).2 with | .ok _ => _ | .error _ => _
      revert ih
      cases texts.foldlM (fun s text => s.addChecked text.1 text.2) (s.addText text.1 text.2).2 with
      | error failure =>
        rintro ⟨text', htext', hfailure⟩
        exact ⟨text', List.mem_cons_of_mem _ htext', hfailure⟩
      | ok t =>
        intro ih
        exact List.forall_mem_cons.2 ⟨halone, ih⟩

/-- A named text as it is read. -/
def namedText (input : String × String) : Input × String :=
  (.ofFile input.1, input.2)

theorem processInputs_eq (inputs : List (String × String)) (o : Options) :
    processInputs inputs o = (inputs.map namedText).foldlM
      (fun s text => s.addChecked text.1 text.2) Sheet.empty >>= fun s => s.process o := by
  rw [List.foldlM_map]
  rfl

theorem processInputs_singleton (input : String × String) (o : Options) :
    processInputs [input] o = Sheet.empty.addChecked (.ofFile input.1) input.2 >>=
      fun s => s.process o := by
  rw [processInputs_eq, List.map_singleton, List.foldlM_cons]
  exact congrArg (· >>= _) (bind_pure _)

/-- Named texts are lowered as each of them alone: together they succeed if all of them do, the text
is made of those that are not empty, a line break between any two, and the warnings are in the order
of the inputs. If they fail, one of them alone fails in the same way. -/
theorem processInputs_each (inputs : List (String × String)) (hnames : (inputs.map Prod.fst).Nodup)
    (o : Options) :
    match processInputs inputs o with
    | .ok whole => ∃ parts : List Processed,
        List.Forall₂ (fun input part => processInputs [input] o = .ok part) inputs parts ∧
        whole.css = "\n".intercalate ((parts.map Processed.css).filter (· ≠ "")) ∧
        whole.warnings = parts.flatMap Processed.warnings
    | .error failure => ∃ input ∈ inputs, processInputs [input] o = .error failure := by
  have hchecked := foldlM_addChecked (inputs.map namedText) Sheet.empty
  rw [processInputs_eq]
  cases hread : (inputs.map namedText).foldlM (fun s text => s.addChecked text.1 text.2)
      Sheet.empty with
  | error failure =>
    rw [hread] at hchecked
    -- The first text with an error has this error alone as well.
    obtain ⟨text, htext, hfailure⟩ := hchecked
    obtain ⟨input, hinput, rfl⟩ := List.mem_map.1 htext
    refine ⟨input, hinput, ?_⟩
    rw [processInputs_singleton]
    exact congrArg (· >>= _) hfailure
  | ok s =>
    rw [hread] at hchecked
    obtain rfl := Sheet.eq_read_of_addChecked hread
    have halone : ∀ input ∈ inputs,
        processInputs [input] o = (Sheet.read [namedText input]).process o := fun input hinput => by
      rw [processInputs_singleton]
      exact congrArg (· >>= _) (hchecked _ (List.mem_map_of_mem hinput))
    -- All texts are read, so what is left is one run over all of them.
    have hrun := Sheet.transform_read (inputs.map namedText) (by
      rw [List.map_map]
      exact hnames) o
    change match (Sheet.read (inputs.map namedText)).process o with | .ok _ => _ | .error _ => _
    unfold Sheet.process
    cases htransform : (Sheet.read (inputs.map namedText)).transform o with
    | error stopped =>
      rw [htransform] at hrun
      obtain ⟨text, htext, e, he, hfault⟩ := hrun
      obtain ⟨input, hinput, rfl⟩ := List.mem_map.1 htext
      refine ⟨input, hinput, ?_⟩
      rw [halone input hinput, Sheet.process, he, ← hfault]
    | ok p =>
      rw [htransform] at hrun
      obtain ⟨parts, hparts, hwarnings, hforest⟩ := hrun
      rw [List.forall₂_map_left_iff] at hparts
      refine ⟨parts.map fun q => ⟨q.sheet.print, q.warnings⟩, ?_, ?_, ?_⟩
      · rw [List.forall₂_map_right_iff]
        refine ((List.forall₂_and_left _ _).2 ⟨halone, hparts⟩).imp ?_
        rintro input q ⟨hinput, hq⟩
        rw [hinput, Sheet.process, hq]
      · have hparts' : ∀ q ∈ parts, ∃ text, (Sheet.read [text]).transform o = .ok q := by
          intro q hq
          obtain ⟨input, -, hinput⟩ := exists_of_forall₂ hparts.flip hq
          exact ⟨_, hinput⟩
        rw [List.map_map]
        exact Sheet.print_eq_intercalate htransform hparts' hforest
      · rw [List.flatMap_map]
        exact hwarnings

/-- For instance, where the namespace of one input would be that of the other, and an input between
them gives no text. -/
theorem processInputs_each_card :
    let inputs := [("a.css", "@component-namespace ui; @component Card {}"), ("b.css", ""),
      ("c.css", "@component Card {}")]
    (inputs.map Prod.fst).Nodup ∧ ∃ whole parts, processInputs inputs {} = .ok whole ∧
      List.Forall₂ (fun input part => processInputs [input] {} = .ok part) inputs parts ∧
      whole.css = ".ui-Card {}\n.Card {}" ∧
      whole.css = "\n".intercalate ((parts.map Processed.css).filter (· ≠ "")) ∧
      whole.warnings = parts.flatMap Processed.warnings := by
  intro inputs
  have hnames : (inputs.map Prod.fst).Nodup := by decide
  have hcss : (match processInputs inputs {} with
      | .ok whole => whole.css == ".ui-Card {}\n.Card {}"
      | .error _ => false) = true := by
    decide +kernel
  have heach := processInputs_each inputs hnames {}
  revert hcss heach
  cases processInputs inputs {} with
  | error failure =>
    intro hcss
    cases hcss
  | ok whole =>
    rintro hcss ⟨parts, hparts, hwhole, hwarnings⟩
    exact ⟨hnames, whole, parts, rfl, hparts, beq_iff_eq.1 hcss, hwhole, hwarnings⟩

end ClassRules
