import ClassRules.Proofs.Lowering.ParallelRun
import ClassRules.Proofs.Sheet.Origins

/-!
# Shortcuts in full

A shortcut is another keyword for a kind, and no more: a run with shortcuts does what a run without
them does over the sheet with all keywords written in full.

## What this module delivers

- `Shortcuts.AreNew`: the shortcuts differ from each other and from all keywords.
- `Shortcuts.inFull`, `Content.inFull`, `Sheet.inFull`: keywords instead of the shortcuts for them.
- `Shortcuts.names_inFull`: a name means the same kinds in full, without shortcuts.
- `Sheet.transform_inFull`: a run with shortcuts and one over the sheet in full go side by side.
-/

set_option autoImplicit false

namespace ClassRules

open ClassRules.Tree Lowering

/-! ## Names -/

namespace Shortcuts

/-- The shortcuts differ from each other and from all keywords. -/
structure AreNew (shortcuts : Shortcuts) : Prop where
  inj : ∀ (kind kind' : RuleKind) (name : String), shortcuts.get kind = some name →
    shortcuts.get kind' = some name → kind = kind'
  ne_keyword : ∀ kind kind' : RuleKind, shortcuts.get kind ≠ some kind'.keyword

/-- The kind that a name is the shortcut for. -/
def kindOf? (shortcuts : Shortcuts) (name : String) : Option RuleKind :=
  RuleKind.all.find? fun kind => shortcuts.get kind == some name

/-- The keyword that a name is the shortcut for, or else the name itself. -/
def inFull (shortcuts : Shortcuts) (name : String) : String :=
  ((shortcuts.kindOf? name).map RuleKind.keyword).getD name

variable {shortcuts : Shortcuts}

theorem get_of_kindOf? {name : String} {kind : RuleKind}
    (h : shortcuts.kindOf? name = some kind) : shortcuts.get kind = some name := by
  have hfound := List.find?_some h
  exact eq_of_beq hfound

theorem get_ne_of_kindOf? {name : String} (h : shortcuts.kindOf? name = none) (kind : RuleKind) :
    shortcuts.get kind ≠ some name := by
  intro hget
  exact List.find?_eq_none.1 h kind kind.mem_all (beq_iff_eq.2 hget)

/-- In full, a name means the kinds that it meant. -/
theorem names_inFull (h : shortcuts.AreNew) (kind : RuleKind) (name : String) :
    Shortcuts.names {} kind (shortcuts.inFull name) = shortcuts.names kind name := by
  rw [names_empty, Bool.eq_iff_iff]
  cases hkind : shortcuts.kindOf? name with
  | none =>
    have hget := get_ne_of_kindOf? hkind kind
    simp [inFull, hkind, names, hget]
  | some kind' =>
    have hget := get_of_kindOf? hkind
    -- A shortcut is no keyword, so it means what it is the shortcut for and nothing else.
    have hname : name ≠ kind.keyword := fun e => h.ne_keyword kind' kind (e ▸ hget)
    simp only [inFull, hkind, Option.map_some, Option.getD_some, names, beq_iff_eq, Bool.or_eq_true,
      hname, false_or]
    constructor
    · intro heq
      exact RuleKind.keyword_inj heq ▸ hget
    · intro hget'
      exact congrArg RuleKind.keyword (h.inj kind' kind name hget hget')

end Shortcuts

/-! ## Contents and sheets -/

namespace Content

variable (shortcuts : Shortcuts)

/-- The same content with its keyword in full. -/
def inFull : Content → Content
  | .atRule name params body => .atRule (shortcuts.inFull name) params body
  | content => content

/-- The second content is the first one in full. -/
def IsFull (c c' : Content) : Prop :=
  c' = c.inFull shortcuts

theorem kind_inFull (c : Content) : (c.inFull shortcuts).kind = c.kind := by
  cases c <;> rfl

theorem carries_inFull (c : Content) : (c.inFull shortcuts).carries = c.carries := by
  cases c <;> rfl

/-- To a run without shortcuts, contents in full say what they said to one with shortcuts. -/
theorem likeness_inFull {shortcuts : Shortcuts} (h : shortcuts.AreNew) (convention : Convention) :
    Likeness ⟨convention, shortcuts⟩ ⟨convention, {}⟩ (IsFull shortcuts) where
  convention_eq := rfl
  kind_eq := by
    rintro c _ rfl
    exact kind_inFull shortcuts c
  hasBody_eq := by
    rintro c _ rfl
    cases c <;> rfl
  selector_eq := by
    rintro c _ rfl
    cases c <;> rfl
  names_eq := by
    rintro c _ rfl kind
    cases c with
    | atRule name params body => exact Shortcuts.names_inFull h kind name
    | _ => rfl
  params_eq := by
    rintro c _ rfl kind -
    cases c <;> rfl
  rule _ := rfl

end Content

namespace Sheet

/-- The same sheet with all keywords in full. -/
def inFull (s : Sheet) (shortcuts : Shortcuts) : Sheet :=
  { s with nodes := s.nodes.map fun n => { n with content := n.content.inFull shortcuts } }

section InFull

variable (s : Sheet) (shortcuts : Shortcuts) (id : NodeId)

theorem node_inFull : (s.inFull shortcuts).node id =
    { s.node id with content := (s.content id).inFull shortcuts } := by
  simp only [content, node, inFull, Array.getElem?_map]
  cases s.nodes[id.index]? <;> rfl

@[simp] theorem content_inFull :
    (s.inFull shortcuts).content id = (s.content id).inFull shortcuts :=
  congrArg Node.content (s.node_inFull shortcuts id)

@[simp] theorem source_inFull : (s.inFull shortcuts).source id = s.source id := by
  rw [source, source, node_inFull]

@[simp] theorem parent_inFull : (s.inFull shortcuts).parent id = s.parent id := by
  rw [parent, parent, node_inFull]

@[simp] theorem children_inFull : (s.inFull shortcuts).children id = s.children id := by
  rw [children, children, node_inFull]

@[simp] theorem has_inFull : (s.inFull shortcuts).Has id ↔ s.Has id := by
  simp [Has, inFull]

end InFull

variable {s : Sheet} {shortcuts : Shortcuts}

theorem IsSound.inFull (h : s.IsSound) : (s.inFull shortcuts).IsSound where
  mem_children_iff {p c} := by rw [children_inFull, parent_inFull, h.mem_children_iff]
  nodup_children := by simpa using h.nodup_children
  wf_parent := by simpa using h.wf_parent
  has_root := by simpa using h.has_root
  parent_root := by simpa using h.parent_root
  content_root := by simp [h.content_root, Content.inFull]
  carries := by simpa [Content.carries_inFull] using h.carries

/-- The copy under the same handles. -/
def Copy.same : Copy :=
  ⟨id, id, [], []⟩

theorem Copy.isWhole_same : Copy.same.IsWhole :=
  ⟨rfl, rfl, rfl⟩

/-- A sheet in full is a copy of the sheet. -/
theorem isCopy_inFull (s : Sheet) (shortcuts : Shortcuts) :
    IsCopy (Content.IsFull shortcuts) Copy.same s (s.inFull shortcuts) where
  has a ha := by simpa [Copy.same] using ha
  inj a b _ _ hab := hab
  root_only a _ ha := ha
  attached := .refl _ root
  content a _ _ := s.content_inFull shortcuts a
  source_eq a _ _ := by
    change (s.inFull shortcuts).source a = (s.source a).map (Source.relabel id)
    rw [source_inFull]
    cases s.source a <;> rfl
  inputName_eq _ _ _ _ _ := rfl
  children a _ := by simp [Copy.around, Copy.same]
  outside _ hx := absurd hx List.not_mem_nil
  orphan a _ _ hp := by simpa [Copy.same] using hp

/-- A sheet that is all a copy with keywords in full has the trees of the sheet in full. -/
theorem forest_eq_inFull {C : Copy} {t : Sheet} (hs : s.IsSound) (ht : t.IsSound)
    (h : IsCopy (Content.IsFull shortcuts) C s t) (hC : C.IsWhole) (hinput : C.input = id) :
    t.forest = (s.inFull shortcuts).forest := by
  have hfirst := h.alikeIn_forest_of_isWhole hs ht hC
  have hsecond := (isCopy_inFull s shortcuts).alikeIn_forest_of_isWhole hs hs.inFull
    Copy.isWhole_same
  rw [hinput] at hfirst
  -- Keywords in full are given by the contents, so the two are the same.
  refine alikeIn_right_unique ?_ _ _ _ hfirst hsecond
  intro c c₁ c₂ h₁ h₂
  exact h₁.trans h₂.symm

/-! ## Whole runs -/

/-- Shortcuts only rename. Where they differ from each other and from all keywords, a run with them,
and one without them over the sheet with all keywords in full: both succeed, warn of the same and
count the same, and the trees of the second are those of the first in full; or both stop with the
same fault. -/
theorem transform_inFull (texts : List (Input × String)) {o : Options} (h : o.shortcuts.AreNew) :
    match (read texts).transform o,
      ((read texts).inFull o.shortcuts).transform { o with shortcuts := {} } with
    | .ok p, .ok q => q.sheet.forest = (p.sheet.inFull o.shortcuts).forest ∧
        q.warnings = p.warnings ∧ q.stats = p.stats
    | .error e, .error e' => e'.fault = e.fault
    | _, _ => False := by
  have hs := isSound_read texts
  have htraced := isTraced_read texts
  generalize read texts = s at hs htraced
  have hR : Likeness (.ofOptions o) (.ofOptions { o with shortcuts := {} })
      (Content.IsFull o.shortcuts) := Content.likeness_inFull h o.convention
  have htied : Tied (Content.IsFull o.shortcuts) (fun _ => True) Copy.same
      (Progress.standing { sheet := s }) (Progress.standing { sheet := s.inFull o.shortcuts }) := by
    refine .start hs hs.inFull (isCopy_inFull s o.shortcuts) ?_ ?_
    · change (s.inFull o.shortcuts).kind root ≠ .rule
      rw [Sheet.kind, hs.inFull.content_root]
      decide
    · intro x hx hne
      obtain ⟨source, hsource, -⟩ := htraced.exists_source x hx hne
      exact ⟨_, congrArg (Option.map _) hsource, trivial⟩
  have hrun := transform_parallel hR rfl htied (findsCopies_of_isWhole hR hs Copy.isWhole_same)
  revert hrun
  generalize s.transform o = r
  generalize (s.inFull o.shortcuts).transform { o with shortcuts := {} } = r'
  intro hrun
  cases hrun with
  | error hfault => exact hfault
  | ok hends =>
    obtain ⟨C, htied', hf⟩ := hends
    have hcont := hf.continues hs
    exact ⟨forest_eq_inFull htied'.sound htied'.sound_copy htied'.copy
      (hcont.isWhole Copy.isWhole_same) hcont.input_eq, hf.report_eq⟩

/-- For instance, under BEM, where states stay as they are: the shortcut for a state is left, and
its keyword in the other run. -/
theorem transform_inFull_state :
    let o : Options := { style := .bem, shortcuts := { component := some "c", when := some "w" } }
    let s := read [(.ofFile "a.css", "@c Card { @w open {} }")]
    ∃ p q, s.transform o = .ok p ∧
      (s.inFull o.shortcuts).transform { o with shortcuts := {} } = .ok q ∧
      p.sheet.print = ".Card \x7b\n  @w open {}\n\x7d" ∧
      q.sheet.print = ".Card \x7b\n  @when open {}\n\x7d" ∧
      q.sheet.forest = (p.sheet.inFull o.shortcuts).forest ∧ q.warnings = p.warnings ∧
      q.stats = p.stats := by
  intro o s
  have hnew : o.shortcuts.AreNew := by
    constructor
    case inj =>
      intro kind kind' name h h'
      have hsame : o.shortcuts.get kind = o.shortcuts.get kind' := h.trans h'.symm
      have hsome : o.shortcuts.get kind ≠ none := by rw [h]; exact Option.some_ne_none name
      clear h h'
      revert hsame hsome
      cases kind <;> cases kind' <;> decide
    case ne_keyword =>
      intro kind kind'
      cases kind <;> cases kind' <;> decide
  have hprint : (s.transform o).toOption.any (fun p =>
      p.sheet.print == ".Card \x7b\n  @w open {}\n\x7d") = true := by
    decide +kernel
  have hprint' : ((s.inFull o.shortcuts).transform { o with shortcuts := {} }).toOption.any
      (fun q => q.sheet.print == ".Card \x7b\n  @when open {}\n\x7d") = true := by
    decide +kernel
  have hrun := transform_inFull [(.ofFile "a.css", "@c Card { @w open {} }")] hnew
  change match s.transform o, (s.inFull o.shortcuts).transform { o with shortcuts := {} } with
    | .ok p, .ok q => q.sheet.forest = (p.sheet.inFull o.shortcuts).forest ∧
        q.warnings = p.warnings ∧ q.stats = p.stats
    | .error e, .error e' => e'.fault = e.fault
    | _, _ => False at hrun
  clear_value s o
  cases hp : s.transform o with
  | error e =>
    rw [hp] at hprint
    cases hprint
  | ok p =>
    cases hq : (s.inFull o.shortcuts).transform { o with shortcuts := {} } with
    | error e =>
      rw [hq] at hprint'
      cases hprint'
    | ok q =>
      rw [hp] at hprint hrun
      rw [hq] at hprint' hrun
      exact ⟨p, q, rfl, rfl, of_decide_eq_true hprint, of_decide_eq_true hprint', hrun⟩

end Sheet

end ClassRules
