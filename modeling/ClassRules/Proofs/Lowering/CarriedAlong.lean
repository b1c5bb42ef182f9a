import ClassRules.Proofs.Lowering.ParallelRun
import ClassRules.Proofs.Sheet.Origins

/-!
# What is only carried along

A run goes by the shape of a sheet, by the places that its nodes come from, by selectors, and by the
at-rules that mean a kind. What declarations, comments and all other at-rules say, it carries along
without reading it: of two sheets that differ in this alone, what becomes of the one becomes of the
other.

## What this module delivers

- `Content.View`, `Content.view`: what is left of a content without what is only carried along.
- `Content.likeness_view`: to a run, contents with the same view say the same.
- `Sheet.exists_isCopy_read`: sheets whose trees are alike have corresponding nodes.
- `CarriesAlong`: from two sheets to two others, old nodes say what they said, and new ones are
  rules that say the same on both sides.
- `Sheet.transform_view`: so it is with the sheets that two runs leave, and both warn of the same
  and count the same, or stop with the same fault.
-/

set_option autoImplicit false

namespace ClassRules

open ClassRules.Tree Lowering

/-! ## Contents -/

/-- Whether a name means a kind, as its keyword or as a shortcut. -/
def Shortcuts.isKeyword (shortcuts : Shortcuts) (name : String) : Bool :=
  RuleKind.all.any fun kind => shortcuts.names kind name

theorem Shortcuts.isKeyword_of_names {shortcuts : Shortcuts} {kind : RuleKind} {name : String}
    (h : shortcuts.names kind name = true) : shortcuts.isKeyword name = true :=
  List.any_eq_true.2 ⟨kind, kind.mem_all, h⟩

namespace Content

/-- What is left of a content without the fields of declarations, the texts of comments, and the
names and params of at-rules that mean no kind. -/
inductive View where
  | root
  | rule (selector : String)
  /-- An at-rule that means a kind, with its name and params. -/
  | custom (name params : String) (body : Bool)
  /-- Any other at-rule. -/
  | atRule (body : Bool)
  | declaration
  | comment
  deriving DecidableEq, Repr

/-- The view of a content. -/
def view (shortcuts : Shortcuts) : Content → View
  | .root => .root
  | .rule selector => .rule selector
  | .atRule name params body =>
    if shortcuts.isKeyword name then .custom name params body else .atRule body
  | .declaration .. => .declaration
  | .comment _ => .comment

/-- Two contents have the same view. -/
def SameView (shortcuts : Shortcuts) (c c' : Content) : Prop :=
  c'.view shortcuts = c.view shortcuts

instance (shortcuts : Shortcuts) : DecidableRel (SameView shortcuts) := fun _ _ =>
  inferInstanceAs (Decidable (_ = _))

variable {shortcuts : Shortcuts} {c c' : Content}

theorem SameView.symm (h : SameView shortcuts c c') : SameView shortcuts c' c :=
  Eq.symm h

/-- Nothing of a rule is left out. -/
theorem SameView.eq_of_rule (h : SameView shortcuts c c') (hc : c.kind = .rule) : c' = c := by
  cases c <;> cases c' <;> grind [SameView, view, kind]

/-- Of at-rules that mean a kind nothing is left out either, and from the view of an at-rule it can
be told whether it means one. -/
theorem SameView.of_name? (h : SameView shortcuts c c') {kind : RuleKind}
    (hname : c.name?.any (shortcuts.names kind) = true) : c' = c := by
  cases c with
  | atRule name params body =>
    have hkey : shortcuts.isKeyword name = true := Shortcuts.isKeyword_of_names hname
    cases c' with
    | atRule name' params' body' =>
      simp only [SameView, view, hkey, if_true] at h
      split at h
      · obtain ⟨rfl, rfl, rfl⟩ := View.custom.inj h
        rfl
      · cases h
    | _ => simp [SameView, view, hkey] at h
  | _ => cases hname

/-- To a run, contents with the same view say the same. -/
theorem likeness_view (convention : Convention) (shortcuts : Shortcuts) :
    Likeness ⟨convention, shortcuts⟩ ⟨convention, shortcuts⟩ (SameView shortcuts) where
  convention_eq := rfl
  kind_eq c c' h := by
    cases c <;> cases c' <;> grind [SameView, view, kind]
  hasBody_eq c c' h := by
    cases c <;> cases c' <;> grind [SameView, view, hasBody]
  selector_eq c c' h := by
    cases c <;> cases c' <;> grind [SameView, view, selector?]
  names_eq c c' h kind := by
    rw [Bool.eq_iff_iff]
    exact ⟨fun hname => h.symm.of_name? hname ▸ hname, fun hname => (h.of_name? hname).symm ▸ hname⟩
  params_eq c c' h kind hname := by
    rw [h.of_name? hname]
  rule _ := rfl

end Content

/-! ## Deciding whether trees are alike -/

namespace Tree

section Decide

variable {R : Content → Content → Prop} [DecidableRel R] (f : InputId → InputId)

mutual

/-- Whether two trees are alike can be decided if it can be of two contents whether they go
together. -/
def decideAlike : ∀ t u : Tree, Decidable (Alike R f t u)
  | .node content source children, .node content' source' children' =>
    haveI := decideAlikeIn children children'
    inferInstanceAs (Decidable (R content content' ∧ source' = source.map (Source.relabel f) ∧
      AlikeIn R f children children'))

/-- The same of two lists of trees. -/
def decideAlikeIn : ∀ ts us : List Tree, Decidable (AlikeIn R f ts us)
  | [], [] => .isTrue trivial
  | [], _ :: _ => .isFalse id
  | _ :: _, [] => .isFalse id
  | t :: ts, u :: us =>
    haveI := decideAlike t u
    haveI := decideAlikeIn ts us
    inferInstanceAs (Decidable (Alike R f t u ∧ AlikeIn R f ts us))

end

instance : DecidableRel (AlikeIn R f) :=
  decideAlikeIn f

end Decide

end Tree

namespace Sheet

/-! ## Sheets that were read -/

/-- Where the trees of two sheets that were read are alike, and come from the same inputs, the nodes
of the one are found in the other, each at the same place. -/
theorem exists_isCopy_read {R : Content → Content → Prop} {texts texts' : List (Input × String)}
    (hinputs : (read texts').inputs = (read texts).inputs)
    (halike : AlikeIn R id (read texts).forest (read texts').forest) :
    ∃ C : Copy, C.IsWhole ∧ C.input = id ∧ IsCopy R C (read texts) (read texts') := by
  obtain ⟨hs, hw⟩ := read_sound texts
  have ht := isSound_read texts'
  have hname : ∀ a, (read texts).Has a → ∀ source, (read texts).source a = some source →
      (read texts').inputName (id source.input) = (read texts).inputName source.input :=
    fun a _ source _ => by rw [inputName, inputName, hinputs, id]
  obtain ⟨f, hf, -, hcopy⟩ := exists_isCopy hs hw ht (.refl (read texts') root) []
    ((read texts').children root) [] (by simp) halike hname
  exact ⟨_, ⟨hf, rfl, rfl⟩, rfl, hcopy⟩

/-- From `s` and its copy `t` to `s'` and its copy `t'`, what the nodes say is only carried along:
those that were there say what they said, under the same handles, and new ones are rules that say
the same on both sides. -/
structure CarriesAlong (C C' : Copy) (s t s' t' : Sheet) : Prop where
  node_eq : ∀ a, s.Has a → C'.node a = C.node a
  content_eq : ∀ a, s.Has a → s'.content a = s.content a
  content_copy_eq : ∀ a, s.Has a → t'.content (C.node a) = t.content (C.node a)
  new_rule : ∀ a, s'.Has a → ¬ s.Has a →
    s'.kind a = .rule ∧ t'.content (C'.node a) = s'.content a

/-! ## Whole runs -/

/-- What declarations, comments and at-rules that mean no kind say makes no difference to a run. Let
two sheets that were read from the same inputs have trees of the same shape, with the same places
and the same views of contents. Then runs over both stop with the same fault; or both succeed, warn
of the same and count the same, and leave trees that again have the same shape, the same places and
the same views. In these the nodes that were read still say what they said, and all others are rules
that say the same on both sides. -/
theorem transform_view {texts texts' : List (Input × String)} {o : Options}
    (hinputs : (read texts').inputs = (read texts).inputs)
    (halike : AlikeIn (Content.SameView o.shortcuts) id (read texts).forest
      (read texts').forest) :
    ∃ C : Copy, C.IsWhole ∧ C.input = id ∧
      IsCopy (Content.SameView o.shortcuts) C (read texts) (read texts') ∧
      EndsAlike (fun p q => q.warnings = p.warnings ∧ q.stats = p.stats ∧
          AlikeIn (Content.SameView o.shortcuts) id p.sheet.forest q.sheet.forest ∧
          ∃ C', C.Continues C' ∧ IsCopy (Content.SameView o.shortcuts) C' p.sheet q.sheet ∧
            CarriesAlong C C' (read texts) (read texts') p.sheet q.sheet)
        ((read texts).transform o) ((read texts').transform o) := by
  obtain ⟨C, hC, hid, hcopy⟩ := exists_isCopy_read hinputs halike
  refine ⟨C, hC, hid, hcopy, ?_⟩
  have hs := isSound_read texts
  have ht := isSound_read texts'
  have htraced := isTraced_read texts
  clear halike hinputs
  generalize read texts = s at *
  generalize read texts' = t at *
  have hR : Likeness (.ofOptions o) (.ofOptions o) (Content.SameView o.shortcuts) :=
    Content.likeness_view o.convention o.shortcuts
  have htied : Tied (Content.SameView o.shortcuts) (fun _ => True) C
      (Progress.standing { sheet := s }) (Progress.standing { sheet := t }) := by
    refine .start hs ht hcopy ?_ ?_
    · change t.kind (C.node root) ≠ .rule
      rw [hC.node_root, Sheet.kind, ht.content_root]
      decide
    · intro x hx hne
      obtain ⟨source, hsource, -⟩ := htraced.exists_source x hx hne
      exact ⟨_, congrArg (Option.map _) hsource, trivial⟩
  -- Runs see no more of a node than its view, so they go on side by side.
  have hrun := transform_parallel hR rfl htied (findsCopies_of_isWhole hR hs hC)
  refine hrun.mono ?_
  rintro p q hp hq ⟨C', htied', hf⟩
  have hcont := hf.continues hs
  have hcopy' : IsCopy (Content.SameView o.shortcuts) C' p.sheet q.sheet := htied'.copy
  obtain ⟨replaced, hex⟩ := exists_exchange_of_transform hs hp
  obtain ⟨replaced', hex'⟩ := exists_exchange_of_transform ht hq
  refine ⟨hf.report_eq.1, hf.report_eq.2, ?_, C', hcont, hcopy', ?_⟩
  · have hall := hcopy'.alikeIn_forest_of_isWhole htied'.sound htied'.sound_copy
      (hcont.isWhole hC)
    rwa [hcont.input_eq, hid] at hall
  · constructor
    case node_eq => exact hf.node_eq
    case content_eq => exact hex.content_eq
    case content_copy_eq => exact fun a ha => hex'.content_eq _ (hcopy.has a ha)
    case new_rule =>
      intro a ha hnew
      have hkind := hex.kind_of_new ha hnew
      have hne : a ≠ root := fun e => hnew (e ▸ hs.has_root)
      exact ⟨hkind, (hcopy'.content a ha hne).eq_of_rule hkind⟩

/-- For instance, if a declaration, a comment and an at-rule in a component say something else. -/
theorem transform_view_card :
    let texts := [(Input.ofFile "a.css",
      "@component Card { top: 0; /* a */ @media print { @modifier wide {} } }")]
    let texts' := [(Input.ofFile "a.css",
      "@component Card { all: a; /* b */ @layer inner { @modifier wide {} } }")]
    (read texts').inputs = (read texts).inputs ∧
      AlikeIn (Content.SameView {}) id (read texts).forest (read texts').forest ∧
      ∃ p q, (read texts).transform {} = .ok p ∧ (read texts').transform {} = .ok q ∧
        AlikeIn (Content.SameView {}) id p.sheet.forest q.sheet.forest ∧
        p.sheet.content ⟨6⟩ = .rule ".Card" ∧ q.sheet.content ⟨6⟩ = .rule ".Card" ∧
        q.warnings = p.warnings ∧ q.stats = p.stats := by
  intro texts texts'
  have hboth : (read texts').inputs = (read texts).inputs ∧
      AlikeIn (Content.SameView {}) id (read texts).forest (read texts').forest := by
    decide +kernel
  have hrule : ∀ t ∈ [texts, texts'], ((read t).transform {}).toOption.any
      (fun p => p.sheet.content ⟨6⟩ == .rule ".Card") = true := by
    decide +kernel
  have hrule' := hrule texts' (by simp)
  have hrule := hrule texts (by simp)
  obtain ⟨C, -, -, -, hrun⟩ := transform_view (o := {}) hboth.1 hboth.2
  refine ⟨hboth.1, hboth.2, ?_⟩
  generalize (read texts).transform {} = r at *
  generalize (read texts').transform {} = r' at *
  cases hrun with
  | error h => cases hrule
  | ok h =>
    obtain ⟨hwarnings, hstats, halike, -⟩ := h
    exact ⟨_, _, rfl, rfl, halike, of_decide_eq_true hrule, of_decide_eq_true hrule', hwarnings,
      hstats⟩

end Sheet

end ClassRules
