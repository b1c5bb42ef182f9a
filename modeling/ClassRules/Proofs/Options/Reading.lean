import ClassRules.Options.OfJson
import ClassRules.Proofs.Json.Ordered
import Mathlib.Tactic.Common

/-!
# Options from an object

What comes of an object that should be options. All types are looked at before any content, then the
style, and then the separators in the order of their names, so that of several things that are wrong
the same one is always reported. What is right is put over the defaults.

## What this module delivers

- `IsMistyped`, `NoStyle`, `IsBadSeparator`: what can be wrong with an object.
- `given`: the options that an object gives, as far as nothing is wrong.
- `ofJson_cases`, `ofJson_eq_ok_iff`: what reading an object can come to, and when it succeeds.
- `ofJson_object`: which of the faults is reported, and what the options are if there is none.
-/

set_option autoImplicit false

namespace ClassRules

/-! ## Values by kind -/

/-- The kind with a name is the one that has it. -/
theorem SeparatorKind.ofKey?_eq_some_iff {key : String} {kind : SeparatorKind} :
    ofKey? key = some kind ↔ kind.key = key := by
  constructor
  · intro h
    simpa using List.find?_some h
  · rintro rfl
    cases kind <;> decide

theorem RuleKind.ofKeyword?_eq_some_iff {keyword : String} {kind : RuleKind} :
    ofKeyword? keyword = some kind ↔ kind.keyword = keyword := by
  constructor
  · intro h
    simpa using List.find?_some h
  · rintro rfl
    cases kind <;> decide

/-- Values for all kinds of separators are told from the value for each. -/
theorem BySeparator.ext_get {α : Type} {a b : BySeparator α} (h : ∀ kind, a.get kind = b.get kind) :
    a = b := by
  cases a
  cases b
  obtain rfl := h .ns
  obtain rfl := h .descendent
  obtain rfl := h .modifier
  obtain rfl := h .state
  rfl

namespace Shortcuts

/-- The shortcuts given by a function of the kind. -/
def ofFn (f : RuleKind → Option String) : Shortcuts :=
  ⟨f .utility, f .componentNamespace, f .component, f .modifier, f .descendent, f .when⟩

@[simp] theorem get_ofFn (f : RuleKind → Option String) (kind : RuleKind) :
    (ofFn f).get kind = f kind := by
  cases kind <;> rfl

/-- Shortcuts are told from that of each kind. -/
theorem ext_get {a b : Shortcuts} (h : ∀ kind, a.get kind = b.get kind) : a = b := by
  cases a
  cases b
  obtain rfl := h .utility
  obtain rfl := h .componentNamespace
  obtain rfl := h .component
  obtain rfl := h .modifier
  obtain rfl := h .descendent
  obtain rfl := h .when
  rfl

end Shortcuts

namespace Options

/-! ## What can be wrong -/

/-- A fault of what is there, not of what it says. -/
def Fault.isShape : Fault → Bool
  | .type .. | .length _ => true
  | .style _ | .separator _ => false

/-- Something is there, but it is no string. -/
def NoString (value : Json) : Prop :=
  value ≠ .null ∧ ∀ s, value ≠ .string s

/-- Something is there, but it is no object. -/
def NoObject (value : Json) : Prop :=
  value ≠ .null ∧ ∀ fields, value ≠ .object fields

/-- A part has the wrong type. -/
def IsMistyped (value : Json) : Prop :=
  NoString (value.field "defaultNamespace") ∨ NoObject (value.field "separators") ∨
    NoObject (value.field "shortcuts")

/-- Something is there, but neither one of the two styles nor the empty string. -/
def NoStyle (value : Json) : Prop :=
  value ≠ .null ∧ ∀ s ∈ ["", Style.suit.name, Style.bem.name], value ≠ .string s

/-- There is a separator with this name, known or not, that is no string. -/
def IsBadSeparator (value : Json) (name : String) : Prop :=
  ∃ found, (name, found) ∈ (value.field "separators").fields ∧ ∀ s, found ≠ .string s

/-- No other such name comes before this one. -/
def IsLeastBadSeparator (value : Json) (name : String) : Prop :=
  IsBadSeparator value name ∧ ∀ other, IsBadSeparator value other → name ≤ other

/-- The options that an object gives if nothing is wrong with it. -/
def given (value : Json) : Options where
  style := if (value.field "style").string? = some Style.bem.name then .bem else .suit
  overrides := .ofFn fun kind => ((value.field "separators").field kind.key).string?
  shortcuts := .ofFn fun kind =>
    ((value.field "shortcuts").field kind.keyword).string?.filter (· ≠ "")
  defaultNamespace := (value.field "defaultNamespace").string?.filter (· ≠ "")

/-! ## Types -/

namespace Draft

/-- The value of a field has the type that it should have. -/
def Fits (name : String) (value : Json) : Prop :=
  (name = "defaultNamespace" → ¬ NoString value) ∧ (name = "separators" → ¬ NoObject value) ∧
    (name = "shortcuts" → ¬ NoObject value)

/-- A field that fits is put in the place of an earlier one. -/
def put (d : Draft) (name : String) (value : Json) : Draft where
  style := if name = "style" then value else d.style
  separators := if name = "separators" then value.fields else d.separators
  shortcuts := if name = "shortcuts" then value.fields else d.shortcuts
  defaultNamespace := if name = "defaultNamespace" then value.string? else d.defaultNamespace

theorem map_eq_ok {value : Json} (h : ¬ NoObject value) : map value = .ok value.fields := by
  cases value <;> first | rfl | exact absurd ⟨by simp, by simp⟩ h

theorem map_eq_error {value : Json} (h : NoObject value) :
    map value = .error (.type value .map) := by
  cases value <;> first | rfl | exact absurd rfl h.1 | exact absurd rfl (h.2 _)

theorem string_eq_ok {value : Json} (h : ¬ NoString value) :
    string value = .ok value.string? := by
  cases value <;> first | rfl | exact absurd ⟨by simp, by simp⟩ h

theorem string_eq_error {value : Json} (h : NoString value) :
    string value = .error (.type value .string) := by
  cases value <;> first | rfl | exact absurd rfl h.1 | exact absurd rfl (h.2 _)

/-- What a field does, by its name. -/
theorem addField_eq (d : Draft) (name : String) (value : Json) : addField d (name, value) =
    if name = "style" then .ok { d with style := value }
    else if name = "separators" then (map value).map fun fields => { d with separators := fields }
    else if name = "shortcuts" then (map value).map fun fields => { d with shortcuts := fields }
    else if name = "defaultNamespace" then
      (string value).map fun ns => { d with defaultNamespace := ns }
    else .ok d := by
  unfold addField
  split <;> simp_all

/-- A field that fits is put in its place. -/
theorem addField_of_fits (d : Draft) {name : String} {value : Json} (h : Fits name value) :
    addField d (name, value) = .ok (d.put name value) := by
  obtain ⟨hnamespace, hseparators, hshortcuts⟩ := h
  rw [addField_eq]
  split
  · rename_i hname
    simp [put, hname]
  split
  · rename_i hname
    rw [map_eq_ok (hseparators hname)]
    simp [put, hname, Except.map]
  split
  · rename_i hname
    rw [map_eq_ok (hshortcuts hname)]
    simp [put, hname, Except.map]
  split
  · rename_i hname
    rw [string_eq_ok (hnamespace hname)]
    simp [put, hname, Except.map]
  · simp [put, *]

/-- A field that does not fit is a fault of type. -/
theorem addField_of_not_fits (d : Draft) {name : String} {value : Json} (h : ¬ Fits name value) :
    ∃ found wanted, addField d (name, value) = .error (.type found wanted) := by
  have hcases : name = "defaultNamespace" ∧ NoString value ∨ name = "separators" ∧ NoObject value ∨
      name = "shortcuts" ∧ NoObject value := by
    by_contra hnone
    simp only [not_or, not_and] at hnone
    exact h hnone
  rcases hcases with ⟨rfl, hbad⟩ | ⟨rfl, hbad⟩ | ⟨rfl, hbad⟩
  · exact ⟨value, .string, by simp [addField_eq, string_eq_error hbad, Except.map]⟩
  · exact ⟨value, .map, by simp [addField_eq, map_eq_error hbad, Except.map]⟩
  · exact ⟨value, .map, by simp [addField_eq, map_eq_error hbad, Except.map]⟩

variable {fields : List (String × Json)}

theorem foldlM_addField_of_fits (d : Draft)
    (h : ∀ name value, (name, value) ∈ fields → Fits name value) :
    fields.foldlM addField d = .ok (fields.foldl (fun d field => d.put field.1 field.2) d) := by
  induction fields generalizing d with
  | nil => rfl
  | cons first fields ih =>
    rw [List.foldlM_cons, List.foldl_cons, addField_of_fits d (h _ _ List.mem_cons_self)]
    exact ih _ fun name value hmem => h name value (List.mem_cons_of_mem _ hmem)

theorem foldlM_addField_of_not_fits (d : Draft) {name : String} {value : Json}
    (hmem : (name, value) ∈ fields) (h : ¬ Fits name value) :
    ∃ found wanted, fields.foldlM addField d = .error (.type found wanted) := by
  induction fields generalizing d with
  | nil => cases hmem
  | cons first fields ih =>
    obtain ⟨other, found⟩ := first
    rw [List.foldlM_cons]
    by_cases hfits : Fits other found
    · rw [addField_of_fits d hfits]
      refine ih _ ((List.mem_cons.1 hmem).resolve_left ?_)
      rintro ⟨⟩
      exact h hfits
    · -- The first one is reported.
      obtain ⟨found, wanted, herror⟩ := addField_of_not_fits d hfits
      rw [herror]
      exact ⟨found, wanted, rfl⟩

/-- As no name comes twice, each field has the last word. -/
theorem foldl_put (d : Draft) (h : KeyedList.Increasing fields) :
    fields.foldl (fun d field => d.put field.1 field.2) d =
      ⟨((KeyedList.get? fields "style").map id).getD d.style,
        ((KeyedList.get? fields "separators").map Json.fields).getD d.separators,
        ((KeyedList.get? fields "shortcuts").map Json.fields).getD d.shortcuts,
        ((KeyedList.get? fields "defaultNamespace").map Json.string?).getD d.defaultNamespace⟩ := by
  induction fields generalizing d with
  | nil => rfl
  | cons first fields ih =>
    obtain ⟨name, value⟩ := first
    rw [List.foldl_cons, ih _ (List.pairwise_cons.1 h).2]
    simp only [put, ← KeyedList.getD_get?_of_increasing h, id_eq]

end Draft

/-! ## Reading -/

section Reading

variable {fields : List (String × Json)} (h : (Json.object fields).IsOrdered)

include h

/-- All fields fit just if no part has the wrong type. -/
theorem fits_iff : (∀ name value, (name, value) ∈ fields → Draft.Fits name value) ↔
    ¬ IsMistyped (.object fields) := by
  constructor
  · rintro hfits (hbad | hbad | hbad)
    · exact (hfits _ _ (Json.mem_fields_of_field_ne hbad.1)).1 rfl hbad
    · exact (hfits _ _ (Json.mem_fields_of_field_ne hbad.1)).2.1 rfl hbad
    · exact (hfits _ _ (Json.mem_fields_of_field_ne hbad.1)).2.2 rfl hbad
  · intro hright name value hmem
    obtain rfl := h.field_eq_of_mem hmem
    refine ⟨?_, ?_, ?_⟩
    · rintro rfl hbad
      exact hright (.inl hbad)
    · rintro rfl hbad
      exact hright (.inr (.inl hbad))
    · rintro rfl hbad
      exact hright (.inr (.inr hbad))

/-- Types are looked at first. -/
theorem ofJson_of_isMistyped (hbad : IsMistyped (.object fields)) :
    ∃ found wanted, ofJson (.object fields) = .error (.type found wanted) := by
  have hsome : ∃ name value, (name, value) ∈ fields ∧ ¬ Draft.Fits name value := by
    by_contra hnone
    simp only [not_exists, not_and, not_not] at hnone
    exact (fits_iff h).1 hnone hbad
  obtain ⟨name, value, hmem, hnot⟩ := hsome
  obtain ⟨found, wanted, herror⟩ := Draft.foldlM_addField_of_not_fits {} hmem hnot
  refine ⟨found, wanted, ?_⟩
  change (fields.foldlM Draft.addField {} >>= Draft.resolve) = _
  rw [herror]
  rfl

theorem draft_ofJson (hright : ¬ IsMistyped (.object fields)) :
    Draft.ofJson (.object fields) = .ok
      ⟨(Json.object fields).field "style", ((Json.object fields).field "separators").fields,
        ((Json.object fields).field "shortcuts").fields,
        ((Json.object fields).field "defaultNamespace").string?⟩ := by
  have hfields := Draft.foldl_put {} h.increasing
  rw [Draft.ofJson, Draft.foldlM_addField_of_fits _ ((fits_iff h).2 hright)]
  refine congrArg Except.ok (hfields.trans ?_)
  simp only [Json.field_eq]
  -- What is missing reads as nothing, and that is what stands there before.
  congr 1
  · exact Option.getD_map id Json.null _
  · exact Option.getD_map Json.fields Json.null _
  · exact Option.getD_map Json.fields Json.null _
  · exact Option.getD_map Json.string? Json.null _

end Reading

/-! ## Contents -/

namespace Draft

theorem readStyle_string (s : String) : readStyle (.string s) =
    if s = "" ∨ s = "suit" then .ok .suit else if s = "bem" then .ok .bem
    else .error (.style (.string s)) := by
  by_cases hempty : s = ""
  · subst hempty
    rfl
  by_cases hsuit : s = "suit"
  · subst hsuit
    rfl
  by_cases hbem : s = "bem"
  · subst hbem
    rfl
  rw [if_neg (by simp [hempty, hsuit]), if_neg hbem]
  unfold readStyle
  simp [Style.ofName?]

theorem readStyle_eq_ok {value : Json} (h : ¬ NoStyle value) :
    readStyle value = .ok (if value.string? = some Style.bem.name then .bem else .suit) := by
  cases value with
  | null => rfl
  | string s =>
    have hsome : s = "" ∨ s = "suit" ∨ s = "bem" := by
      by_contra hnone
      refine h ⟨by simp, ?_⟩
      rintro _ hmem ⟨⟩
      simp only [List.mem_cons, List.not_mem_nil, or_false] at hmem
      exact hnone hmem
    rcases hsome with rfl | rfl | rfl <;> rfl
  | _ => exact absurd ⟨by simp, by simp⟩ h

theorem readStyle_eq_error {value : Json} (h : NoStyle value) :
    readStyle value = .error (.style value) := by
  obtain ⟨hnull, hnone⟩ := h
  cases value with
  | null => exact absurd rfl hnull
  | string s =>
    have hne : ∀ t ∈ ["", "suit", "bem"], s ≠ t := by
      rintro t hmem rfl
      exact hnone s hmem rfl
    rw [readStyle_string, if_neg (by simp [hne]), if_neg (hne _ (by simp))]
  | _ => rfl

/-- Other separators are told from that of each kind. -/
theorem overrides_ext (o : Options) {overrides overrides' : BySeparator (Option String)}
    (h : ∀ kind, overrides.get kind = overrides'.get kind) :
    { o with overrides := overrides } = { o with overrides := overrides' } :=
  congrArg (fun overrides => { o with overrides := overrides }) (BySeparator.ext_get h)

/-- So are other shortcuts. -/
theorem shortcuts_ext (o : Options) {shortcuts shortcuts' : Shortcuts}
    (h : ∀ kind, shortcuts.get kind = shortcuts'.get kind) :
    { o with shortcuts := shortcuts } = { o with shortcuts := shortcuts' } :=
  congrArg (fun shortcuts => { o with shortcuts := shortcuts }) (Shortcuts.ext_get h)

/-- A separator that is a string is chosen for the kind that its name means, if there is one. -/
theorem addSeparator_string (o : Options) (name s : String) : addSeparator o (name, .string s) =
    .ok { o with
      overrides := .ofFn fun kind =>
        if name = kind.key then some s else o.overrides.get kind } := by
  rw [addSeparator]
  cases hkind : SeparatorKind.ofKey? name with
  | none =>
    have hne : ∀ kind : SeparatorKind, name ≠ kind.key := by
      rintro kind rfl
      rw [SeparatorKind.ofKey?_eq_some_iff.2 rfl] at hkind
      cases hkind
    refine congrArg Except.ok (overrides_ext o fun kind => ?_)
    rw [BySeparator.get_ofFn, if_neg (hne kind)]
  | some kind =>
    refine congrArg Except.ok (overrides_ext o fun other => ?_)
    rw [BySeparator.get_set, BySeparator.get_ofFn]
    have hiff : name = other.key ↔ other = kind := by
      rw [eq_comm, ← SeparatorKind.ofKey?_eq_some_iff, hkind, Option.some_inj, eq_comm]
    simp only [hiff]

/-- One that is no string stops the reading. -/
theorem addSeparator_of_ne_string (o : Options) (name : String) {value : Json}
    (h : ∀ s, value ≠ .string s) : addSeparator o (name, value) = .error (.separator name) := by
  cases value with
  | string s => exact absurd rfl (h s)
  | _ => rfl

variable {fields : List (String × Json)} (h : KeyedList.Increasing fields)

include h

/-- Separators that are strings are put over those before. -/
theorem foldlM_addSeparator (o : Options)
    (hall : ∀ name value, (name, value) ∈ fields → ∃ s, value = .string s) :
    fields.foldlM addSeparator o = .ok { o with
      overrides := .ofFn fun kind =>
        ((KeyedList.get? fields kind.key).map Json.string?).getD (o.overrides.get kind) } := by
  induction fields generalizing o with
  | nil =>
    refine congrArg Except.ok (overrides_ext o fun kind => ?_)
    rw [BySeparator.get_ofFn]
    rfl
  | cons first fields ih =>
    obtain ⟨name, value⟩ := first
    obtain ⟨s, rfl⟩ := hall name value List.mem_cons_self
    rw [List.foldlM_cons, addSeparator_string]
    refine (ih (List.pairwise_cons.1 h).2 _
      fun name value hmem => hall name value (List.mem_cons_of_mem _ hmem)).trans ?_
    simp only [BySeparator.get_ofFn, ← KeyedList.getD_get?_of_increasing h]
    rfl

/-- Otherwise the least name of one that is no string is reported. -/
theorem foldlM_addSeparator_eq_error (o : Options)
    (hbad : ∃ name value, (name, value) ∈ fields ∧ ∀ s, value ≠ .string s) :
    ∃ name value, (name, value) ∈ fields ∧ (∀ s, value ≠ .string s) ∧
      (∀ other found, (other, found) ∈ fields → (∀ s, found ≠ .string s) → name ≤ other) ∧
      fields.foldlM addSeparator o = .error (.separator name) := by
  induction fields generalizing o with
  | nil =>
    obtain ⟨_, _, hmem, -⟩ := hbad
    cases hmem
  | cons first fields ih =>
    obtain ⟨name, value⟩ := first
    obtain ⟨hfirst, hrest⟩ := List.pairwise_cons.1 h
    rw [List.foldlM_cons]
    by_cases hstring : ∃ s, value = .string s
    · obtain ⟨s, rfl⟩ := hstring
      -- The first one is a string, so what is to be reported comes later.
      have hlater : ∀ {other found}, (other, found) ∈ (name, Json.string s) :: fields →
          (∀ s, found ≠ .string s) → (other, found) ∈ fields := by
        intro other found hmem hfound
        refine (List.mem_cons.1 hmem).resolve_left ?_
        rintro ⟨⟩
        exact hfound s rfl
      obtain ⟨other, found, hmem, hfound⟩ := hbad
      rw [addSeparator_string]
      obtain ⟨least, value, hleast, hvalue, hall, herror⟩ :=
        ih hrest _ ⟨other, found, hlater hmem hfound, hfound⟩
      exact ⟨least, value, List.mem_cons_of_mem _ hleast, hvalue,
        fun other found hmem hfound => hall other found (hlater hmem hfound) hfound, herror⟩
    · -- It comes first, and all other names are greater.
      simp only [not_exists] at hstring
      refine ⟨name, value, List.mem_cons_self, hstring, ?_, ?_⟩
      · intro other found hmem _
        rcases List.mem_cons.1 hmem with heq | hmem
        · cases heq
          exact String.le_refl name
        · have hlt : name < other := hfirst _ hmem
          exact String.not_lt.1 fun hgt => String.lt_irrefl name (String.lt_trans hlt hgt)
      · rw [addSeparator_of_ne_string o name hstring]
        rfl

omit h

/-- What is chosen by a value over what was there before. The empty string chooses nothing, and what
is no string changes nothing. -/
def overlaid (before : Option String) (value : Json) : Option String :=
  value.string?.elim before fun s => if s = "" then none else some s

/-- Over nothing, what is chosen is the text of the value. -/
theorem elim_overlaid (value : Option Json) : value.elim none (overlaid none) =
    (value.getD .null).string?.filter (· ≠ "") := by
  cases value with
  | none => rfl
  | some value =>
    rw [Option.elim_some, Option.getD_some, overlaid]
    cases value.string? with
    | none => rfl
    | some s => simp [Option.filter]

/-- A shortcut is chosen for the kind that its name means, if there is one. -/
theorem addShortcut_eq (o : Options) (name : String) (value : Json) : addShortcut o (name, value) =
    { o with
      shortcuts := .ofFn fun kind =>
        if name = kind.keyword then overlaid (o.shortcuts.get kind) value
        else o.shortcuts.get kind } := by
  cases hkind : RuleKind.ofKeyword? name with
  | none =>
    have hne : ∀ kind : RuleKind, name ≠ kind.keyword := by
      rintro kind rfl
      rw [RuleKind.ofKeyword?_eq_some_iff.2 rfl] at hkind
      cases hkind
    rw [addShortcut, hkind]
    refine shortcuts_ext o fun kind => ?_
    rw [Shortcuts.get_ofFn, if_neg (hne kind)]
  | some kind =>
    have hiff : ∀ other : RuleKind, name = other.keyword ↔ other = kind := fun other => by
      rw [eq_comm, ← RuleKind.ofKeyword?_eq_some_iff, hkind, Option.some_inj, eq_comm]
    rw [addShortcut, hkind]
    cases value with
    | string s =>
      refine shortcuts_ext o fun other => ?_
      rw [Shortcuts.set, Shortcuts.get_put, Shortcuts.get_ofFn]
      simp only [hiff]
      rfl
    | _ =>
      refine shortcuts_ext o fun other => ?_
      rw [Shortcuts.get_ofFn]
      exact (ite_self _).symm

/-- As no name comes twice, each shortcut is put over what was there before. -/
theorem foldl_addShortcut (h : KeyedList.Increasing fields) (o : Options) :
    fields.foldl addShortcut o = { o with
      shortcuts := .ofFn fun kind =>
        (KeyedList.get? fields kind.keyword).elim (o.shortcuts.get kind)
          (overlaid (o.shortcuts.get kind)) } := by
  induction fields generalizing o with
  | nil =>
    refine shortcuts_ext o fun kind => ?_
    rw [Shortcuts.get_ofFn]
    rfl
  | cons first fields ih =>
    obtain ⟨name, value⟩ := first
    rw [List.foldl_cons, addShortcut_eq, ih (List.pairwise_cons.1 h).2]
    refine shortcuts_ext o fun kind => ?_
    simp only [Shortcuts.get_ofFn, KeyedList.get?_cons]
    by_cases hname : name = kind.keyword
    · rw [if_pos hname, if_pos hname, ← hname, KeyedList.get?_eq_none_of_increasing h]
      rfl
    · rw [if_neg hname, if_neg hname]

end Draft

section Reading

variable {fields : List (String × Json)} (h : (Json.object fields).IsOrdered)
  (hright : ¬ IsMistyped (.object fields))

include h hright

/-- The style comes before the separators. -/
theorem ofJson_of_noStyle (hbad : NoStyle ((Json.object fields).field "style")) :
    ofJson (.object fields) = .error (.style ((Json.object fields).field "style")) := by
  rw [ofJson, draft_ofJson h hright]
  change (Draft.readStyle ((Json.object fields).field "style") >>= _) = _
  rw [Draft.readStyle_eq_error hbad]
  rfl

variable (hstyle : ¬ NoStyle ((Json.object fields).field "style"))

include hstyle

/-- If the types and the style are right, only separators can be wrong. -/
theorem ofJson_eq_foldlM : ofJson (.object fields) =
    (((Json.object fields).field "separators").fields.foldlM Draft.addSeparator
      { style := if ((Json.object fields).field "style").string? = some Style.bem.name then .bem
          else .suit }) >>= fun o =>
      .ok { ((Json.object fields).field "shortcuts").fields.foldl Draft.addShortcut o with
        defaultNamespace :=
          ((Json.object fields).field "defaultNamespace").string?.filter (· ≠ "") } := by
  rw [ofJson, draft_ofJson h hright]
  change (Draft.readStyle ((Json.object fields).field "style") >>= _) = _
  rw [Draft.readStyle_eq_ok hstyle]
  rfl

/-- Of the separators the first one that is no string is reported. -/
theorem ofJson_of_isBadSeparator (hbad : ∃ name, IsBadSeparator (.object fields) name) :
    ∃ name, IsLeastBadSeparator (.object fields) name ∧
      ofJson (.object fields) = .error (.separator name) := by
  obtain ⟨other, found, hmem, hfound⟩ := hbad
  obtain ⟨name, value, hname, hvalue, hleast, herror⟩ :=
    Draft.foldlM_addSeparator_eq_error (h.field "separators").increasing
      { style := if ((Json.object fields).field "style").string? = some Style.bem.name then .bem
          else .suit } ⟨other, found, hmem, hfound⟩
  refine ⟨name, ⟨⟨value, hname, hvalue⟩, ?_⟩, ?_⟩
  · rintro other ⟨found, hmem, hfound⟩
    exact hleast other found hmem hfound
  · rw [ofJson_eq_foldlM h hright hstyle, herror]
    rfl

/-- If nothing is wrong, the options are those that the object gives. -/
theorem ofJson_eq_given (hseparators : ∀ name, ¬ IsBadSeparator (.object fields) name) :
    ofJson (.object fields) = .ok (given (.object fields)) := by
  have hall : ∀ name value, (name, value) ∈ ((Json.object fields).field "separators").fields →
      ∃ s, value = .string s := by
    intro name value hmem
    by_contra hnone
    exact hseparators name ⟨value, hmem, not_exists.1 hnone⟩
  rw [ofJson_eq_foldlM h hright hstyle,
    Draft.foldlM_addSeparator (h.field "separators").increasing _ hall]
  refine congrArg Except.ok ?_
  rw [Draft.foldl_addShortcut (h.field "shortcuts").increasing]
  simp only [given, Options.mk.injEq, true_and, and_true]
  refine ⟨BySeparator.ext_get fun kind => ?_, Shortcuts.ext_get fun kind => ?_⟩
  · simp only [BySeparator.get_ofFn]
    rw [Json.field_eq (Json.field _ _) kind.key]
    exact Option.getD_map Json.string? Json.null _
  · have hnone : ({} : Shortcuts).get kind = none := by cases kind <;> rfl
    simp only [Shortcuts.get_ofFn, hnone]
    rw [Json.field_eq (Json.field _ _) kind.keyword]
    exact Draft.elim_overlaid _

omit hstyle

/-- With an object whose types are right, one of three things happens. -/
theorem ofJson_cases :
    (NoStyle ((Json.object fields).field "style") ∧
      ofJson (.object fields) = .error (.style ((Json.object fields).field "style"))) ∨
    (¬ NoStyle ((Json.object fields).field "style") ∧
      ∃ name, IsLeastBadSeparator (.object fields) name ∧
        ofJson (.object fields) = .error (.separator name)) ∨
    (¬ NoStyle ((Json.object fields).field "style") ∧
      (∀ name, ¬ IsBadSeparator (.object fields) name) ∧
        ofJson (.object fields) = .ok (given (.object fields))) := by
  by_cases hstyle : NoStyle ((Json.object fields).field "style")
  · exact .inl ⟨hstyle, ofJson_of_noStyle h hright hstyle⟩
  by_cases hbad : ∃ name, IsBadSeparator (.object fields) name
  · exact .inr (.inl ⟨hstyle, ofJson_of_isBadSeparator h hright hstyle hbad⟩)
  · exact .inr (.inr ⟨hstyle, not_exists.1 hbad,
      ofJson_eq_given h hright hstyle (not_exists.1 hbad)⟩)

end Reading

/-- An object is accepted just if nothing is wrong with it. -/
theorem ofJson_eq_ok_iff {fields : List (String × Json)} (h : (Json.object fields).IsOrdered)
    {o : Options} : ofJson (.object fields) = .ok o ↔
      (¬ IsMistyped (.object fields) ∧ ¬ NoStyle ((Json.object fields).field "style") ∧
        ∀ name, ¬ IsBadSeparator (.object fields) name) ∧ o = given (.object fields) := by
  constructor
  · intro hok
    have hright : ¬ IsMistyped (.object fields) := by
      intro hbad
      obtain ⟨found, wanted, heq⟩ := ofJson_of_isMistyped h hbad
      rw [heq] at hok
      cases hok
    rcases ofJson_cases h hright with ⟨-, heq⟩ | ⟨-, name, -, heq⟩ | ⟨hstyle, hseparators, heq⟩
    · rw [heq] at hok
      cases hok
    · rw [heq] at hok
      cases hok
    · rw [heq] at hok
      exact ⟨⟨hright, hstyle, hseparators⟩, (Except.ok.inj hok).symm⟩
  · rintro ⟨⟨hright, hstyle, hseparators⟩, rfl⟩
    exact ofJson_eq_given h hright hstyle hseparators

/-- What the options are told by an object with which nothing is wrong. -/
structure Follows (value : Json) (o : Options) : Prop where
  style_eq : o.style = .bem ↔ value.field "style" = .string Style.bem.name
  /-- A separator is the one that the object gives, or else that of the style. -/
  separator_eq : ∀ kind, o.convention.separators.get kind =
    ((value.field "separators").field kind.key).string?.getD (o.style.separators.get kind)
  shortcut_eq : ∀ kind, o.shortcuts.get kind =
    ((value.field "shortcuts").field kind.keyword).string?.filter (· ≠ "")
  namespace_eq : o.defaultNamespace = (value.field "defaultNamespace").string?.filter (· ≠ "")

theorem follows_given (value : Json) : Follows value (given value) := by
  constructor
  case style_eq =>
    rw [given]
    cases value.field "style" with
    | string s => simp [Json.string?]
    | _ => simp [Json.string?]
  case separator_eq =>
    intro kind
    simp [given, convention]
  case shortcut_eq => exact fun kind => Shortcuts.get_ofFn _ kind
  case namespace_eq => rfl

/-- Reading options from an object. It fails for its shape just if a part has the wrong type; else
for its style just if there is one and it is neither empty nor one of the two; else for the least
name of a separator, known or not, that is no string, if there is one. Otherwise it succeeds, with
the separators of the object and else those of the style, with the shortcuts that are strings and
not empty, and with the default namespace, unless it is empty. -/
theorem ofJson_object {fields : List (String × Json)} (h : (Json.object fields).IsOrdered) :
    ((∃ fault, ofJson (.object fields) = .error fault ∧ fault.isShape = true) ↔
      IsMistyped (.object fields)) ∧
    (¬ IsMistyped (.object fields) →
      ((∃ found, ofJson (.object fields) = .error (.style found)) ↔
        NoStyle ((Json.object fields).field "style")) ∧
      (¬ NoStyle ((Json.object fields).field "style") →
        (∀ name, ofJson (.object fields) = .error (.separator name) ↔
          IsLeastBadSeparator (.object fields) name) ∧
        ((∀ name, ¬ IsLeastBadSeparator (.object fields) name) →
          ∃ o, ofJson (.object fields) = .ok o ∧ Follows (.object fields) o))) := by
  constructor
  · constructor
    · rintro ⟨fault, herror, hshape⟩
      by_contra hright
      rcases ofJson_cases h hright with ⟨-, heq⟩ | ⟨-, name, -, heq⟩ | ⟨-, -, heq⟩
      · rw [heq] at herror
        cases herror
        cases hshape
      · rw [heq] at herror
        cases herror
        cases hshape
      · rw [heq] at herror
        cases herror
    · intro hbad
      obtain ⟨found, wanted, heq⟩ := ofJson_of_isMistyped h hbad
      exact ⟨_, heq, rfl⟩
  intro hright
  rcases ofJson_cases h hright with ⟨hbad, heq⟩ | ⟨hstyle, name, hleast, heq⟩ |
    ⟨hstyle, hnone, heq⟩
  · exact ⟨iff_of_true ⟨_, heq⟩ hbad, fun hstyle => absurd hbad hstyle⟩
  · refine ⟨iff_of_false ?_ hstyle, fun _ => ⟨fun other => ⟨?_, ?_⟩, ?_⟩⟩
    · rintro ⟨found, herror⟩
      rw [heq] at herror
      cases herror
    · intro herror
      rw [heq] at herror
      cases herror
      exact hleast
    · intro hother
      -- Two least names are the same.
      obtain rfl := String.le_antisymm (hleast.2 _ hother.1) (hother.2 _ hleast.1)
      exact heq
    · exact fun hnot => absurd hleast (hnot name)
  · refine ⟨iff_of_false ?_ hstyle, fun _ => ⟨fun other => iff_of_false ?_ ?_, fun _ => ?_⟩⟩
    · rintro ⟨found, herror⟩
      rw [heq] at herror
      cases herror
    · intro herror
      rw [heq] at herror
      cases herror
    · exact fun hleast => hnone other hleast.1
    · exact ⟨_, heq, follows_given _⟩

/-- Of two separators that are no strings, the one whose name comes first is reported, though no
kind has this name. -/
theorem ofJson_object_two_separators :
    (Json.object [("separators", .object [("element", .null), ("modifier", .integer 1)]),
      ("style", .string "bem")]).IsOrdered ∧
    ofJson (.object [("separators", .object [("element", .null), ("modifier", .integer 1)]),
      ("style", .string "bem")]) = .error (.separator "element") := by
  have hordered : (Json.object [("separators", .object [("element", .null),
      ("modifier", .integer 1)]), ("style", .string "bem")]).IsOrdered := by
    refine .object (KeyedList.increasing_iff.2 (by decide)) ?_
    rintro name value (_ | ⟨_, _ | ⟨_, ⟨⟩⟩⟩)
    · refine .object (KeyedList.increasing_iff.2 (by decide)) ?_
      rintro name value (_ | ⟨_, _ | ⟨_, ⟨⟩⟩⟩)
      · exact .null
      · exact .integer 1
    · exact .string "bem"
  refine ⟨hordered, ?_⟩
  have hright : ¬ IsMistyped (.object [("separators", .object [("element", .null),
      ("modifier", .integer 1)]), ("style", .string "bem")]) := by
    rintro (hbad | hbad | hbad)
    · exact hbad.1 rfl
    · exact hbad.2 _ rfl
    · exact hbad.1 rfl
  have hstyle : ¬ NoStyle (.string "bem") := fun hbad => hbad.2 "bem" (by decide) rfl
  refine ((((ofJson_object hordered).2 hright).2 hstyle).1 "element").2
    ⟨⟨.null, List.mem_cons_self, by simp⟩, ?_⟩
  rintro other ⟨found, _ | ⟨_, _ | ⟨_, ⟨⟩⟩⟩, -⟩
  · exact String.le_refl _
  · decide

end Options

end ClassRules
