import ClassRules.CommandLine
import ClassRules.Proofs.Options.Reading
import Mathlib.Data.List.Induction

/-!
# Ways to options

Options can be chosen one after the other, read from an object, or read from a config file and then
changed by the command line. A choice takes the place of an earlier one of the same setting, as a
field of an object would, so that each way comes to what one object gives.

## What this module delivers

- `Options.Choice`, `Options.build`: the options after some choices.
- `Options.lastFor`, `Options.chosen`: what was chosen last, and the object that holds it.
- `Options.ofJson_chosen`: the object gives what the choices build.
- `Arguments.override`: the fields of an object with those of the command line in their place.
- `Options.routes_agree`: the choices, and the config file with the command line, both come to what
  is read from one object.
-/

set_option autoImplicit false

namespace ClassRules

/-! ## Entries that are there -/

namespace KeyedList

variable {α : Type} {entries : List (String × Option α)}

/-- The entries that have a value. -/
def present (entries : List (String × Option α)) : List (String × α) :=
  entries.filterMap fun entry => entry.2.map (entry.1, ·)

theorem mem_present {key : String} {value : α} :
    (key, value) ∈ present entries ↔ (key, some value) ∈ entries := by
  simp only [present, List.mem_filterMap, Option.map_eq_some_iff, Prod.mk.injEq]
  constructor
  · rintro ⟨⟨name, found⟩, hmem, other, rfl, rfl, rfl⟩
    exact hmem
  · exact fun hmem => ⟨_, hmem, value, rfl, rfl, rfl⟩

theorem increasing_present (h : Increasing entries) : Increasing (present entries) := by
  refine List.Pairwise.filterMap _ ?_ h
  rintro ⟨name, found⟩ ⟨other, found'⟩ hlt entry hentry entry' hentry'
  obtain ⟨value, -, rfl⟩ := Option.map_eq_some_iff.1 hentry
  obtain ⟨value', -, rfl⟩ := Option.map_eq_some_iff.1 hentry'
  exact hlt

/-- A key has the value of its entry, if the entry has one. -/
theorem get?_present (h : Increasing entries) {key : String} {value : Option α}
    (hmem : (key, value) ∈ entries) : get? (present entries) key = value := by
  refine Option.ext fun found => ?_
  rw [← mem_iff_get? (increasing_present h), mem_present, mem_iff_get? h,
    (mem_iff_get? h).1 hmem, Option.some_inj]

end KeyedList

namespace Json

/-- An object of the values that are there, if there is one. -/
def objectOf? (entries : List (String × Option Json)) : Option Json :=
  if (KeyedList.present entries).isEmpty then none else some (.object (KeyedList.present entries))

section Objects

variable {entries : List (String × Option Json)}

/-- If no value is there, there is no object, and it has no fields either. -/
theorem fields_objectOf? : ((objectOf? entries).getD .null).fields = KeyedList.present entries := by
  unfold objectOf?
  split
  · rename_i hempty
    exact (List.isEmpty_iff.1 hempty).symm
  · rfl

theorem objectOf?_cases : (objectOf? entries).getD .null = .null ∨
    (objectOf? entries).getD .null = .object (KeyedList.present entries) := by
  unfold objectOf?
  split
  · exact .inl rfl
  · exact .inr rfl

variable (h : KeyedList.Increasing entries)

include h

theorem field_present {name : String} {value : Option Json} (hmem : (name, value) ∈ entries) :
    (Json.object (KeyedList.present entries)).field name = value.getD .null := by
  rw [field_eq]
  exact congrArg (Option.getD · Json.null) (KeyedList.get?_present h hmem)

theorem field_objectOf? {name : String} {value : Option Json} (hmem : (name, value) ∈ entries) :
    ((objectOf? entries).getD .null).field name = value.getD .null := by
  rw [field_eq, fields_objectOf?, KeyedList.get?_present h hmem]

theorem isOrdered_present
    (hvalues : ∀ entry ∈ entries, (entry.2.getD .null).IsOrdered) :
    (Json.object (KeyedList.present entries)).IsOrdered :=
  .object (KeyedList.increasing_present h) fun _ _ hmem => hvalues _ (KeyedList.mem_present.1 hmem)

theorem isOrdered_objectOf?
    (hvalues : ∀ entry ∈ entries, (entry.2.getD .null).IsOrdered) :
    ((objectOf? entries).getD .null).IsOrdered := by
  rcases objectOf?_cases with heq | heq <;> rw [heq]
  · exact .null
  · exact isOrdered_present h hvalues

end Objects

theorem isOrdered_getD_string (text : Option String) :
    ((text.map string).getD .null).IsOrdered := by
  cases text with
  | none => exact .null
  | some s => exact .string s

@[simp] theorem string?_getD_string (text : Option String) :
    ((text.map string).getD .null).string? = text := by
  cases text <;> rfl

end Json

namespace Options

/-! ## Choices -/

/-- What can be chosen. -/
inductive Setting where
  | style
  | separator (kind : SeparatorKind)
  | shortcut (kind : RuleKind)
  | defaultNamespace
  deriving DecidableEq, Repr

/-- A value for one setting. -/
inductive Choice where
  | style (value : Style)
  | separator (kind : SeparatorKind) (value : String)
  | shortcut (kind : RuleKind) (keyword : String)
  | defaultNamespace (name : String)
  deriving DecidableEq, Repr

namespace Choice

/-- The setting of a choice. -/
def setting : Choice → Setting
  | style _ => .style
  | separator kind _ => .separator kind
  | shortcut kind _ => .shortcut kind
  | defaultNamespace _ => .defaultNamespace

/-- The value of a choice as a text. -/
def text : Choice → String
  | style value => value.name
  | separator _ value => value
  | shortcut _ keyword => keyword
  | defaultNamespace name => name

end Choice

/-- Makes a choice. -/
def choose (o : Options) : Choice → Options
  | .style value => o.withStyle value
  | .separator kind value => o.withSeparator kind value
  | .shortcut kind keyword => o.withShortcut kind keyword
  | .defaultNamespace name => o.withDefaultNamespace name

/-- The options after some choices, made one after the other. -/
def build (choices : List Choice) : Options :=
  choices.foldl choose {}

/-- The text of the last choice for a setting. -/
def lastFor (choices : List Choice) (setting : Setting) : Option String :=
  ((choices.filter (·.setting = setting)).getLast?).map Choice.text

/-- The last choice for the setting of each kind. -/
def chosenFor {κ : Type} (kinds : List κ) (key : κ → String) (setting : κ → Setting)
    (choices : List Choice) : List (String × Option Json) :=
  kinds.map fun kind => (key kind, (lastFor choices (setting kind)).map .string)

/-- The last choice for each separator, in the order of their names. -/
def chosenSeparators : List Choice → List (String × Option Json) :=
  chosenFor [.descendent, .modifier, .ns, .state] SeparatorKind.key .separator

/-- The last choice for each shortcut, in the order of their names. -/
def chosenShortcuts : List Choice → List (String × Option Json) :=
  chosenFor [.component, .componentNamespace, .descendent, .modifier, .utility, .when]
    RuleKind.keyword .shortcut

/-- The last choices for all settings, in the order of their names. -/
def chosenSettings (choices : List Choice) : List (String × Option Json) :=
  [("defaultNamespace", (lastFor choices .defaultNamespace).map .string),
    ("separators", Json.objectOf? (chosenSeparators choices)),
    ("shortcuts", Json.objectOf? (chosenShortcuts choices)),
    ("style", (lastFor choices .style).map .string)]

/-- The fields of the object that holds the last choice for each setting, where there is one. -/
def chosen (choices : List Choice) : List (String × Json) :=
  KeyedList.present (chosenSettings choices)

section Choices

variable (choices : List Choice)

theorem build_concat (choice : Choice) :
    build (choices ++ [choice]) = choose (build choices) choice :=
  List.foldl_append

theorem lastFor_concat (choice : Choice) (setting : Setting) :
    lastFor (choices ++ [choice]) setting =
      if choice.setting = setting then some choice.text else lastFor choices setting := by
  unfold lastFor
  rw [List.filter_append]
  split
  · rename_i heq
    simp [heq]
  · rename_i hne
    simp [hne]

/-- The style is chosen by its name. -/
theorem exists_style_of_lastFor {name : String} (h : lastFor choices .style = some name) :
    ∃ style : Style, name = style.name := by
  obtain ⟨choice, hlast, rfl⟩ := Option.map_eq_some_iff.1 h
  have hsetting : choice.setting = .style := by
    simpa using (List.mem_filter.1 (List.mem_of_getLast? hlast)).2
  cases choice with
  | style value => exact ⟨value, rfl⟩
  | _ => cases hsetting

/-- What the choices build is told by the last choice for each setting. -/
theorem build_eq : build choices =
    { style := if lastFor choices .style = some Style.bem.name then .bem else .suit
      overrides := .ofFn fun kind => lastFor choices (.separator kind)
      shortcuts := .ofFn fun kind => (lastFor choices (.shortcut kind)).filter (· ≠ "")
      defaultNamespace := (lastFor choices .defaultNamespace).filter (· ≠ "") } := by
  induction choices using List.reverseRecOn with
  | nil => rfl
  | append_singleton choices choice ih =>
    -- The choice that comes last changes its own setting and no other one.
    rw [build_concat, ih]
    simp only [lastFor_concat]
    cases choice with
    | style value =>
      cases value <;> simp [choose, withStyle, Choice.setting, Choice.text, Style.name]
    | separator kind value =>
      simp only [choose, withSeparator, Choice.setting, Choice.text, reduceCtorEq, if_false,
        Setting.separator.injEq]
      congr 1
      refine BySeparator.ext_get fun other => ?_
      simp only [BySeparator.get_set, BySeparator.get_ofFn, eq_comm]
    | shortcut kind keyword =>
      simp only [choose, withShortcut, Choice.setting, Choice.text, reduceCtorEq, if_false,
        Setting.shortcut.injEq]
      congr 1
      refine Shortcuts.ext_get fun other => ?_
      simp only [Shortcuts.set, Shortcuts.get_put, Shortcuts.get_ofFn, eq_comm]
      split <;> simp [Option.filter]
    | defaultNamespace name =>
      simp [choose, withDefaultNamespace, Choice.setting, Choice.text, Option.filter]

/-! ### The object of the last choices -/

section Kinds

variable {κ : Type} {kinds : List κ} {key : κ → String} {setting : κ → Setting}

theorem increasing_chosenFor (h : (kinds.map key).Pairwise (· < ·)) :
    KeyedList.Increasing (chosenFor kinds key setting choices) := by
  rw [KeyedList.increasing_iff, chosenFor, List.map_map]
  exact h

theorem field_chosenFor (h : (kinds.map key).Pairwise (· < ·)) {kind : κ} (hkind : kind ∈ kinds) :
    ((Json.objectOf? (chosenFor kinds key setting choices)).getD .null).field (key kind) =
      ((lastFor choices (setting kind)).map .string).getD .null :=
  Json.field_objectOf? (increasing_chosenFor choices h) (List.mem_map_of_mem hkind)

theorem isOrdered_chosenFor (h : (kinds.map key).Pairwise (· < ·)) :
    ((Json.objectOf? (chosenFor kinds key setting choices)).getD .null).IsOrdered := by
  refine Json.isOrdered_objectOf? (increasing_chosenFor choices h) fun entry hmem => ?_
  obtain ⟨kind, -, rfl⟩ := List.mem_map.1 hmem
  exact Json.isOrdered_getD_string _

end Kinds

theorem increasing_chosenSettings : KeyedList.Increasing (chosenSettings choices) := by
  have hkeys : ["defaultNamespace", "separators", "shortcuts", "style"].Pairwise (· < ·) := by
    decide
  exact KeyedList.increasing_iff.2 hkeys

theorem field_chosen {name : String} {value : Option Json}
    (hmem : (name, value) ∈ chosenSettings choices) :
    (Json.object (chosen choices)).field name = value.getD .null :=
  Json.field_present (increasing_chosenSettings choices) hmem

theorem style_chosen : (Json.object (chosen choices)).field "style" =
    ((lastFor choices .style).map .string).getD .null :=
  field_chosen choices (by simp [chosenSettings])

theorem defaultNamespace_chosen : (Json.object (chosen choices)).field "defaultNamespace" =
    ((lastFor choices .defaultNamespace).map .string).getD .null :=
  field_chosen choices (by simp [chosenSettings])

theorem separators_chosen : (Json.object (chosen choices)).field "separators" =
    (Json.objectOf? (chosenSeparators choices)).getD .null :=
  field_chosen choices (by simp [chosenSettings])

theorem shortcuts_chosen : (Json.object (chosen choices)).field "shortcuts" =
    (Json.objectOf? (chosenShortcuts choices)).getD .null :=
  field_chosen choices (by simp [chosenSettings])

theorem given_chosen : given (.object (chosen choices)) = build choices := by
  have hseparator : ∀ kind : SeparatorKind,
      ((Json.objectOf? (chosenSeparators choices)).getD .null).field kind.key =
        ((lastFor choices (.separator kind)).map .string).getD .null := fun kind =>
    field_chosenFor choices (by decide) (by cases kind <;> decide)
  have hshortcut : ∀ kind : RuleKind,
      ((Json.objectOf? (chosenShortcuts choices)).getD .null).field kind.keyword =
        ((lastFor choices (.shortcut kind)).map .string).getD .null := fun kind =>
    field_chosenFor choices (by decide) (by cases kind <;> decide)
  rw [build_eq, given]
  simp only [style_chosen, separators_chosen, shortcuts_chosen, defaultNamespace_chosen, hseparator,
    hshortcut, Json.string?_getD_string]

theorem isOrdered_chosen : (Json.object (chosen choices)).IsOrdered := by
  refine Json.isOrdered_present (increasing_chosenSettings choices) ?_
  have hseparators : ((Json.objectOf? (chosenSeparators choices)).getD .null).IsOrdered :=
    isOrdered_chosenFor choices (by decide)
  have hshortcuts : ((Json.objectOf? (chosenShortcuts choices)).getD .null).IsOrdered :=
    isOrdered_chosenFor choices (by decide)
  simp only [chosenSettings, List.forall_mem_cons, Json.isOrdered_getD_string, hseparators,
    hshortcuts, true_and]
  exact fun _ hmem => absurd hmem List.not_mem_nil

theorem not_isMistyped_chosen : ¬ IsMistyped (.object (chosen choices)) := by
  have hobject : ∀ entries, ¬ NoObject ((Json.objectOf? entries).getD .null) := by
    rintro entries ⟨hnull, hnone⟩
    exact Json.objectOf?_cases.elim hnull (hnone _)
  rintro (hbad | hbad | hbad)
  · rw [defaultNamespace_chosen] at hbad
    cases hlast : lastFor choices .defaultNamespace with
    | none => exact hbad.1 (by rw [hlast]; rfl)
    | some name => exact hbad.2 name (by rw [hlast]; rfl)
  · rw [separators_chosen] at hbad
    exact hobject _ hbad
  · rw [shortcuts_chosen] at hbad
    exact hobject _ hbad

theorem not_noStyle_chosen : ¬ NoStyle ((Json.object (chosen choices)).field "style") := by
  rw [style_chosen]
  rintro ⟨hnull, hnone⟩
  cases hlast : lastFor choices .style with
  | none => exact hnull (by rw [hlast]; rfl)
  | some name =>
    obtain ⟨style, rfl⟩ := exists_style_of_lastFor choices hlast
    exact hnone style.name (by cases style <;> decide) (by rw [hlast]; rfl)

theorem not_isBadSeparator_chosen (name : String) :
    ¬ IsBadSeparator (.object (chosen choices)) name := by
  rintro ⟨found, hmem, hnone⟩
  rw [separators_chosen, Json.fields_objectOf?, KeyedList.mem_present] at hmem
  obtain ⟨kind, -, heq⟩ := List.mem_map.1 hmem
  obtain ⟨s, -, hs⟩ := Option.map_eq_some_iff.1 (Prod.mk.inj heq).2
  exact hnone s hs.symm

/-- The object of the last choices gives what the choices build. -/
theorem ofJson_chosen : ofJson (.object (chosen choices)) = .ok (build choices) := by
  rw [← given_chosen]
  exact ofJson_eq_given (isOrdered_chosen choices) (not_isMistyped_chosen choices)
    (not_noStyle_chosen choices) (not_isBadSeparator_chosen choices)

end Choices

end Options

/-! ## Fields in the place of others -/

namespace Json

variable {fields : List (String × Json)}

theorem field_insert (name : String) (value : Json) (other : String) :
    (Json.object (KeyedList.insert name value fields)).field other =
      if other = name then value else (Json.object fields).field other := by
  rw [field_eq, field_eq]
  split
  · rename_i heq
    subst heq
    exact congrArg (Option.getD · Json.null) (KeyedList.get?_insert_self other value fields)
  · rename_i hne
    exact congrArg (Option.getD · Json.null) (KeyedList.get?_insert_of_ne hne value fields)

theorem IsOrdered.insert (h : (Json.object fields).IsOrdered) (name : String) {value : Json}
    (hvalue : value.IsOrdered) : (Json.object (KeyedList.insert name value fields)).IsOrdered := by
  cases h with
  | object hinc hfields =>
    have hareOrdered := Reader.AreOrdered.insert ⟨hinc, hfields⟩ name hvalue
    exact .object hareOrdered.1 hareOrdered.2

end Json

/-- The fields of an object, with those of the command line in their place. -/
def Arguments.override (a : Arguments) (fields : List (String × Json)) : List (String × Json) :=
  let fields := match a.style with
    | some style => KeyedList.insert "style" (.string style.name) fields
    | none => fields
  match a.defaultNamespace with
  | some ns => KeyedList.insert "defaultNamespace" (.string ns) fields
  | none => fields

namespace Options

section Replaced

variable {fields : List (String × Json)} {o : Options} (h : (Json.object fields).IsOrdered)
  (hok : ofJson (.object fields) = .ok o)

include h hok

theorem ofJson_insert_style (style : Style) :
    ofJson (.object (KeyedList.insert "style" (.string style.name) fields)) =
      .ok (o.withStyle style) := by
  obtain ⟨⟨hright, -, hseparators⟩, rfl⟩ := (ofJson_eq_ok_iff h).1 hok
  refine (ofJson_eq_ok_iff (h.insert "style" (.string _))).2 ⟨⟨?_, ?_, ?_⟩, ?_⟩
  · simpa [IsMistyped, Json.field_insert] using hright
  · rw [Json.field_insert, if_pos rfl]
    rintro ⟨-, hnone⟩
    exact hnone style.name (by cases style <;> decide) rfl
  · simpa [IsBadSeparator, Json.field_insert] using hseparators
  · cases style <;> simp [given, withStyle, Json.field_insert, Style.name]

theorem ofJson_insert_defaultNamespace (ns : String) :
    ofJson (.object (KeyedList.insert "defaultNamespace" (.string ns) fields)) =
      .ok (o.withDefaultNamespace ns) := by
  obtain ⟨⟨hright, hstyle, hseparators⟩, rfl⟩ := (ofJson_eq_ok_iff h).1 hok
  refine (ofJson_eq_ok_iff (h.insert "defaultNamespace" (.string _))).2 ⟨⟨?_, ?_, ?_⟩, ?_⟩
  · simp only [IsMistyped, Json.field_insert, not_or] at hright ⊢
    exact ⟨fun hbad => hbad.2 ns rfl, hright.2⟩
  · simpa [Json.field_insert] using hstyle
  · simpa [IsBadSeparator, Json.field_insert] using hseparators
  · simp [given, withDefaultNamespace, Json.field_insert, Option.filter]

/-- What the command line does to options is what its fields do to the object. -/
theorem ofJson_override (a : Arguments) :
    ofJson (.object (a.override fields)) = .ok (a.applyTo o) := by
  unfold Arguments.override Arguments.applyTo
  cases a.style with
  | none =>
    cases a.defaultNamespace with
    | none => exact hok
    | some ns => exact ofJson_insert_defaultNamespace h hok ns
  | some style =>
    have hstyle := ofJson_insert_style h hok style
    cases a.defaultNamespace with
    | none => exact hstyle
    | some ns => exact ofJson_insert_defaultNamespace (h.insert "style" (.string _)) hstyle ns

end Replaced

end Options

/-! ## The config file -/

namespace CommandLine

variable {m : Type → Type} [Monad m] [LawfulMonad m]

/-- With a config file, the options depend on nothing but what reading it gives. -/
theorem run_loadOptions (host : Host m) {a : Arguments} {path : String}
    (hconfig : a.config = some path) : (loadOptions host a).run =
      (fun
        | .error fault => .error (.readingConfig path fault)
        | .ok text => (optionsOfText path text).map a.applyTo) <$> host.readFile path := by
  unfold loadOptions
  rw [hconfig, map_eq_pure_bind]
  refine (ExceptT.run_bind_lift (host.readFile path) _).trans (bind_congr fun answer => ?_)
  cases answer with
  | error fault => rfl
  | ok text =>
    dsimp only
    cases optionsOfText path text with
    | error trouble => rfl
    | ok o => rfl

end CommandLine

/-- All ways to options agree. Choices made one after the other come to what is read from the object
that holds the last choice for each setting. A config file whose object is accepted comes with the
command line to what is read from the object with the fields of the command line in their place; its
separators and shortcuts are kept. -/
theorem Options.routes_agree {m : Type → Type} [Monad m] [LawfulMonad m] (host : Host m) :
    (∀ choices, ofJson (.object (chosen choices)) = .ok (build choices)) ∧
    ∀ (a : Arguments) (path : String), a.config = some path →
      ∃ answer : Except FileFault String → Except CommandLine.Trouble Options,
        (CommandLine.loadOptions host a).run = answer <$> host.readFile path ∧
        ∀ text fields o, Json.read text = .ok (.object fields) → ofJson (.object fields) = .ok o →
          ∃ o', ofJson (.object (a.override fields)) = .ok o' ∧ answer (.ok text) = .ok o' ∧
            o'.overrides = o.overrides ∧ o'.shortcuts = o.shortcuts := by
  refine ⟨ofJson_chosen, fun a path hconfig => ⟨_, CommandLine.run_loadOptions host hconfig, ?_⟩⟩
  intro text fields o hread hok
  refine ⟨a.applyTo o, ofJson_override (Json.isOrdered_read hread) hok a, ?_, ?_, ?_⟩
  · simp only [CommandLine.optionsOfText, hread, hok]
    rfl
  · unfold Arguments.applyTo
    cases a.style <;> cases a.defaultNamespace <;> rfl
  · unfold Arguments.applyTo
    cases a.style <;> cases a.defaultNamespace <;> rfl

/-- A style on the command line takes the place of the one in a config file, whose namespace is
kept. -/
theorem Options.routes_agree_style :
    ofJson (.object (chosen [.style .bem, .defaultNamespace "cfg", .style .suit])) =
      .ok (build [.style .bem, .defaultNamespace "cfg", .style .suit]) ∧
    ∃ o, ofJson (.object [("defaultNamespace", .string "cfg"), ("style", .string "suit")]) = .ok o ∧
      (CommandLine.loadOptions (m := Id)
        ⟨fun _ => .ok "\x7b\"style\":\"bem\",\"defaultNamespace\":\"cfg\"\x7d",
          fun _ _ => .ok (), .ok ""⟩
        { style := some .suit, config := some "options.json" }).run = .ok o := by
  obtain ⟨hchoices, hload⟩ := routes_agree (m := Id)
    ⟨fun _ => .ok "\x7b\"style\":\"bem\",\"defaultNamespace\":\"cfg\"\x7d",
      fun _ _ => .ok (), .ok ""⟩
  obtain ⟨answer, hrun, hanswer⟩ :=
    hload { style := some .suit, config := some "options.json" } "options.json" rfl
  have hread : Json.read "\x7b\"style\":\"bem\",\"defaultNamespace\":\"cfg\"\x7d" =
      .ok (.object [("defaultNamespace", .string "cfg"), ("style", .string "bem")]) := by cbv
  obtain ⟨o, hobject, htext, -, -⟩ := hanswer _ _ _ hread rfl
  exact ⟨hchoices _, o, hobject, hrun.trans htext⟩

end ClassRules
