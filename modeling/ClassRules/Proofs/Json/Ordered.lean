import ClassRules.Json.Reader

/-!
# Objects in order

A reader of JSON texts keeps the fields of an object by name, and the later of two fields with one
name. In the values that it gives, the names of the fields of each object increase, so that a name
has no more than one value.

## What this module delivers

- `KeyedList.mem_iff_get?`: in a list whose keys increase, the entries are the values of the keys.
- `Json.fields`, `Json.string?`: the fields of an object, and the text of a string.
- `Json.IsOrdered`: in all objects of a value the names of the fields increase.
- `Json.isOrdered_read`: so they do in what is read from a text.
-/

set_option autoImplicit false

namespace ClassRules

/-! ## Lists whose keys increase -/

namespace KeyedList

variable {α : Type} {key name : String} {value : α} {entries : List (String × α)}

/-- Entries increase if their keys do. -/
theorem increasing_iff : Increasing entries ↔ (entries.map Prod.fst).Pairwise (· < ·) :=
  List.pairwise_map.symm

theorem get?_cons (name : String) (value : α) (entries : List (String × α)) (key : String) :
    get? ((name, value) :: entries) key = if name = key then some value else get? entries key := by
  by_cases h : name = key
  · simp [get?, h]
  · simp [get?, h, beq_false_of_ne h]

/-- The value of a key stands in an entry. -/
theorem mem_of_get? (h : get? entries key = some value) : (key, value) ∈ entries := by
  obtain ⟨⟨name, value⟩, hfind, rfl⟩ := Option.map_eq_some_iff.1 h
  have hname : name = key := by simpa using List.find?_some hfind
  exact hname ▸ List.mem_of_find?_eq_some hfind

/-- Behind an entry its key does not come again. -/
theorem get?_eq_none_of_increasing (h : Increasing ((key, value) :: entries)) :
    get? entries key = none := by
  rw [Option.eq_none_iff_forall_ne_some]
  intro other hother
  have hlt : key < key := (List.pairwise_cons.1 h).1 _ (mem_of_get? hother)
  exact String.lt_irrefl key hlt

/-- The entries are the values of the keys. -/
theorem mem_iff_get? (h : Increasing entries) :
    (key, value) ∈ entries ↔ get? entries key = some value := by
  refine ⟨fun hmem => ?_, mem_of_get?⟩
  induction entries with
  | nil => cases hmem
  | cons first entries ih =>
    obtain ⟨name, found⟩ := first
    rw [get?_cons]
    rcases List.mem_cons.1 hmem with heq | hmem
    · cases heq
      rw [if_pos rfl]
    · have hlt : name < key := (List.pairwise_cons.1 h).1 _ hmem
      have hne : name ≠ key := by
        rintro rfl
        exact String.lt_irrefl name hlt
      rw [if_neg hne]
      exact ih (List.pairwise_cons.1 h).2 hmem

/-- What is told of a key by its last entry is told of it by its value. -/
theorem getD_get?_of_increasing {β : Type} (h : Increasing ((name, value) :: entries))
    (key : String) (f : α → β) (b : β) :
    ((get? entries key).map f).getD (if name = key then f value else b) =
      ((get? ((name, value) :: entries) key).map f).getD b := by
  rw [get?_cons]
  split
  · rename_i heq
    rw [← heq, get?_eq_none_of_increasing h]
    rfl
  · rfl

end KeyedList

/-! ## Values -/

namespace Json

/-- The fields of an object. Other values have none. -/
def fields : Json → List (String × Json)
  | .object fields => fields
  | _ => []

/-- The text of a string. -/
def string? : Json → Option String
  | .string s => some s
  | _ => none

@[simp] theorem string?_string (s : String) : (string s).string? = some s := rfl

/-- A missing field reads as `null`. -/
theorem field_eq (value : Json) (name : String) :
    value.field name = (KeyedList.get? value.fields name).getD .null := by
  cases value <;> rfl

/-- What is not `null` is there. -/
theorem mem_fields_of_field_ne {value : Json} {name : String} (h : value.field name ≠ .null) :
    (name, value.field name) ∈ value.fields := by
  rw [field_eq] at h ⊢
  cases hget : KeyedList.get? value.fields name with
  | none =>
    rw [hget] at h
    exact absurd rfl h
  | some found => exact KeyedList.mem_of_get? hget

/-- In all objects of a value, the names of the fields increase. -/
inductive IsOrdered : Json → Prop where
  | null : IsOrdered .null
  | boolean (b : Bool) : IsOrdered (.boolean b)
  | integer (n : Int) : IsOrdered (.integer n)
  | float (x : Float) : IsOrdered (.float x)
  | string (s : String) : IsOrdered (.string s)
  | array {items : List Json} : (∀ item ∈ items, IsOrdered item) → IsOrdered (.array items)
  | object {fields : List (String × Json)} : KeyedList.Increasing fields →
      (∀ name value, (name, value) ∈ fields → IsOrdered value) → IsOrdered (.object fields)

namespace IsOrdered

variable {value : Json}

theorem increasing (h : value.IsOrdered) : KeyedList.Increasing value.fields := by
  cases h with
  | object hinc _ => exact hinc
  | _ => exact List.Pairwise.nil

/-- The fields of an object are what stands in it under their names. -/
theorem field_eq_of_mem (h : value.IsOrdered) {name : String} {found : Json}
    (hmem : (name, found) ∈ value.fields) : value.field name = found := by
  rw [field_eq, (KeyedList.mem_iff_get? h.increasing).1 hmem]
  rfl

/-- What stands in a field is ordered as well. -/
theorem field (h : value.IsOrdered) (name : String) : (value.field name).IsOrdered := by
  rw [field_eq]
  cases hget : KeyedList.get? value.fields name with
  | none => exact .null
  | some found =>
    cases h with
    | object _ hfields => exact hfields name found (KeyedList.mem_of_get? hget)
    | _ => cases hget

end IsOrdered

/-! ## Values that are read -/

/-- If something is read, it is of a kind. -/
def Yields {α : Type} (P : α → Prop) (r : Except Halt (Reading α)) : Prop :=
  ∀ x, r = .ok x → P x.1

namespace Yields

variable {α β : Type} {P : α → Prop} {Q : β → Prop} {cause : Fault.Cause} {cs : List Char}

theorem stopAt : Yields P (Reader.stopAt cause cs) := fun _ h => by cases h

theorem stopAfter : Yields P (Reader.stopAfter cause cs) := fun _ h => by cases h

/-- Nothing is read behind a stop. -/
theorem stopped {γ : Type} (halt : Halt) (f : γ → Except Halt (Reading α)) :
    Yields P (.error halt >>= f) := fun _ h => by cases h

theorem ok {a : α} (h : P a) : Yields P (.ok (a, cs)) := by
  rintro _ ⟨⟩
  exact h

/-- What is read from what was read is of a kind if the step goes from the one kind to the other. -/
theorem bind {r : Except Halt (Reading α)} {f : Reading α → Except Halt (Reading β)}
    (h : Yields P r) (hf : ∀ a cs, P a → Yields Q (f (a, cs))) : Yields Q (r >>= f) := by
  cases r with
  | error halt => exact fun _ h => by cases h
  | ok x => exact hf x.1 x.2 (h x rfl)

/-- Something that is there already does not have to be read. -/
theorem go {γ : Type} {c : γ} {f : γ → Except Halt (Reading α)} (h : Yields P (f c)) :
    Yields P (.ok c >>= f) := h

end Yields

namespace Reader

theorem yields_literal {P : Json → Prop} {value : Json} (h : P value) (expected cs : List Char) :
    Yields P (literal value expected cs) := by
  induction expected generalizing cs with
  | nil => exact .ok h
  | cons e expected ih =>
    cases cs with
    | nil => exact .stopAt
    | cons c cs =>
      rw [literal]
      split
      · exact ih cs
      · exact .stopAfter

/-! ### Numbers -/

theorem isOrdered_signed (negative : Bool) (x : Float) : (signed negative x).IsOrdered :=
  .float _

theorem isOrdered_whole (negative : Bool) (n : Nat) : (whole negative n).IsOrdered := by
  unfold whole
  split
  · exact .integer _
  · split
    · exact .integer _
    · exact .float _

variable (negative : Bool) (significand : Nat) (start : Int) (cs : List Char)

theorem yields_scaled : Yields IsOrdered (scaled negative significand start cs) := by
  unfold scaled
  split
  · exact .ok (isOrdered_signed _ _)
  · exact .stopAt

theorem yields_exponent : Yields IsOrdered (exponent negative significand start cs) := by
  unfold exponent
  -- The sign makes no difference.
  dsimp only
  split
  all_goals
    split
    · exact .stopAt
    · split
      · exact .stopAfter
      · split
        · exact yields_scaled _ _ _ _
        · split
          · exact .stopAt
          · exact .ok (isOrdered_signed _ _)

theorem yields_exponentOrEnd : Yields IsOrdered (exponentOrEnd negative significand start cs) := by
  unfold exponentOrEnd
  split
  · exact yields_exponent _ _ _ _
  · exact yields_exponent _ _ _ _
  · exact yields_scaled _ _ _ _

theorem yields_fraction : Yields IsOrdered (fraction negative significand start cs) := by
  unfold fraction
  dsimp only
  split
  · exact yields_exponentOrEnd _ _ _ _
  · split
    · split
      · exact .stopAt
      · exact .stopAfter
    · exact yields_exponentOrEnd _ _ _ _

theorem yields_afterWhole : Yields IsOrdered (afterWhole negative significand cs) := by
  unfold afterWhole
  split
  · exact yields_fraction _ _ _ _
  · exact yields_exponent _ _ _ _
  · exact yields_exponent _ _ _ _
  · exact .ok (isOrdered_whole _ _)

/-- A number is ordered, in whatever form it is written. -/
theorem yields_number : Yields IsOrdered (number negative cs) := by
  unfold number
  split
  · exact .stopAt
  · split
    · exact .stopAfter
    · exact yields_afterWhole _ _ _
  · split
    · exact .stopAfter
    · dsimp only
      split
      · split
        · exact yields_fraction _ _ _ _
        · exact yields_exponentOrEnd _ _ _ _
      · exact yields_afterWhole _ _ _

/-! ### Arrays and objects -/

/-- The fields of an ordered object. -/
def AreOrdered (fields : List (String × Json)) : Prop :=
  KeyedList.Increasing fields ∧ ∀ name value, (name, value) ∈ fields → value.IsOrdered

/-- Fields stay ordered when one is put in its place. -/
theorem AreOrdered.insert {fields : List (String × Json)} (h : AreOrdered fields) (name : String)
    {value : Json} (hvalue : value.IsOrdered) :
    AreOrdered (KeyedList.insert name value fields) := by
  refine ⟨KeyedList.pairwise_insert name value h.1, fun other found hmem => ?_⟩
  rcases KeyedList.mem_insert hmem with heq | hmem
  · cases heq
    exact hvalue
  · exact h.2 other found hmem

/-- A reader with so much fuel reads ordered values. -/
structure ReadsOrdered (fuel : Nat) : Prop where
  value : ∀ depth cs, Yields IsOrdered (value fuel depth cs)
  items : ∀ depth before cs, (∀ item ∈ before, item.IsOrdered) →
    Yields (fun items => ∀ item ∈ items, item.IsOrdered) (items fuel depth before cs)
  fields : ∀ depth before first cs, AreOrdered before →
    Yields AreOrdered (fields fuel depth before first cs)

/-- A value is ordered if what is read inside it is, by induction on the fuel. -/
theorem readsOrdered (fuel : Nat) : ReadsOrdered fuel := by
  induction fuel with
  | zero =>
    constructor
    case value => exact fun _ _ => .stopAt
    case items => exact fun _ _ _ _ => .stopAt
    case fields => exact fun _ _ _ _ _ => .stopAt
  | succ fuel ih =>
    constructor
    case value =>
      intro depth cs
      rw [Reader.value]
      split
      · exact .stopAt
      · exact yields_literal .null _ _
      · exact yields_literal (.boolean true) _ _
      · exact yields_literal (.boolean false) _ _
      · exact yields_number true _
      · exact Yields.bind (P := fun _ => True) (fun _ _ => trivial) fun s _ _ => .ok (.string s)
      · split
        · exact .stopAfter
        · exact (ih.items _ [] _ (fun _ hmem => absurd hmem List.not_mem_nil)).bind
            fun _ _ hitems => .ok (.array hitems)
      · split
        · exact .stopAfter
        · exact (ih.fields _ [] _ _ ⟨List.Pairwise.nil, fun _ _ hmem =>
            absurd hmem List.not_mem_nil⟩).bind fun _ _ hfields => .ok (.object hfields.1 hfields.2)
      · split
        · exact yields_number false _
        · exact .stopAfter
    case items =>
      intro depth before cs hbefore
      rw [Reader.items]
      split
      · exact .stopAt
      · exact .ok fun item hmem => hbefore item (List.mem_reverse.1 hmem)
      · dsimp only
        -- What comes before an item makes no difference.
        split
        case' isFalse => split
        case' isFalse.isTrue => split
        any_goals exact .stopped _ _
        all_goals
          refine .go ((ih.value depth _).bind fun _ _ hitem => ?_)
          exact ih.items _ _ _ (List.forall_mem_cons.2 ⟨hitem, hbefore⟩)
    case fields =>
      intro depth before first cs hbefore
      rw [Reader.fields]
      split
      · exact .stopAt
      · exact .ok hbefore
      · dsimp only
        split
        case' isFalse => split
        case' isFalse.isTrue => split
        any_goals exact .stopped _ _
        all_goals
          refine .go ?_
          split
          · refine Yields.bind (P := fun _ => True) (fun _ _ => trivial) fun name cs _ => ?_
            dsimp only
            split
            · exact .stopAt
            · exact (ih.value depth _).bind fun _ _ hitem =>
                ih.fields _ _ _ _ (hbefore.insert name hitem)
            · exact .stopAfter
          · exact .stopAfter

theorem isOrdered_of_whole? {value : Json} (h : whole? cs = .ok value) : value.IsOrdered := by
  unfold whole? at h
  cases hvalue : Reader.value (2 * cs.length + 2) 128 cs with
  | error halt =>
    rw [hvalue] at h
    cases h
  | ok x =>
    rw [hvalue] at h
    have hordered := (readsOrdered _).value _ _ x hvalue
    obtain ⟨result, rest⟩ := x
    dsimp only [bind, Except.bind] at h
    -- There are blanks behind the value, or more.
    split at h
    · cases h
      exact hordered
    · cases h

end Reader

/-- What is read from a text is ordered. -/
theorem isOrdered_read {text : String} {value : Json} (h : read text = .ok value) :
    value.IsOrdered := by
  unfold read at h
  dsimp only at h
  split at h
  · rename_i hwhole
    cases h
    exact Reader.isOrdered_of_whole? _ hwhole
  · cases h

end Json

end ClassRules
