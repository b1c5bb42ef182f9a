/-!
# Lists by key

Values by strings, kept as a list of pairs whose keys increase.

## What this module delivers

- `KeyedList.get?`: the value of a key.
- `KeyedList.insert`: gives a key a value in place of an earlier one.
- `get?_insert_self`, `get?_insert_of_ne`: what `insert` does to `get?`.
- `pairwise_insert`: the keys still increase.
-/

set_option autoImplicit false

namespace ClassRules.KeyedList

variable {α : Type}

/-- The value of a key. -/
def get? (entries : List (String × α)) (key : String) : Option α :=
  (entries.find? (·.1 == key)).map (·.2)

/-- Gives a key a value. An earlier value of the key is lost. -/
def insert (key : String) (value : α) : List (String × α) → List (String × α)
  | [] => [(key, value)]
  | (other, old) :: entries =>
    if key = other then (key, value) :: entries
    else if key < other then (key, value) :: (other, old) :: entries
    else (other, old) :: insert key value entries

/-- The keys increase. -/
def Increasing (entries : List (String × α)) : Prop :=
  entries.Pairwise fun a b => a.1 < b.1

theorem get?_insert_self (key : String) (value : α) (entries : List (String × α)) :
    get? (insert key value entries) key = some value := by
  induction entries with
  | nil => simp [insert, get?]
  | cons e entries ih =>
    obtain ⟨other, old⟩ := e
    unfold insert
    split
    · simp [get?]
    · split
      · simp [get?]
      · rename_i hne _
        have hother : (other == key) = false := beq_false_of_ne (Ne.symm hne)
        simpa [get?, hother] using ih

theorem get?_insert_of_ne {key other : String} (h : other ≠ key) (value : α)
    (entries : List (String × α)) : get? (insert key value entries) other = get? entries other := by
  have hkey : (key == other) = false := beq_false_of_ne (Ne.symm h)
  induction entries with
  | nil => simp [insert, get?, hkey]
  | cons e entries ih =>
    obtain ⟨name, old⟩ := e
    unfold insert
    split
    · rename_i he
      subst he
      simp [get?, hkey]
    · split
      · simp [get?, hkey]
      · cases hname : name == other
        · simpa [get?, hname] using ih
        · simp [get?, hname]

theorem mem_insert {key : String} {value : α} {entries : List (String × α)} {e : String × α}
    (h : e ∈ insert key value entries) : e = (key, value) ∨ e ∈ entries := by
  induction entries with
  | nil => simpa [insert] using h
  | cons first entries ih =>
    obtain ⟨other, old⟩ := first
    unfold insert at h
    split at h
    · rcases List.mem_cons.1 h with h | h
      · exact .inl h
      · exact .inr (List.mem_cons_of_mem _ h)
    · split at h
      · rcases List.mem_cons.1 h with h | h
        · exact .inl h
        · exact .inr h
      · rcases List.mem_cons.1 h with h | h
        · exact .inr (h ▸ List.mem_cons_self)
        · rcases ih h with h | h
          · exact .inl h
          · exact .inr (List.mem_cons_of_mem _ h)

/-- After an insertion the keys still increase. -/
theorem pairwise_insert (key : String) (value : α) {entries : List (String × α)}
    (h : Increasing entries) : Increasing (insert key value entries) := by
  induction entries with
  | nil => exact List.pairwise_singleton _ _
  | cons first entries ih =>
    obtain ⟨other, old⟩ := first
    obtain ⟨hfirst, hrest⟩ := List.pairwise_cons.1 h
    unfold insert
    split
    · rename_i he
      subst he
      exact List.pairwise_cons.2 ⟨hfirst, hrest⟩
    · split
      · rename_i hlt
        refine List.pairwise_cons.2 ⟨fun e he => ?_, h⟩
        rcases List.mem_cons.1 he with rfl | he
        · exact hlt
        · exact String.lt_trans hlt (hfirst e he)
      · rename_i hne hlt
        refine List.pairwise_cons.2 ⟨fun e he => ?_, ih hrest⟩
        rcases mem_insert he with rfl | he
        · exact Std.lt_of_le_of_ne (String.not_lt.1 hlt) (Ne.symm hne)
        · exact hfirst e he

end ClassRules.KeyedList
