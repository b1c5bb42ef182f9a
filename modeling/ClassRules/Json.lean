import ClassRules.KeyedList

/-!
# JSON values

The values of JSON texts, with whole numbers told apart from those with a fraction or an exponent.

## What this module delivers

- `Json`: the values. An object keeps its fields in a list; when it was read from a text, their
  names increase.
- `Json.field`: the value of a field of an object.
-/

set_option autoImplicit false

namespace ClassRules

/-- A JSON value. -/
inductive Json where
  | null
  | boolean (b : Bool)
  | integer (n : Int)
  | float (x : Float)
  | string (s : String)
  | array (items : List Json)
  | object (fields : List (String × Json))
  deriving Inhabited

/-- The value of a field of an object. A missing field reads as `null`, and so does every field of
a value that is not an object. -/
def Json.field (value : Json) (name : String) : Json :=
  match value with
  | .object fields => (KeyedList.get? fields name).getD .null
  | _ => .null

end ClassRules
