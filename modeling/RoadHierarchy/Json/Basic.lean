import RoadHierarchy.Json.Number

/-! # JSON values -/

namespace RoadHierarchy

/-- A JSON value. Text is `none` where an escape stands for no character: it can be skipped but not
read. -/
inductive Json where
  | null
  | bool (value : Bool)
  | number (value : Json.Number)
  | string (text : Option String)
  | array (items : List Json)
  | object (fields : List (Option String × Json))
  deriving Inhabited

namespace Json

/-- The value of a text. -/
def ofString (text : String) : Json := .string (some text)

/-- The value of a natural number. -/
def ofNat (n : Nat) : Json := .number (.ofNat n)

/-- The value of an integer. -/
def ofInt (i : Int) : Json := .number (.ofInt i)

/-- The value of a double; what is no finite number becomes `null`. -/
def ofFloat (x : Float) : Json := if x.isFinite then .number (.ofFloat x) else .null

/-- The value or `null`. -/
def ofOption {α : Type} (encode : α → Json) (value : Option α) : Json :=
  value.elim .null encode

/-- An array of encoded items. -/
def ofList {α : Type} (encode : α → Json) (items : List α) : Json :=
  .array (items.map encode)

/-- An object with these fields, in this order. -/
def ofFields (fields : List (String × Json)) : Json :=
  .object (fields.map fun (key, value) => (some key, value))

/-- The natural number of the given width, if the value is one. -/
def nat? (width : Nat) : Json → Option Nat
  | .number n => n.toNat? width
  | _ => none

/-- The signed number of 64 bits, if the value is one. -/
def word? : Json → Option Int
  | .number n => n.toWord?
  | _ => none

/-- The double, if the value is a number. -/
def float? : Json → Option Float
  | .number n => n.toFloat?
  | _ => none

/-- The truth value, if the value is one. -/
def bool? : Json → Option Bool
  | .bool value => some value
  | _ => none

/-- The text, if the value is one. -/
def string? : Json → Option String
  | .string text => text
  | _ => none

/-- The items, if the value is an array of what can be decoded. -/
def list? {α : Type} (decode : Json → Option α) : Json → Option (List α)
  | .array items => items.mapM decode
  | _ => none

/-- The first field of an object with this key. -/
def field? (key : String) : Json → Option Json
  | .object fields => fields.lookup (some key)
  | _ => none

end Json

end RoadHierarchy
