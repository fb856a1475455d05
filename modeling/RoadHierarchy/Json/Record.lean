import RoadHierarchy.Json.Basic

/-! # Records in JSON

A record is written as an object with its fields in any order, or as an array with its fields in
the order of their declaration. An array may end early, but only fields with a default may be
missing from it; from an object a field that can be null may be missing too.
-/

namespace RoadHierarchy.Json

/-- The fields that a value gives for a record. -/
structure Record where
  fields : List (String × Json)
  /-- The fields were given by name. -/
  named : Bool

/-- What happens to a field that the record does not have. -/
inductive Unknown where
  | ignored
  | refused

/-- No key occurs twice. -/
def distinct (keys : List String) : Bool :=
  keys.eraseDups.length == keys.length

/-- The fields of an object, whose keys must all be readable and may not repeat a field of the
record. -/
def Record.ofObject? (names : List String) (unknown : Unknown)
    (fields : List (Option String × Json)) : Option Record := do
  let readable ← fields.mapM fun (key, value) => key.map (·, value)
  let known := readable.filter (names.contains ·.1)
  let complete := match unknown with
    | .ignored => true
    | .refused => known.length == readable.length
  if complete && distinct (known.map (·.1)) then some ⟨known, true⟩ else none

/-- The fields that a value gives for a record with these field names. -/
def record? (names : List String) (unknown : Unknown) : Json → Option Record
  | .object fields => Record.ofObject? names unknown fields
  | .array items => if items.length ≤ names.length then some ⟨names.zip items, false⟩ else none
  | _ => none

namespace Record

variable {α : Type}

/-- A field that must be there. -/
def required (r : Record) (name : String) (decode : Json → Option α) : Option α :=
  (r.fields.lookup name).bind decode

/-- A field that has a default. -/
def withDefault (r : Record) (name : String) (default : α) (decode : Json → Option α) : Option α :=
  (r.fields.lookup name).elim (some default) decode

/-- A field that can be null. -/
def nullable (r : Record) (name : String) (decode : Json → Option α) : Option (Option α) :=
  match r.fields.lookup name with
  | some .null => some none
  | some value => (decode value).map some
  | none => if r.named then some none else none

end Record

end RoadHierarchy.Json
