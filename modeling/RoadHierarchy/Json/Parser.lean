import RoadHierarchy.Json.Lexer

/-! # Parsing JSON -/

namespace RoadHierarchy.Json

mutual

/-- The value that the tokens start with, nested no deeper than there are steps. -/
def valueWithin? : Nat → List Token → Option (Json × List Token)
  | 0, _ => none
  | steps + 1, tokens =>
      match tokens with
      | .atom value :: rest => some (value, rest)
      | .openArray :: .closeArray :: rest => some (.array [], rest)
      | .openArray :: rest =>
          (itemsWithin? steps rest).map fun (items, tail) => (.array items, tail)
      | .openObject :: .closeObject :: rest => some (.object [], rest)
      | .openObject :: rest =>
          (fieldsWithin? steps rest).map fun (fields, tail) => (.object fields, tail)
      | _ => none

/-- The items of an array up to its end. -/
def itemsWithin? : Nat → List Token → Option (List Json × List Token)
  | 0, _ => none
  | steps + 1, tokens => do
      let (item, rest) ← valueWithin? steps tokens
      match rest with
      | .closeArray :: tail => return ([item], tail)
      | .comma :: more =>
          let (items, tail) ← itemsWithin? steps more
          return (item :: items, tail)
      | _ => none

/-- The fields of an object up to its end. -/
def fieldsWithin? : Nat → List Token → Option (List (Option String × Json) × List Token)
  | 0, _ => none
  | steps + 1, tokens =>
      match tokens with
      | .atom (.string key) :: .colon :: start => do
          let (value, rest) ← valueWithin? steps start
          match rest with
          | .closeObject :: tail => return ([(key, value)], tail)
          | .comma :: more =>
              let (fields, tail) ← fieldsWithin? steps more
              return ((key, value) :: fields, tail)
          | _ => none
      | _ => none

end

/-- The value of a text that holds one value and nothing else. Of any two steps one takes a
token. -/
def parse? (text : String) : Option Json := do
  let tokens ← tokens? text
  match ← valueWithin? (2 * tokens.length + 2) tokens with
  | (value, []) => return value
  | _ => none

end RoadHierarchy.Json
