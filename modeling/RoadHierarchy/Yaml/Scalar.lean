import RoadHierarchy.Decimal.Reading
import RoadHierarchy.Json.Lexer

/-! # Plain YAML scalars

What the text of an unquoted scalar means as a number. A leading zero before other digits makes a
scalar text, as do digit separators.
-/

namespace RoadHierarchy.Yaml

/-- The value of digits in a base of at most sixteen; there must be one. -/
def digitsInBase? (base : Nat) (digits : List Char) : Option Nat :=
  if digits.isEmpty then none
  else digits.foldlM (fun value digit => do
    let next ← Json.hexDigit? digit
    if next < base then some (value * base + next) else none) 0

/-- More than one digit, the first a zero. -/
def hasLeadingZero (digits : List Char) : Bool :=
  match digits with
  | '0' :: rest => !rest.isEmpty && rest.all Char.isDigit
  | _ => false

/-- A natural number: decimal, or with a mark for base 16, 8 or 2. A plus may stand before it. -/
def nat? (width : Nat) (text : List Char) : Option Nat := do
  let unsigned := match text with
    | '+' :: rest => rest
    | _ => text
  let value ← match unsigned with
    | '0' :: 'x' :: digits => digitsInBase? 16 digits
    | '0' :: 'o' :: digits => digitsInBase? 8 digits
    | '0' :: 'b' :: digits => digitsInBase? 2 digits
    | digits => if hasLeadingZero digits then none else digitsInBase? 10 digits
  if value < 1 <<< width then some value else none

/-- A double: a decimal within the range of doubles, or a name that starts with a point. -/
def float? (text : List Char) : Option Float :=
  let unsigned := match text with
    | '+' :: rest => rest
    | _ => text
  let doubled := match text, unsigned with
    | '+' :: _, '+' :: _ => true
    | '+' :: _, '-' :: _ => true
    | _, _ => false
  if doubled then none
  else if [".inf", ".Inf", ".INF"].contains (String.ofList unsigned) then some (1 / 0)
  else if ["-.inf", "-.Inf", "-.INF"].contains (String.ofList text) then some (-1 / 0)
  else if [".nan", ".NaN", ".NAN"].contains (String.ofList text) then some (0 / 0)
  else (Decimal.readSigned? unsigned).filter (·.isFinite)

end RoadHierarchy.Yaml
