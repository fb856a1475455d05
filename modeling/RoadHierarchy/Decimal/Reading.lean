/-! # Reading decimals

A decimal numeral names a rational, and is read as the double nearest to it.
-/

namespace RoadHierarchy.Decimal

/-- The natural number with these decimal digits. -/
def natOfDigits (digits : List Char) : Nat :=
  digits.foldl (fun value digit => value * 10 + (digit.toNat - '0'.toNat)) 0

/-- The double nearest to `digits * 10 ^ exponent`. Values beyond every double, and values too small
for any, are told by the position of their first digit. -/
def nearestDouble (digits : List Char) (exponent : Int) : Float :=
  let significant := digits.dropWhile (· == '0')
  let magnitude := (significant.length : Int) + exponent
  if significant.isEmpty || magnitude < -400 then 0
  else if 400 < magnitude then 1 / 0
  else Float.ofScientific (natOfDigits significant) (exponent < 0) exponent.natAbs

/-- A run of digits and what follows it. -/
def spanDigits (text : List Char) : List Char × List Char :=
  text.span Char.isDigit

/-- The sign that a text starts with, if any: whether it is a minus, and what follows. -/
def splitSign : List Char → Bool × List Char
  | '-' :: rest => (true, rest)
  | '+' :: rest => (false, rest)
  | text => (false, text)

/-- A whole number with an optional sign, as an exponent is. -/
def readExponent? (text : List Char) : Option Int :=
  let (negative, digits) := splitSign text
  if digits.isEmpty || !digits.all Char.isDigit then none
  else
    let value : Int := natOfDigits digits
    some (if negative then -value else value)

/-- Reads digits with an optional point and an optional exponent. A point may stand first or last,
but some digit must be there. -/
def readUnsigned? (text : List Char) : Option Float :=
  let (whole, afterWhole) := spanDigits text
  let (fraction, tail) := match afterWhole with
    | '.' :: rest => spanDigits rest
    | rest => ([], rest)
  let exponent := match tail with
    | [] => some 0
    | 'e' :: rest => readExponent? rest
    | 'E' :: rest => readExponent? rest
    | _ => none
  if whole.isEmpty && fraction.isEmpty then none
  else exponent.map fun e => nearestDouble (whole ++ fraction) (e - fraction.length)

/-- Reads a numeral with an optional sign. -/
def readSigned? (text : List Char) : Option Float :=
  let (negative, magnitude) := splitSign text
  (readUnsigned? magnitude).map fun x => if negative then -x else x

/-- Reads a numeral, or a name of infinity or of no number, in either case of letters. -/
def readAny? (text : List Char) : Option Float :=
  let (negative, magnitude) := splitSign text
  let value := match String.ofList (magnitude.map Char.toLower) with
    | "inf" => some (1 / 0)
    | "infinity" => some (1 / 0)
    | "nan" => some (0 / 0)
    | _ => readUnsigned? magnitude
  value.map fun x => if negative then -x else x

end RoadHierarchy.Decimal
