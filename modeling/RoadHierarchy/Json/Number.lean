import RoadHierarchy.Decimal.Reading
import RoadHierarchy.Decimal.Shortest

/-! # JSON numbers

A number keeps its digits as they are written; what it means depends on who reads it. Doubles are
written with the fewest digits that read back, always with a point or an exponent.
-/

namespace RoadHierarchy.Json

/-- A numeral: sign, digits before and after the point, and the sign and digits of an exponent. -/
structure Number where
  negative : Bool
  whole : List Char
  /-- Empty when there is no point. -/
  fraction : List Char
  exponent : Option (Bool × List Char)

namespace Number

/-- The numeral of a natural number. -/
def ofNat (n : Nat) : Number := ⟨false, Nat.toDigits 10 n, [], none⟩

/-- The numeral of an integer. -/
def ofInt (i : Int) : Number := ⟨i < 0, Nat.toDigits 10 i.natAbs, [], none⟩

/-- An exponent is always written with its sign. -/
def toChars (n : Number) : List Char :=
  let sign := if n.negative then ['-'] else []
  let fraction := if n.fraction.isEmpty then [] else '.' :: n.fraction
  let exponent := match n.exponent with
    | none => []
    | some (negative, digits) => 'e' :: (if negative then '-' else '+') :: digits
  sign ++ n.whole ++ fraction ++ exponent

/-- The numeral of a finite double. It is positional from `1e-5` up to below `1e16`. -/
def ofFloat (x : Float) : Number :=
  let digits := Decimal.Digits.ofBits x.toBits.toNat
  let exponent := digits.scientificExponent
  let negative := Decimal.isNegative x
  if -5 ≤ exponent && exponent < 16 then
    let (whole, fraction) := digits.positional
    ⟨negative, whole, if fraction.isEmpty then ['0'] else fraction, none⟩
  else
    ⟨negative, digits.digits.take 1, digits.digits.drop 1,
      some (exponent < 0, Nat.toDigits 10 exponent.natAbs)⟩

/-- The integer a numeral states. A numeral with a point or an exponent states none, and neither
does negative zero. -/
def toInt? (n : Number) : Option Int :=
  let magnitude : Int := Decimal.natOfDigits n.whole
  if !n.fraction.isEmpty || n.exponent.isSome then none
  else if n.negative then if magnitude = 0 then none else some (-magnitude)
  else some magnitude

/-- The natural number a numeral states, if it has the given width. -/
def toNat? (n : Number) (width : Nat) : Option Nat :=
  n.toInt?.bind fun i => if 0 ≤ i ∧ i.toNat < 1 <<< width then some i.toNat else none

/-- The integer a numeral states, if it is a signed number of 64 bits. -/
def toWord? (n : Number) : Option Int :=
  n.toInt?.bind fun i => if -0x8000000000000000 ≤ i ∧ i < 0x8000000000000000 then some i else none

/-- Takes in digits while the value has 64 bits; gives the value and the digits left over. -/
def takeDigits (value : Nat) : List Char → Nat × List Char
  | [] => (value, [])
  | digit :: rest =>
      let next := value * 10 + (digit.toNat - '0'.toNat)
      if next < 0x10000000000000000 then takeDigits next rest else (value, digit :: rest)

/-- A power of ten that is a finite double. -/
def tenTo (exponent : Nat) : Float := Float.ofScientific 1 false exponent

/-- Scales by a power of ten, with one rounding for each factor; `none` beyond every double. -/
def scale? (x : Float) (exponent : Int) : Option Float :=
  if exponent < -308 then
    if x == 0 then some x else scale? (x / tenTo 308) (exponent + 308)
  else if exponent < 0 then some (x / tenTo exponent.natAbs)
  else if exponent ≤ 308 then
    let scaled := x * tenTo exponent.toNat
    if scaled.isInf then none else some scaled
  else if x == 0 then some x
  else none
  termination_by exponent.natAbs
  decreasing_by omega

/-- The magnitude of a numeral as a double: the leading digits that fit into 64 bits are rounded,
and then scaled. So a long numeral need not give the nearest double. -/
def magnitude? (n : Number) : Option Float :=
  let (leading, dropped) := takeDigits 0 n.whole
  let (value, ignored) := takeDigits leading n.fraction
  let point : Int := (dropped.length : Int) - (n.fraction.length - ignored.length)
  match n.exponent with
  | none => scale? value.toFloat point
  | some (negative, digits) =>
      let exponent : Int := Decimal.natOfDigits digits
      if 0x80000000 ≤ exponent then if value = 0 || negative then some 0 else none
      else scale? value.toFloat (if negative then point - exponent else point + exponent)

/-- The double a numeral is read as. -/
def toFloat? (n : Number) : Option Float :=
  n.magnitude?.map fun x => if n.negative then -x else x

end Number

end RoadHierarchy.Json
