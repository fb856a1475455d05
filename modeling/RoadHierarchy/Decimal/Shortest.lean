/-! # Shortest decimal digits of a double

A positive finite double is a whole number of units times a power of two, and every real close
enough to it rounds to it. Among the decimals in that interval the shortest is chosen, and of two
equally short ones the nearer. All arithmetic is exact on natural numbers.
-/

namespace RoadHierarchy.Decimal

/-- A positive double `mantissa * 2 ^ exponent`. -/
structure Binary where
  mantissa : Nat
  exponent : Int
  /-- The gap below the value is half the gap above it. -/
  halfGapBelow : Bool

/-- Decodes the exponent and fraction fields; the sign bit is ignored. -/
def Binary.ofBits (bits : Nat) : Binary :=
  let fraction : Nat := bits % 0x10000000000000
  let field : Nat := bits / 0x10000000000000 % 0x800
  if field = 0 then ⟨fraction, -1074, false⟩
  else ⟨0x10000000000000 + fraction, (field : Int) - 1075, fraction == 0 && 1 < field⟩

/-- The reals that round to a double: all numerators are over `unit`. -/
structure Interval where
  lower : Nat
  value : Nat
  upper : Nat
  unit : Nat
  /-- The end points belong to the interval. -/
  closed : Bool

/-- The interval reaches half way to both neighbours; an even mantissa wins its ties. -/
def Binary.interval (b : Binary) : Interval :=
  let below := if b.halfGapBelow then 1 else 2
  let quarters := 4 * b.mantissa
  let shift := b.exponent - 2
  let scale := 1 <<< shift.toNat
  ⟨(quarters - below) * scale, quarters * scale, (quarters + 2) * scale, 1 <<< (-shift).toNat,
    b.mantissa % 2 == 0⟩

namespace Interval

/-- The same interval counted in steps of `10 ^ grid`. -/
def onGrid (i : Interval) (grid : Int) : Interval :=
  let up := Nat.pow 10 (-grid).toNat
  { i with
    lower := i.lower * up, value := i.value * up, upper := i.upper * up,
    unit := i.unit * Nat.pow 10 grid.toNat }

/-- Whether `steps` whole steps lie in the interval. -/
def holds (i : Interval) (steps : Nat) : Bool :=
  let point := steps * i.unit
  if i.closed then i.lower ≤ point && point ≤ i.upper else i.lower < point && point < i.upper

/-- The number of steps in the interval that is nearest to the value; a tie goes to the even one. -/
def nearest? (i : Interval) : Option Nat :=
  let below := i.value / i.unit
  let above := below + 1
  let gapBelow := i.value - below * i.unit
  let gapAbove := above * i.unit - i.value
  match i.holds below, i.holds above with
  | true, true =>
      if gapBelow < gapAbove then some below
      else if gapAbove < gapBelow then some above
      else some (if below % 2 = 0 then below else above)
  | true, false => some below
  | false, true => some above
  | false, false => none

/-- Tries one grid after the other, each ten times finer than the one before. -/
def refine (i : Interval) : Nat → Int → Nat × Int
  | 0, grid => let fine := i.onGrid grid; (fine.value / fine.unit, grid)
  | tries + 1, grid =>
      match (i.onGrid grid).nearest? with
      | some steps => (steps, grid)
      | none => i.refine tries (grid - 1)

/-- The exponent of the value's first decimal digit: below one, the fewest tenfold steps that lift
the value to one. -/
def leadingExponent (i : Interval) : Int :=
  if i.unit ≤ i.value then ((Nat.toDigits 10 (i.value / i.unit)).length : Int) - 1
  else -((Nat.toDigits 10 ((i.unit - 1) / i.value)).length : Int)

end Interval

/-- A decimal `digits * 10 ^ exponent`. -/
structure Digits where
  digits : List Char
  exponent : Int

/-- The shortest decimal that reads back as the double with these bits; seventeen digits always
suffice. Zero has the one digit `0`. -/
def Digits.ofBits (bits : Nat) : Digits :=
  let binary := Binary.ofBits bits
  if binary.mantissa = 0 then ⟨['0'], 0⟩
  else
    let interval := binary.interval
    let (steps, grid) := interval.refine 18 (interval.leadingExponent + 1)
    ⟨Nat.toDigits 10 steps, grid⟩

/-- The digits before and after the decimal point when no exponent is written. -/
def Digits.positional (d : Digits) : List Char × List Char :=
  let point := (d.digits.length : Int) + d.exponent
  if point ≤ 0 then (['0'], List.replicate (-point).toNat '0' ++ d.digits)
  else
    let whole := d.digits.take point.toNat
    (whole ++ List.replicate (point.toNat - whole.length) '0', d.digits.drop point.toNat)

/-- The exponent of the first digit. -/
def Digits.scientificExponent (d : Digits) : Int :=
  (d.digits.length : Int) + d.exponent - 1

/-- Whether the sign bit is set, also on a zero. -/
def isNegative (x : Float) : Bool :=
  x.toBits.toNat / 0x8000000000000000 % 2 == 1

/-- The text of a number in a message: shortest digits, never an exponent, no point when whole. -/
def plainText (x : Float) : String :=
  if x.isNaN then "NaN"
  else
    let sign := if isNegative x then "-" else ""
    if x.isInf then sign ++ "inf"
    else
      let (whole, fraction) := (Digits.ofBits x.toBits.toNat).positional
      let tail := if fraction.isEmpty then "" else "." ++ String.ofList fraction
      sign ++ String.ofList whole ++ tail

end RoadHierarchy.Decimal
