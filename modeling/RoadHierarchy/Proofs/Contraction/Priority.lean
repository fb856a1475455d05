import Mathlib.Algebra.Order.Ring.Int
import RoadHierarchy.Contraction.Priority

/-! # Ranks follow priorities

A rank holds the place of a priority, an integer read off its bits. Floats are compared by sign,
then by exponent, then by mantissa; the places of numbers are in that order, infinities at both
ends, and both zeros share one place. NaN has the last place. So ranks are in the order of
priorities, with NaN last, and of ids where neither priority is lower.
-/

namespace RoadHierarchy

/-- A priority is lower than another one: it is less, or the other one alone is not a number. -/
def Undercuts (p q : Float) : Prop :=
  p < q ∨ p.isNaN = false ∧ q.isNaN = true

namespace Place

open Float.Model Float.Model.UnpackedFloat

/-- The mantissa and the exponent that a finite number is read with: the leading bit is set unless
the exponent is the lowest. -/
structure Canonical (m : Nat) (e : Int) : Prop where
  mantissa_lt : m < 2 ^ 53
  exponent_ge : -1074 ≤ e
  exponent_lt : e < 972
  leading : 2 ^ 52 ≤ m ∨ e = -1074

/-- How far from zero a finite number stands. -/
def distanceFromZero (m : Nat) (e : Int) : Int :=
  (e + 1074) * 2 ^ 52 + m

/-- The place of a number by its parts. -/
inductive StandsAt : UnpackedFloat → Int → Prop
  | infinity (s : Sign) : StandsAt (.infinity s) (s.apply (2047 * 2 ^ 52))
  | zero (s : Sign) : StandsAt (.zero s) 0
  | finite (s : Sign) {m : Nat} {e : Int} (positive : 0 < m) : Canonical m e →
      StandsAt (.finite s m e positive) (s.apply (distanceFromZero m e))

theorem StandsAt.of_eq {u : UnpackedFloat} {j k : Int} (stands : StandsAt u j) (same : j = k) :
    StandsAt u k :=
  same ▸ stands

variable {m n : Nat} {d e : Int}

theorem standsAt_finite {s : Sign} {positive : 0 < m} {k : Int} (parts : Canonical m e)
    (same : (e + 1074) * 2 ^ 52 + m = k) : StandsAt (.finite s m e positive) (s.apply k) :=
  (StandsAt.finite s positive parts).of_eq (congrArg s.apply same)

theorem Canonical.bounds (parts : Canonical m e) (positive : 0 < m) :
    0 < distanceFromZero m e ∧ distanceFromZero m e < 2047 * 2 ^ 52 := by
  obtain ⟨below, low, high, leading⟩ := parts
  unfold distanceFromZero
  omega

/-- By exponent and then by mantissa, numbers are in the order of their distance from zero. -/
theorem Canonical.compare_eq (first : Canonical m d) (second : Canonical n e) :
    (compare d e).then (compare m n) =
      compare (distanceFromZero m d) (distanceFromZero n e) := by
  obtain ⟨belowFirst, lowFirst, -, leadingFirst⟩ := first
  obtain ⟨belowSecond, lowSecond, -, leadingSecond⟩ := second
  unfold distanceFromZero
  rcases lt_trichotomy d e with less | rfl | more
  · rw [compare_lt_iff_lt.mpr less, Ordering.lt_then, eq_comm, compare_lt_iff_lt]
    omega
  · rw [compare_eq_iff_eq.mpr rfl, Ordering.eq_then]
    rcases lt_trichotomy m n with less | rfl | more
    · rw [compare_lt_iff_lt.mpr less, eq_comm, compare_lt_iff_lt]
      omega
    · rw [compare_eq_iff_eq.mpr rfl, compare_eq_iff_eq.mpr rfl]
    · rw [compare_gt_iff_gt.mpr more, eq_comm, compare_gt_iff_gt]
      omega
  · rw [compare_gt_iff_gt.mpr more, Ordering.gt_then, eq_comm, compare_gt_iff_gt]
    omega

section Comparison

variable {u w : UnpackedFloat} {j k : Int}

theorem some_lt (less : j < k) : some Ordering.lt = some (compare j k) :=
  congrArg some (compare_lt_iff_lt.mpr less).symm

theorem some_gt (greater : k < j) : some Ordering.gt = some (compare j k) :=
  congrArg some (compare_gt_iff_gt.mpr greater).symm

theorem compare_neg_neg (j k : Int) : compare (-j) (-k) = (compare j k).swap := by
  rcases lt_trichotomy j k with less | rfl | more
  · rw [compare_lt_iff_lt.mpr less, compare_gt_iff_gt.mpr (Int.neg_lt_neg less), Ordering.swap_lt]
  · rw [compare_eq_iff_eq.mpr rfl, compare_eq_iff_eq.mpr rfl, Ordering.swap_eq]
  · rw [compare_gt_iff_gt.mpr more, compare_lt_iff_lt.mpr (Int.neg_lt_neg more), Ordering.swap_gt]

/-- Numbers compare as their places do. -/
theorem StandsAt.compare_eq (first : StandsAt u j) (second : StandsAt w k) :
    u.compare w = some (compare j k) := by
  cases first with
  | infinity s =>
    cases second with
    | infinity t => cases s <;> cases t <;> rfl
    | zero => cases s <;> rfl
    | finite t positive parts =>
      obtain ⟨inside, finite⟩ := parts.bounds positive
      cases s with
      | negative => exact some_lt (by cases t <;> simp only [Sign.apply] <;> omega)
      | positive => exact some_gt (by cases t <;> simp only [Sign.apply] <;> omega)
  | zero =>
    cases second with
    | infinity t => cases t <;> rfl
    | zero => rfl
    | finite t positive parts =>
      obtain ⟨inside, -⟩ := parts.bounds positive
      cases t with
      | negative => exact some_gt (by simp only [Sign.apply]; omega)
      | positive => exact some_lt inside
  | finite s positive parts =>
    obtain ⟨inside, finite⟩ := parts.bounds positive
    cases second with
    | infinity t =>
      cases t with
      | negative => exact some_gt (by cases s <;> simp only [Sign.apply] <;> omega)
      | positive => exact some_lt (by cases s <;> simp only [Sign.apply] <;> omega)
    | zero =>
      cases s with
      | negative => exact some_lt (by simp only [Sign.apply]; omega)
      | positive => exact some_gt inside
    | finite t other others =>
      obtain ⟨apart, -⟩ := others.bounds other
      have magnitudes := parts.compare_eq others
      cases s with
      | negative =>
        cases t with
        | negative =>
          exact congrArg some ((congrArg Ordering.swap magnitudes).trans (compare_neg_neg ..).symm)
        | positive => exact some_lt (by simp only [Sign.apply]; omega)
      | positive =>
        cases t with
        | negative => exact some_gt (by simp only [Sign.apply]; omega)
        | positive => exact congrArg some magnitudes

end Comparison

/-- All numbers stand before NaN. -/
theorem StandsAt.lt {u : UnpackedFloat} {j : Int} (stands : StandsAt u j) : j < 2 ^ 63 := by
  cases stands with
  | infinity s => cases s <;> decide
  | zero => decide
  | finite s positive parts =>
    have bounds := parts.bounds positive
    cases s <;> simp only [Sign.apply] <;> omega

section Bits

variable (b : BitVec Format.binary64.numBits)

theorem toNat_unpackMantissa : (unpackMantissa b).toNat = b.toNat % 2 ^ 52 := by
  change (b.toNat >>> 0) % 2 ^ 52 = _
  rw [Nat.shiftRight_zero]

theorem toNat_unpackExponent : (unpackExponent b).toNat = b.toNat / 2 ^ 52 % 2 ^ 11 := by
  change (b.toNat >>> 52) % 2 ^ 11 = _
  rw [Nat.shiftRight_eq_div_pow]

theorem toNat_unpackSign : (unpackSign b).toNat = b.toNat / 2 ^ 63 % 2 := by
  change (b.toNat >>> 63) % 2 ^ 1 = _
  rw [Nat.shiftRight_eq_div_pow]

theorem toNat_append_one (m : BitVec 52) : (1#1 ++ m).toNat = 2 ^ 52 + m.toNat := by
  rw [BitVec.toNat_append, ← Nat.shiftLeft_add_eq_or_of_lt m.isLt]
  rfl

/-- The sign bit tells on which side of zero the others count. -/
theorem signed_eq :
    (if b.toNat < 2 ^ 63 then (b.toNat : Int) else 2 ^ 63 - (b.toNat : Int)) =
      (Sign.ofBitVec (unpackSign b)).apply
        ((unpackExponent b).toNat * 2 ^ 52 + (unpackMantissa b).toNat) := by
  have mantissa := toNat_unpackMantissa b
  have exponent := toNat_unpackExponent b
  have sign := toNat_unpackSign b
  have bound : b.toNat < 2 ^ 64 := b.isLt
  unfold Sign.ofBitVec
  split
  · next low =>
    have zero : unpackSign b = 0#1 := BitVec.eq_of_toNat_eq (by rw [sign, BitVec.toNat_zero]; omega)
    rw [if_pos zero, Sign.apply]
    omega
  · next high =>
    have one : unpackSign b ≠ 0#1 := by
      intro zero
      rw [zero, BitVec.toNat_zero] at sign
      omega
    rw [if_neg one, Sign.apply]
    omega

/-- A number stands where its bits put it. -/
theorem standsAt_unpack (number : (UnpackedFloat.unpack Format.binary64 b).isNaN = false) :
    StandsAt (UnpackedFloat.unpack Format.binary64 b)
      (if b.toNat < 2 ^ 63 then (b.toNat : Int) else 2 ^ 63 - (b.toNat : Int)) := by
  rw [signed_eq]
  have mantissa : (unpackMantissa b).toNat < 2 ^ 52 := (unpackMantissa b).isLt
  have exponent : (unpackExponent b).toNat < 2 ^ 11 := (unpackExponent b).isLt
  have bias : (Format.binary64.exponentBias : Int) = 1023 := rfl
  unfold UnpackedFloat.unpack at number ⊢
  dsimp only at number ⊢
  -- The exponent has all bits set in infinities and NaN, and none in zeros and the least numbers.
  by_cases top : unpackExponent b = -1#11
  · rw [if_pos top] at number ⊢
    by_cases empty : unpackMantissa b = 0#52
    · rw [if_pos empty]
      refine (StandsAt.infinity _).of_eq (congrArg (Sign.apply _) ?_)
      rw [top, empty]
      rfl
    · rw [if_neg empty] at number
      cases number
  · have below : (unpackExponent b).toNat ≠ 2047 := fun same => top (BitVec.eq_of_toNat_eq same)
    rw [if_neg top]
    by_cases low : unpackExponent b = 0#11
    · have least : (unpackExponent b).toNat = 0 := congrArg BitVec.toNat low
      rw [if_pos low]
      by_cases empty : unpackMantissa b = 0#52
      · have none : ((unpackExponent b).toNat : Int) * 2 ^ 52 + (unpackMantissa b).toNat = 0 := by
          rw [low, empty]
          rfl
        rw [dif_pos empty, none]
        refine (StandsAt.zero _).of_eq ?_
        cases Sign.ofBitVec (unpackSign b) <;> rfl
      · rw [dif_neg empty]
        exact standsAt_finite ⟨by omega, by omega, by omega, .inr (by omega)⟩ (by omega)
    · have more : (unpackExponent b).toNat ≠ 0 := fun same => low (BitVec.eq_of_toNat_eq same)
      have leading := toNat_append_one (unpackMantissa b)
      rw [if_neg low]
      exact standsAt_finite ⟨by omega, by omega, by omega, .inl (by omega)⟩ (by omega)

end Bits

end Place

open Place

theorem standsAt_place {x : Float} (number : x.isNaN = false) :
    StandsAt x.toModel.unpack (place x) := by
  have stands := standsAt_unpack x.toModel.toBits.toBitVec number
  rwa [place, if_neg (Bool.not_eq_true _ ▸ number)]

theorem place_lt_of_number {x : Float} (number : x.isNaN = false) : place x < 2 ^ 63 :=
  (standsAt_place number).lt

theorem place_of_isNaN {x : Float} (nan : x.isNaN = true) : place x = 2 ^ 63 := by
  rw [place, if_pos nan]
  rfl

theorem lt_iff_compare (a b : Float) :
    a < b ↔ a.toModel.unpack.compare b.toModel.unpack = some .lt := by
  change decide (a.toModel < b.toModel) = true ↔ _
  rw [decide_eq_true_iff]
  exact beq_iff_eq

theorem not_lt_of_isNaN {a b : Float} (nan : a.isNaN = true) : ¬a < b := by
  have unpacked : a.toModel.unpack.isNaN = true := nan
  rw [lt_iff_compare]
  cases parts : a.toModel.unpack <;> rw [parts] at unpacked <;> cases unpacked
  exact nofun

/-- Numbers are in the order of their places. -/
theorem place_lt_place_of_number {a b : Float} (first : a.isNaN = false)
    (second : b.isNaN = false) : place a < place b ↔ a < b := by
  rw [lt_iff_compare, (standsAt_place first).compare_eq (standsAt_place second), Option.some_inj,
    compare_lt_iff_lt]

/-- Places are in the order of floats with NaN as the last one. -/
theorem place_lt_place_iff (a b : Float) : place a < place b ↔ Undercuts a b := by
  unfold Undercuts
  cases first : a.isNaN with
  | false =>
    cases second : b.isNaN with
    | false =>
      rw [place_lt_place_of_number first second]
      simp
    | true =>
      rw [place_of_isNaN second]
      exact iff_of_true (place_lt_of_number first) (.inr ⟨rfl, rfl⟩)
  | true =>
    have last : place b ≤ 2 ^ 63 := by
      cases second : b.isNaN with
      | false => exact (place_lt_of_number second).le
      | true => exact (place_of_isNaN second).le
    rw [place_of_isNaN first]
    refine iff_of_false last.not_gt ?_
    rintro (less | ⟨⟨⟩, -⟩)
    exact not_lt_of_isNaN first less

namespace Graph

variable {g : Graph} {u w : Nat} {vertex other : Vertex}

/-- A vertex ranks before another one when its priority is lower, or neither is and its id is. -/
theorem before_rank_iff (known : g.vertex? u = some vertex) (there : g.vertex? w = some other) :
    (g.rank u).before (g.rank w) = true ↔ Undercuts vertex.priority other.priority ∨
      ¬Undercuts other.priority vertex.priority ∧ u < w := by
  simp only [rank, known, there, Option.map_some, Option.getD_some, Rank.before, Bool.or_eq_true,
    Bool.and_eq_true, decide_eq_true_eq, beq_iff_eq, ← place_lt_place_iff]
  omega

end Graph

end RoadHierarchy
