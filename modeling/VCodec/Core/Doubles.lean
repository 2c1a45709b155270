import VCodec.Core.Lower
import VCodec.Library.Significant

/-!
# Doubles and integers

The conversions between doubles and 64-bit integers, and the products and quotients of a double with
a small integer. Each result is rounded once; a conversion of what does not fit is undefined, and
`none`.
-/

namespace VCodec

open Ieee

/-- The integer rounded once. -/
def nearestDouble (i : Int) : Double := .ofRatio doubleFormat (i < 0) i.natAbs 1

/-- The product with an integer that is a double itself. -/
def mulNat (x : Double) (k : Nat) : Double :=
  if x.mag < doubleFormat.infMag then .ofRatio doubleFormat x.neg (doubleFormat.units x.mag * k)
    (2 ^ doubleFormat.scale) else x

/-- The quotient by an integer that is a double itself. -/
def divNat (x : Double) (k : Nat) : Double :=
  if x.mag < doubleFormat.infMag then .ofRatio doubleFormat x.neg (doubleFormat.units x.mag)
    (2 ^ doubleFormat.scale * k) else x

def toInt64? (i : Int) : Option Int := if -2 ^ 63 ≤ i ∧ i < 2 ^ 63 then some i else none

/-- A natural with a sign. -/
def signed (neg : Bool) (n : Nat) : Int := if neg then -(n : Int) else n

/-- The conversion to `std::int64_t`, which truncates. -/
def truncInt64 (x : Double) : Option Int :=
  if x.mag < doubleFormat.infMag then toInt64?
    (signed x.neg (doubleFormat.units x.mag / 2 ^ doubleFormat.scale)) else none

/-! ### Ranges -/

theorem toInt64?_eq_some {i c : Int} :
    toInt64? i = some c ↔ (-2 ^ 63 ≤ i ∧ i < 2 ^ 63) ∧ i = c := by
  rw [toInt64?]
  split
  · rename_i h
    rw [Option.some.injEq, and_iff_right h]
  · rename_i h
    exact iff_of_false nofun fun hc => h hc.1

theorem signed_inj {neg : Bool} {m n : Nat} : signed neg m = signed neg n ↔ m = n := by
  rw [signed, signed]
  split
  · rw [Int.neg_inj, Int.natCast_inj]
  · exact Int.natCast_inj

theorem signed_natAbs (i : Int) : signed (decide (i < 0)) i.natAbs = i := by
  rw [signed]
  split
  · rename_i h
    have := of_decide_eq_true h
    omega
  · rename_i h
    have := of_decide_eq_false (Bool.not_eq_true _ ▸ h)
    omega

theorem signed_range {neg : Bool} {n : Nat} :
    -2 ^ 63 ≤ signed neg n ∧ signed neg n < 2 ^ 63 ↔ n < 2 ^ 63 ∨ (neg = true ∧ n = 2 ^ 63) := by
  rw [signed]
  cases neg with
  | true =>
    rw [if_pos rfl]
    simp only [true_and]
    omega
  | false =>
    rw [if_neg Bool.false_ne_true]
    simp only [Bool.false_eq_true, false_and, or_false]
    omega

theorem roundMag_nat_lt {n : Nat} (hn : n < 2 ^ 66) :
    doubleFormat.roundMag n 1 < doubleFormat.infMag :=
  Format.roundMag_lt (k := 66) Nat.one_pos (by rw [Nat.mul_one]; exact hn) (by decide)

/-- The rounded integer, as a natural. -/
theorem units_nat {n : Nat} (hn : n < 2 ^ 66) :
    doubleFormat.units (doubleFormat.roundMag n 1) =
      doubleFormat.roundUnits n 1 * 2 ^ doubleFormat.scale := by
  rw [Format.units_roundMag_eq Nat.one_pos (roundMag_nat_lt hn), Format.roundUnits_mul_two_pow]

/-- An integer of few bits is exact. -/
theorem units_nearestDouble {i : Int} (hi : i.natAbs < 2 ^ 53) :
    (nearestDouble i).mag < doubleFormat.infMag ∧
      doubleFormat.units (nearestDouble i).mag = i.natAbs * 2 ^ doubleFormat.scale := by
  rw [nearestDouble, Format.ofRatio_mag]
  refine ⟨roundMag_nat_lt (by omega), ?_⟩
  rw [units_nat (by omega), Format.roundUnits_of_lt (show i.natAbs < 2 ^ 52 + 2 ^ 52 by omega)]

/-! ### Truncated products -/

/-- The exact product, truncated. -/
def truncProduct (x : Double) (k : Nat) : Int :=
  signed x.neg (doubleFormat.units x.mag * k / 2 ^ doubleFormat.scale)

/-- The rounding of the product leaves the integer below it in its place. -/
def ProductKept (x : Double) (k : Nat) : Prop :=
  let units := doubleFormat.units x.mag * k
  TruncKept units (2 ^ doubleFormat.scale) (2 ^ (Nat.log2 units - 52))

instance (x : Double) (k : Nat) : Decidable (ProductKept x k) :=
  inferInstanceAs (Decidable (TruncKept _ _ _))

/-- The truncated product is the exact one, in range, exactly if the exact one is in range and the
rounding leaves it in its place. -/
theorem truncInt64_mulNat {x : Double} (k : Nat) (hfin : x.mag < doubleFormat.infMag) :
    truncInt64 (mulNat x k) = some (truncProduct x k) ↔
      ProductKept x k ∧ -2 ^ 63 ≤ truncProduct x k ∧ truncProduct x k < 2 ^ 63 := by
  have hpos : 0 < 2 ^ doubleFormat.scale := Nat.two_pow_pos _
  have hkept := doubleFormat.div_roundUnits (doubleFormat.units x.mag * k) doubleFormat.scale
  have hmul : mulNat x k = .ofRatio doubleFormat x.neg (doubleFormat.units x.mag * k)
    (2 ^ doubleFormat.scale) := if_pos hfin
  rw [truncInt64, hmul, Format.ofRatio_neg, Format.ofRatio_mag, truncProduct, ProductKept,
    show (52 : Nat) = doubleFormat.mbits from rfl, ← hkept]
  generalize doubleFormat.units x.mag * k = a
  by_cases hsmall : doubleFormat.roundMag a (2 ^ doubleFormat.scale) < doubleFormat.infMag
  · rw [if_pos hsmall, Format.units_roundMag_units hsmall, toInt64?_eq_some, signed_inj]
    constructor
    · rintro ⟨hrange, heq⟩
      rw [heq] at hrange
      exact ⟨heq, hrange⟩
    · rintro ⟨heq, hrange⟩
      rw [heq]
      exact ⟨hrange, rfl⟩
  · rw [if_neg hsmall]
    refine iff_of_false nofun ?_
    rintro ⟨-, hrange⟩
    rw [signed_range] at hrange
    refine hsmall (Format.roundMag_lt (k := 64) hpos ?_ (by decide))
    rw [← Nat.div_lt_iff_lt_mul hpos]
    omega

end VCodec
