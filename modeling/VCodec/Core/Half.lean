import VCodec.Core.Lower
import VCodec.Library.Rounding

/-!
# Halves

`fromHalf` widens a binary16 pattern, and `toHalf` finds the pattern that a double widens, if there
is one. `toHalfRounded` finds the nearest half, except that its arithmetic for subnormal halves
rounds twice: the double addition that biases the value can move it onto a midpoint between two
halves, and the tie is then broken against the side it came from.
-/

namespace VCodec

open Ieee

/-- binary16. -/
def halfFormat : Format := ⟨10, 5, by decide, by decide⟩

abbrev Half := Binary halfFormat

theorem halfFormat_scale : halfFormat.scale = 24 := by decide

theorem halfFormat_infMag : halfFormat.infMag = 0x7C00 := by decide

theorem half_bits (x : Half) : x.bits = (if x.neg then 0x8000 else 0) + x.mag := rfl

theorem half_mag_lt (x : Half) : x.mag < 0x8000 := x.mag_lt

/-! ### Exact conversion -/

theorem isNan_fromHalf (x : Half) : (fromHalf x.bits).isNan = x.isNan := by
  have hmag := half_mag_lt x
  have hsplit : x.mag = x.mag / 1024 * 2 ^ 10 + x.mag % 1024 := by omega
  have hx : x.isNan = decide (0x7C00 < x.mag) := by rw [Binary.isNan, halfFormat_infMag]
  rw [hx, half_bits]
  rw [hsplit, ← Nat.add_assoc, fromHalf_parts x.neg (by omega) (by omega), ← hsplit]
  have hratio : ∀ p q, (Binary.ofRatio doubleFormat x.neg p q).isNan = false := fun p q => by
    exact decide_eq_false (not_lt.2 (Format.roundMag_le _ _ _))
  split
  · rw [hratio]
    exact (decide_eq_false (by omega)).symm
  split
  · split
    · rw [Binary.isNan_nan]
      exact (decide_eq_true (by omega)).symm
    · have hinf : (Binary.inf doubleFormat x.neg).isNan = false := by
        simp [Binary.isNan, Binary.inf]
      rw [hinf]
      exact (decide_eq_false (by omega)).symm
  · rw [hratio]
    exact (decide_eq_false (by omega)).symm

/-- Widening a half is the conversion of the formats. -/
theorem fromHalf_bits {x : Half} (hx : x.isNan = false) :
    fromHalf x.bits = x.convert doubleFormat := by
  have hmag := half_mag_lt x
  cases hinf : x.isInf with
  | true =>
    have heq := Binary.eq_inf hinf
    have hbits : x.bits = (if x.neg then 0x8000 else 0) + 31 * 2 ^ 10 + 0 := by
      rw [half_bits, of_decide_eq_true hinf, halfFormat_infMag]
      rfl
    rw [hbits, fromHalf_parts x.neg (by omega) (by omega)]
    rw [heq, Binary.convert_inf]
    rfl
  | false =>
    have hfin := Binary.lt_infMag hx hinf
    rw [Binary.convert_of_lt hfin, halfFormat_scale, half_bits]
    rw [halfFormat_infMag] at hfin
    rcases halfFormat.mag_cases x.mag with hsub | ⟨e, m, hm, heq⟩
    · have hlt : x.mag < 1024 := hsub
      have hparts := fromHalf_parts x.neg (e := 0) (m := x.mag) (by omega) hlt
      rw [Nat.zero_mul, Nat.add_zero, if_pos rfl] at hparts
      rw [hparts, Format.units_of_subnormal hsub]
    · have hm' : m < 1024 := hm
      have heq' : x.mag = (e + 1) * 2 ^ 10 + m := heq
      rw [heq, Format.units_normal hm, ← heq, heq', ← Nat.add_assoc,
        fromHalf_parts x.neg (by omega) hm', if_neg (by omega),
        if_neg (by omega)]
      have hscaled : doubleFormat.roundMag ((m + 1024) * 2 ^ (e + 1)) (2 ^ 25) =
          doubleFormat.roundMag ((2 ^ halfFormat.mbits + m) * 2 ^ e) (2 ^ 24) := by
        rw [← Format.roundMag_mul_right _ (2 ^ 24) (c := 2) two_pos, ← pow_succ,
          Nat.mul_assoc, ← pow_succ,
          Nat.add_comm m]
        rfl
      exact Binary.ext_iff.2 ⟨rfl, hscaled⟩

/-- `to_half` finds the half that widens to the double, if there is one. -/
theorem toHalf_eq_some {d : Double} (hd : d.isNan = false) {h : Nat} :
    toHalf d = some h ↔ ∃ x : Half, x.isNan = false ∧ x.bits = h ∧ x.convert doubleFormat = d := by
  constructor
  · intro hh
    obtain ⟨hback, hlt⟩ := fromHalf_of_toHalf hd hh
    have hbits : (Binary.ofBits halfFormat h).bits = h := Binary.bits_ofBits hlt
    have hx : (Binary.ofBits halfFormat h).isNan = false := by
      rw [← isNan_fromHalf, hbits, hback]
      exact hd
    exact ⟨_, hx, hbits, by rw [← fromHalf_bits hx, hbits, hback]⟩
  · rintro ⟨x, hx, rfl, rfl⟩
    rw [← fromHalf_bits hx] at hd ⊢
    exact toHalf_fromHalf x.bits_lt hd

/-! ### Rounding -/

/-- The half is the one nearest to a number, the even one of two, with its sign; an infinity from
half a step above the largest finite half on. -/
structure NearestHalf (d : Double) (x : Half) : Prop where
  neg : x.neg = d.neg
  not_nan : x.isNan = false
  isInf : x.isInf = true ↔ 65520 * 2 ^ doubleFormat.scale ≤ doubleFormat.units d.mag
  nearest : x.isInf = false → ∀ y < halfFormat.infMag,
    halfFormat.distance (doubleFormat.units d.mag * 2 ^ halfFormat.scale) (2 ^ doubleFormat.scale)
      x.mag ≤
        halfFormat.distance (doubleFormat.units d.mag * 2 ^ halfFormat.scale)
          (2 ^ doubleFormat.scale) y ∧
      (halfFormat.distance (doubleFormat.units d.mag * 2 ^ halfFormat.scale)
        (2 ^ doubleFormat.scale) x.mag =
          halfFormat.distance (doubleFormat.units d.mag * 2 ^ halfFormat.scale)
            (2 ^ doubleFormat.scale) y →
        x.mag = y ∨ x.mag % 2 = 0)

/-- The midpoint between the largest finite half and the next power of two. -/
theorem half_overflow : halfFormat.units 0x7BFF + halfFormat.units 0x7C00 = 2 * 65520 * 2 ^ 24 := by
  decide

theorem overflow_iff (U S : Nat) :
    (halfFormat.units 0x7BFF + halfFormat.units 0x7C00) * 2 ^ S ≤ 2 * (U * 2 ^ halfFormat.scale) ↔
      65520 * 2 ^ S ≤ U := by
  rw [half_overflow, halfFormat_scale]
  generalize 2 ^ S = x
  omega

theorem rounds_lt {a b x : Nat} (hb : 0 < b) (h : halfFormat.Rounds a b x) (hx : x < 0x7C00) :
    2 * a < (halfFormat.units 0x7BFF + halfFormat.units 0x7C00) * b := by
  have hmono : halfFormat.units x + halfFormat.units (x + 1) ≤ halfFormat.units 0x7BFF +
    halfFormat.units 0x7C00 :=
    Nat.add_le_add (Format.units_strictMono.monotone (by omega))
      (Format.units_strictMono.monotone (by omega))
  have hle := Nat.mul_le_mul_right b hmono
  rcases Nat.lt_or_eq_of_le h.below with hlt | heq
  · exact lt_of_lt_of_le hlt hle
  · -- a tie makes the magnitude even, so it is not the largest one
    have heven := h.below_tie heq
    have hlt : halfFormat.units x < halfFormat.units 0x7BFF := Format.units_strictMono (by omega)
    have hle' : halfFormat.units (x + 1) ≤ halfFormat.units 0x7C00 :=
      Format.units_strictMono.monotone (by omega)
    rw [heq]
    exact Nat.mul_lt_mul_of_pos_right (by omega) hb

theorem le_of_rounds {a b x : Nat} (h : halfFormat.Rounds a b x) (hx : 0x7C00 ≤ x) :
    (halfFormat.units 0x7BFF + halfFormat.units 0x7C00) * b ≤ 2 * a := by
  obtain ⟨k, rfl⟩ : ∃ k, x = k + 1 := ⟨x - 1, by omega⟩
  refine le_trans (Nat.mul_le_mul_right b (Nat.add_le_add ?_ ?_)) (h.above k rfl)
  · exact Format.units_strictMono.monotone (by omega)
  · exact Format.units_strictMono.monotone hx

/-- What `d` rounds to in the half format. -/
theorem nearestHalf_convert {d : Double} (hfin : d.mag < doubleFormat.infMag) :
    NearestHalf d (d.convert halfFormat) := by
  have hq : 0 < 2 ^ doubleFormat.scale := Nat.two_pow_pos _
  have hnan := Binary.isNan_of_lt hfin
  obtain ⟨mag, hrounds, hround⟩ := halfFormat.exists_rounds (doubleFormat.units d.mag) hq
  have hmag : (d.convert halfFormat).mag = min mag 0x7C00 := by
    rw [Binary.convert_of_lt hfin, ← halfFormat_infMag]
    exact hround
  refine ⟨?_, Binary.isNan_convert hnan, ?_, fun hinf y _ => ?_⟩
  · rw [Binary.convert_of_lt hfin]
    rfl
  · rw [Binary.isInf, decide_eq_true_eq, hmag, halfFormat_infMag, ← overflow_iff]
    constructor
    · intro h
      exact le_of_rounds hrounds (by omega)
    · intro h
      by_contra hlt
      have := rounds_lt hq hrounds (by omega)
      omega
  · have hlt : mag < 0x7C00 := by
      rw [Binary.isInf, decide_eq_false_iff_not, hmag, halfFormat_infMag] at hinf
      omega
    rw [hmag, min_eq_left hlt.le]
    exact hrounds.nearest hq y

/-- There is no other. -/
theorem NearestHalf.eq_convert
    {d : Double} {x : Half} (hfin : d.mag < doubleFormat.infMag) (h : NearestHalf d x) :
    x = d.convert halfFormat := by
  have hq : 0 < 2 ^ doubleFormat.scale := Nat.two_pow_pos _
  have hc := nearestHalf_convert hfin
  refine Binary.ext_iff.2 ⟨h.neg.trans hc.neg.symm, ?_⟩
  cases hinf : x.isInf with
  | true =>
    have hinf' := hc.isInf.2 (h.isInf.1 hinf)
    rw [of_decide_eq_true hinf, of_decide_eq_true hinf']
  | false =>
    have hlt := Binary.lt_infMag h.not_nan hinf
    have hsmall : ¬ 65520 * 2 ^ doubleFormat.scale ≤ doubleFormat.units d.mag := fun hle => by
      rw [h.isInf.2 hle] at hinf
      cases hinf
    have hrounds : halfFormat.Rounds (doubleFormat.units d.mag * 2 ^ halfFormat.scale)
      (2 ^ doubleFormat.scale) x.mag := by
      have hnear := h.nearest hinf
      rw [halfFormat_infMag] at hlt hnear
      refine Format.rounds_of_nearest hq fun y hy => ?_
      rcases Nat.lt_or_ge y 0x7C00 with hy' | hy'
      · exact hnear y hy'
      · -- the largest half, against the first power of two that is none
        obtain rfl : y = 0x7C00 := by omega
        have hmag : x.mag = 0x7BFF := by omega
        rw [← overflow_iff, not_le, Nat.add_mul] at hsmall
        have hlow : halfFormat.units 0x7BFF * 2 ^ doubleFormat.scale <
          halfFormat.units 0x7C00 * 2 ^ doubleFormat.scale :=
          Nat.mul_lt_mul_of_pos_right (halfFormat.units_succ_lt 0x7BFF) hq
        rw [hmag, Format.distance, Format.distance]
        exact ⟨by omega, by omega⟩
    rw [Binary.convert_of_lt hfin]
    exact ((Format.roundMag_eq_iff hq hlt).2 hrounds).symm

/-! ### What the code rounds to -/

/-- The half is the bits of the magnitude behind the sign. -/
theorem bits_convert {d : Double} (hfin : d.mag < doubleFormat.infMag) :
    (d.convert halfFormat).bits =
      (if d.neg then 0x8000 else 0) + halfFormat.roundMag (doubleFormat.units d.mag)
      (2 ^ doubleFormat.scale) := by
  rw [Binary.convert_of_lt hfin]
  rfl

theorem up_eq_nearestEven (p q : Nat) :
    (if q < 2 * (p % q) ∨ (2 * (p % q) = q ∧ p / q % 2 = 1) then p / q + 1 else p / q) =
      nearestEven p q := by
  rw [nearestEven]
  split <;> split <;> (try split) <;> omega

/-- In the range of the normal halves. -/
theorem roundMag_normal {U k : Nat} (hU : U ≠ 0) (hlog : k + 10 ≤ Nat.log2 U) :
    halfFormat.roundMag U (2 ^ (k + 24)) =
      min ((Nat.log2 U - (k + 10)) * 2 ^ 10 + nearestEven U (2 ^ (Nat.log2 U - 10))) 0x7C00 := by
  have hbounds := (Nat.log2_eq_iff hU).1 rfl
  generalize Nat.log2 U = L at hlog hbounds
  obtain ⟨e, rfl⟩ : ∃ e, L = k + 10 + e := ⟨L - (k + 10), by omega⟩
  have hleads : halfFormat.Leads (U * 2 ^ halfFormat.scale) (2 ^ (k + 24)) e := by
    have hbits : halfFormat.mbits = 10 := rfl
    rw [halfFormat_scale]
    constructor
    · right
      calc 2 ^ (k + 24) * (2 ^ halfFormat.mbits * 2 ^ e) = 2 ^ (k + 10 + e) * 2 ^ 24 := by
            rw [hbits]
            ring
        _ ≤ U * 2 ^ 24 := Nat.mul_le_mul_right _ hbounds.1
    · calc U * 2 ^ 24 < 2 ^ (k + 10 + e + 1) * 2 ^ 24 :=
        Nat.mul_lt_mul_of_pos_right hbounds.2 (by decide)
        _ = 2 ^ (k + 24) * ((2 ^ halfFormat.mbits + 2 ^ halfFormat.mbits) * 2 ^ e) := by
            rw [hbits]
            ring
  rw [Format.roundMag_of_leads (Nat.two_pow_pos _) hleads, halfFormat_infMag, halfFormat_scale,
    Nat.add_sub_cancel_left,
    show 2 ^ (k + 24) * 2 ^ e = 2 ^ (k + 10 + e - 10) * 2 ^ 24 by
      rw [show k + 10 + e - 10 = k + e by omega]
      ring,
    nearestEven_mul_right _ _ (by decide)]
  rfl

/-- In the range of the subnormal halves. -/
theorem roundMag_subnormal {U k : Nat} (hU : U < 2 ^ (k + 10)) :
    halfFormat.roundMag U (2 ^ (k + 24)) = nearestEven U (2 ^ k) := by
  have hleads : halfFormat.Leads (U * 2 ^ halfFormat.scale) (2 ^ (k + 24)) 0 := by
    refine ⟨.inl rfl, ?_⟩
    rw [halfFormat_scale]
    calc U * 2 ^ 24 < 2 ^ (k + 10) * 2 ^ 24 := Nat.mul_lt_mul_of_pos_right hU (by decide)
      _ ≤ 2 ^ (k + 24) * ((2 ^ halfFormat.mbits + 2 ^ halfFormat.mbits) * 2 ^ 0) := by
        rw [show halfFormat.mbits = 10 from rfl, ← Nat.two_mul, pow_zero,
          Nat.mul_one, ← Nat.pow_succ', ← pow_add, ← pow_add]
        exact Nat.pow_le_pow_right two_pos (by omega)
  have hsmall : nearestEven U (2 ^ k) ≤ 0x7C00 := by
    refine le_trans (Format.nearestEven_le_succ _ _) ?_
    have : U / 2 ^ k < 1024 := by
      rw [Nat.div_lt_iff_lt_mul (Nat.two_pow_pos _)]
      calc U < 2 ^ (k + 10) := hU
        _ = 1024 * 2 ^ k := by ring
    omega
  rw [Format.roundMag_of_leads (Nat.two_pow_pos _) hleads, halfFormat_infMag, halfFormat_scale,
    Nat.zero_mul, Nat.zero_add,
    pow_zero, Nat.mul_one, pow_add, nearestEven_mul_right _ _ (by decide), min_eq_left hsmall]

theorem biased_scale {k : Nat} (h : doubleFormat.scale = k + 42 + 24) : k = 1008 := by
  have hscale : doubleFormat.scale = 1008 + 42 + 24 := by decide
  exact Nat.add_right_cancel (Nat.add_right_cancel (h.symm.trans hscale))

/-- The biased value that the code rounds, for a double in the range of the subnormal halves: the
addition rounds to multiples of `2 ^ -42`, of which a step of the halves has `2 ^ 42`. -/
theorem units_biased {U k : Nat} (hU : U < 2 ^ (k + 42 + 10))
    (hscale : doubleFormat.scale = k + 42 + 24) :
    doubleFormat.units
      (doubleFormat.roundMag (U * 2 ^ 24 + 1024 * 2 ^ doubleFormat.scale)
      (2 ^ doubleFormat.scale)) =
      (nearestEven U (2 ^ k) + 2 ^ 52) * 2 ^ (k + 24) := by
  have hk := biased_scale hscale
  have hmbits : doubleFormat.mbits = 52 := rfl
  have hS : 0 < 2 ^ doubleFormat.scale := Nat.two_pow_pos _
  have hX : U * 2 ^ 24 + 1024 * 2 ^ doubleFormat.scale =
    U * 2 ^ 24 + 2 * 2 ^ 51 * 2 ^ (k + 24) := by
    rw [hscale]
    ring
  have hlo : 2 ^ 52 * 2 ^ (k + 24) ≤ U * 2 ^ 24 + 2 * 2 ^ 51 * 2 ^ (k + 24) := by omega
  have hhi : U * 2 ^ 24 + 2 * 2 ^ 51 * 2 ^ (k + 24) < (2 ^ 52 + 2 ^ 52) * 2 ^ (k + 24) := by
    have hlt : U * 2 ^ 24 < 2 ^ 52 * 2 ^ (k + 24) := by
      calc U * 2 ^ 24 < 2 ^ (k + 42 + 10) * 2 ^ 24 := Nat.mul_lt_mul_of_pos_right hU (by decide)
        _ = 2 ^ 52 * 2 ^ (k + 24) := by ring
    calc U * 2 ^ 24 + 2 * 2 ^ 51 * 2 ^ (k + 24) < 2 ^ 52 * 2 ^ (k + 24) + 2 * 2 ^ 51 * 2 ^
      (k + 24) := Nat.add_lt_add_right hlt _
      _ = (2 ^ 52 + 2 ^ 52) * 2 ^ (k + 24) := by ring
  rw [hX]
  generalize hXX : U * 2 ^ 24 + 2 * 2 ^ 51 * 2 ^ (k + 24) = X at hlo hhi
  have hleads : doubleFormat.Leads (X * 2 ^ doubleFormat.scale) (2 ^ doubleFormat.scale)
    (k + 24) := by
    rw [Nat.mul_comm X]
    exact ⟨.inr (Nat.mul_le_mul_left _ hlo), Nat.mul_lt_mul_of_pos_left hhi hS⟩
  have hnear : nearestEven (X * 2 ^ doubleFormat.scale) (2 ^ doubleFormat.scale * 2 ^ (k + 24)) =
      nearestEven U (2 ^ k) + 2 ^ 52 := by
    rw [Nat.mul_comm (2 ^ doubleFormat.scale), nearestEven_mul_right _ _ hS, ← hXX,
      nearestEven_add_mul _ _ (Nat.two_pow_pos _),
      pow_add, nearestEven_mul_right _ _ (by decide)]
    rfl
  obtain ⟨hsig, hle⟩ := Format.nearestEven_bounds hS hleads
  have hround := Format.roundMag_of_leads hS hleads
  rw [hnear] at hsig hle hround
  have hfin : (k + 24) * 2 ^ doubleFormat.mbits + (nearestEven U (2 ^ k) + 2 ^ 52) ≤
    doubleFormat.infMag := by
    have hinf : doubleFormat.infMag = 2047 * 2 ^ 52 := by decide
    have hroom : ∀ n, n ≤ 2 ^ 52 + 2 ^ 52 → (k + 24) * 2 ^ 52 + n ≤ 2047 * 2 ^ 52 := fun n hn => by
      rw [hk]
      omega
    rw [hmbits] at hle ⊢
    rw [hinf]
    exact hroom _ hle
  rw [hround, min_eq_left hfin, Format.units_significand hsig hle]

/-- Where the double addition of the subnormal range moves the value onto a midpoint, from the side
that the tie is not broken to. -/
def HalfTieLost (d : Double) : Prop :=
  let units := doubleFormat.units d.mag
  let unit := 2 ^ (doubleFormat.scale - 24)
  let near := 2 ^ (doubleFormat.scale - 67)
  units < 1024 * unit ∧
    ((2 * (units % unit) < unit ∧ unit ≤ 2 * (units % unit + near) ∧ units / unit % 2 = 1) ∨
      (unit < 2 * (units % unit) ∧ 2 * (units % unit) ≤ unit + 2 * near ∧ units / unit % 2 = 0))

instance (d : Double) : Decidable (HalfTieLost d) := by
  unfold HalfTieLost
  infer_instance

/-- The condition is the one under which rounding twice goes wrong. -/
theorem tieLost_iff {U k : Nat} :
    TieLost U (2 ^ k) (2 ^ 41) ↔
      (2 * (U % 2 ^ (k + 42)) < 2 ^ (k + 42) ∧ 2 ^ (k + 42) ≤ 2 * (U % 2 ^ (k + 42)) + 2 ^ k ∧
        U / 2 ^ (k + 42) % 2 = 1) ∨
        (2 ^ (k + 42) < 2 * (U % 2 ^ (k + 42)) ∧ 2 * (U % 2 ^ (k + 42)) ≤ 2 ^ (k + 42) + 2 ^ k ∧
          U / 2 ^ (k + 42) % 2 = 0) := by
  have hpos : 0 < 2 ^ k := Nat.two_pow_pos _
  have hunit : 2 ^ (k + 42) = 2 ^ k * (2 * 2 ^ 41) := by ring
  have hdiv : U / 2 ^ (k + 42) = U / 2 ^ k / (2 * 2 ^ 41) := by rw [hunit, Nat.div_div_eq_div_mul]
  have hmod : U % 2 ^ (k + 42) = U % 2 ^ k + 2 ^ k * (U / 2 ^ k % (2 * 2 ^ 41)) := by
    rw [hunit, Nat.mod_mul]
  rw [TieLost, hdiv, hmod, hunit]
  have hi := Nat.mod_lt U hpos
  have hj := Nat.mod_lt (U / 2 ^ k) (show 0 < 2 * 2 ^ 41 by decide)
  generalize U / 2 ^ k / (2 * 2 ^ 41) = m
  generalize U / 2 ^ k % (2 * 2 ^ 41) = j at hj ⊢
  generalize U % 2 ^ k = i at hi ⊢
  generalize 2 ^ k = g at hpos hi ⊢
  have hmul : ∀ x y c : Nat, x + c ≤ y → g * x + g * c ≤ g * y := fun x y c h => by
    rw [← Nat.mul_add]
    exact Nat.mul_le_mul_left g h
  rcases Nat.lt_trichotomy j (2 ^ 41) with hlt | rfl | hgt
  · rcases Nat.lt_or_ge (j + 1) (2 ^ 41) with hlow | hlast
    · have := hmul j (2 ^ 41) 2 hlow
      omega
    · obtain rfl : j = 2 ^ 41 - 1 := by omega
      omega
  · omega
  · have := hmul (2 ^ 41) j 1 hgt
    omega

theorem halfTieLost_iff {d : Double} {k : Nat} (hscale : doubleFormat.scale = k + 42 + 24) :
    HalfTieLost d ↔ doubleFormat.units d.mag < 2 ^ (k + 42 + 10) ∧
      TieLost (doubleFormat.units d.mag) (2 ^ k) (2 ^ 41) := by
  obtain ⟨k, rfl⟩ : ∃ k', k = k' + 1 := ⟨1007, by
    have : doubleFormat.scale = 1074 := by decide
    omega⟩
  have hunit : doubleFormat.scale - 24 = k + 1 + 42 := by omega
  have hnear : doubleFormat.scale - 67 = k := by omega
  have hrange : 2 ^ (k + 1 + 42 + 10) = 1024 * 2 ^ (k + 1 + 42) := by ring
  have hstep : 2 ^ (k + 1) = 2 * 2 ^ k := by ring
  rw [HalfTieLost, tieLost_iff]
  simp only [hunit, hnear, hrange]
  rw [hstep]
  generalize doubleFormat.units d.mag = U
  generalize 2 ^ (k + 1 + 42) = unit
  generalize U % unit = r
  generalize U / unit = m
  generalize 2 ^ k = near
  constructor <;> rintro ⟨hU, h⟩ <;> refine ⟨hU, ?_⟩ <;> omega

/-- A double that is a half exactly stands on no side of a midpoint. -/
theorem not_tieLost_of_toHalf {d : Double} {h k : Nat} (hscale : doubleFormat.scale = k + 42 + 24)
    (hfin : d.mag < doubleFormat.infMag) (hh : toHalf d = some h)
    (hU : doubleFormat.units d.mag < 2 ^ (k + 42 + 10)) :
    ¬ TieLost (doubleFormat.units d.mag) (2 ^ k) (2 ^ 41) := by
  have hmod : doubleFormat.units d.mag % 2 ^ (k + 42) = 0 := by
    rcases Nat.eq_zero_or_pos (doubleFormat.units d.mag) with hz | hpos
    · rw [hz, Nat.zero_mod]
    · have hlog := (Nat.log2_lt hpos.ne').2 hU
      simp only [toHalf, Binary.isNan_of_lt hfin, Binary.isInf_of_lt hfin, Bool.false_eq_true,
        if_false, if_neg hpos.ne',
        hscale, show ¬ k + 42 + 24 < Nat.log2 (doubleFormat.units d.mag) + 15 by
          omega, Nat.add_sub_cancel] at hh
      by_contra hne
      split at hh
      · cases hh
      · rw [if_pos (.inl hne)] at hh
        cases hh
  rw [tieLost_iff, hmod]
  have hpow : 2 ^ k < 2 ^ (k + 42) := Nat.pow_lt_pow_right one_lt_two (by omega)
  omega

/-- The nearest half in the subnormal range, rounded first to multiples of `2 ^ -42` of a step. -/
theorem nearestEven_biased {U k : Nat} (hU : U < 2 ^ (k + 42 + 10)) :
    nearestEven ((nearestEven U (2 ^ k) + 2 ^ 52) * 2 ^ (k + 24)) (2 ^ (k + 42 + 24)) =
        nearestEven (nearestEven U (2 ^ k) * 2 ^ k) (2 * 2 ^ 41 * 2 ^ k) + 1024 ∧
      nearestEven (nearestEven U (2 ^ k) * 2 ^ k) (2 * 2 ^ 41 * 2 ^ k) ≤ 1024 := by
  have hN : nearestEven U (2 ^ k) ≤ 2 ^ 52 := by
    refine le_trans (Format.nearestEven_le_succ _ _) ?_
    rw [Nat.succ_le_iff, Nat.div_lt_iff_lt_mul (Nat.two_pow_pos k)]
    calc U < 2 ^ (k + 42 + 10) := hU
      _ = 2 ^ 52 * 2 ^ k := by ring
  generalize nearestEven U (2 ^ k) = N at hN
  rw [nearestEven_mul_right _ _ (Nat.two_pow_pos k)]
  constructor
  · rw [show 2 ^ (k + 42 + 24) = 2 * 2 ^ 41 * 2 ^ (k + 24) by ring,
      nearestEven_mul_right _ _ (Nat.two_pow_pos _)]
    rw [show N + 2 ^ 52 = N + 2 * 512 * (2 * 2 ^ 41) by norm_num,
      nearestEven_add_mul _ _ (by decide)]
  · rw [nearestEven]
    split
    · omega
    split <;> omega

/-- `to_half_rounded` gives the bits of the nearest half unless a tie is lost. -/
theorem toHalfRounded_eq_iff {d : Double} (hfin : d.mag < doubleFormat.infMag) :
    toHalfRounded d = (d.convert halfFormat).bits ↔ ¬ HalfTieLost d := by
  obtain ⟨k, hscale⟩ : ∃ k, doubleFormat.scale = k + 42 + 24 := ⟨1008, by decide⟩
  have hnan := Binary.isNan_of_lt hfin
  rw [halfTieLost_iff hscale, toHalfRounded]
  split
  · rename_i h hh
    obtain ⟨x, hx, rfl, hd⟩ := (toHalf_eq_some hnan).1 hh
    refine iff_of_true ?_ fun hlost => not_tieLost_of_toHalf hscale hfin hh hlost.1 hlost.2
    rw [← hd, Binary.convert_convert (by decide) (by decide) (by decide) hx]
  · have hnear := nearestHalf_convert hfin
    have hbits := bits_convert hfin
    have hmag : (d.convert halfFormat).mag = halfFormat.roundMag (doubleFormat.units d.mag)
      (2 ^ doubleFormat.scale) := by
      rw [Binary.convert_of_lt hfin]
      rfl
    have hinf := hnear.isInf
    rw [Binary.isInf, decide_eq_true_eq, hmag, halfFormat_infMag] at hinf
    rw [hbits]
    dsimp only
    generalize doubleFormat.units d.mag = U at hinf ⊢
    rw [hscale] at hinf ⊢
    by_cases hover : 65520 * 2 ^ (k + 42 + 24) ≤ U
    · rw [if_pos hover, hinf.2 hover]
      refine iff_of_true rfl fun hlost => ?_
      have hlt : 2 ^ (k + 42 + 10) ≤ 2 ^ (k + 42 + 24) := Nat.pow_le_pow_right two_pos (by omega)
      omega
    rw [if_neg hover]
    have hround := (not_congr hinf).2 hover
    by_cases hnormal : k + 42 + 24 < Nat.log2 U + 15
    · -- a normal half is rounded once
      have hU : U ≠ 0 := by
        rintro rfl
        rw [Nat.log2_zero] at hnormal
        omega
      have hbounds := (Nat.log2_eq_iff hU).1 rfl
      have hlarge : ¬ U < 2 ^ (k + 42 + 10) := by
        refine not_lt.2 (le_trans (Nat.pow_le_pow_right two_pos ?_) hbounds.1)
        omega
      refine iff_of_true ?_ fun hlost => hlarge hlost.1
      have hkl := roundMag_normal (k := k + 42) hU (by omega)
      simp only [if_pos hnormal, up_eq_nearestEven]
      rw [hkl] at hround ⊢
      have hlow : 2 ^ 10 ≤ U / 2 ^ (Nat.log2 U - 10) := by
        rw [Nat.le_div_iff_mul_le (Nat.two_pow_pos _), ← pow_add, Nat.add_sub_cancel' (by omega)]
        exact hbounds.1
      have hhigh : U / 2 ^ (Nat.log2 U - 10) < 2 ^ 11 := by
        rw [Nat.div_lt_iff_lt_mul (Nat.two_pow_pos _), ← pow_add]
        exact lt_of_lt_of_le hbounds.2 (Nat.pow_le_pow_right two_pos (by omega))
      have hle := Format.div_le_nearestEven U (2 ^ (Nat.log2 U - 10))
      have hsucc := Format.nearestEven_le_succ U (2 ^ (Nat.log2 U - 10))
      generalize nearestEven U (2 ^ (Nat.log2 U - 10)) = n at hround hle hsucc ⊢
      generalize U / 2 ^ (Nat.log2 U - 10) = m at hlow hhigh hle hsucc
      generalize Nat.log2 U = L at hnormal hround ⊢
      generalize (if d.neg = true then 0x8000 else 0) = sign
      split
      · omega
      split <;> omega
    · have hU : U < 2 ^ (k + 42 + 10) := by
        rcases Nat.eq_zero_or_pos U with rfl | hpos
        · exact Nat.two_pow_pos _
        · exact (Nat.log2_lt hpos.ne').1 (by omega)
      obtain ⟨hbiased, hle⟩ := nearestEven_biased hU
      have hunits := units_biased hU hscale
      rw [hscale] at hunits
      simp only [if_neg hnormal, up_eq_nearestEven, hunits, hbiased]
      rw [roundMag_subnormal hU, and_iff_right hU, ← nearestEven_twice U (Nat.two_pow_pos k)
        (by decide) (by decide),
        show 2 * 2 ^ 41 * 2 ^ k = 2 ^ (k + 42) by ring]
      rw [show 2 * 2 ^ 41 * 2 ^ k = 2 ^ (k + 42) by ring] at hle
      generalize nearestEven (nearestEven U (2 ^ k) * 2 ^ k) (2 ^ (k + 42)) = M at hle ⊢
      generalize nearestEven U (2 ^ (k + 42)) = N
      generalize (if d.neg = true then 0x8000 else 0) = sign
      split <;> omega

/-- `to_half_rounded` gives the nearest half of a finite number exactly where no tie is lost. -/
theorem toHalfRounded_nearest_iff {d : Double} (hfin : d.mag < doubleFormat.infMag) :
    (∃ x : Half, x.bits = toHalfRounded d ∧ NearestHalf d x) ↔ ¬ HalfTieLost d := by
  rw [← toHalfRounded_eq_iff hfin]
  constructor
  · rintro ⟨x, hbits, hnear⟩
    rw [← hbits, hnear.eq_convert hfin]
  · intro h
    exact ⟨_, h.symm, nearestHalf_convert hfin⟩

theorem toHalfRounded_nearest_third :
    (∃ x : Half, x.bits = toHalfRounded (doubleOfBits 0x3FD5555555555555) ∧
      NearestHalf (doubleOfBits 0x3FD5555555555555) x) ↔
        ¬ HalfTieLost (doubleOfBits 0x3FD5555555555555) :=
  toHalfRounded_nearest_iff (by decide)

/-- A little more than half the least half is rounded to zero. -/
theorem toHalfRounded_midpoint :
    ¬ ∀ d : Double, d.mag < doubleFormat.infMag → ∃ x :
      Half, x.bits = toHalfRounded d ∧ NearestHalf d x := by
  intro hall
  have hfin : (doubleOfBits (998 * 2 ^ 52 + 8)).mag < doubleFormat.infMag := by decide
  obtain ⟨x, hbits, hnear⟩ := hall _ hfin
  rw [hnear.eq_convert hfin, eq_comm, toHalfRounded_eq_iff hfin] at hbits
  exact hbits (by decide +kernel)

end VCodec
