import Mathlib.Data.Nat.Log
import Mathlib.Tactic.Ring
import Mathlib.Tactic.Linarith

/-!
# IEEE 754 binary interchange formats

A format with `mbits` fraction bits and `ebits` exponent bits. A number is its bit pattern: a sign
and a magnitude, the exponent and fraction fields read as one natural number. Magnitudes are ordered
as the values they stand for, so rounding is a function on naturals: `units` reads a finite
magnitude as a multiple of the least positive value `2 ^ -scale`, and `roundMag` gives the magnitude
nearest to a ratio of naturals, ties to even.
-/

namespace Ieee

/-- The widths of the fraction and exponent fields. -/
structure Format where
  mbits : Nat
  ebits : Nat
  one_le : 1 ≤ mbits
  two_le : 2 ≤ ebits

namespace Format

variable (f : Format)

/-- The least positive value is `2 ^ -scale`. -/
def scale : Nat := 2 ^ (f.ebits - 1) - 2 + f.mbits

/-- The magnitude of an infinity; larger magnitudes are NaNs. -/
def infMag : Nat := (2 ^ f.ebits - 1) * 2 ^ f.mbits

/-- A finite magnitude as a multiple of the least positive value. -/
def units (mag : Nat) : Nat :=
  if mag / 2 ^ f.mbits = 0 then mag % 2 ^ f.mbits
  else (2 ^ f.mbits + mag % 2 ^ f.mbits) * 2 ^ (mag / 2 ^ f.mbits - 1)

end Format

/-- The natural nearest to `a / b`, ties to even. -/
def nearestEven (a b : Nat) : Nat :=
  if 2 * (a % b) < b then a / b
  else if b < 2 * (a % b) then a / b + 1
  else a / b + a / b % 2

/-- The magnitude nearest to `p / q`, ties to even; an infinity when that is out of range. -/
def Format.roundMag (f : Format) (p q : Nat) : Nat :=
  let shift := Nat.log2 (p * 2 ^ f.scale / q) - f.mbits
  min (shift * 2 ^ f.mbits + nearestEven (p * 2 ^ f.scale) (q * 2 ^ shift)) f.infMag

theorem nearestEven_of_dvd {a b n : Nat} (hb : 0 < b) (h : a = n * b) : nearestEven a b = n := by
  subst h
  simp only [nearestEven, Nat.mul_mod_left, Nat.mul_zero, hb, if_true, Nat.mul_div_cancel _ hb]

namespace Format

variable {f : Format}

theorem units_of_subnormal {mag : Nat} (h : mag < 2 ^ f.mbits) : f.units mag = mag := by
  rw [units, if_pos (Nat.div_eq_of_lt h), Nat.mod_eq_of_lt h]

theorem units_normal {e m : Nat} (hm : m < 2 ^ f.mbits) :
    f.units ((e + 1) * 2 ^ f.mbits + m) = (2 ^ f.mbits + m) * 2 ^ e := by
  have hpos : 0 < 2 ^ f.mbits := Nat.two_pow_pos _
  have hdiv : ((e + 1) * 2 ^ f.mbits + m) / 2 ^ f.mbits = e + 1 := by
    rw [Nat.add_comm, Nat.add_mul_div_right _ _ hpos, Nat.div_eq_of_lt hm, Nat.zero_add]
  have hmod : ((e + 1) * 2 ^ f.mbits + m) % 2 ^ f.mbits = m := by
    rw [Nat.add_comm, Nat.add_mul_mod_self_right, Nat.mod_eq_of_lt hm]
  rw [units, hdiv, hmod, if_neg (by omega), Nat.add_sub_cancel]

/-- A magnitude is subnormal or has an exponent field and a fraction. -/
theorem mag_cases (mag : Nat) :
    mag < 2 ^ f.mbits ∨ ∃ e m, m < 2 ^ f.mbits ∧ mag = (e + 1) * 2 ^ f.mbits + m := by
  have hpos : 0 < 2 ^ f.mbits := Nat.two_pow_pos _
  rcases Nat.lt_or_ge mag (2 ^ f.mbits) with h | h
  · exact .inl h
  · have hone : 1 ≤ mag / 2 ^ f.mbits := (Nat.one_le_div_iff hpos).2 h
    refine .inr ⟨mag / 2 ^ f.mbits - 1, mag % 2 ^ f.mbits, Nat.mod_lt _ hpos, ?_⟩
    rw [Nat.sub_add_cancel hone, Nat.mul_comm, Nat.div_add_mod]

theorem log2_units_normal {e m : Nat} (hm : m < 2 ^ f.mbits) :
    Nat.log2 ((2 ^ f.mbits + m) * 2 ^ e) = f.mbits + e := by
  have hne : (2 ^ f.mbits + m) * 2 ^ e ≠ 0 := by positivity
  rw [Nat.log2_eq_iff hne]
  constructor
  · rw [pow_add]
    exact Nat.mul_le_mul_right _ (Nat.le_add_right _ _)
  · rw [show f.mbits + e + 1 = (f.mbits + 1) + e by omega, pow_add]
    refine Nat.mul_lt_mul_of_pos_right ?_ (Nat.two_pow_pos e)
    rw [pow_succ]
    omega

/-- A ratio that a finite magnitude represents exactly rounds to that magnitude. -/
theorem roundMag_of_units {mag p q : Nat} (hq : 0 < q) (hmag : mag ≤ f.infMag)
    (h : p * 2 ^ f.scale = f.units mag * q) : f.roundMag p q = mag := by
  rcases f.mag_cases mag with hsub | ⟨e, m, hm, rfl⟩
  · have hlog : Nat.log2 mag - f.mbits = 0 := by
      rcases Nat.eq_zero_or_pos mag with rfl | hpos
      · simp
      · have := (Nat.log2_lt (by omega)).2 hsub
        omega
    rw [units_of_subnormal hsub] at h
    have hdiv : p * 2 ^ f.scale / q = mag := by rw [h, Nat.mul_div_cancel _ hq]
    simp only [roundMag, hdiv, hlog, pow_zero, Nat.mul_one, Nat.zero_mul, Nat.zero_add]
    rw [nearestEven_of_dvd hq h, min_eq_left hmag]
  · rw [units_normal hm] at h
    have hdiv : p * 2 ^ f.scale / q = (2 ^ f.mbits + m) * 2 ^ e := by
      rw [h, Nat.mul_div_cancel _ hq]
    have hshift : f.mbits + e - f.mbits = e := by omega
    simp only [roundMag, hdiv, log2_units_normal hm, hshift]
    rw [nearestEven_of_dvd (n := 2 ^ f.mbits + m) (Nat.mul_pos hq (Nat.two_pow_pos e))
      (by rw [h]; ring)]
    rw [min_eq_left]
    · ring
    · calc e * 2 ^ f.mbits + (2 ^ f.mbits + m) = (e + 1) * 2 ^ f.mbits + m := by ring
        _ ≤ f.infMag := hmag

/-- Different finite magnitudes are different multiples of the least value. -/
theorem units_injective {a b : Nat} (ha : a ≤ f.infMag) (hb : b ≤ f.infMag)
    (h : f.units a = f.units b) : a = b := by
  have hpos : 0 < 2 ^ f.scale := Nat.two_pow_pos _
  have hself : ∀ c, c ≤ f.infMag → f.roundMag (f.units c) (2 ^ f.scale) = c := fun c hc =>
    roundMag_of_units hpos hc rfl
  rw [← hself a ha, h, hself b hb]

theorem infMag_lt (f : Format) : f.infMag < 2 ^ (f.ebits + f.mbits) := by
  rw [infMag, pow_add]
  exact Nat.mul_lt_mul_of_pos_right (Nat.sub_lt (Nat.two_pow_pos _) one_pos) (Nat.two_pow_pos _)

theorem infMag_add (f : Format) : f.infMag + 2 ^ f.mbits = 2 ^ (f.ebits + f.mbits) := by
  have hpos : 0 < 2 ^ f.ebits := Nat.two_pow_pos _
  rw [infMag, pow_add, ← Nat.succ_mul, Nat.succ_eq_add_one, Nat.sub_add_cancel hpos]

theorem roundMag_le (f : Format) (p q : Nat) : f.roundMag p q ≤ f.infMag := min_le_right _ _

/-- A multiple of the least value with few enough significant bits is represented exactly. -/
theorem units_roundMag {p q m e : Nat} (hq : 0 < q) (hm : m < 2 ^ (f.mbits + 1))
    (hlt : m * 2 ^ e < 2 ^ (f.mbits + (2 ^ f.ebits - 2))) (h : p * 2 ^ f.scale = m * 2 ^ e * q) :
    f.units (f.roundMag p q) = m * 2 ^ e ∧ f.roundMag p q < f.infMag := by
  have hpos : 0 < 2 ^ f.mbits := Nat.two_pow_pos _
  have hebits : 4 ≤ 2 ^ f.ebits := Nat.pow_le_pow_right (n := 2) (by omega) f.two_le
  have hinf : f.infMag = (2 ^ f.ebits - 2) * 2 ^ f.mbits + 2 ^ f.mbits := by
    rw [infMag, ← Nat.succ_mul]
    congr 1
    omega
  have hdiv : p * 2 ^ f.scale / q = m * 2 ^ e := by rw [h, Nat.mul_div_cancel _ hq]
  generalize hU : m * 2 ^ e = U at hlt h hdiv
  rcases Nat.lt_or_ge U (2 ^ f.mbits) with hsub | hge
  · have hlog : Nat.log2 U - f.mbits = 0 := by
      rcases Nat.eq_zero_or_pos U with hz | hUpos
      · simp [hz]
      · have := (Nat.log2_lt (by omega)).2 hsub
        omega
    have hle : U ≤ f.infMag := by
      rw [hinf]
      exact le_trans hsub.le (Nat.le_add_left _ _)
    have hround : f.roundMag p q = U := by
      simp only [roundMag, hdiv, hlog, pow_zero, Nat.mul_one, Nat.zero_mul, Nat.zero_add]
      rw [nearestEven_of_dvd hq h, min_eq_left hle]
    rw [hround, units_of_subnormal hsub]
    refine ⟨rfl, lt_of_lt_of_le hsub ?_⟩
    rw [hinf]
    exact Nat.le_add_left _ _
  · have hne : U ≠ 0 := by omega
    have hmne : m ≠ 0 := by
      rintro rfl
      omega
    obtain ⟨s, hs⟩ : ∃ s, Nat.log2 U = f.mbits + s := by
      have := (Nat.le_log2 hne).2 hge
      exact ⟨Nat.log2 U - f.mbits, by omega⟩
    have hse : s ≤ e := by
      have hlogm : Nat.log2 m < f.mbits + 1 := (Nat.log2_lt hmne).2 hm
      have hlogU : Nat.log2 U < f.mbits + 1 + e := by
        rw [Nat.log2_lt hne, ← hU, pow_add]
        exact Nat.mul_lt_mul_of_pos_right hm (Nat.two_pow_pos e)
      omega
    have hsmax : s < 2 ^ f.ebits - 2 := by
      have := (Nat.log2_lt hne).2 hlt
      omega
    -- the significand, of exactly `mbits + 1` bits
    obtain ⟨n, hn⟩ : ∃ n, U = n * 2 ^ s := by
      refine ⟨m * 2 ^ (e - s), ?_⟩
      rw [← hU, Nat.mul_assoc, ← pow_add, Nat.sub_add_cancel hse]
    have hbounds := (Nat.log2_eq_iff hne).1 hs
    have hnlo : 2 ^ f.mbits ≤ n := by
      refine Nat.le_of_mul_le_mul_right ?_ (Nat.two_pow_pos s)
      rw [← pow_add, ← hn]
      exact hbounds.1
    have hnhi : n < 2 ^ f.mbits + 2 ^ f.mbits := by
      refine Nat.lt_of_mul_lt_mul_right (a := 2 ^ s) ?_
      rw [← hn, ← Nat.two_mul, ← Nat.pow_succ', ← pow_add, Nat.succ_eq_add_one,
        show f.mbits + 1 + s = f.mbits + s + 1 by omega]
      exact hbounds.2
    have hlt' : s * 2 ^ f.mbits + n < f.infMag := by
      calc s * 2 ^ f.mbits + n < s * 2 ^ f.mbits + (2 ^ f.mbits + 2 ^ f.mbits) := by omega
        _ = (s + 1) * 2 ^ f.mbits + 2 ^ f.mbits := by ring
        _ ≤ (2 ^ f.ebits - 2) * 2 ^ f.mbits + 2 ^ f.mbits := by
          exact Nat.add_le_add_right (Nat.mul_le_mul_right _ (by omega)) _
        _ = f.infMag := hinf.symm
    have hround : f.roundMag p q = s * 2 ^ f.mbits + n := by
      have hshift : f.mbits + s - f.mbits = s := by omega
      simp only [roundMag, hdiv, hs, hshift]
      rw [nearestEven_of_dvd (n := n) (Nat.mul_pos hq (Nat.two_pow_pos s)) (by rw [h, hn]; ring),
        min_eq_left hlt'.le]
    rw [hround]
    refine ⟨?_, hlt'⟩
    have hsplit : s * 2 ^ f.mbits + n = (s + 1) * 2 ^ f.mbits + (n - 2 ^ f.mbits) := by
      rw [Nat.succ_mul]
      omega
    rw [hsplit, units_normal (by omega), hn, Nat.add_sub_cancel' hnlo]

theorem div_le_nearestEven (a b : Nat) : a / b ≤ nearestEven a b := by
  rw [nearestEven]
  split
  · exact le_rfl
  split
  · exact Nat.le_succ _
  · exact Nat.le_add_right _ _

theorem nearestEven_le_succ (a b : Nat) : nearestEven a b ≤ a / b + 1 := by
  rw [nearestEven]
  split
  · exact Nat.le_succ _
  split
  · exact le_rfl
  · exact Nat.add_le_add_left (Nat.lt_succ_iff.1 (Nat.mod_lt _ two_pos)) _

/-- The rounding keeps `mbits + 1` bits, so what it rounds is not zero unless the ratio is small. -/
theorem roundMag_pos {p q : Nat} (hq : 0 < q) (h : q ≤ p) : 0 < f.roundMag p q := by
  have hscale : 0 < 2 ^ f.scale := Nat.two_pow_pos _
  have hunits : 0 < p * 2 ^ f.scale / q := by
    refine Nat.div_pos ?_ hq
    calc q ≤ p := h
      _ = p * 1 := (Nat.mul_one p).symm
      _ ≤ p * 2 ^ f.scale := Nat.mul_le_mul_left p hscale
  have hinf : 0 < f.infMag := by
    rw [infMag]
    exact Nat.mul_pos (Nat.sub_pos_of_lt (Nat.one_lt_two_pow (by have := f.two_le; omega)))
      (Nat.two_pow_pos _)
  rw [roundMag]
  refine lt_min ?_ hinf
  have hshift : 2 ^ (Nat.log2 (p * 2 ^ f.scale / q) - f.mbits) ≤ p * 2 ^ f.scale / q :=
    le_trans (Nat.pow_le_pow_right two_pos (Nat.sub_le _ _))
      (Nat.log2_self_le (Nat.ne_of_gt hunits))
  have hdiv : 0 < p * 2 ^ f.scale / (q * 2 ^ (Nat.log2 (p * 2 ^ f.scale / q) - f.mbits)) := by
    rw [← Nat.div_div_eq_div_mul]
    exact Nat.div_pos hshift (Nat.two_pow_pos _)
  exact lt_of_lt_of_le hdiv (le_trans (div_le_nearestEven _ _) (Nat.le_add_left _ _))

/-- A ratio well below the largest finite value does not become an infinity. -/
theorem roundMag_lt {p q k : Nat} (hq : 0 < q) (h : p < 2 ^ k * q) (hk : k < 2 ^ (f.ebits - 1)) :
    f.roundMag p q < f.infMag := by
  have hmbits : 0 < 2 ^ f.mbits := Nat.two_pow_pos _
  have hhalf : 2 ≤ 2 ^ (f.ebits - 1) := by
    calc 2 = 2 ^ 1 := rfl
      _ ≤ 2 ^ (f.ebits - 1) := Nat.pow_le_pow_right two_pos (by have := f.two_le; omega)
  have hdouble : 2 ^ f.ebits = 2 ^ (f.ebits - 1) * 2 := by
    rw [← pow_succ]
    congr 1
    have := f.two_le
    omega
  generalize hU : p * 2 ^ f.scale / q = U
  have hlt : U < 2 ^ (f.scale + k) := by
    rw [← hU, Nat.div_lt_iff_lt_mul hq, pow_add, Nat.mul_assoc, Nat.mul_comm p]
    exact Nat.mul_lt_mul_of_pos_left h (Nat.two_pow_pos _)
  have hshift : Nat.log2 U - f.mbits + 2 < 2 ^ f.ebits - 1 := by
    rcases Nat.eq_zero_or_pos U with hz | hpos
    · rw [hz, Nat.log2_zero]
      omega
    · have hlog := (Nat.log2_lt (Nat.ne_of_gt hpos)).2 hlt
      rw [scale] at hlog
      omega
  have hbits : U / 2 ^ (Nat.log2 U - f.mbits) < 2 * 2 ^ f.mbits := by
    rw [Nat.div_lt_iff_lt_mul (Nat.two_pow_pos _), ← Nat.pow_succ', ← pow_add]
    rcases Nat.eq_zero_or_pos U with hz | hpos
    · rw [hz]
      exact Nat.two_pow_pos _
    · exact (Nat.log2_lt (Nat.ne_of_gt hpos)).1 (by omega)
  have hnear : nearestEven (p * 2 ^ f.scale) (q * 2 ^ (Nat.log2 U - f.mbits)) ≤
    2 * 2 ^ f.mbits := by
    have hle := nearestEven_le_succ (p * 2 ^ f.scale) (q * 2 ^ (Nat.log2 U - f.mbits))
    rw [← Nat.div_div_eq_div_mul, hU] at hle
    omega
  rw [roundMag, hU]
  refine lt_of_le_of_lt (min_le_left _ _) ?_
  calc (Nat.log2 U - f.mbits) * 2 ^ f.mbits + nearestEven (p * 2 ^ f.scale) (q * 2 ^ (Nat.log2 U - f.mbits))
      ≤ (Nat.log2 U - f.mbits) * 2 ^ f.mbits + 2 * 2 ^ f.mbits := Nat.add_le_add_left hnear _
    _ = (Nat.log2 U - f.mbits + 2) * 2 ^ f.mbits := by ring
    _ < (2 ^ f.ebits - 1) * 2 ^ f.mbits := Nat.mul_lt_mul_of_pos_right hshift hmbits
    _ = f.infMag := rfl

end Format

/-- A bit pattern of the format. -/
structure Binary (f : Format) where
  neg : Bool
  mag : Nat
  mag_lt : mag < 2 ^ (f.ebits + f.mbits)
  deriving DecidableEq

namespace Binary

variable {f g : Format}

theorem ext_iff {x y : Binary f} : x = y ↔ x.neg = y.neg ∧ x.mag = y.mag := by
  cases x
  cases y
  simp

/-- The pattern as an unsigned integer, sign bit first. -/
def bits (x : Binary f) : Nat := (if x.neg then 2 ^ (f.ebits + f.mbits) else 0) + x.mag

def ofBits (f : Format) (n : Nat) : Binary f :=
  ⟨n / 2 ^ (f.ebits + f.mbits) % 2 = 1, n % 2 ^ (f.ebits + f.mbits),
    Nat.mod_lt _ (Nat.two_pow_pos _)⟩

theorem bits_lt (x : Binary f) : x.bits < 2 ^ (f.ebits + f.mbits + 1) := by
  have := x.mag_lt
  rw [bits, pow_succ]
  split <;> omega

@[simp] theorem ofBits_bits (x : Binary f) : ofBits f x.bits = x := by
  have hpos : 0 < 2 ^ (f.ebits + f.mbits) := Nat.two_pow_pos _
  have hmod : x.mag % 2 ^ (f.ebits + f.mbits) = x.mag := Nat.mod_eq_of_lt x.mag_lt
  have hdiv : x.mag / 2 ^ (f.ebits + f.mbits) = 0 := Nat.div_eq_of_lt x.mag_lt
  rw [ext_iff]
  cases hneg : x.neg with
  | false => simp [ofBits, bits, hneg, hmod, hdiv]
  | true => simp [ofBits, bits, hneg, hmod, Nat.add_div_left _ hpos, hdiv]

theorem bits_ofBits {n : Nat} (h : n < 2 ^ (f.ebits + f.mbits + 1)) : (ofBits f n).bits = n := by
  have hpos : 0 < 2 ^ (f.ebits + f.mbits) := Nat.two_pow_pos _
  have hlt : n / 2 ^ (f.ebits + f.mbits) < 2 := by
    rw [Nat.div_lt_iff_lt_mul hpos]
    rwa [pow_succ, Nat.mul_comm] at h
  have hsplit := Nat.div_add_mod n (2 ^ (f.ebits + f.mbits))
  rcases Nat.le_one_iff_eq_zero_or_eq_one.1 (Nat.lt_succ_iff.1 hlt) with h0 | h1
  · rw [h0] at hsplit
    simp only [bits, ofBits, h0]
    simpa using hsplit
  · rw [h1] at hsplit
    simp only [bits, ofBits, h1]
    simpa using hsplit

def isNan (x : Binary f) : Bool := f.infMag < x.mag

def isInf (x : Binary f) : Bool := x.mag = f.infMag

/-- The comparison `==` of the language: false on NaNs, and the two zeros are equal. -/
def eq (x y : Binary f) : Bool :=
  !x.isNan && !y.isNan && (x == y || (x.mag == 0 && y.mag == 0))

def zero (f : Format) (neg : Bool) : Binary f := ⟨neg, 0, Nat.two_pow_pos _⟩

def inf (f : Format) (neg : Bool) : Binary f := ⟨neg, f.infMag, f.infMag_lt⟩

theorem quiet_lt (f : Format) {payload : Nat} (h : payload < 2 ^ f.mbits) :
    f.infMag + (payload ||| 2 ^ (f.mbits - 1)) < 2 ^ (f.ebits + f.mbits) := by
  have hquiet : 2 ^ (f.mbits - 1) < 2 ^ f.mbits :=
    Nat.pow_lt_pow_right one_lt_two (by have := f.one_le; omega)
  rw [← f.infMag_add]
  exact Nat.add_lt_add_left (Nat.or_lt_two_pow h hquiet) _

/-- A quiet NaN: the leading fraction bit is set beside the payload. -/
def nan (f : Format) (neg : Bool) (payload : Nat) : Binary f :=
  ⟨neg, f.infMag + (payload % 2 ^ f.mbits ||| 2 ^ (f.mbits - 1)),
    quiet_lt f (Nat.mod_lt _ (Nat.two_pow_pos _))⟩

def negate (x : Binary f) : Binary f := ⟨!x.neg, x.mag, x.mag_lt⟩

/-- The pattern nearest to the signed ratio `±p / q`. -/
def ofRatio (f : Format) (neg : Bool) (p q : Nat) : Binary f :=
  ⟨neg, f.roundMag p q, lt_of_le_of_lt (f.roundMag_le p q) f.infMag_lt⟩

/-- Conversion between formats: exact where the value is representable, to nearest otherwise. A NaN
becomes quiet and keeps its sign and the leading bits of its payload. -/
def convert (g : Format) (x : Binary f) : Binary g :=
  if x.isNan then nan g x.neg (x.mag % 2 ^ f.mbits * 2 ^ g.mbits / 2 ^ f.mbits)
  else if x.isInf then inf g x.neg
  else ofRatio g x.neg (f.units x.mag) (2 ^ f.scale)

theorem eq_of_eq {x y : Binary f} (h : x.eq y = true) (hy : y.mag ≠ 0) : x = y := by
  simp only [eq, Bool.and_eq_true, Bool.or_eq_true, beq_iff_eq] at h
  rcases h.2 with h | h
  · exact h
  · exact absurd h.2 hy

theorem ofRatio_eq {x : Binary f} {p q : Nat} (hq : 0 < q) (hx : x.mag ≤ f.infMag)
    (h : p * 2 ^ f.scale = f.units x.mag * q) : ofRatio f x.neg p q = x := by
  rw [ext_iff]
  exact ⟨rfl, f.roundMag_of_units hq hx h⟩

@[simp] theorem negate_ofRatio (neg : Bool) (p q : Nat) :
    (ofRatio f neg p q).negate = ofRatio f (!neg) p q := rfl

@[simp] theorem negate_inf (neg : Bool) : (inf f neg).negate = inf f (!neg) := rfl

@[simp] theorem negate_nan (neg : Bool) (payload : Nat) :
    (nan f neg payload).negate = nan f (!neg) payload := rfl

theorem isNan_nan (neg : Bool) (payload : Nat) : (nan f neg payload).isNan = true := by
  have hone : 1 ≤ 2 ^ (f.mbits - 1) := Nat.two_pow_pos _
  have hor : 2 ^ (f.mbits - 1) ≤ payload % 2 ^ f.mbits ||| 2 ^ (f.mbits - 1) := Nat.right_le_or
  have hlt : f.infMag < f.infMag + (payload % 2 ^ f.mbits ||| 2 ^ (f.mbits - 1)) := by omega
  exact decide_eq_true hlt

theorem isNan_of_lt {x : Binary f} (h : x.mag < f.infMag) : x.isNan = false := by
  simp only [isNan, decide_eq_false_iff_not, not_lt]
  exact h.le

theorem isInf_of_lt {x : Binary f} (h : x.mag < f.infMag) : x.isInf = false := by
  simp only [isInf, decide_eq_false_iff_not]
  exact h.ne

theorem eq_inf {x : Binary f} (h : x.isInf = true) : x = inf f x.neg := by
  rw [ext_iff]
  exact ⟨rfl, of_decide_eq_true h⟩

theorem lt_infMag {x : Binary f} (hnan : x.isNan = false) (hinf : x.isInf = false) :
    x.mag < f.infMag := by
  simp only [isNan, isInf, decide_eq_false_iff_not, not_lt] at hnan hinf
  omega

theorem convert_of_lt {x : Binary f} (h : x.mag < f.infMag) :
    x.convert g = ofRatio g x.neg (f.units x.mag) (2 ^ f.scale) := by
  rw [convert, isNan_of_lt h, isInf_of_lt h]
  simp

@[simp] theorem convert_inf (neg : Bool) : (inf f neg).convert g = inf g neg := by
  have hnan : (inf f neg).isNan = false := by simp [isNan, inf]
  have hinf : (inf f neg).isInf = true := by simp [isInf, inf]
  rw [convert, hnan, hinf]
  rfl

theorem isNan_convert {x : Binary f} (h : x.isNan = false) : (x.convert g).isNan = false := by
  have hle : (x.convert g).mag ≤ g.infMag := by
    rw [convert, h, if_neg Bool.false_ne_true]
    split
    · exact le_rfl
    · exact g.roundMag_le _ _
  simp only [isNan, decide_eq_false_iff_not, not_lt]
  exact hle

end Binary

/-- A finite magnitude has `mbits + 1` significant bits. -/
theorem Format.units_eq {f : Format} {mag : Nat} (h : mag < f.infMag) :
    ∃ m e, m < 2 ^ (f.mbits + 1) ∧ e ≤ 2 ^ f.ebits - 3 ∧ f.units mag = m * 2 ^ e := by
  have hebits : 4 ≤ 2 ^ f.ebits := Nat.pow_le_pow_right (n := 2) (by omega) f.two_le
  have hpos : 0 < 2 ^ f.mbits := Nat.two_pow_pos _
  rcases f.mag_cases mag with hsub | ⟨e, m, hm, rfl⟩
  · refine ⟨mag, 0, ?_, Nat.zero_le _, by rw [units_of_subnormal hsub, pow_zero, Nat.mul_one]⟩
    rw [pow_succ]
    omega
  · refine ⟨2 ^ f.mbits + m, e, by rw [pow_succ]; omega, ?_, units_normal hm⟩
    have hlt : (e + 1) * 2 ^ f.mbits < (2 ^ f.ebits - 1) * 2 ^ f.mbits :=
      lt_of_le_of_lt (Nat.le_add_right _ _) h
    have := Nat.lt_of_mul_lt_mul_right hlt
    omega

/-- The patterns of two formats are one number, or one infinity. -/
def Binary.Same {f g : Format} (x : Binary f) (y : Binary g) : Prop :=
  x.neg = y.neg ∧ (x.isInf = true ∧ y.isInf = true ∨
    x.mag < f.infMag ∧ y.mag < g.infMag ∧ f.units x.mag * 2 ^ g.scale = g.units y.mag * 2 ^ f.scale)

section Widen

variable {f g : Format} (hm : f.mbits ≤ g.mbits) (hscale : f.scale ≤ g.scale)
  (hrange : 2 ^ f.ebits + g.scale ≤ 2 ^ g.ebits + f.scale)

include hm hscale hrange

/-- Widening to a format that has room for every value is exact. -/
theorem Binary.same_convert {x : Binary f} (hx : x.isNan = false) : x.Same (x.convert g) := by
  cases hinf : x.isInf with
  | true =>
    have hinf' : (Binary.inf g x.neg).isInf = true := by simp [isInf, inf]
    refine ⟨?_, .inl ⟨hinf, ?_⟩⟩
    · rw [eq_inf hinf, convert_inf]
      rfl
    · rw [eq_inf hinf, convert_inf]
      exact hinf'
  | false =>
    have hfin := lt_infMag hx hinf
    obtain ⟨m, e, hmlt, he, hunits⟩ := f.units_eq hfin
    have hebits : 4 ≤ 2 ^ f.ebits := Nat.pow_le_pow_right (n := 2) (by omega) f.two_le
    obtain ⟨d, hd⟩ := Nat.exists_eq_add_of_le hscale
    have hmlt' : m < 2 ^ (g.mbits + 1) :=
      lt_of_lt_of_le hmlt (Nat.pow_le_pow_right (by omega) (by omega))
    have hexact : f.units x.mag * 2 ^ g.scale = m * 2 ^ (e + d) * 2 ^ f.scale := by
      rw [hunits, hd, pow_add, pow_add]
      ring
    have hlt : m * 2 ^ (e + d) < 2 ^ (g.mbits + (2 ^ g.ebits - 2)) := by
      calc m * 2 ^ (e + d) < 2 ^ (f.mbits + 1) * 2 ^ (e + d) :=
            Nat.mul_lt_mul_of_pos_right hmlt (Nat.two_pow_pos _)
        _ = 2 ^ (f.mbits + 1 + (e + d)) := (pow_add _ _ _).symm
        _ ≤ 2 ^ (g.mbits + (2 ^ g.ebits - 2)) := Nat.pow_le_pow_right (by omega) (by omega)
    obtain ⟨hg, hgfin⟩ := g.units_roundMag (Nat.two_pow_pos _) hmlt' hlt hexact
    rw [convert_of_lt hfin]
    exact ⟨rfl, .inr ⟨hfin, hgfin, hexact.trans (congrArg (· * 2 ^ f.scale) hg.symm)⟩⟩

/-- Widening and narrowing again changes nothing. -/
theorem Binary.convert_convert {x : Binary f} (hx : x.isNan = false) :
    (x.convert g).convert f = x := by
  obtain ⟨hneg, ⟨hinf, -⟩ | ⟨hfin, hgfin, hunits⟩⟩ := same_convert hm hscale hrange hx
  · rw [eq_inf hinf, convert_inf, convert_inf]
  · rw [convert_of_lt hgfin, ← hneg]
    exact ofRatio_eq (Nat.two_pow_pos _) hfin.le hunits.symm

/-- The pattern of the same number in the wider format is the converted one. -/
theorem Binary.same_iff {x : Binary f} {y : Binary g} :
    x.Same y ↔ x.isNan = false ∧ x.convert g = y := by
  constructor
  · rintro ⟨hneg, ⟨hinf, hinf'⟩ | ⟨hfin, hgfin, hunits⟩⟩
    · have hnan : (inf f x.neg).isNan = false := by simp [isNan, inf]
      rw [eq_inf hinf, eq_inf hinf', convert_inf, hneg] at *
      exact ⟨hnan, rfl⟩
    · refine ⟨isNan_of_lt hfin, ?_⟩
      rw [convert_of_lt hfin, hneg]
      exact ofRatio_eq (Nat.two_pow_pos _) hgfin.le hunits
  · rintro ⟨hx, rfl⟩
    exact same_convert hm hscale hrange hx

end Widen

end Ieee
