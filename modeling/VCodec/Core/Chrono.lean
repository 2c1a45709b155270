import VCodec.Core.Doubles
import VCodec.Core.Types

/-!
# Clocks

The conversions of `std::chrono` between a count of ticks in 64 bits and seconds, in an integer or
in a double. `ofReal_iff` says for which doubles the ticks are the exact ones, and `millis_iff`
which counts of milliseconds survive as seconds in a double.
-/

namespace VCodec

open Ieee

/-- `duration_cast` between 64-bit integers: the product is formed first. -/
def castInt (num den : Nat) (i : Int) : Option Int := (toInt64? (i * num)).map (·.tdiv den)

/-- `duration_cast` in doubles. -/
def castDouble (num den : Nat) (x : Double) : Double :=
  let y := if num = 1 then x else mulNat x num
  if den = 1 then y else divNat y den

namespace Duration

/-- The ticks of whole seconds, and of seconds in a double. -/
def ofSeconds (d : Duration) (i : Int) : Option Int := castInt d.den d.num i

def ofReal (d : Duration) (x : Double) : Option Int := truncInt64 (castDouble d.den d.num x)

/-- The seconds of a count of ticks. -/
def toSeconds (d : Duration) (c : Int) : Option Int := castInt d.num d.den c

def toReal (d : Duration) (c : Int) : Double := castDouble d.num d.den (nearestDouble c)

end Duration

/-- The program's clocks count in 64 bits, and convert where the conversion is defined. -/
structure Env.Clocks (env : Env) : Prop where
  ofSeconds : ∀ (d : Duration) (i c : Int), d.integral = true → d.ofSeconds i = some c →
    env.timeOfSeconds d i = .int c
  ofReal : ∀ (d : Duration) (x : Double) (c : Int), d.integral = true → d.ofReal x = some c →
    env.timeOfReal d x = .int c
  toSeconds : ∀ (d : Duration) (c i : Int), d.integral = true → d.toSeconds c = some i →
    env.secondsOfTime d (.int c) = i
  toReal : ∀ (d : Duration) (c : Int), d.integral = true → env.realOfTime d (.int c) = d.toReal c

/-- A program with such clocks, where an undefined conversion gives zero. -/
def clockEnv : Env :=
  { (default : Env) with
    timeOfSeconds := fun d i => .int ((d.ofSeconds i).getD 0)
    timeOfReal := fun d x => .int ((d.ofReal x).getD 0)
    secondsOfTime := fun d v =>
      match v with
      | .int c => (d.toSeconds c).getD 0
      | _ => 0
    realOfTime := fun d v =>
      match v with
      | .int c => d.toReal c
      | _ => .zero doubleFormat false }

theorem clockEnv_clocks : clockEnv.Clocks where
  ofSeconds _ _ _ _ h := congrArg (fun o : Option Int => Val.int (o.getD 0)) h
  ofReal _ _ _ _ h := congrArg (fun o : Option Int => Val.int (o.getD 0)) h
  toSeconds _ _ _ _ h := congrArg (fun o : Option Int => o.getD 0) h
  toReal _ _ _ := rfl

/-! ### Ticks of a second -/

variable {d : Duration}

theorem ofSeconds_eq_some (hd : d.num = 1) {i c : Int} :
    d.ofSeconds i = some c ↔ (-2 ^ 63 ≤ i * d.den ∧ i * d.den < 2 ^ 63) ∧ c = i * d.den := by
  rw [Duration.ofSeconds, castInt, hd, Option.map_eq_some_iff]
  constructor
  · rintro ⟨p, hp, rfl⟩
    obtain ⟨hrange, rfl⟩ := toInt64?_eq_some.1 hp
    exact ⟨hrange, Int.tdiv_one _⟩
  · rintro ⟨hrange, rfl⟩
    exact ⟨_, toInt64?_eq_some.2 ⟨hrange, rfl⟩, Int.tdiv_one _⟩

theorem mulNat_one {x : Double} : mulNat x 1 = x := by
  rw [mulNat]
  split
  · rename_i hfin
    rw [Nat.mul_one]
    exact Binary.ofRatio_eq (Nat.two_pow_pos _) hfin.le rfl
  · rfl

theorem ofReal_eq (hd : d.num = 1) (x : Double) : d.ofReal x = truncInt64 (mulNat x d.den) := by
  rw [Duration.ofReal, castDouble, hd, if_pos rfl]
  split
  · rename_i hone
    rw [hone, mulNat_one]
  · rfl

/-- The ticks are the exact ones, truncated, for the finite doubles whose product is not rounded
over an integer and is in range. -/
theorem ofReal_iff (hd : d.num = 1) {x : Double} :
    (x.mag < doubleFormat.infMag ∧ d.ofReal x = some (truncProduct x d.den)) ↔
      x.mag < doubleFormat.infMag ∧ ProductKept x d.den ∧ -2 ^ 63 ≤ truncProduct x d.den ∧
        truncProduct x d.den < 2 ^ 63 := by
  rw [ofReal_eq hd]
  exact and_congr_right fun hfin => truncInt64_mulNat d.den hfin

/-! ### Milliseconds -/

def milliseconds : Duration := ⟨1, 1000, true⟩

/-- The seconds lie just below a power of two where the milliseconds do, so their step is one part
in 512 of the other, not in 1024, and the error of the quotient grows to more than half a step. -/
def MillisLost (c : Int) : Prop :=
  let n := c.natAbs
  let m := n * 2 ^ (61 - Nat.log2 n) % 1000
  1000 * 2 ^ Nat.log2 n ≤ 512 * n ∧ 256 < m ∧ m < 500

instance (c : Int) : Decidable (MillisLost c) := inferInstanceAs (Decidable (_ ∧ _))

/-- The quotient by 1000, in a scale `2 ^ t` where it has the significant bits of a double. -/
theorem roundUnits_thousand
    {n t s : Nat} (hlo : 1000 * 2 ^ 52 ≤ n * 2 ^ t) (hhi : n * 2 ^ t < 1000 * 2 ^ 53) :
    doubleFormat.roundUnits (n * 2 ^ (s + t)) 1000 = nearestEven (n * 2 ^ t) 1000 * 2 ^ s := by
  have hscaled : n * 2 ^ (s + t) = n * 2 ^ t * 2 ^ s := by ring
  have hleads : doubleFormat.Leads (n * 2 ^ t * 2 ^ s) 1000 s := by
    have hmbits : doubleFormat.mbits = 52 := rfl
    constructor
    · right
      rw [hmbits, ← Nat.mul_assoc]
      exact Nat.mul_le_mul_right _ hlo
    · rw [hmbits, ← Nat.two_mul, ← pow_succ', ← Nat.mul_assoc]
      exact Nat.mul_lt_mul_of_pos_right hhi (Nat.two_pow_pos s)
  rw [hscaled, Format.roundUnits_of_leads (by decide) hleads,
    nearestEven_mul_right _ _ (Nat.two_pow_pos s)]

/-- How far the product is from the milliseconds: less than half a thousandth part of the scale, for
no tie is possible. -/
theorem thousand_mul {a : Nat} :
    (1024 * a % 1000 < 500 ∧ nearestEven (1024 * a) 1000 * 1000 + 1024 * a % 1000 = 1024 * a) ∨
      (500 < 1024 * a % 1000 ∧ nearestEven (1024 * a) 1000 * 1000 + 1024 * a % 1000 =
        1024 * a + 1000) := by
  have hne : 1024 * a % 1000 ≠ 500 := by omega
  rcases nearestEven_cases (1024 * a) 1000 with ⟨heq, h⟩ | ⟨heq, h⟩
  · rw [heq]
    omega
  · rw [heq]
    omega

/-- The product by 1000 again. -/
theorem roundUnits_millis
    {a : Nat} (hlo : 1000 * 2 ^ 52 ≤ 1024 * a) (hhi : 1024 * a < 1000 * 2 ^ 53) :
    ∃ e, e ≤ 512 ∧ doubleFormat.roundUnits (nearestEven (1024 * a) 1000 * 1000) 1 =
      if 1024 * a < 2 ^ 62 ∧ 256 < 1024 * a % 1000 ∧
        1024 * a % 1000 < 500 then 1024 * a - 512 else 1024 * a + e := by
  have hmul := thousand_mul (a := a)
  generalize nearestEven (1024 * a) 1000 * 1000 = m at hmul
  have hr := Nat.mod_lt (1024 * a) (show 0 < 1000 by decide)
  rcases Nat.lt_or_ge (1024 * a) (2 ^ 62) with hlow | hhigh
  · have hround : doubleFormat.roundUnits m 1 = nearestEven m (2 ^ 9) * 2 ^ 9 :=
      Format.roundUnits_of_le (.inr (show 2 ^ 52 * 2 ^ 9 ≤ m by omega))
        (show m ≤ (2 ^ 52 + 2 ^ 52) * 2 ^ 9 by omega)
    have hnear := nearestEven_cases m (2 ^ 9)
    rw [hround]
    generalize nearestEven m (2 ^ 9) = n at hnear
    rcases hmul with ⟨hdown, hm⟩ | ⟨hup, hm⟩
    · by_cases hlost : 256 < 1024 * a % 1000
      · exact ⟨0, by decide, by rw [if_pos ⟨hlow, hlost, hdown⟩]; omega⟩
      · exact ⟨0, by decide, by rw [if_neg fun h => hlost h.2.1]; omega⟩
    · refine ⟨n * 2 ^ 9 - 1024 * a, by omega, ?_⟩
      rw [if_neg fun h => absurd h.2.2 (by omega)]
      omega
  · -- the step is twice as large, and the error below half of it
    have hround : doubleFormat.roundUnits m 1 = nearestEven m (2 ^ 10) * 2 ^ 10 :=
      Format.roundUnits_of_le (.inr (show 2 ^ 52 * 2 ^ 10 ≤ m by omega))
        (show m ≤ (2 ^ 52 + 2 ^ 52) * 2 ^ 10 by omega)
    have hnear := nearestEven_cases m (2 ^ 10)
    rw [hround]
    generalize nearestEven m (2 ^ 10) = n at hnear
    refine ⟨0, by decide, ?_⟩
    rw [if_neg fun h => absurd h.1 (by omega)]
    omega

/-- The scale in which the seconds have the significant bits of a double. -/
theorem millis_scale {c : Int} (hc : c ≠ 0) (hlt : c.natAbs < 2 ^ 50) :
    ∃ t, 12 ≤ t ∧ t ≤ 62 ∧ 1000 * 2 ^ 52 ≤ c.natAbs * 2 ^ t ∧ c.natAbs * 2 ^ t < 1000 * 2 ^ 53 ∧
      (c.natAbs * 2 ^ t < 2 ^ 62 ∧ 256 < c.natAbs * 2 ^ t % 1000 ∧ c.natAbs * 2 ^ t % 1000 < 500 ↔
        MillisLost c) := by
  have hn : c.natAbs ≠ 0 := Int.natAbs_ne_zero.2 hc
  have hlog : Nat.log2 c.natAbs < 50 := (Nat.log2_lt hn).2 hlt
  obtain ⟨hlo, hhi⟩ := (Nat.log2_eq_iff hn).1 rfl
  rw [MillisLost]
  generalize c.natAbs = n at *
  generalize Nat.log2 n = L at *
  have hscale : ∀ k t, 2 ^ L * 2 ^ t * k = 2 ^ (L + t) * k := fun k t => by rw [pow_add]
  by_cases hnear : 1000 * 2 ^ L ≤ 512 * n
  · have hpow : 2 ^ L * 2 ^ (61 - L) = 2 ^ 61 := by rw [← pow_add, Nat.add_sub_cancel' (by omega)]
    have hlow := Nat.mul_le_mul_right (2 ^ (61 - L)) hnear
    have hhigh : n * 2 ^ (61 - L) < 2 ^ 62 := by
      calc n * 2 ^ (61 - L) < 2 ^ (L + 1) * 2 ^ (61 - L) :=
        Nat.mul_lt_mul_of_pos_right hhi (Nat.two_pow_pos _)
        _ = 2 * (2 ^ L * 2 ^ (61 - L)) := by ring
        _ = 2 ^ 62 := by rw [hpow]; rfl
    rw [Nat.mul_assoc, hpow, Nat.mul_assoc] at hlow
    refine ⟨61 - L, by omega, by omega, by omega, by omega, ?_⟩
    rw [and_iff_right hhigh, and_iff_right hnear]
  · have hpow : 2 ^ L * 2 ^ (62 - L) = 2 ^ 62 := by rw [← pow_add, Nat.add_sub_cancel' (by omega)]
    have hhigh := Nat.mul_lt_mul_of_pos_right (not_le.1 hnear) (Nat.two_pow_pos (62 - L))
    have hlow := Nat.mul_le_mul_right (2 ^ (62 - L)) hlo
    rw [Nat.mul_assoc 1000, hpow, Nat.mul_assoc] at hhigh
    rw [hpow] at hlow
    refine ⟨62 - L, by omega, by omega, by omega, by omega, ?_⟩
    exact iff_of_false (fun h => absurd h.1 (by omega)) fun h => hnear h.1

/-- The seconds, as the double counts them. -/
def millisUnits (c : Int) : Nat := doubleFormat.roundUnits (c.natAbs * 2 ^ doubleFormat.scale) 1000

/-- The seconds are a rounded quotient in some scale that is fine enough for milliseconds. -/
theorem millisUnits_eq {c : Int} (hc : c ≠ 0) (hlt : c.natAbs < 2 ^ 50) :
    ∃ a s t, 12 ≤ t ∧ s + t = doubleFormat.scale ∧ c.natAbs * 2 ^ t = 1024 * a ∧
      1000 * 2 ^ 52 ≤ 1024 * a ∧ 1024 * a < 1000 * 2 ^ 53 ∧
      millisUnits c = nearestEven (1024 * a) 1000 * 2 ^ s ∧
      (1024 * a < 2 ^ 62 ∧ 256 < 1024 * a % 1000 ∧ 1024 * a % 1000 < 500 ↔ MillisLost c) := by
  obtain ⟨t, hmin, hmax, hlo, hhi, hlost⟩ := millis_scale hc hlt
  have hle : t ≤ doubleFormat.scale := le_trans hmax (by decide)
  obtain ⟨s, hs⟩ := Nat.exists_eq_add_of_le' hle
  obtain ⟨u, rfl⟩ : ∃ u, t = 10 + u := ⟨t - 10, by omega⟩
  have heq : c.natAbs * 2 ^ (10 + u) = 1024 * (c.natAbs * 2 ^ u) := by ring
  rw [heq] at hlo hhi hlost
  refine ⟨c.natAbs * 2 ^ u, s, 10 + u, hmin, hs.symm, heq, hlo, hhi, ?_, hlost⟩
  rw [← heq, millisUnits, hs, roundUnits_thousand (heq ▸ hlo) (heq ▸ hhi)]

theorem millisUnits_zero : millisUnits 0 = 0 := by
  rw [millisUnits, Int.natAbs_zero, Nat.zero_mul, Format.roundUnits, Nat.zero_div, Nat.log2_zero,
    Nat.zero_sub]
  rfl

/-- The product by 1000 leaves the milliseconds in their place, unless they are lost. -/
theorem millis_product {c : Int} (hlt : c.natAbs < 2 ^ 50) :
    doubleFormat.roundUnits (millisUnits c * 1000) 1 / 2 ^ doubleFormat.scale = c.natAbs ↔
      ¬ MillisLost c := by
  by_cases hc : c = 0
  · subst hc
    rw [millisUnits_zero, Nat.zero_mul, Format.roundUnits_of_lt (by positivity), Nat.zero_div]
    exact iff_of_true rfl (by decide)
  obtain ⟨a, s, t, hmin, hscale, heq, hlo, hhi, hunits, hlost⟩ := millisUnits_eq hc hlt
  obtain ⟨e, he, hround⟩ := roundUnits_millis hlo hhi
  have hpow : 2 ^ 12 ≤ 2 ^ t := Nat.pow_le_pow_right two_pos hmin
  rw [hunits, Nat.mul_right_comm, Format.roundUnits_mul_two_pow, ← hscale, pow_add,
    Nat.mul_comm (2 ^ s),
    Nat.mul_div_mul_right _ _ (Nat.two_pow_pos s), hround, ← hlost]
  generalize 2 ^ t = g at heq hpow
  split
  · rename_i h
    refine iff_of_false (fun hdiv => ?_) (not_not.2 h)
    have hle := Nat.div_mul_le_self (1024 * a - 512) g
    rw [hdiv, heq] at hle
    omega
  · rename_i h
    refine iff_of_true (Nat.div_eq_of_lt_le ?_ ?_) h
    · omega
    · rw [Nat.add_mul _ 1 g, Nat.one_mul]
      omega

/-- The seconds are whole where the milliseconds are a multiple of 1000. -/
theorem millis_whole {c : Int} (hlt : c.natAbs < 2 ^ 50) :
    (millisUnits c % 2 ^ doubleFormat.scale = 0 ↔ c.natAbs % 1000 = 0) ∧
      millisUnits c * 1000 < 2 ^ 51 * 2 ^ doubleFormat.scale := by
  by_cases hc : c = 0
  · subst hc
    rw [millisUnits_zero, Nat.zero_mul]
    exact ⟨iff_of_true (Nat.zero_mod _) rfl, Nat.mul_pos (by decide) (Nat.two_pow_pos _)⟩
  obtain ⟨a, s, t, hmin, hscale, heq, hlo, hhi, hunits, hlost⟩ := millisUnits_eq hc hlt
  have hmul := thousand_mul (a := a)
  have hpow : 2 ^ 12 ≤ 2 ^ t := Nat.pow_le_pow_right two_pos hmin
  have hs : 0 < 2 ^ s := Nat.two_pow_pos s
  rw [hunits, ← hscale, pow_add, Nat.mul_comm (2 ^ s), Nat.mul_mod_mul_right]
  generalize nearestEven (1024 * a) 1000 = q at hmul
  generalize 2 ^ t = g at heq hpow
  generalize c.natAbs = n at heq hlt
  constructor
  · rw [Nat.mul_eq_zero, or_iff_left hs.ne']
    constructor
    · intro hwhole
      obtain ⟨m, rfl⟩ := Nat.dvd_of_mod_eq_zero hwhole
      rw [← heq, Nat.mul_comm n, Nat.mul_assoc g] at hmul
      -- the two multiples of the scale are nearer to each other than the scale
      have hnear : ∀ x y : Nat, g * x < g * y + g → x ≤ y := fun x y h => by
        rw [← Nat.mul_succ] at h
        exact Nat.lt_succ_iff.1 (Nat.lt_of_mul_lt_mul_left h)
      have h₁ := hnear (m * 1000) n (by omega)
      have h₂ := hnear n (m * 1000) (by omega)
      omega
    · intro hwhole
      obtain ⟨m, rfl⟩ := Nat.dvd_of_mod_eq_zero hwhole
      rw [← heq, Nat.mul_assoc] at hmul
      obtain rfl : q = m * g := by omega
      exact Nat.mul_mod_left m g
  · have hbound : q * 1000 < 2 ^ 51 * g := by
      have hng : n * g + g ≤ 2 ^ 50 * g := by
        rw [← Nat.succ_mul]
        exact Nat.mul_le_mul_right g hlt
      omega
    calc q * 2 ^ s * 1000 = q * 1000 * 2 ^ s := Nat.mul_right_comm _ _ _
      _ < 2 ^ 51 * g * 2 ^ s := Nat.mul_lt_mul_of_pos_right hbound hs
      _ = 2 ^ 51 * (g * 2 ^ s) := Nat.mul_assoc _ _ _

/-- The double of the seconds. -/
theorem toReal_millis {c : Int} (hlt : c.natAbs < 2 ^ 50) :
    (milliseconds.toReal c).neg = decide (c < 0) ∧
      (milliseconds.toReal c).mag < doubleFormat.infMag ∧
      doubleFormat.units (milliseconds.toReal c).mag = millisUnits c := by
  have hpos : 0 < 2 ^ doubleFormat.scale := Nat.two_pow_pos _
  obtain ⟨hfin, hunits⟩ := units_nearestDouble (show c.natAbs < 2 ^ 53 by omega)
  have hreal : milliseconds.toReal c =
      .ofRatio doubleFormat (decide (c < 0)) (c.natAbs * 2 ^ doubleFormat.scale)
        (1000 * 2 ^ doubleFormat.scale) := by
    rw [Duration.toReal, castDouble, milliseconds, if_pos rfl, if_neg (by decide), divNat,
      if_pos hfin, hunits,
      Nat.mul_comm (2 ^ doubleFormat.scale) 1000]
    rfl
  have hmag : (milliseconds.toReal c).mag = doubleFormat.roundMag c.natAbs 1000 := by
    rw [hreal, Format.ofRatio_mag, Format.roundMag_mul_right _ _ hpos]
  have hsmall : doubleFormat.roundMag c.natAbs 1000 < doubleFormat.infMag :=
    Format.roundMag_lt (k := 64) (by decide) (by omega) (by decide)
  refine ⟨by rw [hreal, Format.ofRatio_neg], hmag ▸ hsmall, ?_⟩
  rw [hmag, Format.units_roundMag_eq (by decide) hsmall, millisUnits]

/-- What a multiple of 1000 gives is exact. -/
theorem millisUnits_whole {c : Int} (hlt : c.natAbs < 2 ^ 50) (hwhole : c.natAbs % 1000 = 0) :
    millisUnits c = c.natAbs / 1000 * 2 ^ doubleFormat.scale := by
  have hsplit : c.natAbs * 2 ^ doubleFormat.scale =
    c.natAbs / 1000 * 2 ^ doubleFormat.scale * 1000 := by
    rw [Nat.mul_right_comm, Nat.div_mul_cancel (Nat.dvd_of_mod_eq_zero hwhole)]
  have hscaled := doubleFormat.roundUnits_mul_right (c.natAbs / 1000 * 2 ^ doubleFormat.scale) 1
    (c := 1000) (by decide)
  rw [Nat.one_mul] at hscaled
  rw [millisUnits, hsplit, hscaled, Format.roundUnits_mul_two_pow,
    Format.roundUnits_of_lt (show c.natAbs / 1000 < 2 ^ 52 + 2 ^ 52 by omega)]

/-- The milliseconds that come back are the ones that were written, unless they are lost. -/
theorem ofReal_millis {c : Int} (hlt : c.natAbs < 2 ^ 50) :
    ∃ c', milliseconds.ofReal (milliseconds.toReal c) = some c' ∧ (c' = c ↔ ¬ MillisLost c) := by
  have hpos : 0 < 2 ^ doubleFormat.scale := Nat.two_pow_pos _
  obtain ⟨hneg, hfin, hunits⟩ := toReal_millis hlt
  have hroom := (millis_whole hlt).2
  have hsmall : doubleFormat.roundMag (millisUnits c * 1000) (2 ^ doubleFormat.scale) <
    doubleFormat.infMag := by
    refine Format.roundMag_lt (k := 64) hpos (lt_of_lt_of_le hroom ?_) (by decide)
    exact Nat.mul_le_mul_right _ (by decide)
  have hle := doubleFormat.roundUnits_le (millisUnits c * 1000)
  refine ⟨signed (decide (c < 0))
    (doubleFormat.roundUnits (millisUnits c * 1000) 1 / 2 ^ doubleFormat.scale), ?_, ?_⟩
  · rw [ofReal_eq rfl, show milliseconds.den = 1000 from rfl, mulNat, if_pos hfin, hunits, hneg,
      truncInt64, Format.ofRatio_mag,
      if_pos hsmall, Format.ofRatio_neg, Format.units_roundMag_units hsmall]
    refine toInt64?_eq_some.2 ⟨signed_range.2 (.inl ?_), rfl⟩
    rw [Nat.div_lt_iff_lt_mul hpos]
    calc doubleFormat.roundUnits (millisUnits c * 1000) 1 ≤ 2 * (millisUnits c * 1000) := hle
      _ < 2 * (2 ^ 51 * 2 ^ doubleFormat.scale) := by omega
      _ = 2 * 2 ^ 51 * 2 ^ doubleFormat.scale := (Nat.mul_assoc _ _ _).symm
      _ ≤ 2 ^ 63 * 2 ^ doubleFormat.scale := Nat.mul_le_mul_right _ (by decide)
  · rw [← millis_product hlt]
    have hinj : signed (decide (c < 0))
      (doubleFormat.roundUnits (millisUnits c * 1000) 1 / 2 ^ doubleFormat.scale) =
        signed (decide (c < 0)) c.natAbs ↔ _ := signed_inj
    rwa [signed_natAbs] at hinj

end VCodec
