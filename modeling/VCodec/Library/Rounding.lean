import VCodec.Library.Ieee

/-!
# Rounding to nearest

`roundMag` gives the finite magnitude nearest to a ratio, and of two that are equally near the even
one. `Rounds` says so by the two midpoints around a magnitude: no ratio rounds to two magnitudes, so
a rounding is known from the midpoints it lies between.
-/

namespace Ieee

/-! ### The nearest integer -/

theorem nearestEven_spec (a : Nat) {b : Nat} (hb : 0 < b) :
    (2 * a ≤ (2 * nearestEven a b + 1) * b ∧
      (2 * a = (2 * nearestEven a b + 1) * b → nearestEven a b % 2 = 0)) ∧
    ((2 * nearestEven a b) * b ≤ 2 * a + b ∧
      ((2 * nearestEven a b) * b = 2 * a + b → nearestEven a b % 2 = 0)) := by
  have hmod := Nat.mod_lt a hb
  have hsplit := Nat.div_add_mod a b
  have hk : ∀ k, (2 * k + 1) * b = 2 * (b * k) + b := fun k => by ring
  have hk' : ∀ k, (2 * k) * b = 2 * (b * k) := fun k => by ring
  rw [hk, hk']
  rw [nearestEven]
  split
  · refine ⟨⟨?_, fun h => ?_⟩, ⟨?_, fun h => ?_⟩⟩ <;> omega
  split
  · rw [Nat.mul_add, Nat.mul_one]
    refine ⟨⟨?_, fun h => ?_⟩, ⟨?_, fun h => ?_⟩⟩ <;> omega
  · rcases Nat.mod_two_eq_zero_or_one (a / b) with heven | hodd
    · rw [heven, Nat.add_zero]
      refine ⟨⟨?_, fun h => ?_⟩, ⟨?_, fun h => ?_⟩⟩ <;> omega
    · rw [hodd, Nat.mul_add, Nat.mul_one]
      refine ⟨⟨?_, fun h => ?_⟩, ⟨?_, fun h => ?_⟩⟩ <;> omega

/-- Scaling both sides of a ratio changes nothing. -/
theorem nearestEven_mul_right (a b : Nat) {c : Nat} (hc : 0 < c) :
    nearestEven (a * c) (b * c) = nearestEven a b := by
  have hlt : ∀ x y : Nat, x * c < y * c ↔ x < y := fun x y => Nat.mul_lt_mul_right hc
  simp only [nearestEven, Nat.mul_div_mul_right _ _ hc, Nat.mul_mod_mul_right, ← Nat.mul_assoc, hlt]

theorem nearestEven_of_lt {a b : Nat} (h : 2 * (a % b) < b) : nearestEven a b = a / b := if_pos h

theorem nearestEven_of_gt {a b : Nat} (h : b < 2 * (a % b)) : nearestEven a b = a / b + 1 := by
  rw [nearestEven, if_neg (by omega), if_pos h]

theorem nearestEven_of_tie {a b : Nat} (h : 2 * (a % b) = b) :
    nearestEven a b = a / b + a / b % 2 := by
  rw [nearestEven, if_neg (by omega), if_neg (by omega)]

/-- Whole multiples of the denominator stay outside, if they are even. -/
theorem nearestEven_add_mul (a k : Nat) {b : Nat} (hb : 0 < b) :
    nearestEven (a + 2 * k * b) b = nearestEven a b + 2 * k := by
  have hmod : (a / b + 2 * k) % 2 = a / b % 2 := by omega
  simp only [nearestEven, Nat.add_mul_mod_self_right, Nat.add_mul_div_right _ _ hb, hmod]
  split
  · rfl
  split <;> omega

/-- Rounding to multiples of `g` first spoils the rounding to multiples of `2 * k * g` where it
reaches a midpoint that the ratio lies beside, and the tie then goes the other way. -/
def TieLost (a g k : Nat) : Prop :=
  (a / g % (2 * k) + 1 = k ∧ g ≤ 2 * (a % g) ∧ a / g / (2 * k) % 2 = 1) ∨
    (a / g % (2 * k) = k ∧ 0 < a % g ∧ 2 * (a % g) ≤ g ∧ a / g / (2 * k) % 2 = 0)

theorem nearestEven_twice (a : Nat) {g k : Nat} (hg : 0 < g) (hk : 0 < k) (heven : k % 2 = 0) :
    nearestEven (nearestEven a g * g) (2 * k * g) = nearestEven a (2 * k * g) ↔
      ¬ TieLost a g k := by
  rw [nearestEven_mul_right _ _ hg]
  have hdiv : a / (2 * k * g) = a / g / (2 * k) := by
    rw [Nat.mul_comm (2 * k) g, Nat.div_div_eq_div_mul]
  have hmod : a % (2 * k * g) = a % g + g * (a / g % (2 * k)) := by
    rw [Nat.mul_comm (2 * k) g, Nat.mod_mul]
  have hi := Nat.mod_lt a hg
  have hj := Nat.mod_lt (a / g) (show 0 < 2 * k by omega)
  have hsplit := Nat.div_add_mod (a / g) (2 * k)
  rw [TieLost]
  generalize hm : a / g / (2 * k) = m at hdiv hsplit ⊢
  generalize hjj : a / g % (2 * k) = j at hmod hj hsplit ⊢
  generalize hii : a % g = i at hmod hi ⊢
  -- rounding once: up if `j` is not below `k`
  have honce : nearestEven a (2 * k * g) = if j < k then m else if k < j ∨
    0 < i then m + 1 else m + m % 2 := by
    have hjg : ∀ x y : Nat, x < y → g * x + g ≤ g * y := fun x y h => by
      rw [← Nat.mul_succ]
      exact Nat.mul_le_mul_left g h
    have hkg : 2 * k * g = 2 * (g * k) := by ring
    rcases Nat.lt_trichotomy j k with hlt | heq | hgt
    · have := hjg j k hlt
      rw [if_pos hlt, nearestEven_of_lt (by rw [hmod, hkg]; omega), hdiv]
    · subst heq
      rw [if_neg (Nat.lt_irrefl j)]
      rcases Nat.eq_zero_or_pos i with rfl | hpos
      · rw [if_neg (by omega), nearestEven_of_tie (by rw [hmod, hkg]; omega), hdiv]
      · rw [if_pos (.inr hpos), nearestEven_of_gt (by rw [hmod, hkg]; omega), hdiv]
    · have := hjg k j hgt
      rw [if_neg (by omega), if_pos (.inl hgt), nearestEven_of_gt (by rw [hmod, hkg]; omega), hdiv]
  -- rounding to multiples of `g` first may take `j` up by one
  have hfirst : nearestEven a g = 2 * k * m + if 2 * i < g ∨
    (2 * i = g ∧ j % 2 = 0) then j else j + 1 := by
    have hpar : a / g % 2 = j % 2 := by
      rw [← hsplit, Nat.mul_assoc]
      omega
    rw [nearestEven, hii, hpar, ← hsplit]
    split
    · rw [if_pos (by omega)]
    split
    · rw [if_neg (by omega)]
      rfl
    · split <;> omega
  have hsecond : ∀ t, t ≤ 2 * k → nearestEven (2 * k * m + t) (2 * k) = if t < k then m else if k <
    t then m + 1 else m + m % 2 := by
    intro t ht
    rcases Nat.eq_or_lt_of_le ht with rfl | ht
    · rw [nearestEven_of_dvd (n := m + 1) (by omega) (by ring), if_neg (by omega),
        if_pos (by omega)]
    · have hq : (2 * k * m + t) / (2 * k) = m := by
        rw [Nat.mul_add_div (by omega), Nat.div_eq_of_lt ht, Nat.add_zero]
      have hr : (2 * k * m + t) % (2 * k) = t := by
        rw [Nat.mul_add_mod, Nat.mod_eq_of_lt ht]
      rw [nearestEven, hq, hr]
      split
      · rw [if_pos (by omega)]
      split
      · rw [if_neg (by omega), if_pos (by omega)]
      · rw [if_neg (by omega), if_neg (by omega)]
  have hbound : (if 2 * i < g ∨ (2 * i = g ∧ j % 2 = 0) then j else j + 1) ≤ 2 * k := by
    split <;> omega
  rw [honce, hfirst, hsecond _ hbound]
  clear honce hfirst hsecond hbound hdiv hmod hsplit
  split_ifs <;> omega

namespace Format

variable {f : Format}

/-! ### The values of the magnitudes -/

theorem units_succ_lt (mag : Nat) : f.units mag < f.units (mag + 1) := by
  have hpos : 0 < 2 ^ f.mbits := Nat.two_pow_pos _
  rcases f.mag_cases mag with hsub | ⟨e, m, hm, rfl⟩
  · rw [units_of_subnormal hsub]
    rcases Nat.lt_or_ge (mag + 1) (2 ^ f.mbits) with h | h
    · rw [units_of_subnormal h]
      exact Nat.lt_succ_self mag
    · obtain heq : mag + 1 = (0 + 1) * 2 ^ f.mbits + 0 := by omega
      rw [heq, units_normal hpos, pow_zero]
      omega
  · rw [units_normal hm]
    have hpow : 0 < 2 ^ e := Nat.two_pow_pos _
    rcases Nat.lt_or_ge (m + 1) (2 ^ f.mbits) with h | h
    · rw [Nat.add_assoc, units_normal h]
      exact Nat.mul_lt_mul_of_pos_right (by omega) hpow
    · obtain heq : (e + 1) * 2 ^ f.mbits + m + 1 = (e + 1 + 1) * 2 ^ f.mbits + 0 := by
        rw [Nat.succ_mul (e + 1)]
        omega
      rw [heq, units_normal hpos, pow_succ, Nat.mul_comm (2 ^ e), ← Nat.mul_assoc]
      exact Nat.mul_lt_mul_of_pos_right (by omega) hpow

theorem units_strictMono : StrictMono f.units := strictMono_nat_of_lt_succ units_succ_lt

/-! ### Roundings -/

/-- The ratio `a / b`, in units, lies between the midpoints around the magnitude, and on one only if
that is even. -/
structure Rounds (f : Format) (a b mag : Nat) : Prop where
  below : 2 * a ≤ (f.units mag + f.units (mag + 1)) * b
  below_tie : 2 * a = (f.units mag + f.units (mag + 1)) * b → mag % 2 = 0
  above : ∀ k, mag = k + 1 → (f.units k + f.units mag) * b ≤ 2 * a
  above_tie : ∀ k, mag = k + 1 → (f.units k + f.units mag) * b = 2 * a → mag % 2 = 0

theorem Rounds.not_lt {a b x y : Nat} (hb : 0 < b) (hx : f.Rounds a b x) (hy : f.Rounds a b y) :
    ¬ x < y := by
  intro hlt
  obtain ⟨k, rfl⟩ : ∃ k, y = k + 1 := ⟨y - 1, by omega⟩
  have hxk : x ≤ k := Nat.lt_succ_iff.1 hlt
  have hlo : f.units x ≤ f.units k := units_strictMono.monotone hxk
  have hhi : f.units (x + 1) ≤ f.units (k + 1) := units_strictMono.monotone (Nat.succ_le_succ hxk)
  have hle : (f.units x + f.units (x + 1)) * b ≤ (f.units k + f.units (k + 1)) * b :=
    Nat.mul_le_mul_right b (Nat.add_le_add hlo hhi)
  have hbelow := hx.below
  have habove := hy.above k rfl
  -- both midpoints are the ratio, so the two are neighbours and both even
  have heq : (f.units x + f.units (x + 1)) * b = (f.units k + f.units (k + 1)) * b := by omega
  have hsum := Nat.eq_of_mul_eq_mul_right hb heq
  have hxk' : f.units x = f.units k := by omega
  obtain rfl := units_strictMono.injective hxk'
  have heven := hx.below_tie (by omega)
  have heven' := hy.above_tie x rfl (by omega)
  omega

theorem Rounds.unique {a b x y : Nat} (hb : 0 < b) (hx : f.Rounds a b x) (hy : f.Rounds a b y) :
    x = y :=
  Nat.le_antisymm (Nat.not_lt.1 (hy.not_lt hb hx)) (Nat.not_lt.1 (hx.not_lt hb hy))

/-- The magnitude of a significand of `mbits + 1` bits at an exponent, or of the next power of
two. -/
theorem units_significand
    {s n : Nat} (hlo : s = 0 ∨ 2 ^ f.mbits ≤ n) (hhi : n ≤ 2 ^ f.mbits + 2 ^ f.mbits) :
    f.units (s * 2 ^ f.mbits + n) = n * 2 ^ s := by
  have hpos : 0 < 2 ^ f.mbits := Nat.two_pow_pos _
  rcases Nat.lt_or_ge n (2 ^ f.mbits) with hsub | hge
  · obtain rfl : s = 0 := by omega
    rw [Nat.zero_mul, Nat.zero_add, units_of_subnormal hsub, pow_zero, Nat.mul_one]
  rcases Nat.lt_or_ge n (2 ^ f.mbits + 2 ^ f.mbits) with hlt | heq
  · obtain hsplit : s * 2 ^ f.mbits + n = (s + 1) * 2 ^ f.mbits + (n - 2 ^ f.mbits) := by
      rw [Nat.succ_mul]
      omega
    rw [hsplit, units_normal (by omega), Nat.add_sub_cancel' hge]
  · obtain rfl : n = 2 ^ f.mbits + 2 ^ f.mbits := by omega
    obtain hsplit : s * 2 ^ f.mbits + (2 ^ f.mbits + 2 ^ f.mbits) =
      (s + 1 + 1) * 2 ^ f.mbits + 0 := by ring
    rw [hsplit, units_normal hpos]
    ring

/-- Where the leading bit of a ratio stands. -/
structure Leads (f : Format) (a b s : Nat) : Prop where
  lo : s = 0 ∨ b * (2 ^ f.mbits * 2 ^ s) ≤ a
  hi : a < b * ((2 ^ f.mbits + 2 ^ f.mbits) * 2 ^ s)

theorem leads_log2 (a : Nat) {b : Nat} (hb : 0 < b) : f.Leads a b (Nat.log2 (a / b) - f.mbits) := by
  rcases Nat.eq_zero_or_pos (a / b) with hz | hpos
  · rw [hz, Nat.log2_zero, Nat.zero_sub]
    refine ⟨.inl rfl, ?_⟩
    have hlt : a < b := (Nat.div_eq_zero_iff_lt hb).1 hz
    have hone : 1 ≤ (2 ^ f.mbits + 2 ^ f.mbits) * 2 ^ 0 := by
      have := Nat.two_pow_pos f.mbits
      omega
    exact lt_of_lt_of_le hlt (Nat.le_mul_of_pos_right b hone)
  · have hne : a / b ≠ 0 := hpos.ne'
    constructor
    · rcases Nat.lt_or_ge (Nat.log2 (a / b)) f.mbits with h | h
      · exact .inl (Nat.sub_eq_zero_of_le h.le)
      · right
        rw [← pow_add, Nat.add_sub_cancel' h]
        calc b * 2 ^ Nat.log2 (a / b) ≤ b * (a / b) := Nat.mul_le_mul_left b (Nat.log2_self_le hne)
          _ ≤ a := Nat.mul_div_le a b
    · have hlt : a / b < 2 ^ (Nat.log2 (a / b) + 1) := Nat.lt_log2_self
      have hle : 2 ^ (Nat.log2 (a / b) + 1) ≤ (2 ^ f.mbits + 2 ^ f.mbits) * 2 ^
        (Nat.log2 (a / b) - f.mbits) := by
        rw [← Nat.two_mul, ← Nat.pow_succ', ← pow_add]
        exact Nat.pow_le_pow_right two_pos (by omega)
      have hmul := (Nat.div_lt_iff_lt_mul hb).1 (lt_of_lt_of_le hlt hle)
      rwa [Nat.mul_comm] at hmul

theorem nearestEven_bounds {a b s : Nat} (hb : 0 < b) (h : f.Leads a b s) :
    (s = 0 ∨ 2 ^ f.mbits ≤ nearestEven a (b * 2 ^ s)) ∧
      nearestEven a (b * 2 ^ s) ≤ 2 ^ f.mbits + 2 ^ f.mbits := by
  have hpos : 0 < b * 2 ^ s := Nat.mul_pos hb (Nat.two_pow_pos s)
  constructor
  · refine h.lo.imp id fun hlo => ?_
    refine le_trans ?_ (div_le_nearestEven _ _)
    rw [Nat.le_div_iff_mul_le hpos]
    calc 2 ^ f.mbits * (b * 2 ^ s) = b * (2 ^ f.mbits * 2 ^ s) := by ring
      _ ≤ a := hlo
  · refine le_trans (nearestEven_le_succ _ _) ?_
    rw [Nat.succ_le_iff, Nat.div_lt_iff_lt_mul hpos]
    calc a < b * ((2 ^ f.mbits + 2 ^ f.mbits) * 2 ^ s) := h.hi
      _ = (2 ^ f.mbits + 2 ^ f.mbits) * (b * 2 ^ s) := by ring

theorem even_significand (s n : Nat) : (s * 2 ^ f.mbits + n) % 2 = n % 2 := by
  obtain ⟨k, hk⟩ : ∃ k, f.mbits = k + 1 := ⟨f.mbits - 1, by have := f.one_le; omega⟩
  rw [hk, pow_succ, ← Nat.mul_assoc]
  omega

/-- The significand nearest to the ratio gives the magnitude that it rounds to. -/
theorem rounds_significand {a b s : Nat} (hb : 0 < b) (h : f.Leads a b s) :
    f.Rounds a b (s * 2 ^ f.mbits + nearestEven a (b * 2 ^ s)) := by
  obtain ⟨hlo, hhi⟩ := nearestEven_bounds hb h
  obtain ⟨⟨hbelow, hbelow_tie⟩, habove, habove_tie⟩ :=
    nearestEven_spec a (Nat.mul_pos hb (Nat.two_pow_pos s))
  generalize nearestEven a (b * 2 ^ s) = n at hlo hhi hbelow hbelow_tie habove habove_tie
  have hunits := f.units_significand hlo hhi
  have hpos : 0 < 2 ^ f.mbits := Nat.two_pow_pos _
  have hBpos : 0 < b * 2 ^ s := Nat.mul_pos hb (Nat.two_pow_pos s)
  have hnext : f.units (s * 2 ^ f.mbits + n + 1) = (n + 1) * 2 ^ s ∨
    f.units (s * 2 ^ f.mbits + n + 1) = (n + 2) * 2 ^ s := by
    rcases Nat.lt_or_ge n (2 ^ f.mbits + 2 ^ f.mbits) with hlt | hge
    · exact .inl (f.units_significand (n := n + 1) (hlo.imp id Nat.le_succ_of_le) hlt)
    · obtain rfl : n = 2 ^ f.mbits + 2 ^ f.mbits := by omega
      right
      obtain hsplit : s * 2 ^ f.mbits + (2 ^ f.mbits + 2 ^ f.mbits) + 1 =
        (s + 1) * 2 ^ f.mbits + (2 ^ f.mbits + 1) := by ring
      rw [hsplit, f.units_significand (.inr (Nat.le_add_right _ 1)) (by omega)]
      ring
  have hlower : ∀ k, s * 2 ^ f.mbits + n = k + 1 →
      (f.units k + f.units (s * 2 ^ f.mbits + n)) * b ≤ 2 * a ∧
        ((f.units k + f.units (s * 2 ^ f.mbits + n)) * b = 2 * a → n % 2 = 0) := by
    intro k hk
    have hn : 0 < n := by
      rcases Nat.eq_zero_or_pos n with rfl | hn
      · obtain rfl : s = 0 := by omega
        omega
      · exact hn
    by_cases hinner : s = 0 ∨ 2 ^ f.mbits ≤ n - 1
    · obtain ⟨j, rfl⟩ : ∃ j, n = j + 1 := ⟨n - 1, by omega⟩
      obtain rfl : k = s * 2 ^ f.mbits + j := by omega
      have hmid : (f.units (s * 2 ^ f.mbits + j) + f.units (s * 2 ^ f.mbits + (j + 1))) * b +
        b * 2 ^ s =
          2 * (j + 1) * (b * 2 ^ s) := by
        rw [f.units_significand (n := j) hinner (by omega), hunits]
        ring
      exact ⟨by omega, fun heq => habove_tie (by omega)⟩
    · -- the next lower magnitude has one bit of the significand more
      obtain ⟨s, rfl⟩ : ∃ s', s = s' + 1 := ⟨s - 1, by omega⟩
      obtain rfl : n = 2 ^ f.mbits := by omega
      obtain rfl : k = s * 2 ^ f.mbits + (2 ^ f.mbits + 2 ^ f.mbits - 1) := by
        rw [Nat.succ_mul] at hk
        omega
      have hlow : f.units (s * 2 ^ f.mbits + (2 ^ f.mbits + 2 ^ f.mbits - 1)) <
        2 ^ f.mbits * 2 ^ (s + 1) := by
        rw [f.units_significand (.inr (by omega)) (by omega), pow_succ,
          Nat.mul_comm (2 ^ s), ← Nat.mul_assoc]
        exact Nat.mul_lt_mul_of_pos_right (by omega) (Nat.two_pow_pos s)
      have hlt : (f.units (s * 2 ^ f.mbits + (2 ^ f.mbits + 2 ^ f.mbits - 1)) +
          f.units ((s + 1) * 2 ^ f.mbits + 2 ^ f.mbits)) * b < 2 * a := by
        rw [hunits]
        calc _ < (2 ^ f.mbits * 2 ^ (s + 1) + 2 ^ f.mbits * 2 ^ (s + 1)) * b :=
              Nat.mul_lt_mul_of_pos_right (by omega) hb
          _ = 2 * (b * (2 ^ f.mbits * 2 ^ (s + 1))) := by ring
          _ ≤ 2 * a := Nat.mul_le_mul_left 2 (h.lo.resolve_left (Nat.succ_ne_zero s))
      exact ⟨hlt.le, fun heq => absurd heq hlt.ne⟩
  refine ⟨?_, fun heq => ?_, fun k hk => (hlower k hk).1, fun k hk heq => ?_⟩
  · rw [hunits]
    rcases hnext with hnext | hnext
    · rw [hnext]
      calc 2 * a ≤ (2 * n + 1) * (b * 2 ^ s) := hbelow
        _ = _ := by ring
    · rw [hnext]
      calc 2 * a ≤ (2 * n + 1) * (b * 2 ^ s) := hbelow
        _ ≤ (2 * n + 2) * (b * 2 ^ s) := Nat.mul_le_mul_right _ (by omega)
        _ = _ := by ring
  · rw [even_significand]
    refine hbelow_tie ?_
    rw [hunits] at heq
    rcases hnext with hnext | hnext
    · rw [heq, hnext]
      ring
    · rw [hnext] at heq
      have hstrict : (2 * n + 1) * (b * 2 ^ s) < (2 * n + 2) * (b * 2 ^ s) :=
        Nat.mul_lt_mul_of_pos_right (by omega) hBpos
      have heq' : 2 * a = (2 * n + 2) * (b * 2 ^ s) := by
        rw [heq]
        ring
      omega
  · rw [even_significand]
    exact (hlower k hk).2 heq

theorem roundMag_of_rounds {p q mag : Nat} (hq : 0 < q) (h : f.Rounds (p * 2 ^ f.scale) q mag) :
    f.roundMag p q = min mag f.infMag := by
  have hwide := rounds_significand hq (f.leads_log2 (p * 2 ^ f.scale) hq)
  rw [h.unique hq hwide]
  rfl

theorem roundMag_of_leads {p q s : Nat} (hq : 0 < q) (h : f.Leads (p * 2 ^ f.scale) q s) :
    f.roundMag p q = min (s * 2 ^ f.mbits + nearestEven (p * 2 ^ f.scale) (q * 2 ^ s)) f.infMag :=
  roundMag_of_rounds hq (rounds_significand hq h)

theorem rounds_roundMag {p q : Nat} (hq : 0 < q) (hfin : f.roundMag p q < f.infMag) :
    f.Rounds (p * 2 ^ f.scale) q (f.roundMag p q) := by
  have hwide := rounds_significand hq (f.leads_log2 (p * 2 ^ f.scale) hq)
  have hmin := roundMag_of_rounds hq hwide
  have heq :=
    min_eq_left (not_lt.1 fun hlt => (Nat.ne_of_lt hfin) (hmin.trans (min_eq_right hlt.le)))
  rwa [hmin, heq]

theorem roundMag_mul_right (p q : Nat) {c : Nat} (hc : 0 < c) :
    f.roundMag (p * c) (q * c) = f.roundMag p q := by
  have hdiv : p * c * 2 ^ f.scale / (q * c) = p * 2 ^ f.scale / q := by
    rw [Nat.mul_right_comm, Nat.mul_div_mul_right _ _ hc]
  simp only [roundMag, hdiv]
  rw [Nat.mul_right_comm p, Nat.mul_right_comm q, nearestEven_mul_right _ _ hc]

/-- Every ratio has a magnitude that it rounds to, if the exponents go on. -/
theorem exists_rounds (p : Nat) {q : Nat} (hq : 0 < q) :
    ∃ mag, f.Rounds (p * 2 ^ f.scale) q mag ∧ f.roundMag p q = min mag f.infMag :=
  ⟨_, rounds_significand hq (f.leads_log2 (p * 2 ^ f.scale) hq), rfl⟩

/-! ### The nearest value -/

/-- How far a magnitude lies from the ratio `a / b`, in parts of the denominator. -/
def distance (f : Format) (a b mag : Nat) : Nat := f.units mag * b - a + (a - f.units mag * b)

/-- No magnitude is nearer, and one as near makes this the even one. -/
theorem Rounds.nearest {a b x : Nat} (hb : 0 < b) (h : f.Rounds a b x) (y : Nat) :
    f.distance a b x ≤ f.distance a b y ∧
      (f.distance a b x = f.distance a b y → x = y ∨ x % 2 = 0) := by
  rw [distance, distance]
  rcases Nat.lt_trichotomy x y with hlt | rfl | hgt
  · have hxy :=
      Nat.mul_le_mul_right b (units_strictMono.monotone (f := f.units) (Nat.succ_le_of_lt hlt))
    have hup := Nat.mul_lt_mul_of_pos_right (f.units_succ_lt x) hb
    have hbelow := h.below
    have htie := h.below_tie
    rw [Nat.add_mul] at hbelow htie
    rw [Nat.succ_eq_add_one] at hxy
    exact ⟨by omega, fun heq => .inr (htie (by omega))⟩
  · exact ⟨le_rfl, fun _ => .inl rfl⟩
  · obtain ⟨k, rfl⟩ : ∃ k, x = k + 1 := ⟨x - 1, by omega⟩
    have hxy :=
      Nat.mul_le_mul_right b (units_strictMono.monotone (f := f.units) (Nat.lt_succ_iff.1 hgt))
    have hlow := Nat.mul_lt_mul_of_pos_right (f.units_succ_lt k) hb
    have habove := h.above k rfl
    have htie := h.above_tie k rfl
    rw [Nat.add_mul] at habove htie
    exact ⟨by omega, fun heq => .inr (htie (by omega))⟩

/-- A magnitude that is nearest among its neighbours is the one that the ratio rounds to. -/
theorem rounds_of_nearest {a b x : Nat} (hb : 0 < b)
    (h : ∀ y, y = x + 1 ∨ x = y + 1 →
      f.distance a b x ≤ f.distance a b y ∧
        (f.distance a b x = f.distance a b y → x = y ∨ x % 2 = 0)) :
    f.Rounds a b x := by
  have hnext := h (x + 1) (.inl rfl)
  have hup := Nat.mul_lt_mul_of_pos_right (f.units_succ_lt x) hb
  rw [distance, distance] at hnext
  refine ⟨?_, fun heq => ?_, fun k hk => ?_, fun k hk heq => ?_⟩
  · rw [Nat.add_mul]
    omega
  · rw [Nat.add_mul] at heq
    exact (hnext.2 (by omega)).resolve_left (by omega)
  · have hprev := h k (.inr hk)
    have hlow := Nat.mul_lt_mul_of_pos_right (f.units_succ_lt k) hb
    rw [distance, distance] at hprev
    rw [← hk] at hlow
    rw [Nat.add_mul]
    omega
  · have hprev := h k (.inr hk)
    have hlow := Nat.mul_lt_mul_of_pos_right (f.units_succ_lt k) hb
    rw [distance, distance] at hprev
    rw [← hk] at hlow
    rw [Nat.add_mul] at heq
    exact (hprev.2 (by omega)).resolve_left (by omega)

/-- A finite magnitude is what a ratio rounds to exactly if the ratio lies between the midpoints
around it. -/
theorem roundMag_eq_iff {p q mag : Nat} (hq : 0 < q) (hfin : mag < f.infMag) :
    f.roundMag p q = mag ↔ f.Rounds (p * 2 ^ f.scale) q mag := by
  constructor
  · rintro rfl
    exact rounds_roundMag hq hfin
  · intro h
    rw [roundMag_of_rounds hq h, min_eq_left hfin.le]

end Format

end Ieee
