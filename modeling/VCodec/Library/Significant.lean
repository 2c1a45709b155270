import VCodec.Library.Rounding

/-!
# Significant bits

What a finite magnitude is worth, in units of the least value: the ratio rounded to `mbits + 1`
significant bits. Arithmetic on rounded values is arithmetic on these naturals, as long as nothing
overflows.
-/

namespace Ieee

namespace Format

variable {f : Format}

/-- The ratio `a / b` rounded to the significant bits of the format, where one is the least step. -/
def roundUnits (f : Format) (a b : Nat) : Nat :=
  nearestEven a (b * 2 ^ (Nat.log2 (a / b) - f.mbits)) * 2 ^ (Nat.log2 (a / b) - f.mbits)

theorem roundUnits_of_rounds {a b x : Nat} (hb : 0 < b) (h : f.Rounds a b x) :
    f.roundUnits a b = f.units x := by
  have hleads := f.leads_log2 a hb
  obtain ⟨hlo, hhi⟩ := nearestEven_bounds hb hleads
  rw [h.unique hb (rounds_significand hb hleads), units_significand hlo hhi]
  rfl

theorem roundUnits_mul_right (a b : Nat) {c : Nat} (hc : 0 < c) :
    f.roundUnits (a * c) (b * c) = f.roundUnits a b := by
  rw [roundUnits, roundUnits, Nat.mul_div_mul_right _ _ hc, Nat.mul_right_comm,
    nearestEven_mul_right _ _ hc]

theorem units_roundMag_eq {p q : Nat} (hq : 0 < q) (hfin : f.roundMag p q < f.infMag) :
    f.units (f.roundMag p q) = f.roundUnits (p * 2 ^ f.scale) q :=
  (roundUnits_of_rounds hq (rounds_roundMag hq hfin)).symm

/-- What is counted in units already is rounded as a natural. -/
theorem units_roundMag_units {a : Nat} (hfin : f.roundMag a (2 ^ f.scale) < f.infMag) :
    f.units (f.roundMag a (2 ^ f.scale)) = f.roundUnits a 1 := by
  have hpos : 0 < 2 ^ f.scale := Nat.two_pow_pos _
  have hscaled := f.roundUnits_mul_right a 1 hpos
  rw [Nat.one_mul] at hscaled
  rw [units_roundMag_eq hpos hfin, hscaled]

/-- Finite results are equal if the rounded values are. -/
theorem roundMag_inj {p q p' q' : Nat} (hq : 0 < q) (hq' : 0 < q')
    (hfin : f.roundMag p q < f.infMag) (hfin' : f.roundMag p' q' < f.infMag) :
    f.roundMag p q = f.roundMag p' q' ↔
      f.roundUnits (p * 2 ^ f.scale) q = f.roundUnits (p' * 2 ^ f.scale) q' := by
  rw [← units_roundMag_eq hq hfin, ← units_roundMag_eq hq' hfin']
  exact ⟨congrArg _, units_injective hfin.le hfin'.le⟩

@[simp] theorem ofRatio_neg (neg : Bool) (p q : Nat) : (Binary.ofRatio f neg p q).neg = neg := rfl

@[simp] theorem ofRatio_mag (neg : Bool) (p q : Nat) :
    (Binary.ofRatio f neg p q).mag = f.roundMag p q := rfl

theorem ofRatio_inj {neg : Bool} {p q p' q' : Nat} :
    Binary.ofRatio f neg p q = Binary.ofRatio f neg p' q' ↔ f.roundMag p q = f.roundMag p' q' := by
  rw [Binary.ext_iff, ofRatio_neg, ofRatio_neg, ofRatio_mag, ofRatio_mag, and_iff_right rfl]

/-- A value that is not zero has a step that is no larger. -/
theorem roundUnits_le (a : Nat) : f.roundUnits a 1 ≤ 2 * a := by
  rcases Nat.eq_zero_or_pos a with rfl | hpos
  · rw [roundUnits, Nat.zero_div, Nat.log2_zero, Nat.zero_sub]
    rfl
  rw [roundUnits, Nat.div_one, Nat.one_mul]
  have hstep : 2 ^ (Nat.log2 a - f.mbits) ≤ a :=
    le_trans (Nat.pow_le_pow_right two_pos (Nat.sub_le _ _)) (Nat.log2_self_le hpos.ne')
  generalize 2 ^ (Nat.log2 a - f.mbits) = u at hstep
  calc nearestEven a u * u ≤ (a / u + 1) * u := Nat.mul_le_mul_right u (nearestEven_le_succ a u)
    _ = a / u * u + u := by ring
    _ ≤ 2 * a := by
      have := Nat.div_mul_le_self a u
      omega

theorem roundUnits_of_leads {a b s : Nat} (hb : 0 < b) (h : f.Leads a b s) :
    f.roundUnits a b = nearestEven a (b * 2 ^ s) * 2 ^ s := by
  obtain ⟨hlo, hhi⟩ := nearestEven_bounds hb h
  rw [roundUnits_of_rounds hb (rounds_significand hb h), units_significand hlo hhi]

/-- What has few enough significant bits is kept. -/
theorem roundUnits_exact {n s : Nat} (hn : n ≤ 2 ^ f.mbits + 2 ^ f.mbits) :
    f.roundUnits (n * 2 ^ s) 1 = n * 2 ^ s := by
  rw [roundUnits, Nat.div_one, Nat.one_mul]
  have hdvd : 2 ^ (Nat.log2 (n * 2 ^ s) - f.mbits) ∣ n * 2 ^ s := by
    rcases Nat.lt_or_ge s (Nat.log2 (n * 2 ^ s) - f.mbits) with hgt | hle
    · -- only the next power of two is as large as that
      have hne : n * 2 ^ s ≠ 0 := fun h => by
        rw [h, Nat.log2_zero] at hgt
        omega
      have hself := Nat.log2_self_le hne
      have hpow : 2 ^ (f.mbits + 1 + s) ≤ 2 ^ Nat.log2 (n * 2 ^ s) :=
        Nat.pow_le_pow_right two_pos (by omega)
      have hbound : n * 2 ^ s ≤ 2 ^ (f.mbits + 1 + s) := by
        calc n * 2 ^ s ≤ (2 ^ f.mbits + 2 ^ f.mbits) * 2 ^ s := Nat.mul_le_mul_right _ hn
          _ = 2 ^ (f.mbits + 1 + s) := by ring
      rw [show n * 2 ^ s = 2 ^ Nat.log2 (n * 2 ^ s) by omega, Nat.log2_two_pow]
      exact Nat.pow_dvd_pow 2 (Nat.sub_le _ _)
    · exact Nat.dvd_mul_left_of_dvd (Nat.pow_dvd_pow 2 hle) n
  obtain ⟨m, hm⟩ := hdvd
  rw [nearestEven_of_dvd (n := m) (Nat.two_pow_pos _) (by rw [Nat.mul_comm m]; exact hm),
    Nat.mul_comm m]
  exact hm.symm

/-- The step may be given by a value that is the next power of two. -/
theorem roundUnits_of_le {a s : Nat} (hlo : s = 0 ∨ 2 ^ f.mbits * 2 ^ s ≤ a)
    (hhi : a ≤ (2 ^ f.mbits + 2 ^ f.mbits) * 2 ^ s) :
    f.roundUnits a 1 = nearestEven a (2 ^ s) * 2 ^ s := by
  rcases Nat.lt_or_eq_of_le hhi with hlt | rfl
  · have hleads : f.Leads a 1 s := ⟨by rwa [Nat.one_mul], by rwa [Nat.one_mul]⟩
    rw [roundUnits_of_leads Nat.one_pos hleads, Nat.one_mul]
  · rw [roundUnits_exact le_rfl, nearestEven_of_dvd (Nat.two_pow_pos s) rfl]

theorem roundUnits_of_lt {a : Nat} (ha : a < 2 ^ f.mbits + 2 ^ f.mbits) : f.roundUnits a 1 = a := by
  have h := roundUnits_exact (s := 0) ha.le
  rwa [pow_zero, Nat.mul_one] at h

/-- Scaling by a power of two is exact. -/
theorem roundUnits_mul_two_pow (a k : Nat) :
    f.roundUnits (a * 2 ^ k) 1 = f.roundUnits a 1 * 2 ^ k := by
  rcases Nat.lt_or_ge a (2 ^ f.mbits) with hsmall | hlarge
  · rw [roundUnits_exact (by omega), roundUnits_of_lt (by omega)]
  · have hleads := f.leads_log2 a Nat.one_pos
    have hlo : 2 ^ f.mbits * 2 ^ (Nat.log2 (a / 1) - f.mbits) ≤ a := by
      rcases hleads.lo with hz | hlo
      · rw [hz, pow_zero, Nat.mul_one]
        exact hlarge
      · rwa [Nat.one_mul] at hlo
    have hhi := hleads.hi
    generalize Nat.log2 (a / 1) - f.mbits = s at hleads hlo hhi
    have hleads' : f.Leads (a * 2 ^ k) 1 (s + k) := by
      rw [Nat.one_mul] at hhi
      constructor
      · right
        rw [Nat.one_mul, pow_add, ← Nat.mul_assoc]
        exact Nat.mul_le_mul_right _ hlo
      · rw [Nat.one_mul, pow_add, ← Nat.mul_assoc]
        exact Nat.mul_lt_mul_of_pos_right hhi (Nat.two_pow_pos k)
    rw [roundUnits_of_leads Nat.one_pos hleads', roundUnits_of_leads Nat.one_pos hleads,
      pow_add, ← Nat.mul_assoc 1,
      nearestEven_mul_right _ _ (Nat.two_pow_pos k), Nat.mul_assoc]

/-! ### Adding one -/

end Format

/-- Rounding to multiples of `u` before one is added loses the sum where it crosses a midpoint, or
where it leaves one: the tie is broken to the neighbour below. -/
def SuccLost (n u : Nat) : Prop :=
  (2 * (n % u) = u ∧ n / u % 2 = 0) ∨ (2 < u ∧ 2 * (n % u) + 2 = u ∧ n / u % 2 = 1)

instance (n u : Nat) : Decidable (SuccLost n u) := inferInstanceAs (Decidable (_ ∨ _))

/-- One beside a multiple is a tie at most. -/
theorem nearestEven_one_add (m : Nat) {u : Nat} (hu : 2 ≤ u) :
    nearestEven (1 + m * u) u = if u = 2 then m + m % 2 else m := by
  have hdiv : (1 + m * u) / u = m := by
    rw [Nat.add_mul_div_right _ _ (by omega), Nat.div_eq_of_lt (by omega), Nat.zero_add]
  have hmod : (1 + m * u) % u = 1 := by rw [Nat.add_mul_mod_self_right, Nat.mod_eq_of_lt (by omega)]
  rw [nearestEven, hdiv, hmod]
  split
  · rw [if_neg (by omega)]
  · rw [if_neg (by omega), if_pos (by omega)]

theorem nearestEven_succ {n u : Nat} (hu : 2 ≤ u) (heven : u % 2 = 0) :
    nearestEven (1 + nearestEven n u * u) u = nearestEven (n + 1) u ↔ ¬ SuccLost n u := by
  have hpos : 0 < u := by omega
  have hr := Nat.mod_lt n hpos
  have hsplit := Nat.div_add_mod n u
  have hnext : nearestEven (n + 1) u =
      if 2 * (n % u) + 2 < u then n / u else if 2 * (n % u) + 2 =
        u then n / u + n / u % 2 else n / u + 1 := by
    rcases Nat.lt_or_ge (n % u + 1) u with hlt | hge
    · have hdiv : (n + 1) / u = n / u := by
        rw [← hsplit, Nat.add_assoc, Nat.mul_add_div hpos, Nat.div_eq_of_lt hlt, hsplit,
          Nat.add_zero]
      have hmod : (n + 1) % u = n % u + 1 := by
        rw [Nat.add_mod, Nat.mod_eq_of_lt (show 1 < u by omega), Nat.mod_eq_of_lt hlt]
      rw [nearestEven, hdiv, hmod]
      split_ifs <;> omega
    · rw [nearestEven_of_dvd (n := n / u + 1) hpos (by rw [Nat.add_mul, Nat.mul_comm]; omega),
        if_neg (by omega), if_neg (by omega)]
  rw [nearestEven_one_add _ hu, hnext, SuccLost, nearestEven]
  generalize n % u = r at hr
  generalize n / u = k
  split_ifs <;> omega

namespace Format

variable {f : Format}

theorem roundUnits_one_add {m s : Nat} (hlo : 2 ^ f.mbits ≤ m) (hhi : m ≤ 2 ^ f.mbits + 2 ^ f.mbits)
    (hs : s ≠ 0) :
    f.roundUnits (1 + m * 2 ^ s) 1 = nearestEven (1 + m * 2 ^ s) (2 ^ s) * 2 ^ s := by
  have hu : 2 ≤ 2 ^ s := Nat.le_self_pow hs 2
  have hM : 2 ≤ 2 ^ f.mbits := Nat.le_self_pow (Nat.ne_of_gt f.one_le) 2
  have hmul := Nat.mul_le_mul_right (2 ^ s) hlo
  rcases Nat.lt_or_eq_of_le hhi with hlt | rfl
  · refine roundUnits_of_le (.inr (by omega)) ?_
    calc 1 + m * 2 ^ s ≤ 2 ^ s + m * 2 ^ s := by omega
      _ = (m + 1) * 2 ^ s := by ring
      _ ≤ (2 ^ f.mbits + 2 ^ f.mbits) * 2 ^ s := Nat.mul_le_mul_right _ hlt
  · -- a power of two, behind which the steps are twice as large
    have hstep : 1 + (2 ^ f.mbits + 2 ^ f.mbits) * 2 ^ s = 1 + 2 ^ f.mbits * 2 ^ (s + 1) := by ring
    have hone : nearestEven (1 + 2 ^ f.mbits * 2 ^ (s + 1)) (2 ^ (s + 1)) = 2 ^ f.mbits := by
      rw [nearestEven_one_add _ (by rw [pow_succ]; omega), if_neg (by rw [pow_succ]; omega)]
    rw [nearestEven_one_add _ hu, hstep, roundUnits_of_le (s := s + 1) (.inr (Nat.le_add_left _ _)),
      hone]
    · rw [show (2 ^ f.mbits + 2 ^ f.mbits) % 2 = 0 by omega, Nat.add_zero]
      split <;> ring
    · calc 1 + 2 ^ f.mbits * 2 ^ (s + 1) ≤ 2 ^ f.mbits * 2 ^ (s + 1) + 2 ^ f.mbits * 2 ^ (s + 1) :=
            Nat.add_le_add_right (Nat.mul_pos (by omega) (Nat.two_pow_pos _)) _
        _ = (2 ^ f.mbits + 2 ^ f.mbits) * 2 ^ (s + 1) := by ring

/-- Adding one after the rounding gives what rounding the sum gives, unless the sum is lost. -/
theorem roundUnits_succ (n : Nat) :
    f.roundUnits (1 + f.roundUnits n 1) 1 = f.roundUnits (n + 1) 1 ↔
      ¬ SuccLost n (2 ^ (Nat.log2 n - f.mbits)) := by
  have hM : 2 ≤ 2 ^ f.mbits := Nat.le_self_pow (by have := f.one_le; omega) 2
  rcases Nat.lt_or_ge n (2 ^ f.mbits + 2 ^ f.mbits) with hsmall | hlarge
  · have hlog : Nat.log2 n - f.mbits = 0 := by
      rcases Nat.eq_zero_or_pos n with rfl | hpos
      · rw [Nat.log2_zero, Nat.zero_sub]
      · have := (Nat.log2_lt (n := n) (k := f.mbits + 1) hpos.ne').2 (by rw [pow_succ]; omega)
        omega
    rw [roundUnits_of_lt hsmall, Nat.add_comm, hlog, pow_zero, SuccLost]
    exact iff_of_true rfl (by omega)
  · have hleads := f.leads_log2 n Nat.one_pos
    rw [Nat.div_one] at hleads
    have hs : Nat.log2 n - f.mbits ≠ 0 := by
      intro hz
      have hhi := hleads.hi
      rw [hz, pow_zero, Nat.mul_one, Nat.one_mul] at hhi
      omega
    have hlo := hleads.lo.resolve_left hs
    have hhi := hleads.hi
    have hle := (nearestEven_bounds Nat.one_pos hleads).2
    have hge := (nearestEven_bounds Nat.one_pos hleads).1.resolve_left hs
    rw [roundUnits_of_leads Nat.one_pos hleads]
    generalize Nat.log2 n - f.mbits = s at hs hlo hhi hle hge
    rw [Nat.one_mul] at hlo hhi hle hge ⊢
    obtain ⟨t, rfl⟩ : ∃ t, s = t + 1 := ⟨s - 1, by omega⟩
    have hu : 2 ≤ 2 ^ (t + 1) := Nat.le_self_pow (by omega) 2
    have heven : 2 ^ (t + 1) % 2 = 0 := by rw [pow_succ]; omega
    rw [← nearestEven_succ hu heven,
      roundUnits_of_le (a := n + 1) (s := t + 1) (.inr (by omega)) hhi]
    rw [roundUnits_one_add hge hle (Nat.succ_ne_zero t)]
    exact Nat.mul_left_inj (by omega)

/-! ### Truncation -/

end Format

/-- Rounding `a` to multiples of `step` does not bring it to the next multiple of `one`, nor away
from the integer below it. -/
def TruncKept (a one step : Nat) : Prop :=
  if step < one then step < 2 * (one - a % one)
  else if step = one then 2 * (a % one) < one ∨ (2 * (a % one) = one ∧ a / one % 2 = 0)
  else a % step < one

instance (a one step : Nat) : Decidable (TruncKept a one step) := by
  unfold TruncKept
  infer_instance

/-- The integer below, or the one above. -/
theorem nearestEven_cases (a b : Nat) :
    (nearestEven a b = a / b ∧ (2 * (a % b) < b ∨ 2 * (a % b) = b ∧ a / b % 2 = 0)) ∨
      (nearestEven a b = a / b + 1 ∧ (b < 2 * (a % b) ∨ 2 * (a % b) = b ∧ a / b % 2 = 1)) := by
  rw [nearestEven]
  split
  · exact .inl ⟨rfl, .inl ‹_›⟩
  split <;> omega

/-- Steps that a whole number of is one: only the last of them may be rounded up to the next
integer. -/
theorem div_nearestEven_fine
    (a : Nat) {step k : Nat} (hstep : 0 < step) (hk : 0 < k) (heven : k % 2 = 0) :
    nearestEven a step * step / (step * k) = a / (step * k) ↔
      step < 2 * (step * k - a % (step * k)) := by
  rw [Nat.mul_comm (nearestEven a step), Nat.mul_div_mul_left _ _ hstep, ← Nat.div_div_eq_div_mul,
    Nat.mod_mul]
  have hr := Nat.mod_lt a hstep
  have hj := Nat.mod_lt (a / step) hk
  have hsplit := Nat.div_add_mod (a / step) k
  have hdown : ∀ n, n = a / step ∨ n = a / step + 1 ∧ a / step % k + 1 < k →
    n / k = a / step / k := by
    rintro n (rfl | ⟨rfl, hlt⟩)
    · rfl
    · refine Nat.div_eq_of_lt_le ?_ ?_
      · rw [Nat.mul_comm]
        omega
      · rw [Nat.succ_mul, Nat.mul_comm]
        omega
  have hnear := nearestEven_cases a step
  rcases Nat.lt_or_ge (a / step % k + 1) k with hlt | hge
  · have hroom : step * (a / step % k + 2) ≤ step * k := Nat.mul_le_mul_left step hlt
    rw [Nat.mul_add] at hroom
    refine iff_of_true (hdown _ ?_) (by omega)
    rcases hnear with ⟨heq, -⟩ | ⟨heq, -⟩
    · exact .inl heq
    · exact .inr ⟨heq, hlt⟩
  · -- the last multiple is odd, so a tie leaves it
    have hlast : step * (a / step % k + 1) = step * k := by rw [show a / step % k + 1 = k by omega]
    have hodd : a / step % 2 = 1 := by
      obtain ⟨h, rfl⟩ : ∃ h, k = 2 * h := ⟨k / 2, by omega⟩
      rw [Nat.mul_assoc] at hsplit
      omega
    rw [Nat.mul_add, Nat.mul_one] at hlast
    rcases hnear with ⟨heq, hle⟩ | ⟨heq, hle⟩
    · exact iff_of_true (hdown _ (.inl heq)) (by omega)
    · refine iff_of_false ?_ (by omega)
      have hnext : (a / step + 1) / k = a / step / k + 1 := by
        refine Nat.div_eq_of_eq_mul_left hk ?_
        rw [Nat.succ_mul, Nat.mul_comm]
        omega
      rw [heq, hnext]
      omega

theorem div_nearestEven_one (a : Nat) {one : Nat} (hone : 0 < one) :
    nearestEven a one * one / one = a / one ↔
      2 * (a % one) < one ∨ (2 * (a % one) = one ∧ a / one % 2 = 0) := by
  rw [Nat.mul_div_cancel _ hone, nearestEven]
  split
  · exact iff_of_true rfl (.inl ‹_›)
  split <;> omega

/-- Steps of several integers: the number is to lie on one, or less than an integer above it. -/
theorem div_nearestEven_coarse (a : Nat) {one k : Nat} (hone : 0 < one) (hk : 2 ≤ k) :
    nearestEven a (one * k) * (one * k) / one = a / one ↔ a % (one * k) < one := by
  have hpos : 0 < one * k := Nat.mul_pos hone (by omega)
  have hdiv : a / one = a / (one * k) * k + a % (one * k) / one := by
    have hsplit : a = one * (a / (one * k) * k) + a % (one * k) := by
      calc a = one * k * (a / (one * k)) + a % (one * k) := (Nat.div_add_mod a (one * k)).symm
        _ = one * (a / (one * k) * k) + a % (one * k) := by ring
    rw [← Nat.mul_add_div hone, ← hsplit]
  have hmul : nearestEven a (one * k) * (one * k) / one = nearestEven a (one * k) * k := by
    rw [Nat.mul_left_comm, Nat.mul_div_cancel_left _ hone]
  have hrest : a % (one * k) / one < k := by
    rw [Nat.div_lt_iff_lt_mul hone, Nat.mul_comm k]
    exact Nat.mod_lt a hpos
  have htwo : one * 2 ≤ one * k := Nat.mul_le_mul_left one hk
  rw [hmul, hdiv, ← Nat.div_eq_zero_iff_lt hone]
  rcases nearestEven_cases a (one * k) with ⟨heq, -⟩ | ⟨heq, hle⟩
  · rw [heq]
    omega
  · rw [heq, Nat.succ_mul]
    refine iff_of_false (by omega) fun hzero => ?_
    have hlt := (Nat.div_eq_zero_iff_lt hone).1 hzero
    omega

namespace Format

variable {f : Format}

theorem div_roundUnits (a S : Nat) :
    f.roundUnits a 1 / 2 ^ S = a / 2 ^ S ↔ TruncKept a (2 ^ S) (2 ^ (Nat.log2 a - f.mbits)) := by
  rw [roundUnits, Nat.div_one, Nat.one_mul, TruncKept]
  generalize Nat.log2 a - f.mbits = s
  have hpow : 0 < 2 ^ s := Nat.two_pow_pos s
  rcases Nat.lt_trichotomy s S with hlt | rfl | hgt
  · obtain ⟨t, rfl⟩ : ∃ t, S = s + (t + 1) := ⟨S - s - 1, by omega⟩
    rw [if_pos (Nat.pow_lt_pow_right one_lt_two hlt), pow_add]
    exact div_nearestEven_fine a hpow (Nat.two_pow_pos _) (by rw [pow_succ]; omega)
  · rw [if_neg (Nat.lt_irrefl _), if_pos rfl]
    exact div_nearestEven_one a hpow
  · obtain ⟨t, rfl⟩ : ∃ t, s = S + (t + 1) := ⟨s - S - 1, by omega⟩
    have hlt : 2 ^ S < 2 ^ (S + (t + 1)) := Nat.pow_lt_pow_right one_lt_two hgt
    rw [if_neg (Nat.not_lt.2 hlt.le), if_neg hlt.ne', pow_add]
    exact div_nearestEven_coarse a (Nat.two_pow_pos S) (Nat.le_self_pow (Nat.succ_ne_zero t) 2)

end Format

end Ieee
