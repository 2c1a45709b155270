import VCodec.Error
import VCodec.Library.Ieee
import VCodec.Library.Utf8

/-!
# Shared lowerings

UTF-8 validation and the half-precision conversions that preferred float serialisation uses.
`validateUtf8` accepts exactly the strings of RFC 3629. A double is its bit pattern; a half is its
sixteen bits as a natural number, as `to_half` returns it.
-/

namespace VCodec

/-! ### UTF-8 -/

/-- `(c & 0xC0) == 0x80`. -/
def isCont (c : UInt8) : Bool := c.toNat / 64 = 2

/-- The offset of the first invalid sequence, counted from `i`, or `none` for `utf8_npos`. -/
def validateUtf8From (i : Nat) : Bytes → Option Nat
  | [] => none
  | c :: s =>
    if c.toNat < 0x80 then validateUtf8From (i + 1) s
    else if 0xC2 ≤ c.toNat ∧ c.toNat ≤ 0xDF then
      match s with
      | c1 :: s => if isCont c1 then validateUtf8From (i + 2) s else some i
      | [] => some i
    else if 0xE0 ≤ c.toNat ∧ c.toNat ≤ 0xEF then
      match s with
      | c1 :: c2 :: s =>
        if ¬ (isCont c1 ∧ isCont c2) then some i
        else if c.toNat = 0xE0 ∧ c1.toNat < 0xA0 then some i
        else if c.toNat = 0xED ∧ 0xA0 ≤ c1.toNat then some i
        else validateUtf8From (i + 3) s
      | _ => some i
    else if 0xF0 ≤ c.toNat ∧ c.toNat ≤ 0xF4 then
      match s with
      | c1 :: c2 :: c3 :: s =>
        if ¬ (isCont c1 ∧ isCont c2 ∧ isCont c3) then some i
        else if c.toNat = 0xF0 ∧ c1.toNat < 0x90 then some i
        else if c.toNat = 0xF4 ∧ 0x90 ≤ c1.toNat then some i
        else validateUtf8From (i + 4) s
      | _ => some i
    else some i

def validateUtf8 (s : Bytes) : Option Nat := validateUtf8From 0 s

theorem isCont_iff {c : UInt8} : isCont c = true ↔ Utf8.Tail c := by
  have := c.toNat_lt
  simp only [isCont, Utf8.Tail, decide_eq_true_eq]
  omega

theorem validateUtf8From_of_scalar {c : Bytes} (hc : Utf8.Scalar c) (i : Nat) (s : Bytes) :
    validateUtf8From i (c ++ s) = validateUtf8From (i + c.length) s := by
  cases hc with
  | one ha =>
    rw [List.singleton_append, validateUtf8From.eq_def]
    exact if_pos (by omega)
  | two hlo hhi hb =>
    simp only [List.cons_append, List.nil_append, validateUtf8From]
    rw [if_neg (by omega), if_pos ⟨hlo, hhi⟩, if_pos (isCont_iff.2 hb)]
    rfl
  | @three a b c hab hc =>
    have hb : Utf8.Tail b := by
      unfold Utf8.Lead3 Utf8.Tail at hab
      unfold Utf8.Tail
      omega
    simp only [List.cons_append, List.nil_append, validateUtf8From]
    unfold Utf8.Lead3 Utf8.Tail at hab
    rw [if_neg (by omega), if_neg (by omega), if_pos (by omega),
      if_neg (by simp [isCont_iff, hb, hc]), if_neg (by omega), if_neg (by omega)]
    rfl
  | @four a b c d hab hc hd =>
    have hb : Utf8.Tail b := by
      unfold Utf8.Lead4 Utf8.Tail at hab
      unfold Utf8.Tail
      omega
    simp only [List.cons_append, List.nil_append, validateUtf8From]
    unfold Utf8.Lead4 Utf8.Tail at hab
    rw [if_neg (by omega), if_neg (by omega), if_neg (by omega), if_pos (by omega),
      if_neg (by simp [isCont_iff, hb, hc, hd]), if_neg (by omega), if_neg (by omega)]
    rfl

theorem validateUtf8From_of_valid {s : Bytes} (hs : Utf8.Valid s) (i : Nat) :
    validateUtf8From i s = none := by
  induction hs generalizing i with
  | nil => rw [validateUtf8From]
  | cons hc _ ih => rw [validateUtf8From_of_scalar hc, ih]

theorem valid_of_validateUtf8From {i : Nat} {s : Bytes} (h : validateUtf8From i s = none) :
    Utf8.Valid s := by
  fun_induction validateUtf8From i s with
  | case1 => exact .nil
  | case2 i c s hc ih => exact (ih h).ascii_cons (by omega)
  | case3 i c _ hlo c1 s hcont ih =>
    exact .cons (c := [c, c1]) (.two hlo.1 hlo.2 (isCont_iff.1 hcont)) (ih h)
  | case9 i c _ _ hc c1 c2 s hcont hmin hsur ih =>
    rw [not_not] at hcont
    have hb := isCont_iff.1 hcont.1
    refine .cons (c := [c, c1, c2]) (.three ?_ (isCont_iff.1 hcont.2)) (ih h)
    unfold Utf8.Tail at hb
    unfold Utf8.Lead3 Utf8.Tail
    omega
  | case14 i c _ _ _ hc c1 c2 c3 s hcont hmin hmax ih =>
    rw [not_not] at hcont
    have hb := isCont_iff.1 hcont.1
    refine .cons (c := [c, c1, c2, c3]) (.four ?_ (isCont_iff.1 hcont.2.1) (isCont_iff.1 hcont.2.2))
      (ih h)
    unfold Utf8.Tail at hb
    unfold Utf8.Lead4 Utf8.Tail
    omega
  | _ => cases h

/-- The validator accepts exactly the well-formed strings. -/
theorem validateUtf8_eq_none {s : Bytes} : validateUtf8 s = none ↔ Utf8.Valid s :=
  ⟨valid_of_validateUtf8From, fun hs => validateUtf8From_of_valid hs 0⟩

instance (s : Bytes) : Decidable (Utf8.Valid s) := decidable_of_iff _ validateUtf8_eq_none

/-! ### IEEE 754 -/

/-- binary64. -/
def doubleFormat : Ieee.Format := ⟨52, 11, by decide, by decide⟩

/-- binary32. -/
def singleFormat : Ieee.Format := ⟨23, 8, by decide, by decide⟩

abbrev Double := Ieee.Binary doubleFormat

abbrev Single := Ieee.Binary singleFormat

def doubleOfBits (n : Nat) : Double := .ofBits doubleFormat n

def singleOfBits (n : Nat) : Single := .ofBits singleFormat n

def doubleOfSingle (x : Single) : Double := x.convert doubleFormat

def singleOfDouble (d : Double) : Single := d.convert singleFormat

def fromHalf (h : Nat) : Double :=
  let sign := h / 2 ^ 15 % 2
  let exp := h / 2 ^ 10 % 32
  let mant := h % 2 ^ 10
  let v : Double :=
    if exp = 0 then .ofRatio doubleFormat false mant (2 ^ 24)
    else if exp = 31 then
      if mant ≠ 0 then .nan doubleFormat false 0 else .inf doubleFormat false
    else .ofRatio doubleFormat false ((mant + 1024) * 2 ^ exp) (2 ^ 25)
  if sign = 1 then v.negate else v

/-- The half that represents a double exactly, if there is one. A finite magnitude is
`units · 2 ^ -scale`, so `frexp` gives it the exponent `log2 units + 1 - scale` and the fraction
`units / 2 ^ (log2 units + 1)`. -/
def toHalf (d : Double) : Option Nat :=
  if d.isNan then some 0x7E00
  else
    let sign := if d.neg then 0x8000 else 0
    let units := doubleFormat.units d.mag
    let scale := doubleFormat.scale
    if d.isInf then some (sign + 0x7C00)
    else if units = 0 then some sign
    else if 65504 * 2 ^ scale < units then none
    else if scale < Nat.log2 units + 15 then
      -- `e = exp - 1 + 15` is at least one, and `frac * 2048` is `units / 2 ^ (log2 units - 10)`
      let e := Nat.log2 units + 15 - scale
      let unit := 2 ^ (Nat.log2 units - 10)
      if units % unit ≠ 0 then none else some (sign + e * 2 ^ 10 + (units / unit - 1024))
    else
      -- `ldexp(a, 24)` is `units / 2 ^ (scale - 24)`
      let unit := 2 ^ (scale - 24)
      if units % unit ≠ 0 ∨ 1024 ≤ units / unit then none else some (sign + units / unit)

/-- Nearest half, ties to even, for a pinned half width; overflows to infinity. -/
def toHalfRounded (d : Double) : Nat :=
  match toHalf d with
  | some h => h
  | none =>
    let sign := if d.neg then 0x8000 else 0
    let units := doubleFormat.units d.mag
    let scale := doubleFormat.scale
    if 65520 * 2 ^ scale ≤ units then sign + 0x7C00
    else
      let normal := scale < Nat.log2 units + 15
      -- `scaled` is `p / q`; for a subnormal half the addition of 1024 rounds
      let p := if normal then units
        else doubleFormat.units
          (doubleFormat.roundMag (units * 2 ^ 24 + 1024 * 2 ^ scale) (2 ^ scale))
      let q := if normal then 2 ^ (Nat.log2 units - 10) else 2 ^ scale
      let up := q < 2 * (p % q) ∨ (2 * (p % q) = q ∧ p / q % 2 = 1)
      let mant := if up then p / q + 1 else p / q
      let e := Nat.log2 units + 15 - scale
      if normal then
        if mant < 2048 then sign + e * 2 ^ 10 + mant % 2 ^ 10
        else if 31 ≤ e + 1 then sign + 0x7C00
        else sign + (e + 1) * 2 ^ 10 + (mant - 1024) % 2 ^ 10
      else if mant - 1024 < 1024 then sign + (mant - 1024) % 2 ^ 10
      else sign + 2 ^ 10 + (mant - 2048) % 2 ^ 10

/-- Does the double survive a round trip through float? -/
def fitsSingle (d : Double) : Bool :=
  d.isNan || (doubleOfSingle (singleOfDouble d)).eq d

/-! ### A preferred float reads back -/

theorem fromHalf_parts (neg : Bool) {e m : Nat} (he : e < 32) (hm : m < 1024) :
    fromHalf ((if neg then 0x8000 else 0) + e * 2 ^ 10 + m) =
      if e = 0 then .ofRatio doubleFormat neg m (2 ^ 24)
      else if e = 31 then if m ≠ 0 then .nan doubleFormat neg 0 else .inf doubleFormat neg
      else .ofRatio doubleFormat neg ((m + 1024) * 2 ^ e) (2 ^ 25) := by
  have hsign : ((if neg then 0x8000 else 0) + e * 2 ^ 10 + m) / 2 ^ 15 % 2 =
    if neg then 1 else 0 := by
    cases neg <;> simp <;> omega
  have hexp : ((if neg then 0x8000 else 0) + e * 2 ^ 10 + m) / 2 ^ 10 % 32 = e := by
    cases neg <;> simp <;> omega
  have hmant : ((if neg then 0x8000 else 0) + e * 2 ^ 10 + m) % 2 ^ 10 = m := by
    cases neg <;> simp <;> omega
  simp only [fromHalf, hsign, hexp, hmant]
  cases neg with
  | false => simp
  | true =>
    simp only [if_true]
    split
    · rfl
    · split
      · split <;> rfl
      · rfl

theorem half_parts {h : Nat} (hh : h < 2 ^ 16) :
    ∃ (neg : Bool) (e m : Nat), e < 32 ∧ m < 1024 ∧
      h = (if neg then 0x8000 else 0) + e * 2 ^ 10 + m := by
  refine ⟨decide (h / 2 ^ 15 = 1), h / 2 ^ 10 % 32, h % 2 ^ 10, by omega, by omega, ?_⟩
  simp only [decide_eq_true_eq]
  split <;> omega

theorem doubleFormat_scale : ∃ k, doubleFormat.scale = k + 24 ∧
    k + 1048 ≤ doubleFormat.mbits + (2 ^ doubleFormat.ebits - 2) := ⟨1050, by decide, by decide⟩

/-! The proofs keep the scale symbolic: a power with such an exponent is too large to evaluate. -/

theorem normal_exact (n e k : Nat) : n * 2 ^ (e + 1) * 2 ^ (k + 24) = n * 2 ^ (k + e) * 2 ^ 25 := by
  rw [pow_add, pow_add, pow_add]
  ring

theorem half_max_eq (k : Nat) : (2 ^ 11 - 1) * 2 ^ (k + 29) = 65504 * 2 ^ (k + 24) := by
  rw [pow_add, pow_add]
  ring

theorem half_max_lt (k : Nat) : 65504 * 2 ^ (k + 24) < 2 ^ 10 * 2 ^ (k + 30) := by
  have hpos := Nat.two_pow_pos k
  rw [pow_add, pow_add]
  generalize 2 ^ k = x at hpos ⊢
  omega

theorem significand_bounds
    {n k : Nat} (h : 2 ^ (k + 10) ≤ n * 2 ^ k ∧ n * 2 ^ k < 2 ^ (k + 10 + 1)) :
    2 ^ 10 ≤ n ∧ n < 2 ^ 11 := by
  rw [Nat.add_assoc, pow_add, pow_add, Nat.mul_comm (2 ^ k), Nat.mul_comm (2 ^ k)] at h
  exact ⟨Nat.le_of_mul_le_mul_right h.1 (Nat.two_pow_pos _), Nat.lt_of_mul_lt_mul_right h.2⟩

theorem log2_significand {n k : Nat} (hlo : 2 ^ 10 ≤ n) (hhi : n < 2 ^ 11) :
    Nat.log2 (n * 2 ^ k) = k + 10 := by
  rw [Nat.log2_eq_iff (Nat.mul_ne_zero (by omega) (Nat.two_pow_pos _).ne'), Nat.add_assoc, pow_add,
    pow_add,
    Nat.mul_comm (2 ^ k), Nat.mul_comm (2 ^ k)]
  exact ⟨Nat.mul_le_mul_right _ hlo, Nat.mul_lt_mul_of_pos_right hhi (Nat.two_pow_pos _)⟩

/-- What `toHalf` returns for a number reads back as that number. -/
theorem fromHalf_of_toHalf {d : Double} {h : Nat} (hd : d.isNan = false) (hh : toHalf d = some h) :
    fromHalf h = d ∧ h < 2 ^ 16 := by
  obtain ⟨k, hscale, -⟩ := doubleFormat_scale
  simp only [toHalf, hd, Bool.false_eq_true, if_false] at hh
  split at hh
  · -- an infinity
    rename_i hinf
    cases hh
    constructor
    · have := fromHalf_parts d.neg (e := 31) (m := 0) (by omega) (by omega)
      simp only [Nat.add_zero] at this
      rw [show (0x7C00 : Nat) = 31 * 2 ^ 10 by norm_num, this]
      exact (Ieee.Binary.eq_inf hinf).symm
    · split <;> omega
  rename_i hinf
  have hfin : d.mag < doubleFormat.infMag := Ieee.Binary.lt_infMag hd (by simpa using hinf)
  split at hh
  · -- a zero
    rename_i hzero
    cases hh
    constructor
    · have := fromHalf_parts d.neg (e := 0) (m := 0) (by omega) (by omega)
      simp only [Nat.zero_mul, Nat.add_zero, if_true] at this
      rw [this]
      exact Ieee.Binary.ofRatio_eq (Nat.two_pow_pos _) hfin.le
        (by rw [hzero, Nat.zero_mul, Nat.zero_mul])
    · split <;> omega
  rename_i hne
  split at hh
  · cases hh
  rename_i hbound
  have hlog := (Nat.log2_eq_iff hne).1 rfl
  generalize hL : Nat.log2 (doubleFormat.units d.mag) = L at hh hlog
  rw [hscale] at hh hbound
  split at hh
  · -- a normal half: `units = n · 2 ^ (L - 10)` with `n` of eleven bits
    rename_i hnormal
    split at hh
    · cases hh
    rename_i hmod
    rw [not_not] at hmod
    rw [Option.some.injEq] at hh
    subst hh
    obtain ⟨e, rfl⟩ : ∃ e, L = k + e + 10 := ⟨L - (k + 10), by omega⟩
    rw [Nat.add_sub_cancel] at hmod ⊢
    obtain ⟨n, hn⟩ : ∃ n, doubleFormat.units d.mag = n * 2 ^ (k + e) :=
      (Nat.dvd_of_mod_eq_zero hmod).imp fun n hn => by rw [hn, Nat.mul_comm]
    have hdiv : doubleFormat.units d.mag / 2 ^ (k + e) = n := by
      rw [hn, Nat.mul_div_cancel _ (Nat.two_pow_pos _)]
    obtain ⟨hnlo, hnhi⟩ := significand_bounds (hn ▸ hlog)
    have he : e < 30 := by
      by_contra hge
      have hle : 2 ^ 10 * 2 ^ (k + 30) ≤ n * 2 ^ (k + e) :=
        Nat.mul_le_mul hnlo (Nat.pow_le_pow_right Nat.two_pos (by omega))
      rw [← hn] at hle
      exact hbound (lt_of_lt_of_le (half_max_lt k) hle)
    rw [hdiv, show k + e + 10 + 15 - (k + 24) = e + 1 by omega]
    constructor
    · rw [fromHalf_parts d.neg (by omega) (by omega), if_neg (by omega), if_neg (by omega)]
      refine Ieee.Binary.ofRatio_eq (Nat.two_pow_pos _) hfin.le ?_
      rw [hn, hscale, show n - 1024 + 1024 = n by omega]
      exact normal_exact n e k
    · split <;> omega
  · -- a subnormal half: `units = n · 2 ^ k`
    split at hh
    · cases hh
    rename_i hmod
    rw [not_or, not_not, not_le, Nat.add_sub_cancel] at hmod
    rw [Nat.add_sub_cancel] at hh
    cases hh
    obtain ⟨n, hn⟩ : ∃ n, doubleFormat.units d.mag = n * 2 ^ k :=
      (Nat.dvd_of_mod_eq_zero hmod.1).imp fun n hn => by rw [hn, Nat.mul_comm]
    have hdiv : doubleFormat.units d.mag / 2 ^ k = n := by
      rw [hn, Nat.mul_div_cancel _ (Nat.two_pow_pos _)]
    rw [hdiv] at hmod ⊢
    constructor
    · have := fromHalf_parts d.neg (e := 0) (m := n) (by omega) hmod.2
      rw [Nat.zero_mul, Nat.add_zero, if_pos rfl] at this
      rw [this]
      refine Ieee.Binary.ofRatio_eq (Nat.two_pow_pos _) hfin.le ?_
      rw [hn, hscale, pow_add, Nat.mul_assoc]
    · split <;> omega

theorem toHalf_ofRatio (neg : Bool) {e n : Nat} (he : e < 30) (hnlo : 2 ^ 10 ≤ n)
    (hnhi : n < 2 ^ 11) :
    toHalf (.ofRatio doubleFormat neg (n * 2 ^ (e + 1)) (2 ^ 25)) =
      some ((if neg then 0x8000 else 0) + (e + 1) * 2 ^ 10 + (n - 1024)) := by
  obtain ⟨k, hscale, hrange⟩ := doubleFormat_scale
  have hexact : n * 2 ^ (e + 1) * 2 ^ doubleFormat.scale = n * 2 ^ (k + e) * 2 ^ 25 := by
    rw [hscale]
    exact normal_exact n e k
  have hlt : n * 2 ^ (k + e) < 2 ^ (doubleFormat.mbits + (2 ^ doubleFormat.ebits - 2)) := by
    calc n * 2 ^ (k + e) < 2 ^ 11 * 2 ^ (k + e) :=
      Nat.mul_lt_mul_of_pos_right hnhi (Nat.two_pow_pos _)
      _ = 2 ^ (11 + (k + e)) := (pow_add _ _ _).symm
      _ ≤ _ := Nat.pow_le_pow_right (by omega) (by omega)
  obtain ⟨hunits, hfin⟩ := doubleFormat.units_roundMag (Nat.two_pow_pos _)
    (lt_trans hnhi (by norm_num [doubleFormat])) hlt hexact
  have hlog : Nat.log2 (n * 2 ^ (k + e)) = k + e + 10 := log2_significand hnlo hnhi
  have hbound : ¬ 65504 * 2 ^ (k + 24) < n * 2 ^ (k + e) := by
    refine not_lt.2 (le_trans (Nat.mul_le_mul (Nat.le_sub_one_of_lt hnhi)
      (Nat.pow_le_pow_right (by omega) (show k + e ≤ k + 29 by omega))) (le_of_eq ?_))
    exact half_max_eq k
  have hne : n * 2 ^ (k + e) ≠ 0 := Nat.mul_ne_zero (by omega) (Nat.two_pow_pos _).ne'
  have hmag : (Ieee.Binary.ofRatio doubleFormat neg (n * 2 ^ (e + 1)) (2 ^ 25)).mag <
    doubleFormat.infMag := hfin
  have hneg : (Ieee.Binary.ofRatio doubleFormat neg (n * 2 ^ (e + 1)) (2 ^ 25)).neg = neg := rfl
  have hunits' : doubleFormat.units
    (Ieee.Binary.ofRatio doubleFormat neg (n * 2 ^ (e + 1)) (2 ^ 25)).mag =
      n * 2 ^ (k + e) := hunits
  simp only [toHalf, Ieee.Binary.isNan_of_lt hmag, Ieee.Binary.isInf_of_lt hmag, hunits', hlog,
    hneg,
    Bool.false_eq_true, if_false, hscale]
  rw [if_neg hne, if_neg hbound, if_pos (by omega), Nat.add_sub_cancel, Nat.mul_mod_left,
    if_neg (by simp),
    Nat.mul_div_cancel _ (Nat.two_pow_pos _), show k + e + 10 + 15 - (k + 24) = e + 1 by omega]

theorem toHalf_ofRatio_subnormal (neg : Bool) {m : Nat} (hm : m < 1024) :
    toHalf (.ofRatio doubleFormat neg m (2 ^ 24)) = some ((if neg then 0x8000 else 0) + m) := by
  obtain ⟨k, hscale, hrange⟩ := doubleFormat_scale
  have hexact : m * 2 ^ doubleFormat.scale = m * 2 ^ k * 2 ^ 24 := by
    rw [hscale, Nat.mul_assoc, ← pow_add]
  have hlt : m * 2 ^ k < 2 ^ (k + 10) := by
    rw [pow_add, Nat.mul_comm]
    exact Nat.mul_lt_mul_of_pos_left hm (Nat.two_pow_pos _)
  obtain ⟨hunits, hfin⟩ := doubleFormat.units_roundMag (Nat.two_pow_pos _)
    (lt_trans hm (by norm_num [doubleFormat]))
    (lt_of_lt_of_le hlt (Nat.pow_le_pow_right (by omega) (by omega))) hexact
  have hmag : (Ieee.Binary.ofRatio doubleFormat neg m (2 ^ 24)).mag < doubleFormat.infMag := hfin
  have hneg : (Ieee.Binary.ofRatio doubleFormat neg m (2 ^ 24)).neg = neg := rfl
  have hunits' : doubleFormat.units (Ieee.Binary.ofRatio doubleFormat neg m (2 ^ 24)).mag =
    m * 2 ^ k := hunits
  simp only [toHalf, Ieee.Binary.isNan_of_lt hmag, Ieee.Binary.isInf_of_lt hmag, hunits', hneg,
    Bool.false_eq_true, if_false, hscale]
  rcases Nat.eq_zero_or_pos m with rfl | hpos
  · rw [if_pos (Nat.zero_mul _), Nat.add_zero]
  · have hne : m * 2 ^ k ≠ 0 := Nat.mul_ne_zero hpos.ne' (Nat.two_pow_pos _).ne'
    have hbound : ¬ 65504 * 2 ^ (k + 24) < m * 2 ^ k := by
      refine not_lt.2 (Nat.mul_le_mul (by omega) (Nat.pow_le_pow_right (by omega) (by omega)))
    have hlog : Nat.log2 (m * 2 ^ k) < k + 10 := (Nat.log2_lt hne).2 hlt
    rw [if_neg hne, if_neg hbound, if_neg (by omega), Nat.add_sub_cancel, Nat.mul_mod_left,
      Nat.mul_div_cancel _ (Nat.two_pow_pos _), if_neg (by omega)]

/-- Every half but a NaN is what `toHalf` returns for its value. -/
theorem toHalf_fromHalf {h : Nat} (hh : h < 2 ^ 16) (hnan : (fromHalf h).isNan = false) :
    toHalf (fromHalf h) = some h := by
  obtain ⟨neg, e, m, he, hm, rfl⟩ := half_parts hh
  rw [fromHalf_parts neg he hm] at hnan ⊢
  rcases Nat.eq_zero_or_pos e with rfl | hpos
  · rw [if_pos rfl, toHalf_ofRatio_subnormal neg hm, Nat.zero_mul, Nat.add_zero]
  rw [if_neg (by omega)] at hnan ⊢
  split at hnan
  · rename_i hinf
    subst hinf
    split at hnan
    · rw [Ieee.Binary.isNan_nan] at hnan
      cases hnan
    · rename_i hm0
      rw [not_not] at hm0
      subst hm0
      have hinf : (Ieee.Binary.inf doubleFormat neg).isInf = true := by
        simp [Ieee.Binary.isInf, Ieee.Binary.inf]
      have hneg : (Ieee.Binary.inf doubleFormat neg).neg = neg := rfl
      rw [if_pos rfl, if_neg (not_not.2 rfl)]
      simp only [toHalf, hnan, hinf, hneg, Bool.false_eq_true, if_false, if_true]
      rw [Option.some.injEq]
      omega
  · rw [if_neg (by assumption)]
    obtain ⟨e', rfl⟩ : ∃ e', e = e' + 1 := ⟨e - 1, by omega⟩
    rw [Nat.add_comm m 1024, toHalf_ofRatio neg (by omega) (by omega) (by omega),
      Nat.add_sub_cancel_left]

/-- A double that fits a single is recovered from it. -/
theorem doubleOfSingle_of_fitsSingle
    {d : Double} (hhalf : toHalf d = none) (hfit : fitsSingle d = true) :
    doubleOfSingle (singleOfDouble d) = d := by
  have hnan : d.isNan = false := by
    cases hn : d.isNan with
    | false => rfl
    | true => simp [toHalf, hn] at hhalf
  simp only [fitsSingle, hnan, Bool.false_or] at hfit
  refine Ieee.Binary.eq_of_eq hfit fun hzero => ?_
  have hunits : doubleFormat.units d.mag = 0 := by
    rw [hzero, Ieee.Format.units_of_subnormal (Nat.two_pow_pos _)]
  simp only [toHalf, hnan, hunits, Bool.false_eq_true, if_false, if_true] at hhalf
  split at hhalf <;> cases hhalf

/-- A single survives a round trip through double. -/
theorem singleOfDouble_doubleOfSingle {x : Single} (hx : x.isNan = false) :
    singleOfDouble (doubleOfSingle x) = x :=
  Ieee.Binary.convert_convert (by decide) (by decide) (by decide) hx

end VCodec
