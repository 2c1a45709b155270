import VCodec.Json.Integers

/-!
# Real literals

`std::from_chars` does not say whether a literal is too large or too small, so the scanner guesses
from the digits of the integer part and from the exponent, of which it reads six digits.
`scanNumber_real_iff` says for which literals the guess is right: a literal that is too large is
always found to be, and one that is too small is mistaken if its fraction begins with many zeros, or
if its integer part is longer than what was read of a negative exponent.
-/

namespace VCodec.Json

open Ieee

variable {n : Number} {ds : Bytes}

/-! ### Exponents -/

/-- The number of the first six digits behind leading zeros. -/
def leadingSix (ds : Bytes) : Nat := digitsValue ((ds.dropWhile (· = 0x30)).take 6)

theorem dropZeros_cons (c : UInt8) (ds : Bytes) :
    (c :: ds).dropWhile (fun c => decide (c = 0x30)) =
      if c = 0x30 then ds.dropWhile (fun c => decide (c = 0x30)) else c :: ds := by
  rw [List.dropWhile_cons]
  simp only [decide_eq_true_eq]

theorem foldl_full {e : Nat} (h : 100000 ≤ e) (ds : Bytes) :
    ds.foldl (fun e c => if e < 100000 then e * 10 + (c.toNat - 0x30) else e) e = e := by
  induction ds with
  | nil => rfl
  | cons c ds ih =>
    rw [List.foldl_cons, if_neg (Nat.not_lt.2 h)]
    exact ih

/-- The loop reads digits until it has six. -/
theorem foldl_six {e k : Nat} (hlo : 10 ^ k ≤ e) (hhi : e < 10 ^ (k + 1))
    (hk : k ≤ 5) (hds : ∀ c ∈ ds, isDigit c = true) :
    ds.foldl (fun e c => if e < 100000 then e * 10 + (c.toNat - 0x30) else e) e =
      (ds.take (5 - k)).foldl (fun e c => e * 10 + (c.toNat - 0x30)) e := by
  induction ds generalizing e k with
  | nil => rw [List.take_nil, List.foldl_nil, List.foldl_nil]
  | cons c ds ih =>
    rcases Nat.lt_or_ge k 5 with hlt | hge
    · have hdigit := of_decide_eq_true (hds c List.mem_cons_self)
      have hsmall : e < 100000 :=
        calc e < 10 ^ (k + 1) := hhi
          _ ≤ 10 ^ 5 := Nat.pow_le_pow_right (by decide) hlt
          _ = 100000 := by decide
      rw [show 5 - k = 5 - (k + 1) + 1 by omega, List.take_succ_cons, List.foldl_cons,
        List.foldl_cons, if_pos hsmall]
      refine ih ?_ ?_ hlt fun x hx => hds x (List.mem_cons_of_mem _ hx)
      · rw [pow_succ]
        omega
      · rw [pow_succ]
        omega
    · obtain rfl : k = 5 := by omega
      rw [foldl_full (le_trans (by decide) hlo), Nat.sub_self, List.take_zero, List.foldl_nil]

theorem exponentDigits_eq (hds : ∀ c ∈ ds, isDigit c = true) :
    exponentDigits ds = leadingSix ds := by
  rw [exponentDigits, leadingSix]
  induction ds with
  | nil => rfl
  | cons c ds ih =>
    have hrest : ∀ x ∈ ds, isDigit x = true := fun x hx => hds x (List.mem_cons_of_mem _ hx)
    by_cases hzero : c = 0x30
    · rw [dropZeros_cons, if_pos hzero, ← ih hrest, hzero]
      rfl
    · have hdigit := of_decide_eq_true (hds c List.mem_cons_self)
      have hne : c.toNat ≠ 0x30 := fun h => hzero (UInt8.toNat_inj.1 h)
      rw [dropZeros_cons, if_neg hzero, List.foldl_cons, if_pos (by decide),
        foldl_six (k := 0) (by omega) (by omega) (by decide) hrest]
      rfl

theorem digitsValue_dropWhile (ds : Bytes) :
    digitsValue (ds.dropWhile (· = 0x30)) = digitsValue ds := by
  induction ds with
  | nil => rfl
  | cons c ds ih =>
    by_cases hzero : c = 0x30
    · have hdigit : c.toNat - 0x30 = 0 := by
        rw [hzero]
        rfl
      rw [dropZeros_cons, if_pos hzero, ih, digitsValue_cons, hdigit, Nat.zero_mul, Nat.zero_add]
    · rw [dropZeros_cons, if_neg hzero]

theorem leadingSix_le (ds : Bytes) : leadingSix ds ≤ digitsValue ds := by
  have hpos : 0 < 10 ^ ((ds.dropWhile (· = 0x30)).drop 6).length := Nat.pow_pos (by decide)
  calc leadingSix ds = leadingSix ds * 1 := (Nat.mul_one _).symm
    _ ≤ leadingSix ds * 10 ^ ((ds.dropWhile (· = 0x30)).drop 6).length := Nat.mul_le_mul_left _ hpos
    _ ≤ leadingSix ds * 10 ^ ((ds.dropWhile (· = 0x30)).drop 6).length + digitsValue
      ((ds.dropWhile (· = 0x30)).drop 6) :=
      Nat.le_add_right _ _
    _ = digitsValue (ds.dropWhile (· = 0x30)) := by
      rw [leadingSix, ← digitsValue_append, List.take_append_drop]
    _ = digitsValue ds := digitsValue_dropWhile ds

/-- Below six digits the number is exact. -/
theorem leadingSix_eq (hds : ∀ c ∈ ds, isDigit c = true) (hsmall : leadingSix ds < 100000) :
    leadingSix ds = digitsValue ds := by
  rw [← digitsValue_dropWhile ds, leadingSix]
  rw [leadingSix] at hsmall
  by_cases hlen : (ds.dropWhile (· = 0x30)).length ≤ 6
  · rw [List.take_of_length_le hlen]
  exfalso
  cases hdrop : ds.dropWhile (· = 0x30) with
  | nil =>
    rw [hdrop] at hlen
    exact hlen (by decide)
  | cons c cs =>
    rw [hdrop] at hlen hsmall
    rw [List.length_cons] at hlen
    have hmem : c ∈ ds.dropWhile (· = 0x30) := by
      rw [hdrop]
      exact List.mem_cons_self
    have hne : ¬ decide (c = 0x30) = true := by
      have hhead := List.head_dropWhile_not (p := fun c : UInt8 => decide (c = 0x30)) (l := ds)
        (by simp [hdrop])
      simpa [hdrop] using hhead
    have hdigit := hds c (List.dropWhile_sublist _ |>.subset hmem)
    rw [List.take_succ_cons] at hsmall
    have hle : 10 ^ (cs.take 5).length ≤ digitsValue (c :: cs.take 5) :=
      le_digitsValue hdigit fun h => hne (decide_eq_true h)
    rw [List.length_take, Nat.min_eq_left (by omega)] at hle
    omega

/-! ### The value of a literal -/

namespace Number

def fracDigits (n : Number) : Bytes := n.frac.tail

/-- The digits without the point, as a number. -/
def mantissa (n : Number) : Nat := digitsValue (n.int ++ n.fracDigits)

def expNegative (n : Number) : Bool := n.exp.tail.head? = some 0x2D

def expDigits (n : Number) : Bytes := n.exp.tail.drop (signLength n.exp.tail)

def expValue (n : Number) : Int :=
  if n.expNegative then -(digitsValue n.expDigits : Int) else digitsValue n.expDigits

/-- The power of ten that the mantissa is multiplied with. -/
def scale (n : Number) : Int := n.expValue - n.fracDigits.length

def num (n : Number) : Nat := n.mantissa * 10 ^ n.scale.toNat

def den (n : Number) : Nat := 10 ^ (-n.scale).toNat

/-- The double nearest to the literal. -/
def rounded (n : Number) : Double := .ofRatio doubleFormat (n.minus ≠ []) n.num n.den

/-- The magnitude rounds beyond the largest finite double. -/
def Overflows (n : Number) : Prop := n.rounded.isInf = true

/-- The literal is not zero and rounds to it. -/
def Underflows (n : Number) : Prop := n.rounded.mag = 0 ∧ n.mantissa ≠ 0

instance (n : Number) : Decidable n.Overflows := inferInstanceAs (Decidable (_ = _))

instance (n : Number) : Decidable n.Underflows := inferInstanceAs (Decidable (_ ∧ _))

/-- The digits of the integer part without leading zeros. -/
def intDigits (n : Number) : Nat := (n.int.dropWhile fun c => decide (c = 0x30)).length

theorem isDigit_fracDigits (n : Number) : ∀ c ∈ n.fracDigits, isDigit c = true := by
  rw [fracDigits]
  rcases n.frac_ok with hfrac | ⟨ds, hds, hfrac⟩
  · rw [hfrac]
    exact fun c hc => absurd hc List.not_mem_nil
  · rw [hfrac]
    exact hds.2

theorem isDigit_expDigits (n : Number) : ∀ c ∈ n.expDigits, isDigit c = true := by
  rw [expDigits]
  rcases n.exp_ok with hexp | ⟨e, sign, ds, -, hsign, hds, hexp⟩
  · rw [hexp]
    exact fun c hc => absurd hc List.not_mem_nil
  · have hlength := signLength_append (r := []) hsign hds
    rw [List.append_nil] at hlength
    rw [hexp, List.tail_cons, hlength, List.drop_left]
    exact hds.2

theorem exponent_eq (n : Number) :
    exponent n.exp = if n.expNegative then -(leadingSix n.expDigits : Int) else leadingSix
      n.expDigits := by
  have hdigits := exponentDigits_eq n.isDigit_expDigits
  rw [expDigits] at hdigits
  rw [exponent, hdigits, expNegative, expDigits]
  simp only [decide_eq_true_eq]

theorem magnitude_eq (n : Number) : n.magnitude = (n.intDigits : Int) - 1 + exponent n.exp := rfl

theorem intDigits_zero (h : n.int = [0x30]) : n.intDigits = 0 := by
  rw [intDigits, h]
  rfl

theorem intDigits_cons (h : n.int ≠ [0x30]) :
    n.intDigits = n.int.length ∧ ∃ c ds, n.int = c :: ds ∧ isDigit c = true ∧ c ≠ 0x30 := by
  obtain ⟨hdigits, hhead⟩ := n.int_ok.resolve_left h
  obtain ⟨c, ds, hcons⟩ := List.exists_cons_of_ne_nil hdigits.1
  have hne : c ≠ 0x30 := by
    rintro rfl
    rw [hcons] at hhead
    exact hhead rfl
  refine ⟨?_, c, ds, hcons, hdigits.2 c (by rw [hcons]; exact List.mem_cons_self), hne⟩
  rw [intDigits, hcons, dropZeros_cons, if_neg hne]

theorem mantissa_lt (n : Number) : n.mantissa < 10 ^ (n.intDigits + n.fracDigits.length) := by
  by_cases hzero : n.int = [0x30]
  · have hcons : n.mantissa = (0x30 - 0x30) * 10 ^ n.fracDigits.length +
      digitsValue n.fracDigits := by
      rw [mantissa, hzero]
      exact digitsValue_cons _ _
    rw [hcons, intDigits_zero hzero, Nat.sub_self, Nat.zero_mul, Nat.zero_add, Nat.zero_add]
    exact digitsValue_lt n.isDigit_fracDigits
  · rw [(intDigits_cons hzero).1, ← List.length_append]
    refine digitsValue_lt fun c hc => ?_
    rcases List.mem_append.1 hc with hc | hc
    · exact n.isDigit_int c hc
    · exact n.isDigit_fracDigits c hc

theorem le_mantissa (h : n.int ≠ [0x30]) :
    10 ^ (n.intDigits - 1 + n.fracDigits.length) ≤ n.mantissa ∧ 1 ≤ n.intDigits := by
  obtain ⟨hlength, c, ds, hcons, hdigit, hne⟩ := intDigits_cons h
  rw [hlength, mantissa, hcons, List.length_cons, Nat.add_sub_cancel, ← List.length_append]
  exact ⟨le_digitsValue hdigit hne, Nat.le_add_left 1 _⟩

/-! ### Ranges -/

theorem den_pos (n : Number) : 0 < n.den := Nat.pow_pos (by decide)

theorem num_lt {m : Nat} (hmant : n.mantissa < 10 ^ m) (hscale : m + n.scale ≤ 1) :
    n.num < 2 ^ 4 * n.den := by
  calc n.num = n.mantissa * 10 ^ n.scale.toNat := rfl
    _ < 10 ^ m * 10 ^ n.scale.toNat := Nat.mul_lt_mul_of_pos_right hmant (Nat.pow_pos (by decide))
    _ = 10 ^ (m + n.scale.toNat) := (pow_add _ _ _).symm
    _ ≤ 10 ^ (1 + (-n.scale).toNat) := Nat.pow_le_pow_right (by decide) (by omega)
    _ = 10 * n.den := by rw [pow_add, pow_one, den]
    _ ≤ 2 ^ 4 * n.den := Nat.mul_le_mul_right _ (by decide)

theorem den_le {m : Nat} (hmant : 10 ^ m ≤ n.mantissa) (hscale : 0 ≤ m + n.scale) :
    n.den ≤ n.num := by
  calc n.den = 10 ^ (-n.scale).toNat := rfl
    _ ≤ 10 ^ (m + n.scale.toNat) := Nat.pow_le_pow_right (by decide) (by omega)
    _ = 10 ^ m * 10 ^ n.scale.toNat := pow_add _ _ _
    _ ≤ n.mantissa * 10 ^ n.scale.toNat := Nat.mul_le_mul_right _ hmant
    _ = n.num := rfl

/-- A number below ten does not overflow. -/
theorem not_overflows (h : n.intDigits + n.expValue ≤ 1) : ¬ n.Overflows := by
  have hlt : n.num < 2 ^ 4 * n.den := num_lt n.mantissa_lt (by rw [scale]; omega)
  have hmag : n.rounded.mag < doubleFormat.infMag := Format.roundMag_lt n.den_pos hlt (by decide)
  rw [Overflows, Binary.isInf_of_lt hmag]
  exact Bool.false_ne_true

/-- A number from one on does not underflow. -/
theorem not_underflows (hint : n.int ≠ [0x30]) (h : 1 ≤ n.intDigits + n.expValue) :
    ¬ n.Underflows := by
  obtain ⟨hle, hone⟩ := le_mantissa hint
  have hden : n.den ≤ n.num := den_le hle (by rw [scale]; omega)
  have hpos : 0 < n.rounded.mag := Format.roundMag_pos n.den_pos hden
  rintro ⟨hzero, -⟩
  omega

theorem scale_whole (hwhole : n.Whole) : n.scale = 0 := by
  have hexp : n.expValue = 0 := by
    rw [expValue, expNegative, expDigits, hwhole.2]
    rfl
  rw [scale, hexp, fracDigits, hwhole.1]
  rfl

theorem mantissa_whole (hwhole : n.Whole) : n.mantissa = digitsValue n.int := by
  rw [mantissa, fracDigits, hwhole.1, List.tail_nil, List.append_nil]

theorem ratio_whole (hwhole : n.Whole) : n.num = digitsValue n.int ∧ n.den = 1 := by
  rw [num, den, scale_whole hwhole, mantissa_whole hwhole]
  exact ⟨Nat.mul_one _, rfl⟩

/-- An integer is a double of its own order. -/
theorem whole_range (hwhole : n.Whole) (hv : digitsValue n.int < 2 ^ 66) :
    ¬ n.Overflows ∧ ¬ n.Underflows := by
  obtain ⟨hnum, hden⟩ := ratio_whole hwhole
  have hlt : n.num < 2 ^ 66 * n.den := by
    rw [hnum, hden, Nat.mul_one]
    exact hv
  have hmag : n.rounded.mag < doubleFormat.infMag := Format.roundMag_lt n.den_pos hlt (by decide)
  constructor
  · rw [Overflows, Binary.isInf_of_lt hmag]
    exact Bool.false_ne_true
  · rintro ⟨hzero, hne⟩
    rw [mantissa_whole hwhole] at hne
    have hpos : 0 < n.rounded.mag := Format.roundMag_pos n.den_pos (by rw [hnum, hden]; omega)
    omega

theorem fits64_range (hwhole : n.Whole) (hfits : n.Fits64) : ¬ n.Overflows ∧ ¬ n.Underflows := by
  have hmax : int64Max = 2 ^ 63 - 1 := rfl
  refine whole_range hwhole ?_
  rcases Number.fits64_iff.1 hfits with ⟨-, hv⟩ | ⟨-, hv⟩
  · omega
  · omega

/-! ### The guess -/

/-- A literal that is too large is seen to be. -/
theorem magnitude_of_overflows (h : n.Overflows) : 0 < n.magnitude := by
  by_contra hnot
  refine not_overflows ?_ h
  have hle := leadingSix_le n.expDigits
  rw [magnitude_eq, exponent_eq] at hnot
  rw [expValue]
  cases hneg : n.expNegative with
  | true =>
    rw [hneg, if_pos rfl] at hnot
    rw [if_pos rfl]
    omega
  | false =>
    rw [hneg, if_neg Bool.false_ne_true] at hnot
    have heq := leadingSix_eq n.isDigit_expDigits (by omega)
    rw [if_neg Bool.false_ne_true]
    omega

/-- The literal is too small, and its first digit is taken to stand far to the left: the zeros at
the front of its fraction are not counted, or a negative exponent is cut to six digits. -/
def Misjudged (n : Number) : Prop :=
  n.Underflows ∧
    if n.int = [0x30] then n.expNegative = false ∧
      2 ≤ digitsValue n.expDigits else leadingSix n.expDigits + 1 < n.int.length

theorem magnitude_of_underflows (h : n.Underflows) : 0 < n.magnitude ↔ n.Misjudged := by
  have hle := leadingSix_le n.expDigits
  rw [Misjudged, magnitude_eq, exponent_eq]
  by_cases hint : n.int = [0x30]
  · rw [if_pos hint, intDigits_zero hint]
    cases hneg : n.expNegative with
    | true =>
      rw [if_pos rfl]
      refine iff_of_false (by omega) fun hmis => ?_
      exact Bool.false_ne_true hmis.2.1.symm
    | false =>
      rw [if_neg Bool.false_ne_true]
      constructor
      · exact fun hpos => ⟨h, rfl, by omega⟩
      · rintro ⟨-, -, htwo⟩
        by_contra hnot
        have heq := leadingSix_eq n.isDigit_expDigits (by omega)
        omega
  · rw [if_neg hint, (intDigits_cons hint).1]
    have hsmall : ¬ 1 ≤ (n.intDigits : Int) + n.expValue := fun hone => not_underflows hint hone h
    rw [(intDigits_cons hint).1, expValue] at hsmall
    have hpos := (le_mantissa hint).2
    rw [(intDigits_cons hint).1] at hpos
    cases hneg : n.expNegative with
    | true =>
      rw [if_pos rfl]
      constructor
      · exact fun hmag => ⟨h, by omega⟩
      · rintro ⟨-, hlong⟩
        omega
    | false =>
      rw [hneg, if_neg Bool.false_ne_true] at hsmall
      omega

end Number

/-! ### The scan -/

/-- `none` if the literal overflows or underflows, and else the nearest double. -/
def Charconv.Correct (cc : Charconv) : Prop :=
  ∀ n : Number, cc.fromChars n.bytes = if n.Overflows ∨ n.Underflows then none else some n.rounded

/-- What is to be said of a literal. A 64-bit integer is reported as what it is, a zero among
them. -/
def Number.Judged (cc : Charconv) (n : Number) : Prop :=
  ∀ r, n.Ends r →
    ((scanNumber cc (n.bytes ++ r)).kind = .undefined ∧
      (scanNumber cc (n.bytes ++ r)).error = .outOfRange ↔ n.Overflows) ∧
    (n.rounded.mag = 0 → ¬ (n.Whole ∧ n.Fits64) → (scanNumber cc (n.bytes ++ r)).kind = .real ∧
      (scanNumber cc (n.bytes ++ r)).d = .zero doubleFormat (n.minus ≠ [])) ∧
    (¬ n.Overflows → (scanNumber cc (n.bytes ++ r)).kind ≠ .undefined)

variable {cc : Charconv}

theorem Number.judged_iff_scan :
    n.Judged cc ↔ ((n.scan cc).kind = .undefined ∧ (n.scan cc).error = .outOfRange ↔ n.Overflows) ∧
      (n.rounded.mag = 0 → ¬ (n.Whole ∧ n.Fits64) → (n.scan cc).kind = .real ∧
        (n.scan cc).d = .zero doubleFormat (n.minus ≠ [])) ∧
      (¬ n.Overflows → (n.scan cc).kind ≠ .undefined) := by
  constructor
  · intro h
    have h := h [] n.ends_nil
    rw [scanNumber_append n.ends_nil] at h
    exact h
  · intro h r hends
    rw [scanNumber_append hends]
    exact h

variable (cc) in
theorem Number.scan_integer (hwhole : n.Whole) (hfits : n.Fits64) :
    (n.scan cc).kind ≠ .undefined := by
  rcases Number.fits64_iff.1 hfits with ⟨hminus, hv⟩ | ⟨hminus, hv⟩
  · rw [Number.scan_uint cc hwhole hminus hv]
    exact Kind.noConfusion
  · rw [Number.scan_sint cc hwhole hminus hv]
    exact Kind.noConfusion

variable (cc) in
/-- Everything else is left to `from_chars`. -/
theorem Number.scan_real (h : ¬ (n.Whole ∧ n.Fits64)) :
    ∃ overflow, n.scan cc = n.realScan cc overflow := by
  rw [Number.scan]
  split
  · exact ⟨false, rfl⟩
  rename_i hparts
  rw [not_or, not_not, not_not] at hparts
  have hlarge : ¬ n.Fits64 := fun hfits => h ⟨hparts, hfits⟩
  rw [Number.fits64_iff, not_or] at hlarge
  rw [if_neg hlarge.1, if_neg hlarge.2]
  exact ⟨true, rfl⟩

theorem Number.not_underflows_of_overflows (h : n.Overflows) : ¬ n.Underflows := by
  rintro ⟨hzero, -⟩
  have hinf := of_decide_eq_true h
  rw [hzero] at hinf
  exact absurd hinf (by decide)

theorem Number.rounded_zero (h : n.rounded.mag = 0) :
    n.rounded = .zero doubleFormat (n.minus ≠ []) :=
  Binary.ext_iff.2 ⟨rfl, h⟩

/-- The scanner judges a literal as it is to, unless its value underflows and it is one of those
that are taken to be large. -/
theorem scanNumber_real_iff (cc : Charconv) (n : Number) (hcc : cc.Correct) :
    n.Judged cc ↔ ¬ n.Misjudged := by
  rw [Number.judged_iff_scan]
  by_cases hinteger : n.Whole ∧ n.Fits64
  · obtain ⟨hover, hunder⟩ := Number.fits64_range hinteger.1 hinteger.2
    have hkind := Number.scan_integer cc hinteger.1 hinteger.2
    refine iff_of_true ⟨iff_of_false (fun h => hkind h.1) hover, fun _ h => absurd hinteger h,
      fun _ => hkind⟩ ?_
    exact fun hmis => hunder hmis.1
  obtain ⟨overflow, hscan⟩ := Number.scan_real cc hinteger
  rw [hscan, Number.realScan, hcc n]
  by_cases hover : n.Overflows
  · rw [if_pos (.inl hover)]
    dsimp only
    rw [if_pos (Number.magnitude_of_overflows hover)]
    have hunder := Number.not_underflows_of_overflows hover
    refine iff_of_true ⟨iff_of_true ⟨rfl, rfl⟩ hover, fun hzero => ?_, fun h => absurd hover h⟩
      fun hmis => hunder hmis.1
    have hinf := of_decide_eq_true hover
    rw [hzero] at hinf
    exact absurd hinf (by decide)
  by_cases hunder : n.Underflows
  · rw [if_pos (.inr hunder)]
    dsimp only
    by_cases hmis : n.Misjudged
    · rw [if_pos ((Number.magnitude_of_underflows hunder).2 hmis)]
      exact iff_of_false (fun h => hover (h.1.1 ⟨rfl, rfl⟩)) (not_not_intro hmis)
    · rw [if_neg fun h => hmis ((Number.magnitude_of_underflows hunder).1 h)]
      refine iff_of_true ⟨iff_of_false (fun h => Kind.noConfusion h.1) hover, fun _ _ => ⟨rfl, rfl⟩,
        fun _ => Kind.noConfusion⟩ hmis
  · rw [if_neg (not_or.2 ⟨hover, hunder⟩)]
    refine iff_of_true ⟨iff_of_false (fun h => Kind.noConfusion h.1) hover,
      fun hzero _ => ⟨rfl, Number.rounded_zero hzero⟩,
      fun _ => Kind.noConfusion⟩ fun hmis => hunder hmis.1

/-! ### A conversion -/

/-- The double nearest to a number in its parts. -/
def roundParts (neg : Bool) (int frac exp : Bytes) : Double :=
  let e : Int := digitsValue (exp.tail.drop (signLength exp.tail))
  let scale := (if exp.tail.head? = some 0x2D then -e else e) - frac.tail.length
  .ofRatio doubleFormat neg (digitsValue (int ++ frac.tail) * 10 ^ scale.toNat)
    (10 ^ (-scale).toNat)

/-- `from_chars`, by exact arithmetic. -/
def exactConv : Charconv where
  fromChars s :=
    match scanParts s with
    | none => none
    | some p =>
      let int := (s.drop p.sign).take p.int
      let frac := (s.drop (p.sign + p.int)).take p.frac
      let exp := (s.drop (p.sign + p.int + p.frac)).take p.exp
      let d := roundParts (p.sign ≠ 0) int frac exp
      if d.isInf = true ∨ (d.mag = 0 ∧ digitsValue (int ++ frac.tail) ≠ 0) then none else some d
  toChars _ := []

theorem exactConv_correct : exactConv.Correct := by
  intro n
  have hparts : scanParts n.bytes = some n.parts :=
    scanParts_eq_some.2 ⟨n, [], (List.append_nil _).symm, n.ends_nil, rfl⟩
  have hint : (n.bytes.drop n.parts.sign).take n.parts.int = n.int := by
    rw [Number.bytes, Number.parts, List.drop_left, List.take_left]
  have hfrac : (n.bytes.drop (n.parts.sign + n.parts.int)).take n.parts.frac = n.frac := by
    rw [Number.bytes, Number.parts, ← List.drop_drop, List.drop_left, List.drop_left,
      List.take_left]
  have hexp : (n.bytes.drop (n.parts.sign + n.parts.int + n.parts.frac)).take n.parts.exp =
    n.exp := by
    rw [Number.bytes, Number.parts, ← List.drop_drop, ← List.drop_drop, List.drop_left,
      List.drop_left, List.drop_left,
      List.take_length]
  have hsign : decide (n.parts.sign ≠ 0) = decide (n.minus ≠ []) :=
    decide_eq_decide.2 (not_congr List.length_eq_zero_iff)
  have hround : roundParts (n.minus ≠ []) n.int n.frac n.exp = n.rounded := by
    rw [Number.rounded, roundParts, Number.num, Number.den, Number.scale, Number.expValue,
      Number.expNegative]
    simp only [decide_eq_true_eq]
    rfl
  rw [exactConv]
  dsimp only
  rw [hparts]
  dsimp only
  rw [hint, hfrac, hexp, hsign, hround]
  rfl

/-- `0.00…01e2` with 330 zeros behind the point. -/
def farDigit : Number where
  minus := []
  int := [0x30]
  frac := 0x2E :: (List.replicate 330 0x30 ++ [0x31])
  exp := [0x65, 0x32]
  minus_ok := minusPart_nil
  int_ok := intPart_zero
  frac_ok := by
    refine .inr ⟨_, ⟨List.append_ne_nil_of_right_ne_nil _ (List.cons_ne_nil _ _), fun c hc => ?_⟩,
      rfl⟩
    rcases List.mem_append.1 hc with hc | hc
    · rw [List.eq_of_mem_replicate hc]
      rfl
    · rw [List.mem_singleton.1 hc]
      rfl
  exp_ok := by
    refine .inr ⟨0x65, [], [0x32], rfl, .inl rfl, ⟨List.cons_ne_nil _ _, fun c hc => ?_⟩, rfl⟩
    rw [List.mem_singleton.1 hc]
    rfl

theorem misjudged_farDigit : farDigit.Misjudged := by
  refine ⟨by decide +kernel, ?_⟩
  rw [if_pos (show farDigit.int = [0x30] from rfl)]
  exact ⟨rfl, by decide⟩

/-- `1e400`, or `1e-400`. -/
def powerLiteral (negative : Bool) : Number where
  minus := []
  int := [0x31]
  frac := []
  exp := 0x65 :: ((if negative then [0x2D] else []) ++ [0x34, 0x30, 0x30])
  minus_ok := minusPart_nil
  int_ok := .inr ⟨⟨List.cons_ne_nil _ _, List.all_eq_true.1 rfl⟩, by decide⟩
  frac_ok := fracPart_nil
  exp_ok := by
    refine .inr ⟨0x65, if negative then [0x2D] else [], [0x34, 0x30, 0x30], rfl, ?_,
      ⟨List.cons_ne_nil _ _, List.all_eq_true.1 rfl⟩, rfl⟩
    cases negative with
    | true => exact .inr ⟨0x2D, rfl, rfl⟩
    | false => exact .inl rfl

/-- One literal overflows and one underflows, and the scanner tells them apart. -/
theorem scanNumber_real_iff_powers :
    (powerLiteral false).Judged exactConv ∧ (powerLiteral true).Judged exactConv :=
  ⟨(scanNumber_real_iff exactConv (powerLiteral false) exactConv_correct).2 fun h =>
    absurd h.2 (by decide),
    (scanNumber_real_iff exactConv (powerLiteral true) exactConv_correct).2 fun h =>
      absurd h.2 (by decide)⟩

/-- A number that is almost zero is reported as too large. -/
theorem scanNumber_far_digit : ¬ ∀ cc : Charconv, cc.Correct → ∀ n : Number, n.Judged cc := by
  intro hall
  have hjudged := Number.judged_iff_scan.1 (hall exactConv exactConv_correct farDigit)
  have hunder := misjudged_farDigit.1
  have hover : ¬ farDigit.Overflows := fun h => Number.not_underflows_of_overflows h hunder
  have hreal : farDigit.scan exactConv = farDigit.realScan exactConv false :=
    if_pos (.inl (List.cons_ne_nil _ _))
  have hnone : exactConv.fromChars farDigit.bytes = none := by
    rw [exactConv_correct farDigit, if_pos (.inr hunder)]
  have hpos := (Number.magnitude_of_underflows hunder).2 misjudged_farDigit
  refine hjudged.2.2 hover ?_
  rw [hreal, Number.realScan, hnone]
  dsimp only
  rw [if_pos hpos]

end VCodec.Json
