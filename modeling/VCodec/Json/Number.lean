import VCodec.Core.Build

/-!
# JSON numbers

`scanNumber` finds the number that a text begins with and classifies it. The grammar is RFC 8259's:
an integer part without leading zeros, then a fraction and an exponent that may be missing but not
cut. The scanner takes the longest number and fails where that is not one, so `scanNumber_length`
describes it by the number and what may stand behind it.

The conversions between doubles and decimal texts are the standard library's and a parameter.
-/

namespace VCodec.Json

/-- `std::from_chars` and `std::to_chars` of doubles. -/
structure Charconv where
  /-- `none` is `result_out_of_range`. -/
  fromChars : Bytes → Option Double
  toChars : Double → Bytes

/-- A conversion that knows no number. -/
def noCharconv : Charconv := ⟨fun _ => none, fun _ => []⟩

structure NumberScan where
  /-- `undefined` on an error. -/
  kind : Kind := .undefined
  length : Nat := 0
  u : Nat := 0
  i : Int := 0
  d : Double := .zero doubleFormat false
  error : Errc := .invalidNumber
  /-- An integer literal too large for 64 bits. -/
  overflow : Bool := false

/-! ### Parts of a number -/

def digits (s : Bytes) : Bytes := s.takeWhile isDigit

def startsWith (p : UInt8 → Bool) (s : Bytes) : Bool := s.head?.any p

/-- The length of the integer part that begins the text. -/
def scanInt (s : Bytes) : Option Nat :=
  if s.head? = some 0x30 then if startsWith isDigit s.tail then none else some 1
  else if startsWith isDigit s then some (digits s).length
  else none

def isPoint (c : UInt8) : Bool := c = 0x2E

def isExp (c : UInt8) : Bool := c = 0x65 ∨ c = 0x45

def isSign (c : UInt8) : Bool := c = 0x2B ∨ c = 0x2D

/-- The length of the fraction, 0 if there is none. -/
def scanFrac (s : Bytes) : Option Nat :=
  if startsWith isPoint s then if digits s.tail = [] then none else some
    (1 + (digits s.tail).length)
  else some 0

def signLength (s : Bytes) : Nat := if startsWith isSign s then 1 else 0

/-- The length of the exponent, 0 if there is none. -/
def scanExp (s : Bytes) : Option Nat :=
  if startsWith isExp s then
    let n := signLength s.tail
    let ds := digits (s.tail.drop n)
    if ds = [] then none else some (1 + n + ds.length)
  else some 0

/-- The lengths of the sign, the integer part, the fraction and the exponent. -/
structure Parts where
  sign : Nat
  int : Nat
  frac : Nat
  exp : Nat
  deriving DecidableEq, Repr

def Parts.length (p : Parts) : Nat := p.sign + p.int + p.frac + p.exp

def Parts.isReal (p : Parts) : Bool := p.frac ≠ 0 ∨ p.exp ≠ 0

def isMinus (c : UInt8) : Bool := c = 0x2D

def minusLength (s : Bytes) : Nat := if startsWith isMinus s then 1 else 0

def scanParts (s : Bytes) : Option Parts := do
  let sign := minusLength s
  let int ← scanInt (s.drop sign)
  let frac ← scanFrac (s.drop (sign + int))
  let exp ← scanExp (s.drop (sign + int + frac))
  return { sign, int, frac, exp }

/-! ### Classification -/

/-- The digits of an exponent as a number, kept below a million. -/
def exponentDigits (ds : Bytes) : Nat :=
  ds.foldl (fun e c => if e < 100000 then e * 10 + (c.toNat - 0x30) else e) 0

/-- The value of an exponent that may be missing. -/
def exponent (s : Bytes) : Int :=
  let e := exponentDigits (s.tail.drop (signLength s.tail))
  if s.tail.head? = some 0x2D then -(e : Int) else e

/-- Where the literal has its first digit, as a power of ten. -/
def magnitude (s : Bytes) (p : Parts) : Int :=
  let int := (s.drop p.sign).take p.int
  ((int.dropWhile (· = 0x30)).length : Int) - 1 + exponent
    ((s.drop (p.sign + p.int + p.frac)).take p.exp)

/-- A number that is not a 64-bit integer. -/
def realScan (cc : Charconv) (s : Bytes) (p : Parts) (overflow : Bool) : NumberScan :=
  match cc.fromChars (s.take p.length) with
  | some d => { kind := .real, length := p.length, d, overflow }
  | none =>
    if 0 < magnitude s p then { length := p.length, error := .outOfRange, overflow }
    else { kind := .real, length := p.length, d := .zero doubleFormat (p.sign ≠ 0), overflow }

def classify (cc : Charconv) (s : Bytes) (p : Parts) : NumberScan :=
  let v := digitsValue ((s.drop p.sign).take p.int)
  if p.isReal then realScan cc s p false
  else if p.sign = 0 ∧ v < 2 ^ 64 then { kind := .uint, length := p.length, u := v }
  else if p.sign ≠ 0 ∧ v ≤ int64Max + 1 then { kind := .sint, length := p.length, i := -(v : Int) }
  else realScan cc s p true

def scanNumber (cc : Charconv) (s : Bytes) : NumberScan :=
  match scanParts s with
  | some p => classify cc s p
  | none => {}

/-! ### The grammar -/

/-- One digit at least. -/
def Digits (ds : Bytes) : Prop := ds ≠ [] ∧ ∀ c ∈ ds, isDigit c

/-- `int`, without leading zeros. -/
def IntPart (s : Bytes) : Prop := s = [0x30] ∨ (Digits s ∧ s.head? ≠ some 0x30)

/-- `frac`, or nothing. -/
def FracPart (s : Bytes) : Prop := s = [] ∨ ∃ ds, Digits ds ∧ s = 0x2E :: ds

/-- The sign of an exponent, or nothing. -/
def SignPart (s : Bytes) : Prop := s = [] ∨ ∃ c, isSign c ∧ s = [c]

/-- `exp`, or nothing. -/
def ExpPart (s : Bytes) : Prop :=
  s = [] ∨ ∃ e sign ds, isExp e ∧ SignPart sign ∧ Digits ds ∧ s = e :: (sign ++ ds)

def MinusPart (s : Bytes) : Prop := s = [] ∨ s = [0x2D]

theorem minusPart_nil : MinusPart [] := .inl rfl

theorem intPart_zero : IntPart [0x30] := .inl rfl

theorem fracPart_nil : FracPart [] := .inl rfl

theorem expPart_nil : ExpPart [] := .inl rfl

/-- A number of RFC 8259, in its parts. -/
structure Number where
  minus : Bytes
  int : Bytes
  frac : Bytes
  exp : Bytes
  minus_ok : MinusPart minus
  int_ok : IntPart int
  frac_ok : FracPart frac
  exp_ok : ExpPart exp

def Number.bytes (n : Number) : Bytes := n.minus ++ (n.int ++ (n.frac ++ n.exp))

def Number.parts (n : Number) : Parts := ⟨n.minus.length, n.int.length, n.frac.length, n.exp.length⟩

theorem Number.parts_length (n : Number) : n.parts.length = n.bytes.length := by
  simp [Number.parts, Number.bytes, Parts.length, Nat.add_assoc]

/-- No longer number begins with this one where `r` stands behind it. -/
def Number.Ends (n : Number) (r : Bytes) : Prop :=
  startsWith isDigit r = false ∧ (n.exp = [] → startsWith isExp r = false) ∧
    (n.frac = [] → n.exp = [] → startsWith isPoint r = false)

/-! ### The scanner against the grammar -/

section

variable {s r ds : Bytes} {n : Nat}

theorem digits_append (hds : ∀ c ∈ ds, isDigit c) (hr : startsWith isDigit r = false) :
    digits (ds ++ r) = ds := by
  rw [digits, List.takeWhile_append_of_pos hds]
  cases r with
  | nil => rw [List.takeWhile_nil, List.append_nil]
  | cons c r =>
    have hc : isDigit c = false := by simpa [startsWith] using hr
    rw [List.takeWhile_cons_of_neg (by simp [hc]), List.append_nil]

theorem exists_digits (s : Bytes) :
    ∃ r, s = digits s ++ r ∧ (∀ c ∈ digits s, isDigit c) ∧ startsWith isDigit r = false := by
  refine ⟨s.dropWhile isDigit, (List.takeWhile_append_dropWhile).symm, fun c hc => ?_, ?_⟩
  · exact List.all_eq_true.1 List.all_takeWhile c hc
  · cases hd : s.dropWhile isDigit with
    | nil => rfl
    | cons c r =>
      have hc := List.head_dropWhile_not (p := isDigit) (l := s) (by simp [hd])
      simpa [startsWith, hd] using hc

theorem startsWith_append {p : UInt8 → Bool} (hs : s ≠ []) :
    startsWith p (s ++ r) = startsWith p s := by
  cases s with
  | nil => exact absurd rfl hs
  | cons c s => rfl

theorem scanInt_eq_some :
    scanInt s = some n ↔ ∃ int r, IntPart int ∧ s = int ++ r ∧ startsWith isDigit r = false ∧
      n = int.length := by
  unfold scanInt
  constructor
  · intro h
    split at h
    · rename_i hzero
      obtain ⟨r, rfl⟩ := List.head?_eq_some_iff.1 hzero
      split at h
      · cases h
      · rename_i hr
        cases h
        exact ⟨[0x30], r, .inl rfl, rfl, by simpa using hr, rfl⟩
    · rename_i hzero
      split at h
      · rename_i hdigit
        cases h
        obtain ⟨r, hs, hds, hr⟩ := exists_digits s
        refine ⟨digits s, r, .inr ⟨⟨fun hnil => ?_, hds⟩, ?_⟩, hs, hr, rfl⟩
        · rw [hnil, List.nil_append] at hs
          rw [hs, hr] at hdigit
          cases hdigit
        · intro hhead
          obtain ⟨ds, hds'⟩ := List.head?_eq_some_iff.1 hhead
          rw [hs, hds'] at hzero
          exact hzero rfl
      · cases h
  · rintro ⟨int, r, hint, rfl, hr, rfl⟩
    rcases hint with rfl | ⟨⟨hne, hds⟩, hzero⟩
    · have hhead : ([0x30] ++ r).head? = some 0x30 := rfl
      have htail : ([0x30] ++ r).tail = r := rfl
      rw [if_pos hhead, htail, if_neg (by simpa using hr)]
      rfl
    · obtain ⟨c, ds, rfl⟩ := List.exists_cons_of_ne_nil hne
      have hhead : ¬ (c :: ds ++ r).head? = some 0x30 := hzero
      have hstart : startsWith isDigit (c :: ds ++ r) = true := hds c List.mem_cons_self
      rw [if_neg hhead, if_pos hstart, digits_append hds hr]

theorem scanFrac_eq_some :
    scanFrac s = some n ↔ ∃ frac r, FracPart frac ∧ s = frac ++ r ∧
      (frac = [] → startsWith isPoint r = false) ∧
      (frac ≠ [] → startsWith isDigit r = false) ∧ n = frac.length := by
  unfold scanFrac
  constructor
  · intro h
    split at h
    · rename_i hpoint
      split at h
      · cases h
      · rename_i hne
        cases h
        obtain ⟨c, s, rfl⟩ : ∃ c t, s = c :: t := by
          cases s with
          | nil => cases hpoint
          | cons c t => exact ⟨c, t, rfl⟩
        obtain ⟨r, hs, hds, hr⟩ := exists_digits s
        have hc : c = 0x2E := by simpa [startsWith, isPoint] using hpoint
        refine ⟨c :: digits s, r, .inr ⟨digits s, ⟨hne, hds⟩, by rw [hc]⟩, ?_,
          (fun h => by cases h), fun _ => hr, ?_⟩
        · rw [List.cons_append, ← hs]
        · rw [List.length_cons, Nat.add_comm]
          rfl
    · rename_i hpoint
      cases h
      exact ⟨[], s, .inl rfl, rfl, fun _ => by simpa using hpoint, fun h => absurd rfl h, rfl⟩
  · rintro ⟨frac, r, hfrac, rfl, hpoint, hdigit, rfl⟩
    rcases hfrac with rfl | ⟨ds, ⟨hne, hds⟩, rfl⟩
    · rw [List.nil_append, if_neg (by simpa using hpoint rfl)]
      rfl
    · have hr := hdigit (List.cons_ne_nil _ _)
      have htail : (0x2E :: ds ++ r).tail = ds ++ r := rfl
      rw [if_pos (show startsWith isPoint (0x2E :: ds ++ r) = true by rfl), htail,
        digits_append hds hr, if_neg hne,
        List.length_cons, Nat.add_comm]

theorem signLength_append {sign : Bytes} (hsign : SignPart sign) (hds : Digits ds) :
    signLength (sign ++ (ds ++ r)) = sign.length := by
  unfold signLength
  rcases hsign with rfl | ⟨c, hc, rfl⟩
  · obtain ⟨d, ds, rfl⟩ := List.exists_cons_of_ne_nil hds.1
    have hd : isDigit d = true := hds.2 d List.mem_cons_self
    have hsign : isSign d = false := by
      rw [isDigit, decide_eq_true_eq] at hd
      rw [isSign, decide_eq_false_iff_not]
      rintro (rfl | rfl)
      · exact absurd hd (by decide)
      · exact absurd hd (by decide)
    rw [if_neg]
    · rfl
    · simpa [startsWith] using hsign
  · rw [if_pos]
    · rfl
    · exact hc

theorem exists_sign (s : Bytes) :
    ∃ sign r, SignPart sign ∧ s = sign ++ r ∧ signLength s = sign.length := by
  unfold signLength
  split
  · rename_i h
    cases s with
    | nil => cases h
    | cons c r => exact ⟨[c], r, .inr ⟨c, h, rfl⟩, rfl, rfl⟩
  · exact ⟨[], s, .inl rfl, rfl, rfl⟩

theorem scanExp_eq_some :
    scanExp s = some n ↔ ∃ exp r, ExpPart exp ∧ s = exp ++ r ∧
      (exp = [] → startsWith isExp r = false) ∧
      (exp ≠ [] → startsWith isDigit r = false) ∧ n = exp.length := by
  unfold scanExp
  constructor
  · intro h
    split at h
    · rename_i hexp
      simp only at h
      split at h
      · cases h
      · rename_i hne
        cases h
        obtain ⟨e, s, rfl⟩ : ∃ c t, s = c :: t := by
          cases s with
          | nil => cases hexp
          | cons c t => exact ⟨c, t, rfl⟩
        obtain ⟨sign, t, hsign, hs, hlen⟩ := exists_sign s
        have hdrop : (e :: s).tail.drop (signLength (e :: s).tail) = t := by
          rw [List.tail_cons, hlen, hs, List.drop_left]
        rw [hdrop] at hne ⊢
        obtain ⟨r, ht, hds, hr⟩ := exists_digits t
        refine ⟨e :: (sign ++ digits t), r, .inr ⟨e, sign, digits t, hexp, hsign, ⟨hne, hds⟩, rfl⟩,
          ?_,
          (fun h => by cases h), fun _ => hr, ?_⟩
        · rw [List.cons_append, List.append_assoc, ← ht, ← hs]
        · rw [List.length_cons, List.length_append, List.tail_cons, hlen]
          omega
    · rename_i hexp
      cases h
      exact ⟨[], s, .inl rfl, rfl, fun _ => by simpa using hexp, fun h => absurd rfl h, rfl⟩
  · rintro ⟨exp, r, hexp, rfl, hnone, hdigit, rfl⟩
    rcases hexp with rfl | ⟨e, sign, ds, he, hsign, hds, rfl⟩
    · rw [List.nil_append, if_neg (by simpa using hnone rfl)]
      rfl
    · have hr := hdigit (List.cons_ne_nil _ _)
      have htail : (e :: (sign ++ ds) ++ r).tail = sign ++ (ds ++ r) := by
        rw [List.cons_append, List.tail_cons, List.append_assoc]
      rw [if_pos (show startsWith isExp (e :: (sign ++ ds) ++ r) = true from he), htail]
      simp only [signLength_append hsign hds, List.drop_left, digits_append hds.2 hr]
      rw [if_neg hds.1, List.length_cons, List.length_append, Nat.add_comm 1, Nat.add_right_comm]

theorem exists_minus (s : Bytes) :
    ∃ minus r, MinusPart minus ∧ s = minus ++ r ∧ minusLength s = minus.length := by
  unfold minusLength
  split
  · rename_i h
    cases s with
    | nil => cases h
    | cons c r =>
      have hc : c = 0x2D := by simpa [startsWith, isMinus] using h
      exact ⟨[c], r, .inr (by rw [hc]), rfl, rfl⟩
  · exact ⟨[], s, .inl rfl, rfl, rfl⟩

theorem minusLength_append {minus int : Bytes} (hminus : MinusPart minus) (hint : IntPart int) :
    minusLength (minus ++ (int ++ r)) = minus.length := by
  unfold minusLength
  rcases hminus with rfl | rfl
  · rw [if_neg]
    · rfl
    · rcases hint with rfl | ⟨⟨hne, hds⟩, -⟩
      · simp [startsWith, isMinus]
      · obtain ⟨c, ds, rfl⟩ := List.exists_cons_of_ne_nil hne
        have hc := hds c List.mem_cons_self
        rw [isDigit, decide_eq_true_eq] at hc
        simp only [List.nil_append, List.cons_append, startsWith, List.head?_cons, Option.any_some,
          isMinus,
          decide_eq_true_eq]
        rintro rfl
        exact absurd hc (by decide)
  · rw [if_pos (show startsWith isMinus ([0x2D] ++ (int ++ r)) = true by rfl)]
    rfl

/-- The scanner finds the longest number, and fails where that is cut. -/
theorem scanParts_eq_some {p : Parts} :
    scanParts s = some p ↔ ∃ (n : Number) (r : Bytes), s = n.bytes ++ r ∧ n.Ends r ∧
      p = n.parts := by
  simp only [scanParts, Option.bind_eq_bind, Option.pure_def, Option.bind_eq_some_iff,
    Option.some.injEq]
  constructor
  · rintro ⟨i, hi, f, hf, e, he, rfl⟩
    obtain ⟨minus, r₀, hminus, rfl, hlen⟩ := exists_minus s
    rw [hlen] at hi hf he ⊢
    rw [List.drop_left, scanInt_eq_some] at hi
    obtain ⟨int, r₁, hint, rfl, hidigit, rfl⟩ := hi
    rw [← List.append_assoc, ← List.length_append, List.drop_left, scanFrac_eq_some] at hf
    obtain ⟨frac, r₂, hfrac, rfl, hpoint, hfdigit, rfl⟩ := hf
    rw [← List.append_assoc, ← List.append_assoc, ← List.length_append, ← List.length_append,
      List.drop_left,
      scanExp_eq_some] at he
    obtain ⟨exp, r, hexp, rfl, hnoexp, hedigit, rfl⟩ := he
    refine ⟨⟨minus, int, frac, exp, hminus, hint, hfrac, hexp⟩, r, ?_,
      ⟨?_, hnoexp, fun hf he => ?_⟩, rfl⟩
    · simp [Number.bytes]
    · by_cases he : exp = []
      · subst he
        by_cases hf : frac = []
        · subst hf
          exact hidigit
        · exact hfdigit hf
      · exact hedigit he
    · subst hf he
      exact hpoint rfl
  · rintro ⟨⟨minus, int, frac, exp, hminus, hint, hfrac, hexp⟩, r, rfl, ⟨hdigit, hnoexp, hpoint⟩,
      rfl⟩
    have hbytes : Number.bytes ⟨minus, int, frac, exp, hminus, hint, hfrac, hexp⟩ ++ r =
        minus ++ (int ++ (frac ++ (exp ++ r))) := by simp [Number.bytes]
    have hexpDigit : exp ≠ [] → startsWith isDigit exp = false ∧
      startsWith isPoint exp = false := by
      intro hne
      rcases hexp with rfl | ⟨e, sign, ds, he, -, -, rfl⟩
      · exact absurd rfl hne
      · rw [isExp, decide_eq_true_eq] at he
        rcases he with rfl | rfl <;> exact ⟨rfl, rfl⟩
    have hexpStart : startsWith isDigit (exp ++ r) = false := by
      by_cases he : exp = []
      · rwa [he]
      · rw [startsWith_append he]
        exact (hexpDigit he).1
    have hfracStart : startsWith isDigit (frac ++ (exp ++ r)) = false := by
      rcases hfrac with rfl | ⟨ds, hds, rfl⟩
      · exact hexpStart
      · rfl
    have hexpPoint : frac = [] → startsWith isPoint (exp ++ r) = false := by
      intro hf
      by_cases he : exp = []
      · subst he
        exact hpoint hf rfl
      · rw [startsWith_append he]
        exact (hexpDigit he).2
    rw [hbytes, minusLength_append hminus hint]
    refine ⟨int.length, ?_, frac.length, ?_, exp.length, ?_, rfl⟩
    · rw [List.drop_left]
      exact scanInt_eq_some.2 ⟨int, _, hint, rfl, hfracStart, rfl⟩
    · rw [← List.append_assoc, ← List.length_append, List.drop_left]
      exact scanFrac_eq_some.2 ⟨frac, _, hfrac, rfl, hexpPoint, fun _ => hexpStart, rfl⟩
    · rw [← List.append_assoc, ← List.append_assoc, ← List.length_append, ← List.length_append,
        List.drop_left]
      exact scanExp_eq_some.2 ⟨exp, r, hexp, rfl, hnoexp, fun _ => hdigit, rfl⟩

/-! ### The scan of a number -/

def Number.magnitude (n : Number) : Int :=
  ((n.int.dropWhile (· = 0x30)).length : Int) - 1 + exponent n.exp

def Number.realScan (cc : Charconv) (n : Number) (overflow : Bool) : NumberScan :=
  match cc.fromChars n.bytes with
  | some d => { kind := .real, length := n.bytes.length, d, overflow }
  | none =>
    if 0 < n.magnitude then { length := n.bytes.length, error := .outOfRange, overflow }
    else { kind := .real, length := n.bytes.length, d := .zero doubleFormat (n.minus ≠ []), overflow }

/-- What the scanner says of a number, whatever stands behind it. -/
def Number.scan (cc : Charconv) (n : Number) : NumberScan :=
  if n.frac ≠ [] ∨ n.exp ≠ [] then n.realScan cc false
  else if n.minus = [] ∧ digitsValue n.int < 2 ^ 64 then
    { kind := .uint, length := n.bytes.length, u := digitsValue n.int }
  else if n.minus ≠ [] ∧ digitsValue n.int ≤ int64Max + 1 then
    { kind := .sint, length := n.bytes.length, i := -(digitsValue n.int : Int) }
  else n.realScan cc true

theorem realScan_parts (cc : Charconv) (n : Number) (r : Bytes) (overflow : Bool) :
    realScan cc (n.bytes ++ r) n.parts overflow = n.realScan cc overflow := by
  have hbytes : (n.bytes ++ r).take n.parts.length = n.bytes := by
    rw [n.parts_length, List.take_left]
  have hmagnitude : magnitude (n.bytes ++ r) n.parts = n.magnitude := by
    have hint : ((n.bytes ++ r).drop n.parts.sign).take n.parts.int = n.int := by
      rw [Number.bytes, List.append_assoc, Number.parts, List.drop_left, List.append_assoc,
        List.take_left]
    have hexp : ((n.bytes ++ r).drop (n.parts.sign + n.parts.int + n.parts.frac)).take n.parts.exp =
      n.exp := by
      simp only [Number.bytes, Number.parts, List.append_assoc]
      rw [← List.drop_drop, ← List.drop_drop, List.drop_left, List.drop_left, List.drop_left,
        List.take_left]
    rw [magnitude, hint, hexp]
    rfl
  have hsign : decide (n.parts.sign ≠ 0) = decide (n.minus ≠ []) :=
    decide_eq_decide.2 (not_congr List.length_eq_zero_iff)
  rw [realScan, Number.realScan, hbytes, hmagnitude, hsign, n.parts_length]

theorem scanNumber_append {cc : Charconv} {n : Number} {r : Bytes} (hends : n.Ends r) :
    scanNumber cc (n.bytes ++ r) = n.scan cc := by
  have hparts : scanParts (n.bytes ++ r) = some n.parts :=
    scanParts_eq_some.2 ⟨n, r, rfl, hends, rfl⟩
  have hint : ((n.bytes ++ r).drop n.parts.sign).take n.parts.int = n.int := by
    rw [Number.bytes, List.append_assoc, Number.parts, List.drop_left, List.append_assoc,
      List.take_left]
  have hreal : n.parts.isReal = decide (n.frac ≠ [] ∨ n.exp ≠ []) :=
    decide_eq_decide.2
      (or_congr (not_congr List.length_eq_zero_iff) (not_congr List.length_eq_zero_iff))
  have hminus : n.parts.sign = 0 ↔ n.minus = [] := List.length_eq_zero_iff
  rw [scanNumber, hparts]
  dsimp only
  rw [classify, hint, hreal, Number.scan]
  simp only [realScan_parts, decide_eq_true_eq, hminus, ne_eq, n.parts_length]

theorem Number.ends_nil (n : Number) : n.Ends [] := ⟨rfl, fun _ => rfl, fun _ _ => rfl⟩

theorem Number.exists_cons (n : Number) :
    ∃ c cs, n.bytes = c :: cs ∧ (c = 0x2D ∨ isDigit c = true) := by
  rw [Number.bytes]
  rcases n.minus_ok with hminus | hminus
  · rw [hminus]
    rcases n.int_ok with hzero | ⟨hdigits, -⟩
    · rw [hzero]
      exact ⟨_, _, rfl, .inr rfl⟩
    · obtain ⟨c, ds, hcons⟩ := List.exists_cons_of_ne_nil hdigits.1
      rw [hcons]
      exact ⟨_, _, rfl, .inr (hdigits.2 c (by rw [hcons]; exact List.mem_cons_self))⟩
  · rw [hminus]
    exact ⟨_, _, rfl, .inl rfl⟩

/-- The parts of a number are determined by its text. -/
theorem Number.parts_congr {n n' : Number} (h : n.bytes = n'.bytes) : n.parts = n'.parts := by
  have hscan : ∀ m : Number, scanParts m.bytes = some m.parts := fun m =>
    scanParts_eq_some.2 ⟨m, [], (List.append_nil _).symm, m.ends_nil, rfl⟩
  have hn := hscan n
  rw [h, hscan n'] at hn
  exact (Option.some.inj hn).symm

theorem Number.Ends.congr {n n' : Number} {r : Bytes} (hends : n.Ends r) (h : n.bytes = n'.bytes) :
    n'.Ends r := by
  have hparts := Number.parts_congr h
  have hfrac : n'.frac = [] → n.frac = [] := fun hnil => by
    have hlen := congrArg Parts.frac hparts
    rw [Number.parts, Number.parts, hnil] at hlen
    exact List.length_eq_zero_iff.1 hlen
  have hexp : n'.exp = [] → n.exp = [] := fun hnil => by
    have hlen := congrArg Parts.exp hparts
    rw [Number.parts, Number.parts, hnil] at hlen
    exact List.length_eq_zero_iff.1 hlen
  exact ⟨hends.1, fun he => hends.2.1 (hexp he), fun hf he => hends.2.2 (hfrac hf) (hexp he)⟩

end

end VCodec.Json
