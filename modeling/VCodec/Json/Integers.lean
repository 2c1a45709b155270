import VCodec.Json.Expect
import VCodec.Json.Strings
import VCodec.Core.Decimal
import VCodec.Core.Simulate
import VCodec.Core.Narrow

/-!
# Integer literals

An integer literal goes through the scanner, which takes it for unsigned, for negative or for a real
that is too large, then through one of two operations, and is narrowed at last. A quoted one goes
through the same scanner. `decodeInt_literal_iff` says when the value arrives: minus zero is refused
as unsigned, and a quoted number that exceeds 64 bits is not called out of range.
-/

namespace VCodec.Json

open D

variable {o : Options} {cc : Charconv} {inp : Bytes} {s : State} {n : Number} {α : Type}

/-! ### Literals -/

/-- No fraction, no exponent. -/
def Number.Whole (n : Number) : Prop := n.frac = [] ∧ n.exp = []

def Number.intValue (n : Number) : Int :=
  if n.minus = [] then digitsValue n.int else -(digitsValue n.int : Int)

/-- The value is a 64-bit integer, signed or not. -/
def Number.Fits64 (n : Number) : Prop := -2 ^ 63 ≤ n.intValue ∧ n.intValue < 2 ^ 64

instance (n : Number) : Decidable n.Fits64 := inferInstanceAs (Decidable (_ ∧ _))

/-- How a literal stands in the text. -/
inductive Form
  | bare | quoted
  deriving DecidableEq, Repr

/-- The literal stands behind the blanks. Only a member that is read as a string may have it in
quotes. -/
def Form.Stands (form : Form) (f : FieldMeta) (n : Number) (inp : Bytes) (s : State) : Prop :=
  match form with
  | .bare => ∃ rest, inp.drop (s.skipped inp).pos = n.bytes ++ rest ∧ n.Ends rest
  | .quoted =>
    f.asString = true ∧ ∃ rest, inp.drop (s.skipped inp).pos = 0x22 :: (n.bytes ++ 0x22 :: rest)

def Form.length (form : Form) (n : Number) : Nat :=
  match form with
  | .bare => n.bytes.length
  | .quoted => n.bytes.length + 2

/-- How a literal is refused. -/
def Form.refusal (form : Form) (n : Number) : Errc :=
  if form = .quoted ∧ ¬ n.Fits64 then .typeMismatch else .outOfRange

/-! ### The scan -/

theorem Number.isDigit_int (n : Number) : ∀ c ∈ n.int, isDigit c = true := by
  rcases n.int_ok with hzero | ⟨hdigits, -⟩
  · intro c hc
    rw [hzero, List.mem_singleton] at hc
    rw [hc]
    rfl
  · exact hdigits.2

variable (cc) in
theorem Number.scan_uint
    (hwhole : n.Whole) (hminus : n.minus = []) (hv : digitsValue n.int < 2 ^ 64) :
    n.scan cc = { kind := .uint, length := n.bytes.length, u := digitsValue n.int } := by
  rw [Number.scan, if_neg (not_or.2 ⟨not_not.2 hwhole.1, not_not.2 hwhole.2⟩), if_pos ⟨hminus, hv⟩]

variable (cc) in
theorem Number.scan_sint
    (hwhole : n.Whole) (hminus : n.minus ≠ []) (hv : digitsValue n.int ≤ int64Max + 1) :
    n.scan cc = { kind := .sint, length := n.bytes.length, i := -(digitsValue n.int : Int) } := by
  rw [Number.scan, if_neg (not_or.2 ⟨not_not.2 hwhole.1, not_not.2 hwhole.2⟩),
    if_neg fun h => hminus h.1,
    if_pos ⟨hminus, hv⟩]

/-- Too large for 64 bits: a real, or too large for that as well. -/
def NumberScan.Large (x : NumberScan) : Prop :=
  x.overflow = true ∧ (x.kind = .real ∨ (x.kind = .undefined ∧ x.error = .outOfRange))

theorem Number.fits64_iff :
    n.Fits64 ↔ (n.minus = [] ∧ digitsValue n.int < 2 ^ 64) ∨
      (n.minus ≠ [] ∧ digitsValue n.int ≤ int64Max + 1) := by
  have hmax : int64Max + 1 = 2 ^ 63 := rfl
  rw [Number.Fits64, Number.intValue, hmax]
  by_cases hminus : n.minus = []
  · simp only [hminus, if_true, true_and, ne_eq, not_true_eq_false, false_and, or_false]
    omega
  · simp only [hminus, if_false, false_and, ne_eq, not_false_eq_true, true_and, false_or]
    omega

/-- A literal of two digits is at least ten, so its magnitude is positive. -/
theorem Number.magnitude_pos (hwhole : n.Whole) (hlarge : 10 ≤ digitsValue n.int) :
    0 < n.magnitude := by
  have hlt := digitsValue_lt n.isDigit_int
  have htwo : 2 ≤ n.int.length := by
    by_contra hone
    have hpow : 10 ^ n.int.length ≤ 10 ^ 1 := Nat.pow_le_pow_right (by decide) (by omega)
    omega
  have hdrop : n.int.dropWhile (fun c => decide (c = 0x30)) = n.int := by
    rcases n.int_ok with hzero | ⟨hdigits, hhead⟩
    · rw [hzero] at htwo
      exact absurd htwo (by decide)
    · obtain ⟨c, ds, hcons⟩ := List.exists_cons_of_ne_nil hdigits.1
      rw [hcons] at hhead ⊢
      exact List.dropWhile_cons_of_neg fun hc => hhead (congrArg some (of_decide_eq_true hc))
  have hexp : exponent n.exp = 0 := by
    rw [hwhole.2]
    rfl
  rw [Number.magnitude, hexp, hdrop]
  omega

variable (cc) in
theorem Number.scan_large (hwhole : n.Whole) (hlarge : ¬ n.Fits64) : (n.scan cc).Large := by
  rw [Number.fits64_iff, not_or] at hlarge
  have hten : 10 ≤ digitsValue n.int := by
    by_contra hlt
    by_cases hminus : n.minus = []
    · exact hlarge.1 ⟨hminus, by omega⟩
    · exact hlarge.2 ⟨hminus, by rw [int64Max]; omega⟩
  rw [Number.scan, if_neg (not_or.2 ⟨not_not.2 hwhole.1, not_not.2 hwhole.2⟩), if_neg hlarge.1,
    if_neg hlarge.2,
    Number.realScan]
  cases cc.fromChars n.bytes with
  | some d => exact ⟨rfl, .inl rfl⟩
  | none =>
    dsimp only
    rw [if_pos (Number.magnitude_pos hwhole hten)]
    exact ⟨rfl, .inr ⟨rfl, rfl⟩⟩

/-! ### Bare literals -/

/-- The number at the position is scanned. -/
theorem number_at {expected rest : Bytes} (hdrop : inp.drop s.pos = n.bytes ++ rest)
    (hends : n.Ends rest) :
    number cc inp expected s =
      if (n.scan cc).kind = .undefined then .error (numberError inp s.pos (n.scan cc)) s else .ok
        (n.scan cc) s := by
  obtain ⟨c, cs, hcons, hc⟩ := n.exists_cons
  have hat : at? inp s.pos = some c := at?_eq (by rw [hdrop, hcons]; rfl)
  rw [number, hat]
  dsimp only
  rw [if_neg (not_not.2 hc), hdrop, scanNumber_append hends]

theorem number_ok {expected rest : Bytes} {x : NumberScan}
    (hdrop : inp.drop s.pos = n.bytes ++ rest) (hends : n.Ends rest) (hscan : n.scan cc = x)
    (hkind : x.kind ≠ .undefined) : number cc inp expected s = .ok x s := by
  rw [number_at hdrop hends, hscan, if_neg hkind]

/-- A literal that is too large is out of range, for the scanner or for what comes next. -/
theorem number_large {expected rest : Bytes} {f : NumberScan → M α}
    (hdrop : inp.drop s.pos = n.bytes ++ rest) (hends : n.Ends rest) (hlarge : (n.scan cc).Large)
    (hf : ∀ x : NumberScan, x.overflow = true → x.kind = .real → ∃ e, f x s = .error e s ∧
      e.code = .outOfRange) :
    ∃ e, (number cc inp expected >>= f) s = .error e s ∧ e.code = .outOfRange := by
  obtain ⟨hover, hreal | ⟨hundef, herror⟩⟩ := hlarge
  · rw [Run.bind_of_ok (number_ok hdrop hends rfl (by rw [hreal]; exact Kind.noConfusion))]
    exact hf _ hover hreal
  · have hfails : number cc inp expected s = .error (numberError inp s.pos (n.scan cc)) s := by
      rw [number_at hdrop hends, if_pos hundef]
    rw [Run.bind_of_error hfails]
    refine ⟨_, rfl, ?_⟩
    rw [numberError, if_pos herror]
    rfl

theorem expectPlainUint_at
    {rest : Bytes} (hwhole : n.Whole) (hdrop : inp.drop (s.skipped inp).pos = n.bytes ++ rest)
    (hends : n.Ends rest) :
    if n.minus = [] ∧ digitsValue n.int < 2 ^ 64 then
      expectPlainUint cc inp s = .ok (digitsValue n.int) ((s.skipped inp).advance n.bytes.length)
    else ∃ e, expectPlainUint cc inp s = .error e (s.skipped inp) ∧ e.code = .outOfRange := by
  rw [expectPlainUint, Run.bind_of_ok (skipWs_run s)]
  split
  · rename_i hfits
    rw [Run.bind_of_ok
      (number_ok hdrop hends (Number.scan_uint cc hwhole hfits.1 hfits.2) Kind.noConfusion)]
    rfl
  · rename_i hnot
    by_cases hsint : n.minus ≠ [] ∧ digitsValue n.int ≤ int64Max + 1
    · rw [Run.bind_of_ok
        (number_ok hdrop hends (Number.scan_sint cc hwhole hsint.1 hsint.2) Kind.noConfusion)]
      exact ⟨_, rfl, rfl⟩
    · have hlarge : ¬ n.Fits64 := by
        rw [Number.fits64_iff]
        exact not_or.2 ⟨hnot, hsint⟩
      refine number_large hdrop hends (Number.scan_large cc hwhole hlarge) fun x hover hreal => ?_
      rw [hreal, if_neg Kind.noConfusion, if_pos (.inr hover)]
      exact ⟨_, rfl, rfl⟩

theorem expectPlainSint_at
    {rest : Bytes} (hwhole : n.Whole) (hdrop : inp.drop (s.skipped inp).pos = n.bytes ++ rest)
    (hends : n.Ends rest) :
    if -2 ^ 63 ≤ n.intValue ∧ n.intValue < 2 ^ 63 then
      expectPlainSint cc inp s = .ok n.intValue ((s.skipped inp).advance n.bytes.length)
    else ∃ e, expectPlainSint cc inp s = .error e (s.skipped inp) ∧ e.code = .outOfRange := by
  have hmax : int64Max + 1 = 2 ^ 63 := rfl
  rw [expectPlainSint, Run.bind_of_ok (skipWs_run s)]
  by_cases hlarge : n.Fits64
  · rcases Number.fits64_iff.1 hlarge with ⟨hminus, hv⟩ | ⟨hminus, hv⟩
    · have hvalue : n.intValue = digitsValue n.int := if_pos hminus
      have hkind : Kind.uint ≠ Kind.sint := Kind.noConfusion
      have hscan := Number.scan_uint cc hwhole hminus hv
      rcases Nat.lt_or_ge int64Max (digitsValue n.int) with hout | hin
      · rw [if_neg (show ¬ (-2 ^ 63 ≤ n.intValue ∧ n.intValue < 2 ^ 63) by omega)]
        rw [Run.bind_of_ok (number_ok hdrop hends hscan Kind.noConfusion), if_neg hkind, if_pos rfl,
          if_pos hout]
        exact ⟨_, rfl, rfl⟩
      · rw [if_pos (show -2 ^ 63 ≤ n.intValue ∧ n.intValue < 2 ^ 63 by omega), hvalue]
        rw [Run.bind_of_ok (number_ok hdrop hends hscan Kind.noConfusion), if_neg hkind, if_pos rfl,
          if_neg (Nat.not_lt.2 hin)]
        rfl
    · have hvalue : n.intValue = -(digitsValue n.int : Int) := if_neg hminus
      rw [Run.bind_of_ok
        (number_ok hdrop hends (Number.scan_sint cc hwhole hminus hv) Kind.noConfusion), hvalue]
      rw [if_pos (by omega)]
      rfl
  · rw [if_neg fun h => hlarge ⟨h.1, h.2.trans (by decide)⟩]
    refine number_large hdrop hends (Number.scan_large cc hwhole hlarge) fun x hover hreal => ?_
    rw [hreal, if_neg Kind.noConfusion, if_neg Kind.noConfusion, if_pos hover]
    exact ⟨_, rfl, rfl⟩

/-! ### Literals in quotes -/

theorem Number.clean_bytes (hwhole : n.Whole) :
    ∀ c ∈ n.bytes, needsEscape c = false ∧ c.toNat ≤ 0x7F := by
  intro c hc
  rw [Number.bytes, hwhole.1, hwhole.2, List.append_nil, List.append_nil, List.mem_append] at hc
  rw [needsEscape_eq_false]
  rcases hc with hc | hc
  · rcases n.minus_ok with hminus | hminus
    · rw [hminus] at hc
      cases hc
    · rw [hminus, List.mem_singleton] at hc
      rw [hc]
      decide
  · have hdigit := of_decide_eq_true (n.isDigit_int c hc)
    refine ⟨⟨by omega, ?_, ?_⟩, by omega⟩
    · rintro rfl
      exact absurd hdigit (by decide)
    · rintro rfl
      exact absurd hdigit (by decide)

variable (o cc) in
/-- In quotes, a 64-bit integer is tried and anything larger is no integer. -/
theorem quotedInteger_at (accept : NumberScan → Option α) {rest : Bytes} (hwhole : n.Whole)
    (hdrop : inp.drop s.pos = 0x22 :: (n.bytes ++ 0x22 :: rest)) :
    match (if n.Fits64 then accept (n.scan cc) else none) with
    | some a => quotedInteger o cc inp accept s = .ok a (s.advance (n.bytes.length + 2))
    | none =>
      ∃ e, quotedInteger o cc inp accept s = .error e s ∧ e.code = Form.quoted.refusal n := by
  have hclean := n.clean_bytes hwhole
  have htext := parseString_spells (o := o) (.self fun c hc => (hclean c hc).1)
    (fun _ => .of_ascii fun c hc => (hclean c hc).2) hdrop
  have hscan : scanNumber cc n.bytes = n.scan cc := by
    rw [← List.append_nil n.bytes]
    exact scanNumber_append n.ends_nil
  rw [quotedInteger, Run.bind_of_ok (Run.get_apply s), Run.bind_of_ok htext]
  dsimp only
  rw [hscan]
  by_cases hfits : n.Fits64
  · have hgood : ¬ ((n.scan cc).kind = .undefined ∨ (n.scan cc).length ≠ n.bytes.length ∨
      (n.scan cc).kind = .real) := by
      rcases Number.fits64_iff.1 hfits with ⟨hminus, hv⟩ | ⟨hminus, hv⟩
      · rw [Number.scan_uint cc hwhole hminus hv]
        simp
      · rw [Number.scan_sint cc hwhole hminus hv]
        simp
    rw [if_pos hfits, if_neg hgood]
    cases accept (n.scan cc) with
    | some a => rfl
    | none =>
      refine ⟨_, rfl, ?_⟩
      rw [Form.refusal, if_neg fun h => h.2 hfits]
      rfl
  · have hbad : (n.scan cc).kind = .undefined ∨ (n.scan cc).length ≠ n.bytes.length ∨
      (n.scan cc).kind = .real := by
      rcases (Number.scan_large cc hwhole hfits).2 with hreal | ⟨hundef, -⟩
      · exact .inr (.inr hreal)
      · exact .inl hundef
    rw [if_neg hfits, if_pos hbad]
    refine ⟨_, rfl, ?_⟩
    rw [Form.refusal, if_pos ⟨rfl, hfits⟩]
    rfl

/-! ### Both forms -/

theorem expectInteger_bare {bare : M α} {accept : NumberScan → Option α} {f : FieldMeta}
    (hskips : SkipsBlanks inp bare) (hstands : Form.bare.Stands f n inp s) :
    expectInteger o cc inp bare accept f s = bare s := by
  obtain ⟨rest, hdrop, -⟩ := hstands
  obtain ⟨c, cs, hcons, hc⟩ := n.exists_cons
  have hat : at? inp (s.skipped inp).pos = some c := at?_eq (by rw [hdrop, hcons]; rfl)
  have hquote : ¬ some c = some 0x22 := by
    rintro ⟨⟩
    exact absurd hc (by decide)
  rw [expectInteger]
  split
  · rw [Run.bind_of_ok (skipWs_run s), Run.bind_of_ok (Run.get_apply _), hat, if_neg hquote]
    exact hskips s
  · rfl

theorem expectInteger_quoted {bare : M α} {accept : NumberScan → Option α} {f : FieldMeta}
    (hstands : Form.quoted.Stands f n inp s) :
    expectInteger o cc inp bare accept f s = quotedInteger o cc inp accept (s.skipped inp) := by
  obtain ⟨hstring, rest, hdrop⟩ := hstands
  rw [expectInteger, if_pos hstring, Run.bind_of_ok (skipWs_run s),
    Run.bind_of_ok (Run.get_apply _),
    if_pos (at?_eq hdrop)]

theorem Form.refusal_bare (n : Number) :
    Form.bare.refusal n = .outOfRange := if_neg fun h => Form.noConfusion h.1

variable (o cc) in
theorem expectUint_at {form : Form} {f : FieldMeta} (hwhole : n.Whole)
    (hstands : form.Stands f n inp s) :
    if n.minus = [] ∧ digitsValue n.int < 2 ^ 64 then
      expectUint o cc inp f s = .ok (digitsValue n.int) ((s.skipped inp).advance (form.length n))
    else ∃ e, expectUint o cc inp f s = .error e (s.skipped inp) ∧ e.code = form.refusal n := by
  cases form with
  | bare =>
    obtain ⟨rest, hdrop, hends⟩ := id hstands
    have hskips : SkipsBlanks inp (expectPlainUint cc inp) := .blanks _
    rw [expectUint, expectInteger_bare hskips hstands, Form.refusal_bare]
    exact expectPlainUint_at hwhole hdrop hends
  | quoted =>
    obtain ⟨-, rest, hdrop⟩ := id hstands
    have hquoted := quotedInteger_at o cc NumberScan.uint? hwhole hdrop
    rw [expectUint, expectInteger_quoted hstands]
    split
    · rename_i hfits
      rw [if_pos (Number.fits64_iff.2 (.inl hfits)),
        Number.scan_uint cc hwhole hfits.1 hfits.2] at hquoted
      exact hquoted
    · rename_i hnot
      have hnone : (if n.Fits64 then (n.scan cc).uint? else none) = none := by
        split
        · rename_i hfits
          obtain ⟨hminus, hv⟩ := (Number.fits64_iff.1 hfits).resolve_left hnot
          rw [Number.scan_sint cc hwhole hminus hv]
          rfl
        · rfl
      rw [hnone] at hquoted
      exact hquoted

variable (o cc) in
theorem expectSint_at {form : Form} {f : FieldMeta} (hwhole : n.Whole)
    (hstands : form.Stands f n inp s) :
    if -2 ^ 63 ≤ n.intValue ∧ n.intValue < 2 ^ 63 then
      expectSint o cc inp f s = .ok n.intValue ((s.skipped inp).advance (form.length n))
    else ∃ e, expectSint o cc inp f s = .error e (s.skipped inp) ∧ e.code = form.refusal n := by
  cases form with
  | bare =>
    obtain ⟨rest, hdrop, hends⟩ := id hstands
    have hskips : SkipsBlanks inp (expectPlainSint cc inp) := .blanks _
    rw [expectSint, expectInteger_bare hskips hstands, Form.refusal_bare]
    exact expectPlainSint_at hwhole hdrop hends
  | quoted =>
    obtain ⟨-, rest, hdrop⟩ := id hstands
    have hmax : int64Max + 1 = 2 ^ 63 := rfl
    have hquoted := quotedInteger_at o cc NumberScan.sint? hwhole hdrop
    have haccept : (if n.Fits64 then (n.scan cc).sint? else none) =
        if -2 ^ 63 ≤ n.intValue ∧ n.intValue < 2 ^ 63 then some n.intValue else none := by
      by_cases hfits : n.Fits64
      · rw [if_pos hfits]
        rcases Number.fits64_iff.1 hfits with ⟨hminus, hv⟩ | ⟨hminus, hv⟩
        · have hvalue : n.intValue = digitsValue n.int := if_pos hminus
          rw [Number.scan_uint cc hwhole hminus hv, hvalue, NumberScan.sint?, if_pos rfl]
          dsimp only
          by_cases hin : digitsValue n.int ≤ int64Max
          · have hrange : -2 ^ 63 ≤ (digitsValue n.int : Int) ∧
              (digitsValue n.int : Int) < 2 ^ 63 := by omega
            rw [if_neg (Nat.not_lt.2 hin), if_pos hrange]
          · have hrange :
              ¬ (-2 ^ 63 ≤ (digitsValue n.int : Int) ∧ (digitsValue n.int : Int) < 2 ^ 63) := by
              omega
            rw [if_pos (Nat.lt_of_not_le hin), if_neg hrange]
        · have hvalue : n.intValue = -(digitsValue n.int : Int) := if_neg hminus
          rw [Number.scan_sint cc hwhole hminus hv, hvalue, NumberScan.sint?,
            if_neg Kind.noConfusion, if_pos (by omega)]
      · rw [if_neg hfits, if_neg fun h => hfits ⟨h.1, h.2.trans (by decide)⟩]
    rw [expectSint, expectInteger_quoted hstands]
    rw [haccept] at hquoted
    split
    · rename_i hin
      rw [if_pos hin] at hquoted
      exact hquoted
    · rename_i hout
      rw [if_neg hout] at hquoted
      exact hquoted

/-! ### Narrowing -/

/-- The value arrives if the target holds it, and is out of range otherwise. -/
def Form.Converts (form : Form) (env : Env) (o : Options) (cc : Charconv) (inp : Bytes)
    (f : FieldMeta) (k : IntTy) (n : Number) (b : Build State) : Prop :=
  if k.Holds n.intValue then
    decodeInt env (reader o cc inp) f k b =
      .ok n.intValue { b with reader := (b.reader.skipped inp).advance (form.length n) }
  else ∃ e b', decodeInt env (reader o cc inp) f k b = .error (.error e) b' ∧ e.code = .outOfRange

theorem Form.Stands.skipped {form : Form} {f : FieldMeta} (h : form.Stands f n inp s) :
    form.Stands f n inp (s.skipped inp) := by
  cases form with
  | bare =>
    rw [Form.Stands, State.skipped_skipped]
    exact h
  | quoted =>
    rw [Form.Stands, State.skipped_skipped]
    exact h

section

variable {env : Env} {f : FieldMeta} {k : IntTy} {b : Build State} {form : Form}

/-- What the literal has to be: not minus zero for an unsigned target, and a 64-bit integer in
quotes. -/
def Form.Sound (form : Form) (k : IntTy) (n : Number) : Prop :=
  (k.signed = false → n.bytes ≠ str "-0") ∧ (form = .quoted → n.Fits64)

theorem Form.refusal_eq_outOfRange :
    form.refusal n = .outOfRange ↔ (form = .quoted → n.Fits64) := by
  rw [Form.refusal]
  split
  · rename_i h
    exact iff_of_false Errc.noConfusion fun hall => h.2 (hall h.1)
  · rename_i h
    refine iff_of_true rfl fun hform => ?_
    by_contra hnot
    exact h ⟨hform, hnot⟩

/-- A refusal says that the number is out of range, unless it is in quotes and too large. -/
theorem refused_iff {e : Error} {b' : Build State} {α : Type} (hcode : e.code = form.refusal n) :
    (∃ e' b'',
      (.error (.error (withRangeContext env f (.int k) e)) b' : EStateM.Result Abort
      (Build State) α) =
        .error (.error e') b'' ∧ e'.code = .outOfRange) ↔ (form = .quoted → n.Fits64) := by
  rw [← Form.refusal_eq_outOfRange, ← hcode]
  constructor
  · rintro ⟨e', b'', heq, hcode'⟩
    cases heq
    rw [SimLaws.withRangeContext_code] at hcode'
    exact hcode'
  · intro hcode'
    exact ⟨_, _, rfl, (SimLaws.withRangeContext_code f _ e).trans hcode'⟩

/-- Minus zero is the negative literal of a value that is not. -/
theorem Number.minus_zero_iff (hwhole : n.Whole) :
    n.bytes = str "-0" ↔ n.minus ≠ [] ∧ digitsValue n.int = 0 := by
  rw [Number.bytes, hwhole.1, hwhole.2, List.append_nil, List.append_nil]
  constructor
  · intro heq
    rcases n.minus_ok with hminus | hminus
    · rw [hminus, List.nil_append] at heq
      have hdigit := n.isDigit_int 0x2D (by rw [heq]; decide)
      exact absurd hdigit (by decide)
    · rw [hminus] at heq
      have hint : n.int = [0x30] := (List.cons.inj heq).2
      rw [hminus, hint]
      decide
  · rintro ⟨hminus, hzero⟩
    rw [n.minus_ok.resolve_left hminus]
    rcases n.int_ok with hint | ⟨hdigits, hhead⟩
    · rw [hint]
      decide
    · obtain ⟨c, ds, hcons⟩ := List.exists_cons_of_ne_nil hdigits.1
      have hc := n.isDigit_int c (by rw [hcons]; exact List.mem_cons_self)
      have hne : c ≠ 0x30 := by
        rintro rfl
        rw [hcons] at hhead
        exact hhead rfl
      have hpos : 0 < 10 ^ ds.length := Nat.pos_of_ne_zero (pow_ne_zero _ (by decide))
      have hle : 10 ^ ds.length ≤ digitsValue (c :: ds) := le_digitsValue hc hne
      rw [← hcons, hzero] at hle
      omega

theorem converts_unsigned
    (hk : k.signed = false) (hwhole : n.Whole) (hstands : form.Stands f n inp b.reader) :
    form.Converts env o cc inp f k n b ↔ form.Sound k n := by
  have hread := expectUint_at o cc hwhole hstands.skipped
  have hoff : (reader o cc inp).offset b.reader =
    .ok (b.reader.skipped inp).pos (b.reader.skipped inp) := rfl
  have hmin := IntTy.min_unsigned hk
  have hmax := IntTy.max_unsigned hk
  have hnonneg := k.max_nonneg
  have hminusZero := n.minus_zero_iff hwhole
  rw [State.skipped_skipped] at hread
  rw [Form.Converts, Form.Sound]
  by_cases hfits : n.minus = [] ∧ digitsValue n.int < 2 ^ 64
  · have hvalue : n.intValue = digitsValue n.int := if_pos hfits.1
    rw [if_pos hfits] at hread
    refine iff_of_true ?_ ⟨fun _ h => (hminusZero.1 h).1 hfits.1,
      fun _ => Number.fits64_iff.2 (.inl hfits)⟩
    rw [hvalue, decodeInt_of_uint hk hoff hread]
    split
    · rfl
    · exact ⟨_, _, rfl, rfl⟩
  · rw [if_neg hfits] at hread
    obtain ⟨e, hfails, hcode⟩ := hread
    rw [decodeInt_of_uint_error hk hoff hfails]
    by_cases hholds : k.Holds n.intValue
    · -- a value in range without the minus would be read, so it is minus zero
      have hminus : n.minus ≠ [] := by
        intro hminus
        have hvalue : n.intValue = digitsValue n.int := if_pos hminus
        have hle := hholds.2
        exact hfits ⟨hminus, by omega⟩
      have hvalue : n.intValue = -(digitsValue n.int : Int) := if_neg hminus
      have hzero : digitsValue n.int = 0 := by
        have hle := hholds.1
        omega
      rw [if_pos hholds]
      exact iff_of_false (fun h => by cases h) fun h => h.1 hk (hminusZero.2 ⟨hminus, hzero⟩)
    · have hnot : n.bytes ≠ str "-0" := by
        intro heq
        obtain ⟨hminus, hzero⟩ := hminusZero.1 heq
        have hvalue : n.intValue = -(digitsValue n.int : Int) := if_neg hminus
        exact hholds ⟨by omega, by omega⟩
      rw [if_neg hholds, refused_iff hcode]
      exact ⟨fun hquoted => ⟨fun _ => hnot, hquoted⟩, fun h => h.2⟩

theorem converts_signed (hk : k.signed = true) (hwhole : n.Whole)
    (hstands : form.Stands f n inp b.reader) :
    form.Converts env o cc inp f k n b ↔ form.Sound k n := by
  have hread := expectSint_at o cc hwhole hstands.skipped
  have hoff : (reader o cc inp).offset b.reader =
    .ok (b.reader.skipped inp).pos (b.reader.skipped inp) := rfl
  have hmin := IntTy.min_signed hk
  have hmax := IntTy.max_signed hk
  have hsigned : ∀ p : Prop, k.signed = false → p := fun p h => by rw [hk] at h; cases h
  rw [State.skipped_skipped] at hread
  rw [Form.Converts, Form.Sound]
  by_cases hfits : -2 ^ 63 ≤ n.intValue ∧ n.intValue < 2 ^ 63
  · rw [if_pos hfits] at hread
    refine iff_of_true ?_ ⟨hsigned _, fun _ => ⟨hfits.1, hfits.2.trans (by decide)⟩⟩
    rw [decodeInt_of_sint hk hoff hread]
    split
    · rfl
    · exact ⟨_, _, rfl, rfl⟩
  · rw [if_neg hfits] at hread
    obtain ⟨e, hfails, hcode⟩ := hread
    have hout : ¬ k.Holds n.intValue := fun h => hfits ⟨hmin.trans h.1, lt_of_le_of_lt h.2 hmax⟩
    rw [decodeInt_of_sint_error hk hoff hfails, if_neg hout, refused_iff hcode]
    exact ⟨fun hquoted => ⟨hsigned _, hquoted⟩, fun h => h.2⟩

end

/-- A literal is converted as its value asks, except for minus zero and for large numbers in
quotes. -/
theorem decodeInt_literal_iff
    (env : Env) (o : Options) (cc : Charconv) (inp : Bytes) (f : FieldMeta) (k : IntTy)
    (form : Form) (n : Number) (b : Build State) (hwhole : n.Whole)
    (hstands : form.Stands f n inp b.reader) :
    form.Converts env o cc inp f k n b ↔ form.Sound k n := by
  cases hk : k.signed with
  | true => exact converts_signed hk hwhole hstands
  | false => exact converts_unsigned hk hwhole hstands

/-- Zero, and minus zero. -/
def zeroLiteral (minus : Bool) : Number where
  minus := if minus then [0x2D] else []
  int := [0x30]
  frac := []
  exp := []
  minus_ok := by
    cases minus with
    | true => exact .inr rfl
    | false => exact .inl rfl
  int_ok := intPart_zero
  frac_ok := fracPart_nil
  exp_ok := expPart_nil

/-- `-1024` -/
def negativeLiteral : Number where
  minus := [0x2D]
  int := [0x31, 0x30, 0x32, 0x34]
  frac := []
  exp := []
  minus_ok := .inr rfl
  int_ok := .inr ⟨⟨List.cons_ne_nil _ _, List.all_eq_true.1 rfl⟩, by decide⟩
  frac_ok := fracPart_nil
  exp_ok := expPart_nil

/-- A number in quotes arrives in an `as_string` member. -/
theorem decodeInt_literal_iff_quoted :
    Form.quoted.Converts default {} ⟨fun _ => none, fun _ => []⟩
      (str "\"-1024\"") { asString := true } ⟨true, .w16⟩ negativeLiteral
      ⟨{}, .null⟩ :=
  (decodeInt_literal_iff default {} ⟨fun _ => none, fun _ => []⟩
    (str "\"-1024\"") { asString := true } ⟨true, .w16⟩ .quoted
    negativeLiteral ⟨{}, .null⟩ ⟨rfl, rfl⟩ ⟨rfl, [], by decide⟩).2 ⟨nofun, fun _ => by decide⟩

/-- Minus zero is out of range for an unsigned target. -/
theorem decodeInt_minus_zero :
    ¬ ∀ (env : Env) (o : Options) (cc : Charconv) (inp : Bytes) (f : FieldMeta) (k : IntTy)
      (form : Form) (n : Number)
      (b : Build State), n.Whole → form.Stands f n inp b.reader →
        form.Converts env o cc inp f k n b := by
  intro hall
  have hstands : Form.bare.Stands {} (zeroLiteral true) (str "-0") {} :=
    ⟨[], by decide, rfl, fun _ => rfl, fun _ _ => rfl⟩
  have hconverts := hall default {} ⟨fun _ => none, fun _ => []⟩ (str "-0") {} uint8 .bare
    (zeroLiteral true) ⟨{}, .null⟩
    ⟨rfl, rfl⟩ hstands
  have hsound := (converts_unsigned rfl ⟨rfl, rfl⟩ hstands).1 hconverts
  exact hsound.1 rfl (by decide)

end VCodec.Json
