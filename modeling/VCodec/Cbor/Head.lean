import VCodec.Error
import Mathlib.Data.List.Induction
import Mathlib.Tactic.IntervalCases
import Mathlib.Tactic.Linarith
import Mathlib.Tactic.Ring

/-!
# CBOR item heads

The initial byte of an item (major type and additional information) and the argument after it.
`makeHead` writes the shortest form and `parseHead` reads any form, leaving it to its caller to
judge the reserved, indefinite and break bytes it reports.

`Head` is a head as the format defines it: a width and an argument that fits it. `HeadView` lists
what can stand at the front of the input, and `parseHead_view` says that `parseHead` reports exactly
that.
-/

namespace VCodec.Cbor

inductive Major
  | uint | nint | bytes | text | array | map | tag | simple
  deriving DecidableEq, Repr

namespace Major

def toNat : Major → Nat
  | uint => 0 | nint => 1 | bytes => 2 | text => 3 | array => 4 | map => 5 | tag => 6 | simple => 7

/-- `static_cast<major>` of three bits. -/
def ofBits : Nat → Major
  | 0 => uint | 1 => nint | 2 => bytes | 3 => text | 4 => array | 5 => map | 6 => tag | _ => simple

theorem toNat_lt (m : Major) : m.toNat < 8 := by cases m <;> decide

@[simp] theorem ofBits_toNat (m : Major) : ofBits m.toNat = m := by cases m <;> rfl

theorem toNat_ofBits {n : Nat} (h : n < 8) : (ofBits n).toNat = n := by
  interval_cases n <;> rfl

end Major

def breakByte : UInt8 := 0xFF

def selfDescribeTag : Nat := 55799

/-- The low `8 · n` bits, big-endian. -/
def be : Nat → Nat → Bytes
  | 0, _ => []
  | n + 1, x => UInt8.ofNat (x / 256 ^ n % 256) :: be n x

/-- The initial byte of an item. -/
def initialByte (m : Major) (ai : Nat) : UInt8 := UInt8.ofNat (m.toNat * 32 + ai)

/-- Shortest-form head for a major type and argument. -/
def makeHead (m : Major) (v : Nat) : Bytes :=
  if v < 24 then [initialByte m v]
  else if v ≤ 0xFF then initialByte m 24 :: be 1 v
  else if v ≤ 0xFFFF then initialByte m 25 :: be 2 v
  else if v ≤ 0xFFFFFFFF then initialByte m 26 :: be 4 v
  else initialByte m 27 :: be 8 v

def makeIndefiniteHead (m : Major) : Bytes := [initialByte m 31]

structure ParsedHead where
  mt : Major := .uint
  ai : Nat := 0
  /-- The argument; for a simple item the simple value or the float bits. -/
  value : Nat := 0
  indefinite : Bool := false
  /-- Bytes consumed by the head, 0 where the input is cut. -/
  length : Nat := 0
  reserved : Bool := false
  isBreak : Bool := false
  deriving DecidableEq, Repr

/-- Is this the smallest head that could have encoded `value`? -/
def ParsedHead.shortest (h : ParsedHead) : Bool :=
  if h.indefinite || h.isBreak || h.reserved then false
  else if h.mt = .simple ∧ 25 ≤ h.ai then true
  else if h.ai < 24 then true
  else if h.ai = 24 then 24 ≤ h.value
  else if h.ai = 25 then 0xFF < h.value
  else if h.ai = 26 then 0xFFFF < h.value
  else 0xFFFFFFFF < h.value

/-- The bytes of the argument, for an additional information from 24 to 27. -/
def argSize (ai : Nat) : Nat :=
  if ai = 24 then 1 else if ai = 25 then 2 else if ai = 26 then 4 else 8

/-- The value of big-endian bytes. -/
def beValue (bs : Bytes) : Nat := bs.foldl (fun v b => v * 256 + b.toNat) 0

def parseHead (inp : Bytes) (pos : Nat) : ParsedHead :=
  match inp.drop pos with
  | [] => {}
  | ib :: rest =>
    let mt := Major.ofBits (ib.toNat / 32)
    let ai := ib.toNat % 32
    if ib = breakByte then { mt, ai, isBreak := true, length := 1 }
    else if ai < 24 then { mt, ai, value := ai, length := 1 }
    else if ai = 31 then
      { mt, ai, indefinite := true, length := 1, reserved := mt = .uint ∨ mt = .nint ∨ mt = .tag }
    else if 28 ≤ ai then { mt, ai, reserved := true, length := 1 }
    else
      let n := argSize ai
      if rest.length < n then { mt, ai }
      else { mt, ai, value := beValue (rest.take n), length := 1 + n }

def majorName : Major → Bytes
  | .uint => str "unsigned integer"
  | .nint => str "negative integer"
  | .bytes => str "byte string"
  | .text => str "text string"
  | .array => str "array"
  | .map => str "map"
  | .tag => str "tag"
  | .simple => str "simple/float"

/-- Names of the tags the library knows about, for diagnostics. -/
def tagName (t : Nat) : Bytes :=
  if t = 0 then str "RFC 3339 string"
  else if t = 1 then str "epoch datetime"
  else if t = 2 then str "positive bignum"
  else if t = 3 then str "negative bignum"
  else if t = 4 then str "decimal fraction"
  else if t = 5 then str "bigfloat"
  else if t = 21 then str "expected base64url"
  else if t = 22 then str "expected base64"
  else if t = 23 then str "expected base16"
  else if t = 24 then str "encoded CBOR"
  else if t = 32 then str "URI"
  else if t = 33 then str "base64url"
  else if t = 34 then str "base64"
  else if t = 36 then str "MIME message"
  else if t = 55799 then str "self-described CBOR"
  else if 64 ≤ t ∧ t ≤ 87 then str "typed array"
  else []

/-! ### Heads of the format -/

/-- Where the argument is: in the additional information, or in 1, 2, 4 or 8 bytes after it. -/
inductive Width
  | direct | one | two | four | eight
  deriving DecidableEq, Repr

namespace Width

def size : Width → Nat
  | direct => 0 | one => 1 | two => 2 | four => 4 | eight => 8

/-- Arguments below the bound fit. -/
def bound : Width → Nat
  | direct => 24 | one => 2 ^ 8 | two => 2 ^ 16 | four => 2 ^ 32 | eight => 2 ^ 64

/-- The shortest width for an argument. -/
def of (v : Nat) : Width :=
  if v < 24 then direct else if v ≤ 0xFF then one else if v ≤ 0xFFFF then two
  else if v ≤ 0xFFFFFFFF then four else eight

theorem lt_bound_of {v : Nat} (h : v < 2 ^ 64) : v < (of v).bound := by
  unfold of
  split_ifs <;> simp only [bound] <;> omega

theorem bound_le (w : Width) : w.bound ≤ 2 ^ 64 := by cases w <;> decide

end Width

/-- A definite head: a width and an argument that fits it. -/
structure Head where
  width : Width
  value : Nat
  fits : value < width.bound
  deriving DecidableEq

namespace Head

def ai (h : Head) : Nat :=
  match h.width with
  | .direct => h.value | .one => 24 | .two => 25 | .four => 26 | .eight => 27

def bytes (h : Head) (m : Major) : Bytes := initialByte m h.ai :: be h.width.size h.value

/-- The shortest head for an argument. -/
def short (v : Nat) (h : v < 2 ^ 64) : Head := ⟨Width.of v, v, Width.lt_bound_of h⟩

/-- The argument is in its shortest form. -/
def Shortest (h : Head) : Prop := h.width = Width.of h.value

instance (h : Head) : Decidable h.Shortest := inferInstanceAs (Decidable (h.width = _))

theorem value_lt (h : Head) : h.value < 2 ^ 64 := lt_of_lt_of_le h.fits h.width.bound_le

theorem direct_or_wide (h : Head) :
    (h.width = .direct ∧ h.ai = h.value ∧ h.value < 24) ∨
      (24 ≤ h.ai ∧ h.ai < 28 ∧ argSize h.ai = h.width.size ∧
        h.width.bound = 256 ^ h.width.size) := by
  obtain ⟨w, v, hv⟩ := h
  cases w with
  | direct => exact .inl ⟨rfl, rfl, hv⟩
  | one => exact .inr ⟨by simp [ai], by simp [ai], rfl, rfl⟩
  | two => exact .inr ⟨by simp [ai], by simp [ai], rfl, rfl⟩
  | four => exact .inr ⟨by simp [ai], by simp [ai], rfl, rfl⟩
  | eight => exact .inr ⟨by simp [ai], by simp [ai], rfl, rfl⟩

theorem ai_lt (h : Head) : h.ai < 28 := by
  rcases h.direct_or_wide with ⟨-, hai, hlt⟩ | ⟨-, hlt, -⟩ <;> omega

theorem ext_iff {h k : Head} : h = k ↔ h.width = k.width ∧ h.value = k.value := by
  cases h
  cases k
  simp

end Head

theorem be_length (n x : Nat) : (be n x).length = n := by
  induction n with
  | zero => rfl
  | succ n ih => rw [be, List.length_cons, ih]

theorem foldl_be (n x v : Nat) :
    (be n x).foldl (fun v b => v * 256 + b.toNat) v = v * 256 ^ n + x % 256 ^ n := by
  induction n generalizing v with
  | zero => simp [be, Nat.mod_one]
  | succ n ih =>
    have hbyte : (UInt8.ofNat (x / 256 ^ n % 256)).toNat = x / 256 ^ n % 256 := by
      rw [UInt8.toNat_ofNat']
      omega
    rw [be, List.foldl_cons, ih, hbyte, pow_succ, Nat.mod_mul]
    ring

theorem beValue_be {n x : Nat} (h : x < 256 ^ n) : beValue (be n x) = x := by
  rw [beValue, foldl_be, Nat.zero_mul, Nat.zero_add, Nat.mod_eq_of_lt h]

theorem beValue_append_singleton (bs : Bytes) (b : UInt8) :
    beValue (bs ++ [b]) = beValue bs * 256 + b.toNat := by
  rw [beValue, List.foldl_append]
  rfl

theorem beValue_lt (bs : Bytes) : beValue bs < 256 ^ bs.length := by
  induction bs using List.reverseRecOn with
  | nil => simp [beValue]
  | append_singleton bs b ih =>
    have := b.toNat_lt
    rw [beValue_append_singleton, List.length_append, List.length_singleton, pow_succ]
    omega

theorem be_beValue (bs : Bytes) : be bs.length (beValue bs) = bs := by
  suffices h : ∀ (n : Nat) (bs : Bytes) (v : Nat), bs.length = n →
      be n (bs.foldl (fun v b => v * 256 + b.toNat) v) = bs from h _ bs 0 rfl
  intro n
  induction n with
  | zero =>
    intro bs v hlen
    rw [List.length_eq_zero_iff] at hlen
    rw [hlen, be]
  | succ n ih =>
    intro bs v hlen
    cases bs with
    | nil => cases hlen
    | cons b bs =>
      rw [List.length_cons, Nat.add_right_cancel_iff] at hlen
      have htail := ih bs (v * 256 + b.toNat) hlen
      have hfold : ∀ (bs : Bytes) (v : Nat), bs.foldl (fun v b => v * 256 + b.toNat) v =
        v * 256 ^ bs.length + beValue bs := by
        intro bs v
        have hself := foldl_be bs.length (beValue bs) v
        induction bs using List.reverseRecOn with
        | nil => simp [beValue]
        | append_singleton bs c ihb =>
          rw [List.foldl_append, ihb (foldl_be _ _ _), beValue_append_singleton, List.length_append,
            pow_add]
          simp only [List.foldl_cons, List.foldl_nil, List.length_singleton, pow_one]
          ring
      have hlt : beValue bs < 256 ^ n := hlen ▸ beValue_lt bs
      rw [List.foldl_cons, be, htail, hfold bs, hlen, Nat.mul_comm _ (256 ^ n),
        Nat.mul_add_div (by positivity),
        Nat.div_eq_of_lt hlt, Nat.add_zero]
      have hbyte : (v * 256 + b.toNat) % 256 = b.toNat := by
        have := b.toNat_lt
        omega
      rw [hbyte, UInt8.ofNat_toNat]

theorem initialByte_toNat {m : Major} {ai : Nat} (h : ai < 32) :
    (initialByte m ai).toNat = m.toNat * 32 + ai := by
  have := m.toNat_lt
  rw [initialByte, UInt8.toNat_ofNat']
  omega

theorem initialByte_split (b : UInt8) :
    initialByte (.ofBits (b.toNat / 32)) (b.toNat % 32) = b := by
  have := b.toNat_lt
  rw [initialByte, Major.toNat_ofBits (by omega), Nat.mul_comm, Nat.div_add_mod, UInt8.ofNat_toNat]

theorem initialByte_inj {m m' : Major} {ai ai' : Nat} (h : ai < 32) (h' : ai' < 32)
    (heq : initialByte m ai = initialByte m' ai') : m = m' ∧ ai = ai' := by
  have hnat := congrArg UInt8.toNat heq
  rw [initialByte_toNat h, initialByte_toNat h'] at hnat
  have hm : m.toNat = m'.toNat := by omega
  refine ⟨?_, by omega⟩
  rw [← m.ofBits_toNat, ← m'.ofBits_toNat, hm]

theorem makeHead_eq {m : Major} {v : Nat} (h : v < 2 ^ 64) :
    makeHead m v = (Head.short v h).bytes m := by
  unfold makeHead Head.bytes Head.ai Head.short Width.of
  split
  · rfl
  split
  · rfl
  split
  · rfl
  split
  · rfl
  · rfl

namespace Head

theorem bytes_length (h : Head) (m : Major) : (h.bytes m).length = 1 + h.width.size := by
  rw [bytes, List.length_cons, be_length, Nat.add_comm]

/-- The head that `parseHead` reports for these bytes. -/
def parsed (h : Head) (m : Major) : ParsedHead :=
  { mt := m, ai := h.ai, value := h.value, length := 1 + h.width.size }

theorem shortest_parsed {h : Head} {m : Major} (hm : m ≠ .simple) :
    (h.parsed m).shortest = true ↔ h.Shortest := by
  obtain ⟨w, v, hv⟩ := h
  cases w <;> simp only [Width.bound] at hv <;>
    simp only [parsed, ParsedHead.shortest, Shortest, Width.of, ai, hm, Bool.or_false,
      Bool.false_eq_true,
      if_false, false_and, Nat.lt_irrefl] <;>
    grind

end Head

/-! ### What stands at the front of the input -/

/-- The forms of the front of the input, and what `parseHead` reports for each. -/
inductive HeadView : Bytes → ParsedHead → Prop
  | truncated {s : Bytes} {h : ParsedHead} (hlen : h.length = 0) : HeadView s h
  | brk (s : Bytes) : HeadView (breakByte :: s)
      { mt := .simple, ai := 31, isBreak := true, length := 1 }
  | reserved (m : Major) {ai : Nat} (hlo : 28 ≤ ai) (hhi : ai < 31) (s : Bytes) :
      HeadView (initialByte m ai :: s) { mt := m, ai, reserved := true, length := 1 }
  | reservedIndefinite {m : Major} (hm : m = .uint ∨ m = .nint ∨ m = .tag) (s : Bytes) :
      HeadView (initialByte m 31 :: s) { mt := m, ai := 31, indefinite := true, length := 1, reserved := true }
  | indefinite {m : Major} (hm : m = .bytes ∨ m = .text ∨ m = .array ∨ m = .map) (s : Bytes) :
      HeadView (initialByte m 31 :: s) { mt := m, ai := 31, indefinite := true, length := 1 }
  | head (m : Major) (h : Head) (s : Bytes) : HeadView (h.bytes m ++ s) (h.parsed m)

theorem initialByte_ne_break {m : Major} {ai : Nat} (h : ai < 31) :
    initialByte m ai ≠ breakByte := by
  intro heq
  have hnat := congrArg UInt8.toNat heq
  rw [initialByte_toNat (by omega)] at hnat
  have hbreak : breakByte.toNat = 255 := rfl
  omega

theorem initialByte_indefinite_ne_break {m : Major} (hm : m ≠ .simple) :
    initialByte m 31 ≠ breakByte := by
  intro heq
  have hnat := congrArg UInt8.toNat heq
  rw [initialByte_toNat (by omega)] at hnat
  cases m <;> contradiction

theorem parseHead_head {inp : Bytes} {pos : Nat} {m : Major} {h : Head} {s : Bytes}
    (hin : inp.drop pos = h.bytes m ++ s) : parseHead inp pos = h.parsed m := by
  have hbyte := initialByte_toNat (m := m) (lt_trans h.ai_lt (by decide))
  have hmt : Major.ofBits ((m.toNat * 32 + h.ai) / 32) = m := by
    have := h.ai_lt
    rw [show (m.toNat * 32 + h.ai) / 32 = m.toNat by omega, Major.ofBits_toNat]
  have hai : (m.toNat * 32 + h.ai) % 32 = h.ai := by
    have := h.ai_lt
    omega
  have htake : (be h.width.size h.value ++ s).take h.width.size = be h.width.size h.value :=
    List.take_left' (be_length _ _)
  rw [parseHead, hin, Head.bytes, List.cons_append]
  simp only [hbyte, hmt, hai]
  rw [if_neg (initialByte_ne_break (lt_trans h.ai_lt (by decide)))]
  rcases h.direct_or_wide with ⟨hw, haiv, hlt⟩ | ⟨hlo, hhi, hsize, hbound⟩
  · rw [if_pos (by omega), Head.parsed, hw, haiv]
    rfl
  · rw [if_neg (by omega), if_neg (by omega), if_neg (by omega), hsize,
      if_neg (by rw [List.length_append, be_length]; omega), htake, beValue_be (hbound ▸ h.fits)]
    rfl

theorem parseHead_break {inp : Bytes} {pos : Nat} {s : Bytes}
    (hin : inp.drop pos = breakByte :: s) :
    parseHead inp pos = { mt := .simple, ai := 31, isBreak := true, length := 1 } := by
  rw [parseHead, hin]
  rfl

theorem parseHead_reserved {inp : Bytes} {pos : Nat} {m : Major} {ai : Nat} {s : Bytes}
    (hlo : 28 ≤ ai) (hhi : ai < 31) (hin : inp.drop pos = initialByte m ai :: s) :
    parseHead inp pos = { mt := m, ai, reserved := true, length := 1 } := by
  have hbyte := initialByte_toNat (m := m) (lt_trans hhi (by decide))
  have hmt : Major.ofBits ((m.toNat * 32 + ai) / 32) = m := by
    rw [show (m.toNat * 32 + ai) / 32 = m.toNat by omega, Major.ofBits_toNat]
  rw [parseHead, hin]
  simp only [hbyte, hmt, show (m.toNat * 32 + ai) % 32 = ai by omega]
  rw [if_neg (initialByte_ne_break hhi), if_neg (by omega), if_neg (by omega), if_pos hlo]

theorem parseHead_indefinite {inp : Bytes} {pos : Nat} {m : Major} {s : Bytes} (hm : m ≠ .simple)
    (hin : inp.drop pos = initialByte m 31 :: s) :
    parseHead inp pos =
      { mt := m, ai := 31, indefinite := true, length := 1, reserved := m = .uint ∨ m = .nint ∨
        m = .tag } := by
  have hbyte := initialByte_toNat (m := m) (show 31 < 32 by decide)
  have hmt : Major.ofBits ((m.toNat * 32 + 31) / 32) = m := by
    rw [show (m.toNat * 32 + 31) / 32 = m.toNat by omega, Major.ofBits_toNat]
  rw [parseHead, hin]
  simp only [hbyte, hmt, show (m.toNat * 32 + 31) % 32 = 31 by omega]
  rw [if_neg (initialByte_indefinite_ne_break hm), if_neg (by omega)]
  rfl

theorem exists_head {m : Major} {ai : Nat} {s : Bytes} (hai : ai < 28)
    (hs : 24 ≤ ai → argSize ai ≤ s.length) :
    ∃ (h : Head) (t : Bytes), h.ai = ai ∧ initialByte m ai :: s = h.bytes m ++ t := by
  rcases Nat.lt_or_ge ai 24 with hlt | hge
  · exact ⟨⟨.direct, ai, hlt⟩, s, rfl, rfl⟩
  have hlen := hs hge
  have hval := beValue_lt (s.take (argSize ai))
  have hbe := be_beValue (s.take (argSize ai))
  rw [List.length_take, Nat.min_eq_left hlen] at hval hbe
  have build : ∀ w : Width, w.size = argSize ai → w.bound = 256 ^ w.size →
      (∀ v hv, (Head.mk w v hv).ai = ai) →
      ∃ (h : Head) (t : Bytes), h.ai = ai ∧ initialByte m ai :: s = h.bytes m ++ t := by
    intro w hsize hbound hwai
    refine ⟨⟨w, beValue (s.take (argSize ai)), by rw [hbound, hsize]; exact hval⟩,
      s.drop (argSize ai), hwai _ _, ?_⟩
    have hval' : be w.size (beValue (s.take (argSize ai))) = s.take (argSize ai) := by
      rw [hsize, hbe]
    rw [Head.bytes, hwai, List.cons_append]
    show initialByte m ai :: s = initialByte m ai ::
      (be w.size (beValue (s.take (argSize ai))) ++ _)
    rw [hval', List.take_append_drop]
  interval_cases ai
  · exact build .one rfl rfl fun _ _ => rfl
  · exact build .two rfl rfl fun _ _ => rfl
  · exact build .four rfl rfl fun _ _ => rfl
  · exact build .eight rfl rfl fun _ _ => rfl

theorem parseHead_view (inp : Bytes) (pos : Nat) : HeadView (inp.drop pos) (parseHead inp pos) := by
  cases hin : inp.drop pos with
  | nil => exact .truncated (by rw [parseHead, hin])
  | cons ib s =>
    have hib := initialByte_split ib
    generalize Major.ofBits (ib.toNat / 32) = m at hib
    generalize hai : ib.toNat % 32 = ai at hib
    have hai32 : ai < 32 := by omega
    by_cases hbreak : ib = breakByte
    · subst hbreak
      rw [parseHead_break hin]
      exact .brk s
    subst hib
    have hmt : Major.ofBits ((initialByte m ai).toNat / 32) = m := by
      rw [initialByte_toNat hai32, show (m.toNat * 32 + ai) / 32 = m.toNat by omega, Major.ofBits_toNat]
    rcases Nat.lt_or_ge ai 28 with hlt | hge
    · by_cases hs : 24 ≤ ai → argSize ai ≤ s.length
      · obtain ⟨h, t, hhai, heq⟩ := exists_head (m := m) hlt hs
        rw [heq] at hin ⊢
        rw [parseHead_head hin]
        exact .head m h t
      · rw [Classical.not_imp, not_le] at hs
        refine .truncated ?_
        rw [parseHead, hin]
        simp only [hai]
        rw [if_neg hbreak, if_neg (by omega), if_neg (by omega), if_neg (by omega), if_pos hs.2]
    · rcases Nat.lt_or_ge ai 31 with hlt31 | hge31
      · rw [parseHead_reserved hge hlt31 hin]
        exact .reserved m hge hlt31 s
      · obtain rfl : ai = 31 := by omega
        have hm : m ≠ .simple := by
          rintro rfl
          exact hbreak rfl
        rw [parseHead_indefinite hm hin]
        cases m with
        | uint => exact .reservedIndefinite (.inl rfl) s
        | nint => exact .reservedIndefinite (.inr (.inl rfl)) s
        | tag => exact .reservedIndefinite (.inr (.inr rfl)) s
        | bytes => exact .indefinite (.inl rfl) s
        | text => exact .indefinite (.inr (.inl rfl)) s
        | array => exact .indefinite (.inr (.inr (.inl rfl))) s
        | map => exact .indefinite (.inr (.inr (.inr rfl))) s
        | simple => exact absurd rfl hm

end VCodec.Cbor
