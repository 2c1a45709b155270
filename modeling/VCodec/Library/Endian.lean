import Mathlib.Data.Nat.Digits.Defs
import Mathlib.Tactic.Ring

/-!
# Byte order in memory

The unsigned value of the bytes of an object in either byte order, the bytes of a value, and the
machine word that is put together from bytes by shifts. A signed word is widened by the bits above
its sign.
-/

/-- `std::endian`. -/
inductive Endian
  | little | big
  deriving DecidableEq, Repr

namespace Endian

/-- From the least significant byte on, and back. -/
def arrange {α : Type} : Endian → List α → List α
  | little, bs => bs
  | big, bs => bs.reverse

theorem arrange_arrange {α : Type} (e : Endian) (bs : List α) : e.arrange (e.arrange bs) = bs := by
  cases e
  · rfl
  · exact List.reverse_reverse bs

theorem length_arrange {α : Type} (e : Endian) (bs : List α) :
    (e.arrange bs).length = bs.length := by
  cases e
  · rfl
  · exact List.length_reverse

/-- The unsigned value of the bytes of an object. -/
def value (e : Endian) (bs : List UInt8) : Nat := Nat.ofDigits 256 ((e.arrange bs).map UInt8.toNat)

/-- The low bytes of a number, the least significant first. -/
def lowBytes : Nat → Nat → List UInt8
  | 0, _ => []
  | n + 1, x => UInt8.ofNat x :: lowBytes n (x / 256)

/-- The bytes of an object of `n` bytes with the value. -/
def bytes (e : Endian) (n x : Nat) : List UInt8 := e.arrange (lowBytes n x)

theorem length_lowBytes (n x : Nat) : (lowBytes n x).length = n := by
  induction n generalizing x with
  | zero => rfl
  | succ n ih => rw [lowBytes, List.length_cons, ih]

theorem length_bytes (e : Endian) (n x : Nat) : (e.bytes n x).length = n := by
  rw [bytes, length_arrange, length_lowBytes]

theorem ofDigits_lowBytes {n x : Nat} (h : x < 256 ^ n) :
    Nat.ofDigits 256 ((lowBytes n x).map UInt8.toNat) = x := by
  induction n generalizing x with
  | zero =>
    rw [pow_zero, Nat.lt_one_iff] at h
    exact h.symm
  | succ n ih =>
    have hrest : x / 256 < 256 ^ n := by
      rw [Nat.div_lt_iff_lt_mul (by decide), ← pow_succ]
      exact h
    rw [lowBytes, List.map_cons, Nat.ofDigits_cons, ih hrest, UInt8.toNat_ofNat']
    exact Nat.mod_add_div x 256

theorem value_bytes (e : Endian) {n x : Nat} (h : x < 256 ^ n) : e.value (e.bytes n x) = x := by
  rw [value, bytes, arrange_arrange, ofDigits_lowBytes h]

theorem value_lt (e : Endian) (bs : List UInt8) : e.value bs < 256 ^ bs.length := by
  have hlt : ∀ d ∈ (e.arrange bs).map UInt8.toNat, d < 256 := by
    intro d hd
    obtain ⟨b, -, rfl⟩ := List.mem_map.1 hd
    exact b.toNat_lt
  have h := Nat.ofDigits_lt_base_pow_length (by decide) hlt
  rwa [List.length_map, length_arrange] at h

/-! ### Words put together from bytes -/

/-- The place of byte `b` of an object of `n` bytes, from the least significant one. -/
def place : Endian → Nat → Nat → Nat
  | little, _, b => b
  | big, n, b => n - 1 - b

/-- The word of the first bytes, or-ed together byte by byte. -/
def assemble (e : Endian) {w : Nat} (n : Nat) (byte : Nat → UInt8) : BitVec w :=
  (List.range n).foldl (fun x b => x ||| (byte b).toBitVec.setWidth w <<< (8 * e.place n b)) 0

theorem toNat_shifted {w k : Nat} (hk : 8 * (k + 1) ≤ w) (b : UInt8) :
    (b.toBitVec.setWidth w <<< (8 * k)).toNat = b.toNat * 2 ^ (8 * k) ∧
      b.toNat * 2 ^ (8 * k) < 2 ^ (8 * (k + 1)) := by
  have hbyte : b.toNat < 2 ^ 8 := b.toNat_lt
  have hbelow : b.toNat * 2 ^ (8 * k) < 2 ^ (8 * (k + 1)) := by
    calc b.toNat * 2 ^ (8 * k) < 2 ^ 8 * 2 ^ (8 * k) :=
      Nat.mul_lt_mul_of_pos_right hbyte (by positivity)
      _ = 2 ^ (8 * (k + 1)) := by rw [← pow_add, Nat.mul_succ, Nat.add_comm]
  have hfits : b.toNat * 2 ^ (8 * k) < 2 ^ w :=
    hbelow.trans_le (Nat.pow_le_pow_right (by decide) hk)
  have hwide : b.toNat < 2 ^ w := hbyte.trans_le (Nat.pow_le_pow_right (by decide) (by omega))
  refine ⟨?_, hbelow⟩
  rw [BitVec.toNat_shiftLeft, BitVec.toNat_setWidth, UInt8.toNat_toBitVec, Nat.mod_eq_of_lt hwide,
    Nat.shiftLeft_eq,
    Nat.mod_eq_of_lt hfits]

theorem pow_byte (k : Nat) : (256 : Nat) ^ k = 2 ^ (8 * k) := by
  rw [pow_mul]
  rfl

/-- A byte that is shifted beyond a number adds to it. -/
theorem or_byte_above {w k : Nat} {x : BitVec w} (hx : x.toNat < 256 ^ k) (hk : 8 * (k + 1) ≤ w)
    (b : UInt8) :
    (x ||| b.toBitVec.setWidth w <<< (8 * k)).toNat = x.toNat + b.toNat * 256 ^ k := by
  rw [pow_byte] at hx ⊢
  rw [BitVec.toNat_or, (toNat_shifted hk b).1, Nat.or_comm,
    Nat.mul_comm, ← Nat.two_pow_add_eq_or_of_lt hx, Nat.add_comm]

/-- A byte that is shifted below a number adds to it. -/
theorem or_byte_below {w k m : Nat} {x : BitVec w} (hx : x.toNat = m * 256 ^ (k + 1))
    (hk : 8 * (k + 1) ≤ w) (b : UInt8) :
    (x ||| b.toBitVec.setWidth w <<< (8 * k)).toNat = (b.toNat + 256 * m) * 256 ^ k := by
  obtain ⟨hbyte, hbelow⟩ := toNat_shifted hk b
  rw [BitVec.toNat_or, hbyte, hx, pow_byte (k + 1),
    Nat.mul_comm m, ← Nat.two_pow_add_eq_or_of_lt hbelow, ← pow_byte, ← pow_byte,
    pow_succ]
  ring

/-- After `m` bytes the word holds the value that they stand for at their places. -/
theorem toNat_assemble_upto (e : Endian) {w n : Nat} (hw : 8 * n ≤ w) (byte : Nat → UInt8) {m : Nat}
    (hm : m ≤ n) :
    ((List.range m).foldl (fun x b => x ||| (byte b).toBitVec.setWidth w <<< (8 * e.place n b))
      0 : BitVec w).toNat =
      e.value ((List.range m).map byte) * match e with | little => 1 | big => 256 ^ (n - m) := by
  induction m with
  | zero => cases e <;> simp [value, arrange]
  | succ m ih =>
    have ih := ih (Nat.le_of_succ_le hm)
    rw [List.range_succ, List.foldl_append, List.foldl_cons, List.foldl_nil, List.map_append,
      List.map_cons, List.map_nil]
    cases e with
    | little =>
      rw [Nat.mul_one] at ih ⊢
      have hlt := value_lt little ((List.range m).map byte)
      rw [List.length_map, List.length_range] at hlt
      rw [place, or_byte_above (ih ▸ hlt) (by omega), ih]
      simp only [value, arrange, List.map_append, List.map_cons, List.map_nil, Nat.ofDigits_append,
        Nat.ofDigits_singleton,
        List.length_map, List.length_range]
      rw [Nat.mul_comm]
    | big =>
      have hplace : n - m = n - (m + 1) + 1 := by omega
      rw [hplace] at ih
      have hk : big.place n m = n - (m + 1) := by
        rw [place]
        omega
      rw [hk, or_byte_below ih (by omega)]
      simp only [value, arrange, List.reverse_append, List.reverse_cons, List.reverse_nil,
        List.nil_append, List.singleton_append,
        List.map_cons, Nat.ofDigits_cons]

/-- The word is the value of its bytes. -/
theorem toNat_assemble (e : Endian) {w n : Nat} (hw : 8 * n ≤ w) (byte : Nat → UInt8) :
    (e.assemble n byte : BitVec w).toNat = e.value ((List.range n).map byte) := by
  rw [assemble, toNat_assemble_upto e hw byte le_rfl]
  cases e <;> simp

end Endian

/-! ### Sign extension -/

namespace TwosComplement

/-- The bits from `n` on. -/
theorem toNat_mask {w n : Nat} (hn : n ≤ w) :
    (~~~((1#w <<< n) - 1#w)).toNat = 2 ^ n * (2 ^ (w - n) - 1) := by
  have hsplit : 2 ^ n * 2 ^ (w - n) = 2 ^ w := by rw [← pow_add, Nat.add_sub_cancel' hn]
  have hpos : 0 < 2 ^ n := by positivity
  have hlow : ((1#w <<< n) - 1#w).toNat = 2 ^ n - 1 := by
    rcases Nat.eq_or_lt_of_le hn with rfl | hlt
    · have hzero : 1#n <<< n = 0#n := by
        apply BitVec.eq_of_toNat_eq
        rw [BitVec.toNat_shiftLeft, Nat.shiftLeft_eq]
        cases n with
        | zero => rfl
        | succ n => simp
      rw [hzero]
      cases n with
      | zero => rfl
      | succ n => simp
    · have hone : 1#w <<< n = BitVec.twoPow w n := (BitVec.twoPow_eq w n).symm
      have hw : (1#w).toNat = 1 := by
        rw [BitVec.toNat_ofNat]
        exact Nat.mod_eq_of_lt (Nat.one_lt_two_pow (by omega))
      have hle : 1#w ≤ BitVec.twoPow w n := by
        rw [BitVec.le_def, hw, BitVec.toNat_twoPow_of_lt hlt]
        exact hpos
      rw [hone, BitVec.toNat_sub_of_le hle, hw, BitVec.toNat_twoPow_of_lt hlt]
  rw [BitVec.toNat_not, hlow, Nat.mul_sub, hsplit, Nat.mul_one]
  omega

/-- The test of the sign bit. -/
theorem and_signBit {w n : Nat} (hn : 0 < n) (hw : n ≤ w) {x : BitVec w} (hx : x.toNat < 2 ^ n) :
    x &&& 1#w <<< (n - 1) ≠ 0 ↔ 2 ^ (n - 1) ≤ x.toNat := by
  have hhalf : 2 ^ n = 2 ^ (n - 1) * 2 := by rw [← pow_succ, Nat.sub_add_cancel hn]
  rw [← BitVec.twoPow_eq, BitVec.and_twoPow]
  have hbit : x.getLsbD (n - 1) = true ↔ 2 ^ (n - 1) ≤ x.toNat := by
    rw [BitVec.getLsbD, Nat.testBit_eq_decide_div_mod_eq, decide_eq_true_iff]
    have hpos : 0 < 2 ^ (n - 1) := by positivity
    have hlt : x.toNat / 2 ^ (n - 1) < 2 := (Nat.div_lt_iff_lt_mul hpos).2 (by omega)
    have hone : 1 ≤ x.toNat / 2 ^ (n - 1) ↔ 2 ^ (n - 1) ≤ x.toNat := by
      rw [Nat.le_div_iff_mul_le hpos, Nat.one_mul]
    rw [← hone]
    generalize x.toNat / 2 ^ (n - 1) = q at hlt
    omega
  rw [← hbit]
  split
  · rename_i hset
    refine iff_of_true (fun hzero => ?_) hset
    have hpow : 2 ^ (n - 1) = 0 :=
      (BitVec.toNat_twoPow_of_lt (by omega)).symm.trans (congrArg BitVec.toNat hzero)
    exact absurd hpow (by positivity)
  · rename_i hclear
    exact iff_of_false (fun h => h rfl) hclear

theorem bmod_of_half_le {n x : Nat} (hn : 0 < n) (hle : 2 ^ (n - 1) ≤ x) (hlt : x < 2 ^ n) :
    (x : Int).bmod (2 ^ n) = x - (2 ^ n : Nat) := by
  have hhalf : 2 ^ n = 2 ^ (n - 1) * 2 := by rw [← pow_succ, Nat.sub_add_cancel hn]
  rw [← Int.sub_bmod_right, Int.bmod_eq_of_le]
  all_goals omega

theorem bmod_of_lt_half {n x : Nat} (hn : 0 < n) (hlt : x < 2 ^ (n - 1)) :
    (x : Int).bmod (2 ^ n) = x := by
  have hhalf : 2 ^ n = 2 ^ (n - 1) * 2 := by rw [← pow_succ, Nat.sub_add_cancel hn]
  rw [Int.bmod_eq_of_le]
  all_goals omega

/-- A word whose sign bit is set is filled up above it, and then has the signed value of its low
bits. -/
theorem toInt_fill {w n : Nat} (hn : 0 < n) (hw : n ≤ w) {x : BitVec w} (hx : x.toNat < 2 ^ n) :
    (if x &&& 1#w <<< (n - 1) ≠ 0 then x ||| ~~~(((1#w <<< (n - 1)) <<< 1) - 1#w) else x).toInt =
      (x.toNat : Int).bmod (2 ^ n) := by
  have hshift : (1#w <<< (n - 1)) <<< 1 = 1#w <<< n := by
    rw [← BitVec.shiftLeft_add, Nat.sub_add_cancel hn]
  have hhalf : 2 ^ n = 2 ^ (n - 1) * 2 := by rw [← pow_succ, Nat.sub_add_cancel hn]
  have hwide : 2 ^ n ≤ 2 ^ w := Nat.pow_le_pow_right (by decide) hw
  rw [hshift]
  split
  · rename_i hset
    have hneg := (and_signBit hn hw hx).1 hset
    have hword : (x ||| ~~~((1#w <<< n) - 1#w)).toNat = 2 ^ w - 2 ^ n + x.toNat := by
      rw [BitVec.toNat_or, toNat_mask hw, Nat.or_comm, ← Nat.two_pow_add_eq_or_of_lt hx,
        Nat.mul_sub, ← pow_add,
        Nat.add_sub_cancel' hw, Nat.mul_one]
    have hhalves : 2 ^ w = 2 ^ (w - 1) * 2 := by
      rw [← pow_succ, Nat.sub_add_cancel (hn.trans_le hw)]
    have hsigns : 2 ^ (n - 1) ≤ 2 ^ (w - 1) := Nat.pow_le_pow_right (by decide) (by omega)
    rw [BitVec.toInt_eq_toNat_bmod, hword, bmod_of_half_le (hn.trans_le hw) (by omega) (by omega),
      bmod_of_half_le hn hneg hx]
    omega
  · rename_i hclear
    have hpos := not_le.1 (mt (and_signBit hn hw hx).2 hclear)
    have hsigns : 2 ^ (n - 1) ≤ 2 ^ (w - 1) := Nat.pow_le_pow_right (by decide) (by omega)
    rw [BitVec.toInt_eq_toNat_bmod, bmod_of_lt_half (hn.trans_le hw) (hpos.trans_le hsigns),
      bmod_of_lt_half hn hpos]

end TwosComplement
