import VCodec.Library.Utf8
import Mathlib.Order.Bounds.Defs

/-!
# UTF-8 as an encoding of characters

The octets of the syntax are those that encode the Unicode scalar values. The length of a character
shows in its first octet, so a string reads in one way, and a string that is not valid has a first
place where no character starts.
-/

namespace Utf8

/-! ### Characters -/

theorem exists_char {v : Nat} (h : v < 0xD800 ∨ 0xDFFF < v ∧ v < 0x110000) : ∃ c :
    Char, c.val.toNat = v := by
  have hvalid : v.isValidChar := h
  refine ⟨Char.ofNat v, ?_⟩
  rw [Char.ofNat, dif_pos hvalid]
  exact rfl

theorem eq_ofNat {a : UInt8} {n : Nat} (h : n = a.toNat) : UInt8.ofNat n = a := by
  rw [h, UInt8.ofNat_toNat]

/-- Every character of the syntax encodes a scalar value. -/
theorem Scalar.exists_char {s : List UInt8} (hs : Scalar s) : ∃ c :
    Char, String.utf8EncodeChar c = s := by
  cases hs with
  | @one a ha =>
    obtain ⟨c, hc⟩ := Utf8.exists_char (v := a.toNat) (by omega)
    refine ⟨c, ?_⟩
    rw [utf8EncodeChar_ascii (by rw [Char.toNat, hc]; exact ha), Char.toNat, hc, UInt8.ofNat_toNat]
  | @two a b hlo hhi hb =>
    unfold Tail at hb
    obtain ⟨c, hc⟩ := Utf8.exists_char (v := a.toNat % 32 * 64 + b.toNat % 64) (by omega)
    refine ⟨c, ?_⟩
    simp only [String.utf8EncodeChar, hc]
    rw [if_neg (by omega), if_pos (by omega), eq_ofNat (a := a) (by omega),
      eq_ofNat (a := b) (by omega)]
  | @three a b c hab hc =>
    unfold Lead3 Tail at hab
    unfold Tail at hc
    obtain ⟨ch, hch⟩ :=
      Utf8.exists_char (v := a.toNat % 16 * 4096 + b.toNat % 64 * 64 + c.toNat % 64) (by omega)
    refine ⟨ch, ?_⟩
    simp only [String.utf8EncodeChar, hch]
    rw [if_neg (by omega), if_neg (by omega), if_pos (by omega), eq_ofNat (a := a) (by omega),
      eq_ofNat (a := b) (by omega), eq_ofNat (a := c) (by omega)]
  | @four a b c d hab hc hd =>
    unfold Lead4 Tail at hab
    unfold Tail at hc hd
    obtain ⟨ch, hch⟩ := Utf8.exists_char
      (v := a.toNat % 8 * 262144 + b.toNat % 64 * 4096 + c.toNat % 64 * 64 + d.toNat % 64)
        (by omega)
    refine ⟨ch, ?_⟩
    simp only [String.utf8EncodeChar, hch]
    rw [if_neg (by omega), if_neg (by omega), if_neg (by omega), eq_ofNat (a := a) (by omega),
      eq_ofNat (a := b) (by omega), eq_ofNat (a := c) (by omega), eq_ofNat (a := d) (by omega)]

theorem valid_iff {s : List UInt8} : Valid s ↔ ∃ cs :
    List Char, s = cs.flatMap String.utf8EncodeChar := by
  constructor
  · intro hs
    induction hs with
    | nil => exact ⟨[], rfl⟩
    | cons hc _ ih =>
      obtain ⟨c, rfl⟩ := hc.exists_char
      obtain ⟨cs, rfl⟩ := ih
      exact ⟨c :: cs, rfl⟩
  · rintro ⟨cs, rfl⟩
    induction cs with
    | nil => exact .nil
    | cons c cs ih => exact .cons (.utf8EncodeChar c) ih

/-! ### One reading -/

/-- The length of a character, by its first octet. -/
def leadLength (a : UInt8) : Nat :=
  if a.toNat ≤ 0x7F then 1 else if a.toNat ≤ 0xDF then 2 else if a.toNat ≤ 0xEF then 3 else 4

theorem Scalar.exists_lead {s : List UInt8} (hs : Scalar s) :
    ∃ a t, s = a :: t ∧ s.length = leadLength a := by
  cases hs with
  | one ha => exact ⟨_, _, rfl, (if_pos ha).symm⟩
  | two hlo hhi _ =>
    refine ⟨_, _, rfl, ?_⟩
    rw [leadLength, if_neg (by omega), if_pos hhi]
    rfl
  | three hab _ =>
    refine ⟨_, _, rfl, ?_⟩
    unfold Lead3 at hab
    rw [leadLength, if_neg (by omega), if_neg (by omega), if_pos (by omega)]
    rfl
  | four hab _ _ =>
    refine ⟨_, _, rfl, ?_⟩
    unfold Lead4 at hab
    rw [leadLength, if_neg (by omega), if_neg (by omega), if_neg (by omega)]
    rfl

/-- Two characters at the front of one string are the same. -/
theorem Scalar.eq_of_append
    {c d s t : List UInt8} (hc : Scalar c) (hd : Scalar d) (h : c ++ s = d ++ t) :
    c = d ∧ s = t := by
  obtain ⟨a, c', rfl, hclen⟩ := hc.exists_lead
  obtain ⟨b, d', rfl, hdlen⟩ := hd.exists_lead
  obtain rfl : a = b := (List.cons.inj h).1
  exact List.append_inj h (hclen.trans hdlen.symm)

/-- What follows a valid front of a valid string is valid. -/
theorem Valid.of_append {s t : List UInt8} (hs : Valid s) (h : Valid (s ++ t)) : Valid t := by
  induction hs with
  | nil => exact h
  | @cons c s hc _ ih =>
    rw [List.append_assoc] at h
    generalize hw : c ++ (s ++ t) = w at h
    cases h with
    | nil =>
      obtain ⟨a, c', rfl, -⟩ := hc.exists_lead
      cases hw
    | cons hd hu =>
      obtain ⟨-, rfl⟩ := hc.eq_of_append hd hw
      exact ih hu

/-! ### Where no character starts -/

/-- A character starts at the front. -/
def Starts (s : List UInt8) : Prop := ∃ c : Char, String.utf8EncodeChar c <+: s

theorem starts_iff {s : List UInt8} : Starts s ↔ ∃ c t, Scalar c ∧ s = c ++ t := by
  constructor
  · rintro ⟨c, t, rfl⟩
    exact ⟨_, t, .utf8EncodeChar c, rfl⟩
  · rintro ⟨_, t, hc, rfl⟩
    obtain ⟨c, rfl⟩ := hc.exists_char
    exact ⟨c, t, rfl⟩

theorem Valid.starts {s : List UInt8} (hs : Valid s) (hne : s ≠ []) (t : List UInt8) :
    Starts (s ++ t) := by
  cases hs with
  | nil => exact absurd rfl hne
  | cons hc _ => exact starts_iff.2 ⟨_, _, hc, List.append_assoc _ _ _⟩

/-- The places behind a valid front of the string at which no character starts. -/
def Breaks (s : List UInt8) : Set Nat := {i | i < s.length ∧ Valid (s.take i) ∧ ¬ Starts (s.drop i)}

/-- There is one at most. -/
theorem isLeast_breaks {s : List UInt8} {i : Nat} (hi : i ∈ Breaks s) : IsLeast (Breaks s) i := by
  refine ⟨hi, fun j hj => ?_⟩
  by_contra hlt
  rw [Nat.not_le] at hlt
  have hcut : s.take i = s.take j ++ (s.drop j).take (i - j) := by
    rw [← List.take_add, Nat.add_sub_cancel' (Nat.le_of_lt hlt)]
  have hmid : Valid ((s.drop j).take (i - j)) := hj.2.1.of_append (hcut ▸ hi.2.1)
  have hne : (s.drop j).take (i - j) ≠ [] := by
    intro hnil
    have hlen := congrArg List.length hnil
    rw [List.length_take, List.length_drop, List.length_nil] at hlen
    have hbound := hi.1
    omega
  have hstarts := hmid.starts hne ((s.drop j).drop (i - j))
  rw [List.take_append_drop] at hstarts
  exact hj.2.2 hstarts

end Utf8
