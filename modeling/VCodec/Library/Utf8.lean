import Mathlib.Tactic.Common

/-!
# UTF-8 byte sequences

The syntax of RFC 3629, section 4: a character is one to four octets, with the ranges that leave out
overlong forms, surrogates and everything above U+10FFFF. `Valid` is the language of whole strings.
An ASCII octet is always a character of its own, so a string can be cut at one.
-/

namespace Utf8

/-- `UTF8-tail`. -/
def Tail (b : UInt8) : Prop := 0x80 ≤ b.toNat ∧ b.toNat ≤ 0xBF

/-- The first two octets of a three-octet character. -/
def Lead3 (a b : UInt8) : Prop :=
  (a.toNat = 0xE0 ∧ 0xA0 ≤ b.toNat ∧ b.toNat ≤ 0xBF) ∨
  (0xE1 ≤ a.toNat ∧ a.toNat ≤ 0xEC ∧ Tail b) ∨
  (a.toNat = 0xED ∧ 0x80 ≤ b.toNat ∧ b.toNat ≤ 0x9F) ∨
  (0xEE ≤ a.toNat ∧ a.toNat ≤ 0xEF ∧ Tail b)

/-- The first two octets of a four-octet character. -/
def Lead4 (a b : UInt8) : Prop :=
  (a.toNat = 0xF0 ∧ 0x90 ≤ b.toNat ∧ b.toNat ≤ 0xBF) ∨
  (0xF1 ≤ a.toNat ∧ a.toNat ≤ 0xF3 ∧ Tail b) ∨
  (a.toNat = 0xF4 ∧ 0x80 ≤ b.toNat ∧ b.toNat ≤ 0x8F)

/-- `UTF8-char`. -/
inductive Scalar : List UInt8 → Prop
  | one {a : UInt8} (ha : a.toNat ≤ 0x7F) : Scalar [a]
  | two {a b : UInt8} (hlo : 0xC2 ≤ a.toNat) (hhi : a.toNat ≤ 0xDF) (hb : Tail b) : Scalar [a, b]
  | three {a b c : UInt8} (hab : Lead3 a b) (hc : Tail c) : Scalar [a, b, c]
  | four {a b c d : UInt8} (hab : Lead4 a b) (hc : Tail c) (hd : Tail d) : Scalar [a, b, c, d]

/-- `UTF8-octets`. -/
inductive Valid : List UInt8 → Prop
  | nil : Valid []
  | cons {c s : List UInt8} (hc : Scalar c) (hs : Valid s) : Valid (c ++ s)

theorem Valid.append {s t : List UInt8} (hs : Valid s) (ht : Valid t) : Valid (s ++ t) := by
  induction hs with
  | nil => exact ht
  | cons hc _ ih =>
    rw [List.append_assoc]
    exact .cons hc ih

theorem Valid.ascii_cons {a : UInt8} {s : List UInt8} (ha : a.toNat ≤ 0x7F) (hs : Valid s) :
    Valid (a :: s) :=
  .cons (c := [a]) (.one ha) hs

/-- Only a character that is an ASCII octet holds an ASCII octet. -/
theorem Scalar.eq_of_ascii_mem {c : List UInt8} {a : UInt8} (hc : Scalar c) (ha : a.toNat ≤ 0x7F)
    (hmem : a ∈ c) : c = [a] := by
  cases hc with
  | one _ =>
    rw [List.mem_singleton] at hmem
    rw [hmem]
  | two hlo hhi hb =>
    exfalso
    simp only [List.mem_cons, List.not_mem_nil, or_false] at hmem
    rcases hmem with rfl | rfl
    · omega
    · exact absurd hb.1 (by omega)
  | three hab hc =>
    exfalso
    simp only [List.mem_cons, List.not_mem_nil, or_false] at hmem
    unfold Lead3 Tail at hab
    rcases hmem with rfl | rfl | rfl
    · omega
    · omega
    · exact absurd hc.1 (by omega)
  | four hab hc hd =>
    exfalso
    simp only [List.mem_cons, List.not_mem_nil, or_false] at hmem
    unfold Lead4 Tail at hab
    rcases hmem with rfl | rfl | rfl | rfl
    · omega
    · omega
    · exact absurd hc.1 (by omega)
    · exact absurd hd.1 (by omega)

/-- An octet of a character of several octets is not ASCII. -/
theorem Scalar.le_of_mem {c : List UInt8} {a : UInt8} (hc : Scalar c) (hlen : 2 ≤ c.length)
    (hmem : a ∈ c) : 0x80 ≤ a.toNat := by
  by_contra hlt
  have hone := hc.eq_of_ascii_mem (by omega) hmem
  rw [hone, List.length_singleton] at hlen
  omega

theorem Valid.of_ascii {s : List UInt8} (h : ∀ a ∈ s, a.toNat ≤ 0x7F) : Valid s := by
  induction s with
  | nil => exact .nil
  | cons a s ih =>
    exact (ih fun b hb => h b (List.mem_cons_of_mem _ hb)).ascii_cons (h a List.mem_cons_self)

theorem isValidChar (c : Char) : c.toNat < 0xD800 ∨ (0xDFFF < c.toNat ∧ c.toNat < 0x110000) :=
  c.valid

/-- A Unicode scalar value is encoded as a character. -/
theorem Scalar.utf8EncodeChar (c : Char) : Scalar (String.utf8EncodeChar c) := by
  have hc := isValidChar c
  rw [Char.toNat] at hc
  rw [String.utf8EncodeChar]
  generalize c.val.toNat = v at hc
  split
  · refine .one ?_
    rw [UInt8.toNat_ofNat']
    omega
  split
  · refine .two ?_ ?_ ?_
    all_goals
      simp only [Tail, UInt8.toNat_ofNat']
      omega
  split
  · refine .three ?_ ?_
    all_goals
      simp only [Lead3, Tail, UInt8.toNat_ofNat']
      omega
  · refine .four ?_ ?_ ?_
    all_goals
      simp only [Lead4, Tail, UInt8.toNat_ofNat']
      omega

theorem utf8EncodeChar_ascii {c : Char} (hc : c.toNat ≤ 0x7F) :
    String.utf8EncodeChar c = [UInt8.ofNat c.toNat] := by
  rw [String.utf8EncodeChar]
  exact if_pos hc

theorem two_le_utf8EncodeChar {c : Char} (hc : 0x7F < c.toNat) :
    2 ≤ (String.utf8EncodeChar c).length := by
  rw [Char.toNat] at hc
  rw [String.utf8EncodeChar, if_neg (by omega)]
  split
  · exact Nat.le_refl 2
  split
  · exact Nat.le_succ 2
  · exact Nat.le_add_right 2 2

/-- A valid string can be cut at an ASCII octet. -/
theorem Valid.split_ascii {s t : List UInt8} {a : UInt8} (ha : a.toNat ≤ 0x7F)
    (h : Valid (s ++ a :: t)) : Valid s ∧ Valid t := by
  generalize hw : s ++ a :: t = w at h
  induction h generalizing s with
  | nil => simp at hw
  | @cons c u hc hu ih =>
    rcases List.append_eq_append_iff.1 hw with ⟨m, rfl, hm⟩ | ⟨m, rfl, hm⟩
    · -- the character starts before the octet and reaches it, so it is the octet
      cases m with
      | nil =>
        obtain ⟨hs, ht⟩ := ih (s := []) (by simpa using hm)
        rw [List.append_nil] at hc
        exact ⟨by simpa using Valid.cons hc .nil, ht⟩
      | cons x m =>
        rw [List.cons_append, List.cons.injEq] at hm
        obtain ⟨rfl, rfl⟩ := hm
        have hone := hc.eq_of_ascii_mem ha (by simp)
        obtain ⟨rfl, hm⟩ : s = [] ∧ m = [] := by
          cases s with
          | nil => simpa using hone
          | cons _ _ => simp at hone
        exact ⟨.nil, by simpa [hm] using hu⟩
    · obtain ⟨hs, ht⟩ := ih (s := m) hm.symm
      exact ⟨.cons hc hs, ht⟩

end Utf8
