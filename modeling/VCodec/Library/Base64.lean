import Mathlib.Data.List.Basic

/-!
# Sextets and bytes

Base 64 writes three bytes as four digits of six bits. A last group of one or two bytes takes two or
three digits, whose unused low bits are free. `Packs` says which bytes a list of digits stands for;
`bytes` computes them and `digits` goes back, with the unused bits zero.
-/

namespace Base64

inductive Packs : List Nat → List UInt8 → Prop
  | nil : Packs [] []
  | one {a b : Nat} {x : UInt8} : (a * 64 + b) / 16 = x.toNat → Packs [a, b] [x]
  | two {a b c : Nat} {x y : UInt8} :
    (a * 4096 + b * 64 + c) / 4 = x.toNat * 256 + y.toNat → Packs [a, b, c] [x, y]
  | three {a b c d : Nat} {x y z : UInt8} {ds : List Nat} {xs : List UInt8} :
    a * 262144 + b * 4096 + c * 64 + d = x.toNat * 65536 + y.toNat * 256 + z.toNat → Packs ds xs →
    Packs (a :: b :: c :: d :: ds) (x :: y :: z :: xs)

/-- The bytes of a list of digits; one digit more than that is dropped. -/
def bytes : List Nat → List UInt8
  | a :: b :: c :: d :: ds =>
    UInt8.ofNat (a * 4 + b / 16) :: UInt8.ofNat (b % 16 * 16 + c / 4) :: UInt8.ofNat
      (c % 4 * 64 + d) :: bytes ds
  | [a, b, c] => [UInt8.ofNat (a * 4 + b / 16), UInt8.ofNat (b % 16 * 16 + c / 4)]
  | [a, b] => [UInt8.ofNat (a * 4 + b / 16)]
  | _ => []

def digits : List UInt8 → List Nat
  | x :: y :: z :: xs =>
    x.toNat / 4 :: (x.toNat % 4 * 16 + y.toNat / 16) :: (y.toNat % 16 * 4 + z.toNat / 64) ::
      (z.toNat % 64) :: digits xs
  | [x, y] => [x.toNat / 4, x.toNat % 4 * 16 + y.toNat / 16, y.toNat % 16 * 4]
  | [x] => [x.toNat / 4, x.toNat % 4 * 16]
  | [] => []

theorem toNat_ofNat {n : Nat} (h : n < 256) : (UInt8.ofNat n).toNat = n := by
  rw [UInt8.toNat_ofNat', Nat.mod_eq_of_lt h]

theorem packs_bytes {ds : List Nat} (hds : ∀ d ∈ ds, d < 64) (hlen : ds.length % 4 ≠ 1) :
    Packs ds (bytes ds) := by
  fun_induction bytes ds with
  | case1 a b c d ds ih =>
    simp only [List.forall_mem_cons] at hds
    simp only [List.length_cons] at hlen
    refine .three ?_ (ih hds.2.2.2.2 (by omega))
    rw [toNat_ofNat (by omega), toNat_ofNat (by omega), toNat_ofNat (by omega)]
    omega
  | case2 a b c =>
    simp only [List.forall_mem_cons] at hds
    refine .two ?_
    rw [toNat_ofNat (by omega), toNat_ofNat (by omega)]
    omega
  | case3 a b =>
    simp only [List.forall_mem_cons] at hds
    refine .one ?_
    rw [toNat_ofNat (by omega)]
    omega
  | case4 ds h₄ h₃ h₂ =>
    rcases ds with _ | ⟨a, _ | ⟨b, _ | ⟨c, _ | ⟨d, ds⟩⟩⟩⟩
    · exact .nil
    · simp at hlen
    · exact absurd rfl (h₂ a b)
    · exact absurd rfl (h₃ a b c)
    · exact absurd rfl (h₄ a b c d ds)

theorem Packs.eq_bytes {ds : List Nat} {xs : List UInt8} (h : Packs ds xs)
    (hds : ∀ d ∈ ds, d < 64) : xs = bytes ds := by
  have hbyte : ∀ {x : UInt8} {n : Nat}, x.toNat = n → x = UInt8.ofNat n := by
    rintro x _ rfl
    exact (UInt8.ofNat_toNat).symm
  induction h with
  | nil => rfl
  | @one a b x h =>
    simp only [List.forall_mem_cons] at hds
    rw [bytes, hbyte (show x.toNat = a * 4 + b / 16 by omega)]
  | @two a b c x y h =>
    have hx := x.toNat_lt
    have hy := y.toNat_lt
    simp only [List.forall_mem_cons] at hds
    rw [bytes, hbyte (show x.toNat = a * 4 + b / 16 by omega),
      hbyte (show y.toNat = b % 16 * 16 + c / 4 by omega)]
  | @three a b c d x y z ds xs h _ ih =>
    have hx := x.toNat_lt
    have hy := y.toNat_lt
    have hz := z.toNat_lt
    simp only [List.forall_mem_cons] at hds
    rw [bytes, hbyte (show x.toNat = a * 4 + b / 16 by omega),
      hbyte (show y.toNat = b % 16 * 16 + c / 4 by omega),
      hbyte (show z.toNat = c % 4 * 64 + d by omega), ih hds.2.2.2.2]

theorem Packs.length_mod {ds : List Nat} {xs : List UInt8} (h : Packs ds xs) :
    ds.length % 4 ≠ 1 := by
  induction h with
  | nil | one | two => simp
  | three _ _ ih =>
    simp only [List.length_cons]
    omega

theorem digits_lt (xs : List UInt8) : ∀ d ∈ digits xs, d < 64 := by
  fun_induction digits xs with
  | case1 x y z xs ih =>
    have := x.toNat_lt
    have := y.toNat_lt
    have := z.toNat_lt
    simp only [List.forall_mem_cons]
    exact ⟨by omega, by omega, by omega, by omega, ih⟩
  | case2 x y =>
    have := x.toNat_lt
    have := y.toNat_lt
    simp only [List.forall_mem_cons]
    exact ⟨by omega, by omega, by omega, by simp⟩
  | case3 x =>
    have := x.toNat_lt
    simp only [List.forall_mem_cons]
    exact ⟨by omega, by omega, by simp⟩
  | case4 => simp

theorem packs_digits (xs : List UInt8) : Packs (digits xs) xs := by
  fun_induction digits xs with
  | case1 x y z xs ih => exact .three (by omega) ih
  | case2 x y => exact .two (by omega)
  | case3 x => exact .one (by omega)
  | case4 => exact .nil

/-- Every three bytes take four digits, and a rest takes one digit more than it has bytes. -/
theorem length_digits (xs : List UInt8) :
    (digits xs).length = xs.length / 3 * 4 + if xs.length % 3 =
      0 then 0 else xs.length % 3 + 1 := by
  fun_induction digits xs with
  | case1 x y z xs ih =>
    simp only [List.length_cons, ih]
    split <;> split <;> omega
  | case2 | case3 | case4 => simp

end Base64
