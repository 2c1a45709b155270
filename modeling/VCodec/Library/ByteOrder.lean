import Mathlib.Data.List.Lex
import Mathlib.Data.UInt

/-!
# The order of byte strings

Bytes are ordered as numbers, and byte strings lexicographically, as `std::lexicographical_compare`
orders them on unsigned bytes.
-/

instance byteOrder : LinearOrder UInt8 where
  le_refl := UInt8.le_refl
  le_trans _ _ _ := UInt8.le_trans
  le_antisymm _ _ := UInt8.le_antisymm
  le_total := UInt8.le_total
  lt_iff_le_not_ge a b := by
    simp only [UInt8.lt_iff_toNat_lt, UInt8.le_iff_toNat_le]
    omega
  toDecidableLE := inferInstance

/-- A string that neither precedes nor equals another follows it. -/
theorem not_lt_and_ne_iff {a b : List UInt8} : ¬ a < b ∧ a ≠ b ↔ b < a := by
  constructor
  · rintro ⟨hlt, hne⟩
    exact lt_of_le_of_ne (not_lt.1 hlt) hne.symm
  · intro h
    exact ⟨lt_asymm h, ne_of_gt h⟩
