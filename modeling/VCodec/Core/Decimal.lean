import VCodec.Core.Build
import Mathlib.Data.Nat.Digits.Lemmas
import Mathlib.Tactic.IntervalCases

/-!
# Decimal numbers

`std::to_string` spells a number that `std::from_chars` reads back.
-/

namespace VCodec

theorem decimal_ne_nil (n : Nat) : decimal n ≠ [] := by
  unfold decimal
  split
  · exact List.cons_ne_nil _ _
  · rename_i hn
    rw [ne_eq, List.map_eq_nil_iff, List.reverse_eq_nil_iff]
    exact Nat.digits_ne_nil_iff_ne_zero.2 hn

theorem decimalInt_nat (n : Nat) : decimalInt (n : Int) = decimal n := by
  rw [decimalInt, if_neg (by omega), Int.natAbs_natCast]

theorem isDigit_ofNat {d : Nat} (hd : d < 10) : isDigit (UInt8.ofNat (0x30 + d)) = true := by
  interval_cases d <;> rfl

theorem toNat_digit {d : Nat} (hd : d < 10) : (UInt8.ofNat (0x30 + d)).toNat - 0x30 = d := by
  interval_cases d <;> rfl

theorem isDigit_decimal {n : Nat} {c : UInt8} (h : c ∈ decimal n) : isDigit c = true := by
  unfold decimal at h
  split at h
  · obtain rfl := List.mem_singleton.1 h
    rfl
  · obtain ⟨d, hd, rfl⟩ := List.mem_map.1 h
    exact isDigit_ofNat (Nat.digits_lt_base (by decide) (List.mem_reverse.1 hd))

theorem digitsValue_decimal (n : Nat) : digitsValue (decimal n) = n := by
  have hdigits : ∀ ds : List Nat, (∀ d ∈ ds, d < 10) →
      digitsValue (ds.reverse.map fun d => UInt8.ofNat (0x30 + d)) = Nat.ofDigits 10 ds := by
    intro ds hds
    induction ds with
    | nil => rfl
    | cons d ds ih =>
      have hd := toNat_digit (hds d (.head _))
      unfold digitsValue at ih ⊢
      rw [List.reverse_cons, List.map_append, List.foldl_append, ih fun x hx => hds x (.tail _ hx),
        Nat.ofDigits_cons]
      simp only [List.map_cons, List.map_nil, List.foldl_cons, List.foldl_nil, hd]
      omega
  unfold decimal
  split
  · rename_i hn
    subst hn
    rfl
  · rw [hdigits _ fun d hd => Nat.digits_lt_base (by decide) hd, Nat.ofDigits_digits]

theorem foldl_digits (n : Nat) (ds : Bytes) :
    ds.foldl (fun n c => n * 10 + (c.toNat - 0x30)) n = n * 10 ^ ds.length + digitsValue ds := by
  induction ds generalizing n with
  | nil => exact (Nat.mul_one n).symm
  | cons d ds ih =>
    have hzero : digitsValue (d :: ds) = (0 * 10 + (d.toNat - 0x30)) * 10 ^ ds.length +
      digitsValue ds := ih _
    rw [List.foldl_cons, ih, hzero, List.length_cons, pow_succ]
    ring

theorem digitsValue_cons (c : UInt8) (ds : Bytes) :
    digitsValue (c :: ds) = (c.toNat - 0x30) * 10 ^ ds.length + digitsValue ds := by
  have h : digitsValue (c :: ds) = (0 * 10 + (c.toNat - 0x30)) * 10 ^ ds.length + digitsValue ds :=
    foldl_digits _ ds
  rw [h, Nat.zero_mul, Nat.zero_add]

theorem digitsValue_append (ds ds' : Bytes) :
    digitsValue (ds ++ ds') = digitsValue ds * 10 ^ ds'.length + digitsValue ds' := by
  induction ds with
  | nil =>
    exact (by rw [List.nil_append, show digitsValue [] = 0 from rfl, Nat.zero_mul, Nat.zero_add])
  | cons d ds ih =>
    rw [List.cons_append, digitsValue_cons, digitsValue_cons, ih, List.length_append, pow_add]
    ring

theorem digitsValue_lt {ds : Bytes} (h : ∀ c ∈ ds, isDigit c = true) :
    digitsValue ds < 10 ^ ds.length := by
  induction ds with
  | nil => exact Nat.zero_lt_one
  | cons d ds ih =>
    have hd := of_decide_eq_true (h d List.mem_cons_self)
    have hlt := ih fun c hc => h c (List.mem_cons_of_mem _ hc)
    have hdigit : d.toNat - 0x30 ≤ 9 := Nat.sub_le_of_le_add hd.2
    calc digitsValue (d :: ds) = (d.toNat - 0x30) * 10 ^ ds.length + digitsValue ds :=
      digitsValue_cons d ds
      _ < 9 * 10 ^ ds.length + 10 ^ ds.length :=
        Nat.add_lt_add_of_le_of_lt (Nat.mul_le_mul_right _ hdigit) hlt
      _ = 10 ^ (d :: ds).length := by
        rw [List.length_cons, pow_succ]
        ring

theorem le_digitsValue {d : UInt8} {ds : Bytes} (hd : isDigit d = true) (hne : d ≠ 0x30) :
    10 ^ ds.length ≤ digitsValue (d :: ds) := by
  have hdigit := of_decide_eq_true hd
  have hpos : 1 ≤ d.toNat - 0x30 := by
    have hne' : d.toNat ≠ 0x30 := fun h => hne (UInt8.toNat_inj.1 h)
    omega
  calc 10 ^ ds.length = 1 * 10 ^ ds.length := (Nat.one_mul _).symm
    _ ≤ (d.toNat - 0x30) * 10 ^ ds.length := Nat.mul_le_mul_right _ hpos
    _ ≤ digitsValue (d :: ds) := by
      rw [digitsValue_cons]
      exact Nat.le_add_right _ _

theorem takeWhile_digits (ds rest : Bytes) (hds : ∀ c ∈ ds, isDigit c = true)
    (hrest : ∀ c ∈ rest.head?, isDigit c = false) :
    (ds ++ rest).takeWhile isDigit = ds ∧ (ds ++ rest).dropWhile isDigit = rest := by
  induction ds with
  | nil =>
    cases rest with
    | nil => exact ⟨rfl, rfl⟩
    | cons c rest =>
      have hc := hrest c rfl
      simp [hc]
  | cons d ds ih =>
    obtain ⟨h, h'⟩ := ih fun c hc => hds c (.tail _ hc)
    have hd := hds d (.head _)
    simp [hd, h, h']

/-- A number of the type is read back from its text. -/
theorem fromChars_decimalInt {k : IntTy} {i : Int} (hmin : k.min ≤ i) (hmax : i ≤ k.max) :
    fromChars k (decimalInt i) = .value i [] := by
  have hspan : ∀ n, (decimal n).takeWhile isDigit = decimal n ∧
    (decimal n).dropWhile isDigit = [] := by
    intro n
    have h := takeWhile_digits (decimal n) [] (fun c => isDigit_decimal) (by simp)
    rwa [List.append_nil] at h
  have hminus : ∀ n, (decimal n).head? ≠ some 0x2D := by
    intro n h
    have hmem : (0x2D : UInt8) ∈ decimal n := List.mem_of_head? h
    have hdigit := isDigit_decimal hmem
    revert hdigit
    decide
  unfold decimalInt fromChars
  by_cases hi : i < 0
  · have hsigned : k.signed = true := by
      unfold IntTy.min at hmin
      split at hmin
      · assumption
      · omega
    have habs : -|i| = i := by rw [abs_of_neg hi, neg_neg]
    simp [hi, hsigned, (hspan _).1, (hspan _).2, decimal_ne_nil, digitsValue_decimal, habs, hmin,
      hmax]
  · have habs : |i| = i := abs_of_nonneg (by omega)
    simp [hi, hminus, (hspan _).1, (hspan _).2, decimal_ne_nil, digitsValue_decimal, habs, hmin,
      hmax]

end VCodec
