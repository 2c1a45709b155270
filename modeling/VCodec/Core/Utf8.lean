import VCodec.Core.Lower
import VCodec.Library.Utf8Chars

/-!
# What UTF-8 validation returns

The offset that `validate_utf8` returns is the first place at which no character starts.
-/

namespace VCodec

open Utf8

/-- Where no character starts, the validator stops. -/
theorem validateUtf8From_of_not_starts {s : Bytes} (hne : s ≠ []) (hs : ¬ Starts s) (i : Nat) :
    validateUtf8From i s = some i := by
  have hno : ∀ {c t}, Scalar c → s ≠ c ++ t := fun hc heq => hs (starts_iff.2 ⟨_, _, hc, heq⟩)
  fun_cases validateUtf8From i s with
  | case1 => exact absurd rfl hne
  | case2 c t hc => exact absurd rfl (hno (c := [c]) (t := t) (.one (by omega)))
  | case3 c _ hlo c1 t hcont =>
    exact absurd rfl (hno (c := [c, c1]) (t := t) (.two hlo.1 hlo.2 (isCont_iff.1 hcont)))
  | case9 c _ _ hc c1 c2 t hcont hmin hsur =>
    rw [not_not] at hcont
    have hb := isCont_iff.1 hcont.1
    refine absurd rfl (hno (c := [c, c1, c2]) (t := t) (.three ?_ (isCont_iff.1 hcont.2)))
    unfold Tail at hb
    unfold Lead3 Tail
    omega
  | case14 c _ _ _ hc c1 c2 c3 t hcont hmin hmax =>
    rw [not_not] at hcont
    have hb := isCont_iff.1 hcont.1
    refine absurd rfl (hno (c := [c, c1, c2, c3]) (t := t)
      (.four ?_ (isCont_iff.1 hcont.2.1) (isCont_iff.1 hcont.2.2)))
    unfold Tail at hb
    unfold Lead4 Tail
    omega
  | _ => rfl

/-- The validator goes over a valid front. -/
theorem validateUtf8From_append {s t : Bytes} (hs : Valid s) (i : Nat) :
    validateUtf8From i (s ++ t) = validateUtf8From (i + s.length) t := by
  induction hs generalizing i with
  | nil => rfl
  | cons hc _ ih =>
    rw [List.append_assoc, validateUtf8From_of_scalar hc, ih, List.length_append, Nat.add_assoc]

/-- A string is valid, or has a place where no character starts. -/
theorem valid_or_breaks (s : Bytes) : Valid s ∨ ∃ i, i ∈ Breaks s := by
  induction hlen : s.length using Nat.strong_induction_on generalizing s with
  | _ n ih =>
    by_cases hnil : s = []
    · exact .inl (hnil ▸ .nil)
    by_cases hs : Starts s
    · obtain ⟨c, t, hc, rfl⟩ := starts_iff.1 hs
      obtain ⟨a, c', rfl, -⟩ := hc.exists_lead
      have hshort : t.length < n := by
        rw [← hlen, List.length_append, List.length_cons]
        omega
      rcases ih _ hshort t rfl with ht | ⟨i, hi, hfront, hbreak⟩
      · exact .inl (.cons hc ht)
      · refine .inr ⟨(a :: c').length + i, ?_, ?_, ?_⟩
        · rw [List.length_append]
          omega
        · rw [List.take_length_add_append]
          exact .cons hc hfront
        · rw [List.drop_length_add_append]
          exact hbreak
    · refine .inr ⟨0, List.length_pos_iff.2 hnil, ?_, hs⟩
      rw [List.take_zero]
      exact .nil

theorem validateUtf8_of_breaks {s : Bytes} {i : Nat} (hi : i ∈ Breaks s) :
    validateUtf8 s = some i := by
  obtain ⟨hlt, hfront, hbreak⟩ := hi
  have hne : s.drop i ≠ [] := fun hnil => by
    rw [List.drop_eq_nil_iff] at hnil
    omega
  have hrun := validateUtf8From_append (t := s.drop i) hfront 0
  rw [List.take_append_drop, List.length_take, Nat.min_eq_left hlt.le, Nat.zero_add] at hrun
  rw [validateUtf8, hrun, validateUtf8From_of_not_starts hne hbreak]

theorem validateUtf8_lt {s : Bytes} {i : Nat} (h : validateUtf8 s = some i) : i < s.length := by
  rcases valid_or_breaks s with hs | ⟨j, hj⟩
  · rw [validateUtf8_eq_none.2 hs] at h
    cases h
  · rw [validateUtf8_of_breaks hj] at h
    cases h
    exact hj.1

/-- The validator returns no offset for the concatenations of encoded scalar values, and for every
other string the first place at which no encoding starts behind a valid front. -/
theorem validateUtf8_first (s : Bytes) :
    (validateUtf8 s = none ↔ ∃ cs : List Char, s = cs.flatMap String.utf8EncodeChar) ∧
    ∀ i, validateUtf8 s = some i ↔
      IsLeast {i | i < s.length ∧ (∃ cs : List Char, s.take i = cs.flatMap String.utf8EncodeChar) ∧
        ∀ c : Char, ¬ String.utf8EncodeChar c <+: s.drop i} i := by
  have hset : {i | i < s.length ∧ (∃ cs : List Char, s.take i = cs.flatMap String.utf8EncodeChar) ∧
      ∀ c : Char, ¬ String.utf8EncodeChar c <+: s.drop i} = Breaks s := by
    ext i
    simp only [Breaks, Set.mem_ofPred_eq, Starts, not_exists, valid_iff]
  refine ⟨validateUtf8_eq_none.trans valid_iff, fun i => ?_⟩
  rw [hset]
  constructor
  · intro hrun
    rcases valid_or_breaks s with hs | ⟨j, hj⟩
    · rw [validateUtf8_eq_none.2 hs] at hrun
      cases hrun
    · rw [validateUtf8_of_breaks hj] at hrun
      cases hrun
      exact isLeast_breaks hj
  · intro hleast
    exact validateUtf8_of_breaks hleast.1

/-- An encoded surrogate behind an ASCII letter. -/
example : validateUtf8 [0x61, 0xED, 0xA0, 0x80] = some 1 := by decide

end VCodec
