import VCodec.Core.Faithful

/-!
# Narrowing

The two integer operations of a reader give 64-bit values. `decodeUint` and `decodeSint` compare
them with the target's bounds, so what they do is read off from what the reader does.
-/

namespace VCodec

open D

variable {σ S M : Type} {env : Env} {r : Reader σ S M} {f : FieldMeta} {k : IntTy} {b : Build σ}
    {off : Nat} {s t : σ}

/-! ### The bounds of a type -/

theorem IntTy.min_unsigned (hk : k.signed = false) : k.min = 0 := by
  rw [IntTy.min, hk, if_neg Bool.false_ne_true]

theorem IntTy.max_unsigned (hk : k.signed = false) : k.max < 2 ^ 64 := by
  rw [IntTy.max, hk, if_neg Bool.false_ne_true]
  cases k.width
  all_goals decide

theorem IntTy.min_signed (hk : k.signed = true) : -2 ^ 63 ≤ k.min := by
  rw [IntTy.min, hk, if_pos rfl]
  cases k.width
  all_goals decide

theorem IntTy.max_signed (hk : k.signed = true) : k.max < 2 ^ 63 := by
  rw [IntTy.max, hk, if_pos rfl]
  cases k.width
  all_goals decide

theorem IntTy.max_nonneg (k : IntTy) : 0 ≤ k.max := by
  rw [IntTy.max]
  cases k.signed
  all_goals
    cases k.width
    all_goals decide

/-! ### What the reader returns -/

theorem decodeUint_of_ok {u : Nat} (hoff : r.offset b.reader = .ok off s)
    (hread : r.expectUint f s = .ok u t) :
    decodeUint env r f k b =
      if k.max < (u : Int) then .error (.error (rangeError env r f k off u)) { b with reader := t }
      else .ok (u : Int) { b with reader := t } := by
  have hcall := call_of_ok (b := b) hoff
  have hmap : mapError (withRangeContext env f (.int k))
    (call (r.expectUint f)) { b with reader := s } =
      .ok u { b with reader := t } := Run.mapError_of_ok (call_of_ok hread)
  rw [decodeUint, Run.bind_of_ok hcall, Run.bind_of_ok hmap]
  split
  · rfl
  · rfl

theorem decodeUint_of_error
    {e : Error} (hoff : r.offset b.reader = .ok off s) (hread : r.expectUint f s = .error e t) :
    decodeUint env r f k b = .error (.error (withRangeContext env f (.int k) e))
      { b with reader := t } := by
  have hcall := call_of_ok (b := b) hoff
  have hmap : mapError (withRangeContext env f (.int k))
    (call (r.expectUint f)) { b with reader := s } =
      .error (.error (withRangeContext env f (.int k) e)) { b with reader := t } :=
        Run.mapError_of_error (call_of_error hread)
  rw [decodeUint, Run.bind_of_ok hcall, Run.bind_of_error hmap]

theorem decodeSint_of_ok {i : Int} (hoff : r.offset b.reader = .ok off s)
    (hread : r.expectSint f s = .ok i t) :
    decodeSint env r f k b =
      if k.max < i ∨ i < k.min then .error (.error (rangeError env r f k off i))
      { b with reader := t }
      else .ok i { b with reader := t } := by
  have hcall := call_of_ok (b := b) hoff
  have hmap : mapError (withRangeContext env f (.int k))
    (call (r.expectSint f)) { b with reader := s } =
      .ok i { b with reader := t } := Run.mapError_of_ok (call_of_ok hread)
  rw [decodeSint, Run.bind_of_ok hcall, Run.bind_of_ok hmap]
  split
  · rfl
  · rfl

theorem decodeSint_of_error
    {e : Error} (hoff : r.offset b.reader = .ok off s) (hread : r.expectSint f s = .error e t) :
    decodeSint env r f k b = .error (.error (withRangeContext env f (.int k) e))
      { b with reader := t } := by
  have hcall := call_of_ok (b := b) hoff
  have hmap : mapError (withRangeContext env f (.int k))
    (call (r.expectSint f)) { b with reader := s } =
      .error (.error (withRangeContext env f (.int k) e)) { b with reader := t } :=
        Run.mapError_of_error (call_of_error hread)
  rw [decodeSint, Run.bind_of_ok hcall, Run.bind_of_error hmap]

/-! ### What arrives -/

/-- What the reader returns arrives if the target holds it, and is out of range otherwise. -/
theorem decodeInt_of_uint {u : Nat} (hk : k.signed = false) (hoff : r.offset b.reader = .ok off s)
    (hread : r.expectUint f s = .ok u t) :
    decodeInt env r f k b =
      if k.Holds u then .ok (u : Int) { b with reader := t }
      else .error (.error (rangeError env r f k off u)) { b with reader := t } := by
  have hmin := IntTy.min_unsigned hk
  rw [decodeInt, hk, if_neg Bool.false_ne_true, decodeUint_of_ok hoff hread]
  by_cases hout : k.max < (u : Int)
  · rw [if_pos hout, if_neg fun h => Int.not_lt.2 h.2 hout]
  · rw [if_neg hout, if_pos ⟨by omega, Int.not_lt.1 hout⟩]

theorem decodeInt_of_sint {i : Int} (hk : k.signed = true) (hoff : r.offset b.reader = .ok off s)
    (hread : r.expectSint f s = .ok i t) :
    decodeInt env r f k b =
      if k.Holds i then .ok i { b with reader := t }
      else .error (.error (rangeError env r f k off i)) { b with reader := t } := by
  rw [decodeInt, if_pos hk, decodeSint_of_ok hoff hread]
  by_cases hout : k.max < i ∨ i < k.min
  · rw [if_pos hout, if_neg fun h => hout.elim (Int.not_lt.2 h.2) (Int.not_lt.2 h.1)]
  · obtain ⟨hmax, hmin⟩ := not_or.1 hout
    rw [if_neg hout, if_pos ⟨Int.not_lt.1 hmin, Int.not_lt.1 hmax⟩]

theorem decodeInt_of_uint_error
    {e : Error} (hk : k.signed = false) (hoff : r.offset b.reader = .ok off s)
    (hread : r.expectUint f s = .error e t) :
    decodeInt env r f k b = .error (.error (withRangeContext env f (.int k) e))
      { b with reader := t } := by
  rw [decodeInt, hk, if_neg Bool.false_ne_true, decodeUint_of_error hoff hread]

theorem decodeInt_of_sint_error
    {e : Error} (hk : k.signed = true) (hoff : r.offset b.reader = .ok off s)
    (hread : r.expectSint f s = .error e t) :
    decodeInt env r f k b = .error (.error (withRangeContext env f (.int k) e))
      { b with reader := t } := by
  rw [decodeInt, if_pos hk, decodeSint_of_error hoff hread]

theorem withRangeContext_detail (ty : Ty) (e : Error) :
    (withRangeContext env f ty e).detail = e.detail := by
  rw [withRangeContext]
  split
  · rfl
  · rfl

end VCodec
