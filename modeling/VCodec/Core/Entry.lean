import VCodec.Core.Build
import VCodec.Library.Lockstep

/-!
# What the entry points make of a traversal

Both formats run one traversal of the input and end alike: `decode` and `decode_into` return one
error or the object, `decode_all` returns the object and every error.
-/

namespace VCodec

open EStateM (Result)

variable {σ : Type} {v : Val} {log : List Error} {last : Result Error σ Unit}

/-- Behind a traversal that comes to its end: the first error recorded, if errors are collected,
or what `finish` says. -/
def settle (collecting : Prop) [Decidable collecting] (log : List Error)
    (last : Result Error σ Unit) (v : Val) : Except Abort Val :=
  match (if collecting then log.head? else none) with
  | some e => .error (.error e)
  | none =>
    match last with
    | .ok _ _ => .ok v
    | .error e _ => .error (.error e)

/-- What `finish` adds to the errors recorded. -/
def lastErrors : Result Error σ Unit → List Error
  | .ok _ _ => []
  | .error e _ => [e]

/-- `decode`, with `report` for the error that ends the traversal. -/
def deliver (report : Error → Error) (conclude : Build σ → Except Abort Val) :
    Result Abort (Build σ) Unit → Except Abort Val
  | .ok _ b => conclude b
  | .error (.error e) _ => .error (.error (report e))
  | .error a _ => .error a

/-- `decode_all`, with `annotate` for what was recorded. -/
def gather (annotate : Error → Error) (log last : Build σ → List Error) :
    Result Abort (Build σ) Unit → Except Abort (Collected Val)
  | .ok _ b => .ok { value := b.out, errors := (log b).map annotate ++ last b }
  | .error (.error e) b =>
    .ok { value := b.out, errors := (log b).map annotate ++ [annotate e.finalize] }
  | .error a _ => .error a

/-- What `decode_into` returns: the object, or the error. -/
def outcome : Result Abort Val Unit → Except Abort Val
  | .ok _ v => .ok v
  | .error a _ => .error a

/-! ### What they return -/

theorem settle_recorded {collecting : Prop} [Decidable collecting] (h : collecting) {e : Error}
    (he : e ∈ log.head?) : settle collecting log last v = .error (.error e) := by
  unfold settle
  rw [if_pos h, he]

theorem settle_last {collecting : Prop} [Decidable collecting] (hlog : log = []) {e : Error}
    (he : e ∈ (lastErrors last).head?) : settle collecting log last v = .error (.error e) := by
  unfold settle
  rw [hlog, List.head?_nil, ite_self]
  cases last with
  | ok _ _ => cases he
  | error _ _ =>
    cases he
    rfl

theorem settle_done {collecting : Prop} [Decidable collecting] (hlog : log = [])
    (hlast : lastErrors last = []) : settle collecting log last v = .ok v := by
  unfold settle
  rw [hlog, List.head?_nil, ite_self]
  cases last with
  | ok _ _ => rfl
  | error _ _ => cases hlast

/-- The object makes no difference to the error. -/
theorem settle_error_iff {collecting : Prop} [Decidable collecting] {w : Val} {e : Error} :
    settle collecting log last v = .error (.error e) ↔
      settle collecting log last w = .error (.error e) := by
  unfold settle
  cases (if collecting then log.head? else none) with
  | some _ => exact Iff.rfl
  | none =>
    cases last with
    | ok _ _ => exact iff_of_false (fun h => nomatch h) fun h => nomatch h
    | error _ _ => exact Iff.rfl

/-- `decode_all` returns the object that the traversal leaves. -/
theorem value_gather {annotate : Error → Error} {log last : Build σ → List Error}
    {x : Result Abort (Build σ) Unit} {c : Collected Val} (h : gather annotate log last x = .ok c) :
    c.value = (Run.final x).out := by
  cases x with
  | ok _ b =>
    cases h
    rfl
  | error a b =>
    cases a with
    | error e =>
      cases h
      rfl
    | rejected => cases h
    | outOfFuel => cases h

end VCodec
