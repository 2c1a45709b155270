import VCodec.Cbor.Collect
import VCodec.Cbor.Total
import VCodec.Cbor.Typed
import VCodec.Json.Collect
import VCodec.Json.Total

/-!
# `decode_all` against `decode`

`decode_all` goes on where `decode` ends, and reports what it meets on the way. It ends on every
input, its list of errors is empty exactly if `decode` in fail-fast mode succeeds, and the list
begins with the error that `decode` returns.
-/

namespace VCodec

open Run

/-- What one error says of where and why. -/
def Error.SameFailure (e e' : Error) : Prop :=
  e.code = e'.code ∧ e.offset = e'.offset ∧ e.steps = e'.steps ∧ e.truncated = e'.truncated

/-- What `decode_all` returns, against what `decode` returns. -/
structure Agrees (c : Collected Val) (x : Except Abort Val) : Prop where
  returns : (∃ v, x = .ok v) ∨ ∃ e, x = .error (.error e)
  complete : c.complete ↔ ∃ v, x = .ok v
  value : ∀ v, x = .ok v → c.value = v
  first : ∀ e, x = .error (.error e) → ∃ e' ∈ c.errors.head?, e'.SameFailure e

theorem agrees_ok (v : Val) : Agrees { value := v, errors := [] } (.ok v) where
  returns := .inl ⟨v, rfl⟩
  complete := ⟨fun _ => ⟨v, rfl⟩, fun _ => rfl⟩
  value := by
    rintro _ ⟨⟩
    rfl
  first := by rintro _ ⟨⟩

theorem agrees_error (v : Val) (e : Error) (es : List Error) :
    Agrees { value := v, errors := e :: es } (.error (.error e)) where
  returns := .inr ⟨e, rfl⟩
  complete := ⟨fun h => (nomatch h), fun ⟨_, h⟩ => (nomatch h)⟩
  value := by rintro _ ⟨⟩
  first := by
    rintro _ ⟨⟩
    exact ⟨e, rfl, rfl, rfl, rfl, rfl⟩

/-! ### CBOR -/

namespace Cbor

variable {env : Env} {o : Options} {t : Ty} {inp : Bytes} {fuel : Nat}

theorem start_collected : (start inp {}).collected = [] := by
  unfold start
  simp only
  split <;> rfl

/-- Whatever `decode_all` returns agrees with what `decode` returns. -/
theorem agrees_of_decodeAll {c : Collected Val} (h : decodeAll env o fuel t inp = .ok c) :
    Agrees c (Cbor.decode env { o with errors := .failFast } fuel t inp) := by
  have hfail : withTypeDeterminism { o with errors := .failFast } (isDeterministicType env t) =
      { withTypeDeterminism o (isDeterministicType env t) with errors := .failFast } := by
    cases isDeterministicType env t <;> rfl
  unfold decodeAll at h
  unfold Cbor.decode
  simp only [hfail] at h ⊢
  generalize withTypeDeterminism o (isDeterministicType env t) = o₁ at h ⊢
  rw [reader_collecting] at h
  rw [reader_failFast]
  have hfollows := (@collectLaws o₁ inp env).follows_decode env fuel t
    (b := { reader := start inp {}, out := t.zero env }) start_collected
  rcases hfollows with ⟨heq, hsilent⟩ | ⟨e, b₁, es, hx, hlog⟩
  · rw [heq] at h
    cases hx : VCodec.decode env (reader env o₁ inp).failFast fuel t
      { reader := start inp {}, out := t.zero env } with
    | ok a b =>
      rw [hx] at h hsilent
      cases h
      have hnone : b.reader.collected = [] := hsilent.trans start_collected
      simp only [conclude, hnone, finishErrors, List.map_nil, List.nil_append]
      cases finish inp b.reader with
      | ok _ _ => exact agrees_ok b.out
      | error e _ => exact agrees_error b.out e []
    | error a b =>
      rw [hx] at h hsilent
      have hnone : b.reader.collected = [] := hsilent.trans start_collected
      cases a with
      | error e =>
        cases h
        rw [hnone]
        exact agrees_error b.out _ []
      | rejected => cases h
      | outOfFuel => cases h
  · -- the first error is recorded, whatever ends the run
    have hfinal : e.finalize = e := CollectLaws.decode_finalized hx
    simp only [hx, hfinal]
    cases hy : VCodec.decode env (reader env o₁ inp).collecting fuel t
      { reader := start inp {}, out := t.zero env } with
    | ok a b =>
      rw [hy] at h hlog
      cases h
      have hall : b.reader.collected = e :: es := by
        rw [← List.nil_append (e :: es), ← start_collected]; exact hlog
      rw [hall]
      exact agrees_error b.out _ _
    | error a b =>
      rw [hy] at h hlog
      have hall : b.reader.collected = e :: es := by
        rw [← List.nil_append (e :: es), ← start_collected]; exact hlog
      cases a with
      | error e' =>
        cases h
        rw [hall]
        exact agrees_error b.out _ _
      | rejected => cases h
      | outOfFuel => cases h

/-- There is a bound with which `decode_all` returns. -/
theorem decodeAll_returns (U : Audited env Cbor.traits) (ht : U.holds noField t)
    (hsize : inp.length < 2 ^ 48) (hfuel : inp.length * (U.bound + 1) + hops U.rank t < fuel) :
    ∃ c, decodeAll env o fuel t inp = .ok c := by
  unfold decodeAll
  simp only
  generalize withTypeDeterminism o (isDeterministicType env t) = o₁
  have hstart : Ahead inp (inp.length + 1) (start inp {}) :=
    (start_tagged {}).ahead ⟨Nat.zero_le _, Nat.lt_succ_of_le (Nat.sub_le _ _)⟩
  have hends := (measureLaws (o := { o₁ with errors := .collect }) env hsize).ends_decode env U ht
    hfuel
    { reader := start inp {}, out := t.zero env } hstart
  cases hx : VCodec.decode env (reader env { o₁ with errors := .collect } inp) fuel t
      { reader := start inp {}, out := t.zero env } with
  | ok a b => exact ⟨_, rfl⟩
  | error a b =>
    rw [hx] at hends
    cases a with
    | error e => exact ⟨_, rfl⟩
    | rejected => exact hends.elim
    | outOfFuel => exact hends.elim

end Cbor

/-! ### JSON -/

namespace Json

variable {env : Env} {o : Options} {cc : Charconv} {t : Ty} {inp : Bytes} {fuel : Nat}

/-- Whatever `decode_all` returns agrees with what `decode` returns. -/
theorem agrees_of_decodeAll {c : Collected Val} (h : decodeAll env o cc fuel t inp = .ok c) :
    Agrees c (Json.decode env { o with errors := .failFast } cc fuel t inp) := by
  unfold decodeAll at h
  unfold Json.decode
  simp only at h
  rw [reader_collecting] at h
  rw [reader_failFast]
  have hfollows := (@collectLaws o cc inp).follows_decode env fuel t
    (b := { reader := {}, out := t.zero env }) rfl
  rcases hfollows with ⟨heq, hsilent⟩ | ⟨e, b₁, es, hx, hlog⟩
  · rw [heq] at h
    cases hx : VCodec.decode env (reader o cc inp).failFast fuel t
      { reader := {}, out := t.zero env } with
    | ok a b =>
      rw [hx] at h hsilent
      cases h
      have hnone : b.reader.collected = [] := hsilent
      simp only [conclude, hnone, finishErrors, List.nil_append]
      cases finish inp b.reader with
      | ok _ _ => exact agrees_ok b.out
      | error e _ => exact agrees_error b.out e []
    | error a b =>
      rw [hx] at h hsilent
      have hnone : b.reader.collected = [] := hsilent
      cases a with
      | error e =>
        cases h
        rw [hnone, CollectLaws.decode_finalized hx]
        exact agrees_error b.out _ []
      | rejected => cases h
      | outOfFuel => cases h
  · -- the first error is recorded, whatever ends the run
    rw [hx]
    cases hy : VCodec.decode env (reader o cc inp).collecting fuel t
      { reader := {}, out := t.zero env } with
    | ok a b =>
      rw [hy] at h hlog
      cases h
      have hall : b.reader.collected = e :: es := hlog
      rw [hall]
      exact agrees_error b.out _ _
    | error a b =>
      rw [hy] at h hlog
      have hall : b.reader.collected = e :: es := hlog
      cases a with
      | error e' =>
        cases h
        rw [hall]
        exact agrees_error b.out _ _
      | rejected => cases h
      | outOfFuel => cases h

/-- There is a bound with which `decode_all` returns. -/
theorem decodeAll_returns (U : Audited env Json.traits) (ht : U.holds noField t)
    (hsize : inp.length < 2 ^ 48) (hfuel : inp.length * (U.bound + 1) + hops U.rank t < fuel) :
    ∃ c, decodeAll env o cc fuel t inp = .ok c := by
  unfold decodeAll
  simp only
  have hstart : Ahead inp (inp.length + 1) {} := ⟨Nat.zero_le _, Nat.lt_succ_of_le (Nat.sub_le _ _)⟩
  have hends := (@measureLaws { o with errors := .collect } cc inp hsize).ends_decode env U ht hfuel
    { reader := {}, out := t.zero env } hstart
  cases hx : VCodec.decode env (reader { o with errors := .collect } cc inp) fuel t
      { reader := {}, out := t.zero env } with
  | ok a b => exact ⟨_, rfl⟩
  | error a b =>
    rw [hx] at hends
    cases a with
    | error e => exact ⟨_, rfl⟩
    | rejected => exact hends.elim
    | outOfFuel => exact hends.elim

end Json

/-! ### Both formats -/

/-- The audit accepts the type. -/
def Supported (env : Env) (tr : Traits) (t : Ty) : Prop := ∃ U : Audited env tr, U.holds noField t

/-- Whatever the one entry point returns agrees with the other, and it returns if its bound is large
enough. -/
def AgreesOn (all : Nat → Except Abort (Collected Val))
    (one : Nat → Except Abort Val) (ends : Prop) : Prop :=
  (∀ fuel c, all fuel = .ok c → Agrees c (one fuel)) ∧
    (ends → ∃ n, ∀ fuel ≥ n, ∃ c, all fuel = .ok c)

/-- `decode_all` is complete exactly when `decode` in fail-fast mode succeeds, with the same value,
and begins its list with the error of `decode` where that fails. -/
theorem decodeAll_agrees (env : Env) (t : Ty) (inp : Bytes) :
    (∀ o : Cbor.Options,
      AgreesOn (fun fuel => Cbor.decodeAll env o fuel t inp)
        (fun fuel => Cbor.decode env { o with errors := .failFast } fuel t inp)
        (Supported env Cbor.traits t ∧ inp.length < 2 ^ 48)) ∧
    ∀ (o : Json.Options) (cc : Json.Charconv),
      AgreesOn (fun fuel => Json.decodeAll env o cc fuel t inp)
        (fun fuel => Json.decode env { o with errors := .failFast } cc fuel t inp)
        (Supported env Json.traits t ∧ inp.length < 2 ^ 48) := by
  constructor
  · refine fun o => ⟨fun fuel c h => Cbor.agrees_of_decodeAll h, ?_⟩
    rintro ⟨⟨U, ht⟩, hsize⟩
    exact ⟨_, fun fuel hfuel => Cbor.decodeAll_returns U ht hsize hfuel⟩
  · refine fun o cc => ⟨fun fuel c h => Json.agrees_of_decodeAll h, ?_⟩
    rintro ⟨⟨U, ht⟩, hsize⟩
    exact ⟨_, fun fuel hfuel => Json.decodeAll_returns U ht hsize hfuel⟩

/-- A struct of a small integer and a boolean, both required. -/
def pairEnv : Env :=
  { (default : Env) with
    structs := fun _ => {
      name := str "pair"
      fields := [
        { info := { isMember := true, identifier := str "a" }, ty := .int uint8,
          wireName := str "a", required := true,
          initial := .int 0 },
        { info := { isMember := true, identifier := str "b" }, ty := .bool, wireName := str "b",
          required := true,
          initial := .bool false }] } }

/-- Nothing in the type contains itself. -/
def pairAudited (tr : Traits) : Audited pairEnv tr where
  holds _ t := t = .struct 0 ∨ t = .int uint8 ∨ t = .bool
  rank _ := 0
  bound := 0
  hops_le := by rintro _ _ (rfl | rfl | rfl) <;> exact le_rfl
  optional := by rintro _ _ (h | h | h) <;> cases h
  map := by rintro _ _ _ _ (h | h | h) <;> cases h
  tuple := by rintro _ _ (h | h | h) <;> cases h
  array := by rintro _ _ _ (h | h | h) <;> cases h
  seq := by rintro _ _ _ (h | h | h) <;> cases h
  member := by
    intro f id _ fd hfd
    rcases List.mem_cons.1 hfd with rfl | hfd
    · exact .inr (.inl rfl)
    · obtain rfl := List.mem_singleton.1 hfd
      exact .inr (.inr rfl)
  transparent := by rintro _ _ _ _ - h; cases h
  alternative := by rintro _ _ (h | h | h) <;> cases h
  tagged := by rintro _ _ (h | h | h) <;> cases h
  time := by rintro _ _ (h | h | h) <;> cases h

/-- `{"a":"x","b":1}` -/
def mistyped : Bytes :=
  [0x7B, 0x22, 0x61, 0x22, 0x3A, 0x22, 0x78, 0x22, 0x2C, 0x22, 0x62, 0x22, 0x3A, 0x31, 0x7D]

theorem mistyped_counted :
    (match Json.decodeAll pairEnv {} ⟨fun _ => none, fun _ => []⟩ 9 (.struct 0) mistyped with
    | .ok c => c.errors.length
    | .error _ => 0) = 2 := by
  decide +kernel

/-- Two members of the wrong type, and an empty map. -/
theorem decodeAll_agrees_witness :
    (∃ c, Json.decodeAll pairEnv {} ⟨fun _ => none, fun _ => []⟩ 9 (.struct 0) mistyped = .ok c ∧
      c.errors.length = 2 ∧
      Agrees c (Json.decode pairEnv {} ⟨fun _ => none, fun _ => []⟩ 9 (.struct 0) mistyped)) ∧
    ∃ n, ∀ fuel ≥ n, ∃ c, Cbor.decodeAll pairEnv {} fuel (.struct 0) [0xA0] = .ok c := by
  constructor
  · have htwo := mistyped_counted
    cases hrun : Json.decodeAll pairEnv {} ⟨fun _ => none, fun _ => []⟩ 9 (.struct 0) mistyped with
    | ok c =>
      rw [hrun] at htwo
      exact ⟨c, rfl, htwo,
        ((decodeAll_agrees pairEnv (.struct 0) mistyped).2 {} ⟨fun _ => none, fun _ => []⟩).1 9 c
        hrun⟩
    | error a =>
      rw [hrun] at htwo
      cases htwo
  · exact ((decodeAll_agrees pairEnv (.struct 0) [0xA0]).1 {}).2
      ⟨⟨pairAudited _, .inl rfl⟩, by decide⟩

end VCodec
