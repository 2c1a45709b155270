import VCodec.Core.Object
import VCodec.DecodeAll

/-!
# The collect option on `decode` and `decode_into`

Both run the traversal that `decode_all` runs, and return one error of those it met. Where the
traversal ends, that is the first one recorded; where an error ends the traversal, it is that error,
whatever was recorded before it. Which of the two happens is told by two other readings of the
input: one ends at the first error, the other passes over the members that fail. The object that
`decode_into` is given makes no difference.
-/

namespace VCodec

open D
open EStateM (Result)

/-! ### The object of the caller -/

/-- A bulk form leaves the number of elements that it finds, and copies words up to one that does
not fit. -/
theorem Cbor.fillElements_twin
    (element : Nat → Except Error Val) (ws : List Nat) (vs ws' : List Val)
    (hlen : vs.length = ws'.length) :
    (fillElements element ws vs).2 = (fillElements element ws ws').2 ∧
      (fillElements element ws vs).1.length = vs.length := by
  induction ws generalizing vs ws' with
  | nil => exact ⟨rfl, rfl⟩
  | cons w ws ih =>
    cases vs with
    | nil =>
      obtain rfl := List.length_eq_zero_iff.1 hlen.symm
      exact ⟨rfl, rfl⟩
    | cons v vs =>
      cases ws' with
      | nil => cases hlen
      | cons w' ws' =>
        have hrest := ih vs ws' (Nat.succ.inj hlen)
        unfold fillElements
        cases element w with
        | error e => exact ⟨rfl, rfl⟩
        | ok x => exact ⟨hrest.1, congrArg Nat.succ hrest.2⟩

theorem Cbor.shaped_range
    {env : Env} {n : Nat} {t : Ty} (ht : typedArrayElement t = true) {vs : List Val}
    (hlen : vs.length = n) : Shaped env (.array n t) (.seq vs) := by
  refine .parts rfl (by rw [List.length_replicate, hlen]) fun i u hu => ?_
  rw [List.getElem?_replicate] at hu
  split at hu
  · cases hu
    cases t <;> first | exact .whole rfl | cases ht
  · cases hu

theorem Cbor.blind_fillRange
    {P : Val → Prop} {element : Nat → Except Error Val} {ws : List Nat} {olds : Val → List Val}
    (holds : ∀ v w, P v → P w → (olds v).length = (olds w).length)
    (hfilled : ∀ v vs, P v → vs.length = (olds v).length → P (.seq vs)) :
    Blind P (do fillRange element ws (olds (← getOut))) := by
  intro s v w hv hw
  have hlen := holds v w hv hw
  have hfill := fillElements_twin element ws (olds v) (olds w) hlen
  have hfill' := fillElements_twin element ws (olds w) (olds v) hlen.symm
  have hPv := hfilled v _ hv hfill.2
  have hPw := hfilled w _ hw hfill'.2
  show Twin P (fillRange element ws (olds v) _) (fillRange element ws (olds w) _)
  unfold fillRange
  simp only [hfill.1]
  cases (fillElements element ws (olds w)).2 with
  | none => exact ⟨rfl, rfl, hPv, hPw⟩
  | some e => exact ⟨rfl, rfl, hPv, hPw⟩

theorem Cbor.blind_readRange {env : Env} (o : Cbor.Options) (inp : Bytes) {t : Ty}
    (ht : typedArrayRange t = true) : Blind (Shaped env t) (readRange env o inp t) := by
  refine .ite (fun _ => .pure _) fun _ => (Blind.call _).bind fun range => ?_
  cases range with
  | none => exact .pure _
  | some range =>
    refine Blind.bind ?_ fun _ => .pure _
    refine .ite (fun _ => .fail _) fun _ => .ite (fun _ => .fail _) fun _ =>
      .ite (fun _ => ?_) fun _ => .fail _
    cases t with
    | seq kind t => exact blind_fillRange (fun _ _ _ _ => rfl) fun _ _ _ _ => .whole rfl
    | array n t =>
      have ht : typedArrayElement t = true := ht
      apply blind_fillRange
      · intro v w hv hw
        exact (hv.length rfl).trans (hw.length rfl).symm
      · intro v vs hv hvs
        exact shaped_range ht (hvs.trans ((hv.length rfl).trans List.length_replicate))
    | _ => cases ht

theorem contiguousOfUint8_slots
    {env : Env} {n : Nat} {t : Ty} (h : contiguousOfUint8 (.array n t) = true) :
    t.slots env = none := by
  cases t <;> first | rfl | cases h

theorem Cbor.objectLaws (env : Env) (o : Cbor.Options) (inp : Bytes) :
    ObjectLaws env (reader env o inp) where
  readRange f t h := by
    apply blind_readRange
    rcases h with h | h
    · exact (Bool.and_eq_true_iff.1 h).2
    · exact h
  isBytes _ _ _ h := contiguousOfUint8_slots (Bool.and_eq_true_iff.1 h).1

theorem Json.objectLaws (env : Env) (o : Json.Options) (cc : Json.Charconv) (inp : Bytes) :
    ObjectLaws env (reader o cc inp) where
  readRange _ _ _ := .pure false
  isBytes _ _ _ h := contiguousOfUint8_slots (Bool.and_eq_true_iff.1 h).1

/-! ### One error of those met -/

/-- The option's law: a decode fails exactly if `decode_all` reports an error, and with the first
one of its list. -/
structure SurfacesFirst (c : Collected Val) (x : Except Abort Val) : Prop where
  fails : (∃ e, x = .error (.error e)) ↔ c.errors ≠ []
  first : ∀ e, x = .error (.error e) → c.errors.head? = some e

theorem SurfacesFirst.congr {c : Collected Val} {x y : Except Abort Val}
    (h : ∀ e, x = .error (.error e) ↔ y = .error (.error e)) :
    SurfacesFirst c x ↔ SurfacesFirst c y := by
  constructor
  · intro hx
    refine ⟨?_, fun e he => hx.first e ((h e).2 he)⟩
    rw [← hx.fails]
    exact exists_congr fun e => (h e).symm
  · intro hy
    refine ⟨?_, fun e he => hy.first e ((h e).1 he)⟩
    rw [← hy.fails]
    exact exists_congr h

theorem surfacesFirst_ok {v w : Val} : SurfacesFirst ⟨v, []⟩ (.ok w) where
  fails := ⟨fun ⟨_, h⟩ => (nomatch h), fun h => absurd rfl h⟩
  first := fun _ h => nomatch h

theorem surfacesFirst_error {v : Val} {e₀ e : Error} {es : List Error} :
    SurfacesFirst ⟨v, e₀ :: es⟩ (.error (.error e)) ↔ e₀ = e := by
  constructor
  · intro h
    exact Option.some.inj (h.first e rfl)
  · rintro rfl
    refine ⟨⟨fun _ h => (nomatch h), fun _ => ⟨e₀, rfl⟩⟩, ?_⟩
    rintro _ ⟨⟩
    rfl

/-- A traversal that comes to its end has recorded no error that the caller sees changed; one that
an error ends has recorded none before, or the same. -/
def LogStands {σ : Type} (log : Build σ → List Error) (annotate : Error → Error) :
    Result Abort (Build σ) Unit → Prop
  | .ok _ b => ∀ e ∈ (log b).head?, annotate e = e
  | .error (.error e) b => ∀ e₀ ∈ (log b).head?, annotate e₀ = annotate e
  | .error _ _ => True

/-- The input is read twice: `first` ends at the first error, `rest` passes over every member that
fails and keeps no error of it. Either all that fails can be passed over, and then the first error
is one that the caller sees unchanged; or what cannot be passed over is the first error. -/
structure FirstStands {σ : Type} (annotate : Error → Error)
    (first rest : Result Abort (Build σ) Unit) :
    Prop where
  ended : ∀ e b b', first = .error (.error e) b → rest = .ok () b' → annotate e = e
  cut : ∀ e b e' b', first = .error (.error e) b → rest = .error (.error e') b' →
    annotate e = annotate e'

theorem firstStands_iff {σ S M : Type} {env : Env} {r : Reader σ S M} (L : CollectLaws r)
    {annotate : Error → Error} {fuel : Nat} {t : Ty} {b : Build σ} (hb : r.log b = []) :
    LogStands r.log annotate (VCodec.decode env r.collecting fuel t b) ↔
      FirstStands annotate (VCodec.decode env r.failFast fuel t b)
        (VCodec.decode env r.forgiving fuel t b) := by
  have hstart : r.forget b = b := by
    have hset := L.set_get b.reader
    rw [show r.collected b.reader = [] from hb] at hset
    exact congrArg (fun s => ({ b with reader := s } : Build σ)) hset
  have hrest := L.forgets_decode env fuel t b
  rw [hstart] at hrest
  have hfollows := L.follows_decode env fuel t hb
  rw [hrest]
  generalize VCodec.decode env r.failFast fuel t b = first at hfollows ⊢
  generalize VCodec.decode env r.collecting fuel t b = x at hfollows ⊢
  -- either the run has met no error before its end, or the first one heads the log
  rcases hfollows with ⟨rfl, hsilent⟩ | ⟨e, b₁, es, rfl, hlog⟩
  · have hnone : (r.log (Run.final x)).head? = none := by
      rw [show r.log (Run.final x) = [] from hsilent.trans hb]
      rfl
    refine iff_of_true ?_ ⟨?_, ?_⟩
    · cases x with
      | ok _ b₁ => exact fun e he => nomatch hnone.symm.trans he
      | error a b₁ =>
        cases a with
        | error e => exact fun e he => nomatch hnone.symm.trans he
        | rejected | outOfFuel => trivial
    · rintro e b₁ b₂ rfl h
      cases h
    · rintro e b₁ e' b₂ rfl h
      cases h
      rfl
  · have hhead : (r.log (Run.final x)).head? = some e := by
      rw [hlog, hb]
      rfl
    cases x with
    | ok _ b₂ =>
      constructor
      · intro h
        refine ⟨?_, fun _ _ _ _ _ h => (by cases h)⟩
        rintro _ _ _ ⟨⟩ -
        exact h e hhead
      · intro h e₀ he
        cases hhead.symm.trans he
        exact h.ended e _ _ rfl rfl
    | error a b₂ =>
      cases a with
      | error e' =>
        constructor
        · intro h
          refine ⟨fun _ _ _ _ h => (by cases h), ?_⟩
          rintro _ _ _ _ ⟨⟩ h'
          cases h'
          exact h e hhead
        · intro h e₀ he
          cases hhead.symm.trans he
          exact h.cut e _ e' _ rfl rfl
      | rejected | outOfFuel =>
        exact iff_of_true trivial
          ⟨fun _ _ _ _ h => (by cases h), fun _ _ _ _ _ h => (by cases h)⟩

/-- The traversal comes to its end: what was recorded goes before what `finish` has to say. -/
theorem surfacesFirst_settle {σ : Type} {collecting : Prop} [Decidable collecting] (hc : collecting)
    {annotate : Error → Error} {v w : Val} {log : List Error} {last : Result Error σ Unit} :
    SurfacesFirst ⟨v, log.map annotate ++ lastErrors last⟩ (settle collecting log last w) ↔
      ∀ e ∈ log.head?, annotate e = e := by
  cases log with
  | cons e es =>
    rw [settle_recorded hc rfl, List.map_cons, List.cons_append, surfacesFirst_error]
    constructor
    · rintro h _ ⟨⟩
      exact h
    · intro h
      exact h e rfl
  | nil =>
    refine iff_of_true ?_ fun _ h => nomatch h
    cases hlast : lastErrors last with
    | nil =>
      rw [settle_done rfl hlast]
      exact surfacesFirst_ok
    | cons e es =>
      rw [settle_last rfl (e := e) (by rw [hlast]; rfl)]
      exact surfacesFirst_error.2 rfl

/-- An error ends the traversal. -/
theorem surfacesFirst_of_error {annotate : Error → Error} {v : Val} {log : List Error} {e : Error} :
    SurfacesFirst ⟨v, log.map annotate ++ [annotate e]⟩ (.error (.error (annotate e))) ↔
      ∀ e₀ ∈ log.head?, annotate e₀ = annotate e := by
  cases log with
  | cons e₀ es =>
    rw [List.map_cons, List.cons_append, surfacesFirst_error]
    constructor
    · rintro h _ ⟨⟩
      exact h
    · intro h
      exact h e₀ rfl
  | nil =>
    refine iff_of_true (surfacesFirst_error.2 rfl) fun _ h => nomatch h

/-- What the two entry points make of one traversal. -/
theorem surfacesFirst_traversal
    {σ : Type} {annotate report : Error → Error} {log last : Build σ → List Error}
    {conclude : Build σ → Except Abort Val} {x : Result Abort (Build σ) Unit}
    {c : Collected Val}
    (hlast : ∀ {b v}, SurfacesFirst ⟨v, (log b).map annotate ++ last b⟩ (conclude b) ↔
      ∀ e ∈ (log b).head?, annotate e = e)
    (hreport : ∀ {e b}, x = .error (.error e) b → e.finalize = e ∧ report e = annotate e)
    (h : gather annotate log last x = .ok c) :
    SurfacesFirst c (deliver report conclude x) ↔ LogStands log annotate x := by
  cases x with
  | ok _ b =>
    cases h
    exact hlast
  | error a b =>
    cases a with
    | error e =>
      cases h
      obtain ⟨hfinal, hsame⟩ := hreport rfl
      rw [deliver, hfinal, hsame]
      exact surfacesFirst_of_error
    | rejected => cases h
    | outOfFuel => cases h

/-- Two traversals that differ in the object end with the same error. -/
theorem Twin.deliver_error_iff {σ : Type} {P : Val → Prop} {x y : Result Abort (Build σ) Unit}
    (h : Twin P x y) {report : Error → Error} {conclude : Build σ → Except Abort Val}
    (hconclude : ∀ {b b' : Build σ} {e}, b.reader = b'.reader →
      (conclude b = .error (.error e) ↔ conclude b' = .error (.error e))) (e : Error) :
    deliver report conclude x = .error (.error e) ↔
      deliver report conclude y = .error (.error e) := by
  cases x with
  | ok a b =>
    cases y with
    | ok a' b' => exact hconclude h.2.1
    | error a' b' => exact h.elim
  | error a b =>
    cases y with
    | ok a' b' => exact h.elim
    | error a' b' =>
      obtain ⟨rfl, -⟩ := h
      cases a <;> exact Iff.rfl

/-! ### CBOR -/

namespace Cbor

variable {env : Env} {o : Options} {t : Ty} {inp : Bytes} {fuel : Nat}

/-- The reading that ends at the first error. -/
def failFastRun (env : Env) (o : Options) (fuel : Nat) (t : Ty) (inp : Bytes) :
    Result Abort (Build State) Unit :=
  VCodec.decode env (reader env (withTypeDeterminism o (isDeterministicType env t)) inp).failFast
    fuel t { reader := start inp {}, out := t.zero env }

/-- The reading that passes over every member that fails, and keeps no error of it. -/
def forgivingRun (env : Env) (o : Options) (fuel : Nat) (t : Ty) (inp : Bytes) :
    Result Abort (Build State) Unit :=
  VCodec.decode env (reader env (withTypeDeterminism o (isDeterministicType env t)) inp).forgiving
    fuel t { reader := start inp {}, out := t.zero env }

theorem withTypeDeterminism_collect (det : Bool) :
    withTypeDeterminism { o with errors := .collect } det =
      { withTypeDeterminism o det with errors := .collect } := by
  cases det <;> rfl

theorem surfacesFirst_decode {c : Collected Val} (h : decodeAll env o fuel t inp = .ok c) :
    SurfacesFirst c (Cbor.decode env { o with errors := .collect } fuel t inp) ↔
      FirstStands (annotateTypeDeterminism env t) (failFastRun env o fuel t inp)
        (forgivingRun env o fuel t inp) := by
  rw [decodeAll_eq] at h
  rw [decode_eq, withTypeDeterminism_collect]
  unfold failFastRun forgivingRun
  have hstart : (reader env (withTypeDeterminism o (isDeterministicType env t)) inp).log
      { reader := start inp {}, out := t.zero env } = [] := start_collected
  rw [← firstStands_iff (collectLaws env) hstart, ← reader_collecting]
  refine surfacesFirst_traversal ?_ ?_ h
  · intro b v
    rw [conclude_eq, finishErrors_eq]
    exact surfacesFirst_settle rfl
  · intro e b hx
    have hfinal := CollectLaws.decode_finalized hx
    exact ⟨hfinal, congrArg _ hfinal⟩

/-- The object that `decode_into` is given makes no difference to the error it returns. -/
theorem decodeInto_error (henv : env.Regular) {v : Val} (hv : Shaped env t v) (e : Error) :
    outcome (decodeInto env o fuel t inp v) = .error (.error e) ↔
      Cbor.decode env o fuel t inp = .error (.error e) := by
  rw [outcome_decodeInto, decode_eq]
  refine Twin.deliver_error_iff
    (blind_decode (objectLaws env _ inp) henv fuel t (start inp {}) v (t.zero env) hv
    (shaped_zero henv t)) ?_ e
  intro b b' e hreader
  rw [conclude_eq, conclude_eq, hreader]
  exact settle_error_iff

end Cbor

/-! ### JSON -/

namespace Json

variable {env : Env} {o : Options} {cc : Charconv} {t : Ty} {inp : Bytes} {fuel : Nat}

/-- The reading that ends at the first error. -/
def failFastRun (env : Env) (o : Options) (cc : Charconv) (fuel : Nat) (t : Ty) (inp : Bytes) :
    Result Abort (Build State) Unit :=
  VCodec.decode env (reader o cc inp).failFast fuel t { reader := {}, out := t.zero env }

/-- The reading that passes over every member that fails, and keeps no error of it. -/
def forgivingRun (env : Env) (o : Options) (cc : Charconv) (fuel : Nat) (t : Ty) (inp : Bytes) :
    Result Abort (Build State) Unit :=
  VCodec.decode env (reader o cc inp).forgiving fuel t { reader := {}, out := t.zero env }

theorem surfacesFirst_decode {c : Collected Val} (h : decodeAll env o cc fuel t inp = .ok c) :
    SurfacesFirst c (Json.decode env { o with errors := .collect } cc fuel t inp) ↔
      FirstStands id (failFastRun env o cc fuel t inp) (forgivingRun env o cc fuel t inp) := by
  rw [decodeAll_eq] at h
  rw [decode_eq]
  unfold failFastRun forgivingRun
  rw [← firstStands_iff collectLaws rfl, ← reader_collecting]
  refine surfacesFirst_traversal ?_ ?_ h
  · intro b v
    rw [conclude_eq, finishErrors_eq]
    exact surfacesFirst_settle rfl
  · intro e b hx
    exact ⟨CollectLaws.decode_finalized hx, rfl⟩

/-- The object that `decode_into` is given makes no difference to the error it returns. -/
theorem decodeInto_error (henv : env.Regular) {v : Val} (hv : Shaped env t v) (e : Error) :
    outcome (decodeInto env o cc fuel t inp v) = .error (.error e) ↔
      Json.decode env o cc fuel t inp = .error (.error e) := by
  rw [outcome_decodeInto, decode_eq]
  refine Twin.deliver_error_iff
    (blind_decode (objectLaws env o cc inp) henv fuel t {} v (t.zero env) hv
    (shaped_zero henv t)) ?_ e
  intro b b' e hreader
  rw [conclude_eq, conclude_eq, hreader]
  exact settle_error_iff

end Json

/-! ### Both formats -/

/-- Wherever the one entry point returns, the other obeys the option's law exactly if `stands`; and
the one returns if its bound is large enough. -/
def SurfacesFirstIff (all : Nat → Except Abort (Collected Val))
    (one : Nat → Except Abort Val) (stands : Nat → Prop) (ends : Prop) : Prop :=
  (∀ fuel c, all fuel = .ok c → (SurfacesFirst c (one fuel) ↔ stands fuel)) ∧
    (ends → ∃ n, ∀ fuel ≥ n, ∃ c, all fuel = .ok c)

/-- With the collect option, `decode` and `decode_into` return the first error that `decode_all`
reports exactly if the reading that ends at the first error and the one that passes over the members
that fail end with the same error, or the second one comes to its end and the error is not one that
`decode_all` annotates. -/
theorem surfacesFirst_iff (env : Env) (henv : env.Regular) (t : Ty) (inp : Bytes) (v : Val)
    (hv : Shaped env t v) :
    (∀ o : Cbor.Options,
      let all fuel := Cbor.decodeAll env o fuel t inp
      let stands fuel := FirstStands (Cbor.annotateTypeDeterminism env t)
        (Cbor.failFastRun env o fuel t inp) (Cbor.forgivingRun env o fuel t inp)
      let ends := Supported env Cbor.traits t ∧ inp.length < 2 ^ 48
      SurfacesFirstIff all (fun fuel => Cbor.decode env { o with errors := .collect } fuel t inp)
        stands ends ∧
      SurfacesFirstIff all
        (fun fuel => outcome (Cbor.decodeInto env { o with errors := .collect } fuel t inp v))
        stands ends) ∧
    ∀ (o : Json.Options) (cc : Json.Charconv),
      let all fuel := Json.decodeAll env o cc fuel t inp
      let stands fuel := FirstStands id (Json.failFastRun env o cc fuel t inp)
        (Json.forgivingRun env o cc fuel t inp)
      let ends := Supported env Json.traits t ∧ inp.length < 2 ^ 48
      SurfacesFirstIff all (fun fuel => Json.decode env { o with errors := .collect } cc fuel t inp)
        stands ends ∧
      SurfacesFirstIff all
        (fun fuel => outcome (Json.decodeInto env { o with errors := .collect } cc fuel t inp v))
        stands ends := by
  constructor
  · intro o
    have hends := ((decodeAll_agrees env t inp).1 o).2
    refine ⟨⟨fun fuel c h => Cbor.surfacesFirst_decode h, hends⟩, ⟨fun fuel c h => ?_, hends⟩⟩
    rw [SurfacesFirst.congr (Cbor.decodeInto_error henv hv)]
    exact Cbor.surfacesFirst_decode h
  · intro o cc
    have hends := ((decodeAll_agrees env t inp).2 o cc).2
    refine ⟨⟨fun fuel c h => Json.surfacesFirst_decode h, hends⟩, ⟨fun fuel c h => ?_, hends⟩⟩
    rw [SurfacesFirst.congr (Json.decodeInto_error henv hv)]
    exact Json.surfacesFirst_decode h

/-- `{"a":"x","b":` -/
def cutShort : Bytes :=
  [0x7B, 0x22, 0x61, 0x22, 0x3A, 0x22, 0x78, 0x22, 0x2C, 0x22, 0x62, 0x22, 0x3A]

theorem pairEnv_regular : pairEnv.Regular := by
  intro id f hf
  rcases List.mem_cons.1 hf with rfl | hf
  · exact ⟨.whole rfl, fun _ h => nomatch h⟩
  · obtain rfl := List.mem_singleton.1 hf
    exact ⟨.whole rfl, fun _ h => nomatch h⟩

theorem cutShort_recorded :
    (match Json.decodeAll pairEnv {} Json.noCharconv 9 (.struct 0) cutShort with
    | .ok c => c.errors.head?.map Error.code
    | .error _ => none) = some .typeMismatch := by
  decide +kernel

theorem cutShort_returned :
    (match Json.decode pairEnv { errors := .collect } Json.noCharconv 9 (.struct 0) cutShort with
    | .error (.error e) => some e.code
    | _ => none) = some .truncated := by
  decide +kernel

/-- The member of the wrong type is recorded, and the end of the text is the error that `decode`
returns. -/
theorem surfacesFirst_not_cutShort :
    ∃ c, Json.decodeAll pairEnv {} Json.noCharconv 9 (.struct 0) cutShort = .ok c ∧
      ¬ SurfacesFirst c
        (Json.decode pairEnv { errors := .collect } Json.noCharconv 9 (.struct 0) cutShort) := by
  have hall := cutShort_recorded
  have hone := cutShort_returned
  cases hc : Json.decodeAll pairEnv {} Json.noCharconv 9 (.struct 0) cutShort with
  | error a =>
    rw [hc] at hall
    cases hall
  | ok c =>
    refine ⟨c, rfl, fun h => ?_⟩
    simp only [hc] at hall
    cases hx : Json.decode pairEnv { errors := .collect } Json.noCharconv 9
      (.struct 0) cutShort with
    | ok w =>
      rw [hx] at hone
      cases hone
    | error a =>
      rw [hx] at hone
      cases a with
      | error e =>
        rw [h.first e hx] at hall
        exact absurd (Option.some.inj (hall.symm.trans hone)) (by decide)
      | rejected => cases hone
      | outOfFuel => cases hone

theorem mistyped_passed :
    (match Json.forgivingRun pairEnv {} Json.noCharconv 9 (.struct 0) mistyped with
    | .ok _ _ => true
    | .error _ _ => false) = true := by
  decide +kernel

/-- The same members with nothing cut off, into an object of the caller's. -/
theorem surfacesFirst_iff_witness :
    ∃ c, Json.decodeAll pairEnv {} Json.noCharconv 9 (.struct 0) mistyped = .ok c ∧
      c.errors.length = 2 ∧
      SurfacesFirst c (outcome (Json.decodeInto pairEnv { errors := .collect } Json.noCharconv 9
        (.struct 0) mistyped (.seq [.int 7, .bool true]))) := by
  have hv : Shaped pairEnv (.struct 0) (.seq [.int 7, .bool true]) := by
    refine .parts rfl rfl fun i u hu => .whole ?_
    cases i with
    | zero =>
      cases hu
      rfl
    | succ i =>
      cases i with
      | zero =>
        cases hu
        rfl
      | succ i => cases hu
  have hcounted := mistyped_counted
  have hpassed := mistyped_passed
  have hlaw := ((surfacesFirst_iff pairEnv pairEnv_regular (.struct 0) mistyped _ hv).2 {}
    Json.noCharconv).2.1 9
  cases hc : Json.decodeAll pairEnv {} Json.noCharconv 9 (.struct 0) mistyped with
  | error a =>
    rw [show Json.decodeAll pairEnv {} ⟨fun _ => none, fun _ => []⟩ 9 (.struct 0) mistyped = _
      from hc] at hcounted
    cases hcounted
  | ok c =>
    rw [show Json.decodeAll pairEnv {} ⟨fun _ => none, fun _ => []⟩ 9 (.struct 0) mistyped = _
      from hc] at hcounted
    refine ⟨c, rfl, hcounted, (hlaw c hc).2 ⟨fun _ _ _ _ _ => rfl, ?_⟩⟩
    intro e b e' b' _ hcut
    rw [hcut] at hpassed
    cases hpassed

end VCodec
