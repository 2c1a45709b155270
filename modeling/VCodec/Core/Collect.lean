import VCodec.Core.Span
import VCodec.Library.Lockstep

/-!
# Construction that collects errors

A reader in collect mode does what the same reader does in fail-fast mode until the first error.
Where the fail-fast run ends, the collecting one may record the error and go on; every frame that
the error would have passed then puts its step on the recorded one. So the first error that is
recorded, or the one that ends the run if none is, is the error of the fail-fast run.

Nothing that construction does depends on what was recorded. A reader that passes over the same
members and keeps no error of them reads as far, and ends with the same error if one ends the run.
-/

namespace VCodec

open D Run

variable {σ S M α β : Type}

/-! ### Modes -/

/-- The same reader in the other mode. -/
def Reader.failFast (r : Reader σ S M) : Reader σ S M := { r with errors := .failFast }

def Reader.collecting (r : Reader σ S M) : Reader σ S M := { r with errors := .collect }

/-- The same reader, which passes over what the collecting one passes over, and keeps no error. -/
def Reader.forgiving (r : Reader σ S M) : Reader σ S M :=
  { r with errors := .collect, collected := fun _ => [], setCollected := fun _ s => s }

/-- The operations of a reader neither look at the collected errors nor change them. -/
structure CollectLaws (r : Reader σ S M) : Prop where
  get_set : ∀ es s, r.collected (r.setCollected es s) = es
  set_get : ∀ s, r.setCollected (r.collected s) s = s
  set_set : ∀ es es' s, r.setCollected es (r.setCollected es' s) = r.setCollected es s
  save : ∀ es s, r.save (r.setCollected es s) = r.save s
  restore : ∀ n es s, r.restore n (r.setCollected es s) = r.setCollected es (r.restore n s)
  offset : Deaf r.setCollected r.offset
  peek : Deaf r.setCollected r.peek
  expectNull : Deaf r.setCollected r.expectNull
  expectBoolean : Deaf r.setCollected r.expectBoolean
  expectUint : ∀ f, Deaf r.setCollected (r.expectUint f)
  expectSint : ∀ f, Deaf r.setCollected (r.expectSint f)
  expectReal : Deaf r.setCollected r.expectReal
  expectText : Deaf r.setCollected r.expectText
  expectBytes : ∀ f, Deaf r.setCollected (r.expectBytes f)
  expectTags : ∀ ts, Deaf r.setCollected (r.expectTags ts)
  readRange : ∀ t, Deaf (fun es b => { b with reader := r.setCollected es b.reader })
    (r.readRange t)
  expectArray : Deaf r.setCollected r.expectArray
  next : ∀ c, Deaf r.setCollected (r.next c)
  expectMap : Deaf r.setCollected r.expectMap
  nextKey : ∀ c, Deaf r.setCollected (r.nextKey c)
  keyKind : Deaf r.setCollected r.keyKind
  keyText : Deaf r.setCollected r.keyText
  keyUint : Deaf r.setCollected r.keyUint
  keySint : Deaf r.setCollected r.keySint
  skipValue : Deaf r.setCollected r.skipValue

theorem deaf_call {put : List Error → σ → σ} {m : EStateM Error σ α} (h : Deaf put m) :
    Deaf (fun es b => { b with reader := put es b.reader }) (D.call m) := by
  intro es b
  unfold D.call
  dsimp only
  rw [h es b.reader]
  cases m b.reader <;> rfl

/-- The errors collected so far. -/
def Reader.log (r : Reader σ S M) (b : Build σ) : List Error := r.collected b.reader

/-- The same place, with no error collected. -/
def Reader.forget (r : Reader σ S M) (b : Build σ) : Build σ :=
  { b with reader := r.setCollected [] b.reader }

/-- The second run follows the first one, which ends at the first error; the third one does what the
second one does, and keeps no error. -/
structure Reader.Lock (r : Reader σ S M) (m n w : D σ α) : Prop where
  follows : Lockstep r.log Abort.error m n
  forgets : Commutes r.forget n w

namespace Reader.Lock

variable {r : Reader σ S M}

theorem bind {m n w : D σ α} {f g h : α → D σ β} (hm : r.Lock m n w)
    (hf : ∀ a, r.Lock (f a) (g a) (h a)) : r.Lock (m >>= f) (n >>= g) (w >>= h) :=
  ⟨hm.follows.bind fun a => (hf a).follows, hm.forgets.bind fun a => (hf a).forgets⟩

theorem ite {c : Prop} [Decidable c] {m₁ m₂ n₁ n₂ w₁ w₂ : D σ α} (h₁ : c → r.Lock m₁ n₁ w₁)
    (h₂ : ¬ c → r.Lock m₂ n₂ w₂) :
    r.Lock (if c then m₁ else m₂) (if c then n₁ else n₂) (if c then w₁ else w₂) :=
  ⟨.ite (fun hc => (h₁ hc).follows) fun hc => (h₂ hc).follows,
    .ite (fun hc => (h₁ hc).forgets) fun hc => (h₂ hc).forgets⟩

theorem throw (a : Abort) : r.Lock (throw a : D σ α) (MonadExcept.throw a) (MonadExcept.throw a) :=
  ⟨.throw a, .throw a⟩

theorem fail (e : Error) : r.Lock (fail e : D σ α) (D.fail e) (D.fail e) := throw _

theorem same (a : α) : r.Lock (pure a : D σ α) (pure a) (pure a) := ⟨.pure a, .pure a⟩

theorem getOut : r.Lock getOut D.getOut D.getOut := ⟨.of_quiet fun _ => rfl, fun _ => rfl⟩

theorem setOut (v : Val) : r.Lock (setOut v) (D.setOut v) (D.setOut v) :=
  ⟨.of_quiet fun _ => rfl, fun _ => rfl⟩

theorem focus {get : Val → Val} {put : Val → Val → Val} {m n w : D σ α} (h : r.Lock m n w) :
    r.Lock (focus get put m) (D.focus get put n) (D.focus get put w) := by
  constructor
  · intro b
    unfold D.focus
    rcases h.follows { b with out := get b.out } with ⟨heq, hsilent⟩ | ⟨e, b₁, es, hx, hlog⟩
    · rw [heq]
      refine .inl ⟨rfl, ?_⟩
      cases hm : m { b with out := get b.out } <;> rwa [hm] at hsilent
    · rw [hx]
      refine .inr ⟨e, _, es, rfl, ?_⟩
      cases hn : n { b with out := get b.out } <;> rwa [hn] at hlog
  · intro b
    have hb : w { r.forget b with out := get b.out } = _ := h.forgets { b with out := get b.out }
    unfold D.focus
    rw [show (r.forget b).out = b.out from rfl, hb]
    cases n { b with out := get b.out } <;> rfl

theorem onLocal {v : Val} {m n w : D σ Unit} (h : r.Lock m n w) :
    r.Lock (onLocal v m) (D.onLocal v n) (D.onLocal v w) := by
  constructor
  · intro b
    unfold D.onLocal
    rcases h.follows { b with out := v } with ⟨heq, hsilent⟩ | ⟨e, b₁, es, hx, hlog⟩
    · rw [heq]
      refine .inl ⟨rfl, ?_⟩
      cases hm : m { b with out := v } <;> rwa [hm] at hsilent
    · rw [hx]
      refine .inr ⟨e, _, es, rfl, ?_⟩
      cases hn : n { b with out := v } <;> rwa [hn] at hlog
  · intro b
    have hb : w { r.forget b with out := v } = _ := h.forgets { b with out := v }
    unfold D.onLocal
    rw [hb]
    cases n { b with out := v } <;> rfl

/-- The place is saved. -/
theorem saved {m n w : σ → D σ α} (hw : ∀ s, w (r.setCollected [] s) = w s)
    (h : ∀ s, r.Lock (m s) (n s) (w s)) :
    r.Lock (do m (← getReader)) (do n (← getReader)) (do w (← getReader)) := by
  constructor
  · have hquiet : Quiet r.log (getReader : D σ σ) := fun _ => rfl
    exact (Lockstep.of_quiet hquiet).bind fun s => (h s).follows
  · intro b
    show w (r.setCollected [] b.reader) (r.forget b) = mapState r.forget (n b.reader b)
    rw [hw]
    exact (h b.reader).forgets b

end Reader.Lock

theorem recover_collecting (r : Reader σ S M) (n : D σ Unit) (b : Build σ) :
    recover r.collecting n b =
    match n b with
    | .ok a b' => .ok a b'
    | .error (.error e) b' =>
      if isSyntaxError e.code then .error (.error e) b'
      else (do
        collect r.collecting e
        D.modifyReader (r.restore (r.save b.reader))
        D.call r.skipValue) b'
    | .error a b' => .error a b' := rfl

namespace CollectLaws

variable {env : Env} {r : Reader σ S M} (L : CollectLaws r)

open Reader.Lock

include L

/-! ### Operations -/

theorem quiet {m : EStateM Error σ α} (h : Deaf r.setCollected m) : Quiet r.collected m :=
  h.quiet L.get_set L.set_get

theorem collected_restore (n : Nat) (s : σ) : r.collected (r.restore n s) = r.collected s := by
  have h := L.restore n (r.collected s) s
  rw [L.set_get] at h
  rw [h, L.get_set]

theorem forget_setCollected (es : List Error) (b : Build σ) :
    r.forget { b with reader := r.setCollected es b.reader } = r.forget b :=
  congrArg (fun s => ({ b with reader := s } : Build σ)) (L.set_set [] es b.reader)

theorem call {m : EStateM Error σ α} (h : Deaf r.setCollected m) :
    r.Lock (D.call m) (D.call m) (D.call m) := by
  constructor
  · apply Lockstep.of_quiet
    intro b
    have hb := L.quiet h b.reader
    unfold D.call
    cases hm : m b.reader <;> rwa [hm] at hb
  · exact deaf_call h []

theorem attempt {m : EStateM Error σ α} (h : Deaf r.setCollected m) :
    r.Lock (D.attempt m) (D.attempt m) (D.attempt m) := by
  constructor
  · apply Lockstep.of_quiet
    intro b
    have hb := L.quiet h b.reader
    unfold D.attempt
    cases hm : m b.reader <;> rwa [hm] at hb
  · intro b
    have hb : m (r.forget b).reader = _ := h [] b.reader
    unfold D.attempt
    rw [hb]
    cases m b.reader <;> rfl

/-- Renaming the error of a call renames it in every mode. -/
theorem mapError {f : Error → Error} {m : EStateM Error σ α} (h : Deaf r.setCollected m) :
    r.Lock (D.mapError f (D.call m)) (D.mapError f (D.call m)) (D.mapError f (D.call m)) := by
  constructor
  · apply Lockstep.of_quiet
    intro b
    have hb := L.quiet h b.reader
    unfold D.mapError Run.mapError D.call
    cases hm : m b.reader <;> rwa [hm] at hb
  · intro b
    have hb : m (r.forget b).reader = _ := h [] b.reader
    unfold D.mapError Run.mapError D.call
    rw [hb]
    cases m b.reader <;> rfl

/-- The bulk form of a range, which is read into the object. -/
theorem range (t : Ty) : r.Lock (r.readRange t) (r.readRange t) (r.readRange t) := by
  refine ⟨Lockstep.of_quiet (Deaf.quiet ?_ ?_ (L.readRange t)), L.readRange t []⟩
  · exact fun es b => L.get_set es b.reader
  · exact fun b => congrArg (fun s => ({ b with reader := s } : Build σ)) (L.set_get b.reader)

theorem restored (n : Nat) : r.Lock (modifyReader (r.restore n)) (modifyReader (r.restore n))
    (modifyReader (r.restore n)) := by
  constructor
  · exact Lockstep.of_quiet fun b => L.collected_restore n b.reader
  · intro b
    exact congrArg (fun s => EStateM.Result.ok () { b with reader := s }) (L.restore n [] b.reader)

/-! ### Frames -/

/-- A step of the path falls on the error that ends one run, and on the one that the other run has
recorded. -/
theorem lock_inStep (step : Error → Error) {m n w : D σ α} (h : r.Lock m n w) :
    r.Lock (inStep r.failFast step m) (inStep r.collecting step n) (inStep r.forgiving step w) := by
  constructor
  · intro b
    have hfail : inStep r.failFast step m b = D.mapError step m b := by
      unfold inStep
      cases D.mapError step m b <;> rfl
    rw [hfail]
    unfold inStep D.mapError Run.mapError
    rcases h.follows b with ⟨heq, hsilent⟩ | ⟨e, b₁, es, hx, hlog⟩
    · rw [heq]
      refine .inl ?_
      have hquiet : ∀ b₁ : Build σ, r.log b₁ = r.log b →
          ({ b₁ with reader := r.setCollected ((r.collected b₁.reader).take (r.collected b.reader).length ++
            ((r.collected b₁.reader).drop (r.collected b.reader).length).map step) b₁.reader } :
              Build
              σ) = b₁ := by
        intro b₁ hb₁
        have hlog : r.collected b₁.reader = r.collected b.reader := hb₁
        rw [hlog, List.take_length, List.drop_length, List.map_nil, List.append_nil, ← hlog,
          L.set_get]
      cases hm : m b with
      | ok a b₁ =>
        rw [hm] at hsilent
        exact ⟨congrArg (EStateM.Result.ok a) (hquiet b₁ hsilent), hsilent⟩
      | error e b₁ =>
        rw [hm] at hsilent
        exact ⟨congrArg (EStateM.Result.error _) (hquiet b₁ hsilent), hsilent⟩
    · rw [hx]
      refine .inr ⟨step e, b₁, es.map step, rfl, ?_⟩
      have hstep : ∀ b₂ : Build σ, r.log b₂ = r.log b ++ e :: es →
          r.collected (r.setCollected ((r.collected b₂.reader).take (r.collected b.reader).length ++
            ((r.collected b₂.reader).drop (r.collected b.reader).length).map step) b₂.reader) =
            r.log b ++ step e :: es.map step := by
        intro b₂ hb₂
        have hlog : r.collected b₂.reader = r.collected b.reader ++ e :: es := hb₂
        rw [L.get_set, hlog, List.take_left, List.drop_left, List.map_cons]
        rfl
      cases hn : n b <;> rw [hn] at hlog <;> exact hstep _ hlog
  · intro b
    unfold inStep D.mapError Run.mapError
    rw [h.forgets b]
    cases n b with
    | ok a b₁ => exact congrArg (EStateM.Result.ok a) (L.forget_setCollected _ b₁).symm
    | error a b₁ => exact congrArg (EStateM.Result.error _) (L.forget_setCollected _ b₁).symm

/-- An error is recorded, or dropped. -/
theorem forgets_collect (e : Error) :
    Commutes r.forget (collect r.collecting e) (collect r.forgiving e) := by
  intro b
  exact congrArg (fun s => EStateM.Result.ok () { b with reader := s })
    (L.set_set [] _ b.reader).symm

theorem lock_reportKey (e : Error) :
    r.Lock (reportKey r.failFast e) (reportKey r.collecting e) (reportKey r.forgiving e) := by
  constructor
  · intro b
    have hskip := L.quiet L.skipValue (r.setCollected (r.collected b.reader ++ [e]) b.reader)
    refine .inr ⟨e, b, [], rfl, ?_⟩
    show r.log (final (D.call r.skipValue
      { b with reader := r.setCollected (r.collected b.reader ++ [e]) b.reader })) = _
    unfold D.call
    cases hs : r.skipValue (r.setCollected (r.collected b.reader ++ [e]) b.reader) <;>
      rw [hs] at hskip <;> exact hskip.trans (L.get_set _ _)
  · exact (L.forgets_collect e).bind fun _ => (L.call L.skipValue).forgets

/-- A failure that is recorded is passed on with everything that was recorded before it. -/
theorem lock_recover {m n w : D σ Unit} (h : r.Lock m n w) :
    r.Lock (recover r.failFast m) (recover r.collecting n) (recover r.forgiving w) := by
  constructor
  · intro b
    have hskip : ∀ (b₁ : Build σ) (e : Error),
        r.log (final ((do
          collect r.collecting e
          D.modifyReader (r.restore (r.save b.reader))
          D.call r.skipValue : D σ Unit) b₁)) = r.log b₁ ++ [e] := by
      intro b₁ e
      have hs := L.quiet L.skipValue (r.restore (r.save b.reader)
        (r.setCollected (r.collected b₁.reader ++ [e]) b₁.reader))
      show r.log (final (D.call r.skipValue { b₁ with
        reader := r.restore (r.save b.reader) (r.setCollected (r.collected b₁.reader ++ [e])
          b₁.reader) })) = _
      unfold D.call
      cases hr : r.skipValue (r.restore (r.save b.reader)
        (r.setCollected (r.collected b₁.reader ++ [e]) b₁.reader)) <;>
        rw [hr] at hs <;> exact hs.trans ((L.collected_restore _ _).trans (L.get_set _ _))
    have hfail : recover r.failFast m b = m b := rfl
    rw [hfail, recover_collecting]
    rcases h.follows b with ⟨heq, hsilent⟩ | ⟨e, b₁, es, hx, hlog⟩
    · rw [heq]
      cases hm : m b with
      | ok a b₁ =>
        rw [hm] at hsilent
        exact .inl ⟨rfl, hsilent⟩
      | error a b₁ =>
        rw [hm] at hsilent
        cases a with
        | error e =>
          simp only
          split
          · exact .inl ⟨rfl, hsilent⟩
          · have hlog : r.log b₁ = r.log b := hsilent
            refine .inr ⟨e, b₁, [], rfl, ?_⟩
            rw [← hlog]
            exact hskip b₁ e
        | rejected => exact .inl ⟨rfl, hsilent⟩
        | outOfFuel => exact .inl ⟨rfl, hsilent⟩
    · rw [hx]
      cases hn : n b with
      | ok a b₂ =>
        rw [hn] at hlog
        exact .inr ⟨e, b₁, es, rfl, hlog⟩
      | error a b₂ =>
        rw [hn] at hlog
        cases a with
        | error e' =>
          simp only
          split
          · exact .inr ⟨e, b₁, es, rfl, hlog⟩
          · exact .goes_on hlog (hskip b₂ e')
        | rejected => exact .inr ⟨e, b₁, es, rfl, hlog⟩
        | outOfFuel => exact .inr ⟨e, b₁, es, rfl, hlog⟩
  · intro b
    have hpass : ∀ e, Commutes r.forget
        (do
          collect r.collecting e
          D.modifyReader (r.restore (r.save b.reader))
          D.call r.skipValue : D σ Unit)
        (do
          collect r.forgiving e
          D.modifyReader (r.restore (r.save b.reader))
          D.call r.skipValue) := fun e =>
      (L.forgets_collect e).bind fun _ => (L.restored _).forgets.bind fun _ =>
        (L.call L.skipValue).forgets
    have hforgiving : recover r.forgiving w (r.forget b) =
        match w (r.forget b) with
        | .ok a b' => .ok a b'
        | .error (.error e) b' =>
          if isSyntaxError e.code then .error (.error e) b'
          else (do
            collect r.forgiving e
            D.modifyReader (r.restore (r.save (r.setCollected [] b.reader)))
            D.call r.skipValue) b'
        | .error a b' => .error a b' := rfl
    rw [hforgiving, recover_collecting, h.forgets b, L.save]
    cases n b with
    | ok a b₁ => rfl
    | error a b₁ =>
      cases a with
      | error e =>
        show (if isSyntaxError e.code then _ else _) = mapState r.forget (if _ then _ else _)
        split
        · rfl
        · exact hpass e b₁
      | rejected => rfl
      | outOfFuel => rfl

/-! ### Scalars, strings and bytes -/

theorem lock_decodeUint (f : FieldMeta) (k : IntTy) :
    r.Lock (decodeUint env r.failFast f k) (decodeUint env r.collecting f k)
      (decodeUint env r.forgiving f k) := by
  refine (L.call L.offset).bind fun off => ?_
  refine (L.mapError (L.expectUint f)).bind fun u => ?_
  exact .ite (fun _ => fail _) fun _ => same _

theorem lock_decodeSint (f : FieldMeta) (k : IntTy) :
    r.Lock (decodeSint env r.failFast f k) (decodeSint env r.collecting f k)
      (decodeSint env r.forgiving f k) := by
  refine (L.call L.offset).bind fun off => ?_
  refine (L.mapError (L.expectSint f)).bind fun i => ?_
  exact .ite (fun _ => fail _) fun _ => same _

theorem lock_decodeInt (f : FieldMeta) (k : IntTy) :
    r.Lock (decodeInt env r.failFast f k) (decodeInt env r.collecting f k)
      (decodeInt env r.forgiving f k) :=
  .ite (fun _ => L.lock_decodeSint f k) fun _ => L.lock_decodeUint f k

theorem lock_decodeEnum (f : FieldMeta) (e : EnumDef) :
    r.Lock (decodeEnum env r.failFast f e) (decodeEnum env r.collecting f e)
      (decodeEnum env r.forgiving f e) := by
  refine (L.call L.offset).bind fun off => ?_
  refine .ite (fun _ => ?_) fun _ => ?_
  · refine (L.lock_decodeInt f e.underlying).bind fun raw => ?_
    cases e.enumerators.find? fun en => en.value = raw ∧ ¬ en.skipped with
    | none => exact fail _
    | some en => exact setOut _
  · refine (L.call L.expectText).bind fun t => ?_
    cases e.find t.text with
    | none => exact fail _
    | some en => exact setOut _

theorem lock_decodeString (f : FieldMeta) (view : Bool) :
    r.Lock (decodeString env r.failFast f view) (decodeString env r.collecting f view)
      (decodeString env r.forgiving f view) := by
  refine (L.call L.offset).bind fun off => ?_
  refine (L.call L.expectText).bind fun t => ?_
  exact .ite (fun _ => fail _) fun _ => setOut _

theorem lock_decodeChar :
    r.Lock (decodeChar r.failFast) (decodeChar r.collecting) (decodeChar r.forgiving) := by
  refine (L.call L.offset).bind fun off => ?_
  refine (L.call L.expectText).bind fun t => ?_
  match t.text with
  | [c] => exact setOut _
  | [] => exact fail _
  | _ :: _ :: _ => exact fail _

theorem lock_decodeBytes (f : FieldMeta) (t : Ty) :
    r.Lock (decodeBytes env r.failFast f t) (decodeBytes env r.collecting f t)
      (decodeBytes env r.forgiving f t) := by
  refine (L.call L.offset).bind fun off => ?_
  refine (L.call (L.expectBytes f)).bind fun b => ?_
  exact .ite (fun _ => fail _) fun _ => .ite (fun _ => setOut _) fun _ => fail _

theorem lock_decodeOptional {dec dec' dec'' : D σ Unit} (hdec : r.Lock dec dec' dec'') (t : Ty) :
    r.Lock (decodeOptional env r.failFast dec t) (decodeOptional env r.collecting dec' t)
      (decodeOptional env r.forgiving dec'' t) := by
  refine (L.call L.peek).bind fun kind => ?_
  refine .ite (fun _ => ?_) fun _ => ?_
  · exact (L.call L.expectNull).bind fun _ => setOut _
  · exact (Reader.Lock.setOut _).bind fun _ => focus hdec

theorem lock_decodeTime (f : FieldMeta) (d : Duration) :
    r.Lock (decodeTime env r.failFast f d) (decodeTime env r.collecting f d)
      (decodeTime env r.forgiving f d) := by
  refine .ite (fun _ => ?_) fun _ => ?_
  · refine (L.call L.offset).bind fun off => ?_
    refine (L.call L.expectText).bind fun t => ?_
    cases env.parseTime t.text with
    | none => exact fail _
    | some secs => exact setOut _
  · refine (L.call L.peek).bind fun kind => ?_
    refine .ite (fun _ => ?_) fun _ => ?_
    · exact (L.call (L.expectSint _)).bind fun _ => setOut _
    · exact (L.call L.expectReal).bind fun _ => setOut _

/-! ### Arrays -/

theorem lock_sequenceLoop {dec dec' dec'' : D σ Unit} (hdec : r.Lock dec dec' dec'')
    (kind : SeqKind) (t : Ty) (fuel : Nat) (c : S) (i : Nat) :
    r.Lock (sequenceLoop env r.failFast dec kind t fuel c i)
      (sequenceLoop env r.collecting dec' kind t fuel c i)
      (sequenceLoop env r.forgiving dec'' kind t fuel c i) := by
  induction fuel generalizing c i with
  | zero => exact .throw _
  | succ fuel ih =>
    refine (L.call (L.next c)).bind fun x => ?_
    refine .ite (fun _ => ?_) fun _ => same _
    refine (onLocal (L.lock_inStep _ hdec)).bind fun v => ?_
    refine getOut.bind fun out => ?_
    exact (Reader.Lock.setOut _).bind fun _ => ih x.2 (i + 1)

theorem lock_decodeSequence
    {dec dec' dec'' : D σ Unit} (hdec : r.Lock dec dec' dec'') (fuel : Nat) (kind : SeqKind)
    (t : Ty) :
    r.Lock (decodeSequence env r.failFast fuel dec kind t)
      (decodeSequence env r.collecting fuel dec' kind t)
      (decodeSequence env r.forgiving fuel dec'' kind t) := by
  refine (L.call L.expectArray).bind fun c => ?_
  exact (Reader.Lock.setOut _).bind fun _ => L.lock_sequenceLoop hdec kind t fuel c 0

theorem lock_elementsLoop
    {dec dec' dec'' : Ty → D σ Unit} (hdec : ∀ t, r.Lock (dec t) (dec' t) (dec'' t))
    (off n : Nat) (ts : List Ty) (i : Nat) (c : S) :
    r.Lock (elementsLoop r.failFast dec off n ts i c)
      (elementsLoop r.collecting dec' off n ts i c)
      (elementsLoop r.forgiving dec'' off n ts i c) := by
  induction ts generalizing i c with
  | nil => exact same _
  | cons t ts ih =>
    refine (L.call (L.next c)).bind fun x => ?_
    refine .ite (fun _ => ?_) fun _ => fail _
    exact (focus (L.lock_inStep _ (hdec t))).bind fun _ => ih (i + 1) x.2

theorem lock_extraLoop (fuel : Nat) (c : S) (extra : Nat) :
    r.Lock (extraLoop r.failFast fuel c extra) (extraLoop r.collecting fuel c extra)
      (extraLoop r.forgiving fuel c extra) := by
  induction fuel generalizing c extra with
  | zero => exact .throw _
  | succ fuel ih =>
    refine (L.call L.skipValue).bind fun _ => ?_
    refine (L.call (L.next c)).bind fun x => ?_
    exact .ite (fun _ => ih x.2 _) fun _ => same _

theorem lock_decodeElements
    {dec dec' dec'' : Ty → D σ Unit} (hdec : ∀ t, r.Lock (dec t) (dec' t) (dec'' t))
    (fuel : Nat) (ts : List Ty) :
    r.Lock (decodeElements r.failFast fuel dec ts)
      (decodeElements r.collecting fuel dec' ts)
      (decodeElements r.forgiving fuel dec'' ts) := by
  refine (L.call L.offset).bind fun off => ?_
  refine (L.call L.expectArray).bind fun c => ?_
  refine (L.lock_elementsLoop hdec off ts.length ts 0 c).bind fun c => ?_
  refine (L.call (L.next c)).bind fun x => ?_
  refine .ite (fun _ => ?_) fun _ => same _
  exact (L.lock_extraLoop fuel x.2 ts.length).bind fun _ => fail _

/-! ### Maps -/

omit L in
theorem lock_parseIntegralKey (k : IntTy) (text : Bytes) (off : Nat) :
    r.Lock (parseIntegralKey env r.failFast k text off)
      (parseIntegralKey env r.collecting k text off)
      (parseIntegralKey env r.forgiving k text off) := by
  unfold parseIntegralKey
  match fromChars k text with
  | .value i [] => exact same _
  | .value i (_ :: _) => exact fail _
  | .outOfRange => exact fail _
  | .invalid => exact fail _

theorem lock_decodeKey (f : FieldMeta) (m : Ty) (off : Nat) (kt : KeyTy) :
    r.Lock (decodeKey env r.failFast f m off kt) (decodeKey env r.collecting f m off kt)
      (decodeKey env r.forgiving f m off kt) := by
  cases kt with
  | text view =>
    refine (L.call L.keyText).bind fun t => ?_
    exact .ite (fun _ => fail _) fun _ => same _
  | int k =>
    refine (L.call L.keyKind).bind fun kind => ?_
    refine .ite (fun _ => ?_) fun _ => .ite (fun _ => ?_) fun _ => ?_
    · refine (L.call L.keyText).bind fun t => ?_
      exact (lock_parseIntegralKey k t.text off).bind fun _ => same _
    · refine (L.call L.keyUint).bind fun u => ?_
      exact .ite (fun _ => fail _) fun _ => same _
    · refine (L.call L.keySint).bind fun i => ?_
      exact .ite (fun _ => fail _) fun _ => same _

theorem lock_mapEntry {dec dec' dec'' : D σ Unit} (hdec : r.Lock dec dec' dec'') (kind : MapKind)
    (t : Ty) (off : Nat) (key : Key) (es : List (Key × Val)) :
    r.Lock (mapEntry env r.failFast dec kind t off key es)
      (mapEntry env r.collecting dec' kind t off key es)
      (mapEntry env r.forgiving dec'' kind t off key es) := by
  have hstep := L.lock_inStep key.push hdec
  have hduplicates : r.failFast.duplicates = r.duplicates ∧
    r.collecting.duplicates = r.duplicates ∧ r.forgiving.duplicates = r.duplicates :=
    ⟨rfl, rfl, rfl⟩
  unfold mapEntry
  rw [hduplicates.1, hduplicates.2.1, hduplicates.2.2]
  cases repeated kind key es with
  | none => exact (onLocal hstep).bind fun _ => setOut _
  | some i =>
    cases r.duplicates with
    | error => exact fail _
    | firstWins => exact L.call L.skipValue
    | lastWins => exact focus hstep

theorem lock_mapLoop {dec dec' dec'' : D σ Unit} (hdec : r.Lock dec dec' dec'') (f : FieldMeta)
    (kind : MapKind) (kt : KeyTy) (t : Ty) (fuel : Nat) (c : M) :
    r.Lock (mapLoop env r.failFast dec f kind kt t fuel c)
      (mapLoop env r.collecting dec' f kind kt t fuel c)
      (mapLoop env r.forgiving dec'' f kind kt t fuel c) := by
  induction fuel generalizing c with
  | zero => exact .throw _
  | succ fuel ih =>
    refine (L.call (L.nextKey c)).bind fun x => ?_
    refine .ite (fun _ => ?_) fun _ => same _
    refine (L.call L.offset).bind fun off => ?_
    refine (L.lock_decodeKey f _ off kt).bind fun key => ?_
    refine getOut.bind fun out => ?_
    exact (L.lock_mapEntry hdec kind t off key _).bind fun _ => ih x.2

theorem lock_decodeMap {dec dec' dec'' : D σ Unit} (hdec : r.Lock dec dec' dec'') (fuel : Nat)
    (f : FieldMeta) (kind : MapKind) (kt : KeyTy) (t : Ty) :
    r.Lock (decodeMap env r.failFast fuel dec f kind kt t)
      (decodeMap env r.collecting fuel dec' f kind kt t)
      (decodeMap env r.forgiving fuel dec'' f kind kt t) := by
  refine (L.call L.expectMap).bind fun c => ?_
  exact (Reader.Lock.setOut _).bind fun _ => L.lock_mapLoop hdec f kind kt t fuel c

/-! ### Members -/

theorem lock_decodeTags (f : FieldMeta) (tags : List Nat) :
    r.Lock (decodeTags r.failFast f tags) (decodeTags r.collecting f tags)
      (decodeTags r.forgiving f tags) :=
  .ite (fun _ => same _) fun _ => L.mapError (L.expectTags tags)

theorem lock_decodeBulk {dec dec' dec'' : D σ Unit} (hdec : r.Lock dec dec' dec'') (f : FieldMeta)
    (t : Ty) :
    r.Lock (decodeBulk r.failFast dec f t) (decodeBulk r.collecting dec' f t)
      (decodeBulk r.forgiving dec'' f t) := by
  refine .ite (fun _ => ?_) fun _ => hdec
  exact (L.range t).bind fun handled => .ite (fun _ => same _) fun _ => hdec

theorem lock_decodeFieldValue
    {dec dec' dec'' : Ty → D σ Unit} (hdec : ∀ t, r.Lock (dec t) (dec' t) (dec'' t))
    (f : FieldMeta) (t : Ty) :
    r.Lock (decodeFieldValue env r.failFast dec f t)
      (decodeFieldValue env r.collecting dec' f t)
      (decodeFieldValue env r.forgiving dec'' f t) := by
  fun_induction decodeFieldValue env r.failFast dec f t with
  | case1 t ih =>
    rw [decodeFieldValue, decodeFieldValue]
    exact L.lock_decodeOptional ih t
  | case2 t h =>
    rw [decodeFieldValue.eq_2 env r.collecting dec' f t h,
      decodeFieldValue.eq_2 env r.forgiving dec'' f t h]
    exact (L.lock_decodeTags f _).bind fun _ => L.lock_decodeBulk (hdec t) f t

/-! ### Structs -/

theorem lock_readEntryKey (d : StructDef) :
    r.Lock (readEntryKey r.failFast d) (readEntryKey r.collecting d)
      (readEntryKey r.forgiving d) := by
  have hkind : r.Lock (entryKeyKind r.failFast d) (entryKeyKind r.collecting d)
    (entryKeyKind r.forgiving d) :=
    .ite (fun _ => L.call L.keyKind) fun _ => same _
  refine hkind.bind fun kind => ?_
  refine .ite (fun _ => ?_) fun _ => .ite (fun _ => ?_) fun _ => ?_
  · exact (L.call L.keyUint).bind fun u => .ite (fun _ => same _) fun _ => same _
  · exact (L.call L.keySint).bind fun i => same _
  · exact (L.call L.keyText).bind fun t => same _

theorem lock_unknownEntry (d : StructDef) (ignoreKey : Bytes) (off : Nat) (key : EntryKey) :
    r.Lock (unknownEntry r.failFast d ignoreKey off key)
      (unknownEntry r.collecting d ignoreKey off key)
      (unknownEntry r.forgiving d ignoreKey off key) :=
  .ite (fun _ => L.call L.skipValue) fun _ => .ite (fun _ => L.lock_reportKey _) fun _ =>
    L.call L.skipValue

theorem lock_memberEntry
    {dec dec' dec'' : FieldMeta → Ty → D σ Unit}
    (hdec : ∀ f t, r.Lock (dec f t) (dec' f t) (dec'' f t))
    (i : Nat) (f : Field) (off : Nat) (key : EntryKey) (seen : List Nat) :
    r.Lock (memberEntry r.failFast dec i f off key seen)
      (memberEntry r.collecting dec' i f off key seen)
      (memberEntry r.forgiving dec'' i f off key seen) := by
  refine .ite (fun _ => L.call L.skipValue) fun _ => .ite (fun _ => L.lock_reportKey _) fun _ => ?_
  refine .ite (fun _ => L.call L.skipValue) fun _ => L.lock_recover ?_
  exact L.lock_inStep _ (focus (hdec f.info f.ty))

theorem lock_structEntry
    {dec dec' dec'' : FieldMeta → Ty → D σ Unit}
    (hdec : ∀ f t, r.Lock (dec f t) (dec' f t) (dec'' f t))
    (d : StructDef) (ignoreKey : Bytes) (off : Nat) (seen : List Nat) (key : Except Nat EntryKey) :
    r.Lock (structEntry r.failFast dec d ignoreKey off seen key)
      (structEntry r.collecting dec' d ignoreKey off seen key)
      (structEntry r.forgiving dec'' d ignoreKey off seen key) := by
  cases key with
  | error u =>
    refine Reader.Lock.bind ((L.call L.skipValue).bind fun _ => ?_) fun _ => same _
    exact .ite (fun _ => fail _) fun _ => same _
  | ok key =>
    have hresolve : d.resolve r.collecting key = d.resolve r.failFast key ∧
      d.resolve r.forgiving key = d.resolve r.failFast key := by cases key <;> exact ⟨rfl, rfl⟩
    unfold structEntry
    simp only [hresolve.1, hresolve.2]
    cases d.resolve r.failFast key with
    | none => exact (L.lock_unknownEntry d ignoreKey off key).bind fun _ => same _
    | some i =>
      simp only
      cases d.fields[i]? with
      | none => exact .throw _
      | some f => exact (L.lock_memberEntry hdec i f off key seen).bind fun _ => same _

theorem lock_structLoop {dec dec' dec'' : FieldMeta → Ty → D σ Unit}
    (hdec : ∀ f t, r.Lock (dec f t) (dec' f t) (dec'' f t))
    (d : StructDef) (ignoreKey : Bytes) (fuel : Nat) (c : M) (seen : List Nat) :
    r.Lock (structLoop r.failFast dec d ignoreKey fuel c seen)
      (structLoop r.collecting dec' d ignoreKey fuel c seen)
      (structLoop r.forgiving dec'' d ignoreKey fuel c seen) := by
  induction fuel generalizing c seen with
  | zero => exact .throw _
  | succ fuel ih =>
    refine (L.call (L.nextKey c)).bind fun x => ?_
    refine .ite (fun _ => ?_) fun _ => same _
    refine (L.call L.offset).bind fun off => ?_
    refine (L.lock_readEntryKey d).bind fun key => ?_
    exact (L.lock_structEntry hdec d ignoreKey off seen key).bind fun seen => ih x.2 seen

/-! ### Missing members -/

theorem deaf_describeKey (kind : Kind) : Deaf r.setCollected (describeKey r kind) :=
  .ite (L.keyUint.bind fun _ => .pure _)
    (.ite (L.keySint.bind fun _ => .pure _) (L.keyText.bind fun _ => .pure _))

theorem lock_describeLoop (fuel : Nat) (c : M) (e : Error) (count : Nat) :
    r.Lock (describeLoop r.failFast fuel c e count) (describeLoop r.collecting fuel c e count)
      (describeLoop r.forgiving fuel c e count) := by
  induction fuel generalizing c e count with
  | zero => exact .throw _
  | succ fuel ih =>
    refine (L.attempt (L.nextKey c)).bind fun x => ?_
    match x with
    | none => exact same _
    | some (false, c) => exact same _
    | some (true, c) =>
      refine (L.call L.keyKind).bind fun kind => ?_
      refine (L.attempt (L.deaf_describeKey kind)).bind fun key => ?_
      cases key with
      | none => exact same _
      | some key =>
        refine (L.attempt L.skipValue).bind fun y => ?_
        cases y with
        | none => exact same _
        | some _ => exact ih c _ _

theorem lock_describePresentKeys (fuel save : Nat) (e : Error) :
    r.Lock (describePresentKeys r.failFast fuel save e)
      (describePresentKeys r.collecting fuel save e)
      (describePresentKeys r.forgiving fuel save e) := by
  have hmap : r.Lock (describeMap r.failFast fuel e) (describeMap r.collecting fuel e)
      (describeMap r.forgiving fuel e) := by
    refine (L.attempt L.expectMap).bind fun c => ?_
    cases c with
    | none => exact same _
    | some c => exact L.lock_describeLoop fuel c e 0
  refine saved (fun s => by simp only [Reader.forgiving, L.save]) fun s => ?_
  refine (L.restored save).bind fun _ => hmap.bind fun described => ?_
  exact (L.restored (r.save s)).bind fun _ => same _

omit L in
/-- A search that has found a missing member returns it. -/
theorem missingLoop_some
    {q : Reader σ S M} {fuel off save i : Nat} {d : StructDef} {seen : List Nat} {fs : List Field}
    {e : Error} {b : Build σ} :
    ∃ b₁, missingLoop q fuel d off save seen fs i (some e) b = .ok (some e) b₁ := by
  induction fs generalizing i b with
  | nil => exact ⟨b, rfl⟩
  | cons f fs ih =>
    unfold missingLoop
    split
    · exact ih
    by_cases hreq : f.required = true
    · rw [Run.bind_apply, missingMember, if_pos hreq]
      exact ih
    · rw [Run.bind_apply, missingMember, if_neg hreq]
      cases f.default with
      | none => exact ih
      | some v => exact ih

/-- The first missing member ends one run when all members have been looked at, and is recorded at
once in the other. -/
theorem lock_missing {fuel off save i : Nat} {d : StructDef} {seen : List Nat} {fs : List Field} :
    r.Lock
      (do
        match ← missingLoop r.failFast fuel d off save seen fs i none with
        | some e => D.fail e
        | none => return)
      (do
        match ← missingLoop r.collecting fuel d off save seen fs i none with
        | some e => D.fail e
        | none => return)
      (do
        match ← missingLoop r.forgiving fuel d off save seen fs i none with
        | some e => D.fail e
        | none => return) := by
  induction fs generalizing i with
  | nil => exact same _
  | cons f fs ih =>
    unfold missingLoop
    split
    · exact ih
    rw [bind_assoc, bind_assoc, bind_assoc]
    by_cases hreq : f.required = true
    · rw [missingMember, if_pos hreq, missingMember, if_pos hreq, missingMember, if_pos hreq,
        reportMissing, reportMissing, reportMissing, bind_assoc, bind_assoc, bind_assoc]
      refine (L.lock_describePresentKeys fuel save _).bind fun e => ⟨fun b => ?_, ?_⟩
      · obtain ⟨b₁, hsome⟩ : ∃ b₁,
            missingLoop r.failFast fuel d off save seen fs (i + 1) (some e) b = .ok (some e) b₁ :=
          missingLoop_some
        let recorded : Build σ :=
          { b with reader := r.setCollected (r.collected b.reader ++ [e]) b.reader }
        have hlog : r.log recorded = r.log b ++ e :: [] := L.get_set _ _
        obtain ⟨es, hgrows⟩ := ((@ih (i + 1)).follows recorded).grows
        change Follows r.log Abort.error b
          ((do
            match ← missingLoop r.failFast fuel d off save seen fs (i + 1) (some e) with
            | some e => D.fail e
            | none => return : D σ Unit) b)
          ((do
            match ← missingLoop r.collecting fuel d off save seen fs (i + 1) none with
            | some e => D.fail e
            | none => return : D σ Unit) recorded)
        rw [Run.bind_of_ok hsome]
        exact .goes_on hlog hgrows
      · exact (L.forgets_collect e).bind fun _ => (@ih (i + 1)).forgets
    · rw [missingMember, if_neg hreq, missingMember, if_neg hreq, missingMember, if_neg hreq]
      cases f.default with
      | none => exact ih
      | some v => exact (focus (Reader.Lock.setOut _)).bind fun _ => ih

theorem lock_decodeMembers
    {dec dec' dec'' : FieldMeta → Ty → D σ Unit}
    (hdec : ∀ f t, r.Lock (dec f t) (dec' f t) (dec'' f t))
    (fuel : Nat) (d : StructDef) (ignoreKey : Bytes) :
    r.Lock (decodeMembers r.failFast fuel dec d ignoreKey)
      (decodeMembers r.collecting fuel dec' d ignoreKey)
      (decodeMembers r.forgiving fuel dec'' d ignoreKey) := by
  refine (L.call L.offset).bind fun off => ?_
  refine saved (fun s => by simp only [Reader.forgiving, L.save]) fun s => ?_
  refine (L.call L.expectMap).bind fun c => ?_
  exact (L.lock_structLoop hdec d ignoreKey fuel c []).bind fun seen => L.lock_missing

theorem lock_decodeStruct
    {dec dec' dec'' : FieldMeta → Ty → D σ Unit}
    (hdec : ∀ f t, r.Lock (dec f t) (dec' f t) (dec'' f t))
    (fuel : Nat) (d : StructDef) (ignoreKey : Bytes) :
    r.Lock (decodeStruct r.failFast fuel dec d ignoreKey)
      (decodeStruct r.collecting fuel dec' d ignoreKey)
      (decodeStruct r.forgiving fuel dec'' d ignoreKey) := by
  unfold decodeStruct
  split
  · exact L.lock_inStep _ (focus (hdec _ _))
  · exact L.lock_decodeMembers hdec fuel d ignoreKey

/-! ### Variants -/

theorem lock_consumeRest (fuel : Nat) (c : M) :
    r.Lock (consumeRest r.failFast fuel c) (consumeRest r.collecting fuel c)
      (consumeRest r.forgiving fuel c) := by
  induction fuel generalizing c with
  | zero => exact .throw _
  | succ fuel ih =>
    refine (L.call (L.nextKey c)).bind fun x => ?_
    refine .ite (fun _ => ?_) fun _ => same _
    refine (L.call L.keyText).bind fun _ => ?_
    exact (L.call L.skipValue).bind fun _ => ih x.2

theorem lock_findTag (tagKey : Bytes) (fuel : Nat) (c : M) :
    r.Lock (findTag r.failFast tagKey fuel c) (findTag r.collecting tagKey fuel c)
      (findTag r.forgiving tagKey fuel c) := by
  induction fuel generalizing c with
  | zero => exact .throw _
  | succ fuel ih =>
    refine (L.call (L.nextKey c)).bind fun x => ?_
    refine .ite (fun _ => ?_) fun _ => same _
    refine (L.call L.offset).bind fun _ => ?_
    refine (L.call L.keyText).bind fun t => .ite (fun _ => ?_) fun _ => ?_
    · refine (L.call L.offset).bind fun off => ?_
      refine (L.call L.expectText).bind fun tv => ?_
      exact (L.lock_consumeRest fuel x.2).bind fun _ => same _
    · exact (L.call L.skipValue).bind fun _ => ih x.2

theorem lock_externalLoop {dec dec' dec'' : D σ Unit} (hdec : r.Lock dec dec' dec'')
    (tagKey : Bytes) (fuel : Nat) (c : M) (haveValue : Bool) :
    r.Lock (externalLoop r.failFast dec tagKey fuel c haveValue)
      (externalLoop r.collecting dec' tagKey fuel c haveValue)
      (externalLoop r.forgiving dec'' tagKey fuel c haveValue) := by
  induction fuel generalizing c haveValue with
  | zero => exact .throw _
  | succ fuel ih =>
    refine (L.call (L.nextKey c)).bind fun x => ?_
    refine .ite (fun _ => ?_) fun _ => same _
    refine (L.call L.offset).bind fun _ => ?_
    refine (L.call L.keyText).bind fun t => .ite (fun _ => ?_) fun _ => ?_
    · exact (L.lock_inStep _ hdec).bind fun _ => ih x.2 true
    · exact (L.call L.skipValue).bind fun _ => ih x.2 haveValue

omit L in
theorem lock_chooseAlternative (alts : List (Bytes × Ty))
    (tagKey : Bytes) (off : Nat) (tag : Option (Nat × Bytes)) :
    r.Lock (chooseAlternative env r.failFast alts tagKey off tag)
      (chooseAlternative env r.collecting alts tagKey off tag)
      (chooseAlternative env r.forgiving alts tagKey off tag) := by
  cases tag with
  | none => exact fail _
  | some tag =>
    unfold chooseAlternative
    simp only
    cases findAlternative tag.2 alts 0 with
    | none => exact fail _
    | some alt => exact same _

theorem lock_decodeAlternative
    {dec dec' dec'' : Ty → D σ Unit} (hdec : ∀ t, r.Lock (dec t) (dec' t) (dec'' t))
    {decStruct decStruct' decStruct'' : StructDef → Bytes → D σ Unit}
    (hstruct : ∀ d k, r.Lock (decStruct d k) (decStruct' d k) (decStruct'' d k))
    (fuel : Nat) (alts : List (Bytes × Ty)) (tagKey : Bytes) (off i : Nat) (t : Ty) :
    r.Lock (decodeAlternative env r.failFast fuel dec decStruct alts tagKey off i t)
      (decodeAlternative env r.collecting fuel dec' decStruct' alts tagKey off i t)
      (decodeAlternative env r.forgiving fuel dec'' decStruct'' alts tagKey off i t) := by
  unfold decodeAlternative
  cases internallyTagged env t with
  | some d => exact focus (hstruct d tagKey)
  | none =>
    refine (L.call L.expectMap).bind fun c => ?_
    refine (L.lock_externalLoop (focus (hdec t)) tagKey fuel c false).bind fun haveValue => ?_
    exact .ite (fun _ => same _) fun _ => fail _

theorem lock_decodeVariant
    {dec dec' dec'' : Ty → D σ Unit} (hdec : ∀ t, r.Lock (dec t) (dec' t) (dec'' t))
    {decStruct decStruct' decStruct'' : StructDef → Bytes → D σ Unit}
    (hstruct : ∀ d k, r.Lock (decStruct d k) (decStruct' d k) (decStruct'' d k))
    (fuel : Nat) (f : FieldMeta) (alts : List (Bytes × Ty)) :
    r.Lock (decodeVariant env r.failFast fuel dec decStruct f alts)
      (decodeVariant env r.collecting fuel dec' decStruct' f alts)
      (decodeVariant env r.forgiving fuel dec'' decStruct'' f alts) := by
  unfold decodeVariant
  cases f.tagKey with
  | none => exact .throw _
  | some tagKey =>
    refine saved (fun s => by simp only [Reader.forgiving, L.save]) fun s => ?_
    refine (L.call L.offset).bind fun off => ?_
    refine (L.call L.expectMap).bind fun c => ?_
    refine (L.lock_findTag tagKey fuel c).bind fun tag => ?_
    refine (lock_chooseAlternative alts tagKey off tag).bind fun alt => ?_
    refine (L.restored (r.save s)).bind fun _ => ?_
    exact (Reader.Lock.setOut _).bind fun _ =>
      L.lock_decodeAlternative hdec hstruct fuel alts tagKey off
      alt.1 alt.2

/-! ### Every type -/

theorem lock_decodeValue (fuel : Nat) (f : FieldMeta) (t : Ty) :
    r.Lock (decodeValue env r.failFast fuel f t) (decodeValue env r.collecting fuel f t)
      (decodeValue env r.forgiving fuel f t) := by
  induction fuel generalizing f t with
  | zero => exact .throw _
  | succ fuel ih =>
    have hfield : ∀ f t,
    r.Lock (decodeFieldValue env r.failFast (decodeValue env r.failFast fuel f) f t)
        (decodeFieldValue env r.collecting (decodeValue env r.collecting fuel f) f t)
        (decodeFieldValue env r.forgiving (decodeValue env r.forgiving fuel f) f t) :=
      fun f t => L.lock_decodeFieldValue (ih f) f t
    unfold decodeValue
    cases t with
    | bool => exact (L.call L.expectBoolean).bind fun _ => setOut _
    | char => exact L.lock_decodeChar
    | int k => exact (L.lock_decodeInt f k).bind fun _ => setOut _
    | float => exact (L.call L.expectReal).bind fun _ => setOut _
    | double => exact (L.call L.expectReal).bind fun _ => setOut _
    | enum e => exact L.lock_decodeEnum f e
    | string view => exact L.lock_decodeString f view
    | optional t => exact L.lock_decodeOptional (ih f t) t
    | variant alts =>
      exact L.lock_decodeVariant (ih noField) (fun d k => L.lock_decodeStruct hfield fuel d k) fuel
        f alts
    | byteRange _ => exact L.lock_decodeBytes f _
    | map kind kt t => exact L.lock_decodeMap (ih f t) fuel f kind kt t
    | tuple ts => exact L.lock_decodeElements (ih f) fuel ts
    | array n t =>
      exact .ite (fun _ => L.lock_decodeBytes f _) fun _ => L.lock_decodeElements (ih f) fuel _
    | seq kind t =>
      exact .ite (fun _ => L.lock_decodeBytes f _) fun _ =>
        L.lock_decodeSequence (ih f t) fuel kind t
    | struct id => exact L.lock_decodeStruct hfield fuel _ _
    | time d => exact .ite (fun _ => L.lock_decodeTime f d) fun _ => .throw _

theorem lock_topLevel (fuel : Nat) (t : Ty) :
    r.Lock (decodeFieldValue env r.failFast (decodeValue env r.failFast fuel noField) noField t)
      (decodeFieldValue env r.collecting (decodeValue env r.collecting fuel noField) noField t)
      (decodeFieldValue env r.forgiving (decodeValue env r.forgiving fuel noField) noField t) :=
  L.lock_decodeFieldValue (fun t => L.lock_decodeValue fuel noField t) noField t

omit L in
/-- The error of a call has its path root first. -/
theorem decode_finalized {q : Reader σ S M} {fuel : Nat} {t : Ty} {b b' : Build σ} {e : Error}
    (h : decode env q fuel t b = .error (.error e) b') : e.finalize = e := by
  unfold decode D.mapError Run.mapError at h
  cases hm : decodeFieldValue env q (decodeValue env q fuel noField) noField t b with
  | ok a b₁ =>
    rw [hm] at h
    cases h
  | error a b₁ =>
    rw [hm] at h
    cases a with
    | error e₀ =>
      cases h
      exact e₀.finalize_finalize
    | rejected => cases h
    | outOfFuel => cases h

/-- A call of the decoder in collect mode follows the call in fail-fast mode. -/
theorem follows_decode (env : Env) (fuel : Nat) (t : Ty) {b : Build σ} (hb : r.log b = []) :
    Follows r.log Abort.error b (decode env r.failFast fuel t b)
      (decode env r.collecting fuel t b) := by
  have hfail : decode env r.failFast fuel t b = D.mapError Error.finalize
      (decodeFieldValue env r.failFast (decodeValue env r.failFast fuel noField) noField t) b := by
    unfold decode
    cases D.mapError Error.finalize
      (decodeFieldValue env r.failFast (decodeValue env r.failFast fuel noField) noField t) b <;>
        rfl
  rw [hfail]
  unfold decode D.mapError Run.mapError
  rcases (L.lock_topLevel fuel t).follows b with ⟨heq, hsilent⟩ | ⟨e, b₁, es, hx, hlog⟩
  · rw [heq]
    have hquiet : ∀ b₁ : Build σ, r.log b₁ = r.log b →
        ({ b₁ with reader := r.setCollected ((r.collected b₁.reader).map Error.finalize) b₁.reader } : Build σ) = b₁ := by
      intro b₁ hb₁
      have hnil : r.collected b₁.reader = [] := hb₁.trans hb
      rw [hnil, List.map_nil, ← hnil, L.set_get]
    cases hm : decodeFieldValue env r.failFast (decodeValue env r.failFast fuel noField) noField t
      b with
    | ok a b₁ =>
      rw [hm] at hsilent
      exact .inl ⟨congrArg (EStateM.Result.ok a) (hquiet b₁ hsilent), hsilent⟩
    | error a b₁ =>
      rw [hm] at hsilent
      exact .inl ⟨congrArg (EStateM.Result.error _) (hquiet b₁ hsilent), hsilent⟩
  · rw [hx]
    refine .inr ⟨e.finalize, b₁, es.map Error.finalize, rfl, ?_⟩
    have hfinal : ∀ b₂ : Build σ, r.log b₂ = r.log b ++ e :: es →
        r.collected (r.setCollected ((r.collected b₂.reader).map Error.finalize) b₂.reader) =
          r.log b ++ e.finalize :: es.map Error.finalize := by
      intro b₂ hb₂
      have hlog : r.collected b₂.reader = e :: es := by
        rw [← List.nil_append (e :: es), ← hb]; exact hb₂
      rw [L.get_set, hlog, List.map_cons, hb, List.nil_append]
    cases hn : decodeFieldValue env r.collecting (decodeValue env r.collecting fuel noField) noField
      t b <;>
      rw [hn] at hlog <;> exact hfinal _ hlog

/-- A call of the decoder that keeps no error ends where the call in collect mode ends. -/
theorem forgets_decode (env : Env) (fuel : Nat) (t : Ty) :
    Commutes r.forget (decode env r.collecting fuel t) (decode env r.forgiving fuel t) := by
  intro b
  unfold decode D.mapError Run.mapError
  rw [(L.lock_topLevel fuel t).forgets b]
  cases decodeFieldValue env r.collecting (decodeValue env r.collecting fuel noField) noField t
    b with
  | ok a b₁ => exact congrArg (EStateM.Result.ok a) (L.forget_setCollected _ b₁).symm
  | error a b₁ =>
    exact congrArg (EStateM.Result.error _) (L.forget_setCollected _ b₁).symm

end CollectLaws

end VCodec
