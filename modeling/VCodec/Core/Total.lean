import VCodec.Core.Span

/-!
# Construction always ends

The bound on the recursion of construction is no limit: a type that the audit accepts, on an input
of any length, needs a bound that grows with the length only. Every loop over a cursor reads a key
or a value in each round, and between two heads that are read the recursion passes only
optional-likes and transparent structs, of which a type has finitely many in a row.
-/

namespace VCodec

open D

variable {σ S M α β : Type}

/-! ### Types that are audited -/

/-- How often the recursion passes from a type to a part of it before it reads a head, if it passes
`rank id` times from struct `id`. -/
def hops (rank : Nat → Nat) : Ty → Nat
  | .optional t => hops rank t + 1
  | .struct id => rank id
  | _ => 0

/-- The instantiations of `decode_value` that a program makes: closed under the parts of types, each
accepted by the audit, and none of a type that contains nothing but itself. -/
structure Audited (env : Env) (tr : Traits) where
  holds : FieldMeta → Ty → Prop
  rank : Nat → Nat
  bound : Nat
  hops_le : ∀ {f t}, holds f t → hops rank t ≤ bound
  optional : ∀ {f t}, holds f (.optional t) → holds f t
  map : ∀ {f kind kt t}, holds f (.map kind kt t) → holds f t
  tuple : ∀ {f ts}, holds f (.tuple ts) → ∀ t ∈ ts, holds f t
  array : ∀ {f n t}, holds f (.array n t) → holds f t
  seq : ∀ {f kind t}, holds f (.seq kind t) → holds f t
  member : ∀ {f id}, holds f (.struct id) → ∀ fd ∈ (env.structs id).fields, holds fd.info fd.ty
  transparent : ∀ {f id fd fs}, holds f (.struct id) → (env.structs id).transparent = true →
    (env.structs id).fields = fd :: fs → hops rank fd.ty < rank id
  alternative : ∀ {f alts}, holds f (.variant alts) → ∀ a ∈ alts, holds noField a.2
  tagged : ∀ {f alts}, holds f (.variant alts) → f.tagKey.isSome = true
  time : ∀ {f d}, holds f (.time d) → tr.timeCodec = true

/-! ### Runs that end -/

/-- The run has reported an error, as the code does. -/
def Abort.IsError : Abort → Prop
  | .error _ => True
  | _ => False

/-- From the places `P`, a run neither uses up its bound nor meets a type that the audit rejects,
and where it returns it stands at `Q`. -/
def Ends (P : σ → Prop) (m : D σ α) (Q : α → σ → Prop) : Prop :=
  ∀ b, P b.reader →
    match m b with
    | .ok a b' => Q a b'.reader
    | .error a _ => a.IsError

/-! ### Readers that move on -/

/-- The operation does not go back. -/
def Keeps (At : Nat → σ → Prop) (m : EStateM Error σ α) : Prop :=
  ∀ n s a t, At n s → m s = .ok a t → At n t

/-- The operation moves on. -/
def Eats (At : Nat → σ → Prop) (m : EStateM Error σ α) : Prop :=
  ∀ n s a t, At (n + 1) s → m s = .ok a t → At n t

section

variable {At : Nat → σ → Prop} {m : EStateM Error σ α} {f : α → EStateM Error σ β}

theorem Keeps.pure (a : α) : Keeps At (pure a) := by
  rintro n s _ _ hs ⟨⟩
  exact hs

theorem Keeps.get : Keeps At (get : EStateM Error σ σ) := by
  rintro n s _ _ hs ⟨⟩
  exact hs

theorem Keeps.throw (e : Error) : Keeps At (throw e : EStateM Error σ α) :=
  fun _ _ _ _ _ h => nomatch h

theorem Eats.throw (e : Error) : Eats At (throw e : EStateM Error σ α) :=
  fun _ _ _ _ _ h => nomatch h

theorem Keeps.bind (hm : Keeps At m) (hf : ∀ a, Keeps At (f a)) : Keeps At (m >>= f) := by
  intro n s b t hs h
  obtain ⟨a, s₁, hrun, hrest⟩ := Run.bind_eq_ok.1 h
  exact hf a n s₁ b t (hm n s a s₁ hs hrun) hrest

theorem Keeps.bind_eats (hm : Keeps At m) (hf : ∀ a, Eats At (f a)) : Eats At (m >>= f) := by
  intro n s b t hs h
  obtain ⟨a, s₁, hrun, hrest⟩ := Run.bind_eq_ok.1 h
  exact hf a n s₁ b t (hm (n + 1) s a s₁ hs hrun) hrest

theorem Eats.bind (hm : Eats At m) (hf : ∀ a, Keeps At (f a)) : Eats At (m >>= f) := by
  intro n s b t hs h
  obtain ⟨a, s₁, hrun, hrest⟩ := Run.bind_eq_ok.1 h
  exact hf a n s₁ b t (hm n s a s₁ hs hrun) hrest

theorem Keeps.ite {c : Prop} [Decidable c] {m n : EStateM Error σ α} (hm : Keeps At m)
    (hn : Keeps At n) :
    Keeps At (if c then m else n) := by
  split
  · exact hm
  · exact hn

theorem Eats.ite {c : Prop} [Decidable c] {m n : EStateM Error σ α} (hm : Eats At m)
    (hn : Eats At n) :
    Eats At (if c then m else n) := by
  split
  · exact hm
  · exact hn

end

/-- `At n` are the places with less than `n` bytes ahead. -/
structure MeasureLaws (r : Reader σ S M) where
  At : Nat → σ → Prop
  not_zero : ∀ s, ¬ At 0 s
  mono : ∀ {n m s}, n ≤ m → At n s → At m s
  setCollected : ∀ {n s} es, At n s → At n (r.setCollected es s)
  restore : ∀ {n s} t, At n s → At n (r.restore (r.save s) t)
  offset : Keeps At r.offset
  peek : Keeps At r.peek
  keyKind : Keeps At r.keyKind
  expectNull : Eats At r.expectNull
  expectBoolean : Eats At r.expectBoolean
  expectUint : ∀ f, Eats At (r.expectUint f)
  expectSint : ∀ f, Eats At (r.expectSint f)
  expectReal : Eats At r.expectReal
  expectText : Eats At r.expectText
  expectBytes : ∀ f, Eats At (r.expectBytes f)
  expectTags : ∀ ts, Keeps At (r.expectTags ts)
  readRange : ∀ n t, Ends (At (n + 1)) (r.readRange t)
    (fun handled => At (if handled then n else n + 1))
  expectArray : Eats At r.expectArray
  next : ∀ c, Keeps At (r.next c)
  expectMap : Eats At r.expectMap
  nextKey : ∀ c, Keeps At (r.nextKey c)
  keyText : Eats At r.keyText
  keyUint : Eats At r.keyUint
  keySint : Eats At r.keySint
  skipValue : Eats At r.skipValue

namespace Ends

variable {P P' : σ → Prop} {Q Q' : α → σ → Prop} {R : β → σ → Prop}

theorem weaken {m : D σ α} (h : Ends P m Q) (hP : ∀ s, P' s → P s) (hQ : ∀ a s, Q a s → Q' a s) :
    Ends P' m Q' := by
  intro b hb
  have h := h b (hP _ hb)
  cases hm : m b with
  | ok a b' =>
    rw [hm] at h
    exact hQ a _ h
  | error a b' => rwa [hm] at h

theorem pure (a : α) (h : ∀ s, P s → Q a s) : Ends P (pure a) Q := fun b hb => h b.reader hb

theorem fail (e : Error) : Ends P (fail e) Q := fun _ _ => trivial

/-- There is no such place. -/
theorem vacuous {m : D σ α} (h : ∀ s, ¬ P s) : Ends P m Q := fun b hb => (h b.reader hb).elim

theorem bind {m : D σ α} {f : α → D σ β} (hm : Ends P m Q) (hf : ∀ a, Ends (Q a) (f a) R) :
    Ends P (m >>= f) R := by
  intro b hb
  have h := hm b hb
  rw [Run.bind_apply]
  cases hx : m b with
  | ok a b₁ =>
    rw [hx] at h
    exact hf a b₁ h
  | error a b₁ => rwa [hx] at h

theorem ite {c : Prop} [Decidable c] {m n : D σ α} (hm : c → Ends P m Q) (hn : ¬ c → Ends P n Q) :
    Ends P (if c then m else n) Q := by
  by_cases hc : c
  · rw [if_pos hc]
    exact hm hc
  · rw [if_neg hc]
    exact hn hc

theorem call {m : EStateM Error σ α} (h : ∀ s a t, P s → m s = .ok a t → Q a t) :
    Ends P (call m) Q := by
  intro b hb
  unfold D.call
  cases hm : m b.reader with
  | ok a t => exact h _ _ _ hb hm
  | error e t => trivial

theorem mapError {f : Error → Error} {m : D σ α} (h : Ends P m Q) : Ends P (mapError f m) Q := by
  intro b hb
  have h := h b hb
  unfold D.mapError Run.mapError
  cases hm : m b with
  | ok a b' => rwa [hm] at h
  | error a b' =>
    rw [hm] at h
    cases a with
    | error e => trivial
    | rejected => exact h
    | outOfFuel => exact h

theorem setOut (v : Val) : Ends P (setOut v) (fun _ => P) := fun _ hb => hb

theorem getOut : Ends P getOut (fun _ => P) := fun _ hb => hb

theorem getReader {f : σ → D σ β} (h : ∀ s, P s → Ends P (f s) R) : Ends P (do f (← getReader)) R :=
  fun b hb => h b.reader hb b hb

theorem modifyReader {f : σ → σ} (P' : σ → Prop) (h : ∀ s, P s → P' (f s)) :
    Ends P (modifyReader f) (fun _ => P') := fun b hb => h b.reader hb

theorem focus {get : Val → Val} {put : Val → Val → Val} {m : D σ α} (h : Ends P m Q) :
    Ends P (focus get put m) Q := by
  intro b hb
  have h := h { b with out := get b.out } hb
  unfold D.focus
  cases hm : m { b with out := get b.out } with
  | ok a b' => rwa [hm] at h
  | error a b' => rwa [hm] at h

theorem onLocal {v : Val} {m : D σ Unit} (h : Ends P m (fun _ => P')) :
    Ends P (onLocal v m) (fun _ => P') := by
  intro b hb
  have h := h { b with out := v } hb
  unfold D.onLocal
  cases hm : m { b with out := v } with
  | ok a b' => rwa [hm] at h
  | error a b' => rwa [hm] at h

/-- An attempt whose failure leads to nothing but a return. -/
theorem attempt {m : EStateM Error σ α} (h : ∀ s a t, P s → m s = .ok a t → Q a t) :
    Ends P (attempt m) (fun x s => ∀ a, x = some a → Q a s) := by
  intro b hb
  unfold D.attempt
  cases hm : m b.reader with
  | ok a t =>
    rintro _ ⟨⟩
    exact h _ _ _ hb hm
  | error e t => exact fun _ h => nomatch h

end Ends

namespace MeasureLaws

variable {env : Env} {r : Reader σ S M} (L : MeasureLaws r)

open Ends

/-- A run that decodes one value: it ends, and moves on. -/
abbrev Reads (n : Nat) (m : D σ α) : Prop := Ends (L.At (n + 1)) m (fun _ => L.At n)

/-- A run that ends, and does not go back. -/
abbrev Rests (n : Nat) (m : D σ α) : Prop := Ends (L.At n) m (fun _ => L.At n)

theorem reads {m : EStateM Error σ α} (h : Eats L.At m) (n : Nat) : L.Reads n (D.call m) :=
  .call fun s a t hs hm => h n s a t hs hm

theorem rests {m : EStateM Error σ α} (h : Keeps L.At m) (n : Nat) : L.Rests n (D.call m) :=
  .call fun s a t hs hm => h n s a t hs hm

theorem Reads.rests {n : Nat} {m : D σ α} (h : ∀ k < n, L.Reads k m) : L.Rests n m := by
  cases n with
  | zero => exact .vacuous L.not_zero
  | succ n =>
    exact (h n (Nat.lt_succ_self n)).weaken (fun _ h => h) fun _ _ h => L.mono (Nat.le_succ n) h

theorem reads_inStep {n : Nat} (step : Error → Error) {m : D σ α} (h : L.Reads n m) :
    L.Reads n (inStep r step m) := by
  intro b hb
  have h := (h.mapError (f := step)) b hb
  unfold inStep
  cases hm : D.mapError step m b with
  | ok a b' =>
    rw [hm] at h
    cases r.errors with
    | failFast => exact h
    | collect => exact L.setCollected _ h
  | error a b' =>
    rw [hm] at h
    cases a with
    | error e => trivial
    | rejected => exact h
    | outOfFuel => exact h

/-! ### Scalars, strings and bytes -/

theorem reads_decodeUint (n : Nat) (f : FieldMeta) (k : IntTy) :
    L.Reads n (decodeUint env r f k) := by
  refine (L.rests L.offset _).bind fun off => ?_
  refine (L.reads (L.expectUint f) n).mapError.bind fun u => ?_
  exact .ite (fun _ => fail _) fun _ => .pure _ fun _ h => h

theorem reads_decodeSint (n : Nat) (f : FieldMeta) (k : IntTy) :
    L.Reads n (decodeSint env r f k) := by
  refine (L.rests L.offset _).bind fun off => ?_
  refine (L.reads (L.expectSint f) n).mapError.bind fun i => ?_
  exact .ite (fun _ => fail _) fun _ => .pure _ fun _ h => h

theorem reads_decodeInt (n : Nat) (f : FieldMeta) (k : IntTy) : L.Reads n (decodeInt env r f k) :=
  .ite (fun _ => L.reads_decodeSint n f k) fun _ => L.reads_decodeUint n f k

theorem reads_decodeEnum (n : Nat) (f : FieldMeta) (e : EnumDef) :
    L.Reads n (decodeEnum env r f e) := by
  refine (L.rests L.offset _).bind fun off => .ite (fun _ => ?_) fun _ => ?_
  · refine (L.reads_decodeInt n f e.underlying).bind fun raw => ?_
    cases e.enumerators.find? fun en => en.value = raw ∧ ¬ en.skipped with
    | none => exact fail _
    | some en => exact Ends.setOut _
  · refine (L.reads L.expectText n).bind fun t => ?_
    cases e.find t.text with
    | none => exact fail _
    | some en => exact Ends.setOut _

theorem reads_decodeString (n : Nat) (f : FieldMeta) (view : Bool) :
    L.Reads n (decodeString env r f view) := by
  refine (L.rests L.offset _).bind fun off => ?_
  refine (L.reads L.expectText n).bind fun t => ?_
  exact .ite (fun _ => fail _) fun _ => Ends.setOut _

theorem reads_decodeChar (n : Nat) : L.Reads n (decodeChar r) := by
  refine (L.rests L.offset _).bind fun off => ?_
  refine (L.reads L.expectText n).bind fun t => ?_
  match t.text with
  | [c] => exact Ends.setOut _
  | [] => exact fail _
  | _ :: _ :: _ => exact fail _

theorem reads_decodeBytes (n : Nat) (f : FieldMeta) (t : Ty) :
    L.Reads n (decodeBytes env r f t) := by
  refine (L.rests L.offset _).bind fun off => ?_
  refine (L.reads (L.expectBytes f) n).bind fun b => ?_
  exact .ite (fun _ => fail _) fun _ => .ite (fun _ => Ends.setOut _) fun _ => fail _

theorem reads_decodeOptional {n : Nat} {dec : D σ Unit} (hdec : L.Reads n dec) (t : Ty) :
    L.Reads n (decodeOptional env r dec t) := by
  refine (L.rests L.peek _).bind fun kind => .ite (fun _ => ?_) fun _ => ?_
  · exact (L.reads L.expectNull n).bind fun _ => Ends.setOut _
  · exact (Ends.setOut _).bind fun _ => hdec.focus

theorem reads_decodeTime (n : Nat) (f : FieldMeta) (d : Duration) :
    L.Reads n (decodeTime env r f d) := by
  refine .ite (fun _ => ?_) fun _ => ?_
  · refine (L.rests L.offset _).bind fun off => ?_
    refine (L.reads L.expectText n).bind fun t => ?_
    cases env.parseTime t.text with
    | none => exact fail _
    | some secs => exact Ends.setOut _
  · refine (L.rests L.peek _).bind fun kind => .ite (fun _ => ?_) fun _ => ?_
    · exact (L.reads (L.expectSint _) n).bind fun _ => Ends.setOut _
    · exact (L.reads L.expectReal n).bind fun _ => Ends.setOut _

/-! ### Arrays -/

theorem rests_sequenceLoop {dec : D σ Unit} {n fuel : Nat} (hdec : ∀ k < n, L.Reads k dec)
    (hfuel : n ≤ fuel) (kind : SeqKind) (t : Ty) (c : S) (i : Nat) :
    L.Rests n (sequenceLoop env r dec kind t fuel c i) := by
  induction fuel generalizing n c i with
  | zero => exact .vacuous (Nat.le_zero.1 hfuel ▸ L.not_zero)
  | succ fuel ih =>
    cases n with
    | zero => exact .vacuous L.not_zero
    | succ n =>
      refine (L.rests (L.next c) _).bind fun x => .ite (fun _ => ?_) fun _ => .pure _ fun _ h => h
      refine (onLocal (L.reads_inStep _ (hdec n (Nat.lt_succ_self n)))).bind fun v => ?_
      refine Ends.getOut.bind fun out => (Ends.setOut _).bind fun _ => ?_
      refine (ih (fun k hk => hdec k (Nat.lt_succ_of_lt hk)) (Nat.le_of_succ_le_succ hfuel) x.2
        (i + 1)).weaken
        (fun _ h => h) fun _ _ h => L.mono (Nat.le_succ n) h

theorem reads_decodeSequence
    {dec : D σ Unit} {n fuel : Nat} (hdec : ∀ k < n, L.Reads k dec) (hfuel : n ≤ fuel)
    (kind : SeqKind) (t : Ty) : L.Reads n (decodeSequence env r fuel dec kind t) := by
  refine (L.reads L.expectArray n).bind fun c => (Ends.setOut _).bind fun _ => ?_
  exact L.rests_sequenceLoop hdec hfuel kind t c 0

theorem rests_elementsLoop
    {dec : Ty → D σ Unit} {n : Nat} {ts : List Ty} (hdec : ∀ t ∈ ts, ∀ k < n, L.Reads k (dec t))
    (off m i : Nat) (c : S) : L.Rests n (elementsLoop r dec off m ts i c) := by
  induction ts generalizing i c with
  | nil => exact .pure _ fun _ h => h
  | cons t ts ih =>
    refine (L.rests (L.next c) _).bind fun x => .ite (fun _ => ?_) fun _ => fail _
    refine Ends.bind ?_ fun _ => ih (fun t ht => hdec t (List.mem_cons_of_mem _ ht)) (i + 1) x.2
    exact Reads.rests L fun k hk => (L.reads_inStep _ (hdec t List.mem_cons_self k hk)).focus

theorem rests_extraLoop {n fuel : Nat} (hfuel : n ≤ fuel) (c : S) (extra : Nat) :
    L.Rests n (extraLoop r fuel c extra) := by
  induction fuel generalizing n c extra with
  | zero => exact .vacuous (Nat.le_zero.1 hfuel ▸ L.not_zero)
  | succ fuel ih =>
    cases n with
    | zero => exact .vacuous L.not_zero
    | succ n =>
      refine (L.reads L.skipValue n).bind fun _ => ?_
      refine (L.rests (L.next c) n).bind fun x => .ite (fun _ => ?_) fun _ => ?_
      · exact (ih (Nat.le_of_succ_le_succ hfuel) x.2 _).weaken (fun _ h => h) fun _ _ h =>
          L.mono (Nat.le_succ n) h
      · exact .pure _ fun _ h => L.mono (Nat.le_succ n) h

theorem reads_decodeElements {dec : Ty → D σ Unit} {n fuel : Nat} {ts : List Ty}
    (hdec : ∀ t ∈ ts, ∀ k < n, L.Reads k (dec t)) (hfuel : n ≤ fuel) :
    L.Reads n (decodeElements r fuel dec ts) := by
  refine (L.rests L.offset _).bind fun off => ?_
  refine (L.reads L.expectArray n).bind fun c => ?_
  refine (L.rests_elementsLoop hdec off ts.length 0 c).bind fun c => ?_
  refine (L.rests (L.next c) n).bind fun x => .ite (fun _ => ?_) fun _ => .pure _ fun _ h => h
  exact (L.rests_extraLoop hfuel x.2 ts.length).bind fun _ => fail _

/-! ### Maps -/

theorem ends_parseIntegralKey {P : σ → Prop} (k : IntTy) (text : Bytes) (off : Nat) :
    Ends P (parseIntegralKey env r k text off) (fun _ => P) := by
  unfold parseIntegralKey
  match fromChars k text with
  | .value i [] => exact .pure _ fun _ h => h
  | .value i (_ :: _) => exact fail _
  | .outOfRange => exact fail _
  | .invalid => exact fail _

theorem reads_decodeKey (n : Nat) (f : FieldMeta) (m : Ty) (off : Nat) (kt : KeyTy) :
    L.Reads n (decodeKey env r f m off kt) := by
  cases kt with
  | text view =>
    refine (L.reads L.keyText n).bind fun t => ?_
    exact .ite (fun _ => fail _) fun _ => .pure _ fun _ h => h
  | int k =>
    refine (L.rests L.keyKind _).bind fun kind => .ite (fun _ => ?_) fun _ =>
      .ite (fun _ => ?_) fun _ => ?_
    · refine (L.reads L.keyText n).bind fun t => ?_
      exact (ends_parseIntegralKey k t.text off).bind fun _ => .pure _ fun _ h => h
    · refine (L.reads L.keyUint n).bind fun u => ?_
      exact .ite (fun _ => fail _) fun _ => .pure _ fun _ h => h
    · refine (L.reads L.keySint n).bind fun i => ?_
      exact .ite (fun _ => fail _) fun _ => .pure _ fun _ h => h

theorem reads_mapEntry {dec : D σ Unit} {n : Nat} (hdec : L.Reads n dec) (kind : MapKind) (t : Ty)
    (off : Nat) (key : Key) (es : List (Key × Val)) :
    L.Reads n (mapEntry env r dec kind t off key es) := by
  have hstep := L.reads_inStep key.push hdec
  unfold mapEntry
  match repeated kind key es, r.duplicates with
  | some _, .error => exact fail _
  | some _, .firstWins => exact L.reads L.skipValue n
  | some i, .lastWins => exact hstep.focus
  | none, _ => exact (onLocal hstep).bind fun _ => Ends.setOut _

theorem rests_mapLoop {dec : D σ Unit} {n fuel : Nat} (hdec : ∀ k < n, L.Reads k dec)
    (hfuel : n ≤ fuel) (f : FieldMeta) (kind : MapKind) (kt : KeyTy) (t : Ty) (c : M) :
    L.Rests n (mapLoop env r dec f kind kt t fuel c) := by
  induction fuel generalizing n c with
  | zero => exact .vacuous (Nat.le_zero.1 hfuel ▸ L.not_zero)
  | succ fuel ih =>
    cases n with
    | zero => exact .vacuous L.not_zero
    | succ n =>
      refine (L.rests (L.nextKey c) _).bind fun x => .ite (fun _ => ?_) fun _ => .pure _ fun _ h =>
        h
      refine (L.rests L.offset _).bind fun off => ?_
      refine (L.reads_decodeKey n f _ off kt).bind fun key => Ends.getOut.bind fun out => ?_
      have hloop :=
        ih (fun k hk => hdec k (Nat.lt_succ_of_lt hk)) (Nat.le_of_succ_le_succ hfuel) x.2
      refine Ends.bind ?_ fun _ => hloop.weaken (fun _ h => h) fun _ _ h => L.mono (Nat.le_succ n) h
      exact Reads.rests L fun k hk => L.reads_mapEntry (hdec k (Nat.lt_succ_of_lt hk)) kind t off
        key _

theorem reads_decodeMap {dec : D σ Unit} {n fuel : Nat} (hdec : ∀ k < n, L.Reads k dec)
    (hfuel : n ≤ fuel) (f : FieldMeta) (kind : MapKind) (kt : KeyTy) (t : Ty) :
    L.Reads n (decodeMap env r fuel dec f kind kt t) := by
  refine (L.reads L.expectMap n).bind fun c => (Ends.setOut _).bind fun _ => ?_
  exact L.rests_mapLoop hdec hfuel f kind kt t c

/-! ### Members -/

theorem rests_decodeTags (n : Nat) (f : FieldMeta) (tags : List Nat) :
    L.Rests n (decodeTags r f tags) :=
  .ite (fun _ => .pure _ fun _ h => h) fun _ => (L.rests (L.expectTags tags) n).mapError

theorem reads_decodeBulk {dec : D σ Unit} {n : Nat} (hdec : L.Reads n dec) (f : FieldMeta)
    (t : Ty) :
    L.Reads n (decodeBulk r dec f t) := by
  refine .ite (fun _ => ?_) fun _ => hdec
  refine (L.readRange n t).bind fun handled => ?_
  cases handled with
  | true => exact .pure _ fun _ h => h
  | false => exact hdec

/-- A member is read if every type is that the recursion comes to before a head. -/
theorem reads_decodeFieldValue
    {dec : Ty → D σ Unit} {n : Nat} (f : FieldMeta) {t : Ty} (U : Audited env r.traits)
    (ht : U.holds f t) (hdec : ∀ t', U.holds f t' → hops U.rank t' ≤ hops U.rank t →
      L.Reads n (dec t')) :
    L.Reads n (decodeFieldValue env r dec f t) := by
  fun_induction decodeFieldValue env r dec f t with
  | case1 t ih =>
    refine L.reads_decodeOptional (ih (U.optional ht) fun t' ht' hle => hdec t' ht' ?_) t
    exact hle.trans (Nat.le_succ _)
  | case2 t h =>
    refine (L.rests_decodeTags _ f _).bind fun _ => ?_
    exact L.reads_decodeBulk (hdec t ht le_rfl) f t

/-! ### Structs -/

theorem reads_readEntryKey (n : Nat) (d : StructDef) : L.Reads n (readEntryKey r d) := by
  have hkind : L.Rests (n + 1) (entryKeyKind r d) :=
    .ite (fun _ => L.rests L.keyKind _) fun _ => .pure _ fun _ h => h
  refine hkind.bind fun kind => .ite (fun _ => ?_) fun _ => .ite (fun _ => ?_) fun _ => ?_
  · refine (L.reads L.keyUint n).bind fun u => ?_
    exact .ite (fun _ => .pure _ fun _ h => h) fun _ => .pure _ fun _ h => h
  · exact (L.reads L.keySint n).bind fun i => .pure _ fun _ h => h
  · exact (L.reads L.keyText n).bind fun t => .pure _ fun _ h => h

theorem reads_reportKey (n : Nat) (e : Error) : L.Reads n (reportKey r e) := by
  unfold reportKey
  cases r.errors with
  | failFast => exact fail e
  | collect => exact (Ends.modifyReader _ fun s h => L.setCollected _ h).bind fun _ => L.reads L.skipValue n

theorem reads_recover {n : Nat} {m : D σ Unit} (h : L.Reads n m) : L.Reads n (recover r m) := by
  intro b hb
  have h := h b hb
  unfold recover
  cases r.errors with
  | failFast => exact h
  | collect =>
    simp only
    cases hm : m b with
    | ok a b' => rwa [hm] at h
    | error a b' =>
      rw [hm] at h
      cases a with
      | error e =>
        by_cases hsyntax : isSyntaxError e.code = true
        · simp only [if_pos hsyntax]
          trivial
        · simp only [if_neg hsyntax]
          -- the saved place is found again from wherever the failure has left the reader
          exact L.reads L.skipValue n
            { b' with reader := r.restore (r.save b.reader) (r.setCollected (r.collected b'.reader ++ [e]) b'.reader) }
            (L.restore _ hb)
      | rejected => exact h
      | outOfFuel => exact h

theorem reads_unknownEntry (n : Nat) (d : StructDef) (ignoreKey : Bytes) (off : Nat)
    (key : EntryKey) :
    L.Reads n (unknownEntry r d ignoreKey off key) :=
  .ite (fun _ => L.reads L.skipValue n) fun _ => .ite (fun _ => L.reads_reportKey n _) fun _ =>
    L.reads L.skipValue n

theorem reads_memberEntry {dec : FieldMeta → Ty → D σ Unit} {n : Nat} {f : Field}
    (hdec : L.Reads n (dec f.info f.ty)) (i off : Nat) (key : EntryKey) (seen : List Nat) :
    L.Reads n (memberEntry r dec i f off key seen) := by
  refine .ite (fun _ => L.reads L.skipValue n) fun _ =>
    .ite (fun _ => L.reads_reportKey n _) fun _ => ?_
  exact .ite (fun _ => L.reads L.skipValue n) fun _ => L.reads_recover (L.reads_inStep _ hdec.focus)

/-- A key resolves to a member that there is. -/
theorem resolve_lt {d : StructDef} {key : EntryKey} {i : Nat} (h : d.resolve r key = some i) :
    i < d.fields.length := by
  cases key with
  | int k => exact (List.findIdx?_eq_some_iff_findIdx_eq.1 h).1
  | text k =>
    simp only [StructDef.resolve] at h
    cases hfind : d.find k with
    | none =>
      rw [hfind] at h
      cases h
    | some j =>
      have hlt : j < d.fields.length := (List.findIdx?_eq_some_iff_findIdx_eq.1 hfind).1
      rw [hfind] at h
      simp only [List.getElem?_eq_getElem hlt] at h
      split at h
      · cases h
      · cases h
        exact hlt

theorem reads_structEntry {dec : FieldMeta → Ty → D σ Unit} {n : Nat} {d : StructDef}
    (hdec : ∀ f ∈ d.fields, L.Reads n (dec f.info f.ty))
    (ignoreKey : Bytes) (off : Nat) (seen : List Nat) (key : Except Nat EntryKey) :
    L.Reads n (structEntry r dec d ignoreKey off seen key) := by
  cases key with
  | error u =>
    refine Ends.bind ((L.reads L.skipValue n).bind fun _ => ?_) fun _ => .pure _ fun _ h => h
    exact .ite (fun _ => fail _) fun _ => .pure _ fun _ h => h
  | ok key =>
    unfold structEntry
    simp only
    cases hres : d.resolve r key with
    | none => exact (L.reads_unknownEntry n d ignoreKey off key).bind fun _ => .pure _ fun _ h => h
    | some i =>
      have hlt := resolve_lt hres
      simp only [List.getElem?_eq_getElem hlt]
      exact (L.reads_memberEntry (hdec _ (List.getElem_mem hlt)) i off key seen).bind fun _ =>
        .pure _ fun _ h => h

theorem rests_structLoop {dec : FieldMeta → Ty → D σ Unit} {n fuel : Nat} {d : StructDef}
    (hdec : ∀ f ∈ d.fields, ∀ k < n, L.Reads k (dec f.info f.ty))
    (hfuel : n ≤ fuel) (ignoreKey : Bytes) (c : M) (seen : List Nat) :
    L.Rests n (structLoop r dec d ignoreKey fuel c seen) := by
  induction fuel generalizing n c seen with
  | zero => exact .vacuous (Nat.le_zero.1 hfuel ▸ L.not_zero)
  | succ fuel ih =>
    cases n with
    | zero => exact .vacuous L.not_zero
    | succ n =>
      refine (L.rests (L.nextKey c) _).bind fun x => .ite (fun _ => ?_) fun _ => .pure _ fun _ h =>
        h
      refine (L.rests L.offset _).bind fun off => ?_
      refine (L.reads_readEntryKey n d).bind fun key => ?_
      have hentry : L.Rests n (structEntry r dec d ignoreKey off seen key) :=
        Reads.rests L fun k hk =>
          L.reads_structEntry (fun f hf => hdec f hf k (Nat.lt_succ_of_lt hk)) ignoreKey off seen
            key
      refine hentry.bind fun seen => ?_
      exact (ih (fun f hf k hk => hdec f hf k (Nat.lt_succ_of_lt hk)) (Nat.le_of_succ_le_succ hfuel)
        x.2 seen).weaken
        (fun _ h => h) fun _ _ h => L.mono (Nat.le_succ n) h

/-! ### Missing members -/

theorem eats_describeKey (kind : Kind) : Eats L.At (describeKey r kind) :=
  .ite (L.keyUint.bind fun _ => .pure _)
    (.ite (L.keySint.bind fun _ => .pure _) (L.keyText.bind fun _ => .pure _))

theorem ends_describeLoop {n fuel : Nat} (hfuel : n ≤ fuel) (c : M) (e : Error) (count : Nat) :
    Ends (L.At n) (describeLoop r fuel c e count) (fun _ _ => True) := by
  induction fuel generalizing n c e count with
  | zero => exact .vacuous (Nat.le_zero.1 hfuel ▸ L.not_zero)
  | succ fuel ih =>
    cases n with
    | zero => exact .vacuous L.not_zero
    | succ n =>
      refine (attempt (P := L.At (n + 1)) (Q := fun _ => L.At (n + 1)) fun s a t =>
        L.nextKey c _ s a t).bind fun x => ?_
      match x with
      | none => exact .pure _ fun _ _ => trivial
      | some (false, c) => exact .pure _ fun _ _ => trivial
      | some (true, c) =>
        refine ((L.rests L.keyKind (n + 1)).weaken (fun s h => h (true, c) rfl) fun _ _ h => h).bind
          fun kind => ?_
        refine (attempt fun s a t => L.eats_describeKey kind n s a t).bind fun key => ?_
        cases key with
        | none => exact .pure _ fun _ _ => trivial
        | some key =>
          -- behind the key there are fewer bytes, so the value may be passed without one
          have hskip : Ends (fun s => ∀ a, some key = some a → L.At n s) (D.attempt r.skipValue)
              (fun x s => ∀ a : Unit, x = some a → L.At n s) := by
            refine attempt fun s a t h hrun => ?_
            have hs := h key rfl
            cases n with
            | zero => exact (L.not_zero _ hs).elim
            | succ n => exact L.mono (Nat.le_succ n) (L.skipValue n s a t hs hrun)
          refine hskip.bind fun y => ?_
          cases y with
          | none => exact .pure _ fun _ _ => trivial
          | some u =>
            exact (ih (Nat.le_of_succ_le_succ hfuel) c _ _).weaken (fun s h => h u rfl) fun _ _ h =>
              h

/-- The keys of a map that starts at `s` are listed from anywhere. -/
theorem rests_describePresentKeys {n fuel : Nat} {s : σ} (hs : L.At (n + 1) s)
    (hfuel : n ≤ fuel) (k : Nat) (e : Error) :
    L.Rests k (describePresentKeys r fuel (r.save s) e) := by
  refine Ends.getReader fun here hhere => ?_
  refine (Ends.modifyReader (L.At (n + 1)) fun t _ => L.restore t hs).bind fun _ => ?_
  have hmap : Ends (L.At (n + 1)) (describeMap r fuel e) (fun _ _ => True) := by
    refine (attempt (Q := fun _ => L.At n) fun s a t => L.expectMap n s a t).bind fun c => ?_
    cases c with
    | none => exact .pure _ fun _ _ => trivial
    | some c => exact (L.ends_describeLoop hfuel c e 0).weaken (fun s h => h c rfl) fun _ _ h => h
  refine hmap.bind fun described => ?_
  exact (Ends.modifyReader _ fun t _ => L.restore t hhere).bind fun _ => .pure _ fun _ h => h

theorem rests_missingLoop {n fuel : Nat} {s : σ} (hs : L.At (n + 1) s)
    (hfuel : n ≤ fuel) (k : Nat) (d : StructDef) (off : Nat) (seen : List Nat) (fs : List Field)
    (i : Nat) (missing : Option Error) :
    L.Rests k (missingLoop r fuel d off (r.save s) seen fs i missing) := by
  induction fs generalizing i missing with
  | nil => exact .pure _ fun _ h => h
  | cons f fs ih =>
    refine .ite (fun _ => ih (i + 1) missing) fun _ => Ends.bind ?_ fun missing =>
      ih (i + 1) missing
    unfold missingMember
    refine .ite (fun _ => ?_) fun _ => ?_
    · cases missing with
      | some e => exact .pure _ fun _ h => h
      | none =>
        refine (L.rests_describePresentKeys hs hfuel k _).bind fun e => ?_
        cases r.errors with
        | collect =>
          exact (Ends.modifyReader _ fun s h => L.setCollected _ h).bind fun _ => .pure _ fun _ h =>
            h
        | failFast => exact .pure _ fun _ h => h
    · cases f.default with
      | none => exact .pure _ fun _ h => h
      | some v => exact (Ends.setOut _).focus.bind fun _ => .pure _ fun _ h => h

theorem reads_decodeMembers {dec : FieldMeta → Ty → D σ Unit} {n fuel : Nat} {d : StructDef}
    (hdec : ∀ f ∈ d.fields, ∀ k < n, L.Reads k (dec f.info f.ty))
    (hfuel : n ≤ fuel) (ignoreKey : Bytes) :
    L.Reads n (decodeMembers r fuel dec d ignoreKey) := by
  refine (L.rests L.offset _).bind fun off => Ends.getReader fun s hs => ?_
  refine (L.reads L.expectMap n).bind fun c => ?_
  refine (L.rests_structLoop hdec hfuel ignoreKey c []).bind fun seen => ?_
  refine (L.rests_missingLoop hs hfuel n d off seen d.fields 0 none).bind fun missing => ?_
  cases missing with
  | some e => exact fail e
  | none => exact .pure _ fun _ h => h

/-- The members of a struct are read behind its head; the member of a transparent one stands in its
place. -/
theorem reads_decodeStruct {dec : FieldMeta → Ty → D σ Unit} {n fuel : Nat} {d : StructDef}
    (hdec : ∀ f ∈ d.fields, ∀ k < n, L.Reads k (dec f.info f.ty))
    (htransparent : d.transparent = true → ∀ f fs, d.fields = f :: fs → L.Reads n (dec f.info f.ty))
    (hfuel : n ≤ fuel) (ignoreKey : Bytes) : L.Reads n (decodeStruct r fuel dec d ignoreKey) := by
  unfold decodeStruct
  split
  · exact L.reads_inStep _ (htransparent (by assumption) _ _ (by assumption)).focus
  · exact L.reads_decodeMembers hdec hfuel ignoreKey

/-! ### Variants -/

/-- One entry behind its key, then the rest. -/
theorem rests_consumeRest {n fuel : Nat} (hfuel : n ≤ fuel) (c : M) :
    L.Rests n (consumeRest r fuel c) := by
  induction fuel generalizing n c with
  | zero => exact .vacuous (Nat.le_zero.1 hfuel ▸ L.not_zero)
  | succ fuel ih =>
    cases n with
    | zero => exact .vacuous L.not_zero
    | succ n =>
      refine (L.rests (L.nextKey c) _).bind fun x => .ite (fun _ => ?_) fun _ => .pure _ fun _ h =>
        h
      refine (L.reads L.keyText n).bind fun _ => ?_
      refine Ends.bind (Reads.rests L fun k _ => L.reads L.skipValue k) fun _ => ?_
      exact (ih (Nat.le_of_succ_le_succ hfuel) x.2).weaken (fun _ h => h) fun _ _ h =>
        L.mono (Nat.le_succ n) h

theorem rests_findTag (tagKey : Bytes) {n fuel : Nat} (hfuel : n ≤ fuel) (c : M) :
    L.Rests n (findTag r tagKey fuel c) := by
  induction fuel generalizing n c with
  | zero => exact .vacuous (Nat.le_zero.1 hfuel ▸ L.not_zero)
  | succ fuel ih =>
    cases n with
    | zero => exact .vacuous L.not_zero
    | succ n =>
      refine (L.rests (L.nextKey c) _).bind fun x => .ite (fun _ => ?_) fun _ => .pure _ fun _ h =>
        h
      refine (L.rests L.offset _).bind fun _ => (L.reads L.keyText n).bind fun t => ?_
      refine .ite (fun _ => ?_) fun _ => ?_
      · refine (L.rests L.offset _).bind fun off => ?_
        refine Ends.bind (Reads.rests L fun k _ => L.reads L.expectText k) fun tv => ?_
        refine (L.rests_consumeRest (Nat.le_of_succ_le_succ hfuel) x.2).bind fun _ => ?_
        exact .pure _ fun _ h => L.mono (Nat.le_succ n) h
      · refine Ends.bind (Reads.rests L fun k _ => L.reads L.skipValue k) fun _ => ?_
        exact (ih (Nat.le_of_succ_le_succ hfuel) x.2).weaken (fun _ h => h) fun _ _ h =>
          L.mono (Nat.le_succ n) h

theorem rests_externalLoop {dec : D σ Unit} {n fuel : Nat} (hdec : ∀ k < n, L.Reads k dec)
    (hfuel : n ≤ fuel) (tagKey : Bytes) (c : M) (haveValue : Bool) :
    L.Rests n (externalLoop r dec tagKey fuel c haveValue) := by
  induction fuel generalizing n c haveValue with
  | zero => exact .vacuous (Nat.le_zero.1 hfuel ▸ L.not_zero)
  | succ fuel ih =>
    cases n with
    | zero => exact .vacuous L.not_zero
    | succ n =>
      have hloop := fun haveValue c => ih (fun k hk => hdec k (Nat.lt_succ_of_lt hk))
        (Nat.le_of_succ_le_succ hfuel) c haveValue
      refine (L.rests (L.nextKey c) _).bind fun x => .ite (fun _ => ?_) fun _ => .pure _ fun _ h =>
        h
      refine (L.rests L.offset _).bind fun _ => (L.reads L.keyText n).bind fun t => ?_
      refine .ite (fun _ => ?_) fun _ => ?_
      · refine Ends.bind (Reads.rests L fun k hk =>
          L.reads_inStep _ (hdec k (Nat.lt_succ_of_lt hk))) fun _ => ?_
        exact (hloop true x.2).weaken (fun _ h => h) fun _ _ h => L.mono (Nat.le_succ n) h
      · refine Ends.bind (Reads.rests L fun k _ => L.reads L.skipValue k) fun _ => ?_
        exact (hloop haveValue x.2).weaken (fun _ h => h) fun _ _ h => L.mono (Nat.le_succ n) h

theorem findAlternative_mem {name : Bytes} {alts : List (Bytes × Ty)} {j i : Nat} {t : Ty}
    (h : findAlternative name alts j = some (i, t)) : ∃ a ∈ alts, a.2 = t := by
  induction alts generalizing j with
  | nil => cases h
  | cons a alts ih =>
    obtain ⟨n, u⟩ := a
    unfold findAlternative at h
    cases hrest : findAlternative name alts (j + 1) with
    | some alt =>
      rw [hrest] at h
      obtain rfl : alt = (i, t) := by simpa using h
      obtain ⟨a, ha, hat⟩ := ih hrest
      exact ⟨a, List.mem_cons_of_mem _ ha, hat⟩
    | none =>
      rw [hrest] at h
      simp only at h
      split at h
      · cases h
        exact ⟨_, List.mem_cons_self, rfl⟩
      · cases h

theorem ends_chooseAlternative {P : σ → Prop} (alts : List (Bytes × Ty))
    (tagKey : Bytes) (off : Nat) (tag : Option (Nat × Bytes)) :
    Ends P (chooseAlternative env r alts tagKey off tag)
      (fun alt s => P s ∧ ∃ a ∈ alts, a.2 = alt.2) := by
  cases tag with
  | none => exact fail _
  | some tag =>
    unfold chooseAlternative
    simp only
    cases hfind : findAlternative tag.2 alts 0 with
    | none => exact fail _
    | some alt => exact .pure _ fun _ h => ⟨h, findAlternative_mem hfind⟩

theorem reads_decodeAlternative
    {dec : Ty → D σ Unit} {decStruct : StructDef → Bytes → D σ Unit} {n fuel : Nat} {t : Ty}
    (hdec : ∀ k < n, L.Reads k (dec t))
    (hstruct : ∀ d, internallyTagged env t = some d → ∀ key, L.Reads n (decStruct d key))
    (hfuel : n ≤ fuel) (alts : List (Bytes × Ty)) (tagKey : Bytes) (off i : Nat) :
    L.Reads n (decodeAlternative env r fuel dec decStruct alts tagKey off i t) := by
  unfold decodeAlternative
  cases hin : internallyTagged env t with
  | some d => exact (hstruct d hin tagKey).focus
  | none =>
    refine (L.reads L.expectMap n).bind fun c => ?_
    refine (L.rests_externalLoop (fun k hk => (hdec k hk).focus) hfuel tagKey c false).bind
      fun haveValue => ?_
    exact .ite (fun _ => .pure _ fun _ h => h) fun _ => fail _

theorem reads_decodeVariant
    {dec : Ty → D σ Unit} {decStruct : StructDef → Bytes → D σ Unit} {n fuel : Nat}
    {alts : List (Bytes × Ty)} (hdec : ∀ a ∈ alts, ∀ k < n, L.Reads k (dec a.2))
    (hstruct : ∀ a ∈ alts, ∀ d, internallyTagged env a.2 = some d →
      ∀ key, L.Reads n (decStruct d key))
    (hfuel : n ≤ fuel) {f : FieldMeta} (hf : f.tagKey.isSome = true) :
    L.Reads n (decodeVariant env r fuel dec decStruct f alts) := by
  obtain ⟨tagKey, htag⟩ := Option.isSome_iff_exists.1 hf
  unfold decodeVariant
  rw [htag]
  refine Ends.getReader fun s hs => (L.rests L.offset _).bind fun off => ?_
  refine (L.reads L.expectMap n).bind fun c => ?_
  refine (L.rests_findTag tagKey hfuel c).bind fun tag => ?_
  refine (ends_chooseAlternative alts tagKey off tag).bind fun alt => ?_
  intro b hb
  obtain ⟨-, a, ha, hat⟩ := hb
  have hrest : Ends (fun _ => True) (do
      modifyReader (r.restore (r.save s))
      D.setOut (.variant alt.1 (alt.2.zero env))
      decodeAlternative env r fuel dec decStruct alts tagKey off alt.1 alt.2)
        (fun _ => L.At n) := by
    refine (Ends.modifyReader _ fun t _ => L.restore t hs).bind fun _ =>
      (Ends.setOut _).bind fun _ => ?_
    exact L.reads_decodeAlternative (hat ▸ hdec a ha) (hat ▸ hstruct a ha) hfuel alts tagKey off
      alt.1
  exact hrest b trivial

/-! ### Every type -/

/-- With `n` bytes ahead, this much of a bound is enough. -/
theorem reads_decodeValue (U : Audited env r.traits) (fuel n : Nat) (f : FieldMeta) (t : Ty)
    (ht : U.holds f t) (hfuel : n * (U.bound + 1) + hops U.rank t < fuel) :
    L.Reads n (decodeValue env r fuel f t) := by
  induction fuel generalizing n f t with
  | zero => exact absurd hfuel (Nat.not_lt_zero _)
  | succ fuel ih =>
    have hn : n ≤ fuel := by
      have : n ≤ n * (U.bound + 1) := Nat.le_mul_of_pos_right n (Nat.succ_pos U.bound)
      omega
    -- behind a head: the bytes that it took pay for the hops of any type
    have hless : ∀ f t, U.holds f t → ∀ k < n, k * (U.bound + 1) + hops U.rank t < fuel := by
      intro f t ht k hk
      have hle := U.hops_le ht
      have hmul := Nat.mul_le_mul_right (U.bound + 1) hk
      rw [Nat.succ_mul] at hmul
      omega
    have hdec : ∀ f t, U.holds f t → ∀ k < n, L.Reads k (decodeValue env r fuel f t) :=
      fun f t ht k hk => ih k f t ht (hless f t ht k hk)
    have hmember : ∀ f t k, U.holds f t → k * (U.bound + 1) + hops U.rank t < fuel →
        L.Reads k (decodeFieldValue env r (decodeValue env r fuel f) f t) := by
      intro f t k ht hk
      exact L.reads_decodeFieldValue f U ht fun t' ht' hle => ih k f t' ht' (by omega)
    have hmembers : ∀ f id, U.holds f (.struct id) → ∀ fd ∈ (env.structs id).fields, ∀ k < n,
        L.Reads k (decodeFieldValue env r (decodeValue env r fuel fd.info) fd.info fd.ty) :=
      fun f id hid fd hfd k hk => hmember _ _ k (U.member hid fd hfd)
        (hless _ _ (U.member hid fd hfd) k hk)
    unfold decodeValue
    cases t with
    | bool => exact (L.reads L.expectBoolean n).bind fun _ => Ends.setOut _
    | char => exact L.reads_decodeChar n
    | int k => exact (L.reads_decodeInt n f k).bind fun _ => Ends.setOut _
    | float => exact (L.reads L.expectReal n).bind fun _ => Ends.setOut _
    | double => exact (L.reads L.expectReal n).bind fun _ => Ends.setOut _
    | enum e => exact L.reads_decodeEnum n f e
    | string view => exact L.reads_decodeString n f view
    | optional t =>
      refine L.reads_decodeOptional (ih n f t (U.optional ht) ?_) t
      rw [hops] at hfuel
      omega
    | variant alts =>
      refine L.reads_decodeVariant (fun a ha => hdec noField a.2 (U.alternative ht a ha)) ?_ hn
        (U.tagged ht)
      intro a ha d hin key
      have hid := U.alternative ht a ha
      cases hty : a.2 with
      | struct id =>
        rw [hty] at hin hid
        simp only [internallyTagged] at hin
        split at hin
        · cases hin
        · rename_i hplain
          cases hin
          exact L.reads_decodeStruct (hmembers _ id hid) (fun h => absurd h hplain) hn key
      | _ => simp [hty, internallyTagged] at hin
    | byteRange _ => exact L.reads_decodeBytes n f _
    | map kind kt t => exact L.reads_decodeMap (hdec f t (U.map ht)) hn f kind kt t
    | tuple ts => exact L.reads_decodeElements (fun t h => hdec f t (U.tuple ht t h)) hn
    | array m t =>
      refine .ite (fun _ => L.reads_decodeBytes n f _) fun _ =>
        L.reads_decodeElements (fun t' h => ?_) hn
      obtain rfl := List.eq_of_mem_replicate h
      exact hdec f _ (U.array ht)
    | seq kind t =>
      exact .ite (fun _ => L.reads_decodeBytes n f _) fun _ =>
        L.reads_decodeSequence (hdec f t (U.seq ht)) hn kind t
    | struct id =>
      refine L.reads_decodeStruct (hmembers f id ht) (fun htrans fd fs hfs => ?_) hn _
      have hrank := U.transparent ht htrans hfs
      rw [hops] at hfuel
      exact hmember _ _ n (U.member ht fd (hfs ▸ List.mem_cons_self)) (by omega)
    | time d => exact .ite (fun _ => L.reads_decodeTime n f d) fun h => absurd (U.time ht) h

/-- A call of the decoder ends. -/
theorem ends_decode (env : Env) (U : Audited env r.traits) {fuel n : Nat} {t : Ty}
    (ht : U.holds noField t) (hfuel : n * (U.bound + 1) + hops U.rank t < fuel) :
    L.Reads n (decode env r fuel t) := by
  intro b hb
  have hfield : L.Reads n (decodeFieldValue env r (decodeValue env r fuel noField) noField t) :=
    L.reads_decodeFieldValue noField U ht fun t' ht' hle =>
      L.reads_decodeValue U fuel n noField t' ht' (by omega)
  have h := (hfield.mapError (f := Error.finalize)) b hb
  unfold decode
  cases hm : D.mapError Error.finalize
    (decodeFieldValue env r (decodeValue env r fuel noField) noField t) b with
  | ok a b' =>
    rw [hm] at h
    cases r.errors with
    | failFast => exact h
    | collect => exact L.setCollected _ h
  | error a b' => rwa [hm] at h

end MeasureLaws

end VCodec
