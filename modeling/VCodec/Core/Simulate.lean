import VCodec.Core.Span

/-!
# Construction over two readers

Two readers of one format may differ in how much they check. If every operation of the first agrees
with that of the second, except that it may give up with an error of an excused code, then so do
their constructions of any type, as long as the first error ends a run: the first one returns the
object that the second one returns, or fails where the second one fails, or gives up.
-/

namespace VCodec

open D

/-! ### Runs that agree -/

/-- An abort with an error of an excused code. -/
def ExcusedAbort (excused : Errc → Prop) : Abort → Prop
  | .error e => excused e.code
  | _ => False

/-- Two operations of readers agree, but the first may give up. -/
abbrev OpSim {σ τ α β : Type} (excused : Errc → Prop) (R : σ → τ → Prop) (rel : α → β → Prop)
    (m : EStateM Error σ α) (n : EStateM Error τ β) : Prop :=
  Run.Simulates (fun e => excused e.code) R rel m n

/-- Two runs on one object agree, but the first may give up. -/
abbrev BuildSim {σ τ α β : Type} (excused : Errc → Prop) (R : σ → τ → Prop) (rel : α → β → Prop)
    (m : D σ α) (n : D τ β) : Prop :=
  Run.Simulates (ExcusedAbort excused) (fun b b' => R b.reader b'.reader ∧ b.out = b'.out) rel m n

namespace BuildSim

variable {σ τ α β : Type} {excused : Errc → Prop} {R : σ → τ → Prop} {rel : α → β → Prop}

theorem call {m : EStateM Error σ α} {n : EStateM Error τ β} (h : OpSim excused R rel m n) :
    BuildSim excused R rel (call m) (call n) := by
  rintro b b' ⟨hR, hout⟩
  have hagree := h b.reader b'.reader hR
  unfold D.call
  cases hm : m b.reader with
  | ok a s =>
    cases hn : n b'.reader with
    | ok a' s' =>
      rw [hm, hn] at hagree
      exact ⟨hagree.1, hagree.2, hout⟩
    | error e' s' =>
      rw [hm, hn] at hagree
      exact hagree.elim
  | error e s =>
    cases hn : n b'.reader with
    | ok a' s' =>
      rw [hm, hn] at hagree
      exact hagree
    | error e' s' => trivial

theorem fail (e e' : Error) : BuildSim excused R rel (fail e) (fail e') := .throw _ _

theorem getReader : BuildSim excused R R getReader getReader := fun _ _ h => ⟨h.1, h⟩

theorem getOut : BuildSim excused R Eq getOut getOut := fun _ _ h => ⟨h.2, h⟩

theorem setOut (v : Val) : BuildSim excused R Eq (setOut v) (setOut v) :=
  fun _ _ h => ⟨rfl, h.1, rfl⟩

theorem modifyReader {f : σ → σ} {g : τ → τ} (h : ∀ s t, R s t → R (f s) (g t)) :
    BuildSim excused R Eq (modifyReader f) (modifyReader g) := fun _ _ hb => ⟨rfl, h _ _ hb.1, hb.2⟩

theorem focus {m : D σ α} {n : D τ β} (get : Val → Val) (put : Val → Val → Val)
    (h : BuildSim excused R rel m n) :
    BuildSim excused R rel (focus get put m) (focus get put n) := by
  rintro b b' ⟨hR, hout⟩
  have hagree := h { b with out := get b.out } { b' with out := get b'.out } ⟨hR, by rw [hout]⟩
  unfold D.focus
  cases hm : m { b with out := get b.out } with
  | ok a b₁ =>
    cases hn : n { b' with out := get b'.out } with
    | ok a' b₁' =>
      rw [hm, hn] at hagree
      obtain ⟨hrel, hR₁, hout₁⟩ := hagree
      exact ⟨hrel, hR₁, by rw [hout, hout₁]⟩
    | error e' b₁' =>
      rw [hm, hn] at hagree
      exact hagree.elim
  | error e b₁ =>
    cases hn : n { b' with out := get b'.out } with
    | ok a' b₁' =>
      rw [hm, hn] at hagree
      exact hagree
    | error e' b₁' => trivial

theorem onLocal {m : D σ Unit} {n : D τ Unit} (v : Val) (h : BuildSim excused R Eq m n) :
    BuildSim excused R Eq (onLocal v m) (onLocal v n) := by
  rintro b b' ⟨hR, hout⟩
  have hagree := h { b with out := v } { b' with out := v } ⟨hR, rfl⟩
  unfold D.onLocal
  cases hm : m { b with out := v } with
  | ok a b₁ =>
    cases hn : n { b' with out := v } with
    | ok a' b₁' =>
      rw [hm, hn] at hagree
      obtain ⟨-, hR₁, hout₁⟩ := hagree
      exact ⟨hout₁, hR₁, hout⟩
    | error e' b₁' =>
      rw [hm, hn] at hagree
      exact hagree.elim
  | error e b₁ =>
    cases hn : n { b' with out := v } with
    | ok a' b₁' =>
      rw [hm, hn] at hagree
      exact hagree
    | error e' b₁' => trivial

theorem mapError {m : D σ α} {n : D τ β} {f g : Error → Error} (hf : ∀ e, (f e).code = e.code)
    (h : BuildSim excused R rel m n) : BuildSim excused R rel (mapError f m) (mapError g n) := by
  refine Run.Simulates.mapError (fun a ha => ?_) h
  cases a with
  | error e =>
    show excused (f e).code
    rwa [hf]
  | rejected => exact ha
  | outOfFuel => exact ha

/-- Equal values are passed on. -/
theorem bind_eq {γ δ : Type} {rel' : γ → δ → Prop} {m : D σ α} {n : D τ α} {f : α → D σ γ}
    {g : α → D τ δ} (hm : BuildSim excused R Eq m n)
    (hf : ∀ a, BuildSim excused R rel' (f a) (g a)) :
    BuildSim excused R rel' (do f (← m)) (do g (← n)) :=
  Run.Simulates.bind hm fun a _ hab => hab ▸ hf a

theorem same_pure (a : α) : BuildSim excused R Eq (pure a : D σ α) (pure a : D τ α) := .pure rfl

theorem same_ite {c : Prop} [Decidable c] {m₁ m₂ : D σ α} {n₁ n₂ : D τ β}
    (h₁ : c → BuildSim excused R rel m₁ n₁) (h₂ : ¬ c → BuildSim excused R rel m₂ n₂) :
    BuildSim excused R rel (if c then m₁ else m₂) (if c then n₁ else n₂) := .ite Iff.rfl h₁ h₂

end BuildSim

/-! ### Readers that agree -/

/-- The operations of `r` agree with those of `r'` up to errors of excused codes, in states related
by `R` and with map cursors related by `RMap`. Neither collects errors. -/
structure SimLaws {σ S M : Type} (r r' : Reader σ S M) (excused : Errc → Prop) where
  R : σ → σ → Prop
  RMap : M → M → Prop
  traits : r'.traits = r.traits
  duplicates : r'.duplicates = r.duplicates
  error : r'.error = r.error
  failFast : r.errors = .failFast
  failFast' : r'.errors = .failFast
  offset : OpSim excused R Eq r.offset r'.offset
  peek : OpSim excused R Eq r.peek r'.peek
  keyKind : OpSim excused R Eq r.keyKind r'.keyKind
  expectNull : OpSim excused R Eq r.expectNull r'.expectNull
  expectBoolean : OpSim excused R Eq r.expectBoolean r'.expectBoolean
  expectUint : ∀ f, OpSim excused R Eq (r.expectUint f) (r'.expectUint f)
  expectSint : ∀ f, OpSim excused R Eq (r.expectSint f) (r'.expectSint f)
  expectReal : OpSim excused R Eq r.expectReal r'.expectReal
  expectText : OpSim excused R Eq r.expectText r'.expectText
  expectBytes : ∀ f, OpSim excused R Eq (r.expectBytes f) (r'.expectBytes f)
  expectTags : ∀ ts, OpSim excused R Eq (r.expectTags ts) (r'.expectTags ts)
  readRange : ∀ t, BuildSim excused R Eq (r.readRange t) (r'.readRange t)
  expectArray : OpSim excused R Eq r.expectArray r'.expectArray
  next : ∀ c, OpSim excused R Eq (r.next c) (r'.next c)
  expectMap : OpSim excused R RMap r.expectMap r'.expectMap
  nextKey : ∀ {c c'}, RMap c c' →
    OpSim excused R (fun x y => x.1 = y.1 ∧ RMap x.2 y.2) (r.nextKey c) (r'.nextKey c')
  keyText : OpSim excused R Eq r.keyText r'.keyText
  keyUint : OpSim excused R Eq r.keyUint r'.keyUint
  keySint : OpSim excused R Eq r.keySint r'.keySint
  skipValue : OpSim excused R Eq r.skipValue r'.skipValue
  restore : ∀ {s t u v}, R s t → R u v → R (r.restore (r.save s) u) (r'.restore (r'.save t) v)

namespace SimLaws

variable {σ S M α : Type} {env : Env} {r r' : Reader σ S M} {excused : Errc → Prop}
    (L : SimLaws r r' excused)

/-- Two constructions agree. -/
abbrev Sim (m n : D σ α) : Prop := BuildSim excused L.R Eq m n

open BuildSim

variable {L}

theorem sim_inStep {step : Error → Error} (hstep : ∀ e, (step e).code = e.code)
    {m n : D σ α} (h : L.Sim m n) :
    L.Sim (inStep r step m) (inStep r' step n) := by
  have plain : ∀ (q : Reader σ S M), q.errors = .failFast →
    ∀ k : D σ α, inStep q step k = D.mapError step k := by
    intro q hq k
    funext b
    unfold inStep
    rw [hq]
    cases D.mapError step k b <;> rfl
  rw [plain r L.failFast, plain r' L.failFast']
  exact h.mapError hstep

variable (L)

/-- The end of a loop over an array, or one more element. -/
theorem sim_next (c : S) {f g : Bool × S → D σ α} (h : ∀ x, L.Sim (f x) (g x)) :
    L.Sim (do f (← call (r.next c))) (do g (← call (r'.next c))) := (call (L.next c)).bind_eq h

/-! ### Scalars, strings and bytes -/

theorem withRangeContext_code (f : FieldMeta) (t : Ty) (e : Error) :
    (withRangeContext env f t e).code = e.code := by
  unfold withRangeContext
  split <;> rfl

theorem sim_decodeUint (f : FieldMeta) (k : IntTy) :
    L.Sim (decodeUint env r f k) (decodeUint env r' f k) := by
  refine (call L.offset).bind_eq fun off => ?_
  refine ((call (L.expectUint f)).mapError (withRangeContext_code f _)).bind_eq fun u => ?_
  exact same_ite (fun _ => fail _ _) fun _ => same_pure _

theorem sim_decodeSint (f : FieldMeta) (k : IntTy) :
    L.Sim (decodeSint env r f k) (decodeSint env r' f k) := by
  refine (call L.offset).bind_eq fun off => ?_
  refine ((call (L.expectSint f)).mapError (withRangeContext_code f _)).bind_eq fun i => ?_
  exact same_ite (fun _ => fail _ _) fun _ => same_pure _

theorem sim_decodeInt (f : FieldMeta) (k : IntTy) :
    L.Sim (decodeInt env r f k) (decodeInt env r' f k) :=
  same_ite (fun _ => L.sim_decodeSint f k) fun _ => L.sim_decodeUint f k

theorem sim_decodeEnum (f : FieldMeta) (e : EnumDef) :
    L.Sim (decodeEnum env r f e) (decodeEnum env r' f e) := by
  refine (call L.offset).bind_eq fun off => ?_
  rw [L.traits]
  refine same_ite (fun _ => ?_) fun _ => ?_
  · refine (L.sim_decodeInt f e.underlying).bind_eq fun raw => ?_
    cases e.enumerators.find? fun en => en.value = raw ∧ ¬ en.skipped with
    | none => exact fail _ _
    | some en => exact setOut _
  · refine (call L.expectText).bind_eq fun t => ?_
    cases e.find t.text with
    | none => exact fail _ _
    | some en => exact setOut _

theorem sim_decodeString (f : FieldMeta) (view : Bool) :
    L.Sim (decodeString env r f view) (decodeString env r' f view) := by
  refine (call L.offset).bind_eq fun off => ?_
  refine (call L.expectText).bind_eq fun t => ?_
  exact same_ite (fun _ => fail _ _) fun _ => setOut _

theorem sim_decodeChar : L.Sim (decodeChar r) (decodeChar r') := by
  refine (call L.offset).bind_eq fun off => ?_
  refine (call L.expectText).bind_eq fun t => ?_
  match t.text with
  | [c] => exact setOut _
  | [] => exact fail _ _
  | _ :: _ :: _ => exact fail _ _

theorem sim_decodeBytes (f : FieldMeta) (t : Ty) :
    L.Sim (decodeBytes env r f t) (decodeBytes env r' f t) := by
  refine (call L.offset).bind_eq fun off => ?_
  refine (call (L.expectBytes f)).bind_eq fun b => ?_
  exact same_ite (fun _ => fail _ _) fun _ => same_ite (fun _ => setOut _) fun _ => fail _ _

theorem sim_decodeOptional {dec dec' : D σ Unit} (hdec : L.Sim dec dec') (t : Ty) :
    L.Sim (decodeOptional env r dec t) (decodeOptional env r' dec' t) := by
  refine (call L.peek).bind_eq fun kind => ?_
  refine same_ite (fun _ => ?_) fun _ => ?_
  · exact (call L.expectNull).bind_eq fun _ => setOut _
  · exact (BuildSim.setOut _).bind_eq fun _ => hdec.focus _ _

theorem sim_decodeTime (f : FieldMeta) (d : Duration) :
    L.Sim (decodeTime env r f d) (decodeTime env r' f d) := by
  refine same_ite (fun _ => ?_) fun _ => ?_
  · refine (call L.offset).bind_eq fun off => ?_
    refine (call L.expectText).bind_eq fun t => ?_
    cases env.parseTime t.text with
    | none => exact fail _ _
    | some secs => exact setOut _
  · refine (call L.peek).bind_eq fun kind => ?_
    refine same_ite (fun _ => ?_) fun _ => ?_
    · exact (call (L.expectSint _)).bind_eq fun _ => setOut _
    · exact (call L.expectReal).bind_eq fun _ => setOut _

/-! ### Arrays -/

section Arrays

theorem sim_sequenceLoop {dec dec' : D σ Unit} (hdec : L.Sim dec dec') (kind : SeqKind) (t : Ty)
    (fuel : Nat) (c : S) (i : Nat) :
    L.Sim (sequenceLoop env r dec kind t fuel c i)
      (sequenceLoop env r' dec' kind t fuel c i) := by
  induction fuel generalizing c i with
  | zero => exact .throw _ _
  | succ fuel ih =>
    refine L.sim_next c fun x => ?_
    refine same_ite (fun _ => ?_) fun _ => same_pure _
    refine ((sim_inStep (fun e => e.pushIndex_code i) hdec).onLocal _).bind_eq fun v => ?_
    refine BuildSim.getOut.bind_eq fun out => ?_
    exact (BuildSim.setOut _).bind_eq fun _ => ih x.2 (i + 1)

theorem sim_decodeSequence {dec dec' : D σ Unit} (hdec : L.Sim dec dec') (fuel : Nat)
    (kind : SeqKind) (t : Ty) :
    L.Sim (decodeSequence env r fuel dec kind t) (decodeSequence env r' fuel dec' kind t) := by
  refine (call L.expectArray).bind_eq fun c => ?_
  exact (BuildSim.setOut _).bind_eq fun _ => L.sim_sequenceLoop hdec kind t fuel c 0

theorem sim_elementsLoop {dec dec' : Ty → D σ Unit} (hdec : ∀ t, L.Sim (dec t) (dec' t))
    (off n : Nat) (ts : List Ty) (i : Nat) (c : S) :
    L.Sim (elementsLoop r dec off n ts i c) (elementsLoop r' dec' off n ts i c) := by
  induction ts generalizing i c with
  | nil => exact same_pure _
  | cons t ts ih =>
    refine L.sim_next c fun x => ?_
    refine same_ite (fun _ => ?_) fun _ => fail _ _
    exact ((sim_inStep (fun e => e.pushIndex_code i) (hdec t)).focus _ _).bind_eq fun _ =>
      ih (i + 1) x.2

theorem sim_extraLoop (fuel : Nat) (c : S) (extra : Nat) :
    L.Sim (extraLoop r fuel c extra) (extraLoop r' fuel c extra) := by
  induction fuel generalizing c extra with
  | zero => exact .throw _ _
  | succ fuel ih =>
    refine (call L.skipValue).bind_eq fun _ => ?_
    refine L.sim_next c fun x => ?_
    exact same_ite (fun _ => ih x.2 _) fun _ => same_pure _

theorem sim_decodeElements {dec dec' : Ty → D σ Unit} (hdec : ∀ t, L.Sim (dec t) (dec' t))
    (fuel : Nat) (ts : List Ty) :
    L.Sim (decodeElements r fuel dec ts) (decodeElements r' fuel dec' ts) := by
  refine (call L.offset).bind_eq fun off => ?_
  refine (call L.expectArray).bind_eq fun c => ?_
  refine (L.sim_elementsLoop hdec off ts.length ts 0 c).bind_eq fun c => ?_
  refine L.sim_next c fun x => ?_
  refine same_ite (fun _ => ?_) fun _ => same_pure _
  exact (L.sim_extraLoop fuel x.2 ts.length).bind_eq fun _ => fail _ _

end Arrays

/-! ### Maps -/

theorem sim_nextKey {c c' : M} (hc : L.RMap c c') {f g : Bool × M → D σ α}
    (h : ∀ more c c', L.RMap c c' → L.Sim (f (more, c)) (g (more, c'))) :
    L.Sim (do f (← call (r.nextKey c))) (do g (← call (r'.nextKey c'))) := by
  refine (call (L.nextKey hc)).bind ?_
  rintro ⟨more, c⟩ ⟨more', c'⟩ ⟨hmore, hc'⟩
  obtain rfl : more = more' := hmore
  exact h more c c' hc'

theorem sim_parseIntegralKey (k : IntTy) (text : Bytes) (off : Nat) :
    L.Sim (parseIntegralKey env r k text off) (parseIntegralKey env r' k text off) := by
  unfold parseIntegralKey
  match fromChars k text with
  | .value i [] => exact same_pure _
  | .value i (_ :: _) => exact fail _ _
  | .outOfRange => exact fail _ _
  | .invalid => exact fail _ _

theorem sim_decodeKey (f : FieldMeta) (m : Ty) (off : Nat) (kt : KeyTy) :
    L.Sim (decodeKey env r f m off kt) (decodeKey env r' f m off kt) := by
  cases kt with
  | text view =>
    refine (call L.keyText).bind_eq fun t => ?_
    exact same_ite (fun _ => fail _ _) fun _ => same_pure _
  | int k =>
    refine (call L.keyKind).bind_eq fun kind => ?_
    refine same_ite (fun _ => ?_) fun _ => same_ite (fun _ => ?_) fun _ => ?_
    · refine (call L.keyText).bind_eq fun t => ?_
      exact (L.sim_parseIntegralKey k t.text off).bind_eq fun _ => same_pure _
    · refine (call L.keyUint).bind_eq fun u => ?_
      exact same_ite (fun _ => fail _ _) fun _ => same_pure _
    · refine (call L.keySint).bind_eq fun i => ?_
      exact same_ite (fun _ => fail _ _) fun _ => same_pure _

theorem Key.push_code (k : Key) (e : Error) : (k.push e).code = e.code := by
  cases k <;> simp [Key.push]

theorem sim_mapEntry {dec dec' : D σ Unit} (hdec : L.Sim dec dec') (kind : MapKind) (t : Ty)
    (off : Nat) (key : Key) (es : List (Key × Val)) :
    L.Sim (mapEntry env r dec kind t off key es) (mapEntry env r' dec' kind t off key es) := by
  have hstep := sim_inStep (L := L) (fun e => Key.push_code key e) hdec
  unfold mapEntry
  rw [L.duplicates]
  match repeated kind key es, r.duplicates with
  | some _, .error => exact fail _ _
  | some _, .firstWins => exact call L.skipValue
  | some i, .lastWins => exact hstep.focus _ _
  | none, _ => exact (hstep.onLocal _).bind_eq fun _ => BuildSim.setOut _

theorem sim_mapLoop {dec dec' : D σ Unit} (hdec : L.Sim dec dec') (f : FieldMeta) (kind : MapKind)
    (kt : KeyTy) (t : Ty) (fuel : Nat) {c c' : M} (hc : L.RMap c c') :
    L.Sim (mapLoop env r dec f kind kt t fuel c) (mapLoop env r' dec' f kind kt t fuel c') := by
  induction fuel generalizing c c' with
  | zero => exact .throw _ _
  | succ fuel ih =>
    refine L.sim_nextKey hc fun more c c' hc => ?_
    refine same_ite (fun _ => ?_) fun _ => same_pure _
    refine (call L.offset).bind_eq fun off => ?_
    refine (L.sim_decodeKey f _ off kt).bind_eq fun key => ?_
    refine BuildSim.getOut.bind_eq fun out => ?_
    exact (L.sim_mapEntry hdec kind t off key _).bind_eq fun _ => ih hc

theorem sim_decodeMap {dec dec' : D σ Unit} (hdec : L.Sim dec dec') (fuel : Nat) (f : FieldMeta)
    (kind : MapKind) (kt : KeyTy) (t : Ty) :
    L.Sim (decodeMap env r fuel dec f kind kt t) (decodeMap env r' fuel dec' f kind kt t) := by
  refine (call L.expectMap).bind fun c c' hc => ?_
  exact (BuildSim.setOut _).bind_eq fun _ => L.sim_mapLoop hdec f kind kt t fuel hc

/-! ### Members -/

theorem sim_decodeTags (f : FieldMeta) (tags : List Nat) :
    L.Sim (decodeTags r f tags) (decodeTags r' f tags) := by
  refine same_ite (fun _ => same_pure _) fun _ => (call (L.expectTags tags)).mapError fun e => ?_
  split <;> rfl

theorem sim_decodeBulk {dec dec' : D σ Unit} (hdec : L.Sim dec dec') (f : FieldMeta) (t : Ty) :
    L.Sim (decodeBulk r dec f t) (decodeBulk r' dec' f t) := by
  unfold decodeBulk
  rw [L.traits]
  refine same_ite (fun _ => ?_) fun _ => hdec
  exact (L.readRange t).bind_eq fun handled => same_ite (fun _ => same_pure _) fun _ => hdec

theorem sim_decodeFieldValue {dec dec' : Ty → D σ Unit} (hdec : ∀ t, L.Sim (dec t) (dec' t))
    (f : FieldMeta) (t : Ty) :
    L.Sim (decodeFieldValue env r dec f t) (decodeFieldValue env r' dec' f t) := by
  fun_induction decodeFieldValue env r dec f t with
  | case1 t ih =>
    rw [decodeFieldValue]
    exact L.sim_decodeOptional ih t
  | case2 t h =>
    rw [decodeFieldValue.eq_2 env r' dec' f t h, L.traits]
    exact (L.sim_decodeTags f _).bind_eq fun _ => L.sim_decodeBulk (hdec t) f t

/-! ### Structs -/

include L in
theorem resolve_eq (d : StructDef) (key : EntryKey) : d.resolve r' key = d.resolve r key := by
  cases key <;> simp only [StructDef.resolve, L.traits]

theorem sim_readEntryKey (d : StructDef) : L.Sim (readEntryKey r d) (readEntryKey r' d) := by
  have hkind : L.Sim (entryKeyKind r d) (entryKeyKind r' d) := by
    unfold entryKeyKind StructDef.anyIntegerKey
    rw [L.traits]
    exact same_ite (fun _ => call L.keyKind) fun _ => same_pure _
  refine hkind.bind_eq fun kind => ?_
  refine same_ite (fun _ => ?_) fun _ => same_ite (fun _ => ?_) fun _ => ?_
  · exact (call L.keyUint).bind_eq fun u => same_ite (fun _ => same_pure _) fun _ => same_pure _
  · exact (call L.keySint).bind_eq fun i => same_pure _
  · exact (call L.keyText).bind_eq fun t => same_pure _

theorem sim_reportKey (e e' : Error) : L.Sim (reportKey r e) (reportKey r' e') := by
  unfold reportKey
  rw [L.failFast, L.failFast']
  exact fail _ _

theorem sim_unknownEntry (d : StructDef) (ignoreKey : Bytes) (off : Nat) (key : EntryKey) :
    L.Sim (unknownEntry r d ignoreKey off key) (unknownEntry r' d ignoreKey off key) :=
  same_ite (fun _ => call L.skipValue) fun _ => same_ite (fun _ => L.sim_reportKey _ _) fun _ =>
    call L.skipValue

theorem sim_recover {m n : D σ Unit} (h : L.Sim m n) : L.Sim (recover r m) (recover r' n) := by
  have plain : ∀ (q : Reader σ S M), q.errors = .failFast → ∀ k : D σ Unit, recover q k = k := by
    intro q hq k
    funext b
    unfold recover
    rw [hq]
  rwa [plain r L.failFast, plain r' L.failFast']

theorem sim_memberEntry {dec dec' : FieldMeta → Ty → D σ Unit}
    (hdec : ∀ f t, L.Sim (dec f t) (dec' f t))
    (i : Nat) (f : Field) (off : Nat) (key : EntryKey) (seen : List Nat) :
    L.Sim (memberEntry r dec i f off key seen) (memberEntry r' dec' i f off key seen) := by
  unfold memberEntry
  rw [L.duplicates]
  refine same_ite (fun _ => call L.skipValue) fun _ =>
    same_ite (fun _ => L.sim_reportKey _ _) fun _ => ?_
  refine same_ite (fun _ => call L.skipValue) fun _ => L.sim_recover ?_
  exact sim_inStep (fun e => e.pushMember_code _) ((hdec f.info f.ty).focus _ _)

theorem sim_structEntry {dec dec' : FieldMeta → Ty → D σ Unit}
    (hdec : ∀ f t, L.Sim (dec f t) (dec' f t))
    (d : StructDef) (ignoreKey : Bytes) (off : Nat) (seen : List Nat) (key : Except Nat EntryKey) :
    L.Sim (structEntry r dec d ignoreKey off seen key)
      (structEntry r' dec' d ignoreKey off seen key) := by
  cases key with
  | error u =>
    refine ((call L.skipValue).bind_eq fun _ => ?_).bind_eq fun _ => same_pure _
    exact same_ite (fun _ => fail _ _) fun _ => same_pure _
  | ok key =>
    unfold structEntry
    simp only [L.resolve_eq]
    cases d.resolve r key with
    | none => exact (L.sim_unknownEntry d ignoreKey off key).bind_eq fun _ => same_pure _
    | some i =>
      simp only
      cases d.fields[i]? with
      | none => exact .throw _ _
      | some f => exact (L.sim_memberEntry hdec i f off key seen).bind_eq fun _ => same_pure _

theorem sim_structLoop {dec dec' : FieldMeta → Ty → D σ Unit}
    (hdec : ∀ f t, L.Sim (dec f t) (dec' f t))
    (d : StructDef) (ignoreKey : Bytes) (fuel : Nat) {c c' : M} (hc : L.RMap c c')
    (seen : List Nat) :
    L.Sim (structLoop r dec d ignoreKey fuel c seen)
      (structLoop r' dec' d ignoreKey fuel c' seen) := by
  induction fuel generalizing c c' seen with
  | zero => exact .throw _ _
  | succ fuel ih =>
    refine L.sim_nextKey hc fun more c c' hc => ?_
    refine same_ite (fun _ => ?_) fun _ => same_pure _
    refine (call L.offset).bind_eq fun off => ?_
    refine (L.sim_readEntryKey d).bind_eq fun key => ?_
    exact (L.sim_structEntry hdec d ignoreKey off seen key).bind_eq fun seen => ih hc seen

/-- A search for missing members that cannot end well any more: it has found one, or has failed. -/
def Doomed {σ : Type} : EStateM.Result Abort (Build σ) (Option Error) → Prop
  | .ok (some _) _ => True
  | .ok none _ => False
  | .error _ _ => True

/-- The search goes on alike over both readers until a member is missing. The listing of the keys
that is then built may differ. -/
def SameSearch (x y : EStateM.Result Abort (Build σ) (Option Error)) : Prop :=
  (∃ b b', x = .ok none b ∧ y = .ok none b' ∧ L.R b.reader b'.reader ∧ b.out = b'.out) ∨
    (Doomed x ∧ Doomed y)

variable {L}

theorem doomed_missingLoop {q : Reader σ S M} {fuel off save i : Nat} {d : StructDef}
    {seen : List Nat} {fs : List Field} {e : Error} {b : Build σ} :
    Doomed (missingLoop q fuel d off save seen fs i (some e) b) := by
  induction fs generalizing i e b with
  | nil => trivial
  | cons f fs ih =>
    unfold missingLoop
    split
    · exact ih
    by_cases hreq : f.required = true
    · rw [Run.bind_apply, missingMember, if_pos hreq]
      exact ih
    · rw [Run.bind_apply, missingMember, if_neg hreq]
      cases f.default with
      | none => exact ih
      | some v => exact ih

theorem doomed_reportMissing
    {q : Reader σ S M} (hq : q.errors = .failFast) {fuel off save : Nat} {d : StructDef} {f : Field}
    {b : Build σ} : Doomed (reportMissing q fuel d off save f none b) := by
  rw [reportMissing, Run.bind_apply, hq]
  cases describePresentKeys q fuel save (missingFieldError q d f off) b <;> trivial

theorem Doomed.missingLoop {q : Reader σ S M} {fuel off save i : Nat} {d : StructDef}
    {seen : List Nat} {fs : List Field} {m : D σ (Option Error)} {b : Build σ} (h : Doomed (m b)) :
    Doomed ((do missingLoop q fuel d off save seen fs i (← m)) b) := by
  rw [Run.bind_apply]
  cases hm : m b with
  | error a b₁ => trivial
  | ok x b₁ =>
    cases x with
    | none =>
      rw [hm] at h
      exact h.elim
    | some e => exact doomed_missingLoop

variable (L) in
theorem sameSearch_missingLoop
    (fuel off save save' : Nat) (d : StructDef) (seen : List Nat) (fs : List Field)
    (i : Nat) {b b' : Build σ} (hR : L.R b.reader b'.reader) (hout : b.out = b'.out) :
    L.SameSearch (missingLoop r fuel d off save seen fs i none b)
      (missingLoop r' fuel d off save' seen fs i none b') := by
  induction fs generalizing i b b' with
  | nil => exact .inl ⟨b, b', rfl, rfl, hR, hout⟩
  | cons f fs ih =>
    unfold missingLoop
    split
    · exact ih (i + 1) hR hout
    by_cases hreq : f.required = true
    · refine .inr ⟨Doomed.missingLoop ?_, Doomed.missingLoop ?_⟩
      · rw [missingMember, if_pos hreq]
        exact doomed_reportMissing L.failFast
      · rw [missingMember, if_pos hreq]
        exact doomed_reportMissing L.failFast'
    · rw [Run.bind_apply, Run.bind_apply, missingMember, if_neg hreq, missingMember, if_neg hreq]
      cases f.default with
      | none => exact ih (i + 1) hR hout
      | some v => exact ih (i + 1) hR (by rw [hout])

theorem sim_missing {fuel off save save' : Nat} {d : StructDef} {seen : List Nat} {fs : List Field}
    {i : Nat} :
    L.Sim
      (do
        match ← missingLoop r fuel d off save seen fs i none with
        | some e => D.fail e
        | none => return)
      (do
        match ← missingLoop r' fuel d off save' seen fs i none with
        | some e => D.fail e
        | none => return) := by
  rintro b b' ⟨hR, hout⟩
  rw [Run.bind_apply, Run.bind_apply]
  obtain ⟨b₁, b₁', hm, hn, hR₁, hout₁⟩ | ⟨hm, hn⟩ :=
    L.sameSearch_missingLoop fuel off save save' d seen fs i hR hout
  · rw [hm, hn]
    exact ⟨rfl, hR₁, hout₁⟩
  · cases hx : missingLoop r fuel d off save seen fs i none b with
    | error a b₁ =>
      cases hy : missingLoop r' fuel d off save' seen fs i none b' with
      | error a' b₁' => trivial
      | ok y b₁' =>
        rw [hy] at hn
        cases y with
        | none => exact hn.elim
        | some e => trivial
    | ok x b₁ =>
      rw [hx] at hm
      cases x with
      | none => exact hm.elim
      | some e =>
        cases hy : missingLoop r' fuel d off save' seen fs i none b' with
        | error a' b₁' => trivial
        | ok y b₁' =>
          rw [hy] at hn
          cases y with
          | none => exact hn.elim
          | some e => trivial

variable (L)

theorem sim_decodeMembers
    {dec dec' : FieldMeta → Ty → D σ Unit} (hdec : ∀ f t, L.Sim (dec f t) (dec' f t))
    (fuel : Nat) (d : StructDef) (ignoreKey : Bytes) :
    L.Sim (decodeMembers r fuel dec d ignoreKey) (decodeMembers r' fuel dec' d ignoreKey) := by
  refine (call L.offset).bind_eq fun off => ?_
  refine BuildSim.getReader.bind fun s s' hs => ?_
  refine (call L.expectMap).bind fun c c' hc => ?_
  exact (L.sim_structLoop hdec d ignoreKey fuel hc []).bind_eq fun seen => sim_missing

theorem sim_decodeStruct
    {dec dec' : FieldMeta → Ty → D σ Unit} (hdec : ∀ f t, L.Sim (dec f t) (dec' f t))
    (fuel : Nat) (d : StructDef) (ignoreKey : Bytes) :
    L.Sim (decodeStruct r fuel dec d ignoreKey) (decodeStruct r' fuel dec' d ignoreKey) := by
  unfold decodeStruct
  split
  · exact sim_inStep (fun e => e.pushMember_code _) ((hdec _ _).focus _ _)
  · exact L.sim_decodeMembers hdec fuel d ignoreKey

/-! ### Variants -/

theorem sim_consumeRest (fuel : Nat) {c c' : M} (hc : L.RMap c c') :
    L.Sim (consumeRest r fuel c) (consumeRest r' fuel c') := by
  induction fuel generalizing c c' with
  | zero => exact .throw _ _
  | succ fuel ih =>
    refine L.sim_nextKey hc fun more c c' hc => ?_
    refine same_ite (fun _ => ?_) fun _ => same_pure _
    refine (call L.keyText).bind_eq fun _ => ?_
    exact (call L.skipValue).bind_eq fun _ => ih hc

theorem sim_findTag (tagKey : Bytes) (fuel : Nat) {c c' : M} (hc : L.RMap c c') :
    L.Sim (findTag r tagKey fuel c) (findTag r' tagKey fuel c') := by
  induction fuel generalizing c c' with
  | zero => exact .throw _ _
  | succ fuel ih =>
    refine L.sim_nextKey hc fun more c c' hc => ?_
    refine same_ite (fun _ => ?_) fun _ => same_pure _
    refine (call L.offset).bind_eq fun _ => ?_
    refine (call L.keyText).bind_eq fun t => same_ite (fun _ => ?_) fun _ => ?_
    · refine (call L.offset).bind_eq fun off => ?_
      refine (call L.expectText).bind_eq fun tv => ?_
      exact (L.sim_consumeRest fuel hc).bind_eq fun _ => same_pure _
    · exact (call L.skipValue).bind_eq fun _ => ih hc

theorem sim_externalLoop {dec dec' : D σ Unit} (hdec : L.Sim dec dec') (tagKey : Bytes)
    (fuel : Nat) {c c' : M} (hc : L.RMap c c') (haveValue : Bool) :
    L.Sim (externalLoop r dec tagKey fuel c haveValue)
      (externalLoop r' dec' tagKey fuel c' haveValue) := by
  induction fuel generalizing c c' haveValue with
  | zero => exact .throw _ _
  | succ fuel ih =>
    refine L.sim_nextKey hc fun more c c' hc => ?_
    refine same_ite (fun _ => ?_) fun _ => same_pure _
    refine (call L.offset).bind_eq fun _ => ?_
    refine (call L.keyText).bind_eq fun t => same_ite (fun _ => ?_) fun _ => ?_
    · exact (sim_inStep (fun e => e.pushMember_code _) hdec).bind_eq fun _ => ih hc true
    · exact (call L.skipValue).bind_eq fun _ => ih hc haveValue

theorem sim_chooseAlternative (alts : List (Bytes × Ty))
    (tagKey : Bytes) (off : Nat) (tag : Option (Nat × Bytes)) :
    L.Sim (chooseAlternative env r alts tagKey off tag)
      (chooseAlternative env r' alts tagKey off tag) := by
  cases tag with
  | none => exact fail _ _
  | some tag =>
    unfold chooseAlternative
    simp only
    cases findAlternative tag.2 alts 0 with
    | none => exact fail _ _
    | some alt => exact same_pure _

theorem sim_decodeAlternative {dec dec' : Ty → D σ Unit} (hdec : ∀ t, L.Sim (dec t) (dec' t))
    {decStruct decStruct' : StructDef → Bytes → D σ Unit}
    (hstruct : ∀ d k, L.Sim (decStruct d k) (decStruct' d k))
    (fuel : Nat) (alts : List (Bytes × Ty)) (tagKey : Bytes) (off i : Nat) (t : Ty) :
    L.Sim (decodeAlternative env r fuel dec decStruct alts tagKey off i t)
      (decodeAlternative env r' fuel dec' decStruct' alts tagKey off i t) := by
  unfold decodeAlternative
  cases internallyTagged env t with
  | some d => exact (hstruct d tagKey).focus _ _
  | none =>
    refine (call L.expectMap).bind fun c c' hc => ?_
    refine (L.sim_externalLoop ((hdec t).focus _ _) tagKey fuel hc false).bind_eq
      fun haveValue => ?_
    exact same_ite (fun _ => same_pure _) fun _ => fail _ _

theorem sim_decodeVariant {dec dec' : Ty → D σ Unit} (hdec : ∀ t, L.Sim (dec t) (dec' t))
    {decStruct decStruct' : StructDef → Bytes → D σ Unit}
    (hstruct : ∀ d k, L.Sim (decStruct d k) (decStruct' d k))
    (fuel : Nat) (f : FieldMeta) (alts : List (Bytes × Ty)) :
    L.Sim (decodeVariant env r fuel dec decStruct f alts)
      (decodeVariant env r' fuel dec' decStruct' f alts) := by
  unfold decodeVariant
  cases f.tagKey with
  | none => exact .throw _ _
  | some tagKey =>
    refine BuildSim.getReader.bind fun s s' hs => ?_
    refine (call L.offset).bind_eq fun off => ?_
    refine (call L.expectMap).bind fun c c' hc => ?_
    refine (L.sim_findTag tagKey fuel hc).bind_eq fun tag => ?_
    refine (L.sim_chooseAlternative alts tagKey off tag).bind_eq fun alt => ?_
    refine (BuildSim.modifyReader fun u v huv => L.restore hs huv).bind_eq fun _ => ?_
    exact (BuildSim.setOut _).bind_eq fun _ =>
      L.sim_decodeAlternative hdec hstruct fuel alts tagKey off alt.1 alt.2

/-! ### Every type -/

theorem sim_decodeValue (fuel : Nat) (f : FieldMeta) (t : Ty) :
    L.Sim (decodeValue env r fuel f t) (decodeValue env r' fuel f t) := by
  induction fuel generalizing f t with
  | zero => exact .throw _ _
  | succ fuel ih =>
    have hfield : ∀ f t, L.Sim (decodeFieldValue env r (decodeValue env r fuel f) f t)
        (decodeFieldValue env r' (decodeValue env r' fuel f) f t) :=
      fun f t => L.sim_decodeFieldValue (ih f) f t
    have assigned : ∀ {α : Type} {m n : D σ α} (g : α → Val), L.Sim m n →
        L.Sim (do D.setOut (g (← m))) (do D.setOut (g (← n))) :=
      fun g h => h.bind_eq fun a => BuildSim.setOut _
    unfold decodeValue
    cases t with
    | bool => exact assigned _ (call L.expectBoolean)
    | char => exact L.sim_decodeChar
    | int k => exact assigned _ (L.sim_decodeInt f k)
    | float => exact assigned _ (call L.expectReal)
    | double => exact assigned _ (call L.expectReal)
    | enum e => exact L.sim_decodeEnum f e
    | string view => exact L.sim_decodeString f view
    | optional t => exact L.sim_decodeOptional (ih f t) t
    | variant alts =>
      exact L.sim_decodeVariant (ih noField) (fun d k => L.sim_decodeStruct hfield fuel d k) fuel f
        alts
    | byteRange _ => exact L.sim_decodeBytes f _
    | map kind kt t => exact L.sim_decodeMap (ih f t) fuel f kind kt t
    | tuple ts => exact L.sim_decodeElements (ih f) fuel ts
    | array n t =>
      simp only [L.traits]
      exact same_ite (fun _ => L.sim_decodeBytes f _) fun _ => L.sim_decodeElements (ih f) fuel _
    | seq kind t =>
      simp only [L.traits]
      exact same_ite (fun _ => L.sim_decodeBytes f _) fun _ =>
        L.sim_decodeSequence (ih f t) fuel kind t
    | struct id => exact L.sim_decodeStruct hfield fuel _ _
    | time d =>
      simp only [L.traits]
      exact same_ite (fun _ => L.sim_decodeTime f d) fun _ => .throw _ _

/-- The calls of the decoder agree, too. -/
theorem sim_decode (fuel : Nat) (t : Ty) : L.Sim (decode env r fuel t) (decode env r' fuel t) := by
  have plain : ∀ (q : Reader σ S M), q.errors = .failFast → decode env q fuel t =
      D.mapError Error.finalize
        (decodeFieldValue env q (decodeValue env q fuel noField) noField t) := by
    intro q hq
    funext b
    unfold decode
    rw [hq]
    cases D.mapError Error.finalize
      (decodeFieldValue env q (decodeValue env q fuel noField) noField t) b <;> rfl
  rw [plain r L.failFast, plain r' L.failFast']
  exact (L.sim_decodeFieldValue (fun t => L.sim_decodeValue fuel noField t) noField t).mapError
    fun e => e.finalize_code

end SimLaws

end VCodec
