import VCodec.Core.Span
import VCodec.Library.Triple

/-!
# What construction reports

Every error that a construction ends with, and every one that it collects, describes a part of the
input: its offset lies in the input, its length does not leave it, its position is that of its
offset, and its path keeps as many steps as a path may have. `Reports` lists what a format has to
say about its reader for that; what is proved from it holds of every type, every input and every
run, whether it returns, fails or uses up its bound.
-/

namespace VCodec

open D
open Run (Triple Ends)

/-! ### Errors about an input -/

/-- An input as its errors see it: its size, how far a length may reach beyond it, the position of
an offset, and the codes that its format reports. -/
structure Ground where
  size : Nat
  slack : Nat
  place : Nat → Option LineCol
  codes : Errc → Prop

/-- `n` bytes from `offset` on. -/
def Ground.Spans (g : Ground) (offset n : Nat) : Prop := offset + n ≤ g.size + g.slack

structure Description (g : Ground) (code : Errc) (offset length : Nat) (position : Option LineCol)
    (container : Option Nat)
    (steps : List PathStep) (truncated : Bool) : Prop where
  known : g.codes code
  inside : offset ≤ g.size
  extent : g.Spans offset length
  placed : position = g.place offset
  begun : ∀ c ∈ container, c = offset
  short : steps.length ≤ maxPathSteps
  full : truncated = true → steps.length = maxPathSteps

/-- The error describes a part of the input. -/
def Error.Describes (g : Ground) (e : Error) : Prop :=
  Description g e.code e.offset e.length e.position e.containerOffset e.steps e.truncated

/-- The error as the caller gets it: it describes the input, and its path begins at the root. -/
def Error.Reported (g : Ground) (e : Error) : Prop :=
  e.Describes g ∧ (e.finalized = true ∨ e.steps = [])

namespace Error

variable {g : Ground} {e : Error}

theorem Describes.withLength (h : e.Describes g) {n : Nat} (hn : g.Spans e.offset n) :
    (e.withLength n).Describes g :=
  ⟨h.known, h.inside, hn, h.placed, h.begun, h.short, h.full⟩

theorem Describes.withContainerOffset (h : e.Describes g) :
    (e.withContainerOffset e.offset).Describes g :=
  ⟨h.known, h.inside, h.extent, h.placed, fun _ hc => (Option.mem_some_iff.1 hc).symm, h.short,
    h.full⟩

theorem Describes.push (h : e.Describes g) (s : PathStep) : (e.push s).Describes g := by
  have hsteps := h.short
  unfold Error.push
  split
  · split
    · rename_i hfull
      have hdrop : (s :: e.steps.drop 1).length = maxPathSteps := by
        simp only [List.length_cons, List.length_drop, maxPathSteps] at hfull hsteps ⊢
        omega
      exact ⟨h.known, h.inside, h.extent, h.placed, h.begun, hdrop.le, fun _ => hdrop⟩
    · rename_i hroom
      refine ⟨h.known, h.inside, h.extent, h.placed, h.begun, ?_,
        fun ht => absurd (h.full ht).ge hroom⟩
      exact Nat.not_le.1 hroom
  · split
    · rename_i hfull
      exact ⟨h.known, h.inside, h.extent, h.placed, h.begun, hsteps, fun _ => hsteps.antisymm hfull⟩
    · rename_i hroom
      refine ⟨h.known, h.inside, h.extent, h.placed, h.begun, ?_,
        fun ht => absurd (h.full ht).ge hroom⟩
      show (e.steps ++ [s]).length ≤ maxPathSteps
      rw [List.length_append]
      exact Nat.not_le.1 hroom

theorem Describes.finalize (h : e.Describes g) : e.finalize.Describes g := by
  unfold Error.finalize
  split
  · exact h
  · have hlength : e.steps.reverse.length = e.steps.length := List.length_reverse
    exact ⟨h.known, h.inside, h.extent, h.placed, h.begun, hlength ▸ h.short,
      fun ht => hlength ▸ h.full ht⟩

theorem Describes.withCandidates (h : e.Describes g) (texts : List Bytes) :
    (withCandidates texts e).Describes g := by
  induction texts generalizing e with
  | nil => exact h
  | cons t texts ih => exact ih (e := e.withCandidate t) h

theorem Describes.reported (h : e.Describes g) : e.finalize.Reported g := by
  refine ⟨h.finalize, .inl ?_⟩
  unfold Error.finalize
  split
  · assumption
  · rfl

end Error

def Abort.Describes (g : Ground) : Abort → Prop
  | .error e => e.Describes g
  | .rejected => True
  | .outOfFuel => True

/-! ### What a format says -/

/-- The codes of the errors that construction itself makes. -/
def Errc.constructed : Errc → Bool
  | .typeMismatch | .missingField | .unknownField | .duplicateKey | .outOfRange | .unknownEnumerator
  | .noVariantAlternative | .missingTag | .escapeInBorrowedString | .indefiniteInBorrowedString =>
    true
  | _ => false

/-- A call of the reader that leaves it in good order, whatever it returns or reports. -/
abbrev Reporting {σ α : Type} (g : Ground) (good P : σ → Prop) (m : EStateM Error σ α)
    (Q : α → σ → Prop) : Prop :=
  Triple P m Q fun e s => e.Describes g ∧ good s

/-- A run on an object that leaves the reader in good order. -/
abbrev ReportingRun {σ α : Type} (g : Ground) (good P : σ → Prop) (m : D σ α) (Q : α → σ → Prop) :
    Prop :=
  Triple (fun b => P b.reader) m (fun a b => Q a b.reader) fun x b => x.Describes g ∧ good b.reader

/-- `At p` holds of the states at `p` or behind it whose collected errors describe the input. -/
structure Reports {σ S M : Type} (r : Reader σ S M) (g : Ground) where
  At : Nat → σ → Prop
  mono : ∀ {p q s}, q ≤ p → At p s → At q s
  constructed : ∀ {c : Errc}, c.constructed = true → g.codes c
  error : ∀ c off, r.error c off = { code := c, offset := off, position := g.place off }
  collected : ∀ {p s}, At p s → ∀ e ∈ r.collected s, e.Describes g
  setCollected : ∀ {p s es}, At p s → (∀ e ∈ es, e.Describes g) → At p (r.setCollected es s)
  collected_setCollected : ∀ es s, r.collected (r.setCollected es s) = es
  restore : ∀ {p q s t}, At p s → At q t → At 0 (r.restore (r.save s) t)
  offset : Reporting g (At 0) (At 0) r.offset fun off s => off ≤ g.size ∧ At off s
  peek : Reporting g (At 0) (At 0) r.peek fun _ => At 0
  keyKind : ∀ p, Reporting g (At 0) (At p) r.keyKind fun _ => At p
  expectNull : Reporting g (At 0) (At 0) r.expectNull fun _ => At 0
  expectBoolean : Reporting g (At 0) (At 0) r.expectBoolean fun _ => At 0
  expectUint : ∀ f, Reporting g (At 0) (At 0) (r.expectUint f) fun _ => At 0
  expectSint : ∀ f, Reporting g (At 0) (At 0) (r.expectSint f) fun _ => At 0
  expectReal : Reporting g (At 0) (At 0) r.expectReal fun _ => At 0
  expectText : ∀ p, Reporting g (At 0) (At p) r.expectText fun t s =>
    (g.Spans p (t.text.length + 2) ∧ g.Spans p t.rawLength) ∧ At 0 s
  expectBytes : ∀ f, Reporting g (At 0) (At 0) (r.expectBytes f) fun _ => At 0
  expectTags : ∀ ts, Reporting g (At 0) (At 0) (r.expectTags ts) fun _ => At 0
  readRange : ∀ t, ReportingRun g (At 0) (At 0) (r.readRange t) fun _ => At 0
  expectArray : Reporting g (At 0) (At 0) r.expectArray fun _ => At 0
  next : ∀ c, Reporting g (At 0) (At 0) (r.next c) fun _ => At 0
  expectMap : Reporting g (At 0) (At 0) r.expectMap fun _ => At 0
  nextKey : ∀ c, Reporting g (At 0) (At 0) (r.nextKey c) fun _ => At 0
  keyText : ∀ p, Reporting g (At 0) (At p) r.keyText fun t s => g.Spans p (t.text.length + 2) ∧
    At 0 s
  keyUint : Reporting g (At 0) (At 0) r.keyUint fun _ => At 0
  keySint : Reporting g (At 0) (At 0) r.keySint fun _ => At 0
  skipValue : Reporting g (At 0) (At 0) r.skipValue fun _ => At 0

namespace Reports

variable {σ S M α β : Type} {env : Env} {r : Reader σ S M} {g : Ground} (L : Reports r g)

abbrev Runs (P : σ → Prop) (m : D σ α) (Q : α → σ → Prop) : Prop := ReportingRun g (L.At 0) P m Q

/-- From a good state to a good state. -/
abbrev Tells (m : D σ α) : Prop := L.Runs (L.At 0) m fun _ => L.At 0

theorem at_zero {p : Nat} {s : σ} (h : L.At p s) : L.At 0 s := L.mono (Nat.zero_le p) h

/-! ### Steps of a run -/

variable {L}

theorem call {P : σ → Prop} {m : EStateM Error σ α} {Q : α → σ → Prop}
    (h : Reporting g (L.At 0) P m Q) :
    L.Runs P (D.call m) Q := by
  intro b hb
  have hends := h b.reader hb
  unfold D.call
  cases hm : m b.reader with
  | ok a s =>
    rw [hm] at hends
    exact hends
  | error e s =>
    rw [hm] at hends
    exact hends

/-- A call whose error is dropped. -/
theorem attempt {m : EStateM Error σ α} (h : Reporting g (L.At 0) (L.At 0) m fun _ => L.At 0) :
    L.Tells (D.attempt m) := by
  intro b hb
  have hends := h b.reader hb
  unfold D.attempt
  cases hm : m b.reader with
  | ok a s =>
    rw [hm] at hends
    exact hends
  | error e s =>
    rw [hm] at hends
    exact hends.2

theorem fail {p : Nat} {e : Error} {Q : α → σ → Prop} (h : e.Describes g) :
    L.Runs (L.At p) (D.fail e : D σ α) Q :=
  fun _ hb => ⟨h, L.at_zero hb⟩

theorem throw {p : Nat} {x : Abort} {Q : α → σ → Prop} (h : x.Describes g) :
    L.Runs (L.At p) (MonadExcept.throw x : D σ α) Q := fun _ hb => ⟨h, L.at_zero hb⟩

theorem same {p : Nat} (a : α) : L.Runs (L.At p) (Pure.pure a : D σ α) fun _ => L.At 0 :=
  fun _ hb => L.at_zero hb

theorem getOut {P : σ → Prop} : L.Runs P D.getOut fun _ => P := fun _ hb => hb

theorem setOut {p : Nat} (v : Val) : L.Runs (L.At p) (D.setOut v) fun _ => L.At 0 :=
  fun _ hb => L.at_zero hb

/-- What the reader is now, is a place to return to. -/
theorem getReader {p : Nat} :
    L.Runs (L.At p) D.getReader fun s s' => (∀ t, L.At 0 t → L.At 0 (r.restore (r.save s) t)) ∧
      L.At p s' :=
  fun _ hb => ⟨fun _ ht => L.restore hb ht, hb⟩

theorem modifyReader {f : σ → σ} (h : ∀ s, L.At 0 s → L.At 0 (f s)) : L.Tells (D.modifyReader f) :=
  fun b hb => h b.reader hb

theorem focus {get : Val → Val} {put : Val → Val → Val} {P : σ → Prop} {m : D σ α}
    {Q : α → σ → Prop} (h : L.Runs P m Q) :
    L.Runs P (D.focus get put m) Q := by
  intro b hb
  have hends := h { b with out := get b.out } hb
  unfold D.focus
  cases hm : m { b with out := get b.out } with
  | ok a b₁ =>
    rw [hm] at hends
    exact hends
  | error x b₁ =>
    rw [hm] at hends
    exact hends

theorem onLocal {v : Val} {P : σ → Prop} {m : D σ Unit} (h : L.Runs P m fun _ => L.At 0) :
    L.Runs P (D.onLocal v m) fun _ => L.At 0 := by
  intro b hb
  have hends := h { b with out := v } hb
  unfold D.onLocal
  cases hm : m { b with out := v } with
  | ok a b₁ =>
    rw [hm] at hends
    exact hends
  | error x b₁ =>
    rw [hm] at hends
    exact hends

theorem mapError {f : Error → Error} {P : σ → Prop} {m : D σ α} {Q : α → σ → Prop}
    (hf : ∀ e, e.Describes g → (f e).Describes g) (h : L.Runs P m Q) :
    L.Runs P (D.mapError f m) Q := by
  refine Triple.mapError h fun x b hx => ⟨?_, hx.2⟩
  cases x with
  | error e => exact hf e hx.1
  | rejected => trivial
  | outOfFuel => trivial

variable (L)

theorem collect {e : Error} (h : e.Describes g) : L.Tells (D.collect r e) := by
  refine modifyReader fun s hs => L.setCollected hs fun e' he' => ?_
  rcases List.mem_append.1 he' with he' | he'
  · exact L.collected hs e' he'
  · exact List.mem_singleton.1 he' ▸ h

theorem inStep {step : Error → Error} (hstep : ∀ e, e.Describes g → (step e).Describes g)
    {m : D σ α} (h : L.Tells m) :
    L.Tells (D.inStep r step m) := by
  intro b hb
  have hends := mapError hstep h b hb
  -- what has been collected since describes the input with the step as well as without it
  have hmark : ∀ b₁ : Build σ, L.At 0 b₁.reader → ∀ n, L.At 0
      (r.setCollected ((r.collected b₁.reader).take n ++ ((r.collected b₁.reader).drop n).map step)
        b₁.reader) := by
    intro b₁ hb₁ n
    refine L.setCollected hb₁ fun e he => ?_
    rcases List.mem_append.1 he with he | he
    · exact L.collected hb₁ e (List.mem_of_mem_take he)
    · obtain ⟨e', he', rfl⟩ := List.mem_map.1 he
      exact hstep e' (L.collected hb₁ e' (List.mem_of_mem_drop he'))
  unfold D.inStep
  cases hm : D.mapError step m b with
  | ok a b₁ =>
    rw [hm] at hends
    cases r.errors with
    | failFast => exact hends
    | collect => exact hmark b₁ hends _
  | error x b₁ =>
    rw [hm] at hends
    cases r.errors with
    | failFast => exact hends
    | collect => exact ⟨hends.1, hmark b₁ hends.2 _⟩

include L in
/-- An error that construction makes, before anything is added to it. -/
theorem made {c : Errc} (hc : c.constructed = true) {off : Nat} (hoff : off ≤ g.size) :
    (r.error c off).Describes g := by
  rw [L.error]
  refine ⟨L.constructed hc, hoff, ?_, rfl, fun c hc => (Option.not_mem_none c hc).elim,
    Nat.zero_le _, fun h => Bool.noConfusion h⟩
  exact Nat.le_add_right_of_le hoff

include L in
theorem error_offset (c : Errc) (off : Nat) : (r.error c off).offset = off := by
  rw [L.error]

include L in
/-- An error about a text, of which the input has at least as many bytes. -/
theorem madeOf {c : Errc} (hc : c.constructed = true) {off n : Nat} (hoff : off ≤ g.size)
    (hn : g.Spans off n) :
    ((r.error c off).withLength n).Describes g :=
  (L.made hc hoff).withLength (by rwa [L.error_offset])

include L in
/-- An error about a container. -/
theorem madeAt {c : Errc} (hc : c.constructed = true) {off : Nat} (hoff : off ≤ g.size) :
    ((r.error c off).withContainerOffset off).Describes g := by
  have h := (L.made hc hoff).withContainerOffset
  rwa [L.error_offset] at h

/-! ### Scalars, strings and bytes -/

theorem describes_withRangeContext (f : FieldMeta) (t : Ty) {e : Error} (h : e.Describes g) :
    (withRangeContext env f t e).Describes g := by
  unfold withRangeContext
  split
  · exact h
  · exact h

theorem tells_decodeUint (f : FieldMeta) (k : IntTy) : L.Tells (decodeUint env r f k) := by
  refine (call L.offset).bind fun off => .given fun hoff => ?_
  refine ((mapError (fun _ => describes_withRangeContext f _) (call (L.expectUint f))).pre fun _ =>
    L.at_zero).bind fun u => ?_
  exact .ite (fun _ => fail (L.made rfl hoff)) fun _ => same _

theorem tells_decodeSint (f : FieldMeta) (k : IntTy) : L.Tells (decodeSint env r f k) := by
  refine (call L.offset).bind fun off => .given fun hoff => ?_
  refine ((mapError (fun _ => describes_withRangeContext f _) (call (L.expectSint f))).pre fun _ =>
    L.at_zero).bind fun i => ?_
  exact .ite (fun _ => fail (L.made rfl hoff)) fun _ => same _

theorem tells_decodeInt (f : FieldMeta) (k : IntTy) : L.Tells (decodeInt env r f k) :=
  .ite (fun _ => L.tells_decodeSint f k) fun _ => L.tells_decodeUint f k

theorem spans_textLength
    {p : Nat} {t : TextRef} (h : g.Spans p (t.text.length + 2) ∧ g.Spans p t.rawLength) :
    g.Spans p (textLength t) := by
  unfold textLength
  split
  · exact h.2
  · exact h.1

theorem tells_decodeEnum (f : FieldMeta) (e : EnumDef) : L.Tells (decodeEnum env r f e) := by
  refine (call L.offset).bind fun off => .given fun hoff => .ite (fun _ => ?_) fun _ => ?_
  · refine ((L.tells_decodeInt f e.underlying).pre fun _ => L.at_zero).bind fun raw => ?_
    cases e.enumerators.find? fun en => en.value = raw ∧ ¬ en.skipped with
    | none =>
      refine fail (.withCandidates ?_ _)
      exact L.made rfl hoff
    | some en => exact setOut _
  · refine (call (L.expectText off)).bind fun t => .given fun ht => ?_
    cases e.find t.text with
    | none =>
      refine fail (.withCandidates ?_ _)
      exact L.madeOf rfl hoff (spans_textLength ht)
    | some en => exact setOut _

theorem tells_decodeString (f : FieldMeta) (view : Bool) : L.Tells (decodeString env r f view) := by
  refine (call L.offset).bind fun off => .given fun hoff => ?_
  refine (call (L.expectText off)).bind fun t => .given fun ht => ?_
  exact .ite (fun _ => fail (L.madeOf rfl hoff (spans_textLength ht))) fun _ => setOut _

theorem tells_decodeChar : L.Tells (decodeChar r) := by
  refine (call L.offset).bind fun off => .given fun hoff => ?_
  refine (call (L.expectText off)).bind fun t => .given fun ht => ?_
  match htext : t.text with
  | [c] => exact setOut _
  | [] => exact fail (L.madeOf rfl hoff (htext ▸ ht.1))
  | _ :: _ :: _ => exact fail (L.madeOf rfl hoff (htext ▸ ht.1))

theorem tells_decodeBytes (f : FieldMeta) (t : Ty) : L.Tells (decodeBytes env r f t) := by
  refine (call L.offset).bind fun off => .given fun hoff => ?_
  refine ((call (L.expectBytes f)).pre fun _ => L.at_zero).bind fun b => ?_
  exact .ite (fun _ => fail (L.made rfl hoff)) fun _ => .ite (fun _ => setOut _) fun _ =>
    fail (L.made rfl hoff)

theorem tells_decodeOptional {dec : D σ Unit} (hdec : L.Tells dec) (t : Ty) :
    L.Tells (decodeOptional env r dec t) := by
  refine (call L.peek).bind fun kind => .ite (fun _ => ?_) fun _ => ?_
  · exact (call L.expectNull).bind fun _ => setOut _
  · exact (setOut _).bind fun _ => focus hdec

theorem tells_decodeTime (f : FieldMeta) (d : Duration) : L.Tells (decodeTime env r f d) := by
  refine .ite (fun _ => ?_) fun _ => ?_
  · refine (call L.offset).bind fun off => .given fun hoff => ?_
    refine (call (L.expectText off)).bind fun t => .given fun ht => ?_
    cases env.parseTime t.text with
    | none =>
      refine fail (L.madeOf rfl hoff ?_)
      split
      · exact ht.2
      · exact Nat.le_trans (Nat.add_le_add_left (Nat.le_add_right _ 2) off) ht.1
    | some secs => exact setOut _
  · refine (call L.peek).bind fun kind => .ite (fun _ => ?_) fun _ => ?_
    · exact (call (L.expectSint _)).bind fun _ => setOut _
    · exact (call L.expectReal).bind fun _ => setOut _

/-! ### Arrays -/

theorem tells_sequenceLoop {dec : D σ Unit} (hdec : L.Tells dec) (kind : SeqKind) (t : Ty)
    (fuel : Nat) (c : S) (i : Nat) :
    L.Tells (sequenceLoop env r dec kind t fuel c i) := by
  induction fuel generalizing c i with
  | zero => exact throw trivial
  | succ fuel ih =>
    refine (call (L.next c)).bind fun x => .ite (fun _ => ?_) fun _ => same _
    refine (onLocal (L.inStep (fun e he => he.push _) hdec)).bind fun v => ?_
    exact getOut.bind fun out => (setOut _).bind fun _ => ih x.2 (i + 1)

theorem tells_decodeSequence
    {dec : D σ Unit} (hdec : L.Tells dec) (fuel : Nat) (kind : SeqKind) (t : Ty) :
    L.Tells (decodeSequence env r fuel dec kind t) :=
  (call L.expectArray).bind fun c => (setOut _).bind fun _ =>
    L.tells_sequenceLoop hdec kind t fuel c 0

theorem tells_elementsLoop {dec : Ty → D σ Unit} (hdec : ∀ t, L.Tells (dec t))
    {off : Nat} (hoff : off ≤ g.size) (n : Nat) (ts : List Ty) (i : Nat) (c : S) :
    L.Tells (elementsLoop r dec off n ts i c) := by
  induction ts generalizing i c with
  | nil => exact same _
  | cons t ts ih =>
    refine (call (L.next c)).bind fun x => .ite (fun _ => ?_) fun _ => fail (L.made rfl hoff)
    exact (focus (L.inStep (fun e he => he.push _) (hdec t))).bind fun _ => ih (i + 1) x.2

theorem tells_extraLoop (fuel : Nat) (c : S) (extra : Nat) :
    L.Tells (extraLoop r fuel c extra) := by
  induction fuel generalizing c extra with
  | zero => exact throw trivial
  | succ fuel ih =>
    refine (call L.skipValue).bind fun _ => (call (L.next c)).bind fun x => ?_
    exact .ite (fun _ => ih x.2 _) fun _ => same _

theorem tells_decodeElements {dec : Ty → D σ Unit} (hdec : ∀ t, L.Tells (dec t))
    (fuel : Nat) (ts : List Ty) :
    L.Tells (decodeElements r fuel dec ts) := by
  refine (call L.offset).bind fun off => .given fun hoff => ?_
  refine ((call L.expectArray).pre fun _ => L.at_zero).bind fun c => ?_
  refine (L.tells_elementsLoop hdec hoff ts.length ts 0 c).bind fun c => ?_
  refine (call (L.next c)).bind fun x => .ite (fun _ => ?_) fun _ => same _
  exact (L.tells_extraLoop fuel x.2 ts.length).bind fun _ => fail (L.made rfl hoff)

/-! ### Maps -/

/-- The input has at least as many bytes from `off` on as a text key has. -/
def KeySpans (g : Ground) (off : Nat) : Key → Prop
  | .text s => g.Spans off (s.length + 2)
  | .int _ => True

theorem runs_parseIntegralKey
    (k : IntTy) {text : Bytes} {off : Nat} (hoff : off ≤ g.size)
    (ht : g.Spans off (text.length + 2)) :
    L.Tells (parseIntegralKey env r k text off) := by
  unfold parseIntegralKey
  match fromChars k text with
  | .value i [] => exact same _
  | .value i (_ :: _) => exact fail (L.madeOf rfl hoff ht)
  | .outOfRange => exact fail (L.made rfl hoff)
  | .invalid => exact fail (L.madeOf rfl hoff ht)

/-- From the key on, what is known of the key and the state behind it. -/
abbrev RunsKey (off : Nat) (m : D σ α) (spans : α → Prop) : Prop :=
  L.Runs (L.At off) m fun k s => spans k ∧ L.At 0 s

theorem runs_key {p : Nat} {spans : α → Prop} {a : α} (h : spans a) :
    L.Runs (L.At p) (Pure.pure a : D σ α) fun k s => spans k ∧ L.At 0 s :=
  fun _ hb => ⟨h, L.at_zero hb⟩

theorem fail_key {p : Nat} {spans : α → Prop} {e : Error} (h : e.Describes g) :
    L.Runs (L.At p) (D.fail e : D σ α) fun k s => spans k ∧ L.At 0 s :=
  fun _ hb => ⟨h, L.at_zero hb⟩

theorem runs_decodeKey (f : FieldMeta) (m : Ty) {off : Nat} (hoff : off ≤ g.size) (kt : KeyTy) :
    L.RunsKey off (decodeKey env r f m off kt) (KeySpans g off) := by
  cases kt with
  | text view =>
    refine (call (L.keyText off)).bind fun t => .given fun ht => ?_
    refine .ite (fun _ => ?_) fun _ => ?_
    · exact L.fail_key (L.made rfl hoff)
    · exact L.runs_key ht
  | int k =>
    refine (call (L.keyKind off)).bind fun kind => .ite (fun _ => ?_) fun _ =>
      .ite (fun _ => ?_) fun _ => ?_
    · refine (call (L.keyText off)).bind fun t => .given fun ht => ?_
      exact (L.runs_parseIntegralKey k hoff ht).bind fun i => L.runs_key trivial
    · refine ((call L.keyUint).pre fun _ => L.at_zero).bind fun u => ?_
      exact .ite (fun _ => L.fail_key (L.made rfl hoff)) fun _ => L.runs_key trivial
    · refine ((call L.keySint).pre fun _ => L.at_zero).bind fun i => ?_
      exact .ite (fun _ => L.fail_key (L.made rfl hoff)) fun _ => L.runs_key trivial

theorem describes_keyPush (k : Key) {e : Error} (h : e.Describes g) : (k.push e).Describes g := by
  cases k with
  | text s => exact h.push _
  | int i => exact h.push _

theorem tells_mapEntry {dec : D σ Unit} (hdec : L.Tells dec) (kind : MapKind) (t : Ty) {off : Nat}
    (hoff : off ≤ g.size) {key : Key} (hkey : KeySpans g off key) (es : List (Key × Val)) :
    L.Tells (mapEntry env r dec kind t off key es) := by
  have hstep := L.inStep (fun e he => describes_keyPush key he) hdec
  unfold mapEntry
  match repeated kind key es, r.duplicates with
  | some _, .error =>
    refine fail (describes_keyPush key ?_)
    cases key with
    | text s => exact L.madeOf rfl hoff hkey
    | int i => exact L.made rfl hoff
  | some _, .firstWins => exact call L.skipValue
  | some i, .lastWins => exact focus hstep
  | none, _ => exact (onLocal hstep).bind fun _ => setOut _

theorem tells_mapLoop {dec : D σ Unit} (hdec : L.Tells dec) (f : FieldMeta) (kind : MapKind)
    (kt : KeyTy) (t : Ty) (fuel : Nat) (c : M) :
    L.Tells (mapLoop env r dec f kind kt t fuel c) := by
  induction fuel generalizing c with
  | zero => exact throw trivial
  | succ fuel ih =>
    refine (call (L.nextKey c)).bind fun x => .ite (fun _ => ?_) fun _ => same _
    refine (call L.offset).bind fun off => .given fun hoff => ?_
    refine (L.runs_decodeKey f _ hoff kt).bind fun key => .given fun hkey => ?_
    exact getOut.bind fun out => (L.tells_mapEntry hdec kind t hoff hkey _).bind fun _ => ih x.2

theorem tells_decodeMap {dec : D σ Unit} (hdec : L.Tells dec) (fuel : Nat) (f : FieldMeta)
    (kind : MapKind) (kt : KeyTy) (t : Ty) : L.Tells (decodeMap env r fuel dec f kind kt t) :=
  (call L.expectMap).bind fun c => (setOut _).bind fun _ => L.tells_mapLoop hdec f kind kt t fuel c

/-! ### Members -/

theorem tells_decodeTags (f : FieldMeta) (tags : List Nat) : L.Tells (decodeTags r f tags) := by
  refine .ite (fun _ => same _) fun _ => mapError (fun e he => ?_) (call (L.expectTags tags))
  split
  · exact he
  · exact he

theorem tells_decodeBulk {dec : D σ Unit} (hdec : L.Tells dec) (f : FieldMeta) (t : Ty) :
    L.Tells (decodeBulk r dec f t) :=
  .ite (fun _ => (L.readRange t).bind fun _ => .ite (fun _ => same _) fun _ => hdec) fun _ => hdec

theorem tells_decodeFieldValue {dec : Ty → D σ Unit} (hdec : ∀ t, L.Tells (dec t))
    (f : FieldMeta) (t : Ty) :
    L.Tells (decodeFieldValue env r dec f t) := by
  fun_induction decodeFieldValue env r dec f t with
  | case1 t ih => exact L.tells_decodeOptional ih t
  | case2 t h => exact (L.tells_decodeTags f _).bind fun _ => L.tells_decodeBulk (hdec t) f t

/-! ### Structs -/

def EntryKeySpans (g : Ground) (off : Nat) : Except Nat EntryKey → Prop
  | .ok (.text k) => g.Spans off (k.length + 2)
  | .ok (.int _) => True
  | .error _ => True

theorem runs_readEntryKey (d : StructDef) (off : Nat) :
    L.RunsKey off (readEntryKey r d) (EntryKeySpans g off) := by
  have hkind : L.Runs (L.At off) (entryKeyKind r d) fun _ => L.At off :=
    .ite (fun _ => call (L.keyKind off)) fun _ => fun _ hb => hb
  refine hkind.bind fun kind => .ite (fun _ => ?_) fun _ => .ite (fun _ => ?_) fun _ => ?_
  · refine ((call L.keyUint).pre fun _ => L.at_zero).bind fun u => ?_
    exact .ite (fun _ => L.runs_key trivial) fun _ => L.runs_key trivial
  · exact ((call L.keySint).pre fun _ => L.at_zero).bind fun i => L.runs_key trivial
  · exact (call (L.keyText off)).bind fun t => .given fun ht => L.runs_key ht

theorem describes_entryPush (k : EntryKey) {e : Error} (h : e.Describes g) :
    (k.push e).Describes g := by
  cases k with
  | text s => exact h.push _
  | int i => exact h.push _

include L in
theorem describes_keyErrorAt
    {c : Errc} (hc : c.constructed = true) {off : Nat} (hoff : off ≤ g.size) {key : EntryKey}
    (hkey : EntryKeySpans g off (.ok key)) : (keyErrorAt r c off key).Describes g := by
  cases key with
  | text k => exact L.madeOf hc hoff hkey
  | int i => exact L.made hc hoff

include L in
theorem describes_unknownFieldError
    (d : StructDef) {off : Nat} (hoff : off ≤ g.size) {key : EntryKey}
    (hkey : EntryKeySpans g off (.ok key)) : (unknownFieldError r d off key).Describes g := by
  have h := L.describes_keyErrorAt rfl hoff hkey (c := .unknownField)
  refine describes_entryPush key ?_
  cases key with
  | text k =>
    simp only
    split
    · exact h
    · exact h
  | int i => exact h

theorem tells_reportKey {e : Error} (h : e.Describes g) : L.Tells (reportKey r e) := by
  unfold reportKey
  cases r.errors with
  | failFast => exact fail h
  | collect => exact (L.collect h).bind fun _ => call L.skipValue

/-- A failure that is recorded leaves the reader at the value, which is skipped. -/
theorem tells_recover {m : D σ Unit} (h : L.Tells m) : L.Tells (recover r m) := by
  intro b hb
  have hends := h b hb
  unfold recover
  cases r.errors with
  | failFast => exact hends
  | collect =>
    cases hm : m b with
    | ok a b₁ =>
      rw [hm] at hends
      exact hends
    | error x b₁ =>
      rw [hm] at hends
      cases x with
      | rejected => exact hends
      | outOfFuel => exact hends
      | error e =>
        simp only
        split
        · exact hends
        · refine ((L.collect hends.1).bind fun _ => (modifyReader fun t ht => ?_).bind fun _ =>
            call L.skipValue) b₁ hends.2
          exact L.restore hb ht

theorem tells_unknownEntry
    (d : StructDef) (ignoreKey : Bytes) {off : Nat} (hoff : off ≤ g.size) {key : EntryKey}
    (hkey : EntryKeySpans g off (.ok key)) : L.Tells (unknownEntry r d ignoreKey off key) :=
  .ite (fun _ => call L.skipValue) fun _ =>
    .ite (fun _ => L.tells_reportKey (L.describes_unknownFieldError d hoff hkey)) fun _ =>
      call L.skipValue

theorem tells_memberEntry {dec : FieldMeta → Ty → D σ Unit} (hdec : ∀ f t, L.Tells (dec f t))
    (i : Nat) (f : Field) {off : Nat} (hoff : off ≤ g.size) {key : EntryKey}
    (hkey : EntryKeySpans g off (.ok key)) (seen : List Nat) :
    L.Tells (memberEntry r dec i f off key seen) := by
  refine .ite (fun _ => call L.skipValue) fun _ => .ite (fun _ => ?_) fun _ =>
    .ite (fun _ => call L.skipValue) fun _ => ?_
  · exact L.tells_reportKey (describes_entryPush key (L.describes_keyErrorAt rfl hoff hkey))
  · exact L.tells_recover (L.inStep (fun e he => he.push _) (focus (hdec f.info f.ty)))

include L in
theorem describes_bigKeyError (d : StructDef) {off : Nat} (hoff : off ≤ g.size) (u : Nat) :
    (bigKeyError r d off u).Describes g := by
  have h : ((((r.error .unknownField off).withDetail (decimal u)).withContext
    d.name).withDenyUnknown).Describes g :=
    L.made rfl hoff
  exact h.push _

theorem tells_bigKeyEntry (d : StructDef) {off : Nat} (hoff : off ≤ g.size) (u : Nat) :
    L.Tells (bigKeyEntry r d off u) :=
  (call L.skipValue).bind fun _ => .ite (fun _ => fail (L.describes_bigKeyError d hoff u)) fun _ =>
    same _

theorem tells_structEntry {dec : FieldMeta → Ty → D σ Unit} (hdec : ∀ f t, L.Tells (dec f t))
    (d : StructDef) (ignoreKey : Bytes) {off : Nat} (hoff : off ≤ g.size)
    (seen : List Nat) {key : Except Nat EntryKey} (hkey : EntryKeySpans g off key) :
    L.Tells (structEntry r dec d ignoreKey off seen key) := by
  cases key with
  | error u => exact (L.tells_bigKeyEntry d hoff u).bind fun _ => same _
  | ok key =>
    unfold structEntry
    simp only
    cases d.resolve r key with
    | none => exact (L.tells_unknownEntry d ignoreKey hoff hkey).bind fun _ => same _
    | some i =>
      simp only
      cases d.fields[i]? with
      | none => exact throw trivial
      | some f => exact (L.tells_memberEntry hdec i f hoff hkey seen).bind fun _ => same _

theorem tells_structLoop {dec : FieldMeta → Ty → D σ Unit} (hdec : ∀ f t, L.Tells (dec f t))
    (d : StructDef) (ignoreKey : Bytes) (fuel : Nat) (c : M) (seen : List Nat) :
    L.Tells (structLoop r dec d ignoreKey fuel c seen) := by
  induction fuel generalizing c seen with
  | zero => exact throw trivial
  | succ fuel ih =>
    refine (call (L.nextKey c)).bind fun x => .ite (fun _ => ?_) fun _ => same _
    refine (call L.offset).bind fun off => .given fun hoff => ?_
    refine (L.runs_readEntryKey d off).bind fun key => .given fun hkey => ?_
    exact (L.tells_structEntry hdec d ignoreKey hoff seen hkey).bind fun seen => ih x.2 seen

/-! ### Members that are missing -/

theorem calls_describeKey (kind : Kind) :
    Reporting g (L.At 0) (L.At 0) (describeKey r kind) fun _ => L.At 0 := by
  refine .ite (fun _ => ?_) fun _ => .ite (fun _ => ?_) fun _ => ?_
  · exact L.keyUint.bind fun _ => .pure fun _ hs => hs
  · exact L.keySint.bind fun _ => .pure fun _ hs => hs
  · exact (L.keyText 0).bind fun _ => .pure fun _ hs => hs.2

/-- The error with the keys that a listing has met so far. -/
abbrev RunsListing (m : D σ (Error × Nat)) : Prop :=
  L.Runs (L.At 0) m fun x s => x.1.Describes g ∧ L.At 0 s

theorem runs_describeLoop (fuel : Nat) (c : M) {e : Error} (he : e.Describes g) (count : Nat) :
    L.RunsListing (describeLoop r fuel c e count) := by
  have hdone : ∀ n, L.RunsListing (Pure.pure (e, n)) := fun n _ hb => ⟨he, hb⟩
  induction fuel generalizing c e count with
  | zero => exact throw trivial
  | succ fuel ih =>
    refine (attempt (L.nextKey c)).bind fun x => ?_
    match x with
    | none => exact hdone count
    | some (false, _) => exact hdone count
    | some (true, c) =>
      refine (call (L.keyKind 0)).bind fun kind =>
        (attempt (L.calls_describeKey kind)).bind fun key => ?_
      cases key with
      | none => exact hdone count
      | some key =>
        have he' : (e.withCandidate key).Describes g := he
        refine (attempt L.skipValue).bind fun u => ?_
        cases u with
        | none => exact fun _ hb => ⟨he', hb⟩
        | some u => exact ih c he' (count + 1) fun n _ hb => ⟨he', hb⟩

theorem runs_describeMap (fuel : Nat) {e : Error} (he : e.Describes g) :
    L.RunsListing (describeMap r fuel e) := by
  refine (attempt L.expectMap).bind fun x => ?_
  cases x with
  | none => exact fun _ hb => ⟨he, hb⟩
  | some c => exact L.runs_describeLoop fuel c he 0

/-- A saved place that a run may return to. -/
def Restorable (save : Nat) : Prop := ∀ t, L.At 0 t → L.At 0 (r.restore save t)

theorem runs_describePresentKeys
    (fuel : Nat) {save : Nat} (hsave : L.Restorable save) {e : Error} (he : e.Describes g) :
    L.Runs (L.At 0) (describePresentKeys r fuel save e) fun e s => e.Describes g ∧ L.At 0 s := by
  refine getReader.bind fun here => .given fun hhere => ?_
  refine (modifyReader hsave).bind fun _ => ?_
  refine (L.runs_describeMap fuel he).bind fun described => .given fun hdescribed => ?_
  exact (modifyReader hhere).bind fun _ => fun _ hb => ⟨hdescribed, hb⟩

include L in
theorem describes_missingFieldError (d : StructDef) (f : Field) {off : Nat} (hoff : off ≤ g.size) :
    (missingFieldError r d f off).Describes g := by
  have h := L.madeAt rfl hoff (c := .missingField)
  unfold missingFieldError
  simp only
  cases r.traits.integerKey d f with
  | none => exact h
  | some k => exact h

/-- The first error about a missing member, if there is one yet. -/
abbrev RunsMissing (m : D σ (Option Error)) : Prop :=
  L.Runs (L.At 0) m fun x s => (∀ e ∈ x, e.Describes g) ∧ L.At 0 s

theorem runs_reportMissing (fuel : Nat) (d : StructDef) {off save : Nat} (hoff : off ≤ g.size)
    (hsave : L.Restorable save) (f : Field) {missing : Option Error}
    (hmissing : ∀ e ∈ missing, e.Describes g) :
    L.RunsMissing (reportMissing r fuel d off save f missing) := by
  cases missing with
  | some e => exact fun _ hb => ⟨hmissing, hb⟩
  | none =>
    refine (L.runs_describePresentKeys fuel hsave (L.describes_missingFieldError d f hoff)).bind
      fun e => .given fun he => ?_
    cases r.errors with
    | failFast => exact fun _ hb => ⟨fun e' he' => Option.mem_some_iff.1 he' ▸ he, hb⟩
    | collect => exact (L.collect he).bind fun _ => fun _ hb => ⟨hmissing, hb⟩

theorem runs_missingMember (fuel : Nat) (d : StructDef) {off save : Nat} (hoff : off ≤ g.size)
    (hsave : L.Restorable save) (i : Nat) (f : Field) {missing : Option Error}
    (hmissing : ∀ e ∈ missing, e.Describes g) :
    L.RunsMissing (missingMember r fuel d off save i f missing) := by
  refine .ite (fun _ => L.runs_reportMissing fuel d hoff hsave f hmissing) fun _ => ?_
  cases f.default with
  | none => exact fun _ hb => ⟨hmissing, hb⟩
  | some v => exact (focus (setOut _)).bind fun _ => fun _ hb => ⟨hmissing, hb⟩

theorem runs_missingLoop (fuel : Nat) (d : StructDef) {off save : Nat} (hoff : off ≤ g.size)
    (hsave : L.Restorable save) (seen : List Nat) (fs : List Field)
    (i : Nat) {missing : Option Error} (hmissing : ∀ e ∈ missing, e.Describes g) :
    L.RunsMissing (missingLoop r fuel d off save seen fs i missing) := by
  induction fs generalizing i missing with
  | nil => exact fun _ hb => ⟨hmissing, hb⟩
  | cons f fs ih =>
    refine .ite (fun _ => ih (i + 1) hmissing) fun _ => ?_
    exact (L.runs_missingMember fuel d hoff hsave i f hmissing).bind fun missing => .given fun h =>
      ih (i + 1) h

theorem tells_decodeMembers {dec : FieldMeta → Ty → D σ Unit} (hdec : ∀ f t, L.Tells (dec f t))
    (fuel : Nat) (d : StructDef) (ignoreKey : Bytes) :
    L.Tells (decodeMembers r fuel dec d ignoreKey) := by
  refine (call L.offset).bind fun off => .given fun hoff => ?_
  refine getReader.bind fun s => .given fun hsave => ?_
  refine ((call L.expectMap).pre fun _ => L.at_zero).bind fun c => ?_
  refine (L.tells_structLoop hdec d ignoreKey fuel c []).bind fun seen => ?_
  refine (L.runs_missingLoop fuel d hoff hsave seen _ 0 fun e he => by cases he).bind fun missing =>
    .given fun hmissing => ?_
  cases missing with
  | none => exact same _
  | some e => exact fail (hmissing e rfl)

theorem tells_decodeStruct {dec : FieldMeta → Ty → D σ Unit} (hdec : ∀ f t, L.Tells (dec f t))
    (fuel : Nat) (d : StructDef) (ignoreKey : Bytes) :
    L.Tells (decodeStruct r fuel dec d ignoreKey) := by
  unfold decodeStruct
  split
  · exact L.inStep (fun e he => he.push _) (focus (hdec _ _))
  · exact L.tells_decodeMembers hdec fuel d ignoreKey

/-! ### Variants -/

theorem tells_consumeRest (fuel : Nat) (c : M) : L.Tells (consumeRest r fuel c) := by
  induction fuel generalizing c with
  | zero => exact throw trivial
  | succ fuel ih =>
    refine (call (L.nextKey c)).bind fun x => .ite (fun _ => ?_) fun _ => same _
    refine (call (L.keyText 0)).bind fun _ => .given fun _ => ?_
    exact (call L.skipValue).bind fun _ => ih x.2

/-- The discriminator's value, and where it stands. -/
def TagSpans (g : Ground) (tag : Option (Nat × Bytes)) : Prop :=
  ∀ off name, tag = some (off, name) → off ≤ g.size ∧ g.Spans off (name.length + 2)

theorem runs_findTag (tagKey : Bytes) (fuel : Nat) (c : M) :
    L.Runs (L.At 0) (findTag r tagKey fuel c) fun tag s => TagSpans g tag ∧ L.At 0 s := by
  induction fuel generalizing c with
  | zero => exact throw trivial
  | succ fuel ih =>
    refine (call (L.nextKey c)).bind fun x => .ite (fun _ => ?_) fun _ => fun _ hb =>
      ⟨fun _ _ h => (nomatch h), hb⟩
    refine (call L.offset).bind fun off => .given fun _ => ?_
    refine (call (L.keyText off)).bind fun t => .given fun _ => .ite (fun _ => ?_) fun _ => ?_
    · refine (call L.offset).bind fun off => .given fun hoff => ?_
      refine (call (L.expectText off)).bind fun tv => .given fun htv => ?_
      refine (L.tells_consumeRest fuel x.2).bind fun _ => fun _ hb => ⟨fun off' name h => ?_, hb⟩
      cases h
      exact ⟨hoff, htv.1⟩
    · exact (call L.skipValue).bind fun _ => ih x.2

theorem tells_externalLoop {dec : D σ Unit} (hdec : L.Tells dec) (tagKey : Bytes) (fuel : Nat)
    (c : M) (haveValue : Bool) :
    L.Tells (externalLoop r dec tagKey fuel c haveValue) := by
  induction fuel generalizing c haveValue with
  | zero => exact throw trivial
  | succ fuel ih =>
    refine (call (L.nextKey c)).bind fun x => .ite (fun _ => ?_) fun _ => same _
    refine (call L.offset).bind fun off => .given fun _ => ?_
    refine (call (L.keyText off)).bind fun t => .given fun _ => .ite (fun _ => ?_) fun _ => ?_
    · exact (L.inStep (fun e he => he.push _) hdec).bind fun _ => ih x.2 true
    · exact (call L.skipValue).bind fun _ => ih x.2 haveValue

theorem tells_chooseAlternative (alts : List (Bytes × Ty))
    (tagKey : Bytes) {off : Nat} (hoff : off ≤ g.size) {tag : Option (Nat × Bytes)}
    (htag : TagSpans g tag) : L.Tells (chooseAlternative env r alts tagKey off tag) := by
  cases tag with
  | none =>
    refine fail (.withCandidates ?_ _)
    exact L.madeAt rfl hoff
  | some tag =>
    obtain ⟨hat, hspans⟩ := htag tag.1 tag.2 rfl
    unfold chooseAlternative
    simp only
    cases findAlternative tag.2 alts 0 with
    | none =>
      refine fail (.push (.withCandidates ?_ _) _)
      exact L.madeOf rfl hat hspans
    | some alt => exact same _

theorem tells_decodeAlternative {dec : Ty → D σ Unit} (hdec : ∀ t, L.Tells (dec t))
    {decStruct : StructDef → Bytes → D σ Unit} (hstruct : ∀ d k, L.Tells (decStruct d k))
    (fuel : Nat) (alts : List (Bytes × Ty))
    (tagKey : Bytes) {off : Nat} (hoff : off ≤ g.size) (i : Nat) (t : Ty) :
    L.Tells (decodeAlternative env r fuel dec decStruct alts tagKey off i t) := by
  unfold decodeAlternative
  cases internallyTagged env t with
  | some d => exact focus (hstruct d tagKey)
  | none =>
    refine (call L.expectMap).bind fun c => ?_
    refine (L.tells_externalLoop (focus (hdec t)) tagKey fuel c false).bind fun haveValue => ?_
    exact .ite (fun _ => same _) fun _ => fail (L.madeAt rfl hoff)

theorem tells_decodeVariant {dec : Ty → D σ Unit} (hdec : ∀ t, L.Tells (dec t))
    {decStruct : StructDef → Bytes → D σ Unit} (hstruct : ∀ d k, L.Tells (decStruct d k))
    (fuel : Nat) (f : FieldMeta) (alts : List (Bytes × Ty)) :
    L.Tells (decodeVariant env r fuel dec decStruct f alts) := by
  unfold decodeVariant
  cases f.tagKey with
  | none => exact throw trivial
  | some tagKey =>
    refine getReader.bind fun s => .given fun hsave => ?_
    refine (call L.offset).bind fun off => .given fun hoff => ?_
    refine ((call L.expectMap).pre fun _ => L.at_zero).bind fun c => ?_
    refine (L.runs_findTag tagKey fuel c).bind fun tag => .given fun htag => ?_
    refine (L.tells_chooseAlternative alts tagKey hoff htag).bind fun alt => ?_
    refine (modifyReader hsave).bind fun _ => (setOut _).bind fun _ => ?_
    exact L.tells_decodeAlternative hdec hstruct fuel alts tagKey hoff alt.1 alt.2

/-! ### Every type -/

theorem tells_decodeValue (fuel : Nat) (f : FieldMeta) (t : Ty) :
    L.Tells (decodeValue env r fuel f t) := by
  induction fuel generalizing f t with
  | zero => exact throw trivial
  | succ fuel ih =>
    have hfield : ∀ f t, L.Tells (decodeFieldValue env r (decodeValue env r fuel f) f t) :=
      fun f t => L.tells_decodeFieldValue (ih f) f t
    have assigned : ∀ {α : Type} {m : D σ α} (h : α → Val), L.Tells m →
      L.Tells (do D.setOut (h (← m))) :=
      fun h hm => hm.bind fun a => setOut _
    unfold decodeValue
    cases t with
    | bool => exact assigned _ (call L.expectBoolean)
    | char => exact L.tells_decodeChar
    | int k => exact assigned _ (L.tells_decodeInt f k)
    | float => exact assigned _ (call L.expectReal)
    | double => exact assigned _ (call L.expectReal)
    | enum e => exact L.tells_decodeEnum f e
    | string view => exact L.tells_decodeString f view
    | optional t => exact L.tells_decodeOptional (ih f t) t
    | variant alts =>
      exact L.tells_decodeVariant (ih noField) (fun d k => L.tells_decodeStruct hfield fuel d k)
        fuel f alts
    | byteRange _ => exact L.tells_decodeBytes f _
    | map kind kt t => exact L.tells_decodeMap (ih f t) fuel f kind kt t
    | tuple ts => exact L.tells_decodeElements (ih f) fuel ts
    | array n t =>
      exact .ite (fun _ => L.tells_decodeBytes f _) fun _ => L.tells_decodeElements (ih f) fuel _
    | seq kind t =>
      exact .ite (fun _ => L.tells_decodeBytes f _) fun _ =>
        L.tells_decodeSequence (ih f t) fuel kind t
    | struct id => exact L.tells_decodeStruct hfield fuel _ _
    | time d => exact .ite (fun _ => L.tells_decodeTime f d) fun _ => throw trivial

/-! ### The entry -/

/-- The reader is in good order, and what it has collected may be handed out. -/
structure Closed (s : σ) : Prop where
  good : L.At 0 s
  reported : r.errors = .collect → ∀ e ∈ r.collected s, e.Reported g

theorem closed_finish {s : σ} (h : L.At 0 s) :
    L.Closed (r.setCollected ((r.collected s).map Error.finalize) s) := by
  have hmap : ∀ e ∈ (r.collected s).map Error.finalize, e.Reported g := by
    intro e he
    obtain ⟨e', he', rfl⟩ := List.mem_map.1 he
    exact (L.collected h e' he').reported
  refine ⟨L.setCollected h fun e he => (hmap e he).1, fun _ => ?_⟩
  rwa [L.collected_setCollected]

theorem closed_failFast (hmode : r.errors = .failFast) {s : σ} (h : L.At 0 s) : L.Closed s :=
  ⟨h, fun hcollect => by rw [hmode] at hcollect; cases hcollect⟩

theorem reported_mapped {x : Abort} {e : Error} (he : (match x with
    | .error e => Abort.error e.finalize
    | a => a) = .error e) (hx : x.Describes g) : e.Reported g := by
  cases x with
  | error e' =>
    cases he
    exact hx.reported
  | rejected => cases he
  | outOfFuel => cases he

/-- The error of a run, and every one that it has collected, is one that the caller may get. -/
theorem decode_reports (fuel : Nat) (t : Ty) {b : Build σ} (hb : L.At 0 b.reader) :
    Ends (fun _ b' => L.Closed b'.reader)
      (fun x b' => (∀ e, x = .error e → e.Reported g) ∧ L.Closed b'.reader)
      (decode env r fuel t b) := by
  have htells : L.Tells (decodeFieldValue env r (decodeValue env r fuel noField) noField t) :=
    L.tells_decodeFieldValue (fun t => L.tells_decodeValue fuel noField t) noField t
  have hends := htells b hb
  unfold decode D.mapError Run.mapError
  simp only
  cases hm : decodeFieldValue env r (decodeValue env r fuel noField) noField t b with
  | ok a b' =>
    rw [hm] at hends
    cases hmode : r.errors with
    | failFast => exact L.closed_failFast hmode hends
    | collect => exact L.closed_finish hends
  | error x b' =>
    rw [hm] at hends
    cases hmode : r.errors with
    | failFast => exact ⟨fun e he => reported_mapped he hends.1, L.closed_failFast hmode hends.2⟩
    | collect => exact ⟨fun e he => reported_mapped he hends.1, L.closed_finish hends.2⟩

end Reports

end VCodec
