import VCodec.Cbor.Api
import VCodec.Core.Collect

/-!
# The two modes of the CBOR reader

No operation of the reader looks at its mode or at the errors it has collected, so the reader in one
mode is the reader in the other, and construction over the two runs in lockstep.
-/

namespace VCodec.Cbor

open Run

section

variable (o : Options) (m : ErrorMode) (inp : Bytes)

/-! ### The mode -/

theorem scanHead_mode : scanHead { o with errors := m } inp = scanHead o inp := by
  funext expected fuel p
  induction fuel generalizing p with
  | zero => rfl
  | succ fuel ih => simp only [scanHead, ih]; rfl

theorem itemHead_mode : itemHead { o with errors := m } inp = itemHead o inp := by
  unfold itemHead
  rw [scanHead_mode]

theorem peekFrom_mode : peekFrom { o with errors := m } inp = peekFrom o inp := by
  funext fuel p
  induction fuel generalizing p with
  | zero => rfl
  | succ fuel ih => simp only [peekFrom, ih]

theorem readChunks_mode : readChunks { o with errors := m } inp = readChunks o inp := by
  funext major fuel scratch
  induction fuel generalizing scratch with
  | zero => rfl
  | succ fuel ih => simp only [readChunks, ih]; rfl

theorem readString_mode : readString { o with errors := m } inp = readString o inp := by
  unfold readString
  rw [readChunks_mode]

theorem itemDone_mode : itemDone { o with errors := m } inp = itemDone o inp := by
  funext stack
  induction stack with
  | nil => rfl
  | cons top rest ih => simp only [itemDone, ih]; rfl

theorem skipLoop_mode : skipLoop { o with errors := m } inp = skipLoop o inp := by
  have hhead : skipHead { o with errors := m } inp = skipHead o inp := by
    unfold skipHead skipBody
    rw [readString_mode]
    rfl
  funext fuel stack
  induction fuel generalizing stack with
  | zero => rfl
  | succ fuel ih => simp only [skipLoop, ih, hhead, itemDone_mode]; rfl

/-- The reader in another mode is the same reader. -/
theorem reader_mode (env : Env) :
    reader env { o with errors := m } inp = { reader env o inp with errors := m } := by
  unfold reader expectNull expectBoolean expectUint expectSint expectReal expectText readRange
    rangeBytes expectBytes
    expectArray expectMap expectContainer MapCursor.next MapCursor.keyAhead skipValue peek
  simp only [itemHead_mode, readString_mode, peekFrom_mode, skipLoop_mode]
  rfl
theorem reader_failFast (env : Env) :
    reader env { o with errors := .failFast } inp = (reader env o inp).failFast :=
  reader_mode _ _ _ _

theorem reader_collecting (env : Env) :
    reader env { o with errors := .collect } inp = (reader env o inp).collecting :=
  reader_mode _ _ _ _

end

/-! ### The collected errors -/

/-- The operation neither looks at the collected errors nor changes them. -/
abbrev Calm {α : Type} (m : M α) : Prop := Deaf (fun es s => { s with collected := es }) m

variable {o : Options} {inp : Bytes} {α β : Type}

theorem calm_itemHead (expected : Bytes) : Calm (itemHead o inp expected) := by
  intro es s
  unfold itemHead
  dsimp only
  cases scanHead o inp expected (inp.length - s.pos) s.pos <;> rfl

theorem calm_consume (h : ParsedHead) : Calm (consume h) := fun _ _ => rfl

theorem calm_throwType (expected : Bytes) (h : ParsedHead) :
    Calm (throwType inp expected h : M α) := fun _ _ => rfl

theorem calm_throwRange (detail : Bytes) (h : ParsedHead) :
    Calm (throwRange detail h : M α) := fun _ _ => rfl

theorem calm_rawHead : Calm (rawHead inp) := by
  intro es s
  unfold rawHead
  simp only
  split
  · rfl
  split
  · rfl
  split
  · rfl
  split <;> rfl

/-- A head is read, and something is done with it. -/
theorem calm_head {expected : Bytes} {f : ParsedHead → M β} (hf : ∀ h, Calm (f h)) :
    Calm (do f (← itemHead o inp expected)) := (calm_itemHead expected).bind hf

/-- A head is consumed, and a value returned. -/
theorem calm_take (h : ParsedHead) (a : α) : Calm (do consume h; return a) :=
  (calm_consume h).bind fun _ => .pure a

theorem calm_expectNull : Calm (expectNull o inp) :=
  calm_head fun h => .ite (calm_consume h) (calm_throwType _ h)

theorem calm_expectBoolean : Calm (expectBoolean o inp) :=
  calm_head fun h => .ite (calm_take h _) (calm_throwType _ h)

theorem calm_expectUint : Calm (expectUint o inp) :=
  calm_head fun h => .ite (calm_take h _) (.ite (calm_throwRange _ h) (calm_throwType _ h))

theorem calm_expectSint : Calm (expectSint o inp) :=
  calm_head fun h => .ite (.ite (calm_throwRange _ h) (calm_take h _))
    (.ite (.ite (calm_throwRange _ h) (calm_take h _)) (calm_throwType _ h))

theorem calm_expectReal : Calm (expectReal o inp) := by
  refine calm_head fun h => .ite (calm_take h _)
    (.ite (calm_take h _) (.ite (Deaf.look (fun _ _ => rfl) fun s => ?_) (calm_throwType _ h)))
  cases whenStrict o (checkPreferredFloat (floatOf h.ai h.value) h.ai h.value s.pos) with
  | some e => exact .throw _
  | none => exact calm_take h _

/-! ### Strings and the validator -/

theorem calm_readChunks (major : Major) (fuel : Nat) (scratch : Bytes) :
    Calm (readChunks o inp major fuel scratch) := by
  induction fuel generalizing scratch with
  | zero => exact fun _ _ => rfl
  | succ fuel ih =>
    intro es s
    simp only [readChunks]
    split
    · rfl
    split
    · rfl
    split
    · rfl
    split
    · rfl
    split
    · rfl
    split
    · rfl
    · exact ih _ es (s.advance _)

theorem calm_readString (h : ParsedHead) (major : Major) : Calm (readString o inp h major) := by
  intro es s
  unfold readString
  dsimp only
  split
  · split <;> rfl
  split
  · rfl
  · have hchunks := @calm_readChunks o inp major (inp.length - (s.pos + h.length)) [] es
      (s.advance h.length)
    change readChunks _ _ _ _ _ (State.advance { s with collected := es } h.length) = _ at hchunks
    rw [hchunks]
    cases readChunks o inp major (inp.length - (s.pos + h.length)) [] (s.advance h.length) <;> rfl

theorem calm_expectText : Calm (expectText o inp) := by
  refine calm_head fun h => .ite (calm_throwType _ h) ?_
  refine (calm_readString h .text).bind fun x => Deaf.look (fun _ _ => rfl) fun s => ?_
  cases (if o.validateUtf8 = true then validateUtf8 x.1 else none) with
  | some bad => exact .throw _
  | none => exact .pure _

theorem calm_expectBytes : Calm (expectBytes o inp) :=
  calm_head fun h => .ite (calm_throwType _ h) ((calm_readString h .bytes).bind fun _ => .pure _)

theorem calm_expectTags (ts : List Nat) : Calm (expectTags inp ts) := by
  induction ts with
  | nil => exact .pure _
  | cons t ts ih =>
    refine calm_rawHead.bind fun h => .ite (fun _ _ => rfl) ?_
    exact (calm_consume h).bind fun _ => ih

theorem calm_skipBody (stack : List Level) (h : ParsedHead) : Calm (skipBody o inp stack h) := by
  intro es s
  have hstring := @calm_readString o inp h h.mt es s
  unfold skipBody
  dsimp only at hstring ⊢
  rw [hstring]
  cases h.mt with
  | uint | nint => rfl
  | simple =>
    dsimp only
    split
    · rfl
    cases whenStrict o
      (if 25 ≤ h.ai then checkPreferredFloat (floatOf h.ai h.value) h.ai h.value s.pos
        else none) <;>
        rfl
  | bytes | text =>
    dsimp only
    cases readString o inp h _ s with
    | error e s₁ => rfl
    | ok x s₁ =>
      simp only [mapState]
      split <;> rfl
  | tag =>
    show (if inp.length ≤ s.pos + h.length then _
      else if (inp.drop (s.pos + h.length)).head? = some breakByte then _ else _) =
      mapState _ (if inp.length ≤ s.pos + h.length then _
        else if (inp.drop (s.pos + h.length)).head? = some breakByte then _ else _)
    split
    · rfl
    split <;> rfl
  | array | map =>
    dsimp only
    split
    · rfl
    split
    · rfl
    split <;> rfl

theorem calm_skipHead (stack : List Level) : Calm (skipHead o inp stack) := by
  intro es s
  unfold skipHead
  dsimp only
  split
  · rfl
  split
  · split
    · rfl
    split
    · rfl
    split <;> rfl
  split
  · rfl
  cases whenStrict o (checkHeadDeterministic (parseHead inp s.pos) s.pos) with
  | some e => rfl
  | none => exact calm_skipBody _ _ es s

theorem calm_itemDone (stack : List Level) : Calm (itemDone o inp stack) := by
  induction stack with
  | nil => exact fun _ _ => rfl
  | cons top rest ih =>
    intro es s
    simp only [itemDone]
    cases top.checkKey o inp s.pos with
    | error e => rfl
    | ok top =>
      dsimp only
      split
      · exact ih es { s with depth := s.depth - 1 }
      · rfl

theorem calm_skipLoop (fuel : Nat) (stack : List Level) : Calm (skipLoop o inp fuel stack) := by
  induction fuel generalizing stack with
  | zero => exact fun _ _ => rfl
  | succ fuel ih =>
    intro es s
    simp only [skipLoop]
    split
    · rfl
    have hhead := @calm_skipHead o inp (markKey o stack s.pos) es s
    dsimp only at hhead
    rw [hhead]
    cases skipHead o inp (markKey o stack s.pos) s with
    | error e s₁ => rfl
    | ok step s₁ =>
      cases step with
      | again stack => exact ih stack es s₁
      | done stack =>
        have hdone := @calm_itemDone o inp stack es s₁
        dsimp only [mapState] at hdone ⊢
        rw [hdone]
        cases itemDone o inp stack s₁ with
        | error e s₂ => rfl
        | ok stack s₂ =>
          cases stack with
          | nil => rfl
          | cons top stack => exact ih _ es s₂

theorem calm_skipValue : Calm (skipValue o inp) := fun es s => calm_skipLoop _ _ es s

/-! ### Cursors and typed arrays -/

theorem calm_expectContainer (isMap : Bool) (expected : Bytes) :
    Calm (expectContainer o inp isMap expected) := by
  refine calm_head fun h => .ite (calm_throwType _ h) fun es s => ?_
  unfold enter
  split <;> rfl

theorem calm_next (c : SeqCursor) : Calm (SeqCursor.next inp c) := by
  intro es s
  unfold SeqCursor.next
  split
  · rfl
  · split <;> rfl
  · split
    · rfl
    split <;> rfl

theorem calm_keyAhead (c : MapCursor) : Calm (MapCursor.keyAhead o inp c) := by
  intro es s
  unfold MapCursor.keyAhead
  split
  · have hskip := @calm_skipValue o inp es s
    dsimp only at hskip ⊢
    rw [hskip]
    cases skipValue o inp s with
    | error e s₁ => rfl
    | ok u s₁ =>
      dsimp only [mapState]
      split <;> rfl
  · rfl

theorem calm_nextKey (c : MapCursor) : Calm (MapCursor.next o inp c) := by
  intro es s
  unfold MapCursor.next
  split
  · rfl
  · split
    · rfl
    · exact calm_keyAhead _ es s
  · split
    · rfl
    split
    · rfl
    · exact calm_keyAhead _ es s

theorem calm_rangeBytes : Calm (rangeBytes o inp) := by
  refine calm_rawHead.bind fun h => .ite (.pure _) (Deaf.look (fun _ _ => rfl) fun s => ?_)
  have hbehind : Calm (behind h (expectBytes o inp)) := by
    intro es s
    have hbytes := @calm_expectBytes o inp es (s.advance h.length)
    unfold behind
    change expectBytes o inp (State.advance { s with collected := es } h.length) = _ at hbytes
    dsimp only
    rw [hbytes]
    cases expectBytes o inp (s.advance h.length) <;> rfl
  exact hbehind.bind fun _ => .pure _

/-- The run that fills the object neither looks at the collected errors nor changes them. -/
abbrev CalmRun {α : Type} (m : D State α) : Prop :=
  Deaf (fun es b => { b with reader := { b.reader with collected := es } }) m

theorem calm_typedArrayInto {env : Env} (tag : Nat) (bytes : Bytes) (t : Ty) (off : Nat) :
    CalmRun (typedArrayInto env tag bytes t off) := by
  refine .ite (.throw _) (.ite (.throw _) (.ite ?_ (.throw _)))
  refine Deaf.bind (fun _ _ => rfl) fun out es b => ?_
  unfold fillRange
  dsimp only
  split <;> rfl

theorem calm_readRange {env : Env} (t : Ty) : CalmRun (readRange env o inp t) := by
  refine .ite (.pure _) ((deaf_call calm_rangeBytes).bind fun range => ?_)
  match range with
  | none => exact .pure _
  | some (tag, bytes, start) => exact (calm_typedArrayInto tag bytes t start).bind fun _ => .pure _

/-- The reader is one that construction may collect errors over. -/
theorem collectLaws (env : Env) : CollectLaws (reader env o inp) where
  get_set _ _ := rfl
  set_get _ := rfl
  set_set _ _ _ := rfl
  save _ _ := rfl
  restore _ _ _ := rfl
  offset _ _ := rfl
  peek _ _ := rfl
  expectNull := calm_expectNull
  expectBoolean := calm_expectBoolean
  expectUint _ := calm_expectUint
  expectSint _ := calm_expectSint
  expectReal := calm_expectReal
  expectText := calm_expectText
  expectBytes _ := calm_expectBytes
  expectTags := calm_expectTags
  readRange := calm_readRange
  expectArray := (calm_expectContainer false _).bind fun _ => .pure _
  next := calm_next
  expectMap := (calm_expectContainer true _).bind fun _ => .pure _
  nextKey := calm_nextKey
  keyKind _ _ := rfl
  keyText := calm_expectText
  keyUint := calm_expectUint
  keySint := calm_expectSint
  skipValue := calm_skipValue

end VCodec.Cbor
