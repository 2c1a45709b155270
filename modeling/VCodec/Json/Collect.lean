import VCodec.Json.Api
import VCodec.Core.Collect

/-!
# The two modes of the JSON reader

As in the CBOR reader, no operation looks at the mode or at the collected errors.
-/

namespace VCodec.Json

open Run

/-! ### The mode -/

section

variable (o : Options) (cc : Charconv) (m : ErrorMode) (inp : Bytes)

theorem skipLoop_mode : skipLoop { o with errors := m } cc inp = skipLoop o cc inp := by
  funext fuel levels state
  induction fuel generalizing levels state with
  | zero => rfl
  | succ fuel ih => simp only [skipLoop, ih]; rfl

/-- The reader in another mode is the same reader. -/
theorem reader_mode :
    reader { o with errors := m } cc inp = { reader o cc inp with errors := m } := by
  unfold reader skipValue
  rw [skipLoop_mode]
  rfl

theorem reader_failFast : reader { o with errors := .failFast } cc inp =
    (reader o cc inp).failFast := reader_mode _ _ _ _

theorem reader_collecting :
    reader { o with errors := .collect } cc inp = (reader o cc inp).collecting :=
  reader_mode _ _ _ _

end

/-! ### The collected errors -/

/-- The operation neither looks at the collected errors nor changes them. -/
abbrev Calm {α : Type} (m : M α) : Prop := Deaf (fun es s => { s with collected := es }) m

variable {o : Options} {cc : Charconv} {inp : Bytes} {α β : Type}

theorem calm_skipWs : Calm (skipWs inp) := fun _ _ => rfl

/-- Blanks are passed before an operation. -/
theorem calm_blanks {m : M α} (h : Calm m) : Calm (do skipWs inp; m) := calm_skipWs.bind fun _ => h

/-- The state is read, and something is done with it. -/
theorem calm_look {f : State → M α} (hf : ∀ es s, f { s with collected := es } = f s)
    (h : ∀ s, Calm (f s)) : Calm (do f (← get)) := Deaf.look hf h

theorem calm_advance (n : Nat) : Calm (modify (·.advance n)) := fun _ _ => rfl

theorem calm_mismatch (expected : Bytes) (want : UInt8) : Calm (mismatch inp expected want) := by
  intro es s
  unfold mismatch
  split <;> rfl

theorem calm_literal (word : Bytes) : Calm (literal inp word) := by
  intro es s
  unfold literal
  split
  · rfl
  split <;> rfl

theorem calm_offset : Calm (offset inp) := calm_blanks (calm_look (fun _ _ => rfl) fun _ => .pure _)

theorem calm_peek : Calm (peek cc inp) := calm_blanks (calm_look (fun _ _ => rfl) fun _ => .pure _)

/-! ### Scalars -/

theorem calm_expectNull : Calm (expectNull inp) :=
  calm_blanks ((calm_mismatch _ _).bind fun _ => calm_literal _)

theorem calm_expectBoolean : Calm (expectBoolean inp) :=
  calm_blanks (calm_look (fun _ _ => rfl) fun _ => .ite ((calm_literal _).bind fun _ => .pure _)
    (.ite ((calm_literal _).bind fun _ => .pure _) (.throw _)))

theorem calm_number (expected : Bytes) : Calm (number cc inp expected) := by
  intro es s
  unfold number
  dsimp only
  cases at? inp s.pos with
  | none => rfl
  | some c =>
    dsimp only
    split
    · rfl
    split <;> rfl

theorem calm_passNumber (n : NumberScan) : Calm (passNumber n) := fun _ _ => rfl

theorem calm_throwNumberRange (n : NumberScan) :
    Calm (throwNumberRange inp n : M α) := fun _ _ => rfl

theorem calm_throwNotInteger (n : NumberScan) : Calm (throwNotInteger inp n : M α) := fun _ _ => rfl

/-- A number is passed, and a value returned. -/
theorem calm_take (n : NumberScan) (a : α) : Calm (do passNumber n; return a) :=
  (calm_passNumber n).bind fun _ => .pure a

theorem calm_expectPlainUint : Calm (expectPlainUint cc inp) := by
  refine calm_blanks ((calm_number _).bind fun n => ?_)
  exact .ite (calm_take n _) (.ite (calm_throwNumberRange n) (calm_throwNotInteger n))

theorem calm_expectPlainSint : Calm (expectPlainSint cc inp) := by
  refine calm_blanks ((calm_number _).bind fun n => ?_)
  refine .ite (calm_take n _) (.ite (.ite (calm_throwNumberRange n) (calm_take n _)) ?_)
  exact .ite (calm_throwNumberRange n) (calm_throwNotInteger n)

theorem calm_expectReal : Calm (expectReal cc inp) :=
  calm_blanks ((calm_number _).bind fun n => calm_look (fun _ _ => rfl) fun _ =>
    (calm_passNumber n).bind fun _ =>
    .pure _)

/-! ### Strings -/

theorem calm_closeString (open_ close : Nat) (text : Bytes) (borrowed : Bool) :
    Calm (closeString o inp open_ close text borrowed) := by
  intro es s
  unfold closeString
  split <;> rfl

theorem calm_parseString : Calm (parseString o inp) := by
  intro es s
  unfold parseString
  simp only
  split
  · rfl
  · exact calm_closeString _ _ _ _ es s
  · split
    · rfl
    · exact calm_closeString _ _ _ _ es s

theorem calm_quotedInteger (accept : NumberScan → Option α) :
    Calm (quotedInteger o cc inp accept) := by
  refine calm_look (fun _ _ => rfl) fun s => calm_parseString.bind fun t => .ite ?_ ?_
  · exact Deaf.bind (fun _ _ => rfl) fun _ => .throw _
  · cases accept (scanNumber cc t.text) with
    | some a => exact .pure _
    | none => exact Deaf.bind (fun _ _ => rfl) fun _ => .throw _

theorem calm_expectInteger {bare : M α} (hbare : Calm bare) (accept : NumberScan → Option α)
    (f : FieldMeta) :
    Calm (expectInteger o cc inp bare accept f) :=
  .ite (calm_blanks (calm_look (fun _ _ => rfl) fun _ => .ite (calm_quotedInteger accept) hbare))
    hbare

theorem calm_expectText : Calm (expectText o inp) :=
  calm_blanks ((calm_mismatch _ _).bind fun _ => calm_parseString)

theorem calm_expectBytes (f : FieldMeta) : Calm (expectBytes o inp f) := by
  refine calm_blanks (calm_look (fun _ _ => rfl) fun s => (calm_mismatch _ _).bind fun _ =>
    calm_parseString.bind fun t => ?_)
  cases decodeEncoding (f.bytes.getD .base64) t.text with
  | some bytes => exact .pure _
  | none => exact Deaf.bind (fun _ _ => rfl) fun _ => .throw _

/-! ### Cursors -/

theorem calm_next (b : Brackets) (c : Cursor) : Calm (Cursor.next inp b c) := by
  refine calm_blanks (calm_look (fun _ _ => rfl) fun s => ?_)
  cases at? inp s.pos with
  | none => exact .throw _
  | some x =>
    refine .ite (Deaf.bind (fun _ _ => rfl) fun _ => .pure _) (.ite (.pure _) (.ite (.throw _) ?_))
    exact (calm_advance 1).bind fun _ =>
      calm_blanks (calm_look (fun _ _ => rfl) fun _ => .ite (.throw _) (.pure _))

theorem calm_passColon : Calm (passColon inp) := by
  refine calm_blanks (calm_look (fun _ _ => rfl) fun s => ?_)
  cases at? inp s.pos with
  | none => exact .throw _
  | some x => exact .ite (calm_advance 1) (.throw _)

theorem calm_keyText : Calm (keyText o inp) := by
  refine calm_blanks (calm_look (fun _ _ => rfl) fun s => ?_)
  cases at? inp s.pos with
  | none => exact .throw _
  | some x =>
    exact .ite (.throw _) (calm_parseString.bind fun _ => calm_passColon.bind fun _ => .pure _)

theorem calm_keyInteger : Calm (keyInteger inp : M α) := fun _ _ => rfl

theorem calm_expectContainer (expected : Bytes) (bracket : UInt8) :
    Calm (expectContainer o inp expected bracket) := by
  have henter : Calm (enter o inp) := by
    intro es s
    unfold enter
    split <;> rfl
  exact calm_blanks ((calm_mismatch _ _).bind fun _ => henter.bind fun _ => .pure _)

/-! ### The validator -/

theorem calm_skipOpen (levels : Levels) (isObject : Bool) :
    Calm (skipOpen inp levels isObject) := by
  refine (calm_advance 1).bind fun _ => calm_blanks (calm_look (fun _ _ => rfl) fun s => ?_)
  cases at? inp s.pos with
  | none => exact .throw _
  | some c => exact .ite ((calm_advance 1).bind fun _ => .pure _) (.pure _)

theorem calm_skipScalar (c : UInt8) : Calm (skipScalar o cc inp c) := by
  refine .ite (calm_parseString.bind fun _ => .pure _) ?_
  refine .ite (calm_literal _) (.ite (calm_literal _) (.ite (calm_literal _) (.ite ?_ ?_)))
  · exact calm_look (fun _ _ => rfl) fun s => .ite (.throw _) (calm_passNumber _)
  · exact calm_look (fun _ _ => rfl) fun s => .throw _

theorem calm_skipStep (levels : Levels) (state : SkipState) (c : UInt8) :
    Calm (skipStep o cc inp levels state c) := by
  unfold skipStep
  split
  · refine .ite (calm_look (fun _ _ => rfl) fun s => .ite (.throw _) (calm_skipOpen _ _)) ?_
    exact (calm_skipScalar c).bind fun _ => .pure _
  · refine .ite (calm_look (fun _ _ => rfl) fun s => .throw _) ?_
    exact calm_parseString.bind fun _ => calm_passColon.bind fun _ => .pure _
  · exact .pure _
  · refine .ite ?_ (.ite ((calm_advance 1).bind fun _ => .pure _)
      (calm_look (fun _ _ => rfl) fun s => .throw _))
    exact (calm_advance 1).bind fun _ =>
      calm_blanks (calm_look (fun _ _ => rfl) fun s => .ite (.throw _) (.pure _))

theorem calm_skipLoop (fuel : Nat) (levels : Levels) (state : SkipState) :
    Calm (skipLoop o cc inp fuel levels state) := by
  induction fuel generalizing levels state with
  | zero =>
    intro es s
    unfold skipLoop
    split <;> rfl
  | succ fuel ih =>
    refine .ite (.pure _) (calm_blanks (calm_look (fun _ _ => rfl) fun s => ?_))
    cases at? inp s.pos with
    | none => exact .throw _
    | some c => exact (calm_skipStep levels state c).bind fun x => ih x.1 x.2

theorem calm_skipValue : Calm (skipValue o cc inp) :=
  calm_look (fun _ _ => rfl) fun _ => calm_skipLoop _ _ _

/-- The reader is one that construction may collect errors over. -/
theorem collectLaws : CollectLaws (reader o cc inp) where
  get_set _ _ := rfl
  set_get _ := rfl
  set_set _ _ _ := rfl
  save _ _ := rfl
  restore _ _ _ := rfl
  offset := calm_offset
  peek := calm_peek
  expectNull := calm_expectNull
  expectBoolean := calm_expectBoolean
  expectUint := calm_expectInteger calm_expectPlainUint _
  expectSint := calm_expectInteger calm_expectPlainSint _
  expectReal := calm_expectReal
  expectText := calm_expectText
  expectBytes := calm_expectBytes
  expectTags _ := .pure _
  readRange _ := .pure _
  expectArray := calm_expectContainer _ _
  next := calm_next _
  expectMap := calm_expectContainer _ _
  nextKey := calm_next _
  keyKind := .pure _
  keyText := calm_keyText
  keyUint := calm_keyInteger
  keySint := calm_keyInteger
  skipValue := calm_skipValue

end VCodec.Json
