import VCodec.Core.Reports
import VCodec.Core.Utf8
import VCodec.Json.Excerpt
import VCodec.Json.Total

/-!
# What decoding JSON reports

Every error that an entry point returns or collects describes the input: it is an error of one of
the codes that JSON has, its length ends within the input, and its line and column are those of its
offset. So the excerpt of such an error can always be rendered.
-/

namespace VCodec.Json

open Run (Triple)

/-! ### The ground of a JSON input -/

/-- The codes that the reader or construction may report of a JSON input. -/
def reportable : Errc → Prop
  | .malformedItem | .unsupportedSimpleValue | .tagMismatch | .nonDeterministic => False
  | _ => True

def ground (inp : Bytes) : Ground := ⟨inp.length, 0, fun off => some (lineCol inp off), reportable⟩

/-- A state in the input, not before `p`, whose collected errors describe the input. -/
structure At (inp : Bytes) (p : Nat) (s : State) : Prop where
  low : p ≤ s.pos
  high : s.pos ≤ inp.length
  collected : ∀ e ∈ s.collected, e.Describes (ground inp)

/-- An operation that keeps to the input and reports errors about it. -/
abbrev Says {α : Type} (inp : Bytes) (P : State → Prop) (m : M α) (Q : α → State → Prop) : Prop :=
  Reporting (ground inp) (At inp 0) P m Q

variable {o : Options} {cc : Charconv} {inp : Bytes} {s t : State} {p : Nat} {α β : Type}

theorem At.mono {q : Nat} (h : At inp p s) (hq : q ≤ p) : At inp q s :=
  ⟨hq.trans h.low, h.high, h.collected⟩

theorem At.zero (h : At inp p s) : At inp 0 s := h.mono (Nat.zero_le p)

theorem At.move (h : At inp p s) {q : Nat} {t : State} (hq : q ≤ t.pos) (ht : t.pos ≤ inp.length)
    (hsame : t.collected = s.collected) : At inp q t := ⟨hq, ht, hsame ▸ h.collected⟩

/-- A byte stands at the place. -/
def Over (inp : Bytes) (p : Nat) (s : State) : Prop := At inp p s ∧ s.pos < inp.length

/-! ### Errors -/

theorem describes_error {c : Errc} (hc : reportable c) {off : Nat} (hoff : off ≤ inp.length) :
    (error inp c off).Describes (ground inp) :=
  ⟨hc, hoff, hoff, rfl, fun c hc => (Option.not_mem_none c hc).elim, Nat.zero_le _,
    fun h => Bool.noConfusion h⟩

theorem describes_length {c : Errc} (hc : reportable c) {off n : Nat} (h : off + n ≤ inp.length) :
    ((error inp c off).withLength n).Describes (ground inp) :=
  (describes_error hc ((Nat.le_add_right off n).trans h)).withLength h

theorem tokenLength_le (h : p < inp.length) : p + tokenLength inp p ≤ inp.length := by
  unfold tokenLength
  split
  · exact h
  · have htake :=
      (List.takeWhile_sublist (fun c => decide ¬ (isBoundary c = true)) (l := inp.drop p)).length_le
    rw [List.length_drop] at htake
    omega

theorem describes_unexpected (expected : Bytes) (h : p ≤ inp.length) :
    (unexpected inp p expected).Describes (ground inp) := by
  unfold unexpected
  split
  · exact describes_error (c := .truncated) trivial h
  · rename_i hlt
    exact describes_length (c := .unexpectedToken) trivial (tokenLength_le (Nat.not_le.1 hlt))

theorem describes_typeError (expected : Bytes) (h : p ≤ inp.length) :
    (typeError inp p expected).Describes (ground inp) := by
  unfold typeError
  split
  · exact describes_error (c := .truncated) trivial h
  · rename_i c hc
    split
    · exact describes_unexpected expected h
    split
    · exact describes_unexpected expected h
    · exact describes_length (c := .typeMismatch) trivial (tokenLength_le (at?_lt hc))

theorem describes_depthError (h : p < inp.length) : (depthError o inp p).Describes (ground inp) :=
  describes_length (c := .depthExceeded) trivial h

theorem describes_controlError (h : p < inp.length) : (controlError inp p).Describes (ground inp) :=
  describes_length (c := .unexpectedToken) trivial h

theorem describes_unterminatedError (h : p ≤ inp.length) :
    (unterminatedError inp p).Describes (ground inp) :=
  describes_length (c := .unterminatedString) trivial (by omega)

/-- The scanner does not look beyond the text. -/
theorem scanNumber_length_le (cc : Charconv) (b : Bytes) : (scanNumber cc b).length ≤ b.length := by
  unfold scanNumber
  split
  · rename_i parts hparts
    obtain ⟨n, r, rfl, -, rfl⟩ := scanParts_eq_some.1 hparts
    have hlen : (classify cc (n.bytes ++ r) n.parts).length = n.parts.length := by
      unfold classify realScan
      simp only
      split_ifs <;> (try split) <;> rfl
    rw [hlen, n.parts_length, List.length_append]
    exact Nat.le_add_right _ _
  · exact Nat.zero_le _

theorem scanned_le (cc : Charconv) (h : p ≤ inp.length) :
    p + (scanNumber cc (inp.drop p)).length ≤ inp.length := by
  have hlen := scanNumber_length_le cc (inp.drop p)
  rw [List.length_drop] at hlen
  omega

theorem describes_numberError (h : p < inp.length) :
    (numberError inp p (scanNumber cc (inp.drop p))).Describes (ground inp) := by
  unfold numberError
  split
  · exact describes_length (c := .outOfRange) trivial (scanned_le cc h.le)
  · exact describes_length (c := .invalidNumber) trivial (tokenLength_le h)

theorem describes_escapeError {i n : Nat} (detail : Bytes) (h : i + n ≤ inp.length) :
    (escapeError inp i detail n).Describes (ground inp) :=
  describes_length (c := .invalidEscape) trivial h

/-! ### Blanks and literals -/

theorem says_skipWs {E : Error → State → Prop} :
    Triple (At inp p) (skipWs inp) (fun _ => At inp p) E := by
  refine .modify fun s hs => ?_
  have hlen := (List.takeWhile_sublist isWs (l := inp.drop s.pos)).length_le
  rw [List.length_drop] at hlen
  have hhigh := hs.high
  exact hs.move (hs.low.trans (Nat.le_add_right _ _)) (by simp only [State.advance]; omega) rfl

theorem says_offset : Says inp (At inp 0) (offset inp) fun off s => off ≤ (ground inp).size ∧
    At inp off s := by
  refine says_skipWs.bind fun _ => .look fun s hs => .pure ?_
  rintro _ rfl
  exact ⟨hs.high, hs.move le_rfl hs.high rfl⟩

theorem says_mismatch (expected : Bytes) (want : UInt8) :
    Says inp (At inp p) (mismatch inp expected want) fun _ => Over inp p := by
  intro s hs
  unfold mismatch
  split
  · rename_i hat
    exact ⟨hs, at?_lt hat⟩
  · exact ⟨describes_typeError expected hs.high, hs.zero⟩

theorem says_literal (word : Bytes) : Says inp (At inp p) (literal inp word) fun _ => At inp p := by
  intro s hs
  unfold literal
  have hhigh := hs.high
  split
  · rename_i heq
    have hlen := congrArg List.length heq
    rw [substr, List.length_take, List.length_drop] at hlen
    exact hs.move (hs.low.trans (Nat.le_add_right _ _)) (by simp only [State.advance]; omega) rfl
  split
  · exact ⟨describes_error (c := .truncated) trivial le_rfl, hs.zero⟩
  · exact ⟨describes_unexpected _ hs.high, hs.zero⟩

/-! ### Strings -/

theorem hex4_length {b : Bytes} {v : Nat} (h : hex4 b = some v) : 4 ≤ b.length := by
  unfold hex4 at h
  split at h
  · exact Nat.le_add_left 4 _
  · cases h

theorem unicodeEscape_error
    {i : Nat} {e : Error} (h : unicodeEscape inp i = .error e) (hi : i < inp.length) :
    e.Describes (ground inp) := by
  have hshort : ∀ detail, (escapeError inp i detail (min 6 (inp.length - i))).Describes
    (ground inp) :=
    fun detail => describes_escapeError detail (by omega)
  unfold unicodeEscape at h
  simp only at h
  split at h
  · cases h
    exact hshort _
  · rename_i code hcode
    have hdigits := hex4_length hcode
    rw [List.length_drop] at hdigits
    have hlone : ∀ detail, (escapeError inp i detail 6).Describes (ground inp) :=
      fun detail => describes_escapeError detail (by omega)
    split at h
    · split at h
      · split at h
        · split at h
          · cases h
          · cases h
            exact hlone _
        · cases h
          exact hlone _
      · cases h
        exact hlone _
    split at h
    · cases h
      exact hlone _
    · cases h

theorem readEscape_error {open_ i : Nat} {e : Error} (h : readEscape inp open_ i = .error e)
    (hopen : open_ ≤ inp.length) (hi : i < inp.length) : e.Describes (ground inp) := by
  unfold readEscape at h
  split at h
  · cases h
    exact describes_unterminatedError hopen
  · rename_i c hc
    have hnext := at?_lt hc
    split at h
    · cases h
    split at h
    · exact unicodeEscape_error h hi
    · cases h
      exact describes_escapeError _ hnext

theorem unescape_error {open_ fuel i : Nat} {scratch : Bytes} {e : Error}
    (h : unescape inp open_ fuel i scratch = .error e) (hopen : open_ ≤ inp.length) :
    e.Describes (ground inp) := by
  induction fuel generalizing i scratch with
  | zero =>
    cases h
    exact describes_unterminatedError hopen
  | succ fuel ih =>
    unfold unescape at h
    split at h
    · cases h
      exact describes_unterminatedError hopen
    · rename_i c hc
      have hi := at?_lt hc
      split at h
      · cases h
      split at h
      · cases h
        exact describes_controlError hi
      split at h
      · exact ih h
      split at h
      · rename_i e' hescape
        cases h
        exact readEscape_error hescape hopen hi
      · exact ih h

theorem scanPlain_error {open_ fuel i : Nat} {e : Error} (h : scanPlain inp open_ fuel i = .error e)
    (hopen : open_ ≤ inp.length) :
    e.Describes (ground inp) := by
  induction fuel generalizing i with
  | zero =>
    cases h
    exact describes_unterminatedError hopen
  | succ fuel ih =>
    unfold scanPlain at h
    split at h
    · cases h
      exact describes_unterminatedError hopen
    · rename_i c hc
      split at h
      · cases h
      split at h
      · cases h
      split at h
      · cases h
        exact describes_controlError (at?_lt hc)
      · exact ih h

theorem appendUtf8_length (cp : Nat) : (appendUtf8 cp).length ≤ 4 := by
  unfold appendUtf8
  split_ifs <;> simp

/-- An escape is no shorter than what it stands for. -/
theorem readEscape_text
    {open_ i n : Nat} {text : Bytes} (h : readEscape inp open_ i = .ok (text, n)) :
    text.length ≤ n := by
  unfold readEscape unicodeEscape at h
  simp only at h
  split at h
  · cases h
  split at h
  · cases h
    exact Nat.le_succ 1
  split at h
  · split at h
    · cases h
    split at h
    · split at h
      · split at h
        · split at h
          · obtain ⟨rfl, rfl⟩ := Prod.mk.inj (Except.ok.inj h)
            exact (appendUtf8_length _).trans (by decide)
          · cases h
        · cases h
      · cases h
    split at h
    · cases h
    · obtain ⟨rfl, rfl⟩ := Prod.mk.inj (Except.ok.inj h)
      exact (appendUtf8_length _).trans (by decide)
  · cases h

theorem unescape_text {open_ fuel i close : Nat} {scratch text : Bytes}
    (h : unescape inp open_ fuel i scratch = .ok (text, close)) :
    text.length + i ≤ scratch.length + close := by
  induction fuel generalizing i scratch with
  | zero => cases h
  | succ fuel ih =>
    unfold unescape at h
    split at h
    · cases h
    split at h
    · cases h
      exact le_rfl
    split at h
    · cases h
    split at h
    · have hrest := ih h
      rw [List.length_append, List.length_singleton] at hrest
      omega
    split at h
    · cases h
    · rename_i escaped n hescape
      have hrest := ih h
      have hn := readEscape_text hescape
      rw [List.length_append] at hrest
      omega

theorem says_closeString {open_ close : Nat} (text : Bytes) (borrowed : Bool)
    (hopen : open_ < close) (hclose : close < inp.length) (hp : p ≤ open_)
    (htext : text.length + open_ + 1 ≤ close) :
    Says inp (At inp p) (closeString o inp open_ close text borrowed) fun t s =>
      (p + (t.text.length + 2) ≤ inp.length ∧ p + t.rawLength ≤ inp.length) ∧ At inp p s := by
  intro s hs
  unfold closeString
  split
  · rename_i bad hbad
    refine ⟨describes_length (c := .invalidUtf8) trivial ?_, hs.zero⟩
    split at hbad
    · have hlt := validateUtf8_lt hbad
      rw [substr, List.length_take, List.length_drop] at hlt
      omega
    · cases hbad
  · refine ⟨⟨?_, ?_⟩, hs.move ?_ hclose rfl⟩ <;> simp only <;> omega

theorem substr_length (inp : Bytes) (i n : Nat) : (substr inp i n).length ≤ n := by
  rw [substr, List.length_take]
  exact min_le_left _ _

theorem says_parseString : Says inp (Over inp p) (parseString o inp) fun t s =>
    (p + (t.text.length + 2) ≤ inp.length ∧ p + t.rawLength ≤ inp.length) ∧ At inp p s := by
  rintro s ⟨hs, hlt⟩
  have hlow := hs.low
  unfold parseString
  simp only
  split
  · rename_i e hscan
    exact ⟨scanPlain_error hscan hs.high, hs.zero⟩
  · rename_i i hscan
    have hi := scanPlain_ok hscan
    have hlen := substr_length inp (s.pos + 1) (i - s.pos - 1)
    exact says_closeString _ true (by omega) (at?_lt hi.2) hlow (by omega) s hs
  · rename_i i hscan
    have hi : s.pos + 1 ≤ i := scanPlain_ok hscan
    split
    · rename_i e htext
      exact ⟨unescape_error htext hs.high, hs.zero⟩
    · rename_i text close htext
      have hclose := unescape_ok htext
      have hgrow := unescape_text htext
      have hlen := substr_length inp (s.pos + 1) (i - s.pos - 1)
      exact says_closeString _ false (by omega) (at?_lt hclose.2) hlow (by omega) s hs

/-! ### Scalars -/

theorem says_peek : Says inp (At inp 0) (peek cc inp) fun _ => At inp 0 :=
  says_skipWs.bind fun _ => .look fun _ hs => .start (.pure fun _ h => h) hs

theorem says_expectNull : Says inp (At inp 0) (expectNull inp) fun _ => At inp 0 :=
  says_skipWs.bind fun _ => (says_mismatch _ _).bind fun _ => (says_literal _).pre fun _ hs => hs.1

theorem says_expectBoolean : Says inp (At inp 0) (expectBoolean inp) fun _ => At inp 0 := by
  refine says_skipWs.bind fun _ => .look fun s hs => .start ?_ hs
  refine .ite (fun _ => ?_) fun _ => .ite (fun _ => ?_) fun _ => ?_
  · exact (says_literal _).bind fun _ => .pure fun _ h => h
  · exact (says_literal _).bind fun _ => .pure fun _ h => h
  · exact .throw fun _ h => ⟨describes_typeError _ hs.high, h⟩

/-- The number that has been scanned stands at the place. -/
def Scanned (inp : Bytes) (n : NumberScan) (s : State) : Prop :=
  At inp 0 s ∧ s.pos + n.length ≤ inp.length

theorem says_number (expected : Bytes) :
    Says inp (At inp 0) (number cc inp expected) fun n => Scanned inp n := by
  intro s hs
  unfold number
  split
  · exact ⟨describes_error (c := .truncated) trivial hs.high, hs⟩
  · rename_i c hc
    split
    · exact ⟨describes_typeError expected hs.high, hs⟩
    simp only
    split
    · exact ⟨describes_numberError (at?_lt hc), hs⟩
    · exact ⟨hs, scanned_le cc hs.high⟩

theorem says_passNumber (n : NumberScan) :
    Says inp (Scanned inp n) (passNumber n) fun _ => At inp 0 :=
  .modify fun _ hs => hs.1.move (Nat.zero_le _) hs.2 rfl

theorem says_throwNumberRange (n : NumberScan) {Q : α → State → Prop} :
    Says inp (Scanned inp n) (throwNumberRange inp n) Q :=
  fun _ hs => ⟨describes_length (c := .outOfRange) trivial hs.2, hs.1⟩

theorem says_throwNotInteger (n : NumberScan) {Q : α → State → Prop} :
    Says inp (Scanned inp n) (throwNotInteger inp n) Q :=
  fun _ hs => ⟨describes_length (c := .typeMismatch) trivial hs.2, hs.1⟩

/-- The number is passed, and its value returned. -/
theorem says_passed (n : NumberScan) (a : α) :
    Says inp (Scanned inp n) (do passNumber n; return a) fun _ => At inp 0 :=
  (says_passNumber n).bind fun _ => .pure fun _ h => h

theorem says_expectPlainUint : Says inp (At inp 0) (expectPlainUint cc inp) fun _ => At inp 0 := by
  refine says_skipWs.bind fun _ => (says_number _).bind fun n => ?_
  exact .ite (fun _ => says_passed n _) fun _ => .ite (fun _ => says_throwNumberRange n) fun _ =>
    says_throwNotInteger n

theorem says_expectPlainSint : Says inp (At inp 0) (expectPlainSint cc inp) fun _ => At inp 0 := by
  refine says_skipWs.bind fun _ => (says_number _).bind fun n => ?_
  refine .ite (fun _ => says_passed n _) fun _ => .ite (fun _ => ?_) fun _ => ?_
  · exact .ite (fun _ => says_throwNumberRange n) fun _ => says_passed n _
  · exact .ite (fun _ => says_throwNumberRange n) fun _ => says_throwNotInteger n

theorem says_expectReal : Says inp (At inp 0) (expectReal cc inp) fun _ => At inp 0 := by
  refine says_skipWs.bind fun _ => (says_number _).bind fun n => .look fun s hs => .start ?_ hs
  exact says_passed n _

/-- The reader goes back to where the text began, and the error is about the text. -/
theorem says_back {start n : Nat} {f : Nat → Error} (hf : (f start).Describes (ground inp))
    (hn : start + n ≤ inp.length) {Q : α → State → Prop} :
    Says inp (At inp start) (do modify fun s => { s with pos := start }; throw (f start)) Q := by
  refine .bind (.modify (Q := fun _ => At inp 0) fun s hs => hs.move (Nat.zero_le _) ?_ rfl)
    fun _ => .throw fun _ hs => ⟨hf, hs⟩
  exact (Nat.le_add_right start n).trans hn

theorem says_quotedInteger (accept : NumberScan → Option α) :
    Says inp (Over inp 0) (quotedInteger o cc inp accept) fun _ => At inp 0 := by
  refine .look fun s hs => ?_
  have hat : Over inp s.pos s := ⟨hs.1.move le_rfl hs.1.high rfl, hs.2⟩
  refine (says_parseString.start hat).bind fun t => .given fun ht => .ite (fun _ => ?_) fun _ => ?_
  · exact says_back
      (f := fun start => (((error inp .typeMismatch start).withExpected (str "integer")).withFound
      (str "string")).withLength (t.text.length + 2))
        (describes_length (c := .typeMismatch) trivial ht.1) ht.1
  · cases accept (scanNumber cc t.text) with
    | some a => exact .pure fun _ h => h.zero
    | none =>
      have hin : s.pos + 1 ≤ inp.length := by omega
      exact says_back (f := fun start => (error inp .outOfRange (start + 1)).withDetail t.text)
        (describes_error (c := .outOfRange) trivial hin) ht.1

theorem says_expectInteger {bare : M α} (hbare : Says inp (At inp 0) bare fun _ => At inp 0)
    (accept : NumberScan → Option α) (f : FieldMeta) :
    Says inp (At inp 0) (expectInteger o cc inp bare accept f) fun _ => At inp 0 := by
  refine .ite (fun _ => says_skipWs.bind fun _ => .look fun s hs => .ite (fun hquote => ?_) fun _ =>
    ?_) fun _ => hbare
  · exact (says_quotedInteger accept).start ⟨hs, at?_lt hquote⟩
  · exact hbare.start hs

theorem says_expectText : Says inp (At inp p) (expectText o inp) fun t s =>
    (p + (t.text.length + 2) ≤ inp.length ∧ p + t.rawLength ≤ inp.length) ∧ At inp p s :=
  says_skipWs.bind fun _ => (says_mismatch _ _).bind fun _ => says_parseString

theorem says_decodeBytes (enc : BytesEncoding) :
    Says inp (At inp 0) (decodeBytes o inp enc) fun _ => At inp 0 := by
  refine says_skipWs.bind fun _ => .look fun s hs => ?_
  have hat : At inp s.pos s := hs.move le_rfl hs.high rfl
  refine ((says_mismatch _ _).start hat).bind fun _ => says_parseString.bind fun t =>
    .given fun ht => ?_
  cases decodeEncoding enc t.text with
  | some bytes => exact .pure fun _ h => h.zero
  | none =>
    exact says_back
      (f := fun start =>
      (((error inp .typeMismatch start).withExpected (encodingName enc)).withFound
      (str "string")).withLength (t.text.length + 2))
        (describes_length (c := .typeMismatch) trivial ht.1) ht.1

/-! ### Containers -/

/-- The byte that stands at the place is passed. -/
theorem Over.pass {d : Nat} (h : Over inp p s) : At inp 0 { s with pos := s.pos + 1, depth := d } :=
  h.1.move (Nat.zero_le _) h.2 rfl

theorem says_pass : Says inp (Over inp 0) (modify (·.advance 1)) fun _ => At inp 0 :=
  .modify fun _ hs => hs.1.move (Nat.zero_le _) hs.2 rfl

theorem says_next (b : Brackets) (c : Cursor) :
    Says inp (At inp 0) (c.next inp b) fun _ => At inp 0 := by
  refine says_skipWs.bind fun _ => .look fun s hs => ?_
  cases hat : at? inp s.pos with
  | none =>
    exact .start (.throw fun _ h => ⟨describes_error (c := .truncated) trivial hs.high, h⟩) hs
  | some x =>
    have hover : Over inp 0 s := ⟨hs, at?_lt hat⟩
    refine .start ?_ hover
    refine .ite (fun _ => ?_) fun _ => .ite (fun _ => .pure fun _ h => h.1) fun _ =>
      .ite (fun _ => ?_) fun _ => ?_
    · exact (Triple.modify (Q := fun _ => At inp 0) fun _ h => h.pass).bind fun _ =>
        .pure fun _ h => h
    · exact .throw fun _ h => ⟨describes_unexpected _ hs.high, h.1⟩
    · refine says_pass.bind fun _ => says_skipWs.bind fun _ => .look fun u hu => .start ?_ hu
      exact .ite (fun _ => .throw fun _ h => ⟨describes_unexpected _ hu.high, h⟩) fun _ =>
        .pure fun _ h => h

theorem says_passColon : Says inp (At inp 0) (passColon inp) fun _ => At inp 0 := by
  refine says_skipWs.bind fun _ => .look fun s hs => ?_
  cases hat : at? inp s.pos with
  | none =>
    exact .start (.throw fun _ h => ⟨describes_error (c := .truncated) trivial hs.high, h⟩) hs
  | some x =>
    have hover : Over inp 0 s := ⟨hs, at?_lt hat⟩
    refine .start ?_ hover
    exact .ite (fun _ => says_pass) fun _ => .throw fun _ h => ⟨describes_unexpected _ hs.high, h.1⟩

theorem says_keyText : Says inp (At inp p)
    (keyText o inp) fun t s => p + (t.text.length + 2) ≤ inp.length ∧ At inp 0 s := by
  refine says_skipWs.bind fun _ => .look fun s hs => ?_
  cases hat : at? inp s.pos with
  | none =>
    exact .start (.throw fun _ h => ⟨describes_error (c := .truncated) trivial hs.high, h.zero⟩) hs
  | some x =>
    have hover : Over inp p s := ⟨hs, at?_lt hat⟩
    refine .start (.ite (fun _ => .throw fun _ h => ⟨describes_unexpected _ hs.high, h.1.zero⟩)
      fun _ => ?_) hover
    refine says_parseString.bind fun t => .given fun ht => ?_
    exact (says_passColon.pre fun _ => At.zero).bind fun _ => .pure fun _ h => ⟨ht.1, h⟩

theorem says_keyInteger {Q : α → State → Prop} : Says inp (At inp 0) (keyInteger inp) Q :=
  fun _ hs => ⟨describes_error (c := .nonTextKey) trivial hs.high, hs⟩

theorem says_expectContainer (expected : Bytes) (bracket : UInt8) :
    Says inp (At inp 0) (expectContainer o inp expected bracket) fun _ => At inp 0 := by
  refine says_skipWs.bind fun _ => (says_mismatch _ _).bind fun _ =>
    .bind (Q := fun _ => At inp 0) ?_ fun _ => .pure fun _ h => h
  intro s hs
  unfold enter
  split
  · exact ⟨describes_depthError hs.2, hs.1⟩
  · exact hs.pass

/-! ### Skipped values -/

theorem says_skipOpen (levels : Levels) (isObject : Bool) :
    Says inp (Over inp 0) (skipOpen inp levels isObject) fun _ => At inp 0 := by
  refine says_pass.bind fun _ => says_skipWs.bind fun _ => .look fun s hs => ?_
  cases hat : at? inp s.pos with
  | none =>
    exact .start (.throw fun _ h => ⟨describes_error (c := .truncated) trivial hs.high, h⟩) hs
  | some c =>
    have hover : Over inp 0 s := ⟨hs, at?_lt hat⟩
    refine .start (.ite (fun _ => ?_) fun _ => .pure fun _ h => h.1) hover
    exact says_pass.bind fun _ => .pure fun _ h => h

theorem says_skipScalar (c : UInt8) :
    Says inp (Over inp 0) (skipScalar o cc inp c) fun _ => At inp 0 := by
  have hliteral : ∀ word, Says inp (Over inp 0) (literal inp word) fun _ => At inp 0 :=
    fun word => (says_literal word).pre fun _ hs => hs.1
  refine .ite (fun _ => ?_) fun _ => .ite (fun _ => hliteral _) fun _ =>
    .ite (fun _ => hliteral _) fun _ =>
    .ite (fun _ => hliteral _) fun _ => .ite (fun _ => .look fun s hs => ?_) fun _ =>
      .look fun s hs => ?_
  · exact says_parseString.bind fun _ => .pure fun _ hs => hs.2
  · refine .ite (fun _ => .start (.throw fun _ h => ⟨describes_numberError hs.2, h.1⟩) hs)
      fun _ => ?_
    exact (says_passNumber _).start ⟨hs.1, scanned_le cc hs.1.high⟩
  · exact .start (.throw fun _ h => ⟨describes_unexpected _ hs.1.high, h.1⟩) hs

theorem says_unexpected (expected : Bytes) {Q : α → State → Prop} :
    Says inp (Over inp 0) (do throw (unexpected inp (← get).pos expected)) Q :=
  .look fun _ hs => .start (.throw fun _ h => ⟨describes_unexpected _ hs.1.high, h.1⟩) hs

theorem says_skipStep (levels : Levels) (state : SkipState) (c : UInt8) :
    Says inp (Over inp 0) (skipStep o cc inp levels state c) fun _ => At inp 0 := by
  unfold skipStep
  split
  · refine .ite (fun _ => .look fun s hs => .ite (fun _ => ?_) fun _ => ?_) fun _ => ?_
    · exact .start (.throw fun _ h => ⟨describes_depthError hs.2, h.1⟩) hs
    · exact (says_skipOpen _ _).start hs
    · exact (says_skipScalar c).bind fun _ => .pure fun _ h => h
  · refine .ite (fun _ => says_unexpected _) fun _ => ?_
    exact says_parseString.bind fun _ => .given fun _ => says_passColon.bind fun _ =>
      .pure fun _ h => h
  · exact .pure fun _ h => h.1
  · refine .ite (fun _ => ?_) fun _ => .ite (fun _ => ?_) fun _ => says_unexpected _
    · refine says_pass.bind fun _ => says_skipWs.bind fun _ => .look fun u hu => .start ?_ hu
      exact .ite (fun _ => .throw fun _ h => ⟨describes_unexpected _ hu.high, h⟩) fun _ =>
        .pure fun _ h => h
    · exact says_pass.bind fun _ => .pure fun _ h => h

theorem says_skipLoop (fuel : Nat) (levels : Levels) (state : SkipState) :
    Says inp (At inp 0) (skipLoop o cc inp fuel levels state) fun _ => At inp 0 := by
  induction fuel generalizing levels state with
  | zero =>
    intro s hs
    unfold skipLoop
    split
    · exact hs
    · exact ⟨describes_error (c := .truncated) trivial hs.high, hs⟩
  | succ fuel ih =>
    refine .ite (fun _ => .pure fun _ h => h) fun _ => says_skipWs.bind fun _ =>
      .look fun s hs => ?_
    cases hat : at? inp s.pos with
    | none =>
      exact .start (.throw fun _ h => ⟨describes_error (c := .truncated) trivial hs.high, h⟩) hs
    | some c =>
      have hover : Over inp 0 s := ⟨hs, at?_lt hat⟩
      exact .start ((says_skipStep levels state c).bind fun x => ih x.1 x.2) hover

theorem says_skipValue : Says inp (At inp 0) (skipValue o cc inp) fun _ => At inp 0 :=
  .look fun _ hs => (says_skipLoop _ _ _).start hs

/-! ### The reader -/

/-- A place that was saved is one of the input, or one before it. -/
theorem At.restore {q : Nat} (h : At inp p s) (ht : At inp q t) : At inp 0 (t.restore s.save) := by
  refine ht.move (Nat.zero_le _) ?_ rfl
  have hsaved : s.save % 2 ^ 48 = s.pos % 2 ^ 48 := by
    have hhigh : s.depth * 2 ^ 48 % 2 ^ 64 % 2 ^ 48 = 0 := by omega
    rw [State.save, Nat.or_mod_two_pow, hhigh, Nat.or_zero]
  show s.save % 2 ^ 48 ≤ inp.length
  rw [hsaved]
  exact (Nat.mod_le _ _).trans h.high

theorem Errc.reportable_of_constructed {c : Errc} (h : c.constructed = true) : reportable c := by
  cases c <;> trivial

def reports (o : Options) (cc : Charconv) (inp : Bytes) :
    Reports (reader o cc inp) (ground inp) where
  At := At inp
  mono hq h := h.mono hq
  constructed := Errc.reportable_of_constructed
  error _ _ := rfl
  collected h := h.collected
  setCollected h hes := ⟨h.low, h.high, hes⟩
  collected_setCollected _ _ := rfl
  restore h ht := h.restore ht
  offset := says_offset
  peek := says_peek
  keyKind _ := .pure fun _ h => h
  expectNull := says_expectNull
  expectBoolean := says_expectBoolean
  expectUint := says_expectInteger says_expectPlainUint _
  expectSint := says_expectInteger says_expectPlainSint _
  expectReal := says_expectReal
  expectText _ := says_expectText.post fun _ _ h => ⟨h.1, h.2.zero⟩
  expectBytes _ := says_decodeBytes _
  expectTags _ := .pure fun _ h => h
  readRange _ := .pure fun _ h => h
  expectArray := says_expectContainer _ _
  next := says_next arrayBrackets
  expectMap := says_expectContainer _ _
  nextKey := says_next objectBrackets
  keyText _ := says_keyText
  keyUint := says_keyInteger
  keySint := says_keyInteger
  skipValue := says_skipValue

/-! ### Entry points -/

theorem at_start (inp : Bytes) : At inp 0 {} :=
  ⟨le_rfl, Nat.zero_le _, fun _ he => (List.not_mem_nil he).elim⟩

theorem finish_reported : Triple (At inp 0) (finish inp)
    (fun _ _ => True) fun e _ => e.Reported (ground inp) := by
  refine says_skipWs.bind fun _ => .look fun s hs => .ite (fun hlt => .throw fun _ _ => ?_) fun _ =>
    .pure fun _ _ => trivial
  exact ⟨describes_length (c := .trailingContent) trivial hlt, .inr rfl⟩

theorem finishErrors_reported (hs : At inp 0 s) {e : Error} (he : e ∈ finishErrors inp s) :
    e.Reported (ground inp) := by
  unfold finishErrors at he
  split at he
  · exact (List.not_mem_nil he).elim
  · rename_i e' t hrun
    exact List.mem_singleton.1 he ▸ finish_reported.of_error hs hrun

section

variable (env : Env) (o : Options) (cc : Charconv) (inp : Bytes) (fuel : Nat) (t : Ty)

theorem conclude_reported {b : Build State} (hb : (reports o cc inp).Closed b.reader) {e : Error}
    (h : conclude o inp b = .error (.error e)) : e.Reported (ground inp) := by
  unfold conclude at h
  split at h
  · rename_i e' hfirst
    cases h
    split at hfirst
    · rename_i hmode
      exact hb.reported hmode e (List.mem_of_mem_head? hfirst)
    · cases hfirst
  · split at h
    · cases h
    · rename_i e' s hrun
      cases h
      exact finish_reported.of_error hb.good hrun

theorem run_reports (out : Val) :
    Run.Ends (fun _ b => (reports o cc inp).Closed b.reader)
      (fun x b => (∀ e, x = .error e → e.Reported (ground inp)) ∧
        (reports o cc inp).Closed b.reader)
      (VCodec.decode env (reader o cc inp) fuel t { reader := {}, out }) :=
  (reports o cc inp).decode_reports fuel t (at_start inp)

end

/-- The errors that the entry points hand out. -/
inductive HandedOut (env : Env) (o : Options) (cc : Charconv) (inp : Bytes) (fuel : Nat) (t : Ty) :
    Error → Prop
  | decode {e} (h : decode env o cc fuel t inp = .error (.error e)) :
      HandedOut env o cc inp fuel t e
  | decodeInto {e out out'} (h : decodeInto env o cc fuel t inp out = .error (.error e) out') :
      HandedOut env o cc inp fuel t e
  | decodeAll {e c} (h : decodeAll env o cc fuel t inp = .ok c) (he : e ∈ c.errors) :
      HandedOut env o cc inp fuel t e

theorem HandedOut.reported
    {env : Env} {o : Options} {cc : Charconv} {inp : Bytes} {fuel : Nat} {t : Ty} {e : Error}
    (h : HandedOut env o cc inp fuel t e) : e.Reported (ground inp) := by
  cases h with
  | decode h =>
    have hrun := run_reports env o cc inp fuel t (t.zero env)
    unfold Json.decode at h
    split at h
    · rename_i b hb
      rw [hb] at hrun
      exact conclude_reported o cc inp hrun h
    · rename_i x b hb
      rw [hb] at hrun
      cases h
      exact hrun.1 e rfl
  | @decodeInto out out' h =>
    have hrun := run_reports env o cc inp fuel t out
    unfold Json.decodeInto at h
    split at h
    · rename_i b hb
      rw [hb] at hrun
      split at h
      · cases h
      · rename_i x hx
        cases h
        exact conclude_reported o cc inp hrun hx
    · rename_i x b hb
      rw [hb] at hrun
      cases h
      exact hrun.1 e rfl
  | decodeAll h he =>
    have hrun := run_reports env { o with errors := .collect } cc inp fuel t (t.zero env)
    unfold Json.decodeAll at h
    simp only at h
    split at h
    · rename_i b hb
      rw [hb] at hrun
      cases h
      rcases List.mem_append.1 he with he | he
      · exact hrun.reported rfl e he
      · exact finishErrors_reported hrun.good he
    · rename_i x b hb
      rw [hb] at hrun
      cases h
      rcases List.mem_append.1 he with he | he
      · exact hrun.2.reported rfl e he
      · exact List.mem_singleton.1 he ▸ (hrun.1 x rfl).1.reported
    · cases h

/-- Every error that `decode`, `decode_into` or `decode_all` hands out describes the input, whatever
the type, the options, the input and the object decoded into. -/
theorem errors_describe_text (env : Env) (o : Options) (cc : Charconv) (inp : Bytes) (fuel : Nat)
    (t : Ty) (out : Val) :
    (∀ e, decode env o cc fuel t inp = .error (.error e) → e.Reported (ground inp)) ∧
      (∀ e out', decodeInto env o cc fuel t inp out = .error (.error e) out' →
        e.Reported (ground inp)) ∧
      ∀ c, decodeAll env o cc fuel t inp = .ok c → ∀ e ∈ c.errors, e.Reported (ground inp) :=
  ⟨fun _ h => (HandedOut.decode h).reported, fun _ _ h => (HandedOut.decodeInto h).reported,
    fun _ h _ he => (HandedOut.decodeAll h he).reported⟩

end VCodec.Json
