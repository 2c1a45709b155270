import VCodec.Cbor.Total
import VCodec.Core.Reports
import VCodec.Core.Utf8

/-!
# What decoding CBOR reports

Every error that an entry point returns or collects describes the input. It is never one of a text,
and it has no line and column. Its length may reach one byte beyond the input: the length of an
error about a text key counts two quotes, and the head of the key is shorter than they are.
-/

namespace VCodec.Cbor

open Run (Triple)

/-! ### The ground of a CBOR input -/

/-- The codes that the reader or construction may report of a CBOR input. -/
def reportable : Errc → Prop
  | .unexpectedToken | .unterminatedString | .invalidEscape | .invalidNumber | .nonTextKey | .unsupportedSimpleValue => False
  | _ => True

def ground (inp : Bytes) : Ground := ⟨inp.length, 1, fun _ => none, reportable⟩

/-- A state in the input, not before `p`, whose collected errors describe the input. -/
structure At (inp : Bytes) (p : Nat) (s : State) : Prop where
  low : p ≤ s.pos
  high : s.pos ≤ inp.length
  collected : ∀ e ∈ s.collected, e.Describes (ground inp)

/-- An operation that keeps to the input and reports errors about it. -/
abbrev Says {α : Type} (inp : Bytes) (P : State → Prop) (m : M α) (Q : α → State → Prop) : Prop :=
  Reporting (ground inp) (At inp 0) P m Q

/-- The result of an operation that keeps to the input. -/
abbrev Told {α : Type} (inp : Bytes) (Q : α → State → Prop) (x : EStateM.Result Error State α) :
    Prop :=
  Run.Ends Q (fun e s => e.Describes (ground inp) ∧ At inp 0 s) x

variable {o : Options} {inp : Bytes} {s t : State} {h : ParsedHead} {p : Nat} {α β : Type}

theorem At.mono {q : Nat} (hs : At inp p s) (hq : q ≤ p) : At inp q s :=
  ⟨hq.trans hs.low, hs.high, hs.collected⟩

theorem At.zero (hs : At inp p s) : At inp 0 s := hs.mono (Nat.zero_le p)

theorem At.move (hs : At inp p s) {q : Nat} {t : State} (hq : q ≤ t.pos) (ht : t.pos ≤ inp.length)
    (hsame : t.collected = s.collected) : At inp q t := ⟨hq, ht, hsame ▸ hs.collected⟩

/-- Somewhere else in the input. -/
theorem At.elsewhere (hs : At inp p s) {t : State} (ht : t.pos ≤ inp.length)
    (hsame : t.collected = s.collected) : At inp 0 t :=
  hs.move (Nat.zero_le _) ht hsame

/-! ### Errors -/

theorem describes_error {c : Errc} (hc : reportable c) {off : Nat} (hoff : off ≤ inp.length) :
    (error c off).Describes (ground inp) :=
  ⟨hc, hoff, Nat.le_succ_of_le hoff, rfl, fun c hc => (Option.not_mem_none c hc).elim,
    Nat.zero_le _, fun h => Bool.noConfusion h⟩

theorem describes_length {c : Errc} (hc : reportable c) {off n : Nat} (hn : off + n ≤ inp.length) :
    ((error c off).withLength n).Describes (ground inp) :=
  (describes_error hc ((Nat.le_add_right off n).trans hn)).withLength (Nat.le_succ_of_le hn)

/-- A head that is not cut lies in the input. -/
theorem parseHead_le (hlen : (parseHead inp p).length ≠ 0) :
    p + (parseHead inp p).length ≤ inp.length := by
  have hdrop : (inp.drop p).length = inp.length - p := List.length_drop
  unfold parseHead at hlen ⊢
  cases hin : inp.drop p with
  | nil =>
    rw [hin] at hlen
    exact absurd rfl hlen
  | cons ib rest =>
    rw [hin] at hlen hdrop
    rw [List.length_cons] at hdrop
    simp only at hlen ⊢
    split_ifs at hlen ⊢ <;> simp only at hlen ⊢ <;> omega

theorem parseHead_lt (hlen : (parseHead inp p).length ≠ 0) : p < inp.length := by
  have hle := parseHead_le hlen
  omega

/-- The bytes of a head with an argument. -/
theorem parseHead_wide (hlen : (parseHead inp p).length ≠ 0) (hlow : 24 ≤ (parseHead inp p).ai)
    (hhigh : (parseHead inp p).ai ≤ 27) :
    (parseHead inp p).length = 1 + argSize (parseHead inp p).ai := by
  unfold parseHead at hlen hlow hhigh ⊢
  cases hin : inp.drop p with
  | nil =>
    rw [hin] at hlen
    exact absurd rfl hlen
  | cons ib rest =>
    rw [hin] at hlen hlow hhigh
    simp only at hlen hlow hhigh ⊢
    split_ifs at hlen hlow hhigh ⊢ with hbreak
    · have hai : ib.toNat % 32 = 31 := by rw [hbreak]; rfl
      simp only at hhigh
      omega
    all_goals simp only at hlen hlow hhigh ⊢
    all_goals omega

/-- A simple item whose additional information is large is a float. -/
theorem parseHead_float (hmt : (parseHead inp p).mt = .simple)
    (hplain : (parseHead inp p).isBreak = false) (hreserved : (parseHead inp p).reserved = false) :
    (parseHead inp p).ai ≤ 27 := by
  unfold parseHead at hmt hplain hreserved ⊢
  cases hin : inp.drop p with
  | nil => exact Nat.zero_le _
  | cons ib rest =>
    rw [hin] at hmt hplain hreserved
    simp only at hmt hplain hreserved ⊢
    split_ifs at hmt hplain hreserved ⊢ with hbreak hsmall hlast
    · simp only
      omega
    · have hbits : ib.toNat / 32 = 7 := by
        have hlt := ib.toNat_lt
        have hmajor := Major.toNat_ofBits (n := ib.toNat / 32) (by omega)
        simp only at hmt
        rw [hmt] at hmajor
        exact hmajor.symm
      have hbyte : ib = breakByte := UInt8.toNat_inj.1 (by
        show ib.toNat = 255
        omega)
      exact absurd hbyte hbreak
    all_goals simp only
    all_goals omega

theorem floatErrorLength_eq {ai : Nat} (hlow : 25 ≤ ai) (hhigh : ai ≤ 27) :
    floatErrorLength ai = 1 + argSize ai := by
  interval_cases ai <;> rfl

theorem itemLength_le (hp : p ≤ inp.length) (hlen : p + h.length ≤ inp.length) :
    p + itemLength inp p h ≤ inp.length := by
  unfold itemLength
  split_ifs <;> omega

theorem describes_typeError (expected : Bytes) (hlen : p + h.length ≤ inp.length) :
    (typeError inp p expected h).Describes (ground inp) :=
  describes_length (c := .typeMismatch) trivial
    (itemLength_le ((Nat.le_add_right _ _).trans hlen) hlen)

theorem describes_one {c : Errc} (hc : reportable c) (hp : p < inp.length) :
    ((error c p).withLength 1).Describes (ground inp) :=
  describes_length hc hp

theorem describes_checkHead {e : Error} (hlt : p < inp.length) (hlen : p + h.length ≤ inp.length)
    (he : checkHeadDeterministic h p = some e) : e.Describes (ground inp) := by
  unfold checkHeadDeterministic at he
  split at he
  · cases he
    exact describes_one (c := .nonDeterministic) trivial hlt
  split at he
  · cases he
    exact describes_length (c := .nonDeterministic) trivial hlen
  · cases he

theorem describes_checkFloat
    {d : Double} {ai raw : Nat} {e : Error} (hlow : 25 ≤ ai) (hhigh : ai ≤ 27)
    (hlen : p + (1 + argSize ai) ≤ inp.length) (he : checkPreferredFloat d ai raw p = some e) :
    e.Describes (ground inp) := by
  rw [← floatErrorLength_eq hlow hhigh] at hlen
  unfold checkPreferredFloat at he
  split at he
  · split at he
    · cases he
      exact describes_length (c := .nonDeterministic) trivial hlen
    · cases he
  split at he
  · cases he
    exact describes_length (c := .nonDeterministic) trivial hlen
  · cases he

theorem describes_keyOrder
    {cur prev : Bytes} {start : Nat} {e : Error} (hlen : start + cur.length ≤ inp.length)
    (he : keyOrderError cur prev start = some e) : e.Describes (ground inp) := by
  unfold keyOrderError at he
  split at he
  · cases he
    exact describes_length (c := .nonDeterministic) trivial hlen
  · cases he

theorem whenStrict_some {e : Option Error} {e' : Error} (h : whenStrict o e = some e') :
    e = some e' := by
  unfold whenStrict at h
  split at h
  · exact h
  · cases h

/-! ### Heads -/

/-- The head of the item at the place, which lies in the input. -/
structure Headed (inp : Bytes) (h : ParsedHead) (p : Nat) (s : State) : Prop where
  at_ : At inp p s
  head : parseHead inp s.pos = h
  whole : h.length ≠ 0
  plain : h.isBreak = false
  defined : h.reserved = false

theorem Headed.le (hs : Headed inp h p s) : s.pos + h.length ≤ inp.length := by
  have hle : (parseHead inp s.pos).length ≠ 0 → _ := parseHead_le
  rw [hs.head] at hle
  exact hle hs.whole

theorem Headed.pos (hs : Headed inp h p s) : s.pos < inp.length := by
  have hle := hs.le
  have hwhole := hs.whole
  omega

/-- The head that a scan from `p` finds, or an error about the input. -/
def Scanned (inp : Bytes) (p : Nat) : Except Error (Nat × ParsedHead) → Prop
  | .ok (q, h) =>
    p ≤ q ∧ parseHead inp q = h ∧ h.length ≠ 0 ∧ h.isBreak = false ∧ h.reserved = false
  | .error e => e.Describes (ground inp)

theorem scanHead_told (expected : Bytes) (fuel : Nat) (hp : p ≤ inp.length) :
    Scanned inp p (scanHead o inp expected fuel p) := by
  have htruncated : ((error .truncated p).withExpected expected).Describes (ground inp) :=
    describes_error (c := .truncated) trivial hp
  induction fuel generalizing p with
  | zero => exact htruncated
  | succ fuel ih =>
    unfold scanHead
    dsimp only
    split_ifs with hend hcut hbreak hreserved htag hignore hsimple
    · exact htruncated
    · exact htruncated
    · exact describes_one (c := .malformedItem) trivial (parseHead_lt hcut)
    · exact describes_one (c := .malformedItem) trivial (parseHead_lt hcut)
    · have hrest := ih (p := p + (parseHead inp p).length) (parseHead_le hcut)
        (describes_error (c := .truncated) trivial (parseHead_le hcut))
      cases hscan : scanHead o inp expected fuel (p + (parseHead inp p).length) with
      | ok x =>
        rw [hscan] at hrest
        exact ⟨(Nat.le_add_right _ _).trans hrest.1, hrest.2⟩
      | error e =>
        rw [hscan] at hrest
        exact hrest
    · exact describes_length (c := .tagMismatch) trivial (parseHead_le hcut)
    · have hlen := parseHead_wide hcut (by omega) (by omega)
      have hle := parseHead_le hcut
      have hsize : argSize (parseHead inp p).ai = 1 := by rw [hsimple.2.1]; rfl
      have htwo : p + 2 ≤ inp.length := by omega
      exact describes_length (c := .malformedItem) trivial htwo
    · cases hstrict : whenStrict o (checkHeadDeterministic (parseHead inp p) p) with
      | some e =>
        exact describes_checkHead (parseHead_lt hcut) (parseHead_le hcut) (whenStrict_some hstrict)
      | none => exact ⟨le_rfl, rfl, hcut, by simpa using hbreak, by simpa using hreserved⟩

theorem says_itemHead (expected : Bytes) :
    Says inp (At inp p) (itemHead o inp expected) fun h s => Headed inp h p s ∧
      s.start = s.pos := by
  intro s hs
  have htold := scanHead_told (o := o) expected (inp.length - s.pos) hs.high
  unfold itemHead
  cases hscan : scanHead o inp expected (inp.length - s.pos) s.pos with
  | ok x =>
    obtain ⟨q, h⟩ := x
    rw [hscan] at htold
    obtain ⟨hle, hhead, hwhole, hplain, hdefined⟩ := htold
    have hq : q ≤ inp.length := by
      have hin : q + (parseHead inp q).length ≤ inp.length := parseHead_le (by rwa [hhead])
      omega
    exact ⟨⟨hs.move (hs.low.trans hle) hq rfl, hhead, hwhole, hplain, hdefined⟩, rfl⟩
  | error e =>
    rw [hscan] at htold
    exact ⟨htold, hs.zero⟩

theorem says_rawHead : Says inp (At inp p) (rawHead inp) fun h => Headed inp h p := by
  intro s hs
  have htruncated : (error .truncated s.pos).Describes (ground inp) :=
    describes_error (c := .truncated) trivial hs.high
  unfold rawHead
  simp only
  split_ifs with hend hcut hreserved hbreak
  · exact ⟨htruncated, hs.zero⟩
  · exact ⟨htruncated, hs.zero⟩
  · exact ⟨describes_one (c := .malformedItem) trivial (parseHead_lt hcut), hs.zero⟩
  · exact ⟨describes_one (c := .malformedItem) trivial (parseHead_lt hcut), hs.zero⟩
  · exact ⟨hs, rfl, hcut, by simpa using hbreak, by simpa using hreserved⟩

/-! ### Scalars -/

theorem says_consume (h : ParsedHead) : Says inp (Headed inp h p) (consume h) fun _ => At inp 0 :=
  .modify fun _ hs => hs.at_.elsewhere hs.le rfl

theorem says_consumed (h : ParsedHead) (a : α) :
    Says inp (Headed inp h p) (do consume h; return a) fun _ => At inp 0 :=
  (says_consume h).bind fun _ => .pure fun _ hs => hs

theorem says_throwType (expected : Bytes) (h : ParsedHead) {Q : α → State → Prop} :
    Says inp (Headed inp h p) (throwType inp expected h) Q :=
  fun _ hs => ⟨describes_typeError expected hs.le, hs.at_.zero⟩

theorem says_throwRange (detail : Bytes) (h : ParsedHead) {Q : α → State → Prop} :
    Says inp (Headed inp h p) (throwRange detail h) Q :=
  fun _ hs => ⟨describes_length (c := .outOfRange) trivial hs.le, hs.at_.zero⟩

/-- The head of an item, and what is done with it. -/
theorem says_headed {expected : Bytes} {f : ParsedHead → M α} {Q : α → State → Prop}
    (hf : ∀ h, Says inp (Headed inp h p) (f h) Q) :
    Says inp (At inp p) (do f (← itemHead o inp expected)) Q :=
  (says_itemHead expected).bind fun h => (hf h).pre fun _ hs => hs.1

theorem says_expectNull : Says inp (At inp 0) (expectNull o inp) fun _ => At inp 0 :=
  says_headed fun h => .ite (fun _ => says_consume h) fun _ => says_throwType _ h

theorem says_expectBoolean : Says inp (At inp 0) (expectBoolean o inp) fun _ => At inp 0 :=
  says_headed fun h => .ite (fun _ => says_consumed h _) fun _ => says_throwType _ h

theorem says_expectUint : Says inp (At inp 0) (expectUint o inp) fun _ => At inp 0 :=
  says_headed fun h => .ite (fun _ => says_consumed h _) fun _ =>
    .ite (fun _ => says_throwRange _ h) fun _ => says_throwType _ h

theorem says_expectSint : Says inp (At inp 0) (expectSint o inp) fun _ => At inp 0 := by
  refine says_headed fun h => .ite (fun _ => ?_) fun _ => .ite (fun _ => ?_) fun _ =>
    says_throwType _ h
  · exact .ite (fun _ => says_throwRange _ h) fun _ => says_consumed h _
  · exact .ite (fun _ => says_throwRange _ h) fun _ => says_consumed h _

theorem says_expectReal : Says inp (At inp 0) (expectReal o inp) fun _ => At inp 0 := by
  refine says_headed fun h => .ite (fun _ => says_consumed h _) fun _ =>
    .ite (fun _ => says_consumed h _) fun _ =>
    .ite (fun hfloat => .look fun s hs => ?_) fun _ => says_throwType _ h
  cases hstrict : whenStrict o (checkPreferredFloat (floatOf h.ai h.value) h.ai h.value s.pos) with
  | none => exact (says_consumed h _).start hs
  | some e =>
    have hlen := hs.le
    have hwide : (parseHead inp s.pos).length ≠ 0 → _ := parseHead_wide
    rw [hs.head] at hwide
    rw [hwide hs.whole (by omega) hfloat.2.2] at hlen
    exact .start
      (.throw fun _ ht =>
      ⟨describes_checkFloat hfloat.2.1 hfloat.2.2 hlen (whenStrict_some hstrict), ht.at_⟩) hs

/-! ### Strings -/

/-- `n` bytes of text or more have been passed since `s`. -/
structure Took (inp : Bytes) (n : Nat) (s t : State) : Prop where
  grows : s.pos + n ≤ t.pos
  high : t.pos ≤ inp.length
  collected : t.collected = s.collected
  start : t.start = s.start

theorem Took.at_ {n : Nat} (h : Took inp n s t) (hs : At inp p s) : At inp p t :=
  hs.move (hs.low.trans ((Nat.le_add_right _ _).trans h.grows)) h.high h.collected

theorem describes_stringBytes (hle : s.pos + h.length ≤ inp.length) :
    (stringBytesError s.pos h).Describes (ground inp) :=
  describes_length (c := .truncated) trivial hle

theorem take_drop_length {i n : Nat} (hn : n ≤ inp.length - i) :
    ((inp.drop i).take n).length = n := by
  rw [List.length_take, List.length_drop, Nat.min_eq_left hn]

theorem validated_lt {c : Prop} [Decidable c] {b : Bytes} {bad : Nat}
    (hbad : (if c then validateUtf8 b else none) = some bad) :
    bad < b.length := by
  split at hbad
  · exact validateUtf8_lt hbad
  · cases hbad

theorem head?_lt {c : UInt8} (hc : (inp.drop p).head? = some c) : p < inp.length := by
  by_contra hge
  rw [List.drop_eq_nil_of_le (Nat.not_lt.1 hge)] at hc
  cases hc

/-- The chunks hold no more bytes than have been passed. -/
theorem readChunks_told (major : Major) (fuel : Nat) (scratch : Bytes) (hs : At inp p s) :
    Told inp (fun b t => ∃ n, b.length ≤ scratch.length + n ∧ Took inp n s t)
    (readChunks o inp major fuel scratch s) := by
  induction fuel generalizing p s scratch with
  | zero => exact ⟨describes_error (c := .truncated) trivial hs.high, hs.zero⟩
  | succ fuel ih =>
    unfold readChunks
    dsimp only
    split
    · exact ⟨describes_error (c := .truncated) trivial hs.high, hs.zero⟩
    split
    · rename_i hbreak
      exact ⟨0, le_rfl, Nat.le_succ _, head?_lt hbreak, rfl, rfl⟩
    split
    · exact ⟨describes_error (c := .truncated) trivial hs.high, hs.zero⟩
    rename_i hcut
    split
    · exact ⟨describes_length (c := .malformedItem) trivial (parseHead_le hcut), hs.zero⟩
    split
    · exact ⟨describes_stringBytes (parseHead_le hcut), hs.zero⟩
    have hle := parseHead_le hcut
    have hspan :
      ((inp.drop (s.pos + (parseHead inp s.pos).length)).take (parseHead inp s.pos).value).length =
        (parseHead inp s.pos).value := take_drop_length (by omega)
    split
    · rename_i bad hbad
      have hlt := validated_lt hbad
      rw [hspan] at hlt
      refine ⟨describes_one (c := .invalidUtf8) trivial ?_, hs.zero⟩
      omega
    · have hnext : Took inp (parseHead inp s.pos).value s
        (s.advance ((parseHead inp s.pos).length + (parseHead inp s.pos).value)) :=
        ⟨by simp only [State.advance]; omega, by simp only [State.advance]; omega, rfl, rfl⟩
      refine (ih _ (hnext.at_ hs)).mono ?_ fun _ _ he => he
      rintro b t ⟨n, hb, htook⟩
      refine ⟨(parseHead inp s.pos).value + n, ?_, ?_, htook.high, htook.collected, htook.start⟩
      · rw [List.length_append, hspan] at hb
        omega
      · have hgrows := htook.grows
        have hgrows' := hnext.grows
        omega

/-- A string takes a byte at least that is not its own, and behind a definite head exactly that
head. -/
theorem readString_told (major : Major) (hs : Headed inp h p s) :
    Told inp (fun r t => Took inp (1 + r.1.length) s t ∧
      (r.2 = false → s.pos + h.length + r.1.length ≤ inp.length))
      (readString o inp h major s) := by
  have hle := hs.le
  have hwhole := hs.whole
  unfold readString
  split
  · split
    · exact ⟨describes_stringBytes hle, hs.at_.zero⟩
    · have hspan : ((inp.drop (s.pos + h.length)).take h.value).length = h.value :=
        take_drop_length (by omega)
      refine ⟨⟨?_, ?_, rfl, rfl⟩, fun _ => ?_⟩
      · simp only [State.advance, hspan]
        omega
      · simp only [State.advance]
        omega
      · simp only [hspan]
        omega
  split
  · exact ⟨describes_one (c := .nonDeterministic) trivial hs.pos, hs.at_.zero⟩
  · have hbehind : At inp 0 (s.advance h.length) := hs.at_.elsewhere hle rfl
    have htold := readChunks_told (o := o) major (inp.length - (s.pos + h.length)) [] hbehind
    split
    · rename_i scratch t hrun
      rw [hrun] at htold
      obtain ⟨n, hn, htook⟩ := htold
      refine ⟨⟨?_, htook.high, htook.collected, htook.start⟩, fun hfalse => Bool.noConfusion hfalse⟩
      have hgrows := htook.grows
      simp only [State.advance, List.length_nil] at hgrows hn ⊢
      omega
    · rename_i e t hrun
      rw [hrun] at htold
      exact htold

/-- A text has been read that starts at `p` or behind it. -/
structure TextRead (inp : Bytes) (h : ParsedHead) (p : Nat) (r : Bytes × Bool) (t : State) :
    Prop where
  low : p ≤ t.start
  body : t.start + (1 + r.1.length) ≤ t.pos
  definite : r.2 = false → t.start + h.length + r.1.length ≤ inp.length
  at_ : At inp 0 t

theorem says_readText (h : ParsedHead) :
    Says inp (fun s => Headed inp h p s ∧ s.start = s.pos) (readString o inp h .text)
      (TextRead inp h p) := by
  rintro s ⟨hs, hstart⟩
  refine (readString_told .text hs).mono ?_ fun _ _ he => he
  rintro r t ⟨htook, hdefinite⟩
  have hsame := htook.start.trans hstart
  exact ⟨hsame ▸ hs.at_.low, hsame ▸ htook.grows, hsame ▸ hdefinite, (htook.at_ hs.at_).zero⟩

theorem says_expectText : Says inp (At inp p) (expectText o inp) fun t s =>
    ((ground inp).Spans p (t.text.length + 2) ∧ (ground inp).Spans p t.rawLength) ∧ At inp 0 s := by
  refine (says_itemHead _).bind fun h => .ite (fun _ => (says_throwType _ h).pre fun _ hs => hs.1)
    fun _ => ?_
  refine (says_readText h).bind fun r => .look fun t ht => ?_
  have hlow := ht.low
  have hbody := ht.body
  have hhigh := ht.at_.high
  cases hbad : (if o.validateUtf8 then validateUtf8 r.1 else none) with
  | none =>
    refine .start (.pure fun _ hat => ⟨⟨?_, ?_⟩, hat⟩) ht.at_
    · show p + (r.1.length + 2) ≤ inp.length + 1
      omega
    · show p + (t.pos - t.start) ≤ inp.length + 1
      omega
  | some bad =>
    have hlt := validated_lt hbad
    refine .start (.throw fun _ hat => ⟨describes_one (c := .invalidUtf8) trivial ?_, hat⟩) ht.at_
    cases hchunks : r.2 with
    | true =>
      rw [if_pos rfl]
      omega
    | false =>
      have hin := ht.definite hchunks
      rw [if_neg Bool.false_ne_true]
      omega

theorem says_expectBytes : Says inp (At inp 0) (expectBytes o inp) fun _ => At inp 0 := by
  refine says_headed fun h => .ite (fun _ => says_throwType _ h) fun _ =>
    .bind (Q := fun _ => At inp 0) ?_ fun _ => .pure fun _ hs => hs
  exact fun s hs => (readString_told .bytes hs).mono (fun _ _ hr => (hr.1.at_ hs.at_).zero)
    fun _ _ he => he

/-! ### Tags and typed arrays -/

theorem says_expectTags (ts : List Nat) :
    Says inp (At inp 0) (expectTags inp ts) fun _ => At inp 0 := by
  induction ts with
  | nil => exact .pure fun _ hs => hs
  | cons t ts ih =>
    refine says_rawHead.bind fun h => .ite (fun _ => fun _ hs => ?_) fun _ =>
      (says_consume h).bind fun _ => ih
    exact ⟨describes_length (c := .tagMismatch) trivial hs.le, hs.at_.zero⟩

theorem behind_told (h : ParsedHead) {m : M α} (hm : Says inp (At inp 0) m fun _ => At inp 0) :
    Says inp (Headed inp h p) (behind h m) fun _ => At inp 0 := by
  intro s hs
  have hends := hm (s.advance h.length) (hs.at_.elsewhere hs.le rfl)
  unfold behind
  split
  · rename_i a t hrun
    rw [hrun] at hends
    exact hends
  · rename_i e t hrun
    rw [hrun] at hends
    exact ⟨hends.1, hends.2.elsewhere hs.at_.high rfl⟩

/-- Where a typed array starts. -/
theorem says_rangeBytes : Says inp (At inp 0)
    (rangeBytes o inp) fun x s => (∀ r ∈ x, r.2.2 ≤ inp.length) ∧ At inp 0 s := by
  refine says_rawHead.bind fun h =>
    .ite (fun _ => .pure fun _ hs => ⟨fun r hr => (Option.not_mem_none r hr).elim, hs.at_⟩) fun _ =>
    .look fun s hs => ((behind_told h says_expectBytes).start hs).bind fun b => .pure fun _ ht =>
      ⟨fun r hr => ?_, ht⟩
  exact Option.mem_some_iff.1 hr ▸ hs.at_.high

theorem element_told {env : Env} {l : Layout} {t : Ty} {off w : Nat} {e : Error}
    (hoff : off ≤ inp.length) (he : l.element env t off w = .error e) :
    e.Describes (ground inp) := by
  unfold Layout.element at he
  split at he
  · split at he
    · cases he
      exact describes_error (c := .typeMismatch) trivial hoff
    split at he
    · cases he
    · cases he
      exact describes_error (c := .outOfRange) trivial hoff
  · split_ifs at he
  · cases he

theorem fillElements_told
    {element : Nat → Except Error Val}
    (helement : ∀ w e, element w = .error e → e.Describes (ground inp))
    (ws : List Nat) (olds : List Val) {e : Error} (he : (fillElements element ws olds).2 = some e) :
    e.Describes (ground inp) := by
  induction ws generalizing olds with
  | nil => cases olds <;> cases he
  | cons w ws ih =>
    cases olds with
    | nil => cases he
    | cons old olds =>
      unfold fillElements at he
      split at he
      · exact ih olds he
      · rename_i hw
        cases he
        exact helement w e hw

theorem tells_typedArrayInto
    (env : Env) (tag : Nat) (b : Bytes) (t : Ty) {off : Nat} (hoff : off ≤ inp.length) :
    ReportingRun (ground inp) (At inp 0) (At inp 0) (typedArrayInto env tag b t off) fun _ =>
      At inp 0 := by
  have hfail : ∀ {c : Errc}, reportable c → (error c off).Describes (ground inp) :=
    fun hc => describes_error hc hoff
  refine .ite (fun _ => fun _ hb => ⟨hfail (c := .typeMismatch) trivial, hb⟩) fun _ =>
    .ite (fun _ => fun _ hb => ?_) fun _ =>
    .ite (fun _ => ?_) fun _ => fun _ hb => ⟨hfail (c := .typeMismatch) trivial, hb⟩
  · exact ⟨hfail (c := .malformedItem) trivial, hb⟩
  intro b₀ hb
  show Run.Ends _ _ (fillRange _ _ _ b₀)
  unfold fillRange
  simp only
  split
  · exact hb
  · rename_i e he
    exact ⟨fillElements_told (fun _ _ => element_told hoff) _ _ he, hb⟩

theorem tells_readRange (env : Env) (t : Ty) :
    ReportingRun (ground inp) (At inp 0) (At inp 0) (readRange env o inp t) fun _ => At inp 0 := by
  refine .ite (fun _ => .pure fun _ hb => hb) fun _ => .bind (m := D.call (rangeBytes o inp))
    (Q := fun x b => (∀ r ∈ x, r.2.2 ≤ inp.length) ∧ At inp 0 b.reader) (fun b hb => ?_) fun x =>
      .given fun hx => ?_
  · have hends := says_rangeBytes (o := o) b.reader hb
    unfold D.call
    cases hrun : rangeBytes o inp b.reader with
    | ok x s =>
      rw [hrun] at hends
      exact hends
    | error e s =>
      rw [hrun] at hends
      exact hends
  · match x with
    | none => exact .pure fun _ hb => hb
    | some (tag, b, start) =>
      exact (tells_typedArrayInto env tag b t (hx _ rfl)).bind fun _ => .pure fun _ hb => hb

/-! ### Skipped items -/

/-- The keys that have been noted start in the input. -/
def Marked (inp : Bytes) (stack : List Level) : Prop := ∀ l ∈ stack, l.keyStart ≤ inp.length

def Step.stack : Step → List Level
  | .again stack => stack
  | .done stack => stack

theorem Marked.push {stack : List Level} (hm : Marked inp stack) {l : Level}
    (hl : l.keyStart ≤ inp.length) : Marked inp (l :: stack) := by
  intro l' hl'
  rcases List.mem_cons.1 hl' with rfl | hl'
  · exact hl
  · exact hm l' hl'

theorem Marked.tail {stack : List Level} {l : Level} (hm : Marked inp (l :: stack)) :
    Marked inp stack :=
  fun l' hl' => hm l' (List.mem_cons_of_mem l hl')

theorem Marked.markKey (o : Options) {stack : List Level} (hm : Marked inp stack)
    (hp : p ≤ inp.length) : Marked inp (markKey o stack p) := by
  unfold Cbor.markKey
  split
  · exact hm
  · rename_i top rest
    refine hm.tail.push ?_
    unfold Level.mark
    split
    · exact hp
    · exact hm top List.mem_cons_self

/-- A step leaves noted keys and a state that are in order. -/
abbrev Stepped (inp : Bytes) (x : Step) (t : State) : Prop := Marked inp x.stack ∧ At inp 0 t

theorem skipText_told {stack : List Level} (hm : Marked inp stack) (hs : Headed inp h 0 s)
    (validated : Prop) [Decidable validated] :
    Told inp (Stepped inp) (match readString o inp h h.mt s with
      | .error e s => .error e s
      | .ok r s' =>
        match (if validated then validateUtf8 r.1 else none) with
        | some bad =>
          .error ((error .invalidUtf8 (if r.2 then s.pos else s.pos + h.length + bad)).withLength 1)
            s'
        | none => .ok (.done stack) s') := by
  have htold := readString_told (o := o) h.mt hs
  have hpos := hs.pos
  cases hrun : readString o inp h h.mt s with
  | error e t =>
    rw [hrun] at htold
    exact htold
  | ok r t =>
    rw [hrun] at htold
    obtain ⟨htook, hdefinite⟩ := htold
    have hat := (htook.at_ hs.at_).zero
    simp only
    split
    · rename_i bad hbad
      have hlt := validated_lt hbad
      refine ⟨describes_one (c := .invalidUtf8) trivial ?_, hat⟩
      cases hchunks : r.2 with
      | true =>
        rw [if_pos rfl]
        exact hpos
      | false =>
        have hin := hdefinite hchunks
        rw [if_neg Bool.false_ne_true]
        omega
    · exact ⟨hm, hat⟩

theorem skipBody_told {stack : List Level} (hm : Marked inp stack) (hs : Headed inp h 0 s) :
    Told inp (Stepped inp) (skipBody o inp stack h s) := by
  have hle := hs.le
  have hbehind : At inp 0 (s.advance h.length) := hs.at_.elsewhere hle rfl
  have hwide : (parseHead inp s.pos).length ≠ 0 → _ := parseHead_wide
  have hfloat : (parseHead inp s.pos).mt = .simple → _ := parseHead_float
  rw [hs.head] at hwide hfloat
  unfold skipBody
  cases hmt : h.mt with
  | uint | nint => exact ⟨hm, hbehind⟩
  | simple =>
    have hhigh := hfloat hmt hs.plain hs.defined
    simp only
    split
    · rename_i hsmall
      have hlen := hwide hs.whole (by omega) hhigh
      have htwo : s.pos + 2 ≤ inp.length := by
        rw [hlen, hsmall.1] at hle
        exact hle
      exact ⟨describes_length (c := .malformedItem) trivial htwo, hs.at_⟩
    split
    · rename_i e he
      have hcheck := whenStrict_some he
      split at hcheck
      · rename_i hlow
        rw [hwide hs.whole (by omega) hhigh] at hle
        exact ⟨describes_checkFloat hlow hhigh hle hcheck, hs.at_⟩
      · cases hcheck
    · exact ⟨hm, hbehind⟩
  | bytes | text =>
    have htold := skipText_told (o := o) hm hs (o.validateUtf8 = true ∧ h.mt = .text)
    rw [hmt] at htold
    exact htold
  | tag =>
    simp only
    split
    · exact ⟨describes_error (c := .truncated) trivial hle, hbehind⟩
    split
    · rename_i hbreak
      exact ⟨describes_one (c := .malformedItem) trivial (head?_lt hbreak), hbehind⟩
    · exact ⟨hm, hbehind⟩
  | array | map =>
    simp only
    split
    · exact ⟨describes_one (c := .depthExceeded) trivial hs.pos, hs.at_⟩
    have hin : ∀ d, At inp 0 { s with pos := s.pos + h.length, depth := d } :=
      fun d => hs.at_.elsewhere hle rfl
    split
    · exact ⟨hm.push (Nat.zero_le _), hin _⟩
    split
    · exact ⟨hm, hin _⟩
    · exact ⟨hm.push (Nat.zero_le _), hin _⟩

theorem skipHead_told {stack : List Level} (hm : Marked inp stack) (hs : At inp 0 s) :
    Told inp (Stepped inp) (skipHead o inp stack s) := by
  unfold skipHead
  simp only
  split
  · exact ⟨describes_error (c := .truncated) trivial hs.high, hs⟩
  rename_i hcut
  have hlt := parseHead_lt hcut
  split
  · split
    · exact ⟨describes_one (c := .malformedItem) trivial hlt, hs⟩
    · split
      · exact ⟨describes_one (c := .malformedItem) trivial hlt, hs⟩
      split
      · exact ⟨describes_one (c := .malformedItem) trivial hlt, hs⟩
      · exact ⟨hm.tail, hs.elsewhere hlt rfl⟩
  rename_i hplain
  split
  · exact ⟨describes_one (c := .malformedItem) trivial hlt, hs⟩
  rename_i hdefined
  split
  · rename_i e he
    exact ⟨describes_checkHead hlt (parseHead_le hcut) (whenStrict_some he), hs⟩
  · exact skipBody_told hm ⟨hs, rfl, hcut, by simpa using hplain, by simpa using hdefined⟩

theorem subspan_le {start stop : Nat} (hstart : start ≤ inp.length) :
    start + (subspan inp start stop).length ≤ inp.length := by
  rw [subspan, List.length_take, List.length_drop]
  omega

theorem checkKey_error {l : Level} (hl : l.keyStart ≤ inp.length) {e : Error}
    (he : l.checkKey o inp p = .error e) :
    e.Describes (ground inp) := by
  unfold Level.checkKey at he
  split at he
  · simp only at he
    split at he
    · rename_i e' hkey
      cases he
      split at hkey
      · exact describes_keyOrder (subspan_le hl) hkey
      · cases hkey
    · cases he
  · cases he

theorem checkKey_keyStart {l l' : Level} (h : l.checkKey o inp p = .ok l') :
    l'.keyStart = l.keyStart := by
  unfold Level.checkKey at h
  split at h
  · simp only at h
    split at h
    · cases h
    · cases h
      rfl
  · cases h
    rfl

theorem flip_keyStart (l : Level) : l.flip.keyStart = l.keyStart := by
  unfold Level.flip
  split <;> rfl

theorem count_keyStart {l l' : Level} (h : l.count = some l') : l'.keyStart = l.keyStart := by
  unfold Level.count at h
  split at h
  · simp only at h
    split at h
    · cases h
    · cases h
      rfl
  · cases h
    rfl

theorem itemDone_told {stack : List Level} (hm : Marked inp stack) (hs : At inp 0 s) :
    Told inp (fun stack t => Marked inp stack ∧ At inp 0 t) (itemDone o inp stack s) := by
  induction stack generalizing s with
  | nil => exact ⟨hm, hs⟩
  | cons top rest ih =>
    have htop := hm top List.mem_cons_self
    unfold itemDone
    split
    · rename_i e he
      exact ⟨checkKey_error htop he, hs⟩
    · rename_i top' hcheck
      split
      · exact ih hm.tail (hs.elsewhere hs.high rfl)
      · rename_i last hcount
        refine ⟨hm.tail.push ?_, hs⟩
        rw [count_keyStart hcount, flip_keyStart, checkKey_keyStart hcheck]
        exact htop

theorem skipLoop_told (fuel : Nat) {stack : List Level} (hm : Marked inp stack) (hs : At inp 0 s) :
    Told inp (fun _ => At inp 0) (skipLoop o inp fuel stack s) := by
  induction fuel generalizing stack s with
  | zero => exact ⟨describes_error (c := .truncated) trivial hs.high, hs⟩
  | succ fuel ih =>
    have hstep := skipHead_told (o := o) (hm.markKey o hs.high) hs
    unfold skipLoop
    split
    · exact ⟨describes_error (c := .truncated) trivial hs.high, hs⟩
    cases hrun : skipHead o inp (markKey o stack s.pos) s with
    | error e t =>
      rw [hrun] at hstep
      exact hstep
    | ok x t =>
      rw [hrun] at hstep
      cases x with
      | again stack => exact ih hstep.1 hstep.2
      | done stack =>
        have hdone := itemDone_told (o := o) hstep.1 hstep.2
        simp only
        split
        · rename_i e u hitem
          rw [show Step.stack (.done stack) = stack from rfl, hitem] at hdone
          exact hdone
        · rename_i u hitem
          rw [show Step.stack (.done stack) = stack from rfl, hitem] at hdone
          exact hdone.2
        · rename_i top rest u hitem
          rw [show Step.stack (.done stack) = stack from rfl, hitem] at hdone
          exact ih hdone.1 hdone.2

theorem says_skipValue : Says inp (At inp 0) (skipValue o inp) fun _ => At inp 0 :=
  fun _ hs => skipLoop_told _ (fun _ hl => (List.not_mem_nil hl).elim) hs

/-! ### Containers -/

/-- A place that was saved is one of the input, or one before it. -/
theorem At.restore {q : Nat} (hs : At inp p s) (ht : At inp q t) : At inp 0 (t.restore s.save) := by
  refine ht.elsewhere ?_ rfl
  have hsaved : s.save % 2 ^ 48 = s.pos % 2 ^ 48 := by
    have hhigh : s.depth * 2 ^ 48 % 2 ^ 64 % 2 ^ 48 = 0 := by omega
    rw [State.save, Nat.or_mod_two_pow, hhigh, Nat.or_zero]
  show s.save % 2 ^ 48 ≤ inp.length
  rw [hsaved]
  exact (Nat.mod_le _ _).trans hs.high

theorem says_next (c : SeqCursor) : Says inp (At inp 0) (c.next inp) fun _ => At inp 0 := by
  intro s hs
  unfold SeqCursor.next
  split
  · exact hs.elsewhere hs.high rfl
  · split
    · exact ⟨describes_error (c := .truncated) trivial hs.high, hs⟩
    · exact hs
  · split
    · exact ⟨describes_error (c := .truncated) trivial hs.high, hs⟩
    split
    · rename_i hbreak
      exact hs.elsewhere (head?_lt hbreak) rfl
    · exact hs

theorem says_keyAhead (c : MapCursor) :
    Says inp (At inp 0) (c.keyAhead o inp) fun _ => At inp 0 := by
  intro s hs
  have hskip := says_skipValue (o := o) s hs
  unfold MapCursor.keyAhead
  split
  · split
    · rename_i e t hrun
      rw [hrun] at hskip
      exact hs.restore hskip.2
    · rename_i u t hrun
      rw [hrun] at hskip
      simp only
      split
      · rename_i e he
        split at he
        · exact ⟨describes_keyOrder (subspan_le hs.high) he, hs.restore hskip⟩
        · cases he
      · exact hs.restore hskip
  · exact hs

theorem says_nextKey (c : MapCursor) : Says inp (At inp 0) (c.next o inp) fun _ => At inp 0 := by
  intro s hs
  unfold MapCursor.next
  split
  · exact hs.elsewhere hs.high rfl
  · split
    · exact ⟨describes_error (c := .truncated) trivial hs.high, hs⟩
    · exact says_keyAhead _ s hs
  · split
    · exact ⟨describes_error (c := .truncated) trivial hs.high, hs⟩
    split
    · rename_i hbreak
      exact hs.elsewhere (head?_lt hbreak) rfl
    · exact says_keyAhead _ s hs

theorem says_expectContainer (isMap : Bool) (expected : Bytes) :
    Says inp (At inp 0) (expectContainer o inp isMap expected) fun _ => At inp 0 := by
  refine says_headed fun h => .ite (fun _ => says_throwType _ h) fun _ => fun s hs => ?_
  unfold enter
  split
  · exact ⟨describes_one (c := .depthExceeded) trivial hs.pos, hs.at_⟩
  · exact hs.at_.elsewhere hs.le rfl

/-! ### The reader -/

theorem reportable_of_constructed {c : Errc} (hc : c.constructed = true) : reportable c := by
  cases c <;> trivial

def reports (env : Env) (o : Options) (inp : Bytes) : Reports (reader env o inp) (ground inp) where
  At := At inp
  mono hq hs := hs.mono hq
  constructed := reportable_of_constructed
  error _ _ := rfl
  collected hs := hs.collected
  setCollected hs hes := ⟨hs.low, hs.high, hes⟩
  collected_setCollected _ _ := rfl
  restore hs ht := hs.restore ht
  offset := fun _ hs => ⟨hs.high, hs.move le_rfl hs.high rfl⟩
  peek := fun _ hs => hs
  keyKind _ := fun _ hs => hs
  expectNull := says_expectNull
  expectBoolean := says_expectBoolean
  expectUint _ := says_expectUint
  expectSint _ := says_expectSint
  expectReal := says_expectReal
  expectText _ := says_expectText
  expectBytes _ := says_expectBytes
  expectTags := says_expectTags
  readRange := tells_readRange env
  expectArray := (says_expectContainer _ _).bind fun _ => .pure fun _ hs => hs
  next := says_next
  expectMap := (says_expectContainer _ _).bind fun _ => .pure fun _ hs => hs
  nextKey := says_nextKey
  keyText _ := says_expectText.post fun _ _ hs => ⟨hs.1.1, hs.2⟩
  keyUint := says_expectUint
  keySint := says_expectSint
  skipValue := says_skipValue

/-! ### Entry points -/

theorem at_start (inp : Bytes) : At inp 0 (start inp {}) := by
  have hzero : At inp 0 {} := ⟨le_rfl, Nat.zero_le _, fun _ he => (List.not_mem_nil he).elim⟩
  unfold start
  simp only
  split
  · rename_i htag
    exact hzero.elsewhere (parseHead_le htag.1) rfl
  · exact hzero

theorem finish_reported {e : Error} (h : finish inp s = .error e t) : e.Reported (ground inp) := by
  unfold finish at h
  split at h
  · rename_i hlt
    cases h
    exact ⟨describes_one (c := .trailingContent) trivial hlt, .inr rfl⟩
  · cases h

theorem finishErrors_reported {e : Error} (he : e ∈ finishErrors inp s) :
    e.Reported (ground inp) := by
  unfold finishErrors at he
  split at he
  · exact (List.not_mem_nil he).elim
  · rename_i e' t hrun
    exact List.mem_singleton.1 he ▸ finish_reported hrun

theorem reported_annotate (env : Env) (t : Ty) {e : Error} (he : e.Reported (ground inp)) :
    (annotateTypeDeterminism env t e).Reported (ground inp) := by
  unfold annotateTypeDeterminism
  split
  · split
    · exact he
    · exact he
  · exact he

theorem conclude_reported {env : Env} {b : Build State} (hb : (reports env o inp).Closed b.reader)
    {e : Error} (h : conclude o inp b = .error (.error e)) : e.Reported (ground inp) := by
  unfold conclude at h
  split at h
  · rename_i e' hfirst
    cases h
    split at hfirst
    · rename_i hmode
      exact hb.reported hmode e (List.mem_of_mem_head? hfirst)
    · cases hfirst
  · split at h
    · cases h
    · rename_i e' s hrun
      cases h
      exact finish_reported hrun

theorem run_reports (env : Env) (o : Options) (inp : Bytes) (fuel : Nat) (t : Ty) (out : Val) :
    Run.Ends (fun _ b => (reports env o inp).Closed b.reader)
      (fun x b => (∀ e, x = .error e → e.Reported (ground inp)) ∧
        (reports env o inp).Closed b.reader)
      (VCodec.decode env (reader env o inp) fuel t { reader := start inp {}, out }) :=
  (reports env o inp).decode_reports fuel t (at_start inp)

/-- The errors that the entry points hand out. -/
inductive HandedOut (env : Env) (o : Options) (inp : Bytes) (fuel : Nat) (t : Ty) : Error → Prop
  | decode {e} (h : decode env o fuel t inp = .error (.error e)) : HandedOut env o inp fuel t e
  | decodeInto {e out out'} (h : decodeInto env o fuel t inp out = .error (.error e) out') :
      HandedOut env o inp fuel t e
  | decodeAll {e c} (h : decodeAll env o fuel t inp = .ok c) (he : e ∈ c.errors) :
      HandedOut env o inp fuel t e

theorem HandedOut.reported {env : Env} {o : Options} {inp : Bytes} {fuel : Nat} {t : Ty} {e : Error}
    (h : HandedOut env o inp fuel t e) : e.Reported (ground inp) := by
  cases h with
  | decode h =>
    have hrun := run_reports env (withTypeDeterminism o (isDeterministicType env t)) inp fuel t
      (t.zero env)
    unfold Cbor.decode at h
    simp only at h
    split at h
    · rename_i b hb
      rw [hb] at hrun
      exact conclude_reported hrun h
    · rename_i e' b hb
      rw [hb] at hrun
      cases h
      exact reported_annotate env t (hrun.1 e' rfl).1.reported
    · rename_i hother _
      cases h
      exact absurd rfl (hother e)
  | @decodeInto out out' h =>
    have hrun := run_reports env (withTypeDeterminism o (isDeterministicType env t)) inp fuel t out
    unfold Cbor.decodeInto at h
    simp only at h
    split at h
    · rename_i b hb
      rw [hb] at hrun
      split at h
      · cases h
      · rename_i x hx
        cases h
        exact conclude_reported hrun hx
    · rename_i e' b hb
      rw [hb] at hrun
      cases h
      exact reported_annotate env t (hrun.1 e' rfl).1.reported
    · rename_i hother _
      cases h
      exact absurd rfl (hother e)
  | decodeAll h he =>
    have hrun :=
      run_reports env { withTypeDeterminism o (isDeterministicType env t) with errors := .collect }
      inp fuel t (t.zero env)
    unfold Cbor.decodeAll at h
    simp only at h
    split at h
    · rename_i b hb
      rw [hb] at hrun
      cases h
      rcases List.mem_append.1 he with he | he
      · obtain ⟨e', he', rfl⟩ := List.mem_map.1 he
        exact reported_annotate env t (hrun.reported rfl e' he')
      · exact finishErrors_reported he
    · rename_i x b hb
      rw [hb] at hrun
      cases h
      rcases List.mem_append.1 he with he | he
      · obtain ⟨e', he', rfl⟩ := List.mem_map.1 he
        exact reported_annotate env t (hrun.2.reported rfl e' he')
      · exact List.mem_singleton.1 he ▸ reported_annotate env t (hrun.1 x rfl).1.reported
    · cases h

/-- Every error that `decode`, `decode_into` or `decode_all` hands out describes the input, whatever
the type, the options, the input and the object decoded into. -/
theorem errors_describe_items
    (env : Env) (o : Options) (inp : Bytes) (fuel : Nat) (t : Ty) (out : Val) :
    (∀ e, decode env o fuel t inp = .error (.error e) → e.Reported (ground inp)) ∧
      (∀ e out', decodeInto env o fuel t inp out = .error (.error e) out' → e.Reported (ground inp))
        ∧
      ∀ c, decodeAll env o fuel t inp = .ok c → ∀ e ∈ c.errors, e.Reported (ground inp) :=
  ⟨fun _ h => (HandedOut.decode h).reported, fun _ _ h => (HandedOut.decodeInto h).reported,
    fun _ h _ he => (HandedOut.decodeAll h he).reported⟩

end VCodec.Cbor
