import VCodec.Json.Api
import VCodec.Core.Total

/-!
# Every decode of JSON ends

An operation that decodes something moves the reader forward within the input.
-/

namespace VCodec.Json

variable {o : Options} {cc : Charconv} {inp : Bytes} {n : Nat} {s t : State} {α : Type}

/-- The place is in the input, with less than `n` bytes ahead. -/
def Ahead (inp : Bytes) (n : Nat) (s : State) : Prop := s.pos ≤ inp.length ∧ inp.length - s.pos < n

theorem Ahead.jump (hs : Ahead inp (n + 1) s) (hlt : s.pos < t.pos) (hle : t.pos ≤ inp.length) :
    Ahead inp n t := by
  have h := hs.2
  exact ⟨hle, by omega⟩

theorem at?_lt {p : Nat} {c : UInt8} (h : at? inp p = some c) : p < inp.length :=
  (List.getElem?_eq_some_iff.1 h).1

/-- The byte that stands at a place is passed. -/
theorem Ahead.pass {c : UInt8} (hs : Ahead inp (n + 1) s)
    (hc : at? inp s.pos = some c) (hpos : t.pos = s.pos + 1) :
    Ahead inp n t := by
  have hlt := at?_lt hc
  exact hs.jump (by omega) (by omega)

theorem ahead_restore (hsize : inp.length < 2 ^ 48) (hs : Ahead inp n s) (t : State) :
    Ahead inp n (t.restore s.save) := by
  have hpos : s.save % 2 ^ 48 = s.pos := saved_pos s.depth (lt_of_le_of_lt hs.1 hsize)
  unfold Ahead State.restore
  rw [hpos]
  exact hs

/-! ### Blanks and literals -/

theorem keeps_skipWs : Keeps (Ahead inp) (skipWs inp) := by
  rintro n s _ _ hs ⟨⟩
  have hlen := (List.takeWhile_sublist isWs (l := inp.drop s.pos)).length_le
  have hle := hs.1
  have hlt := hs.2
  rw [List.length_drop] at hlen
  constructor <;> simp only [State.advance] <;> omega

/-- Blanks are passed before an operation. -/
theorem eats_blanks {m : M α} (h : Eats (Ahead inp) m) : Eats (Ahead inp) (do skipWs inp; m) :=
  keeps_skipWs.bind_eats fun _ => h

theorem keeps_blanks {m : M α} (h : Keeps (Ahead inp) m) : Keeps (Ahead inp) (do skipWs inp; m) :=
  keeps_skipWs.bind fun _ => h

/-- The state is read, and something is done with it. -/
theorem eats_look
    {f : State → M α} (h : ∀ n s a t, Ahead inp (n + 1) s → f s s = .ok a t → Ahead inp n t) :
    Eats (Ahead inp) (do f (← get)) := fun n s a t hs hrun => h n s a t hs hrun

theorem keeps_look
    {f : State → M α} (h : ∀ n s a t, Ahead inp n s → f s s = .ok a t → Ahead inp n t) :
    Keeps (Ahead inp) (do f (← get)) := fun n s a t hs hrun => h n s a t hs hrun

theorem keeps_mismatch (expected : Bytes) (want : UInt8) :
    Keeps (Ahead inp) (mismatch inp expected want) := by
  intro n s a t hs h
  unfold mismatch at h
  split at h
  · cases h
    exact hs
  · cases h

theorem eats_literal {word : Bytes} (hword : word ≠ []) : Eats (Ahead inp) (literal inp word) := by
  intro n s a t hs h
  unfold literal at h
  split at h
  · rename_i heq
    cases h
    have hlen := congrArg List.length heq
    have hpos := List.length_pos_iff.2 hword
    have hle := hs.1
    rw [substr, List.length_take, List.length_drop] at hlen
    apply hs.jump <;> simp only [State.advance] <;> omega
  split at h
  · cases h
  · cases h

/-! ### Strings -/

theorem scanPlain_ok {open_ fuel i : Nat} {x : Plain} (h : scanPlain inp open_ fuel i = .ok x) :
    match x with
    | .quote j => i ≤ j ∧ at? inp j = some 0x22
    | .escape j => i ≤ j := by
  induction fuel generalizing i with
  | zero => cases h
  | succ fuel ih =>
    unfold scanPlain at h
    split at h
    · cases h
    · rename_i c hc
      split at h
      · rename_i hquote
        cases h
        exact ⟨le_rfl, hquote ▸ hc⟩
      split at h
      · cases h
        exact le_rfl
      split at h
      · cases h
      · have ih := ih h
        cases x with
        | quote j => exact ⟨Nat.le_of_succ_le ih.1, ih.2⟩
        | escape j => exact Nat.le_of_succ_le ih

theorem unescape_ok {open_ fuel i close : Nat} {scratch text : Bytes}
    (h : unescape inp open_ fuel i scratch = .ok (text, close)) :
    i ≤ close ∧ at? inp close = some 0x22 := by
  induction fuel generalizing i scratch with
  | zero => cases h
  | succ fuel ih =>
    unfold unescape at h
    split at h
    · cases h
    · rename_i c hc
      split at h
      · rename_i hquote
        cases h
        exact ⟨le_rfl, hquote ▸ hc⟩
      split at h
      · cases h
      split at h
      · have ih := ih h
        exact ⟨Nat.le_of_succ_le ih.1, ih.2⟩
      split at h
      · cases h
      · have ih := ih h
        exact ⟨(Nat.le_add_right _ _).trans ih.1, ih.2⟩

theorem closeString_ok {open_ close : Nat} {text : Bytes} {borrowed : Bool} {x : TextRef}
    (h : closeString o inp open_ close text borrowed s = .ok x t) : t.pos = close + 1 := by
  unfold closeString at h
  split at h
  · cases h
  · cases h
    rfl

theorem eats_parseString : Eats (Ahead inp) (parseString o inp) := by
  intro n s x t hs h
  unfold parseString at h
  simp only at h
  split at h
  · cases h
  · rename_i i hscan
    have hi := scanPlain_ok hscan
    have hpos := closeString_ok h
    have hlt := at?_lt hi.2
    exact hs.jump (by omega) (by omega)
  · rename_i i hscan
    have hi : s.pos + 1 ≤ i := scanPlain_ok hscan
    split at h
    · cases h
    · rename_i text close htext
      have hclose := unescape_ok htext
      have hpos := closeString_ok h
      have hlt := at?_lt hclose.2
      exact hs.jump (by omega) (by omega)

/-! ### Numbers -/

/-- A number is not empty, and lies in the text. -/
theorem scanNumber_length {b : Bytes} (h : (scanNumber cc b).kind ≠ .undefined) :
    0 < (scanNumber cc b).length ∧ (scanNumber cc b).length ≤ b.length := by
  unfold scanNumber at h ⊢
  cases hparts : scanParts b with
  | none =>
    rw [hparts] at h
    exact absurd rfl h
  | some p =>
    obtain ⟨num, r, rfl, -, rfl⟩ := scanParts_eq_some.1 hparts
    have hlen : (classify cc (num.bytes ++ r) num.parts).length = num.parts.length := by
      unfold classify
      simp only
      split
      · unfold realScan
        split
        · rfl
        · split <;> rfl
      split
      · rfl
      split
      · rfl
      · unfold realScan
        split
        · rfl
        · split <;> rfl
    have hint : 0 < num.int.length := by
      rcases num.int_ok with heq | ⟨⟨hne, -⟩, -⟩
      · simp [heq]
      · exact List.length_pos_iff.2 hne
    simp only [hlen]
    constructor
    · simp only [Number.parts, Parts.length]
      omega
    · rw [num.parts_length, List.length_append]
      exact Nat.le_add_right _ _

/-- The number at the position, which is then passed or reported. -/
theorem eats_number {expected : Bytes} {f : NumberScan → M α}
    (h : ∀ x n s a t, (0 < x.length ∧ s.pos + x.length ≤ inp.length) → Ahead inp (n + 1) s →
      f x s = .ok a t →
      Ahead inp n t) : Eats (Ahead inp) (do f (← number cc inp expected)) := by
  intro n s a t hs hrun
  obtain ⟨x, s₁, hnum, hrest⟩ := Run.bind_eq_ok.1 hrun
  unfold number at hnum
  split at hnum
  · cases hnum
  split at hnum
  · cases hnum
  simp only at hnum
  split at hnum
  · cases hnum
  · rename_i hkind
    cases hnum
    have hlen := scanNumber_length hkind
    have hle := hs.1
    rw [List.length_drop] at hlen
    exact h _ n s a t ⟨hlen.1, by omega⟩ hs hrest

theorem Ahead.passNumber {x : NumberScan} (hx : 0 < x.length ∧ s.pos + x.length ≤ inp.length)
    (hs : Ahead inp (n + 1) s) {a b : α} (h : (do passNumber x; return a : M α) s = .ok b t) :
    Ahead inp n t := by
  cases h
  have hlt := hs.2
  apply hs.jump <;> simp only [State.advance] <;> omega

theorem eats_expectPlainUint : Eats (Ahead inp) (expectPlainUint cc inp) := by
  refine eats_blanks (eats_number fun x n s a t hx hs h => ?_)
  split at h
  · exact hs.passNumber hx h
  split at h
  · cases h
  · cases h

theorem eats_expectPlainSint : Eats (Ahead inp) (expectPlainSint cc inp) := by
  refine eats_blanks (eats_number fun x n s a t hx hs h => ?_)
  split at h
  · exact hs.passNumber hx h
  split at h
  · split at h
    · cases h
    · exact hs.passNumber hx h
  split at h
  · cases h
  · cases h

theorem eats_expectReal : Eats (Ahead inp) (expectReal cc inp) := by
  refine eats_blanks (eats_number fun x n s a t hx hs h => ?_)
  exact hs.passNumber hx h

/-! ### Other scalars -/

theorem eats_expectNull : Eats (Ahead inp) (expectNull inp) :=
  eats_blanks ((keeps_mismatch _ _).bind_eats fun _ => eats_literal (by decide))

theorem eats_expectBoolean : Eats (Ahead inp) (expectBoolean inp) := by
  refine eats_blanks (Keeps.get.bind_eats fun s => ?_)
  refine .ite ((eats_literal (by decide)).bind fun _ => .pure _) (.ite ?_ (.throw _))
  exact (eats_literal (by decide)).bind fun _ => .pure _

theorem eats_quotedInteger (accept : NumberScan → Option α) :
    Eats (Ahead inp) (quotedInteger o cc inp accept) := by
  refine Keeps.get.bind_eats fun s => eats_parseString.bind fun x => .ite ?_ ?_
  · intro n s a t _ h
    cases h
  · cases accept (scanNumber cc x.text) with
    | some a => exact .pure _
    | none =>
      intro n s a t _ h
      cases h

theorem eats_expectInteger {bare : M α} (hbare : Eats (Ahead inp) bare)
    (accept : NumberScan → Option α) (f : FieldMeta) :
    Eats (Ahead inp) (expectInteger o cc inp bare accept f) :=
  .ite (eats_blanks (Keeps.get.bind_eats fun _ => .ite (eats_quotedInteger accept) hbare)) hbare

theorem eats_expectText : Eats (Ahead inp) (expectText o inp) :=
  eats_blanks ((keeps_mismatch _ _).bind_eats fun _ => eats_parseString)

theorem eats_expectBytes (f : FieldMeta) : Eats (Ahead inp) (expectBytes o inp f) := by
  refine eats_blanks (Keeps.get.bind_eats fun s => (keeps_mismatch _ _).bind_eats fun _ => ?_)
  refine eats_parseString.bind fun x => ?_
  cases decodeEncoding (f.bytes.getD .base64) x.text with
  | some bytes => exact .pure _
  | none =>
    intro n s a t _ h
    cases h

/-! ### Containers -/

theorem ahead_succ (hs : Ahead inp n s) (hlt : s.pos < inp.length) (hpos : t.pos = s.pos + 1) :
    Ahead inp n t := by
  have h := hs.2
  exact ⟨by omega, by omega⟩

theorem keeps_next (b : Brackets) (c : Cursor) : Keeps (Ahead inp) (Cursor.next inp b c) := by
  refine keeps_blanks (keeps_look fun n s a t hs h => ?_)
  cases hc : at? inp s.pos with
  | none =>
    rw [hc] at h
    cases h
  | some x =>
    rw [hc] at h
    simp only at h
    split at h
    · cases h
      exact ahead_succ hs (at?_lt hc) rfl
    split at h
    · cases h
      exact hs
    split at h
    · cases h
    · obtain ⟨_, s₁, hadv, hrest⟩ := Run.bind_eq_ok.1 h
      cases hadv
      have hs₁ : Ahead inp n (s.advance 1) := ahead_succ hs (at?_lt hc) rfl
      refine keeps_blanks (keeps_look fun n s a t hs h => ?_) n _ a t hs₁ hrest
      split at h
      · cases h
      · cases h
        exact hs

theorem keeps_passColon : Keeps (Ahead inp) (passColon inp) := by
  refine keeps_blanks (keeps_look fun n s a t hs h => ?_)
  cases hc : at? inp s.pos with
  | none =>
    rw [hc] at h
    cases h
  | some x =>
    rw [hc] at h
    simp only at h
    split at h
    · cases h
      exact ahead_succ hs (at?_lt hc) rfl
    · cases h

theorem eats_keyText : Eats (Ahead inp) (keyText o inp) := by
  refine eats_blanks (Keeps.get.bind_eats fun s => ?_)
  cases at? inp s.pos with
  | none => exact .throw _
  | some x =>
    exact .ite (.throw _) (eats_parseString.bind fun _ => keeps_passColon.bind fun _ => .pure _)

theorem eats_expectContainer (expected : Bytes) (bracket : UInt8) :
    Eats (Ahead inp) (expectContainer o inp expected bracket) := by
  refine eats_blanks fun n s a t hs h => ?_
  obtain ⟨_, s₁, hmismatch, hrest⟩ := Run.bind_eq_ok.1 h
  obtain ⟨_, s₂, henter, hpure⟩ := Run.bind_eq_ok.1 hrest
  cases hpure
  unfold mismatch at hmismatch
  split at hmismatch
  · rename_i hc
    cases hmismatch
    unfold enter at henter
    split at henter
    · cases henter
    · cases henter
      exact hs.pass hc rfl
  · cases hmismatch

/-! ### The validator -/

/-- An operation at the byte `c` is one of those that pass it. -/
def EatsAt (inp : Bytes) (c : UInt8) (m : M α) : Prop :=
  ∀ n s a t, at? inp s.pos = some c → Ahead inp (n + 1) s → m s = .ok a t → Ahead inp n t

theorem eatsAt_of_eats {c : UInt8} {m : M α} (h : Eats (Ahead inp) m) : EatsAt inp c m :=
  fun n s a t _ hs hm => h n s a t hs hm

theorem EatsAt.ite {c : UInt8} {p : Prop} [Decidable p] {m k : M α} (hm : EatsAt inp c m)
    (hk : EatsAt inp c k) :
    EatsAt inp c (if p then m else k) := by
  split
  · exact hm
  · exact hk

theorem eatsAt_advance {β : Type} {c : UInt8} {f : Unit → M β} (h : ∀ u, Keeps (Ahead inp) (f u)) :
    EatsAt inp c (do f (← modify (·.advance 1))) := by
  intro n s a t hc hs hrun
  obtain ⟨u, s₁, hadv, hrest⟩ := Run.bind_eq_ok.1 hrun
  cases hadv
  exact h _ n _ a t (hs.pass hc rfl) hrest

theorem eatsAt_skipOpen (c : UInt8) (levels : Levels) (isObject : Bool) :
    EatsAt inp c (skipOpen inp levels isObject) := by
  refine eatsAt_advance fun _ => keeps_blanks (keeps_look fun n s a t hs h => ?_)
  cases hc : at? inp s.pos with
  | none =>
    rw [hc] at h
    cases h
  | some x =>
    rw [hc] at h
    by_cases hclose : x = if isObject then 0x7D else 0x5D
    · simp only [if_pos hclose] at h
      cases h
      exact ahead_succ hs (at?_lt hc) rfl
    · simp only [if_neg hclose] at h
      cases h
      exact hs

theorem eats_skipScalar (c : UInt8) : Eats (Ahead inp) (skipScalar o cc inp c) := by
  refine .ite (eats_parseString.bind fun _ => .pure _) ?_
  refine .ite (eats_literal (by decide))
    (.ite (eats_literal (by decide)) (.ite (eats_literal (by decide)) (.ite ?_ ?_)))
  · refine eats_look fun n s a t hs h => ?_
    split at h
    · cases h
    · rename_i hkind
      have hlen := scanNumber_length hkind
      have hle := hs.1
      rw [List.length_drop] at hlen
      cases h
      apply hs.jump <;> simp only [State.advance] <;> omega
  · exact Keeps.get.bind_eats fun _ => .throw _

theorem skipStep_ahead {levels levels' : Levels} {state state' : SkipState} {c : UInt8}
    (hc : at? inp s.pos = some c) (hopen : ¬ (state = .afterValue ∧ levels = []))
    (hs : Ahead inp (n + 1) s) (h : skipStep o cc inp levels state c s = .ok (levels', state') t) :
    Ahead inp n t := by
  unfold skipStep at h
  split at h
  · split at h
    · obtain ⟨s₁, s₂, hget, hrest⟩ := Run.bind_eq_ok.1 h
      cases hget
      split at hrest
      · cases hrest
      · exact eatsAt_skipOpen c _ _ n s _ t hc hs hrest
    · exact (eats_skipScalar c).bind (fun _ => .pure _) n s _ t hs h
  · split at h
    · cases h
    · exact eats_parseString.bind (fun _ => keeps_passColon.bind fun _ => .pure _) n s _ t hs h
  · exact absurd ⟨rfl, rfl⟩ hopen
  · simp only at h
    refine EatsAt.ite ?_ (EatsAt.ite ?_ ?_) n s _ t hc hs h
    · refine eatsAt_advance fun _ => keeps_blanks (Keeps.get.bind fun s => ?_)
      exact .ite (.throw _) (.pure _)
    · exact eatsAt_advance fun _ => .pure _
    · exact eatsAt_of_eats (Keeps.get.bind_eats fun _ => .throw _)

/-- A skip that is not at its end yet passes a byte at least. -/
theorem skipLoop_ahead {fuel : Nat} {levels : Levels} {state : SkipState} {a : Unit}
    (h : skipLoop o cc inp fuel levels state s = .ok a t) (hs : Ahead inp (n + 1) s) :
    Ahead inp (if state = .afterValue ∧ levels = [] then n + 1 else n) t := by
  induction fuel generalizing levels state s n with
  | zero =>
    unfold skipLoop at h
    split at h
    · rename_i hend
      rw [if_pos hend]
      cases h
      exact hs
    · cases h
  | succ fuel ih =>
    unfold skipLoop at h
    split at h
    · rename_i hend
      rw [if_pos hend]
      cases h
      exact hs
    · rename_i hopen
      rw [if_neg hopen]
      obtain ⟨_, s₁, hws, hrest⟩ := Run.bind_eq_ok.1 h
      have hs₁ := keeps_skipWs (n + 1) s _ s₁ hs hws
      obtain ⟨s₂, _, hget, hrest⟩ := Run.bind_eq_ok.1 hrest
      cases hget
      cases hc : at? inp s₁.pos with
      | none =>
        rw [hc] at hrest
        cases hrest
      | some c =>
        rw [hc] at hrest
        obtain ⟨⟨levels', state'⟩, s₂, hstep, hloop⟩ := Run.bind_eq_ok.1 hrest
        have hs₂ := skipStep_ahead hc hopen hs₁ hstep
        cases n with
        | zero => exact absurd hs₂.2 (Nat.not_lt_zero _)
        | succ n =>
          have ht := ih hloop hs₂
          split at ht
          · exact ht
          · exact ⟨ht.1, Nat.lt_succ_of_lt ht.2⟩

theorem eats_skipValue : Eats (Ahead inp) (skipValue o cc inp) := by
  refine eats_look fun n s a t hs h => ?_
  have ht := skipLoop_ahead h hs
  rwa [if_neg (by simp)] at ht

/-- The reader is one that construction ends over. -/
def measureLaws (hsize : inp.length < 2 ^ 48) : MeasureLaws (reader o cc inp) where
  At := Ahead inp
  not_zero _ h := absurd h.2 (Nat.not_lt_zero _)
  mono hnm h := ⟨h.1, Nat.lt_of_lt_of_le h.2 hnm⟩
  setCollected _ h := h
  restore t h := ahead_restore hsize h t
  offset := keeps_blanks (Keeps.get.bind fun _ => .pure _)
  peek := keeps_blanks (Keeps.get.bind fun _ => .pure _)
  keyKind := .pure _
  expectNull := eats_expectNull
  expectBoolean := eats_expectBoolean
  expectUint := eats_expectInteger eats_expectPlainUint _
  expectSint := eats_expectInteger eats_expectPlainSint _
  expectReal := eats_expectReal
  expectText := eats_expectText
  expectBytes := eats_expectBytes
  expectTags _ := .pure _
  readRange _ _ := Ends.pure false fun _ h => h
  expectArray := eats_expectContainer _ _
  next := keeps_next _
  expectMap := eats_expectContainer _ _
  nextKey := keeps_next _
  keyText := eats_keyText
  keyUint _ _ _ _ _ h := nomatch h
  keySint _ _ _ _ _ h := nomatch h
  skipValue := eats_skipValue

end VCodec.Json
