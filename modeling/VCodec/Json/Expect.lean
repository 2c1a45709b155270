import VCodec.Json.Total

/-!
# A failed operation can be tried again

Every `expect_*` of the JSON reader passes the blanks in front of its item first. One that fails
stands there, whatever it had read, so the next operation runs as if the failed one had not been
called (`Expect.error_replays`).
-/

namespace VCodec.Json

variable {o : Options} {cc : Charconv} {inp : Bytes} {s t : State} {α β : Type}

/-! ### Blanks -/

/-- The state behind the blanks. -/
def State.skipped (inp : Bytes) (s : State) : State :=
  s.advance ((inp.drop s.pos).takeWhile isWs).length

theorem State.skipped_pos (s : State) :
    (s.skipped inp).pos = s.pos + ((inp.drop s.pos).takeWhile isWs).length := rfl

theorem skipWs_run (s : State) : skipWs inp s = .ok ⟨⟩ (s.skipped inp) := rfl

theorem drop_length_takeWhile (p : UInt8 → Bool) (l : Bytes) :
    l.drop (l.takeWhile p).length = l.dropWhile p := by
  induction l with
  | nil => rfl
  | cons c l ih =>
    cases hc : p c with
    | true =>
      rw [List.takeWhile_cons_of_pos hc, List.dropWhile_cons_of_pos hc, List.length_cons,
        List.drop_succ_cons, ih]
    | false =>
      have hno : ¬ p c = true := by rw [hc]; exact Bool.false_ne_true
      rw [List.takeWhile_cons_of_neg hno, List.dropWhile_cons_of_neg hno, List.length_nil,
        List.drop_zero]

theorem takeWhile_dropWhile (p : UInt8 → Bool) (l : Bytes) : (l.dropWhile p).takeWhile p = [] := by
  induction l with
  | nil => rfl
  | cons c l ih =>
    cases hc : p c with
    | true => rw [List.dropWhile_cons_of_pos hc, ih]
    | false =>
      have hno : ¬ p c = true := by rw [hc]; exact Bool.false_ne_true
      rw [List.dropWhile_cons_of_neg hno, List.takeWhile_cons_of_neg hno]

theorem drop_skipped (s : State) :
    inp.drop (s.skipped inp).pos = (inp.drop s.pos).dropWhile isWs := by
  rw [← drop_length_takeWhile, List.drop_drop]
  rfl

@[simp] theorem State.skipped_skipped (s : State) :
    (s.skipped inp).skipped inp = s.skipped inp := by
  rw [State.skipped, drop_skipped, takeWhile_dropWhile]
  rfl

theorem skipWs_skipped (m : M α) (s : State) :
    (do skipWs inp; m : M α) (s.skipped inp) = (do skipWs inp; m : M α) s := by
  rw [Run.bind_of_ok (skipWs_run _), Run.bind_of_ok (skipWs_run _), State.skipped_skipped]

/-! ### Operations that fail where they stand -/

/-- A failure leaves the state alone. -/
def Still (m : M α) : Prop := ∀ s e t, m s = .error e t → t = s

/-- The operation moves in no case. -/
def Looks (m : M α) : Prop := Still m ∧ ∀ s a t, m s = .ok a t → t = s

theorem Looks.bind {m : M α} {f : α → M β} (hm : Looks m) (hf : ∀ a, Still (f a)) :
    Still (m >>= f) := by
  intro s e t hrun
  rcases Run.bind_eq_error.1 hrun with hfail | ⟨a, u, hok, hrest⟩
  · exact hm.1 s e t hfail
  · rw [hf a u e t hrest, hm.2 s a u hok]

theorem Looks.get : Looks (get : M State) := by
  constructor
  · rintro s e t ⟨⟩
  · rintro s a t ⟨⟩
    rfl

theorem Still.throw (e : Error) : Still (throw e : M α) := by
  rintro s _ t ⟨⟩
  rfl

theorem Still.ite {c : Prop} [Decidable c] {m k : M α} (hm : Still m) (hk : Still k) :
    Still (if c then m else k) := by
  split
  · exact hm
  · exact hk

/-- What returns in every case. -/
theorem Still.of_ok {m : M α} (h : ∀ s, ∃ a t, m s = .ok a t) : Still m := by
  intro s e t hrun
  obtain ⟨a, u, hok⟩ := h s
  rw [hok] at hrun
  cases hrun

/-- Only the first of two operations can fail. -/
theorem Still.map {m : M α} {f : α → M β} (hm : Still m) (hf : ∀ a s, ∃ b t, f a s = .ok b t) :
    Still (m >>= f) := by
  intro s e t hrun
  rcases Run.bind_eq_error.1 hrun with hfail | ⟨a, u, hok, hrest⟩
  · exact hm s e t hfail
  · obtain ⟨b, v, hret⟩ := hf a u
    rw [hret] at hrest
    cases hrest

theorem looks_mismatch (expected : Bytes) (want : UInt8) : Looks (mismatch inp expected want) := by
  constructor
  all_goals
    intro s x t hrun
    rw [mismatch] at hrun
    split at hrun
    all_goals cases hrun
    all_goals rfl

theorem looks_number (expected : Bytes) : Looks (number cc inp expected) := by
  constructor
  all_goals
    intro s x t hrun
    rw [number] at hrun
    split at hrun
    · cases hrun
      try rfl
    dsimp only at hrun
    split at hrun
    · cases hrun
      try rfl
    split at hrun
    all_goals cases hrun
    all_goals rfl

theorem still_literal (word : Bytes) : Still (literal inp word) := by
  intro s e t hrun
  rw [literal] at hrun
  split at hrun
  · cases hrun
  split at hrun
  · cases hrun
    rfl
  · cases hrun
    rfl

theorem still_enter : Still (enter o inp) := by
  intro s e t hrun
  rw [enter] at hrun
  split at hrun
  · cases hrun
    rfl
  · cases hrun

theorem still_closeString (open_ close : Nat) (text : Bytes) (borrowed : Bool) :
    Still (closeString o inp open_ close text borrowed) := by
  intro s e t hrun
  rw [closeString] at hrun
  split at hrun
  · cases hrun
    rfl
  · cases hrun

/-- A string moves the position when it is complete and valid, and not before. -/
theorem still_parseString : Still (parseString o inp) := by
  intro s e t hrun
  rw [parseString] at hrun
  split at hrun
  · cases hrun
    rfl
  · exact still_closeString _ _ _ _ s e t hrun
  · split at hrun
    · cases hrun
      rfl
    · exact still_closeString _ _ _ _ s e t hrun

theorem closeString_restore {open_ close : Nat} {text : Bytes} {borrowed : Bool} {r : TextRef}
    (hrun : closeString o inp open_ close text borrowed s = .ok r t) :
    { t with pos := s.pos } = s := by
  rw [closeString] at hrun
  split at hrun
  · cases hrun
  · cases hrun
    rfl

/-- Only the position differs behind a string. -/
theorem parseString_restore {r : TextRef} (hrun : parseString o inp s = .ok r t) :
    { t with pos := s.pos } = s := by
  rw [parseString] at hrun
  split at hrun
  · cases hrun
  · exact closeString_restore hrun
  · split at hrun
    · cases hrun
    · exact closeString_restore hrun

theorem still_quotedInteger (accept : NumberScan → Option α) :
    Still (quotedInteger o cc inp accept) := by
  intro s e t hrun
  rw [quotedInteger, Run.bind_of_ok (Run.get_apply s)] at hrun
  rcases Run.bind_eq_error.1 hrun with hfail | ⟨r, u, hok, hrest⟩
  · exact still_parseString s e t hfail
  have hback := parseString_restore hok
  split at hrest
  · cases hrest
    exact hback
  · cases hacc : accept (scanNumber cc r.text) with
    | some a =>
      rw [hacc] at hrest
      cases hrest
    | none =>
      rw [hacc] at hrest
      cases hrest
      exact hback

/-! ### Operations on an item -/

/-- A failure stands behind the blanks. -/
def FailsAtItem (inp : Bytes) (m : M α) : Prop := ∀ s e t, m s = .error e t → t = s.skipped inp

/-- The operation starts with the blanks. -/
def SkipsBlanks (inp : Bytes) (m : M α) : Prop := ∀ s, m (s.skipped inp) = m s

theorem FailsAtItem.blanks {m : M α} (hm : Still m) : FailsAtItem inp (do skipWs inp; m) := by
  intro s e t hrun
  rw [Run.bind_of_ok (skipWs_run s)] at hrun
  exact hm _ e t hrun

theorem SkipsBlanks.blanks (m : M α) : SkipsBlanks inp (do skipWs inp; m) :=
  fun s => skipWs_skipped m s

theorem still_take (n : NumberScan) (a : α) : Still (do passNumber n; return a) :=
  .of_ok fun s => ⟨a, s.advance n.length, rfl⟩

theorem fails_expectNull : FailsAtItem inp (expectNull inp) :=
  .blanks ((looks_mismatch _ _).bind fun _ => still_literal _)

theorem fails_expectBoolean : FailsAtItem inp (expectBoolean inp) :=
  .blanks (Looks.get.bind fun _ => .ite ((still_literal _).map fun _ s => ⟨true, s, rfl⟩)
    (.ite ((still_literal _).map fun _ s => ⟨false, s, rfl⟩) (.throw _)))

theorem fails_expectPlainUint : FailsAtItem inp (expectPlainUint cc inp) := by
  refine .blanks ((looks_number _).bind fun n => .ite (still_take n n.u) (.ite ?_ ?_))
  · rintro s e t ⟨⟩
    rfl
  · rintro s e t ⟨⟩
    rfl

theorem fails_expectPlainSint : FailsAtItem inp (expectPlainSint cc inp) := by
  refine .blanks ((looks_number _).bind fun n => .ite (still_take n n.i)
    (.ite (.ite ?_ (still_take n (n.u : Int))) (.ite ?_ ?_)))
  all_goals
    rintro s e t ⟨⟩
    rfl

theorem fails_expectReal : FailsAtItem inp (expectReal cc inp) :=
  .blanks ((looks_number _).bind fun n => Looks.get.bind fun _ => .of_ok fun s =>
    ⟨_, s.advance n.length, rfl⟩)

theorem fails_expectInteger
    {bare : M α} (hbare : FailsAtItem inp bare) (accept : NumberScan → Option α) (f : FieldMeta) :
    FailsAtItem inp (expectInteger o cc inp bare accept f) := by
  rw [expectInteger]
  split
  · intro s e t hrun
    rw [Run.bind_of_ok (skipWs_run s), Run.bind_of_ok (Run.get_apply _)] at hrun
    split at hrun
    · exact still_quotedInteger accept _ e t hrun
    · rw [hbare _ e t hrun, State.skipped_skipped]
  · exact hbare

theorem fails_expectText : FailsAtItem inp (expectText o inp) :=
  .blanks ((looks_mismatch _ _).bind fun _ => still_parseString)

theorem fails_expectBytes (f : FieldMeta) : FailsAtItem inp (expectBytes o inp f) := by
  refine .blanks fun s e t hrun => ?_
  rw [Run.bind_of_ok (Run.get_apply s)] at hrun
  rcases Run.bind_eq_error.1 hrun with hfail | ⟨_, u, hlook, hrest⟩
  · exact (looks_mismatch _ _).1 s e t hfail
  obtain rfl := (looks_mismatch _ _).2 s _ u hlook
  rcases Run.bind_eq_error.1 hrest with hfail | ⟨r, v, hok, hdecode⟩
  · exact still_parseString u e t hfail
  have hback := parseString_restore hok
  cases hbytes : decodeEncoding (f.bytes.getD .base64) r.text with
  | some bytes =>
    rw [hbytes] at hdecode
    cases hdecode
  | none =>
    rw [hbytes] at hdecode
    cases hdecode
    exact hback

theorem fails_expectContainer (expected : Bytes) (bracket : UInt8) :
    FailsAtItem inp (expectContainer o inp expected bracket) :=
  .blanks ((looks_mismatch _ _).bind fun _ => still_enter.map fun _ s => ⟨{}, s, rfl⟩)

theorem skips_expectInteger
    {bare : M α} (hbare : SkipsBlanks inp bare) (accept : NumberScan → Option α) (f : FieldMeta) :
    SkipsBlanks inp (expectInteger o cc inp bare accept f) := by
  rw [expectInteger]
  split
  · exact .blanks _
  · exact hbare

/-! ### The validator -/

/-- At the end of the input every round reports the same. -/
theorem skipLoop_end {fuel : Nat} {levels : Levels} {state : SkipState}
    (hend : inp.length ≤ s.pos) :
    skipLoop o cc inp fuel levels state s = skipLoop o cc inp 0 levels state s := by
  cases fuel with
  | zero => rfl
  | succ fuel =>
    have hnone : at? inp s.pos = none := List.getElem?_eq_none hend
    have hskip : s.skipped inp = s := by
      rw [State.skipped, List.drop_eq_nil_of_le hend]
      rfl
    rw [skipLoop, skipLoop]
    split
    · rfl
    · rw [Run.bind_of_ok (skipWs_run s), hskip, Run.bind_of_ok (Run.get_apply _), hnone]
      rfl

/-- The rounds of the loop do not run out of bytes first. -/
theorem skipLoop_fuel {fuel fuel' : Nat} {levels : Levels} {state : SkipState}
    (hle : inp.length - s.pos ≤ fuel) (hle' : inp.length - s.pos ≤ fuel') :
    skipLoop o cc inp fuel levels state s = skipLoop o cc inp fuel' levels state s := by
  induction fuel generalizing fuel' levels state s with
  | zero => exact (skipLoop_end (by omega)).symm
  | succ fuel ih =>
    cases fuel' with
    | zero => exact skipLoop_end (by omega)
    | succ fuel' =>
      rw [skipLoop, skipLoop]
      split
      · rfl
      rename_i hopen
      rw [Run.bind_of_ok (skipWs_run s), Run.bind_of_ok (skipWs_run s),
        Run.bind_of_ok (Run.get_apply _),
        Run.bind_of_ok (Run.get_apply _)]
      cases hc : at? inp (s.skipped inp).pos with
      | none => rfl
      | some c =>
        dsimp only
        rw [Run.bind_apply, Run.bind_apply]
        cases hstep : skipStep o cc inp levels state c (s.skipped inp) with
        | error e t => rfl
        | ok r t =>
          have hlt := at?_lt hc
          rw [State.skipped_pos] at hlt
          have hahead : ∀ n, inp.length - s.pos ≤ n + 1 → Ahead inp (n + 1 + 1) (s.skipped inp) :=
            fun n hn =>
            ⟨by rw [State.skipped_pos]; omega, by rw [State.skipped_pos]; omega⟩
          have hfuel := (skipStep_ahead hc hopen (hahead fuel hle) hstep).2
          have hfuel' := (skipStep_ahead hc hopen (hahead fuel' hle') hstep).2
          exact ih (by omega) (by omega)

theorem skips_skipValue : SkipsBlanks inp (skipValue o cc inp) := by
  intro s
  have hrun : ∀ n u, inp.length - u.pos ≤ n →
    skipValue o cc inp u = skipLoop o cc inp n [] .wantValue u :=
    fun n u hn => skipLoop_fuel le_rfl hn
  have hle : inp.length - (s.skipped inp).pos ≤ inp.length - s.pos := by
    rw [State.skipped_pos]
    omega
  rw [hrun _ _ (Nat.le_succ_of_le hle), hrun _ s (Nat.le_succ _), skipLoop, if_neg (by simp)]
  exact skipWs_skipped _ s

/-! ### All operations -/

/-- An `expect_*` operation and what it returns. -/
inductive Expect : Type → Type
  | null : Expect Unit
  | boolean : Expect Bool
  | uint (f : FieldMeta) : Expect Nat
  | sint (f : FieldMeta) : Expect Int
  | real : Expect Double
  | text : Expect TextRef
  | bytes (f : FieldMeta) : Expect BytesRef
  | array : Expect Cursor
  | map : Expect Cursor

def Expect.run (o : Options) (cc : Charconv) (inp : Bytes) : Expect α → M α
  | .null => expectNull inp
  | .boolean => expectBoolean inp
  | .uint f => expectUint o cc inp f
  | .sint f => expectSint o cc inp f
  | .real => expectReal cc inp
  | .text => expectText o inp
  | .bytes f => expectBytes o inp f
  | .array => expectArray o inp
  | .map => expectMap o inp

theorem Expect.fails (c : Expect α) : FailsAtItem inp (c.run o cc inp) := by
  cases c with
  | null => exact fails_expectNull
  | boolean => exact fails_expectBoolean
  | uint f => exact fails_expectInteger fails_expectPlainUint _ f
  | sint f => exact fails_expectInteger fails_expectPlainSint _ f
  | real => exact fails_expectReal
  | text => exact fails_expectText
  | bytes f => exact fails_expectBytes f
  | array => exact fails_expectContainer _ _
  | map => exact fails_expectContainer _ _

theorem Expect.skips (c : Expect α) : SkipsBlanks inp (c.run o cc inp) := by
  cases c with
  | null => exact .blanks _
  | boolean => exact .blanks _
  | uint f => exact skips_expectInteger (.blanks _) _ f
  | sint f => exact skips_expectInteger (.blanks _) _ f
  | real => exact .blanks _
  | text => exact .blanks _
  | bytes f => exact .blanks _
  | array => exact .blanks _
  | map => exact .blanks _

/-- A failed operation has passed blanks and nothing else, and what is called next runs as it would
have without it. -/
theorem Expect.error_replays
    (o : Options) (cc : Charconv) (inp : Bytes) (c : Expect α) (s t : State) (e : Error)
    (hrun : c.run o cc inp s = .error e t) :
    t.depth = s.depth ∧
      (∃ ws, (∀ b ∈ ws, isWs b) ∧ inp.drop s.pos = ws ++ inp.drop t.pos ∧ t = s.advance ws.length) ∧
      skipValue o cc inp t = skipValue o cc inp s ∧
      ∀ (β : Type) (c' : Expect β), c'.run o cc inp t = c'.run o cc inp s := by
  obtain rfl := c.fails s e t hrun
  refine ⟨rfl, ⟨(inp.drop s.pos).takeWhile isWs, fun b hb => ?_, ?_, rfl⟩, skips_skipValue s,
    fun β c' => c'.skips s⟩
  · exact List.all_eq_true.1 List.all_takeWhile b hb
  · rw [drop_skipped, List.takeWhile_append_dropWhile]

/-- A string that is no base64 is read, refused and still there. -/
theorem Expect.error_replays_bytes :
    skipValue {} ⟨fun _ => none, fun _ => []⟩ (str " \"%\"") { pos := 1 } =
      skipValue {} ⟨fun _ => none, fun _ => []⟩ (str " \"%\"") {} :=
  (Expect.error_replays {} ⟨fun _ => none, fun _ => []⟩ (str " \"%\"") (.bytes {}) {} { pos := 1 } _
    rfl).2.2.1

end VCodec.Json
