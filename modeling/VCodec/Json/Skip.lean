import VCodec.Json.Grammar

/-!
# The validator against the grammar

`skip_value` keeps no more than the brackets that are open. What it accepts from a state is what
these still ask for: a value or a member, and then the rest of every container, from the inside out
(`Remains`). One round of the loop takes one token (`Move`), which gives soundness by induction on
the rounds. The other direction follows the derivation, and every run of the loop is made with as
many rounds as there are bytes left. `skipValue_iff` is both.
-/

namespace VCodec.Json

open Run (ite_eq_ok)

variable {o : Options} {cc : Charconv} {inp : Bytes} {s t : State}

/-- What is wanted first in a container, and behind a comma. -/
def want (isObject : Bool) : SkipState := if isObject then .wantKey else .wantValue

theorem bracket_cases {c : UInt8} (h : c = 0x5B ∨ c = 0x7B) : c = openByte (c = 0x7B) := by
  rcases h with rfl | rfl
  · rfl
  · rfl

/-! ### One round -/

/-- What one round does behind the blanks. -/
inductive Move (o : Options) (cc : Charconv) (inp : Bytes) (s t : State) :
    Levels → SkipState → Levels → SkipState → Prop
  | scalar {levels : Levels} {v : Bytes} {x : Tree} (hv : ∀ d, Value o cc d v x)
      (hcut : Uncut v (inp.drop t.pos))
    (h : Passes inp s t v) : Move o cc inp s t levels .wantValue levels .afterValue
  | empty {levels : Levels} {b : Bool} {ws : Bytes} (hroom : s.depth + levels.length < o.maxDepth)
      (hws : Blank ws)
    (h : Passes inp s t (openByte b :: (ws ++ [closeByte b]))) :
      Move o cc inp s t levels .wantValue levels .afterValue
  | enter {levels : Levels} {b : Bool} {ws : Bytes} (hroom : s.depth + levels.length < o.maxDepth)
      (hws : Blank ws)
    (h : Passes inp s t (openByte b :: ws)) :
      Move o cc inp s t levels .wantValue (b :: levels) (want b)
  | key {levels : Levels} {k key ws : Bytes} (hk : Quoted o k key) (hws : Blank ws)
      (h : Passes inp s t (k ++ (ws ++ [0x3A]))) :
    Move o cc inp s t levels .wantKey levels .wantValue
  | comma {levels : Levels} {b : Bool} {ws : Bytes} (hws : Blank ws)
      (h : Passes inp s t (0x2C :: ws)) :
    Move o cc inp s t (b :: levels) .afterValue (b :: levels) (want b)
  | close {levels : Levels} {b : Bool} (h : Passes inp s t [closeByte b]) :
    Move o cc inp s t (b :: levels) .afterValue levels .afterValue

theorem uncut_of_head {v rest : Bytes} {c : UInt8} {cs : Bytes} (hv : v = c :: cs)
    (hc : ¬ (c = 0x2D ∨ isDigit c = true)) :
    Uncut v rest := by
  rintro n rfl
  obtain ⟨c', cs', hcons, hc'⟩ := n.exists_cons
  rw [hcons] at hv
  cases hv
  exact absurd hc' hc

theorem uncut_open {b : Bool} {bs rest : Bytes} : Uncut (openByte b :: bs) rest := by
  cases b with
  | false => exact uncut_of_head rfl (by decide)
  | true => exact uncut_of_head rfl (by decide)

theorem skipScalar_ok {c : UInt8} {a : Unit} (hat : at? inp s.pos = some c)
    (h : skipScalar o cc inp c s = .ok a t) :
    ∃ v x, (∀ d, Value o cc d v x) ∧ Uncut v (inp.drop t.pos) ∧ Passes inp s t v := by
  unfold skipScalar at h
  split_ifs at h with hquote ht hf hn hnumber
  · obtain ⟨r, t', hparse, ⟨⟩⟩ := Run.bind_eq_ok.1 h
    rw [hquote] at hat
    obtain ⟨k, hk, hpass⟩ := passes_parseString hat hparse
    refine ⟨k, _, fun d => .text hk, ?_, hpass⟩
    cases hk
    exact uncut_of_head rfl (by decide)
  · exact ⟨_, _, fun d => .word .true, uncut_of_head rfl (by decide), passes_literal h⟩
  · exact ⟨_, _, fun d => .word .false, uncut_of_head rfl (by decide), passes_literal h⟩
  · exact ⟨_, _, fun d => .word .null, uncut_of_head rfl (by decide), passes_literal h⟩
  · rw [Run.bind_of_ok (Run.get_apply s)] at h
    split_ifs at h with hkind
    · cases h
    · obtain ⟨n, hrange, hends, hscan, hpass⟩ := passes_number hkind
      rw [hscan] at h
      cases h
      rw [Number.scan_length]
      exact ⟨n.bytes, _, fun d => .number n hrange, fun n' heq => hends.congr heq, hpass⟩
  · cases h

theorem passColon_ok {a : Unit} (h : passColon inp s = .ok a t) :
    ∃ ws, Blank ws ∧ Passes inp s t (ws ++ [0x3A]) := by
  obtain ⟨ws, hws, hskip⟩ := passes_skipped inp s
  rw [passColon, Run.bind_of_ok (skipWs_run s), Run.bind_of_ok (Run.get_apply _)] at h
  cases hat : at? inp (s.skipped inp).pos with
  | none =>
    rw [hat] at h
    cases h
  | some c =>
    rw [hat] at h
    dsimp only at h
    split_ifs at h with hcolon
    · cases h
      rw [hcolon] at hat
      exact ⟨ws, hws, hskip.trans (passes_byte hat)⟩
    · cases h

theorem skipOpen_ok {levels levels' : Levels} {b : Bool} {state' : SkipState}
    (hat : at? inp s.pos = some (openByte b))
    (hroom : s.depth + levels.length < o.maxDepth)
    (h : skipOpen inp levels b s = .ok (levels', state') t) :
    Move o cc inp s t levels .wantValue levels' state' := by
  have hopen := passes_byte hat
  obtain ⟨ws, hws, hskip⟩ := passes_skipped inp (s.advance 1)
  have hinside := hopen.trans hskip
  rw [skipOpen, Run.bind_of_ok (Run.modify_apply _ s), Run.bind_of_ok (skipWs_run _),
    Run.bind_of_ok (Run.get_apply _)] at h
  cases hnext : at? inp ((s.advance 1).skipped inp).pos with
  | none =>
    rw [hnext] at h
    cases h
  | some c =>
    rw [hnext] at h
    rcases ite_eq_ok.1 h with ⟨hclose, h⟩ | ⟨-, h⟩
    · cases h
      have hclose : c = closeByte b := hclose
      rw [hclose] at hnext
      exact .empty hroom hws (hinside.trans (passes_byte hnext))
    · cases h
      exact .enter hroom hws hinside

/-- A round that succeeds is a move. -/
theorem skipStep_move {levels levels' : Levels} {state state' : SkipState} {c : UInt8}
    (hat : at? inp s.pos = some c) (hopen : ¬ (state = .afterValue ∧ levels = []))
    (h : skipStep o cc inp levels state c s = .ok (levels', state') t) :
    Move o cc inp s t levels state levels' state' := by
  cases state with
  | wantValue =>
    rw [skipStep] at h
    split_ifs at h with hbracket
    · rw [Run.bind_of_ok (Run.get_apply s)] at h
      split_ifs at h with hfull
      · cases h
      · rw [bracket_cases hbracket] at hat
        exact skipOpen_ok hat (Nat.lt_of_not_le hfull) h
    · obtain ⟨a, t', hscalar, ⟨⟩⟩ := Run.bind_eq_ok.1 h
      obtain ⟨v, x, hv, hcut, hpass⟩ := skipScalar_ok hat hscalar
      exact .scalar hv hcut hpass
  | wantKey =>
    rw [skipStep] at h
    split_ifs at h with hquote
    · cases h
    · rw [not_not] at hquote
      rw [hquote] at hat
      obtain ⟨r, s₁, hparse, h⟩ := Run.bind_eq_ok.1 h
      obtain ⟨a, s₂, hcolon, ⟨⟩⟩ := Run.bind_eq_ok.1 h
      obtain ⟨k, hk, hpass⟩ := passes_parseString hat hparse
      obtain ⟨ws, hws, hpass'⟩ := passColon_ok hcolon
      exact .key hk hws (hpass.trans hpass')
  | afterValue =>
    cases levels with
    | nil => exact absurd ⟨rfl, rfl⟩ hopen
    | cons b levels =>
      have hbrackets : (if b then objectBrackets else arrayBrackets).close = closeByte b := by
        cases b with
        | false => rfl
        | true => rfl
      rw [skipStep, hbrackets] at h
      rcases ite_eq_ok.1 h with ⟨hcomma, h⟩ | ⟨-, h⟩
      · rw [hcomma] at hat
        obtain ⟨ws, hws, hskip⟩ := passes_skipped inp (s.advance 1)
        rw [Run.bind_of_ok (Run.modify_apply _ s), Run.bind_of_ok (skipWs_run _),
          Run.bind_of_ok (Run.get_apply _)] at h
        rcases ite_eq_ok.1 h with ⟨-, h⟩ | ⟨-, h⟩
        · cases h
        · cases h
          exact .comma hws ((passes_byte hat).trans hskip)
      · rcases ite_eq_ok.1 h with ⟨hclose, h⟩ | ⟨-, h⟩
        · rw [Run.bind_of_ok (Run.modify_apply _ s)] at h
          cases h
          rw [hclose] at hat
          exact .close (passes_byte hat)
        · cases h

/-! ### What is accepted -/

/-- What closes the containers that are open, the innermost first. -/
def Closes (o : Options) (cc : Charconv) (d : Nat) : Levels → Bytes → Prop
  | [], bs => bs = []
  | b :: levels, bs =>
    ∃ y z ms, bs = y ++ z ∧ Derives o cc (.rest b) (d + levels.length + 1) y ms ∧
      Closes o cc d levels z

/-- What the loop still asks for, where `r` follows. -/
def Remains (o : Options) (cc : Charconv) (d : Nat) (r : Bytes) : SkipState → Levels → Bytes → Prop
  | .afterValue, levels, bs => Closes o cc d levels bs
  | .wantValue, levels, bs =>
    ∃ ws v x z, bs = ws ++ (v ++ z) ∧ Blank ws ∧ Value o cc (d + levels.length) v x ∧
      Uncut v (z ++ r) ∧
    Closes o cc d levels z
  | .wantKey, levels, bs =>
    ∃ y x z, bs = y ++ z ∧ Derives o cc (.member true) (d + levels.length) y [x] ∧
      Closes o cc d levels z

theorem Remains.member {d : Nat} {r bs : Bytes} {b : Bool} {levels : Levels}
    (h : Remains o cc d r (want b) (b :: levels) bs) :
    ∃ y m z, bs = y ++ z ∧ Derives o cc (.member b) (d + levels.length + 1) y [m] ∧
      Closes o cc d (b :: levels) z := by
  cases b with
  | true => exact h
  | false =>
    obtain ⟨ws, v, x, z, rfl, hws, hv, -, hclose⟩ := h
    exact ⟨ws ++ v, _, z, (List.append_assoc _ _ _).symm, .element hws hv, hclose⟩

/-- Blanks in front of what is asked for. -/
theorem Remains.blank {d : Nat} {r bs ws : Bytes} {state : SkipState} {levels : Levels}
    (hws : Blank ws) (h : Remains o cc d r state levels bs)
    (hopen : ¬ (state = .afterValue ∧ levels = [])) :
    Remains o cc d r state levels (ws ++ bs) := by
  cases state with
  | wantValue =>
    obtain ⟨ws', v, x, z, rfl, hws', h⟩ := h
    exact ⟨ws ++ ws', v, x, z, (List.append_assoc _ _ _).symm, hws.append hws', h⟩
  | wantKey =>
    obtain ⟨y, x, z, rfl, hy, h⟩ := h
    exact ⟨ws ++ y, x, z, (List.append_assoc _ _ _).symm, hy.blank hws, h⟩
  | afterValue =>
    cases levels with
    | nil => exact absurd ⟨rfl, rfl⟩ hopen
    | cons b levels =>
      obtain ⟨y, z, ms, rfl, hy, h⟩ := h
      exact ⟨ws ++ y, z, ms, (List.append_assoc _ _ _).symm, hy.blankRest hws, h⟩

theorem Move.passes {levels levels' : Levels} {state state' : SkipState}
    (h : Move o cc inp s t levels state levels' state') :
    ∃ a, Passes inp s t a := by
  cases h with
  | scalar _ _ h => exact ⟨_, h⟩
  | empty _ _ h => exact ⟨_, h⟩
  | enter _ _ h => exact ⟨_, h⟩
  | key _ _ h => exact ⟨_, h⟩
  | comma _ h => exact ⟨_, h⟩
  | close h => exact ⟨_, h⟩

theorem Passes.unique {a b : Bytes} (h : Passes inp s t a) (h' : Passes inp s t b) : a = b :=
  List.append_cancel_right (h.bytes.symm.trans h'.bytes)

/-- What is asked for after a move is what was asked for before it. -/
theorem Move.remains {levels levels' : Levels} {state state' : SkipState} {a r bs : Bytes}
    (h : Move o cc inp s t levels state levels' state') (ha : Passes inp s t a)
    (hrest : inp.drop t.pos = bs ++ r) (hremains : Remains o cc s.depth r state' levels' bs) :
    Remains o cc s.depth r state levels (a ++ bs) := by
  cases h with
  | @scalar _ v x hv hcut h =>
    rw [hrest] at hcut
    rw [ha.unique h]
    exact ⟨[], v, x, bs, rfl, blank_nil, hv _, hcut, hremains⟩
  | @empty _ b ws hroom hws h =>
    rw [ha.unique h]
    exact ⟨[], _, _, bs, rfl, blank_nil, .empty hws hroom, uncut_open, hremains⟩
  | @enter _ b ws hroom hws h =>
    obtain ⟨y, m, z, rfl, hy, y', z', ms, rfl, hy', hclose⟩ := hremains.member
    rw [ha.unique h]
    refine ⟨[], openByte b :: (ws ++ y ++ y'), _, z', ?_, blank_nil, .full hroom (hy.blank hws) hy',
      uncut_open, hclose⟩
    simp only [List.nil_append, List.cons_append, List.append_assoc]
  | @key _ k key ws hk hws h =>
    obtain ⟨ws', v, x, z, rfl, hws', hv, -, hclose⟩ := hremains
    rw [ha.unique h]
    refine ⟨[] ++ (k ++ (ws ++ 0x3A :: (ws' ++ v))), _, z, ?_, .entry blank_nil hk hws hws' hv,
      hclose⟩
    simp only [List.nil_append, List.cons_append, List.append_assoc]
  | @comma _ b ws hws h =>
    obtain ⟨y, m, z, rfl, hy, y', z', ms, rfl, hy', hclose⟩ := hremains.member
    rw [ha.unique h]
    refine ⟨[] ++ 0x2C :: (ws ++ y ++ y'), z', _, ?_, .comma blank_nil (hy.blank hws) hy', hclose⟩
    simp only [List.nil_append, List.cons_append, List.append_assoc]
  | @close _ b h =>
    rw [ha.unique h]
    exact ⟨[] ++ [closeByte b], bs, _, rfl, .close blank_nil, hremains⟩

/-- What the loop passes is what was asked for. -/
theorem skipLoop_remains {fuel : Nat} {levels : Levels} {state : SkipState} {a : Unit}
    (h : skipLoop o cc inp fuel levels state s = .ok a t) :
    ∃ bs, Passes inp s t bs ∧ Remains o cc s.depth (inp.drop t.pos) state levels bs := by
  induction fuel generalizing levels state s with
  | zero =>
    rw [skipLoop] at h
    split_ifs at h with hdone
    cases h
    obtain ⟨rfl, rfl⟩ := hdone
    exact ⟨[], .refl inp _, rfl⟩
  | succ fuel ih =>
    rw [skipLoop] at h
    split_ifs at h with hdone
    · cases h
      obtain ⟨rfl, rfl⟩ := hdone
      exact ⟨[], .refl inp _, rfl⟩
    · obtain ⟨ws, hws, hskip⟩ := passes_skipped inp s
      rw [Run.bind_of_ok (skipWs_run s), Run.bind_of_ok (Run.get_apply _)] at h
      cases hat : at? inp (s.skipped inp).pos with
      | none =>
        rw [hat] at h
        cases h
      | some c =>
        rw [hat] at h
        obtain ⟨⟨levels', state'⟩, s₁, hstep, h⟩ := Run.bind_eq_ok.1 h
        have hmove := skipStep_move hat hdone hstep
        obtain ⟨bs, hpass, hremains⟩ := ih h
        obtain ⟨a', hpass'⟩ := hmove.passes
        rw [hpass'.depth, hskip.depth] at hremains
        exact ⟨ws ++ (a' ++ bs), hskip.trans (hpass'.trans hpass),
          (hmove.remains hpass' hpass.bytes hremains).blank hws hdone⟩

/-! ### Runs with as many rounds as bytes -/

variable (o cc inp) in
/-- The loop, with rounds enough. -/
def skipRun (levels : Levels) (state : SkipState) : M Unit :=
  fun s => skipLoop o cc inp (inp.length - s.pos) levels state s

theorem skipRun_done (s : State) : skipRun o cc inp [] .afterValue s = .ok () s := by
  rw [skipRun]
  cases inp.length - s.pos with
  | zero => rfl
  | succ k => rfl

theorem skipRun_step {levels : Levels} {state : SkipState} {c : UInt8}
    (hopen : ¬ (state = .afterValue ∧ levels = [])) (hat : at? inp (s.skipped inp).pos = some c) :
    skipRun o cc inp levels state s =
      (do
        let (levels, state) ← skipStep o cc inp levels state c
        skipRun o cc inp levels state) (s.skipped inp) := by
  have hlt := at?_lt hat
  rw [State.skipped_pos] at hlt
  obtain ⟨k, hk⟩ : ∃ k, inp.length - s.pos = k + 1 := ⟨inp.length - s.pos - 1, by omega⟩
  rw [skipRun, hk, skipLoop, if_neg hopen, Run.bind_of_ok (skipWs_run s),
    Run.bind_of_ok (Run.get_apply _), hat]
  dsimp only
  rw [Run.bind_apply, Run.bind_apply]
  cases hstep : skipStep o cc inp levels state c (s.skipped inp) with
  | error e t => rfl
  | ok r t =>
    have hahead : Ahead inp (k + 1 + 1) (s.skipped inp) :=
      ⟨by rw [State.skipped_pos]; omega, by rw [State.skipped_pos]; omega⟩
    have hfuel := (skipStep_ahead hat hopen hahead hstep).2
    exact skipLoop_fuel (by omega) le_rfl

theorem skipRun_skipped {levels : Levels} {state : SkipState}
    (hopen : ¬ (state = .afterValue ∧ levels = [])) (s : State) :
    skipRun o cc inp levels state (s.skipped inp) = skipRun o cc inp levels state s := by
  have hle : inp.length - (s.skipped inp).pos ≤ inp.length - s.pos := by
    rw [State.skipped_pos]
    omega
  have hrun : ∀ u n, inp.length - u.pos ≤ n →
    skipRun o cc inp levels state u = skipLoop o cc inp n levels state u :=
    fun u n hn => skipLoop_fuel le_rfl hn
  rw [hrun _ (inp.length - s.pos + 1) (by omega), hrun s (inp.length - s.pos + 1) (by omega),
    skipLoop, if_neg hopen]
  exact skipWs_skipped _ s

theorem skipValue_eq (s : State) : skipValue o cc inp s = skipRun o cc inp [] .wantValue s := rfl

/-! ### What is of the grammar is accepted -/

theorem State.advance_advance (s : State) (m n : Nat) :
    (s.advance m).advance n = s.advance (m + n) := by
  rw [State.advance, State.advance, State.advance, Nat.add_assoc]

/-- The first byte of a value is no blank, and closes nothing. -/
def Begins (bs : Bytes) : Prop := ∃ c cs, bs = c :: cs ∧ isWs c = false ∧ c ≠ 0x7D ∧ c ≠ 0x5D

theorem Begins.append {bs : Bytes} (h : Begins bs) (rest : Bytes) : Begins (bs ++ rest) := by
  obtain ⟨c, cs, rfl, hc⟩ := h
  exact ⟨c, cs ++ rest, rfl, hc⟩

theorem begins_open (b : Bool) (bs : Bytes) : Begins (openByte b :: bs) := by
  cases b with
  | false => exact ⟨_, _, rfl, by decide⟩
  | true => exact ⟨_, _, rfl, by decide⟩

theorem Number.begins (n : Number) : Begins n.bytes := by
  obtain ⟨c, cs, hcons, hc⟩ := n.exists_cons
  refine ⟨c, cs, hcons, ?_⟩
  rcases hc with rfl | hdigit
  · decide
  · rw [isDigit, decide_eq_true_eq] at hdigit
    have hne : ∀ x : UInt8, x.toNat < 0x30 ∨ 0x39 < x.toNat → c ≠ x := by
      rintro x hx rfl
      omega
    refine ⟨?_, hne _ (by decide), hne _ (by decide)⟩
    simp [isWs, hne 0x20 (by decide), hne 0x0A (by decide), hne 0x0D (by decide),
      hne 0x09 (by decide)]

theorem Quoted.begins {k text : Bytes} (h : Quoted o k text) : Begins k := by
  cases h
  exact ⟨_, _, rfl, by decide⟩

/-- What begins a phrase: a member has blanks in front, and so does what follows it. -/
theorem Derives.begins {p : Phrase} {d : Nat} {bs : Bytes} {ms : List (Option Bytes × Tree)}
    (h : Derives o cc p d bs ms) :
    match p with
    | .value => Begins bs
    | .member _ => ∃ ws tail, bs = ws ++ tail ∧ Blank ws ∧ Begins tail
    | .rest b =>
      ∃ ws tail, bs = ws ++ tail ∧ Blank ws ∧
        (tail.head? = some 0x2C ∨ tail.head? = some (closeByte b)) := by
  induction h with
  | word h =>
    cases h with
    | null => exact ⟨_, _, rfl, by decide⟩
    | true => exact ⟨_, _, rfl, by decide⟩
    | false => exact ⟨_, _, rfl, by decide⟩
  | number n _ => exact n.begins
  | text h => exact h.begins
  | empty _ _ => exact begins_open _ _
  | full _ _ _ _ _ => exact begins_open _ _
  | element hws _ ih => exact ⟨_, _, rfl, hws, ih⟩
  | entry hws hk _ _ _ _ => exact ⟨_, _, rfl, hws, hk.begins.append _⟩
  | close hws => exact ⟨_, _, rfl, hws, .inr rfl⟩
  | comma hws _ _ _ _ => exact ⟨_, _, rfl, hws, .inl rfl⟩

/-- The text goes on with a blank, a comma or a bracket that closes. -/
def Delimits (rest : Bytes) : Prop :=
  ∃ c cs, rest = c :: cs ∧ (isWs c = true ∨ c = 0x2C ∨ c = 0x7D ∨ c = 0x5D)

theorem Derives.delimits {b : Bool} {d : Nat} {y : Bytes} {ms : List (Option Bytes × Tree)}
    (h : Derives o cc (.rest b) d y ms) (rest : Bytes) : Delimits (y ++ rest) := by
  obtain ⟨ws, tail, rfl, hws, htail⟩ := h.begins
  cases ws with
  | cons c ws => exact ⟨c, ws ++ tail ++ rest, rfl, .inl (hws c List.mem_cons_self)⟩
  | nil =>
    rcases htail with hcomma | hclose
    · obtain ⟨cs, rfl⟩ := List.head?_eq_some_iff.1 hcomma
      exact ⟨_, cs ++ rest, rfl, .inr (.inl rfl)⟩
    · obtain ⟨cs, rfl⟩ := List.head?_eq_some_iff.1 hclose
      refine ⟨_, cs ++ rest, rfl, .inr (.inr ?_)⟩
      cases b with
      | false => exact .inr rfl
      | true => exact .inl rfl

/-- No number goes on there. -/
theorem Delimits.uncut {rest : Bytes} (h : Delimits rest) (v : Bytes) : Uncut v rest := by
  obtain ⟨c, cs, rfl, hc⟩ := h
  have hstops : isDigit c = false ∧ isExp c = false ∧ isPoint c = false := by
    rcases hc with hws | rfl | rfl | rfl
    · rw [isWs, decide_eq_true_eq] at hws
      rcases hws with rfl | rfl | rfl | rfl
      all_goals decide
    all_goals decide
  exact fun n _ => ⟨hstops.1, fun _ => hstops.2.1, fun _ _ => hstops.2.2⟩

/-- Where something that begins like a value stands behind blanks, the reader skips these. -/
theorem Begins.skipped {ws tail : Bytes} (h : Begins tail) (hws : Blank ws)
    (hdrop : inp.drop s.pos = ws ++ tail) :
    s.skipped inp = s.advance ws.length ∧ inp.drop (s.advance ws.length).pos = tail := by
  obtain ⟨c, cs, rfl, hc, -⟩ := h
  exact ⟨skipped_eq hws hdrop fun x hx => by cases hx; exact hc, drop_add_of hdrop⟩

/-- And meets no bracket that closes. -/
theorem Begins.at? {ws tail : Bytes} (h : Begins tail) (hws : Blank ws)
    (hdrop : inp.drop s.pos = ws ++ tail) :
    ∃ c, Json.at? inp (s.skipped inp).pos = some c ∧ c ≠ 0x7D ∧ c ≠ 0x5D := by
  obtain ⟨hskip, hrest⟩ := h.skipped hws hdrop
  obtain ⟨c, cs, rfl, -, hc⟩ := h
  rw [hskip]
  exact ⟨c, at?_eq hrest, hc⟩

/-! ### Scalars -/

/-- A scalar of so many bytes stands there. -/
def ScalarAt (o : Options) (cc : Charconv) (inp : Bytes) (s : State) (n : Nat) : Prop :=
  ∃ c, at? inp s.pos = some c ∧ ¬ (c = 0x5B ∨ c = 0x7B) ∧
    skipScalar o cc inp c s = .ok () (s.advance n)

theorem ScalarAt.run {levels : Levels} {n : Nat} (h : ScalarAt o cc inp (s.skipped inp) n) :
    skipRun o cc inp levels .wantValue s = skipRun o cc inp levels .afterValue
      ((s.skipped inp).advance n) := by
  obtain ⟨c, hat, hbracket, hscalar⟩ := h
  rw [skipRun_step (fun h => SkipState.noConfusion h.1) hat, Run.bind_apply, skipStep,
    if_neg hbracket,
    Run.bind_of_ok hscalar]
  rfl

theorem literal_at {word rest : Bytes} (hdrop : inp.drop s.pos = word ++ rest) :
    literal inp word s = .ok () (s.advance word.length) := by
  rw [literal, if_pos (substr_of hdrop)]

theorem Word.scalarAt {w rest : Bytes} {x : Tree} (h : Word w x)
    (hdrop : inp.drop s.pos = w ++ rest) :
    ScalarAt o cc inp s w.length := by
  have hlit := literal_at hdrop
  cases h with
  | null => exact ⟨0x6E, at?_eq hdrop, by decide, hlit⟩
  | true => exact ⟨0x74, at?_eq hdrop, by decide, hlit⟩
  | false => exact ⟨0x66, at?_eq hdrop, by decide, hlit⟩

theorem Number.scalarAt {n : Number} {rest : Bytes} (hn : n.InRange cc) (hends : n.Ends rest)
    (hdrop : inp.drop s.pos = n.bytes ++ rest) : ScalarAt o cc inp s n.bytes.length := by
  obtain ⟨c, cs, hcons, hc⟩ := n.exists_cons
  have hat : at? inp s.pos = some c := at?_eq (by rw [hdrop, hcons]; rfl)
  have hother : ∀ x : UInt8, ¬ (x = 0x2D ∨ isDigit x = true) → c ≠ x := by
    rintro x hx rfl
    exact hx hc
  refine ⟨c, hat, not_or.2 ⟨hother _ (by decide), hother _ (by decide)⟩, ?_⟩
  rw [skipScalar, if_neg (hother _ (by decide)), if_neg (hother _ (by decide)),
    if_neg (hother _ (by decide)),
    if_neg (hother _ (by decide)), if_pos hc, Run.bind_of_ok (Run.get_apply s), hdrop,
      scanNumber_append hends,
    if_neg (n.inRange_iff.1 hn), passNumber, Number.scan_length]
  rfl

theorem Quoted.scalarAt {k text rest : Bytes} (hk : Quoted o k text)
    (hdrop : inp.drop s.pos = k ++ rest) :
    ScalarAt o cc inp s k.length := by
  obtain ⟨r, hparse, -⟩ := hk.parseString hdrop
  have hat : at? inp s.pos = some 0x22 := by
    cases hk
    exact at?_eq hdrop
  refine ⟨0x22, hat, by decide, ?_⟩
  rw [skipScalar, if_pos rfl, Run.bind_of_ok hparse]
  rfl

/-! ### Containers -/

section

variable {levels : Levels} {b : Bool} {ws rest : Bytes}

/-- The bracket that opens a container. -/
theorem skipRun_open (hroom : s.depth + levels.length < o.maxDepth)
    (hat : at? inp (s.skipped inp).pos = some (openByte b)) :
    skipRun o cc inp levels .wantValue s =
      (do
        let (levels, state) ← skipOpen inp levels b
        skipRun o cc inp levels state) (s.skipped inp) := by
  have hbracket : openByte b = 0x5B ∨ openByte b = 0x7B := by
    cases b with
    | false => exact .inl rfl
    | true => exact .inr rfl
  have hb : decide (openByte b = 0x7B) = b := by
    cases b with
    | false => rfl
    | true => rfl
  have hfits : ¬ o.maxDepth ≤ (s.skipped inp).depth + levels.length := Nat.not_le.2 hroom
  rw [skipRun_step (fun h => SkipState.noConfusion h.1) hat, Run.bind_apply, Run.bind_apply,
    skipStep, if_pos hbracket,
    Run.bind_of_ok (Run.get_apply _), if_neg hfits, hb]

theorem skipRun_empty (hroom : s.depth + levels.length < o.maxDepth) (hws : Blank ws)
    (hdrop : inp.drop (s.skipped inp).pos = openByte b :: (ws ++ closeByte b :: rest)) :
    skipRun o cc inp levels .wantValue s = skipRun o cc inp levels .afterValue
      ((s.skipped inp).advance (ws.length + 2)) := by
  have hinside : inp.drop ((s.skipped inp).advance 1).pos = ws ++ closeByte b :: rest :=
    drop_succ_of hdrop
  have hskip := skipped_eq (s := (s.skipped inp).advance 1) hws hinside fun c hc => by
    cases hc
    cases b with
    | false => rfl
    | true => rfl
  have hclose : at? inp (((s.skipped inp).advance 1).advance ws.length).pos = some (closeByte b) :=
    at?_eq (drop_add_of hinside)
  rw [skipRun_open hroom (at?_eq hdrop), Run.bind_apply, skipOpen,
    Run.bind_of_ok (Run.modify_apply _ _),
    Run.bind_of_ok (skipWs_run _), Run.bind_of_ok (Run.get_apply _), hskip, hclose]
  dsimp only
  rw [if_pos (by rfl), Run.bind_of_ok (Run.modify_apply _ _), Run.pure_apply, State.advance_advance,
    State.advance_advance]
  dsimp only
  rw [show 1 + (ws.length + 1) = ws.length + 2 by omega]

theorem skipRun_enter {tail : Bytes} (hroom : s.depth + levels.length < o.maxDepth) (hws : Blank ws)
    (htail : Begins tail) (hdrop : inp.drop (s.skipped inp).pos = openByte b :: (ws ++ tail)) :
    skipRun o cc inp levels .wantValue s = skipRun o cc inp (b :: levels) (want b)
      ((s.skipped inp).advance 1) := by
  obtain ⟨c, hat, hbrace, hbracket⟩ :=
    htail.at? (s := (s.skipped inp).advance 1) hws (drop_succ_of hdrop)
  have hopen : c ≠ if b = true then 0x7D else 0x5D := by
    cases b with
    | false => exact hbracket
    | true => exact hbrace
  rw [skipRun_open hroom (at?_eq hdrop), Run.bind_apply, skipOpen,
    Run.bind_of_ok (Run.modify_apply _ _),
    Run.bind_of_ok (skipWs_run _), Run.bind_of_ok (Run.get_apply _), hat]
  dsimp only
  rw [if_neg hopen, Run.pure_apply]
  exact skipRun_skipped (fun h => List.cons_ne_nil _ _ h.2) _

theorem skipRun_comma {ws' tail : Bytes} (hws : Blank ws) (hws' : Blank ws') (htail : Begins tail)
    (hdrop : inp.drop s.pos = ws ++ 0x2C :: (ws' ++ tail)) :
    skipRun o cc inp (b :: levels) .afterValue s =
      skipRun o cc inp (b :: levels) (want b) (s.advance (ws.length + 1)) := by
  have hskip := skipped_eq hws hdrop fun c hc => by cases hc; rfl
  have hcomma := drop_add_of hdrop
  obtain ⟨c, hat, hbrace, hbracket⟩ :=
    htail.at? (s := s.advance (ws.length + 1)) hws' (drop_succ_of hcomma)
  have hnone : ¬ (at? inp ((s.advance (ws.length + 1)).skipped inp).pos = some 0x7D ∨
      at? inp ((s.advance (ws.length + 1)).skipped inp).pos = some 0x5D) := by
    rw [hat]
    simp [hbrace, hbracket]
  rw [skipRun_step (fun h => List.cons_ne_nil _ _ h.2) (by rw [hskip]; exact at?_eq hcomma),
    Run.bind_apply, skipStep,
    if_pos rfl, Run.bind_of_ok (Run.modify_apply _ _), Run.bind_of_ok (skipWs_run _),
      Run.bind_of_ok (Run.get_apply _),
    hskip, State.advance_advance, if_neg hnone, Run.pure_apply]
  exact skipRun_skipped (fun h => List.cons_ne_nil _ _ h.2) _

theorem skipRun_close (hws : Blank ws) (hdrop : inp.drop s.pos = ws ++ closeByte b :: rest) :
    skipRun o cc inp (b :: levels) .afterValue s =
      skipRun o cc inp levels .afterValue (s.advance (ws.length + 1)) := by
  have hbrackets : (if b then objectBrackets else arrayBrackets).close = closeByte b := by
    cases b with
    | false => rfl
    | true => rfl
  have hne : closeByte b ≠ 0x2C ∧ isWs (closeByte b) = false := by
    cases b with
    | false => decide
    | true => decide
  have hskip := skipped_eq hws hdrop fun c hc => by cases hc; exact hne.2
  rw [skipRun_step (fun h => List.cons_ne_nil _ _ h.2)
    (by rw [hskip]; exact at?_eq (drop_add_of hdrop)), Run.bind_apply,
    skipStep, if_neg hne.1, hbrackets, if_pos rfl, Run.bind_of_ok (Run.modify_apply _ _), hskip,
      State.advance_advance]
  rfl

theorem passColon_at (hws : Blank ws) (hdrop : inp.drop s.pos = ws ++ 0x3A :: rest) :
    passColon inp s = .ok ⟨⟩ (s.advance (ws.length + 1)) := by
  have hskip := skipped_eq hws hdrop fun c hc => by cases hc; rfl
  have hat : at? inp (s.advance ws.length).pos = some 0x3A := at?_eq (drop_add_of hdrop)
  rw [passColon, Run.bind_of_ok (skipWs_run s), Run.bind_of_ok (Run.get_apply _), hskip, hat]
  dsimp only
  rw [if_pos rfl, Run.modify_apply, State.advance_advance]

theorem skipRun_key {k key ws' : Bytes} (hws : Blank ws) (hk : Quoted o k key) (hws' : Blank ws')
    (hdrop : inp.drop s.pos = ws ++ (k ++ (ws' ++ 0x3A :: rest))) :
    skipRun o cc inp levels .wantKey s = skipRun o cc inp levels .wantValue
      (s.advance (ws.length + (k.length + (ws'.length + 1)))) := by
  obtain ⟨hskip, hkey⟩ := (hk.begins.append _).skipped hws hdrop
  obtain ⟨r, hparse, -⟩ := hk.parseString hkey
  have hat : at? inp (s.advance ws.length).pos = some 0x22 := by
    cases hk
    exact at?_eq hkey
  have hcolon := passColon_at (s := (s.advance ws.length).advance k.length) hws' (drop_add_of hkey)
  rw [skipRun_step (fun h => SkipState.noConfusion h.1) (by rw [hskip]; exact hat), Run.bind_apply,
    skipStep,
    if_neg (not_not.2 rfl), hskip, Run.bind_of_ok hparse, Run.bind_of_ok hcolon,
      State.advance_advance, State.advance_advance]
  rfl

end

/-! ### Completeness -/

/-- Where a phrase stands, the loop passes it. -/
def Completes (o : Options) (cc : Charconv) (inp : Bytes) : Phrase → Nat → Bytes → Prop
  | .value, d, v =>
    ∀ (s : State) (levels : Levels) (rest : Bytes), s.depth + levels.length = d → Uncut v rest →
    inp.drop (s.skipped inp).pos = v ++ rest →
      skipRun o cc inp levels .wantValue s =
        skipRun o cc inp levels .afterValue ((s.skipped inp).advance v.length)
  | .member b, d, x =>
    ∀ (s : State) (levels : Levels) (rest : Bytes), s.depth + levels.length + 1 = d →
      Delimits rest →
    inp.drop s.pos = x ++ rest →
      skipRun o cc inp (b :: levels) (want b) s =
        skipRun o cc inp (b :: levels) .afterValue (s.advance x.length)
  | .rest b, d, y =>
    ∀ (s : State) (levels : Levels) (rest : Bytes), s.depth + levels.length + 1 = d →
      inp.drop s.pos = y ++ rest →
      skipRun o cc inp (b :: levels) .afterValue s =
        skipRun o cc inp levels .afterValue (s.advance y.length)

theorem Derives.completes {p : Phrase} {d : Nat} {bs : Bytes} {ms : List (Option Bytes × Tree)}
    (h : Derives o cc p d bs ms) :
    Completes o cc inp p d bs := by
  induction h with
  | word h => exact fun s levels rest _ _ hdrop => (h.scalarAt hdrop).run
  | number n hn =>
    exact fun s levels rest _ hcut hdrop => (Number.scalarAt hn (hcut n rfl) hdrop).run
  | text h => exact fun s levels rest _ _ hdrop => (h.scalarAt hdrop).run
  | @empty d b ws hws hroom =>
    intro s levels rest hdepth _ hdrop
    rw [List.cons_append, List.append_assoc] at hdrop
    rw [skipRun_empty (by omega) hws hdrop]
    simp
  | @full d b x y m ms hroom hx hy ihx ihy =>
    intro s levels rest hdepth _ hdrop
    obtain ⟨ws, tail, rfl, hws, htail⟩ := hx.begins
    simp only [List.cons_append, List.append_assoc] at hdrop
    have hinside : inp.drop ((s.skipped inp).advance 1).pos = (ws ++ tail) ++ (y ++ rest) := by
      rw [List.append_assoc]
      exact drop_succ_of hdrop
    have hrest := drop_add_of hinside
    rw [skipRun_enter (by omega) hws (htail.append _) hdrop,
      ihx _ _ _ (by exact congrArg (· + 1) hdepth) (hy.delimits rest) hinside,
      ihy _ _ _ (by exact congrArg (· + 1) hdepth) hrest, State.advance_advance,
        State.advance_advance]
    simp only [List.length_cons, List.length_append]
    rw [show 1 + (ws.length + tail.length + y.length) =
      ws.length + tail.length + y.length + 1 by omega]
  | @element d ws v x hws hv ihv =>
    intro s levels rest hdepth hends hdrop
    rw [List.append_assoc] at hdrop
    obtain ⟨hskip, hvalue⟩ := (hv.begins.append rest).skipped hws hdrop
    have hrun := ihv s (false :: levels) rest hdepth (hends.uncut v) (by rw [hskip]; exact hvalue)
    rw [hskip, State.advance_advance, ← List.length_append] at hrun
    exact hrun
  | @entry d ws k key ws' ws'' v x hws hk hws' hws'' hv ihv =>
    intro s levels rest hdepth hends hdrop
    simp only [List.append_assoc, List.cons_append] at hdrop
    have hafter : inp.drop (s.advance (ws.length + (k.length + (ws'.length + 1)))).pos =
      ws'' ++ (v ++ rest) := by
      have h := drop_succ_of (drop_add_of (drop_add_of (drop_add_of hdrop)))
      simp only [Nat.add_assoc] at h
      exact h
    obtain ⟨hskip, hvalue⟩ := (hv.begins.append rest).skipped hws'' hafter
    have hrun := ihv (s.advance (ws.length + (k.length + (ws'.length + 1))))
      (true :: levels) rest hdepth (hends.uncut v)
      (by rw [hskip]; exact hvalue)
    rw [want, if_pos rfl, skipRun_key hws hk hws' hdrop, hrun, hskip, State.advance_advance,
      State.advance_advance]
    simp only [List.length_append, List.length_cons]
    congr 2
    omega
  | @close d b ws hws =>
    intro s levels rest _ hdrop
    rw [List.append_assoc] at hdrop
    rw [skipRun_close hws hdrop, List.length_append]
    rfl
  | @comma d b ws x y m ms hws hx hy ihx ihy =>
    intro s levels rest hdepth hdrop
    obtain ⟨ws', tail, rfl, hws', htail⟩ := hx.begins
    simp only [List.append_assoc, List.cons_append] at hdrop
    have hmember : inp.drop (s.advance (ws.length + 1)).pos = (ws' ++ tail) ++ (y ++ rest) := by
      rw [List.append_assoc]
      exact drop_succ_of (drop_add_of hdrop)
    have hrest := drop_add_of hmember
    have hrunx := ihx (s.advance (ws.length + 1)) levels _ hdepth (hy.delimits rest) hmember
    have hruny := ihy ((s.advance (ws.length + 1)).advance (ws' ++ tail).length) levels _ hdepth
      hrest
    rw [skipRun_comma hws hws' (htail.append _) hdrop, hrunx, hruny, State.advance_advance,
      State.advance_advance]
    simp only [List.length_append, List.length_cons]
    congr 2
    omega

/-! ### The validator -/

theorem skipValue_at {ws v rest : Bytes} {x : Tree} (hdrop : inp.drop s.pos = ws ++ (v ++ rest))
    (hws : Blank ws) (hv : Value o cc s.depth v x) (hcut : Uncut v rest) :
    skipValue o cc inp s = .ok () (s.advance (ws ++ v).length) := by
  obtain ⟨hskip, hvalue⟩ := (hv.begins.append rest).skipped hws hdrop
  have hrun := hv.completes s [] rest rfl hcut (by rw [hskip]; exact hvalue)
  rw [skipValue_eq, hrun, hskip, State.advance_advance, skipRun_done, List.length_append]

theorem skipValue_passes {a : Unit} (h : skipValue o cc inp s = .ok a t) :
    ∃ ws v x, Blank ws ∧ Value o cc s.depth v x ∧ Uncut v (inp.drop t.pos) ∧
      Passes inp s t (ws ++ v) := by
  obtain ⟨bs, hpass, ws, v, x, z, rfl, hws, hv, hcut, rfl⟩ := skipLoop_remains h
  rw [List.append_nil] at hpass
  exact ⟨ws, v, x, hws, hv, hcut, hpass⟩

/-- The validator returns exactly if a value within the depth stands behind the blanks, and no
number that is cut. It stops behind that value. -/
theorem skipValue_eq_ok (o : Options) (cc : Charconv) (inp : Bytes) (s t : State) :
    skipValue o cc inp s = .ok () t ↔
      ∃ ws v x rest, inp.drop s.pos = ws ++ (v ++ rest) ∧ Blank ws ∧ Value o cc s.depth v x ∧
        Uncut v rest ∧
        t = { s with pos := s.pos + (ws ++ v).length } := by
  constructor
  · intro h
    obtain ⟨ws, v, x, hws, hv, hcut, hpass⟩ := skipValue_passes h
    have hdrop : inp.drop s.pos = ws ++ (v ++ inp.drop t.pos) := by
      rw [hpass.bytes, List.append_assoc]
    rw [skipValue_at hdrop hws hv hcut] at h
    exact ⟨ws, v, x, _, hdrop, hws, hv, hcut, (EStateM.Result.ok.inj h).2.symm⟩
  · rintro ⟨ws, v, x, rest, hdrop, hws, hv, hcut, rfl⟩
    exact skipValue_at hdrop hws hv hcut

end VCodec.Json
