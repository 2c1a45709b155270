import VCodec.Json.Total

/-!
# JSON strings

A string literal is read by one of two parsers, which agree: the first looks for the closing quote
and hands over to the second at the first escape, so a string can be borrowed exactly if it has none
(`parseString_eq`). `Spells` relates what stands between the quotes to the text it stands for. What
the writer writes spells its text, and a literal of RFC 8259 spells the UTF-8 of its code points
unless a surrogate stands alone.
-/

namespace VCodec.Json

variable {o : Options} {inp : Bytes} {s : State}

/-! ### The writer -/

/-- Control characters, the quote and the backslash. -/
def needsEscape (c : UInt8) : Bool := c.toNat < 0x20 ∨ c = 0x22 ∨ c = 0x5C

def hexUpper : Bytes := str "0123456789ABCDEF"

def putEscape (c : UInt8) : Bytes :=
  if c = 0x22 then [0x5C, 0x22]
  else if c = 0x5C then [0x5C, 0x5C]
  else if c = 0x08 then [0x5C, 0x62]
  else if c = 0x0C then [0x5C, 0x66]
  else if c = 0x0A then [0x5C, 0x6E]
  else if c = 0x0D then [0x5C, 0x72]
  else if c = 0x09 then [0x5C, 0x74]
  else [0x5C, 0x75, 0x30, 0x30, hexUpper.getD (c.toNat / 16) 0, hexUpper.getD (c.toNat % 16) 0]

/-- The bytes of a run that need no escape are appended together. -/
def escapeLoop : Bytes → Bytes → Bytes → Bytes
  | [], run, out => out ++ run
  | c :: s, run, out =>
    if needsEscape c then escapeLoop s [] (out ++ run ++ putEscape c) else escapeLoop s
      (run ++ [c]) out

def writeString (validate : Bool) (out s : Bytes) : Except EncodeError Bytes :=
  match (if validate then validateUtf8 s else none) with
  | some bad =>
    .error { code := .invalidUtf8, message := str "string contains invalid UTF-8 at byte " ++
      decimal bad }
  | none => .ok (escapeLoop s [] (out ++ [0x22]) ++ [0x22])

def escapeByte (c : UInt8) : Bytes := if needsEscape c then putEscape c else [c]

def escaped (s : Bytes) : Bytes := s.flatMap escapeByte

theorem escapeLoop_eq (s run out : Bytes) : escapeLoop s run out = out ++ (run ++ escaped s) := by
  induction s generalizing run out with
  | nil =>
    rw [escapeLoop]
    exact congrArg (out ++ ·) (List.append_nil run).symm
  | cons c s ih =>
    have hcons : escaped (c :: s) = escapeByte c ++ escaped s := List.flatMap_cons
    rw [escapeLoop, hcons, escapeByte]
    split
    · rw [ih, List.nil_append, List.append_assoc, List.append_assoc]
    · rw [ih, List.append_assoc]

/-! ### The two parsers -/

theorem at?_eq {i : Nat} {c : UInt8} {rest : Bytes} (h : inp.drop i = c :: rest) :
    at? inp i = some c := by
  rw [at?, ← List.head?_drop, h, List.head?_cons]

theorem drop_succ_of {i : Nat} {c : UInt8} {rest : Bytes} (h : inp.drop i = c :: rest) :
    inp.drop (i + 1) = rest := by
  rw [← List.drop_drop, h, List.drop_one, List.tail_cons]

theorem drop_add_of {i : Nat} {a rest : Bytes} (h : inp.drop i = a ++ rest) :
    inp.drop (i + a.length) = rest := by
  rw [← List.drop_drop, h, List.drop_left]

theorem substr_of {i : Nat} {a rest : Bytes} (h : inp.drop i = a ++ rest) :
    substr inp i a.length = a := by
  rw [substr, h, List.take_left]

theorem exists_drop {i : Nat} {c : UInt8} (h : at? inp i = some c) :
    inp.drop i = c :: inp.drop (i + 1) := by
  obtain ⟨hlt, rfl⟩ := List.getElem?_eq_some_iff.1 h
  exact List.drop_eq_getElem_cons hlt

theorem substr_self (i : Nat) : substr inp i (i - i) = [] := by
  rw [substr, Nat.sub_self, List.take_zero]

theorem substr_succ {i j : Nat} {c : UInt8} (h : at? inp i = some c) (hle : i + 1 ≤ j) :
    substr inp i (j - i) = c :: substr inp (i + 1) (j - (i + 1)) := by
  rw [substr, exists_drop h, show j - i = j - (i + 1) + 1 by omega, List.take_succ_cons]
  rfl

theorem readEscape_length
    {open_ i n : Nat} {text : Bytes} (h : readEscape inp open_ i = .ok (text, n)) : 2 ≤ n := by
  rw [readEscape] at h
  split at h
  · cases h
  split at h
  · cases h
    exact le_rfl
  split at h
  · rw [unicodeEscape] at h
    dsimp only at h
    split at h
    · cases h
    split at h
    · split at h
      · split at h
        · split at h
          · obtain ⟨-, rfl⟩ := Prod.mk.inj (Except.ok.inj h)
            exact Nat.le_add_left 2 10
          · cases h
        · cases h
      · cases h
    split at h
    · cases h
    · obtain ⟨-, rfl⟩ := Prod.mk.inj (Except.ok.inj h)
      exact Nat.le_add_left 2 4
  · cases h

/-- A parser that passes a byte in every round does not run out of rounds first. -/
theorem unescape_fuel {open_ fuel fuel' i : Nat} {scratch : Bytes} (h : inp.length - i < fuel)
    (h' : inp.length - i < fuel') :
    unescape inp open_ fuel i scratch = unescape inp open_ fuel' i scratch := by
  induction fuel generalizing fuel' i scratch with
  | zero => omega
  | succ fuel ih =>
    cases fuel' with
    | zero => omega
    | succ fuel' =>
      rw [unescape, unescape]
      cases hc : at? inp i with
      | none => rfl
      | some c =>
        have hlt := (List.getElem?_eq_some_iff.1 hc).1
        dsimp only
        split
        · rfl
        split
        · rfl
        split
        · exact ih (by omega) (by omega)
        · cases hesc : readEscape inp open_ i with
          | error e => rfl
          | ok r =>
            obtain ⟨text, n⟩ := r
            have htwo := readEscape_length hesc
            exact ih (by omega) (by omega)

/-- Where the first parser ends, the second one would be. -/
theorem unescape_scanPlain {open_ fuel i : Nat} (h : inp.length - i < fuel) (scratch : Bytes) :
    match scanPlain inp open_ fuel i with
    | .error e => unescape inp open_ fuel i scratch = .error e
    | .ok (.quote j) => i ≤ j ∧ 0x5C ∉ substr inp i (j - i) ∧
        unescape inp open_ fuel i scratch = .ok (scratch ++ substr inp i (j - i), j)
    | .ok (.escape j) => i ≤ j ∧ at? inp j = some 0x5C ∧
        unescape inp open_ fuel i scratch =
          unescape inp open_ fuel j (scratch ++ substr inp i (j - i)) := by
  induction fuel generalizing i scratch with
  | zero => omega
  | succ fuel ih =>
    rw [scanPlain]
    cases hc : at? inp i with
    | none =>
      dsimp only
      rw [unescape, hc]
    | some c =>
      have hlt := (List.getElem?_eq_some_iff.1 hc).1
      dsimp only
      by_cases hquote : c = 0x22
      · rw [if_pos hquote]
        refine ⟨le_rfl, by rw [substr_self]; exact List.not_mem_nil, ?_⟩
        rw [unescape, hc, substr_self, List.append_nil]
        exact if_pos hquote
      by_cases hescape : c = 0x5C
      · rw [if_neg hquote, if_pos hescape]
        refine ⟨le_rfl, hescape ▸ hc, ?_⟩
        rw [substr_self, List.append_nil]
      by_cases hcontrol : c.toNat < 0x20
      · rw [if_neg hquote, if_neg hescape, if_pos hcontrol, unescape, hc]
        dsimp only
        rw [if_neg hquote, if_pos hcontrol]
      have hstep : unescape inp open_ (fuel + 1) i scratch =
        unescape inp open_ fuel (i + 1) (scratch ++ [c]) := by
        rw [unescape, hc]
        dsimp only
        rw [if_neg hquote, if_neg hcontrol, if_pos hescape]
      rw [if_neg hquote, if_neg hescape, if_neg hcontrol, hstep]
      have ih := ih (i := i + 1) (by omega) (scratch ++ [c])
      cases hrest : scanPlain inp open_ fuel (i + 1) with
      | error e =>
        rw [hrest] at ih
        exact ih
      | ok p =>
        rw [hrest] at ih
        cases p with
        | quote j =>
          obtain ⟨hle, hclean, hend⟩ := ih
          refine ⟨Nat.le_of_succ_le hle, ?_, ?_⟩
          · rw [substr_succ hc hle, List.mem_cons, not_or]
            exact ⟨Ne.symm hescape, hclean⟩
          · rw [substr_succ hc hle, hend, List.append_assoc]
            rfl
        | escape j =>
          obtain ⟨hle, hback, hend⟩ := ih
          have hltj := (List.getElem?_eq_some_iff.1 hback).1
          refine ⟨Nat.le_of_succ_le hle, hback, ?_⟩
          rw [hend, substr_succ hc hle, List.append_assoc, List.singleton_append]
          exact unescape_fuel (by omega) (by omega)

theorem mem_substr {i j n : Nat} {c : UInt8} (h : at? inp j = some c) (hle : i ≤ j)
    (hlt : j < i + n) : c ∈ substr inp i n := by
  have hget : (substr inp i n)[j - i]? = some c := by
    rw [substr, List.getElem?_take_of_lt (by omega), List.getElem?_drop, Nat.add_sub_cancel' hle]
    exact h
  exact List.mem_of_getElem? hget

/-- The borrowing parser is the other one, and borrows if there is no backslash. -/
theorem parseString_eq (h : s.pos < inp.length) :
    parseString o inp s =
      match unescape inp s.pos (inp.length - s.pos) (s.pos + 1) [] with
      | .error e => .error e s
      | .ok (text, close) =>
        closeString o inp s.pos close text
          (decide (0x5C ∉ substr inp (s.pos + 1) (close - s.pos - 1))) s := by
  have hscan := @unescape_scanPlain inp s.pos (inp.length - s.pos) (s.pos + 1) (by omega) []
  rw [parseString]
  cases hplain : scanPlain inp s.pos (inp.length - s.pos) (s.pos + 1) with
  | error e =>
    rw [hplain] at hscan
    rw [hscan]
  | ok p =>
    rw [hplain] at hscan
    cases p with
    | quote j =>
      obtain ⟨-, hclean, hend⟩ := hscan
      rw [← Nat.sub_sub] at hclean hend
      rw [hend, List.nil_append]
      dsimp only
      rw [decide_eq_true hclean]
    | escape j =>
      obtain ⟨hle, hback, hend⟩ := hscan
      rw [hend, List.nil_append, ← Nat.sub_sub]
      cases hrest : unescape inp s.pos (inp.length - s.pos) j
        (substr inp (s.pos + 1) (j - s.pos - 1)) with
      | error e =>
        dsimp only
        rw [hrest]
      | ok r =>
        obtain ⟨text, close⟩ := r
        obtain ⟨hj, hclose⟩ := unescape_ok hrest
        have hne : j ≠ close := by
          rintro heq
          rw [← heq, hback] at hclose
          cases hclose
        have hmem : 0x5C ∈ substr inp (s.pos + 1) (close - s.pos - 1) :=
          mem_substr hback hle (by omega)
        dsimp only
        rw [hrest, decide_eq_false (not_not_intro hmem)]

/-- `parse_escaped_string` appends the bytes between two escapes together: `run` is where they
begin. -/
def unescapeRuns (inp : Bytes) (open_ : Nat) : Nat → Nat → Nat → Bytes → Except Error (Bytes × Nat)
  | 0, _, _, _ => .error (unterminatedError inp open_)
  | fuel + 1, i, run, scratch =>
    match at? inp i with
    | none => .error (unterminatedError inp open_)
    | some c =>
      if c = 0x22 then .ok (scratch ++ substr inp run (i - run), i)
      else if c.toNat < 0x20 then .error (controlError inp i)
      else if c ≠ 0x5C then unescapeRuns inp open_ fuel (i + 1) run scratch
      else
        match readEscape inp open_ i with
        | .error e => .error e
        | .ok (text, n) =>
          unescapeRuns inp open_ fuel (i + n) (i + n) (scratch ++ substr inp run (i - run) ++ text)

theorem substr_snoc {i run : Nat} {c : UInt8} (hle : run ≤ i) (hc : at? inp i = some c) :
    substr inp run (i - run) ++ [c] = substr inp run (i + 1 - run) := by
  have hget : (inp.drop run)[i - run]? = some c := by
    rw [List.getElem?_drop, Nat.add_sub_cancel' hle]
    exact hc
  rw [substr, substr, Nat.sub_add_comm hle, List.take_add_one, hget]
  rfl

theorem unescapeRuns_eq {open_ fuel i run : Nat} {scratch : Bytes} (hle : run ≤ i) :
    unescapeRuns inp open_ fuel i run scratch =
      unescape inp open_ fuel i (scratch ++ substr inp run (i - run)) := by
  induction fuel generalizing i run scratch with
  | zero => rfl
  | succ fuel ih =>
    rw [unescapeRuns, unescape]
    cases hc : at? inp i with
    | none => rfl
    | some c =>
      dsimp only
      split
      · rfl
      split
      · rfl
      split
      · rw [ih (Nat.le_succ_of_le hle), List.append_assoc, substr_snoc hle hc]
      · cases hesc : readEscape inp open_ i with
        | error e => rfl
        | ok r =>
          dsimp only
          rw [ih le_rfl, substr_self, List.append_nil]

/-! ### Spellings -/

/-- Behind a backslash, `e` stands for `text`. -/
def Escapes (e text : Bytes) : Prop :=
  ∀ (inp : Bytes) (open_ i : Nat) (rest : Bytes), inp.drop i = 0x5C :: (e ++ rest) →
    readEscape inp open_ i = .ok (text, e.length + 1)

/-- Between quotes, `raw` stands for `text`. -/
inductive Spells : Bytes → Bytes → Prop
  | nil : Spells [] []
  | plain {c : UInt8} {raw text : Bytes} (hc : needsEscape c = false) (h : Spells raw text) :
      Spells (c :: raw) (c :: text)
  | escape {e out raw text : Bytes} (he : Escapes e out) (h : Spells raw text) :
      Spells (0x5C :: (e ++ raw)) (out ++ text)

theorem Spells.append {raw text raw' text' : Bytes} (h : Spells raw text) (h' : Spells raw' text') :
    Spells (raw ++ raw') (text ++ text') := by
  induction h with
  | nil => exact h'
  | plain hc _ ih => exact .plain hc ih
  | escape he _ ih =>
    rw [List.cons_append, List.append_assoc, List.append_assoc]
    exact .escape he ih

theorem Spells.self {raw : Bytes} (h : ∀ c ∈ raw, needsEscape c = false) : Spells raw raw := by
  induction raw with
  | nil => exact .nil
  | cons c raw ih =>
    exact .plain (h c List.mem_cons_self) (ih fun x hx => h x (List.mem_cons_of_mem _ hx))

theorem needsEscape_eq_false {c : UInt8} :
    needsEscape c = false ↔ 0x20 ≤ c.toNat ∧ c ≠ 0x22 ∧ c ≠ 0x5C := by
  rw [needsEscape, decide_eq_false_iff_not, not_or, not_or, Nat.not_lt]

/-- What is spelled is passed, and its text noted. -/
theorem unescape_spells {raw text rest scratch : Bytes} {open_ fuel i : Nat} (h : Spells raw text)
    (hdrop : inp.drop i = raw ++ rest) (hfuel : inp.length - i < fuel) :
    unescape inp open_ fuel i scratch = unescape inp open_ fuel (i + raw.length)
      (scratch ++ text) := by
  induction h generalizing i scratch with
  | nil => rw [List.append_nil, List.length_nil, Nat.add_zero]
  | @plain c raw text hc _ ih =>
    obtain ⟨hcontrol, hquote, hescape⟩ := needsEscape_eq_false.1 hc
    obtain ⟨k, rfl⟩ : ∃ k, fuel = k + 1 := ⟨fuel - 1, by omega⟩
    have hat := at?_eq hdrop
    have hlt := at?_lt hat
    calc unescape inp open_ (k + 1) i scratch = unescape inp open_ k (i + 1) (scratch ++ [c]) := by
          rw [unescape, hat]
          dsimp only
          rw [if_neg hquote, if_neg (by omega), if_pos hescape]
      _ = unescape inp open_ (k + 1) (i + 1) (scratch ++ [c]) := unescape_fuel (by omega) (by omega)
      _ = unescape inp open_ (k + 1) (i + 1 + raw.length) (scratch ++ [c] ++ text) :=
          ih (drop_succ_of hdrop) (by omega)
      _ = unescape inp open_ (k + 1) (i + (c :: raw).length) (scratch ++ c :: text) := by
          rw [List.length_cons, Nat.add_assoc, Nat.add_comm 1, List.append_assoc]
          rfl
  | @escape e out raw text he _ ih =>
    obtain ⟨k, rfl⟩ : ∃ k, fuel = k + 1 := ⟨fuel - 1, by omega⟩
    rw [List.cons_append, List.append_assoc] at hdrop
    have hat := at?_eq hdrop
    have hlt := at?_lt hat
    have hread := he inp open_ i (raw ++ rest) hdrop
    have hnext : inp.drop (i + (e.length + 1)) = raw ++ rest := by
      rw [Nat.add_comm e.length, ← Nat.add_assoc]
      exact drop_add_of (drop_succ_of hdrop)
    calc unescape inp open_ (k + 1) i scratch =
      unescape inp open_ k (i + (e.length + 1)) (scratch ++ out) := by
          rw [unescape, hat]
          dsimp only
          rw [if_neg (by decide), if_neg (by decide), if_neg (by decide), hread]
      _ = unescape inp open_ (k + 1) (i + (e.length + 1)) (scratch ++ out) :=
        unescape_fuel (by omega) (by omega)
      _ = unescape inp open_ (k + 1) (i + (e.length + 1) + raw.length) (scratch ++ out ++ text) :=
        ih hnext (by omega)
      _ = unescape inp open_ (k + 1) (i + (0x5C :: (e ++ raw)).length)
        (scratch ++ (out ++ text)) := by
          rw [List.length_cons, List.length_append, List.append_assoc]
          congr 1
          omega

/-- A string that is spelled is taken to its closing quote. -/
theorem parseString_close {raw text rest : Bytes} (h : Spells raw text)
    (hdrop : inp.drop s.pos = 0x22 :: (raw ++ 0x22 :: rest)) :
    parseString o inp s =
        closeString o inp s.pos (s.pos + 1 + raw.length) text (decide (0x5C ∉ raw)) s ∧
      substr inp (s.pos + 1) (s.pos + 1 + raw.length - s.pos - 1) = raw := by
  have hlt := at?_lt (at?_eq hdrop)
  have hraw := drop_succ_of hdrop
  have hquote := drop_add_of hraw
  have hend := at?_lt (at?_eq hquote)
  have hrun : unescape inp s.pos (inp.length - s.pos) (s.pos + 1) [] =
    .ok (text, s.pos + 1 + raw.length) := by
    rw [unescape_spells h hraw (by omega), List.nil_append]
    obtain ⟨k, hk⟩ : ∃ k, inp.length - s.pos = k + 1 := ⟨inp.length - s.pos - 1, by omega⟩
    rw [hk, unescape, at?_eq hquote]
    exact if_pos rfl
  have hsub : substr inp (s.pos + 1) (s.pos + 1 + raw.length - s.pos - 1) = raw := by
    rw [show s.pos + 1 + raw.length - s.pos - 1 = raw.length by omega]
    exact substr_of hraw
  refine ⟨?_, hsub⟩
  rw [parseString_eq hlt, hrun]
  dsimp only
  rw [hsub]

/-- A string that is spelled is read. -/
theorem parseString_spells
    {raw text rest : Bytes} (h : Spells raw text) (hutf : o.validateUtf8 = true → Utf8.Valid raw)
    (hdrop : inp.drop s.pos = 0x22 :: (raw ++ 0x22 :: rest)) :
    parseString o inp s = .ok { text, borrowed := decide (0x5C ∉ raw), rawLength := raw.length + 2 }
      { s with pos := s.pos + (raw.length + 2) } := by
  obtain ⟨hrun, hsub⟩ := parseString_close (o := o) h hdrop
  have hvalid : (if o.validateUtf8 then validateUtf8 raw else none) = none := by
    split
    · rename_i hv
      exact validateUtf8_eq_none.2 (hutf hv)
    · rfl
  rw [hrun, closeString, hsub, hvalid, show s.pos + 1 + raw.length + 1 - s.pos =
    raw.length + 2 by omega,
    show s.pos + 1 + raw.length + 1 = s.pos + (raw.length + 2) by omega]

/-- A string that is spelled is refused if it is no UTF-8 and is checked. -/
theorem parseString_invalid
    {raw text rest : Bytes} (h : Spells raw text) (hv : o.validateUtf8 = true)
    (hno : ¬ Utf8.Valid raw) (hdrop : inp.drop s.pos = 0x22 :: (raw ++ 0x22 :: rest)) :
    ∃ e, parseString o inp s = .error e s := by
  obtain ⟨hrun, hsub⟩ := parseString_close (o := o) h hdrop
  cases hbad : validateUtf8 raw with
  | none => exact absurd (validateUtf8_eq_none.1 hbad) hno
  | some bad =>
    refine ⟨(error inp .invalidUtf8 (s.pos + 1 + bad)).withLength 1, ?_⟩
    rw [hrun, closeString, hsub, if_pos hv, hbad]

/-- A string is refused at an escape that cannot be read. -/
theorem parseString_rejects {raw text tail : Bytes} {e : Error} (h : Spells raw text)
    (hdrop : inp.drop s.pos = 0x22 :: (raw ++ 0x5C :: tail))
    (hread : readEscape inp s.pos (s.pos + 1 + raw.length) = .error e) :
    parseString o inp s = .error e s := by
  have hlt := at?_lt (at?_eq hdrop)
  have hraw := drop_succ_of hdrop
  have hback := drop_add_of hraw
  have hend := at?_lt (at?_eq hback)
  have hrun : unescape inp s.pos (inp.length - s.pos) (s.pos + 1) [] = .error e := by
    rw [unescape_spells h hraw (by omega)]
    obtain ⟨k, hk⟩ : ∃ k, inp.length - s.pos = k + 1 := ⟨inp.length - s.pos - 1, by omega⟩
    rw [hk, unescape, at?_eq hback]
    dsimp only
    rw [if_neg (by decide), if_neg (by decide), if_neg (by decide), hread]
  rw [parseString_eq hlt, hrun]

/-! ### Escapes -/

theorem readEscape_at {open_ i : Nat} {e : UInt8} {tail : Bytes}
    (hdrop : inp.drop i = 0x5C :: e :: tail) :
    readEscape inp open_ i = match simpleEscape e with
      | some c => .ok ([c], 2)
      | none =>
        if e = 0x75 then unicodeEscape inp i else .error
          (escapeError inp i (substr inp i 2) 2) := by
  have hat : at? inp (i + 1) = some e := at?_eq (drop_succ_of hdrop)
  cases hletter : simpleEscape e with
  | some c => simp only [readEscape, hat, hletter]
  | none => simp only [readEscape, hat, hletter]

theorem escapes_letter {e c : UInt8} (h : simpleEscape e = some c) : Escapes [e] [c] := by
  intro inp open_ i rest hdrop
  rw [readEscape_at hdrop, h]
  rfl

/-- Four hexadecimal digits and their value. -/
def HexUnit (ds : Bytes) (u : Nat) : Prop := ds.length = 4 ∧ ∀ rest, hex4 (ds ++ rest) = some u

theorem readEscape_unit
    {open_ i : Nat} {ds tail : Bytes} (hdrop : inp.drop i = 0x5C :: 0x75 :: (ds ++ tail)) :
    readEscape inp open_ i = unicodeEscape inp i := by
  rw [readEscape_at hdrop]
  rfl

theorem escapes_unit {ds : Bytes} {u : Nat} (hu : HexUnit ds u) (hplain : u < 0xD800 ∨ 0xDFFF < u) :
    Escapes (0x75 :: ds) (appendUtf8 u) := by
  intro inp open_ i rest hdrop
  rw [List.cons_append] at hdrop
  rw [readEscape_unit hdrop, unicodeEscape, drop_succ_of (drop_succ_of hdrop), hu.2,
    List.length_cons, hu.1]
  dsimp only
  rw [if_neg (by omega), if_neg (by omega)]

theorem escapes_pair {ds ds' : Bytes} {u u' : Nat} (hu : HexUnit ds u) (hu' : HexUnit ds' u')
    (hhigh : 0xD800 ≤ u ∧ u ≤ 0xDBFF) (hlow : 0xDC00 ≤ u' ∧ u' ≤ 0xDFFF) :
    Escapes (0x75 :: (ds ++ 0x5C :: 0x75 :: ds'))
      (appendUtf8 (0x10000 + (u - 0xD800) * 1024 + (u' - 0xDC00))) := by
  intro inp open_ i rest hdrop
  simp only [List.cons_append, List.append_assoc] at hdrop
  have hfirst := drop_succ_of (drop_succ_of hdrop)
  have hback : inp.drop (i + 6) = 0x5C :: 0x75 :: (ds' ++ rest) := by
    have h := drop_add_of hfirst
    rw [hu.1] at h
    exact h
  have hletter : inp.drop (i + 7) = 0x75 :: (ds' ++ rest) := drop_succ_of hback
  have hsecond : inp.drop (i + 8) = ds' ++ rest := drop_succ_of hletter
  have hlong : i + 11 < inp.length := by
    have h := congrArg List.length hsecond
    rw [List.length_drop, List.length_append, hu'.1] at h
    omega
  rw [readEscape_unit hdrop, unicodeEscape, hfirst, hu.2]
  dsimp only
  rw [if_pos hhigh, if_pos ⟨hlong, at?_eq hback, at?_eq hletter⟩, hsecond, hu'.2]
  dsimp only
  rw [if_pos hlow, List.length_cons, List.length_append, List.length_cons, List.length_cons, hu.1,
    hu'.1]

/-- A low surrogate comes second. -/
theorem readEscape_low {open_ i u : Nat} {ds tail : Bytes} (hu : HexUnit ds u)
    (hlow : 0xDC00 ≤ u ∧ u ≤ 0xDFFF) (hdrop : inp.drop i = 0x5C :: 0x75 :: (ds ++ tail)) :
    ∃ e, readEscape inp open_ i = .error e ∧ e.code = .invalidEscape := by
  rw [readEscape_unit hdrop, unicodeEscape, drop_succ_of (drop_succ_of hdrop), hu.2]
  dsimp only
  rw [if_neg (by omega), if_pos hlow]
  exact ⟨_, rfl, rfl⟩

/-- A high surrogate is followed by the escape of a low one. -/
theorem readEscape_high {open_ i u : Nat} {ds tail : Bytes} (hu : HexUnit ds u)
    (hhigh : 0xD800 ≤ u ∧ u ≤ 0xDBFF) (hdrop : inp.drop i = 0x5C :: 0x75 :: (ds ++ tail))
    (hlone : ∀ rest u', tail = 0x5C :: 0x75 :: rest → hex4 rest = some u' →
      ¬ (0xDC00 ≤ u' ∧ u' ≤ 0xDFFF)) :
    ∃ e, readEscape inp open_ i = .error e ∧ e.code = .invalidEscape := by
  have htail : inp.drop (i + 6) = tail := by
    have h := drop_add_of (drop_succ_of (drop_succ_of hdrop))
    rw [hu.1] at h
    exact h
  rw [readEscape_unit hdrop, unicodeEscape, drop_succ_of (drop_succ_of hdrop), hu.2]
  dsimp only
  rw [if_pos hhigh]
  split
  · rename_i hnext
    have hrest : tail = 0x5C :: 0x75 :: inp.drop (i + 8) := by
      rw [← htail, exists_drop hnext.2.1, exists_drop hnext.2.2]
    cases hlo : hex4 (inp.drop (i + 8)) with
    | none => exact ⟨_, rfl, rfl⟩
    | some lo =>
      dsimp only
      rw [if_neg (hlone _ lo hrest hlo)]
      exact ⟨_, rfl, rfl⟩
  · exact ⟨_, rfl, rfl⟩

end VCodec.Json
