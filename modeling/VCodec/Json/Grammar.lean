import Mathlib.Data.List.TakeWhile
import VCodec.Json.Expect
import VCodec.Json.Literals

/-!
# The grammar of RFC 8259

Texts and the trees they denote. Blanks stand in front of tokens, so a container is its bracket, its
first member, and the rest up to the closing bracket; a member of an object has a key. The depth
counts the containers around a value. The scanners are compared with the grammar here: each passes a
word, a number or a string of it.
-/

namespace VCodec.Json

/-! ### Tokens -/

/-- `ws`. -/
def Blank (ws : Bytes) : Prop := ∀ c ∈ ws, isWs c = true

/-- `*char`, and the text it stands for: no control characters, no other escapes than the legal
ones, no lone surrogates. -/
inductive Body : Bytes → Bytes → Prop
  | nil : Body [] []
  | plain {c : UInt8} {raw text : Bytes} (hc : needsEscape c = false) (h : Body raw text) :
      Body (c :: raw) (c :: text)
  | letter (l : Letter) {raw text : Bytes} (h : Body raw text) :
    Body ((Element.letter l).bytes ++ raw) (String.utf8EncodeChar l.char ++ text)
  | unit {u : CodeUnit} {raw text : Bytes} (hhigh : ¬ u.High) (hlow : ¬ u.Low) (h : Body raw text) :
    Body ((Element.unit u).bytes ++ raw) (String.utf8EncodeChar (Char.ofNat u.value) ++ text)
  | pair {u u' : CodeUnit} {raw text : Bytes} (hhigh : u.High) (hlow : u'.Low) (h : Body raw text) :
    Body ((Element.unit u).bytes ++ (Element.unit u').bytes ++ raw)
      (String.utf8EncodeChar (pairChar u u') ++ text)

/-- `string`, valid UTF-8 if that is asked for. -/
inductive Quoted (o : Options) : Bytes → Bytes → Prop
  | mk {raw text : Bytes} (h : Body raw text) (hutf : o.validateUtf8 = true → Utf8.Valid raw) :
    Quoted o (0x22 :: (raw ++ [0x22])) text

/-- The scanner does not report the number as out of range. -/
def Number.InRange (cc : Charconv) (n : Number) : Prop :=
  ¬ ((scanNumber cc n.bytes).kind = .undefined ∧ (scanNumber cc n.bytes).error = .outOfRange)

/-! ### Values -/

/-- What a text denotes. A member of an array has no key. -/
inductive Tree
  | null
  | boolean (b : Bool)
  | number (n : Number)
  | text (t : Bytes)
  | container (isObject : Bool) (members : List (Option Bytes × Tree))

/-- The literals. -/
inductive Word : Bytes → Tree → Prop
  | null : Word (str "null") .null
  | true : Word (str "true") (.boolean true)
  | false : Word (str "false") (.boolean false)

def openByte (isObject : Bool) : UInt8 := if isObject then 0x7B else 0x5B

def closeByte (isObject : Bool) : UInt8 := if isObject then 0x7D else 0x5D

/-- A value, a member of a container with the blanks in front of it, and what comes behind a
member. -/
inductive Phrase
  | value
  | member (isObject : Bool)
  | rest (isObject : Bool)

/-- The text is one of the phrase, at the depth, and denotes the members. -/
inductive Derives (o : Options) (cc : Charconv) :
    Phrase → Nat → Bytes → List (Option Bytes × Tree) → Prop
  | word {d : Nat} {w : Bytes} {x : Tree} (h : Word w x) : Derives o cc .value d w [(none, x)]
  | number {d : Nat} (n : Number) (hn : n.InRange cc) :
      Derives o cc .value d n.bytes [(none, .number n)]
  | text {d : Nat} {s t : Bytes} (h : Quoted o s t) : Derives o cc .value d s [(none, .text t)]
  | empty {d : Nat} {b : Bool} {ws : Bytes} (hws : Blank ws) (hroom : d < o.maxDepth) :
    Derives o cc .value d (openByte b :: (ws ++ [closeByte b])) [(none, .container b [])]
  | full {d : Nat} {b : Bool} {x y : Bytes} {m : Option Bytes × Tree}
      {ms : List (Option Bytes × Tree)} (hroom : d < o.maxDepth)
    (hx : Derives o cc (.member b) (d + 1) x [m]) (hy : Derives o cc (.rest b) (d + 1) y ms) :
    Derives o cc .value d (openByte b :: (x ++ y)) [(none, .container b (m :: ms))]
  | element {d : Nat} {ws v : Bytes} {x : Tree} (hws : Blank ws)
      (hv : Derives o cc .value d v [(none, x)]) :
    Derives o cc (.member false) d (ws ++ v) [(none, x)]
  | entry {d : Nat} {ws k key ws' ws'' v : Bytes} {x : Tree} (hws : Blank ws) (hk : Quoted o k key)
      (hws' : Blank ws')
    (hws'' : Blank ws'') (hv : Derives o cc .value d v [(none, x)]) :
    Derives o cc (.member true) d (ws ++ (k ++ (ws' ++ 0x3A :: (ws'' ++ v)))) [(some key, x)]
  | close {d : Nat} {b : Bool} {ws : Bytes} (hws : Blank ws) :
      Derives o cc (.rest b) d (ws ++ [closeByte b]) []
  | comma {d : Nat} {b : Bool} {ws x y : Bytes} {m : Option Bytes × Tree}
      {ms : List (Option Bytes × Tree)} (hws : Blank ws)
    (hx : Derives o cc (.member b) d x [m]) (hy : Derives o cc (.rest b) d y ms) :
    Derives o cc (.rest b) d (ws ++ 0x2C :: (x ++ y)) (m :: ms)

/-- A value of the grammar. -/
def Value (o : Options) (cc : Charconv) (d : Nat) (v : Bytes) (x : Tree) : Prop :=
  Derives o cc .value d v [(none, x)]

/-- The text that follows does not go on with a number that the value is. -/
def Uncut (v rest : Bytes) : Prop := ∀ n : Number, v = n.bytes → n.Ends rest

variable {o : Options} {cc : Charconv} {inp : Bytes} {s t u : State}

theorem Blank.append {ws ws' : Bytes} (h : Blank ws) (h' : Blank ws') : Blank (ws ++ ws') := by
  intro c hc
  exact (List.mem_append.1 hc).elim (h c) (h' c)

theorem blank_nil : Blank [] := fun c hc => by cases hc

/-- More blanks may stand in front of a member. -/
theorem Derives.blank {b : Bool} {d : Nat} {x ws : Bytes} {ms : List (Option Bytes × Tree)}
    (h : Derives o cc (.member b) d x ms) (hws : Blank ws) :
    Derives o cc (.member b) d (ws ++ x) ms := by
  cases h with
  | element hws' hv =>
    rw [← List.append_assoc]
    exact .element (hws.append hws') hv
  | entry hws' hk hcolon hvalue hv =>
    rw [← List.append_assoc]
    exact .entry (hws.append hws') hk hcolon hvalue hv

theorem Derives.blankRest {b : Bool} {d : Nat} {y ws : Bytes} {ms : List (Option Bytes × Tree)}
    (h : Derives o cc (.rest b) d y ms) (hws : Blank ws) :
    Derives o cc (.rest b) d (ws ++ y) ms := by
  cases h with
  | close hws' =>
    rw [← List.append_assoc]
    exact .close (hws.append hws')
  | comma hws' hx hy =>
    rw [← List.append_assoc]
    exact .comma (hws.append hws') hx hy

/-! ### Passing over a text -/

/-- The text stands between the two places. -/
structure Passes (inp : Bytes) (s t : State) (bs : Bytes) : Prop where
  bytes : inp.drop s.pos = bs ++ inp.drop t.pos
  pos : t.pos = s.pos + bs.length
  depth : t.depth = s.depth

theorem Passes.refl (inp : Bytes) (s : State) : Passes inp s s [] := ⟨rfl, rfl, rfl⟩

theorem Passes.trans {a b : Bytes} (h : Passes inp s t a) (h' : Passes inp t u b) :
    Passes inp s u (a ++ b) where
  bytes := by rw [h.bytes, h'.bytes, List.append_assoc]
  pos := by rw [h'.pos, h.pos, List.length_append, Nat.add_assoc]
  depth := h'.depth.trans h.depth

theorem Passes.advance {bs rest : Bytes} (h : inp.drop s.pos = bs ++ rest) :
    Passes inp s (s.advance bs.length) bs where
  bytes := by rw [h, State.advance, drop_add_of h]
  pos := rfl
  depth := rfl

theorem Passes.length_le {bs : Bytes} (h : Passes inp s t bs) (hne : bs ≠ []) :
    t.pos ≤ inp.length := by
  have hlen := congrArg List.length h.bytes
  have hpos := h.pos
  have hbs := List.length_pos_iff.2 hne
  rw [List.length_append, List.length_drop, List.length_drop] at hlen
  omega

theorem passes_byte {c : UInt8} (h : at? inp s.pos = some c) : Passes inp s (s.advance 1) [c] := by
  have hpass : Passes inp s (s.advance [c].length) [c] := .advance (exists_drop h)
  exact hpass

theorem passes_skipped (inp : Bytes) (s : State) :
    ∃ ws, Blank ws ∧ Passes inp s (s.skipped inp) ws := by
  refine ⟨(inp.drop s.pos).takeWhile isWs, fun c hc => List.mem_takeWhile_imp hc, ⟨?_, rfl, rfl⟩⟩
  rw [drop_skipped, List.takeWhile_append_dropWhile]

/-- Blanks in front of something else are what the reader skips. -/
theorem skipped_eq {ws rest : Bytes} (hws : Blank ws) (hdrop : inp.drop s.pos = ws ++ rest)
    (hrest : ∀ c ∈ rest.head?, isWs c = false) : s.skipped inp = s.advance ws.length := by
  have htake : (ws ++ rest).takeWhile isWs = ws := by
    rw [List.takeWhile_append_of_pos hws]
    cases rest with
    | nil => simp
    | cons c rest => simp [hrest c rfl]
  rw [State.skipped, hdrop, htake]

theorem passes_literal {word : Bytes} {a : Unit} (h : literal inp word s = .ok a t) :
    Passes inp s t word := by
  unfold literal at h
  split at h
  · rename_i hsub
    cases h
    have hdrop : inp.drop s.pos = word ++ (inp.drop s.pos).drop word.length := by
      conv_rhs => enter [1]; rw [← hsub]
      exact (List.take_append_drop _ _).symm
    exact .advance hdrop
  · split at h <;> cases h

/-! ### Numbers -/

theorem Number.inRange_iff (n : Number) : n.InRange cc ↔ (n.scan cc).kind ≠ .undefined := by
  have hscan : scanNumber cc n.bytes = n.scan cc := by
    rw [← List.append_nil n.bytes]
    exact scanNumber_append n.ends_nil
  have hreal : ∀ b, (n.realScan cc b).kind = .undefined →
    (n.realScan cc b).error = .outOfRange := by
    intro b hkind
    unfold Number.realScan at hkind ⊢
    cases hchars : cc.fromChars n.bytes with
    | some d => simp [hchars] at hkind
    | none =>
      simp only [hchars] at hkind ⊢
      split at hkind
      · rename_i hpos
        rw [if_pos hpos]
      · cases hkind
  have herror : (n.scan cc).kind = .undefined → (n.scan cc).error = .outOfRange := by
    intro hkind
    unfold Number.scan at hkind ⊢
    split_ifs at hkind ⊢
    · exact hreal _ hkind
    · exact hreal _ hkind
  rw [Number.InRange, hscan]
  exact ⟨fun h hkind => h ⟨hkind, herror hkind⟩, fun h hboth => h hboth.1⟩

/-- The scanner passes a number that ends there. -/
theorem scanNumber_ok {bs : Bytes} (h : (scanNumber cc bs).kind ≠ .undefined) :
    ∃ (n : Number) (rest : Bytes), bs = n.bytes ++ rest ∧ n.Ends rest ∧ n.InRange cc ∧
      scanNumber cc bs = n.scan cc := by
  cases hparts : scanParts bs with
  | none =>
    rw [scanNumber, hparts] at h
    exact absurd rfl h
  | some p =>
    obtain ⟨n, rest, rfl, hends, -⟩ := scanParts_eq_some.1 hparts
    have hscan : scanNumber cc (n.bytes ++ rest) = n.scan cc := scanNumber_append hends
    rw [hscan] at h
    exact ⟨n, rest, rfl, hends, n.inRange_iff.2 h, hscan⟩

theorem Number.scan_length (n : Number) (cc : Charconv) : (n.scan cc).length = n.bytes.length := by
  simp only [Number.scan, Number.realScan]
  repeat' split
  all_goals rfl

theorem passes_number (h : (scanNumber cc (inp.drop s.pos)).kind ≠ .undefined) :
    ∃ n : Number, n.InRange cc ∧ n.Ends (inp.drop (s.pos + n.bytes.length)) ∧
      scanNumber cc (inp.drop s.pos) = n.scan cc ∧
      Passes inp s (s.advance n.bytes.length) n.bytes := by
  obtain ⟨n, rest, hdrop, hends, hrange, hscan⟩ := scanNumber_ok h
  refine ⟨n, hrange, ?_, hscan, .advance hdrop⟩
  rw [drop_add_of hdrop]
  exact hends

/-! ### Strings -/

theorem Body.spells {raw text : Bytes} (h : Body raw text) : Spells raw text := by
  induction h with
  | nil => exact .nil
  | plain hc _ ih => exact .plain hc ih
  | letter l _ ih => exact (spells_letter l).append ih
  | unit hhigh hlow _ ih => exact (spells_unit hhigh hlow).append ih
  | pair hhigh hlow _ ih => exact (spells_pair hhigh hlow).append ih

theorem HexDigit.byte_eq (d : HexDigit) :
    d.byte = UInt8.ofNat (if d.value.val < 10 then 0x30 + d.value.val
    else if d.upper then 0x41 + (d.value.val - 10) else 0x61 + (d.value.val - 10)) := rfl

theorem hexValue_eq_some {c : UInt8} {v : Nat} (h : hexValue c = some v) : ∃ d :
    HexDigit, d.byte = c ∧ d.value.val = v := by
  have hback : ∀ n, n = c.toNat → UInt8.ofNat n = c := fun n hn => by rw [hn, UInt8.ofNat_toNat]
  unfold hexValue isDigit at h
  split_ifs at h with hdigit hlower hupper
  · cases h
    rw [decide_eq_true_eq] at hdigit
    refine ⟨⟨⟨c.toNat - 0x30, by omega⟩, true⟩, ?_, rfl⟩
    rw [HexDigit.byte_eq]
    apply hback
    rw [if_pos (show c.toNat - 0x30 < 10 by omega)]
    dsimp only
    omega
  · cases h
    refine ⟨⟨⟨c.toNat - 0x61 + 10, by omega⟩, false⟩, ?_, rfl⟩
    rw [HexDigit.byte_eq]
    apply hback
    rw [if_neg (show ¬ c.toNat - 0x61 + 10 < 10 by omega), if_neg Bool.false_ne_true]
    dsimp only
    omega
  · cases h
    refine ⟨⟨⟨c.toNat - 0x41 + 10, by omega⟩, true⟩, ?_, rfl⟩
    rw [HexDigit.byte_eq]
    apply hback
    rw [if_neg (show ¬ c.toNat - 0x41 + 10 < 10 by omega), if_pos rfl]
    dsimp only
    omega

theorem hex4_eq_some {bs : Bytes} {v : Nat} (h : hex4 bs = some v) :
    ∃ (u : CodeUnit) (rest : Bytes), bs = u.bytes ++ rest ∧ u.value = v := by
  match bs, h with
  | a :: b :: c :: d :: rest, h =>
    simp only [hex4, Option.bind_eq_bind, Option.pure_def, Option.bind_eq_some_iff,
      Option.some.injEq] at h
    obtain ⟨va, ha, vb, hb, vc, hc, vd, hd, rfl⟩ := h
    obtain ⟨d₃, rfl, rfl⟩ := hexValue_eq_some ha
    obtain ⟨d₂, rfl, rfl⟩ := hexValue_eq_some hb
    obtain ⟨d₁, rfl, rfl⟩ := hexValue_eq_some hc
    obtain ⟨d₀, rfl, rfl⟩ := hexValue_eq_some hd
    refine ⟨⟨d₃, d₂, d₁, d₀⟩, rest, rfl, ?_⟩
    rw [CodeUnit.value]
    ring

theorem simpleEscape_eq_some {e c : UInt8} (h : simpleEscape e = some c) :
    ∃ l : Letter, l.byte = e ∧ String.utf8EncodeChar l.char = [c] := by
  have hletter : ∃ l : Letter, l.byte = e := by
    unfold simpleEscape at h
    split_ifs at h with hself hb hf hn hr ht
    · rcases hself with rfl | rfl | rfl
      · exact ⟨.quote, rfl⟩
      · exact ⟨.backslash, rfl⟩
      · exact ⟨.slash, rfl⟩
    · exact ⟨.b, hb.symm⟩
    · exact ⟨.f, hf.symm⟩
    · exact ⟨.n, hn.symm⟩
    · exact ⟨.r, hr.symm⟩
    · exact ⟨.t, ht.symm⟩
  obtain ⟨l, rfl⟩ := hletter
  obtain ⟨c', hc', htext⟩ := l.simpleEscape
  rw [hc'] at h
  cases h
  exact ⟨l, rfl, htext⟩

/-- What the reader takes for an escape is a legal one, and no lone surrogate. -/
theorem unicodeEscape_ok {i n : Nat} {text : Bytes} (hback : at? inp i = some 0x5C)
    (hletter : at? inp (i + 1) = some 0x75) (h : unicodeEscape inp i = .ok (text, n)) :
    ∃ e, inp.drop i = e ++ inp.drop (i + n) ∧ e.length = n ∧
      ∀ {raw out : Bytes}, Body raw out → Body (e ++ raw) (text ++ out) := by
  unfold unicodeEscape at h
  cases hhex : hex4 (inp.drop (i + 2)) with
  | none =>
    rw [hhex] at h
    cases h
  | some code =>
    obtain ⟨u, rest, hu, rfl⟩ := hex4_eq_some hhex
    have hunit : inp.drop i = (Element.unit u).bytes ++ rest := by
      rw [exists_drop hback, exists_drop hletter, hu]
      rfl
    have hrest : inp.drop (i + 6) = rest := drop_add_of hunit
    rw [hhex] at h
    dsimp only at h
    split_ifs at h with hhigh hnext hlow
    · cases hlo : hex4 (inp.drop (i + 8)) with
      | none =>
        rw [hlo] at h
        cases h
      | some lo =>
        obtain ⟨u', rest', hu', rfl⟩ := hex4_eq_some hlo
        rw [hlo] at h
        dsimp only at h
        split_ifs at h with hlow
        obtain ⟨rfl, rfl⟩ := Prod.mk.inj (Except.ok.inj h)
        have hunit' : rest = (Element.unit u').bytes ++ rest' := by
          rw [← hrest, exists_drop hnext.2.1, exists_drop hnext.2.2, hu']
          rfl
        have hboth : inp.drop i = (Element.unit u).bytes ++ (Element.unit u').bytes ++ rest' := by
          rw [hunit, hunit', List.append_assoc]
        refine ⟨_, hboth.trans (congrArg _ (drop_add_of hboth).symm), rfl, fun hbody => ?_⟩
        rw [appendUtf8_pair hhigh hlow]
        exact .pair hhigh hlow hbody
    · cases h
      refine ⟨_, hunit.trans (congrArg _ hrest.symm), rfl, fun hbody => ?_⟩
      rw [appendUtf8_unit hhigh hlow]
      exact .unit hhigh hlow hbody

theorem readEscape_ok {open_ i n : Nat} {text : Bytes} (hback : at? inp i = some 0x5C)
    (h : readEscape inp open_ i = .ok (text, n)) :
    ∃ e, inp.drop i = e ++ inp.drop (i + n) ∧ e.length = n ∧
      ∀ {raw out : Bytes}, Body raw out → Body (e ++ raw) (text ++ out) := by
  cases hat : at? inp (i + 1) with
  | none =>
    rw [readEscape, hat] at h
    cases h
  | some c =>
    have hdrop : inp.drop i = 0x5C :: c :: inp.drop (i + 2) := by
      rw [exists_drop hback, exists_drop hat]
    rw [readEscape_at hdrop] at h
    cases hsimple : simpleEscape c with
    | some x =>
      rw [hsimple] at h
      cases h
      obtain ⟨l, rfl, htext⟩ := simpleEscape_eq_some hsimple
      refine ⟨(Element.letter l).bytes, hdrop, rfl, fun hbody => ?_⟩
      rw [← htext]
      exact .letter l hbody
    | none =>
      rw [hsimple] at h
      dsimp only at h
      split_ifs at h with hu
      rw [hu] at hat
      exact unicodeEscape_ok hback hat h

/-- What is unescaped is the body of a string. -/
theorem unescape_body {open_ fuel i close : Nat} {scratch text : Bytes}
    (h : unescape inp open_ fuel i scratch = .ok (text, close)) :
    ∃ raw out, Body raw out ∧ text = scratch ++ out ∧ inp.drop i = raw ++ inp.drop close ∧
      close = i + raw.length ∧
      at? inp close = some 0x22 := by
  induction fuel generalizing i scratch with
  | zero => cases h
  | succ fuel ih =>
    rw [unescape] at h
    cases hat : at? inp i with
    | none =>
      rw [hat] at h
      cases h
    | some c =>
      rw [hat] at h
      dsimp only at h
      split_ifs at h with hquote hcontrol hback
      · cases h
        rw [hquote] at hat
        exact ⟨[], [], .nil, (List.append_nil _).symm, rfl, rfl, hat⟩
      · obtain ⟨raw, out, hbody, htext, hdrop, hclose, hend⟩ := ih h
        refine ⟨c :: raw, c :: out, .plain ?_ hbody, ?_, ?_, ?_, hend⟩
        · exact needsEscape_eq_false.2 ⟨by omega, hquote, hback⟩
        · rw [htext, List.append_assoc]
          rfl
        · rw [exists_drop hat, hdrop]
          rfl
        · rw [hclose, List.length_cons]
          omega
      · rw [not_not] at hback
        rw [hback] at hat
        cases hread : readEscape inp open_ i with
        | error e =>
          rw [hread] at h
          cases h
        | ok r =>
          obtain ⟨t, n⟩ := r
          rw [hread] at h
          obtain ⟨e, hdrop, hlength, happend⟩ := readEscape_ok hat hread
          obtain ⟨raw, out, hbody, htext, hdrop', hclose, hend⟩ := ih h
          refine ⟨e ++ raw, t ++ out, happend hbody, ?_, ?_, ?_, hend⟩
          · rw [htext, List.append_assoc]
          · rw [hdrop, hdrop', List.append_assoc]
          · rw [hclose, List.length_append, hlength, Nat.add_assoc]

/-- The reader passes a string of the grammar. -/
theorem passes_parseString
    {r : TextRef} (hquote : at? inp s.pos = some 0x22) (h : parseString o inp s = .ok r t) :
    ∃ k, Quoted o k r.text ∧ Passes inp s t k := by
  rw [parseString_eq (at?_lt hquote)] at h
  cases hrun : unescape inp s.pos (inp.length - s.pos) (s.pos + 1) [] with
  | error e =>
    rw [hrun] at h
    cases h
  | ok x =>
    obtain ⟨text, close⟩ := x
    obtain ⟨raw, out, hbody, rfl, hdrop, hclose, hend⟩ := unescape_body hrun
    have hraw : substr inp (s.pos + 1) (close - s.pos - 1) = raw := by
      rw [show close - s.pos - 1 = raw.length by omega]
      exact substr_of hdrop
    rw [hrun] at h
    dsimp only at h
    rw [closeString, hraw] at h
    split at h
    · cases h
    · rename_i hvalid
      cases h
      refine ⟨0x22 :: (raw ++ [0x22]), .mk hbody fun hutf => ?_, ?_, ?_, rfl⟩
      · rw [if_pos hutf] at hvalid
        exact validateUtf8_eq_none.1 hvalid
      · rw [exists_drop hquote, hdrop, exists_drop hend, List.cons_append, List.append_assoc]
        rfl
      · simp only [List.length_cons, List.length_append, List.length_nil]
        omega

/-- And every string of the grammar is passed. -/
theorem Quoted.parseString
    {k text rest : Bytes} (hk : Quoted o k text) (hdrop : inp.drop s.pos = k ++ rest) :
    ∃ r, Json.parseString o inp s = .ok r (s.advance k.length) ∧ r.text = text := by
  cases hk with
  | @mk raw _ h hutf =>
    rw [List.cons_append, List.append_assoc] at hdrop
    have hlength : (0x22 :: (raw ++ [0x22])).length = raw.length + 2 := by simp
    rw [hlength]
    exact ⟨_, parseString_spells h.spells hutf hdrop, rfl⟩

end VCodec.Json
