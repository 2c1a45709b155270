import VCodec.Core.Span
import VCodec.Json.Skip

/-!
# What the operations of the JSON reader pass over

An operation that decodes one value passes blanks and one value of the grammar. A cursor is
described by the text since the bracket that opened its container: any rest of the grammar completes
it to a value. This makes the reader an instance of `SpanLaws`, so construction passes one value,
whatever its type.
-/

namespace VCodec.Json

open Run (ite_eq_ok)

variable {o : Options} {cc : Charconv} {inp : Bytes} {s t u : State}

/-! ### Places and values -/

/-- The same place. -/
def Same (inp : Bytes) (s t : State) : Prop := Passes inp s t []

/-- The same place but for blanks. -/
def Place (inp : Bytes) (s t : State) : Prop := ∃ ws, Blank ws ∧ Passes inp s t ws

/-- One value stands between the two places. -/
def Spans (o : Options) (cc : Charconv) (inp : Bytes) (s t : State) : Prop :=
  ∃ ws v x, Blank ws ∧ Value o cc s.depth v x ∧ Uncut v (inp.drop t.pos) ∧ Passes inp s t (ws ++ v)

theorem Passes.same {bs : Bytes} (h : Passes inp s t bs) (h' : Same inp t u) :
    Passes inp s u bs := by
  simpa using h.trans h'

theorem Place.trans (h : Place inp s t) (h' : Place inp t u) : Place inp s u := by
  obtain ⟨ws, hws, h⟩ := h
  obtain ⟨ws', hws', h'⟩ := h'
  exact ⟨ws ++ ws', hws.append hws', h.trans h'⟩

theorem Place.spans (h : Place inp s t) (h' : Spans o cc inp t u) : Spans o cc inp s u := by
  obtain ⟨ws, hws, h⟩ := h
  obtain ⟨ws', v, x, hws', hv, hcut, h'⟩ := h'
  rw [h.depth] at hv
  refine ⟨ws ++ ws', v, x, hws.append hws', hv, hcut, ?_⟩
  rw [List.append_assoc]
  exact h.trans h'

theorem Spans.same (h : Spans o cc inp s t) (h' : Same inp t u) : Spans o cc inp s u := by
  obtain ⟨ws, v, x, hws, hv, hcut, h⟩ := h
  have hrest : inp.drop t.pos = inp.drop u.pos := h'.bytes
  rw [hrest] at hcut
  exact ⟨ws, v, x, hws, hv, hcut, h.same h'⟩

theorem place_skipped (inp : Bytes) (s : State) : Place inp s (s.skipped inp) :=
  passes_skipped inp s

/-- A value that is not a number. -/
theorem spans_of_passes {v : Bytes} {x : Tree} (hv : Value o cc s.depth v x)
    (hcut : Uncut v (inp.drop t.pos)) (h : Passes inp s t v) : Spans o cc inp s t :=
  ⟨[], v, x, blank_nil, hv, hcut, h⟩

theorem blanks_eq_ok {α : Type} {m : M α} {a : α} :
    (do skipWs inp; m : M α) s = .ok a t ↔ m (s.skipped inp) = .ok a t := by
  rw [Run.bind_of_ok (skipWs_run s)]

/-! ### Scalars and strings -/

theorem Word.spans {w : Bytes} {x : Tree} (h : Word w x) (hpass : Passes inp s t w) :
    Spans o cc inp s t := by
  refine spans_of_passes (.word h) ?_ hpass
  cases h with
  | null => exact uncut_of_head rfl (by decide)
  | true => exact uncut_of_head rfl (by decide)
  | false => exact uncut_of_head rfl (by decide)

theorem spans_parseString {r : TextRef} (hquote : at? inp s.pos = some 0x22)
    (h : parseString o inp s = .ok r t) :
    Spans o cc inp s t := by
  obtain ⟨k, hk, hpass⟩ := passes_parseString hquote h
  refine spans_of_passes (.text hk) ?_ hpass
  cases hk
  exact uncut_of_head rfl (by decide)

theorem mismatch_ok {expected : Bytes} {want : UInt8} {a : Unit}
    (h : mismatch inp expected want s = .ok a t) :
    at? inp s.pos = some want ∧ t = s := by
  unfold mismatch at h
  split_ifs at h with hat
  cases h
  exact ⟨hat, rfl⟩

theorem spans_expectNull {a : Unit} (h : expectNull inp s = .ok a t) : Spans o cc inp s t := by
  rw [expectNull, blanks_eq_ok] at h
  obtain ⟨_, s₁, hlook, hlit⟩ := Run.bind_eq_ok.1 h
  obtain ⟨-, rfl⟩ := mismatch_ok hlook
  exact (place_skipped inp s).spans (Word.null.spans (passes_literal hlit))

theorem spans_expectBoolean {x : Bool} (h : expectBoolean inp s = .ok x t) :
    Spans o cc inp s t := by
  rw [expectBoolean, blanks_eq_ok, Run.bind_of_ok (Run.get_apply _)] at h
  apply (place_skipped inp s).spans
  rcases ite_eq_ok.1 h with ⟨-, h⟩ | ⟨-, h⟩
  · obtain ⟨_, s₁, hlit, ⟨⟩⟩ := Run.bind_eq_ok.1 h
    exact Word.true.spans (passes_literal hlit)
  · rcases ite_eq_ok.1 h with ⟨-, h⟩ | ⟨-, h⟩
    · obtain ⟨_, s₁, hlit, ⟨⟩⟩ := Run.bind_eq_ok.1 h
      exact Word.false.spans (passes_literal hlit)
    · cases h

/-- A number that is scanned and then passed. -/
theorem number_ok_spans
    {expected : Bytes} {n : NumberScan} (h : number cc inp expected s = .ok n t) :
    t = s ∧ Spans o cc inp s (s.advance n.length) := by
  cases hat : at? inp s.pos with
  | none =>
    rw [number, hat] at h
    cases h
  | some c =>
    rw [number, hat] at h
    dsimp only at h
    split at h
    · cases h
    · split at h
      · cases h
      · rename_i hkind
        cases h
        obtain ⟨n, hrange, hends, hscan, hpass⟩ := passes_number hkind
        refine ⟨rfl, ?_⟩
        rw [hscan, Number.scan_length]
        exact spans_of_passes (.number n hrange) (fun n' heq => hends.congr heq) hpass

/-- An operation that returns only where it passes the number it has scanned. -/
theorem spans_number {α : Type} {expected : Bytes} {f : NumberScan → M α}
    (hf : ∀ n s a t, f n s = .ok a t → t = s.advance n.length) {a : α}
    (h : (do skipWs inp; let n ← number cc inp expected; f n : M α) s = .ok a t) :
    Spans o cc inp s t := by
  rw [blanks_eq_ok] at h
  obtain ⟨n, s₁, hnumber, h⟩ := Run.bind_eq_ok.1 h
  obtain ⟨rfl, hspan⟩ := number_ok_spans (o := o) hnumber
  rw [hf n _ a t h]
  exact (place_skipped inp s).spans hspan

theorem spans_expectPlainUint {n : Nat} (h : expectPlainUint cc inp s = .ok n t) :
    Spans o cc inp s t := by
  apply spans_number _ h
  intro n s a t h
  split_ifs at h
  · cases h
    rfl
  · cases h
  · cases h

theorem spans_expectPlainSint {i : Int} (h : expectPlainSint cc inp s = .ok i t) :
    Spans o cc inp s t := by
  apply spans_number _ h
  intro n s a t h
  split_ifs at h
  · cases h
    rfl
  · cases h
  · cases h
    rfl
  · cases h
  · cases h

theorem spans_expectReal {x : Double} (h : expectReal cc inp s = .ok x t) : Spans o cc inp s t := by
  apply spans_number _ h
  intro n s a t h
  cases h
  rfl

theorem quotedInteger_ok {α : Type} {accept : NumberScan → Option α} {a : α}
    (h : quotedInteger o cc inp accept s = .ok a t) :
    ∃ r, parseString o inp s = .ok r t := by
  rw [quotedInteger, Run.bind_of_ok (Run.get_apply s)] at h
  obtain ⟨r, s₁, hparse, h⟩ := Run.bind_eq_ok.1 h
  rcases ite_eq_ok.1 h with ⟨-, h⟩ | ⟨-, h⟩
  · cases h
  · cases haccept : accept (scanNumber cc r.text) with
    | none =>
      rw [haccept] at h
      cases h
    | some a =>
      rw [haccept] at h
      cases h
      exact ⟨r, hparse⟩

theorem spans_expectInteger
    {α : Type} {bare : M α} {accept : NumberScan → Option α} {f : FieldMeta} {a : α}
    (hbare : ∀ {s a t}, bare s = .ok a t → Spans o cc inp s t)
    (h : expectInteger o cc inp bare accept f s = .ok a t) :
    Spans o cc inp s t := by
  rw [expectInteger] at h
  rcases ite_eq_ok.1 h with ⟨-, h⟩ | ⟨-, h⟩
  · rw [blanks_eq_ok, Run.bind_of_ok (Run.get_apply _)] at h
    apply (place_skipped inp s).spans
    rcases ite_eq_ok.1 h with ⟨hquote, h⟩ | ⟨-, h⟩
    · obtain ⟨r, hparse⟩ := quotedInteger_ok h
      exact spans_parseString hquote hparse
    · exact hbare h
  · exact hbare h

theorem spans_expectText {r : TextRef} (h : expectText o inp s = .ok r t) : Spans o cc inp s t := by
  rw [expectText, blanks_eq_ok] at h
  obtain ⟨_, s₁, hlook, hparse⟩ := Run.bind_eq_ok.1 h
  obtain ⟨hquote, rfl⟩ := mismatch_ok hlook
  exact (place_skipped inp s).spans (spans_parseString hquote hparse)

theorem spans_expectBytes {f : FieldMeta} {x : BytesRef} (h : expectBytes o inp f s = .ok x t) :
    Spans o cc inp s t := by
  rw [expectBytes, decodeBytes, blanks_eq_ok, Run.bind_of_ok (Run.get_apply _)] at h
  obtain ⟨_, s₁, hlook, h⟩ := Run.bind_eq_ok.1 h
  obtain ⟨hquote, rfl⟩ := mismatch_ok hlook
  obtain ⟨r, s₂, hparse, hrest⟩ := Run.bind_eq_ok.1 h
  cases hdec : decodeEncoding (f.bytes.getD .base64) r.text with
  | none =>
    rw [hdec] at hrest
    cases hrest
  | some bytes =>
    rw [hdec] at hrest
    cases hrest
    exact (place_skipped inp s).spans (spans_parseString hquote hparse)

/-! ### Containers -/

def brackets (isObject : Bool) : Brackets := if isObject then objectBrackets else arrayBrackets

theorem close_brackets (b : Bool) : (brackets b).close = closeByte b := by
  cases b with
  | false => rfl
  | true => rfl

/-- From `s` on, blanks, the bracket and `xs` have been read. -/
structure Opened (o : Options) (inp : Bytes) (b : Bool) (s : State) (xs : Bytes) (t : State) :
    Prop where
  room : s.depth < o.maxDepth
  depth : t.depth = s.depth + 1
  passes : ∃ ws, Blank ws ∧ Passes inp s { t with depth := s.depth } (ws ++ openByte b :: xs)

/-- The cursor is behind the bracket, or behind a member. -/
def Inside (o : Options) (cc : Charconv) (inp : Bytes) (b : Bool) (s : State) (c : Cursor)
    (t : State) : Prop :=
  ∃ xs, Opened o inp b s xs t ∧ if c.first then xs = [] else
    ∀ y ms, Derives o cc (.rest b) (s.depth + 1) y ms →
      ∃ x, Value o cc s.depth (openByte b :: (xs ++ y)) x

/-- A member comes next. -/
def AtMember (o : Options) (cc : Charconv) (inp : Bytes) (b : Bool) (s : State) (c : Cursor)
    (t : State) : Prop :=
  c.first = false ∧ ∃ xs, Opened o inp b s xs t ∧
    ∀ y z m ms, Derives o cc (.member b) (s.depth + 1) y [m] →
      Derives o cc (.rest b) (s.depth + 1) z ms →
      ∃ x, Value o cc s.depth (openByte b :: (xs ++ (y ++ z))) x

/-- The value of an entry comes next. -/
def AtValue (o : Options) (cc : Charconv) (inp : Bytes) (s : State) (c : Cursor) (t : State) :
    Prop :=
  c.first = false ∧ ∃ xs, Opened o inp true s xs t ∧
    ∀ ws v z x ms, Blank ws → Value o cc (s.depth + 1) v x →
      Derives o cc (.rest true) (s.depth + 1) z ms →
      ∃ x', Value o cc s.depth (openByte true :: (xs ++ (ws ++ v ++ z))) x'

section

variable {b : Bool} {c c' : Cursor} {xs : Bytes}

theorem Opened.push {bs : Bytes} (h : Opened o inp b s xs t) (h' : Passes inp t u bs) :
    Opened o inp b s (xs ++ bs) u := by
  obtain ⟨ws, hws, hpass⟩ := h.passes
  refine ⟨h.room, h'.depth.trans h.depth, ws, hws, ?_⟩
  have hmoved : Passes inp { t with depth := s.depth } { u with depth := s.depth } bs :=
    ⟨h'.bytes, h'.pos, rfl⟩
  simpa using hpass.trans hmoved

/-- The container is complete. -/
theorem Opened.spans (h : Opened o inp b s xs t) (hv : ∃ x, Value o cc s.depth (openByte b :: xs) x)
    (hu : u = { t with depth := t.depth - 1 }) : Spans o cc inp s u := by
  obtain ⟨x, hx⟩ := hv
  obtain ⟨ws, hws, hpass⟩ := h.passes
  have hdepth : t.depth - 1 = s.depth := by rw [h.depth, Nat.add_sub_cancel]
  rw [hdepth] at hu
  rw [hu]
  exact ⟨ws, _, x, hws, hx, uncut_open, hpass⟩

theorem expectContainer_ok
    {expected : Bytes} (h : expectContainer o inp expected (openByte b) s = .ok c t) :
    Inside o cc inp b s c t := by
  rw [expectContainer, blanks_eq_ok] at h
  obtain ⟨_, s₁, hlook, h⟩ := Run.bind_eq_ok.1 h
  obtain ⟨hat, rfl⟩ := mismatch_ok hlook
  obtain ⟨_, s₂, henter, hret⟩ := Run.bind_eq_ok.1 h
  unfold enter at henter
  split_ifs at henter with hroom
  cases henter
  cases hret
  obtain ⟨ws, hws, hskip⟩ := passes_skipped inp s
  have hbyte := passes_byte hat
  exact ⟨[], ⟨Nat.lt_of_not_le hroom, rfl, ws, hws, hskip.trans ⟨hbyte.bytes, hbyte.pos, rfl⟩⟩, rfl⟩

/-- What the cursor says, and where it then stands. -/
theorem next_ok {more : Bool} (hin : Inside o cc inp b s c t)
    (h : Cursor.next inp (brackets b) c t = .ok (more, c') u) :
    if more then AtMember o cc inp b s c' u else Spans o cc inp s u := by
  obtain ⟨ws, hws, hskip⟩ := passes_skipped inp t
  rw [Cursor.next, blanks_eq_ok, Run.bind_of_ok (Run.get_apply _)] at h
  obtain ⟨xs, hopen, hrest⟩ := hin
  cases hat : at? inp (t.skipped inp).pos with
  | none =>
    rw [hat] at h
    cases h
  | some x =>
    rw [hat] at h
    dsimp only at h
    rcases ite_eq_ok.1 h with ⟨hclose, h⟩ | ⟨-, h⟩
    · rw [Run.bind_of_ok (Run.modify_apply _ _)] at h
      cases h
      rw [if_neg Bool.false_ne_true]
      rw [hclose, close_brackets] at hat
      have hend := (hopen.push hskip).push (passes_byte hat)
      refine hend.spans ?_ rfl
      rw [List.append_assoc]
      split at hrest
      · rw [hrest]
        exact ⟨_, .empty hws hopen.room⟩
      · exact hrest _ _ (.close hws)
    · rcases ite_eq_ok.1 h with ⟨hfirst, h⟩ | ⟨hfirst, h⟩
      · cases h
        rw [if_pos hfirst] at hrest
        refine ⟨rfl, xs ++ ws, hopen.push hskip, fun y z m ms hy hz => ⟨.container b (m :: ms), ?_⟩⟩
        rw [hrest, List.nil_append, ← List.append_assoc]
        exact .full hopen.room (hy.blank hws) hz
      · rw [if_neg hfirst] at hrest
        rcases ite_eq_ok.1 h with ⟨-, h⟩ | ⟨hcomma, h⟩
        · cases h
        · rw [not_not] at hcomma
          rw [hcomma] at hat
          obtain ⟨ws', hws', hskip'⟩ := passes_skipped inp ((t.skipped inp).advance 1)
          rw [Run.bind_of_ok (Run.modify_apply _ _), Run.bind_of_ok (skipWs_run _),
            Run.bind_of_ok (Run.get_apply _)] at h
          rcases ite_eq_ok.1 h with ⟨-, h⟩ | ⟨-, h⟩
          · cases h
          · cases h
            have hmoved := ((hopen.push hskip).push (passes_byte hat)).push hskip'
            refine ⟨Bool.eq_false_of_not_eq_true hfirst, _, hmoved, fun y z m ms hy hz => ?_⟩
            obtain ⟨x, hx⟩ := hrest _ _ (.comma hws (hy.blank hws') hz)
            refine ⟨x, ?_⟩
            simpa using hx

theorem AtMember.push {y : Bytes} {m : Option Bytes × Tree} (hat : AtMember o cc inp b s c t)
    (hpass : Passes inp t u y) (hy : Derives o cc (.member b) (s.depth + 1) y [m]) :
    Inside o cc inp b s c u := by
  obtain ⟨hfirst, xs, hopen, hvalue⟩ := hat
  refine ⟨xs ++ y, hopen.push hpass, ?_⟩
  rw [hfirst, if_neg Bool.false_ne_true]
  intro z ms hz
  rw [List.append_assoc]
  exact hvalue y z m ms hy hz

theorem AtMember.depth (hat : AtMember o cc inp b s c t) : t.depth = s.depth + 1 := by
  obtain ⟨-, xs, hopen, -⟩ := hat
  exact hopen.depth

theorem AtMember.element (hat : AtMember o cc inp false s c t) (h : Spans o cc inp t u) :
    Inside o cc inp false s c u := by
  obtain ⟨ws, v, x, hws, hv, -, hpass⟩ := h
  rw [hat.depth] at hv
  exact hat.push hpass (.element hws hv)

theorem AtMember.place (hat : AtMember o cc inp b s c t) (h : Place inp t u) :
    AtMember o cc inp b s c u := by
  obtain ⟨hfirst, xs, hopen, hvalue⟩ := hat
  obtain ⟨ws, hws, hpass⟩ := h
  refine ⟨hfirst, xs ++ ws, hopen.push hpass, fun y z m ms hy hz => ?_⟩
  obtain ⟨x, hx⟩ := hvalue _ z m ms (hy.blank hws) hz
  exact ⟨x, by simpa using hx⟩

theorem AtMember.key {k : TextRef} (hat : AtMember o cc inp true s c t)
    (h : keyText o inp t = .ok k u) :
    AtValue o cc inp s c u := by
  obtain ⟨hfirst, xs, hopen, hvalue⟩ := hat
  obtain ⟨ws, hws, hskip⟩ := passes_skipped inp t
  rw [keyText, blanks_eq_ok, Run.bind_of_ok (Run.get_apply _)] at h
  cases hbyte : at? inp (t.skipped inp).pos with
  | none =>
    rw [hbyte] at h
    cases h
  | some x =>
    rw [hbyte] at h
    dsimp only at h
    rcases ite_eq_ok.1 h with ⟨-, h⟩ | ⟨hquote, h⟩
    · cases h
    · rw [not_not] at hquote
      rw [hquote] at hbyte
      obtain ⟨r, s₁, hparse, h⟩ := Run.bind_eq_ok.1 h
      obtain ⟨_, s₂, hcolon, hret⟩ := Run.bind_eq_ok.1 h
      cases hret
      obtain ⟨q, hq, hpass⟩ := passes_parseString hbyte hparse
      obtain ⟨ws', hws', hpass'⟩ := passColon_ok hcolon
      refine ⟨hfirst, _, ((hopen.push hskip).push hpass).push hpass',
        fun ws'' v z x ms hws'' hv hz => ?_⟩
      obtain ⟨x', hx'⟩ := hvalue _ z _ ms (.entry hws hq hws' hws'' hv) hz
      exact ⟨x', by simpa using hx'⟩

theorem AtValue.entry (hat : AtValue o cc inp s c t) (h : Spans o cc inp t u) :
    Inside o cc inp true s c u := by
  obtain ⟨hfirst, xs, hopen, hvalue⟩ := hat
  obtain ⟨ws, v, x, hws, hv, -, hpass⟩ := h
  rw [hopen.depth] at hv
  refine ⟨_, hopen.push hpass, ?_⟩
  rw [hfirst, if_neg Bool.false_ne_true]
  intro z ms hz
  obtain ⟨x', hx'⟩ := hvalue ws v z x ms hws hv hz
  exact ⟨x', by simpa using hx'⟩

end

/-! ### Saved places -/

/-- The input fits the position, and the nesting the depth, of a saved place. -/
structure Addressable (o : Options) (inp : Bytes) : Prop where
  length : inp.length < 2 ^ 48
  depth : o.maxDepth < 2 ^ 16

theorem restore_save (hpos : s.pos < 2 ^ 48) (hdepth : s.depth < 2 ^ 16) (t : State) :
    Same inp s (t.restore s.save) := by
  have hback : t.restore s.save = { t with pos := s.pos, depth := s.depth } := by
    rw [State.restore, State.save, saved_pos s.depth hpos, saved_depth hpos hdepth]
  rw [hback]
  exact ⟨rfl, rfl, rfl⟩

theorem Opened.pos_le {b : Bool} {xs : Bytes} (h : Opened o inp b s xs t) :
    s.pos ≤ t.pos ∧ t.pos ≤ inp.length := by
  obtain ⟨ws, hws, hpass⟩ := h.passes
  have hpos : t.pos = s.pos + (ws ++ openByte b :: xs).length := hpass.pos
  exact ⟨by omega, hpass.length_le (by simp)⟩

theorem Spans.pos_le (h : Spans o cc inp s t) :
    s.pos ≤ t.pos ∧ t.pos ≤ inp.length ∧ t.depth = s.depth := by
  obtain ⟨ws, v, x, hws, hv, hcut, hpass⟩ := h
  obtain ⟨c, cs, rfl, -⟩ := hv.begins
  have hpos := hpass.pos
  exact ⟨by omega, hpass.length_le (by simp), hpass.depth⟩

/-! ### The reader as a format -/

/-- In the JSON reader a value is one of the grammar, and nothing but blanks is skipped before
one. -/
def spanLaws (ha : Addressable o inp) : SpanLaws (reader o cc inp) where
  Same := Same inp
  Place := Place inp
  Value := Spans o cc inp
  InSeq := Inside o cc inp false
  InMap := Inside o cc inp true
  AtKey := AtMember o cc inp true
  AtValue := AtValue o cc inp
  same_refl := Passes.refl inp
  same_trans h h' := h.same h'
  same_place h := ⟨[], blank_nil, h⟩
  place_trans := Place.trans
  place_value := Place.spans
  value_same := Spans.same
  setCollected _ _ := ⟨rfl, rfl, rfl⟩
  offset {s _ _} h := by
    cases h
    exact place_skipped inp s
  peek {s _ _} h := by
    rw [show (reader o cc inp).peek = peek cc inp from rfl, peek, blanks_eq_ok] at h
    cases h
    exact place_skipped inp s
  keyKind h := by
    cases h
    exact ⟨[], blank_nil, .refl inp _⟩
  expectNull := spans_expectNull
  expectBoolean := spans_expectBoolean
  expectUint := spans_expectInteger spans_expectPlainUint
  expectSint := spans_expectInteger spans_expectPlainSint
  expectReal := spans_expectReal
  expectText := spans_expectText
  expectBytes := spans_expectBytes
  expectTags h hv := by
    cases h
    exact hv
  readRange h := by
    cases h
    exact .refl inp _
  skipValue h := skipValue_passes h
  expectArray h := expectContainer_ok (b := false) h
  next_more hin h hv := by
    have hat := next_ok hin h
    exact hat.element hv
  next_done hin h := next_ok hin h
  expectMap h := expectContainer_ok (b := true) h
  nextKey_more hin h := next_ok hin h
  nextKey_done hin h := next_ok hin h
  key_place := AtMember.place
  keyText hat h := hat.key h
  keyUint _ h := by cases h
  keySint _ h := by cases h
  value_entry := AtValue.entry
  restore_map {s t c u} hplace h v := by
    have hin : Inside o cc inp true _ _ _ := expectContainer_ok h
    obtain ⟨xs, hopen, -⟩ := hin
    obtain ⟨ws, -, hpass⟩ := hplace
    have hpos := hpass.pos
    have hdepth := hpass.depth
    have hbound := hopen.pos_le
    have hroom := hopen.room
    exact restore_save (by have := ha.length; omega) (by have := ha.depth; omega) v
  restore_value hat v := by
    obtain ⟨-, xs, hopen, -⟩ := hat
    have hbound := hopen.pos_le
    have hdepth := hopen.depth
    have hroom := hopen.room
    exact restore_save (by have := ha.length; omega) (by have := ha.depth; omega) v
  restore_end h hspan v := by
    have hin : Inside o cc inp true _ _ _ := expectContainer_ok h
    obtain ⟨xs, hopen, -⟩ := hin
    have hbound := hspan.pos_le
    have hroom := hopen.room
    exact restore_save (by have := ha.length; omega) (by have := ha.depth; omega) v

end VCodec.Json
