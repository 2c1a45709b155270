import VCodec.Cbor.Reports
import VCodec.Json.Excerpt
import VCodec.Render

/-!
# Hex windows

`render_hex` puts the headline and the path of an error above a window of sixteen bytes, with the
head at the offset spelled out. An error that a CBOR entry point hands out can be rendered over the
input that it came from. The window holds the offset, each of its bytes stands in a column of its
own, and the carets are under the digits of the bytes of the item and under nothing else.
-/

namespace VCodec.Cbor

open Render (Scan addSize subSize byteAt bind_ok addSize_eq subSize_eq byteAt_eq ellipsis margin displayColumns displayColumns_append
  IsCont heading noteUnknown noteCandidates noteSuggestion)

/-! ### The window -/

def hex2 (v : Nat) : Bytes := [hexDigit (v / 16 % 16), hexDigit (v % 16)]

def describeHead (h : ParsedHead) : Bytes :=
  let d := str "major type " ++ decimal h.mt.toNat ++ str " (" ++ majorName h.mt ++ str ")"
  if h.isBreak then str "break"
  else if h.reserved then d ++ str ", reserved additional information " ++ decimal h.ai
  else if h.indefinite then d ++ str ", indefinite length"
  else
    match h.mt with
    | .uint => d ++ str ", value " ++ decimal h.value
    | .nint => d ++ str ", value " ++ negativeText h.value
    | .bytes | .text => d ++ str ", length " ++ decimal h.value
    | .array => d ++ str ", " ++ decimal h.value ++ str " elements"
    | .map => d ++ str ", " ++ decimal h.value ++ str " entries"
    | .tag => d ++ str ", " ++ tagText h.value
    | .simple =>
      if h.ai = 20 then d ++ str ", false"
      else if h.ai = 21 then d ++ str ", true"
      else if h.ai = 22 then d ++ str ", null"
      else if h.ai = 23 then d ++ str ", undefined"
      else if h.ai = 25 then d ++ str ", half-precision float"
      else if h.ai = 26 then d ++ str ", single-precision float"
      else if h.ai = 27 then d ++ str ", double-precision float"
      else d ++ str ", simple value " ++ decimal h.value

/-- The variables of `render_hex_window`. -/
structure Window where
  offset : Nat
  start : Nat
  stop : Nat
  head : ParsedHead
  itemLen : Nat

def window (e : Error) (inp : Bytes) : Scan Window := do
  let offset := if inp.length < e.offset then inp.length else e.offset
  let start ← subSize offset (offset % 16)
  let limit ← addSize start 16
  let head := parseHead inp offset
  return {
    offset, start, head
    stop := min inp.length limit
    itemLen := if e.length ≠ 0 then e.length else if head.length ≠ 0 then head.length else 1 }

/-- The address of the window: eight digits, in two groups. -/
def address (start : Nat) : Bytes :=
  [28, 24, 20, 16, 12, 8, 4, 0].flatMap fun s => hexDigit (start / 2 ^ s % 16) :: if s =
    16 then [0x5F] else []

/-- `n` bytes from `i` on, each with a blank behind it. -/
def dumpBytes (inp : Bytes) : Nat → Nat → Scan Bytes
  | 0, _ => return []
  | n + 1, i => do
    let b ← byteAt inp i
    let rest ← dumpBytes inp n (i + 1)
    return hex2 b.toNat ++ 0x20 :: rest

namespace Window

variable (w : Window)

/-- Byte `i` is in the window and in the item. -/
def covers (i : Nat) : Scan Bool :=
  if i < w.stop then do
    let last ← addSize w.offset w.itemLen
    return decide (i < last)
  else return false

/-- The carets from byte `i` on. -/
def carets : Nat → Nat → Scan Bytes
  | 0, _ => .error .endless
  | n + 1, i => do
    let here ← w.covers i
    if here then do
      let next ← w.covers (i + 1)
      let rest ← carets n (i + 1)
      return str "^^" ++ (if next then [0x20] else []) ++ rest
    else return []

end Window

def renderHexWindow (out : Bytes) (e : Error) (inp : Bytes) : Scan Bytes := do
  let w ← window e inp
  let dump ← dumpBytes inp (w.stop - w.start) w.start
  let shift ← subSize w.offset w.start
  let carets ← w.carets (w.stop - w.offset + 1) w.offset
  let indent := List.replicate (13 + 3 * shift) 0x20
  return out ++ str "   |\n   |  " ++ address w.start ++ str ":  " ++
    (if 0 < w.start then ellipsis else [0x20]) ++ dump ++
    (if w.stop < inp.length then ellipsis else []) ++ str "\n   |  " ++ indent ++
      carets ++ [0x0A] ++ str "   |  " ++ indent ++
    describeHead w.head ++ [0x0A]

/-- The codes whose report shows the input. -/
def windowed : Errc → Bool
  | .missingField | .missingTag | .unknownField | .tagMismatch | .nonDeterministic | .unknownEnumerator | .noVariantAlternative
  | .outOfRange => false
  | _ => true

/-- What is known of the map that lacks a key. -/
def noteMap (e : Error) : Bytes :=
  str "   |  map has " ++ (if e.found = [] then str "?" else e.found) ++ str " entries" ++
    (if e.candidates = [] then [] else str ", keys present: " ++
      (str ", ").intercalate e.candidates) ++ [0x0A]

def renderHex (e : Error) (inp : Bytes) : Scan Bytes :=
  let out := heading e
  match e.code with
  | .missingField | .missingTag => return out ++ noteMap e
  | .unknownField => return out ++ noteUnknown e
  | .tagMismatch =>
    return out ++ (str "   |  expected " ++ e.expected ++ str ", found " ++ e.found ++ [0x0A])
  | .nonDeterministic => return out ++ noteSuggestion e
  | .unknownEnumerator | .noVariantAlternative => return out ++ noteCandidates e
  | .outOfRange => return out
  | _ => do
    let out ← (if inp = [] then pure out else renderHexWindow out e inp : Scan Bytes)
    return out ++ noteSuggestion e

/-! ### The lines -/

namespace Window

variable (w : Window) (inp : Bytes)

/-- The column of the digits of byte `i`. -/
def column (i : Nat) : Nat := margin.length + 13 + 3 * (i - w.start)

/-- The line of the digits as far as byte `i`. -/
def front (i : Nat) : Bytes :=
  margin ++ address w.start ++ str ":  " ++ (if 0 < w.start then ellipsis else [0x20]) ++
    ((inp.drop w.start).take (i - w.start)).flatMap fun b => hex2 b.toNat ++ [0x20]

def dumpLine : Bytes := w.front inp w.stop ++ if w.stop < inp.length then ellipsis else []

/-- `n` pairs of carets. -/
def marks : Nat → Bytes
  | 0 => []
  | 1 => str "^^"
  | n + 2 => str "^^ " ++ marks (n + 1)

/-- How many bytes of the item the window shows. -/
def shown : Nat := min w.stop (w.offset + w.itemLen) - w.offset

def indent : Bytes := margin ++ List.replicate (13 + 3 * (w.offset - w.start)) 0x20

def caretLine : Bytes := w.indent ++ marks w.shown

def headLine : Bytes := w.indent ++ describeHead w.head

/-- The lines of a window. -/
def lines : Bytes := str "   |\n" ++ w.dumpLine inp ++ [0x0A] ++ w.caretLine ++ [0x0A] ++
    w.headLine ++ [0x0A]

end Window

/-! ### Rendering a window -/

section

variable {w : Window} {inp : Bytes} {e : Error}

/-- The window of an offset. -/
structure Window.Around (w : Window) (inp : Bytes) (e : Error) : Prop where
  offset : w.offset = e.offset
  start : w.start = e.offset - e.offset % 16
  stop : w.stop = min inp.length (w.start + 16)
  head : w.head = parseHead inp e.offset
  size : e.length ≠ 0 → w.itemLen = e.length
  item_pos : 0 < w.itemLen
  le_stop : e.offset ≤ w.stop
  bounded : e.offset + w.itemLen < 2 ^ 64

theorem parseHead_length (inp : Bytes) (p : Nat) : (parseHead inp p).length ≤ 9 := by
  unfold parseHead
  split
  · exact Nat.zero_le _
  · simp only
    split_ifs <;> simp only [argSize] <;> first | omega | (split_ifs <;> omega)

theorem window_ok (hsize : inp.length < 2 ^ 63) (hoffset : e.offset ≤ inp.length)
    (hlength : e.offset + e.length < 2 ^ 64) :
    ∃ w, window e inp = .ok w ∧ w.Around inp e := by
  have hmod : e.offset % 16 ≤ e.offset := Nat.mod_le _ _
  have hlt : e.offset % 16 < 16 := Nat.mod_lt _ (by decide)
  have hhead := parseHead_length inp e.offset
  have hrun : window e inp = .ok {
      offset := e.offset, start := e.offset - e.offset % 16, head := parseHead inp e.offset
      stop := min inp.length (e.offset - e.offset % 16 + 16)
      itemLen := if e.length ≠ 0 then e.length else if (parseHead inp e.offset).length ≠
        0 then (parseHead inp e.offset).length else 1 } := by
    unfold window
    simp only [if_neg (Nat.not_lt.2 hoffset)]
    rw [bind_ok (subSize_eq hmod), bind_ok (addSize_eq (by omega))]
    rfl
  refine ⟨_, hrun, rfl, rfl, rfl, rfl, fun h => if_pos h, ?_, ?_, ?_⟩
  · show 0 < ite _ _ _
    split_ifs <;> omega
  · show e.offset ≤ min _ _
    omega
  · show e.offset + ite _ _ _ < _
    split_ifs <;> omega

theorem dumpBytes_ok {n i : Nat} (h : i + n ≤ inp.length) :
    dumpBytes inp n i = .ok (((inp.drop i).take n).flatMap fun b => hex2 b.toNat ++ [0x20]) := by
  induction n generalizing i with
  | zero => rfl
  | succ n ih =>
    have hi : i < inp.length := by omega
    rw [dumpBytes, bind_ok (byteAt_eq hi), bind_ok (ih (i := i + 1) (by omega)),
      List.drop_eq_getElem_cons hi, List.take_succ_cons,
      List.flatMap_cons, List.append_assoc]
    rfl

theorem covers_ok (hw : w.Around inp e) (i : Nat) :
    w.covers i = .ok (decide (i < min w.stop (w.offset + w.itemLen))) := by
  have hsum : w.offset + w.itemLen < 2 ^ 64 := hw.offset ▸ hw.bounded
  unfold Window.covers
  split
  · rename_i hi
    rw [bind_ok (addSize_eq hsum)]
    exact congrArg Except.ok (decide_eq_decide.2 (by omega))
  · rename_i hi
    exact congrArg Except.ok (decide_eq_false (by omega)).symm

/-- As many pairs of carets as bytes of the item are left in the window. -/
theorem carets_ok (hw : w.Around inp e) {n i : Nat} (hn : w.stop - i < n) :
    w.carets n i = .ok (Window.marks (min w.stop (w.offset + w.itemLen) - i)) := by
  induction n generalizing i with
  | zero => omega
  | succ n ih =>
    rw [Window.carets, bind_ok (covers_ok hw i)]
    by_cases hi : i < min w.stop (w.offset + w.itemLen)
    · rw [decide_eq_true hi, if_pos rfl, bind_ok (covers_ok hw (i + 1)),
        bind_ok (ih (i := i + 1) (by omega))]
      obtain ⟨k, hk⟩ : ∃ k, min w.stop (w.offset + w.itemLen) - i = k + 1 :=
        ⟨_, (Nat.succ_pred (by omega)).symm⟩
      rw [show min w.stop (w.offset + w.itemLen) - (i + 1) = k by omega, hk]
      cases k with
      | zero =>
        rw [decide_eq_false (by omega)]
        rfl
      | succ k =>
        rw [decide_eq_true (by omega)]
        rfl
    · rw [decide_eq_false hi, show min w.stop (w.offset + w.itemLen) - i = 0 by omega]
      rfl

theorem renderHexWindow_eq (out : Bytes) (hrun : window e inp = .ok w) (hw : w.Around inp e) :
    renderHexWindow out e inp = .ok (out ++ w.lines inp) := by
  have hstop := hw.stop
  have hle := hw.le_stop
  have hstart := hw.start
  have hmargin : str "   |\n   |  " = str "   |\n" ++ margin := by decide
  have hnext : str "\n   |  " = [0x0A] ++ margin := by decide
  have hlast : str "   |  " = margin := rfl
  rw [renderHexWindow, bind_ok hrun, bind_ok (dumpBytes_ok (by omega)),
    bind_ok (subSize_eq (by rw [hw.offset]; omega)),
    bind_ok (carets_ok hw (by omega)), Window.lines, Window.dumpLine, Window.front,
      Window.caretLine, Window.headLine, Window.indent,
    Window.shown, hmargin, hnext, hlast]
  simp only [List.append_assoc]
  rfl

end

/-! ### What stands in the columns -/

theorem not_isCont_hexDigit {n : Nat} (h : n < 16) : ¬ IsCont (hexDigit n) := by
  interval_cases n <;> decide

theorem displayColumns_plain {bs : Bytes} (h : ∀ b ∈ bs, ¬ IsCont b) :
    displayColumns bs = bs.length := by
  rw [displayColumns, List.countP_eq_length]
  exact fun b hb => decide_eq_true (h b hb)

theorem displayColumns_hex2 (v : Nat) : displayColumns (hex2 v) = 2 := by
  refine displayColumns_plain fun b hb => ?_
  rcases List.mem_cons.1 hb with rfl | hb
  · exact not_isCont_hexDigit (Nat.mod_lt _ (by decide))
  · obtain rfl := List.mem_singleton.1 hb
    exact not_isCont_hexDigit (Nat.mod_lt _ (by decide))

theorem displayColumns_address (start : Nat) : displayColumns (address start) = 9 := by
  refine (displayColumns_plain fun b hb => ?_).trans rfl
  obtain ⟨s, -, hb⟩ := List.mem_flatMap.1 hb
  rcases List.mem_cons.1 hb with rfl | hb
  · exact not_isCont_hexDigit (Nat.mod_lt _ (by decide))
  · split at hb
    · obtain rfl := List.mem_singleton.1 hb
      decide
    · cases hb

theorem displayColumns_dump (bs : Bytes) :
    displayColumns (bs.flatMap fun b => hex2 b.toNat ++ [0x20]) = 3 * bs.length := by
  induction bs with
  | nil => rfl
  | cons b bs ih =>
    rw [List.flatMap_cons, displayColumns_append, displayColumns_append, displayColumns_hex2, ih,
      List.length_cons]
    show 2 + 1 + _ = _
    omega

section

variable {w : Window} {inp : Bytes} {e : Error}

/-- The digits of a byte begin in its column. -/
theorem displayColumns_front {i : Nat} (hi : i ≤ inp.length) :
    displayColumns (w.front inp i) = w.column i := by
  have hlead : displayColumns (if 0 < w.start then ellipsis else [0x20]) = 1 := by split <;> decide
  have hlength : ((inp.drop w.start).take (i - w.start)).length = i - w.start := by
    rw [List.length_take, List.length_drop]
    omega
  rw [Window.front, displayColumns_append, displayColumns_append, displayColumns_append,
    displayColumns_append, displayColumns_address,
    displayColumns_dump, hlead, hlength, Window.column,
      show displayColumns margin = margin.length by decide,
    show displayColumns (str ":  ") = 3 by decide]

theorem dumpLine_split {i : Nat} (hstop : w.stop ≤ inp.length) (hlo : w.start ≤ i)
    (hhi : i < w.stop) :
    ∃ b rest, inp[i]? = some b ∧ w.dumpLine inp = w.front inp i ++ hex2 b.toNat ++ rest := by
  have hin : i < inp.length := hhi.trans_le hstop
  have hsplit : (inp.drop w.start).take (w.stop - w.start) =
      (inp.drop w.start).take (i - w.start) ++
        inp[i] :: ((inp.drop (i + 1)).take (w.stop - (i + 1))) := by
    have hcount : w.stop - w.start = (i - w.start) + ((w.stop - (i + 1)) + 1) := by omega
    rw [hcount, List.take_add, List.drop_drop, Nat.add_sub_cancel' hlo,
      List.drop_eq_getElem_cons hin, List.take_succ_cons]
  refine ⟨inp[i], 0x20 :: ((inp.drop (i + 1)).take (w.stop - (i + 1))).flatMap
    (fun b => hex2 b.toNat ++ [0x20]) ++
    (if w.stop < inp.length then ellipsis else []), List.getElem?_eq_getElem hin, ?_⟩
  rw [Window.dumpLine, Window.front, Window.front, hsplit, List.flatMap_append, List.flatMap_cons]
  simp only [List.append_assoc]
  rfl

theorem marks_at (n c : Nat) : (Window.marks n)[c]? = some 0x5E ↔
    ∃ j < n, c = 3 * j ∨ c = 3 * j + 1 := by
  have hpair : ∀ c : Nat, (str "^^")[c]? = some 0x5E ↔ c = 0 ∨ c = 1 := by
    intro c
    rcases c with _ | _ | c
    · exact iff_of_true rfl (.inl rfl)
    · exact iff_of_true rfl (.inr rfl)
    · exact iff_of_false (fun h => by cases h) (by omega)
  fun_induction Window.marks n generalizing c with
  | case1 =>
    exact iff_of_false (fun h => by cases h) fun ⟨j, hj, _⟩ => absurd hj (Nat.not_lt_zero j)
  | case2 =>
    rw [hpair]
    constructor
    · exact fun h => ⟨0, Nat.one_pos, by omega⟩
    · rintro ⟨j, hj, h⟩
      omega
  | case3 n ih =>
    have hlen : (str "^^ ").length = 3 := by decide
    by_cases hc : c < 3
    · rw [List.getElem?_append_left (by omega)]
      have hfirst : (str "^^ ")[c]? = some 0x5E ↔ c = 0 ∨ c = 1 := by
        interval_cases c <;> decide
      rw [hfirst]
      constructor
      · exact fun h => ⟨0, Nat.succ_pos _, by omega⟩
      · rintro ⟨j, hj, h⟩
        omega
    · rw [List.getElem?_append_right (by omega), hlen]
      refine (ih (c - 3)).trans ?_
      constructor
      · rintro ⟨j, hj, h⟩
        exact ⟨j + 1, by omega, by omega⟩
      · rintro ⟨j, hj, h⟩
        exact ⟨j - 1, by omega, by omega⟩

/-- The carets stand under the digits of the bytes of the item. -/
theorem caretLine_at (hw : w.Around inp e) (c : Nat) :
    w.caretLine[c]? = some 0x5E ↔
      ∃ i, e.offset ≤ i ∧ i < w.stop ∧ i < e.offset + w.itemLen ∧
        (c = w.column i ∨ c = w.column i + 1) := by
  have hoffset := hw.offset
  have hstart : w.start ≤ e.offset := hw.start ▸ Nat.sub_le _ _
  have hindent : w.indent.length = w.column e.offset := by
    rw [Window.indent, Window.column, List.length_append, List.length_replicate, hoffset,
      Nat.add_assoc]
  have hblank : (0x5E : UInt8) ∉ w.indent := by
    rw [Window.indent, List.mem_append, not_or]
    exact ⟨by decide, fun h => by cases (List.eq_of_mem_replicate h)⟩
  rw [Window.caretLine]
  by_cases hc : c < w.indent.length
  · rw [List.getElem?_append_left hc]
    refine iff_of_false (fun h => hblank (List.mem_of_getElem? h)) ?_
    rw [hindent, Window.column] at hc
    rintro ⟨i, hi, -, -, h⟩
    rw [Window.column] at h
    omega
  · rw [List.getElem?_append_right (by omega), marks_at, hindent, Window.shown, hoffset]
    rw [hindent] at hc
    simp only [Window.column] at hc ⊢
    constructor
    · rintro ⟨j, hj, h⟩
      exact ⟨e.offset + j, by omega, by omega, by omega, by omega⟩
    · rintro ⟨i, hi, hstop, hitem, h⟩
      exact ⟨i - e.offset, by omega, by omega⟩

end

/-! ### Reports about an input -/

section

variable {e : Error} {inp : Bytes}

theorem renderHex_windowed (he : windowed e.code = true) :
    renderHex e inp = do
      let out ← (if inp = [] then pure (heading e) else renderHexWindow (heading e) e inp : Scan
        Bytes)
      return out ++ noteSuggestion e := by
  unfold renderHex
  cases hcode : e.code <;> rw [hcode] at he <;> first | rfl | cases he

theorem renderHex_plain (he : windowed e.code = false) :
    ∃ notes, renderHex e inp = .ok (heading e ++ notes) := by
  unfold renderHex
  cases hcode : e.code <;> rw [hcode] at he <;> cases he
  case outOfRange => exact ⟨[], congrArg Except.ok (List.append_nil _).symm⟩
  all_goals exact ⟨_, rfl⟩

/-- The text is the report of the error; its window holds the offset and shows the bytes of the
item, each in the column of its carets. -/
structure Dumped (inp : Bytes) (e : Error) (text : Bytes) : Prop where
  rendered : renderHex e inp = .ok text
  headed : (heading e).IsPrefix text
  window : windowed e.code = true → inp ≠ [] → ∃ w, Cbor.window e inp = .ok w ∧ w.Around inp e ∧
    text = heading e ++ w.lines inp ++ noteSuggestion e ∧
    (∀ i, w.start ≤ i → i < w.stop → ∃ b rest, inp[i]? = some b ∧
      w.dumpLine inp = w.front inp i ++ hex2 b.toNat ++ rest ∧
      displayColumns (w.front inp i) = w.column i) ∧
    ∀ c, w.caretLine[c]? = some 0x5E ↔
      ∃ i, e.offset ≤ i ∧ i < w.stop ∧ i < e.offset + w.itemLen ∧
        (c = w.column i ∨ c = w.column i + 1)

theorem exists_dumped (hsize : inp.length < 2 ^ 63) (he : e.Reported (ground inp)) :
    ∃ text, Dumped inp e text := by
  cases hcode : windowed e.code with
  | false =>
    obtain ⟨notes, hrun⟩ := renderHex_plain hcode
    exact ⟨_, hrun, ⟨notes, rfl⟩, fun h => Bool.noConfusion (hcode.symm.trans h)⟩
  | true =>
    have hrun : renderHex e inp = _ := renderHex_windowed hcode
    by_cases hinp : inp = []
    · rw [if_pos hinp] at hrun
      exact ⟨_, hrun, ⟨_, rfl⟩, fun _ hne => absurd hinp hne⟩
    · have hspan : e.offset + e.length ≤ inp.length + 1 := he.1.extent
      obtain ⟨w, hw, haround⟩ := window_ok hsize he.1.inside (by omega)
      have hstop : w.stop ≤ inp.length := haround.stop ▸ min_le_left _ _
      rw [if_neg hinp, bind_ok (renderHexWindow_eq (heading e) hw haround)] at hrun
      refine ⟨_, hrun, ⟨w.lines inp ++ noteSuggestion e, (List.append_assoc _ _ _).symm⟩,
        fun _ _ => ⟨w, hw, haround, rfl, fun i hlo hhi => ?_, caretLine_at haround⟩⟩
      obtain ⟨b, rest, hb, hline⟩ := dumpLine_split hstop hlo hhi
      exact ⟨b, rest, hb, hline, displayColumns_front (by omega)⟩

end

/-- Whatever error an entry point hands out, its report over the input is rendered without a
fault. -/
theorem errors_are_dumped (env : Env) (o : Options) (inp : Bytes) (fuel : Nat) (t : Ty) (out : Val)
    (hsize : inp.length < 2 ^ 63) :
    (∀ e, decode env o fuel t inp = .error (.error e) → ∃ text, Dumped inp e text) ∧
      (∀ e out', decodeInto env o fuel t inp out = .error (.error e) out' →
        ∃ text, Dumped inp e text) ∧
      ∀ c, decodeAll env o fuel t inp = .ok c → ∀ e ∈ c.errors, ∃ text, Dumped inp e text :=
  ⟨fun _ h => exists_dumped hsize (HandedOut.decode h).reported,
    fun _ _ h => exists_dumped hsize (HandedOut.decodeInto h).reported,
    fun _ h _ he => exists_dumped hsize (HandedOut.decodeAll h he).reported⟩

theorem errors_are_dumped_reserved :
    ∃ text, Dumped [0x83, 0x01, 0x1C, 0x02]
      { code := .malformedItem, offset := 2, length := 1, steps := [.index 1], finalized := true,
        detail := str "reserved additional information" } text :=
  (errors_are_dumped default {} [0x83, 0x01, 0x1C, 0x02] 5 (.seq .vector (.int ⟨true, .w32⟩)) .null
    (by decide)).1 _ (by rfl)

end VCodec.Cbor
