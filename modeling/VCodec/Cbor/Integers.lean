import VCodec.Cbor.Expect
import VCodec.Cbor.Encode
import VCodec.Core.Simulate
import VCodec.Core.Narrow
import VCodec.Core.Decimal

/-!
# Integer items

An integer item is a head of major type 0 or 1, of any width, and may be as small as `-2 ^ 64`,
which no machine integer holds. `decodeInt_item` says that it is converted as its value asks: the
value arrives if the target holds it, and is named in full by the error if not. In particular every
integer that is written comes back, in any type that holds it.
-/

namespace VCodec.Cbor

open D

variable {o : Options} {inp : Bytes} {s : State}

/-! ### Decimal texts -/

/-- `negative_text`, in 64-bit arithmetic. -/
def negativeTextWords (n : Nat) : Bytes :=
  if n < int64Max then decimalInt (toInt64 (-1 - toInt64 n))
  else if n = 2 ^ 64 - 1 then str "-18446744073709551616"
  else 0x2D :: decimal ((n + 1) % 2 ^ 64)

theorem negativeText_eq (n : Nat) : negativeText n = decimalInt (-1 - (n : Int)) := by
  have hneg : -1 - (n : Int) < 0 := by omega
  have habs : (-1 - (n : Int)).natAbs = n + 1 := by omega
  rw [negativeText, decimalInt, if_pos hneg, habs]

theorem toInt64_of_range {i : Int} (hlo : -2 ^ 63 ≤ i) (hhi : i < 2 ^ 63) : toInt64 i = i := by
  rw [toInt64, Int.bmod_eq_of_le]
  · omega
  · omega

/-- No step of the 64-bit arithmetic wraps around. -/
theorem negativeTextWords_eq {n : Nat} (hn : n < 2 ^ 64) :
    negativeTextWords n = negativeText n := by
  have hmax : int64Max = 2 ^ 63 - 1 := rfl
  rw [negativeTextWords]
  split
  · rw [toInt64_of_range (i := (n : Int)) (by omega) (by omega),
      toInt64_of_range (by omega) (by omega), negativeText_eq]
  split
  · rename_i hlast
    have htext : decimal (2 ^ 64) = str "18446744073709551616" := by decide +kernel
    rw [negativeText, hlast]
    exact congrArg (0x2D :: ·) htext.symm
  · rw [negativeText, Nat.mod_eq_of_lt (by omega)]

/-! ### Items -/

/-- `n`, or `-1 - n`. -/
structure IntItem where
  negative : Bool
  head : Head

namespace IntItem

def major (x : IntItem) : Major := if x.negative then .nint else .uint

def bytes (x : IntItem) : Bytes := x.head.bytes x.major

def value (x : IntItem) : Int := if x.negative then -1 - (x.head.value : Int) else x.head.value

theorem major_ne_simple (x : IntItem) : x.major ≠ .simple := by
  rw [major]
  split
  · exact Major.noConfusion
  · exact Major.noConfusion

theorem major_ne_tag (x : IntItem) : x.major ≠ .tag := by
  rw [major]
  split
  · exact Major.noConfusion
  · exact Major.noConfusion

/-- Strict decoding lets the shortest heads through. -/
def Allowed (o : Options) (x : IntItem) : Prop := o.requireDeterministic = true → x.head.Shortest

theorem admitted_iff (x : IntItem) : Admitted o (x.head.parsed x.major) ↔ x.Allowed o := by
  rw [Admitted, Allowed, ← Head.shortest_parsed x.major_ne_simple]
  constructor
  · rintro ⟨-, -, -, -, -, hstrict⟩ hdet
    exact (hstrict hdet).2.resolve_right x.major_ne_simple
  · intro hshort
    refine ⟨?_, rfl, rfl, x.major_ne_tag, fun h => x.major_ne_simple h.1,
      fun hdet => ⟨rfl, .inl (hshort hdet)⟩⟩
    rw [Head.parsed]
    exact Nat.ne_of_gt (Nat.add_pos_left Nat.one_pos _)

end IntItem

/-! ### Reading an item -/

section

variable {x : IntItem} {rest : Bytes}

/-- The reader behind the item. -/
def State.passed (s : State) (x : IntItem) : State :=
  { s with pos := s.pos + x.bytes.length, start := s.pos }

theorem itemHead_item (hdrop : inp.drop s.pos = x.bytes ++ rest) (hallowed : x.Allowed o)
    (expected : Bytes) :
    itemHead o inp expected s = .ok (x.head.parsed x.major) { s with start := s.pos } := by
  have hhead : parseHead (x.bytes ++ rest) 0 = x.head.parsed x.major :=
    parseHead_head (by rw [List.drop_zero, IntItem.bytes])
  have hat : HeadAt o inp s.pos [] (x.bytes ++ rest) :=
    ⟨hdrop, fun h => absurd rfl h, by rw [hhead]; exact x.admitted_iff.2 hallowed⟩
  rw [hat.itemHead, hhead]
  rfl

/-- Strict decoding names the shortest form. -/
theorem itemHead_long (hdrop : inp.drop s.pos = x.bytes ++ rest) (hlong : ¬ x.Allowed o)
    (expected : Bytes) :
    ∃ e, itemHead o inp expected s = .error e s ∧ e.code = .nonDeterministic := by
  have hhead : parseHead inp s.pos = x.head.parsed x.major := parseHead_head hdrop
  have hlen := length_drop hdrop
  rw [List.length_append, IntItem.bytes, Head.bytes_length] at hlen
  obtain ⟨fuel, hfuel⟩ : ∃ fuel, inp.length - s.pos = fuel + 1 := ⟨inp.length - s.pos - 1, by omega⟩
  rw [IntItem.Allowed, Classical.not_imp, ← Head.shortest_parsed x.major_ne_simple,
    Bool.not_eq_true] at hlong
  have hcheck : whenStrict o (checkHeadDeterministic (x.head.parsed x.major) s.pos) =
      some (shortestError s.pos (x.head.parsed x.major)) := by
    rw [whenStrict, if_pos hlong.1, checkHeadDeterministic,
      if_neg (show ¬ (x.head.parsed x.major).indefinite = true from Bool.false_ne_true),
        if_pos ⟨by rw [hlong.2]; exact Bool.false_ne_true, x.major_ne_simple⟩]
  have hscan : scanHead o inp expected (fuel + 1) s.pos =
    .error (shortestError s.pos (x.head.parsed x.major)) := by
    rw [scanHead, if_neg (by omega), hhead]
    dsimp only
    rw [if_neg (show ¬ (x.head.parsed x.major).length =
      0 from Nat.ne_of_gt (Nat.add_pos_left Nat.one_pos _)),
      if_neg (show ¬ (x.head.parsed x.major).isBreak = true from Bool.false_ne_true),
      if_neg (show ¬ (x.head.parsed x.major).reserved = true from Bool.false_ne_true),
      if_neg (show ¬ (x.head.parsed x.major).mt = .tag from x.major_ne_tag),
        if_neg fun h => x.major_ne_simple h.1, hcheck]
  refine ⟨shortestError s.pos (x.head.parsed x.major), ?_, rfl⟩
  rw [itemHead, hfuel, hscan]

theorem expectUint_item (hdrop : inp.drop s.pos = x.bytes ++ rest) (hallowed : x.Allowed o) :
    if x.negative then
      ∃ e, expectUint o inp s = .error e { s with start := s.pos } ∧ e.code = .outOfRange ∧
        e.detail = decimalInt x.value
    else expectUint o inp s = .ok x.head.value (s.passed x) := by
  rw [expectUint, Run.bind_of_ok (itemHead_item hdrop hallowed _), State.passed, IntItem.bytes,
    Head.bytes_length,
    IntItem.value, IntItem.major]
  cases x.negative with
  | true => exact ⟨_, rfl, rfl, negativeText_eq x.head.value⟩
  | false => rfl

theorem expectSint_item (hdrop : inp.drop s.pos = x.bytes ++ rest) (hallowed : x.Allowed o) :
    if -2 ^ 63 ≤ x.value ∧ x.value < 2 ^ 63 then expectSint o inp s = .ok x.value (s.passed x)
    else ∃ e, expectSint o inp s = .error e { s with start := s.pos } ∧ e.code = .outOfRange ∧
      e.detail = decimalInt x.value := by
  have hmax : int64Max = 2 ^ 63 - 1 := rfl
  have hhead := itemHead_item hdrop hallowed (str "integer")
  have hlen : x.bytes.length = (x.head.parsed x.major).length := Head.bytes_length _ _
  have hmt : (x.head.parsed x.major).mt = x.major := rfl
  have harg : (x.head.parsed x.major).value = x.head.value := rfl
  rw [expectSint, Run.bind_of_ok hhead, hmt, harg, State.passed, hlen]
  cases hneg : x.negative with
  | true =>
    have hmajor : x.major = .nint := by
      rw [IntItem.major, hneg]
      rfl
    have hvalue : x.value = -1 - (x.head.value : Int) := by
      rw [IntItem.value, hneg]
      rfl
    rw [hmajor, if_neg (show ¬ Major.nint = Major.uint from Major.noConfusion), if_pos rfl]
    rcases Nat.lt_or_ge int64Max x.head.value with hout | hin
    · rw [if_neg (show ¬ (-2 ^ 63 ≤ x.value ∧ x.value < 2 ^ 63) by omega), if_pos hout, hvalue]
      exact ⟨_, rfl, rfl, negativeText_eq x.head.value⟩
    · rw [if_pos (show -2 ^ 63 ≤ x.value ∧ x.value < 2 ^ 63 by omega), if_neg (Nat.not_lt.2 hin),
        hvalue]
      rfl
  | false =>
    have hmajor : x.major = .uint := by
      rw [IntItem.major, hneg]
      rfl
    have hvalue : x.value = (x.head.value : Int) := by
      rw [IntItem.value, hneg]
      rfl
    rw [hmajor, if_pos rfl]
    rcases Nat.lt_or_ge int64Max x.head.value with hout | hin
    · rw [if_neg (show ¬ (-2 ^ 63 ≤ x.value ∧ x.value < 2 ^ 63) by omega), if_pos hout, hvalue]
      exact ⟨_, rfl, rfl, (decimalInt_nat x.head.value).symm⟩
    · rw [if_pos (show -2 ^ 63 ≤ x.value ∧ x.value < 2 ^ 63 by omega), if_neg (Nat.not_lt.2 hin),
        hvalue]
      rfl

/-! ### Narrowing -/

/-- The value arrives if the target holds it, and is named as out of range otherwise. -/
def IntItem.Converts (x : IntItem) (env : Env) (o : Options) (inp : Bytes) (f : FieldMeta)
    (k : IntTy) (b : Build State) : Prop :=
  if k.Holds x.value then
    decodeInt env (reader env o inp) f k b = .ok x.value { b with reader := b.reader.passed x }
  else ∃ e b', decodeInt env (reader env o inp) f k b = .error (.error e) b' ∧
    e.code = .outOfRange ∧
    e.detail = decimalInt x.value

variable {env : Env} {f : FieldMeta} {k : IntTy} {b : Build State}

theorem converts_unsigned (hk : k.signed = false) (hdrop : inp.drop b.reader.pos = x.bytes ++ rest)
    (hallowed : x.Allowed o) :
    x.Converts env o inp f k b := by
  have hread := expectUint_item hdrop hallowed
  have hoff : (reader env o inp).offset b.reader = .ok b.reader.pos b.reader := rfl
  have hmin := IntTy.min_unsigned hk
  rw [IntItem.Converts]
  cases hneg : x.negative with
  | true =>
    have hvalue : x.value = -1 - (x.head.value : Int) := by
      rw [IntItem.value, hneg]
      rfl
    have hout : ¬ k.Holds x.value := fun h => absurd h.1 (by omega)
    rw [hneg, if_pos rfl] at hread
    obtain ⟨e, hfails, hcode, hdetail⟩ := hread
    rw [if_neg hout]
    refine ⟨_, _, decodeInt_of_uint_error hk hoff hfails, ?_, ?_⟩
    · rw [SimLaws.withRangeContext_code, hcode]
    · rw [withRangeContext_detail, hdetail]
  | false =>
    have hvalue : x.value = (x.head.value : Int) := by
      rw [IntItem.value, hneg]
      rfl
    rw [hneg, if_neg Bool.false_ne_true] at hread
    rw [decodeInt_of_uint hk hoff hread, hvalue]
    split
    · rfl
    · exact ⟨_, _, rfl, rfl, rfl⟩

theorem converts_signed (hk : k.signed = true) (hdrop : inp.drop b.reader.pos = x.bytes ++ rest)
    (hallowed : x.Allowed o) :
    x.Converts env o inp f k b := by
  have hread := expectSint_item hdrop hallowed
  have hoff : (reader env o inp).offset b.reader = .ok b.reader.pos b.reader := rfl
  have hmin := IntTy.min_signed hk
  have hmax := IntTy.max_signed hk
  rw [IntItem.Converts]
  by_cases hfits : -2 ^ 63 ≤ x.value ∧ x.value < 2 ^ 63
  · rw [if_pos hfits] at hread
    rw [decodeInt_of_sint hk hoff hread]
    split
    · rfl
    · exact ⟨_, _, rfl, rfl, rfl⟩
  · rw [if_neg hfits] at hread
    obtain ⟨e, hfails, hcode, hdetail⟩ := hread
    have hout : ¬ k.Holds x.value := fun h => hfits ⟨hmin.trans h.1, lt_of_le_of_lt h.2 hmax⟩
    rw [if_neg hout]
    refine ⟨_, _, decodeInt_of_sint_error hk hoff hfails, ?_, ?_⟩
    · rw [SimLaws.withRangeContext_code, hcode]
    · rw [withRangeContext_detail, hdetail]

theorem converts_item (hdrop : inp.drop b.reader.pos = x.bytes ++ rest) (hallowed : x.Allowed o) :
    x.Converts env o inp f k b := by
  cases hk : k.signed with
  | true => exact converts_signed hk hdrop hallowed
  | false => exact converts_unsigned hk hdrop hallowed

/-- Whatever the target, strict decoding refuses a head that is longer than it has to be. -/
theorem decodeInt_long (hdrop : inp.drop b.reader.pos = x.bytes ++ rest) (hlong : ¬ x.Allowed o) :
    ∃ e b', decodeInt env (reader env o inp) f k b = .error (.error e) b' ∧
      e.code = .nonDeterministic := by
  have hoff : (reader env o inp).offset b.reader = .ok b.reader.pos b.reader := rfl
  cases hk : k.signed with
  | true =>
    obtain ⟨e, hhead, hcode⟩ := itemHead_long hdrop hlong (str "integer")
    have hfails : (reader env o inp).expectSint f b.reader = .error e b.reader :=
      Run.bind_of_error hhead _
    refine ⟨_, _, decodeInt_of_sint_error hk hoff hfails, ?_⟩
    rw [SimLaws.withRangeContext_code, hcode]
  | false =>
    obtain ⟨e, hhead, hcode⟩ := itemHead_long hdrop hlong (str "unsigned integer")
    have hfails : (reader env o inp).expectUint f b.reader = .error e b.reader :=
      Run.bind_of_error hhead _
    refine ⟨_, _, decodeInt_of_uint_error hk hoff hfails, ?_⟩
    rw [SimLaws.withRangeContext_code, hcode]

end

/-! ### Writing and reading -/

/-- The item that is written for an integer. -/
def itemOf (i : Int) (h : -2 ^ 64 ≤ i ∧ i < 2 ^ 64) : IntItem :=
  if h0 : 0 ≤ i then ⟨false, .short i.toNat (by omega)⟩
    else ⟨true, .short (-1 - i).toNat (by omega)⟩

theorem itemOf_spec {i : Int} (h : -2 ^ 64 ≤ i ∧ i < 2 ^ 64) :
    (itemOf i h).bytes = intHead i ∧ (itemOf i h).value = i ∧ (itemOf i h).Allowed o := by
  rw [itemOf, intHead]
  split
  · rename_i h0
    refine ⟨(makeHead_eq (by omega)).symm, Int.toNat_of_nonneg h0, fun _ => rfl⟩
  · rename_i h0
    refine ⟨(makeHead_eq (by omega)).symm, ?_, fun _ => rfl⟩
    have hback : ((-1 - i).toNat : Int) = -1 - i := Int.toNat_of_nonneg (by omega)
    show -1 - ((-1 - i).toNat : Int) = i
    omega

theorem holds_bounds {k : IntTy} {i : Int} (h : k.Holds i) : -2 ^ 64 ≤ i ∧ i < 2 ^ 64 := by
  cases hk : k.signed with
  | true =>
    have hmin := IntTy.min_signed hk
    have hmax := IntTy.max_signed hk
    obtain ⟨hlo, hhi⟩ := h
    constructor
    · omega
    · omega
  | false =>
    have hmin := IntTy.min_unsigned hk
    have hmax := IntTy.max_unsigned hk
    obtain ⟨hlo, hhi⟩ := h
    constructor
    · omega
    · omega

/-- An integer is written as the head of its value, whatever its type. -/
theorem encodeValue_int (env : Env) (eo : Options) (f : FieldMeta) {k : IntTy} {i : Int}
    (h : k.Holds i) (w : Writer) :
    encodeValue env (sink eo) f (.int k) (.int i) w =
      .ok () ((w.modifyTop Frame.item).append (intHead i)) := by
  rw [encodeValue]
  cases hk : k.signed with
  | true => rfl
  | false =>
    have hnonneg : 0 ≤ i := by
      rw [← IntTy.min_unsigned hk]
      exact h.1
    rw [intHead, if_pos hnonneg]
    rfl

/-- An integer item that strict decoding lets through is converted as its value asks, and one that
it does not is refused. An integer that is written is read as itself, in whatever type. -/
theorem decodeInt_item (env : Env) (o : Options) :
    (∀ (x : IntItem) (inp rest : Bytes) (f : FieldMeta) (k : IntTy) (b : Build State),
      inp.drop b.reader.pos = x.bytes ++ rest →
      (x.Allowed o → x.Converts env o inp f k b) ∧
      (¬ x.Allowed o → ∃ e b', decodeInt env (reader env o inp) f k b = .error (.error e) b' ∧
        e.code = .nonDeterministic)) ∧
    ∀ (eo : Options) (f : FieldMeta) (k : IntTy) (i : Int) (w : Writer), k.Holds i →
      ∃ bs, encodeValue env (sink eo) f (.int k) (.int i) w =
        .ok () ((w.modifyTop Frame.item).append bs) ∧
        ∀ (inp rest : Bytes) (f' : FieldMeta) (k' : IntTy) (b : Build State), k'.Holds i →
          inp.drop b.reader.pos = bs ++ rest →
          decodeInt env (reader env o inp) f' k' b =
            .ok i { b with reader := { b.reader with pos := b.reader.pos + bs.length, start := b.reader.pos } } := by
  refine ⟨fun x inp rest f k b hdrop => ⟨converts_item hdrop, decodeInt_long hdrop⟩, ?_⟩
  intro eo f k i w hholds
  obtain ⟨hbytes, hvalue, hallowed⟩ := itemOf_spec (o := o) (holds_bounds hholds)
  refine ⟨intHead i, encodeValue_int env eo f hholds w, fun inp rest f' k' b hholds' hdrop => ?_⟩
  rw [← hbytes] at hdrop ⊢
  have hconverts : (itemOf i (holds_bounds hholds)).Converts env o inp f' k' b :=
    converts_item hdrop hallowed
  rw [IntItem.Converts, hvalue, if_pos hholds'] at hconverts
  exact hconverts

/-- The least item is out of every range, and named. -/
theorem decodeInt_item_least :
    ∃ e b', decodeInt default (reader default {} (0x3B :: be 8 (2 ^ 64 - 1))) {} ⟨true, .w64⟩
      ⟨{}, .null⟩ = .error (.error e) b' ∧
      e.code = .outOfRange ∧ e.detail = decimalInt (-2 ^ 64) := by
  have hconverts :=
    ((decodeInt_item default {}).1 ⟨true, ⟨.eight, 2 ^ 64 - 1, by decide⟩⟩
    (0x3B :: be 8 (2 ^ 64 - 1)) [] {}
    ⟨true, .w64⟩ ⟨{}, .null⟩ (by decide)).1 fun h => absurd h (by decide)
  rw [IntItem.Converts, if_neg (by decide)] at hconverts
  exact hconverts

/-- Strict decoding refuses a one in two bytes. -/
theorem decodeInt_item_strict :
    ¬ ∀ (env : Env) (o : Options) (x : IntItem) (inp rest : Bytes) (f : FieldMeta) (k : IntTy)
      (b : Build State),
      inp.drop b.reader.pos = x.bytes ++ rest → x.Converts env o inp f k b := by
  intro hall
  have hdrop : [0x18, 0x01].drop (⟨{}, .null⟩ : Build State).reader.pos =
    IntItem.bytes ⟨false, ⟨.one, 1, by decide⟩⟩ ++ [] := by decide
  have hconverts :=
    hall default { requireDeterministic := true } ⟨false, ⟨.one, 1, by decide⟩⟩ [0x18, 0x01] [] {}
    uint8 ⟨{}, .null⟩ hdrop
  have hlong : ¬ IntItem.Allowed { requireDeterministic := true } ⟨false, ⟨.one, 1, by decide⟩⟩ :=
    fun h => by
    have hshort := h rfl
    cases hshort
  obtain ⟨e, b', hfails, -⟩ : ∃ e b',
    decodeInt default (reader default { requireDeterministic := true } [0x18, 0x01]) {} uint8
      ⟨{}, .null⟩ = .error (.error e) b' ∧ e.code = .nonDeterministic := decodeInt_long hdrop hlong
  rw [IntItem.Converts, if_pos (by decide), hfails] at hconverts
  cases hconverts

end VCodec.Cbor
