import VCodec.Cbor.Landing
import VCodec.Library.Endian

/-!
# Typed arrays on either host

The bulk form of a numeric range as the code computes it word by word, on a host of either byte
order. `rfc8746` is the table of the format, and `rfcIntegers` the integers that a byte string holds
under it.
-/

namespace VCodec.Cbor

open D

/-! ### The format -/

/-- What RFC 8746 says of the elements under a tag. -/
inductive ArrayElement
  | integer (signed : Bool) (size : Nat) (order : Endian)
  | float (size : Nat) (order : Endian)
  deriving DecidableEq, Repr

/-- The tags of the typed arrays. The order of single bytes says nothing. -/
def rfc8746 : Nat → Option ArrayElement
  | 64 => some (.integer false 1 .big)
  | 65 => some (.integer false 2 .big)
  | 66 => some (.integer false 4 .big)
  | 67 => some (.integer false 8 .big)
  | 68 => some (.integer false 1 .little)
  | 69 => some (.integer false 2 .little)
  | 70 => some (.integer false 4 .little)
  | 71 => some (.integer false 8 .little)
  | 72 => some (.integer true 1 .big)
  | 73 => some (.integer true 2 .big)
  | 74 => some (.integer true 4 .big)
  | 75 => some (.integer true 8 .big)
  | 77 => some (.integer true 2 .little)
  | 78 => some (.integer true 4 .little)
  | 79 => some (.integer true 8 .little)
  | 80 => some (.float 2 .big)
  | 81 => some (.float 4 .big)
  | 82 => some (.float 8 .big)
  | 83 => some (.float 16 .big)
  | 84 => some (.float 2 .little)
  | 85 => some (.float 4 .little)
  | 86 => some (.float 8 .little)
  | 87 => some (.float 16 .little)
  | _ => none

namespace ArrayElement

def size : ArrayElement → Nat
  | integer _ n _ | float n _ => n

/-- The value of an element, if it is an integer. -/
def integer? : ArrayElement → Bytes → Option Int
  | integer signed n order, bs =>
    some (if signed then (order.value bs : Int).bmod (256 ^ n) else order.value bs)
  | float _ _, _ => none

end ArrayElement

/-- Element `i` of a byte string. -/
def element (size : Nat) (bytes : Bytes) (i : Nat) : Bytes := (bytes.drop (i * size)).take size

/-- The integers that a typed array holds: of whole elements, each of them an integer, and no array
of float128. -/
def rfcIntegers (tag : Nat) (bytes : Bytes) : Option (List Int) :=
  (rfc8746 tag).bind fun e =>
    if e.size = 16 ∨ bytes.length % e.size ≠ 0 then none
    else (List.range (bytes.length / e.size)).mapM fun i => e.integer? (element e.size bytes i)

/-! ### The reader -/

/-- The element type and the byte order, from the bits of the tag. -/
def Layout.ofBits (tag : Nat) : Layout :=
  let isFloat : Bool := 80 ≤ tag
  let little : Bool := if isFloat then 84 ≤ tag else tag &&& 4 ≠ 0
  let sizeCode := if isFloat then tag - (if little then 84 else 80) else tag &&& 3
  { isFloat, little
    size := if isFloat then 2 <<< sizeCode else 1 <<< sizeCode
    isSigned := !isFloat && 72 ≤ tag }

def Layout.order (l : Layout) : Endian := if l.little then .little else .big

/-- `static_cast` of a 64-bit word to an integer type. -/
def castWord (k : IntTy) (w : BitVec 64) : Int :=
  let low := w.setWidth k.width.bits
  if k.signed then low.toInt else low.toNat

namespace Host

/-- `read_word`. -/
def readWord (l : Layout) (bytes : Bytes) (i : Nat) : BitVec 64 :=
  l.order.assemble l.size fun b => bytes.getD (i * l.size + b) 0

/-- The word of a signed element, its sign extended. -/
def signed (l : Layout) (w : BitVec 64) : BitVec 64 :=
  let signBit := 1#64 <<< (8 * l.size - 1)
  if w &&& signBit ≠ 0 then w ||| ~~~((signBit <<< 1) - 1#64) else w

/-- The value of a float element. -/
def floatOf (l : Layout) (w : BitVec 64) : Double :=
  if l.size = 2 then fromHalf (w.setWidth 16).toNat
  else if l.size = 4 then doubleOfSingle (singleOfBits (w.setWidth 32).toNat)
  else doubleOfBits w.toNat

variable (env : Env)

def rangeError (k : IntTy) (off : Nat) (i : Int) : Error :=
  ((error .outOfRange off).withDetail (decimalInt i)).withContext (env.display (.int k))

/-- A word as an element of the range. -/
def store (l : Layout) (t : Ty) (off : Nat) (w : BitVec 64) : Except Error Val :=
  match t with
  | .int k =>
    if l.isFloat then
      .error (((error .typeMismatch off).withExpected (str "integer typed array")).withFound
        (str "float typed array"))
    else if l.isSigned then
      let sv := signed l w
      if sv.slt (BitVec.ofInt 64 k.min) ∨ (0#64).slt sv ∧ (BitVec.ofInt 64 k.max).ult sv then
        .error (rangeError env k off sv.toInt)
      else .ok (.int (castWord k sv))
    else if (BitVec.ofInt 64 k.max).ult w then .error (rangeError env k off w.toNat)
    else .ok (.int (castWord k w))
  | .float =>
    .ok (.single (if l.isFloat then singleOfDouble (floatOf l w)
      else singleOfInt (if l.isSigned then (signed l w).toInt else w.toNat)))
  | _ =>
    .ok (.real (if l.isFloat then floatOf l w
      else doubleOfInt (if l.isSigned then (signed l w).toInt else w.toNat)))

variable (native : Endian)

/-- `sizeof`. -/
def elementSize : Ty → Nat
  | .int k => k.width.bytes
  | .float => 4
  | _ => 8

/-- The elements of the range are represented as those of the typed array. -/
def copies (l : Layout) (t : Ty) : Bool :=
  (match t with
    | .int k => !l.isFloat && l.isSigned == k.signed
    | _ => l.isFloat) && l.size == elementSize t && l.order == native

/-- The object that these bytes represent in memory. -/
def load (t : Ty) (bs : Bytes) : Val :=
  match t with
  | .int k => .int (castWord k (BitVec.ofNat 64 (native.value bs)))
  | .float => .single (singleOfBits (native.value bs))
  | _ => .real (doubleOfBits (native.value bs))

/-- `memcpy` into `n` elements. -/
def copyRange (t : Ty) (n : Nat) (bytes : Bytes) : D State Unit :=
  setOut (.seq ((List.range n).map fun i => load native t (element (elementSize t) bytes i)))

/-- The elements one by one. -/
def storeRange (l : Layout) (t : Ty) (off n : Nat) (bytes : Bytes) (olds : List Val) :
    D State Unit :=
  fillRange (fun i => store env l t off (readWord l bytes i)) (List.range n) olds

def typedArrayInto (tag : Nat) (bytes : Bytes) (t : Ty) (off : Nat) : D State Unit :=
  let l := Layout.ofBits tag
  let n := bytes.length / l.size
  let elem := (rangeShape t).1
  if l.isFloat ∧ l.size = 16 then
    fail (((error .typeMismatch off).withExpected
      (str "typed array of a supported width")).withFound
      (str "float128 typed array"))
  else if bytes.length % l.size ≠ 0 then
    fail ((error .malformedItem off).withDetail
      (str "typed array length is not a multiple of the element size"))
  else if ∀ m ∈ (rangeShape t).2, m = n then do
    let out ← getOut
    let olds := if (rangeShape t).2.isSome then out.items else List.replicate n (elem.zero env)
    if copies native l elem then copyRange native elem n bytes else storeRange env l elem off n bytes olds
  else
    fail (((error .typeMismatch off).withExpected
      (str "array of " ++ decimal ((rangeShape t).2.getD 0) ++ str " elements")).withFound
      (str "array of " ++ decimal n ++ str " elements"))

def readRange (o : Options) (inp : Bytes) (t : Ty) : D State Bool :=
  if ¬ o.acceptTypedArrays then return false
  else do
    let range ← call (rangeBytes o inp)
    match range with
    | none => return false
    | some (tag, bytes, start) => do
      typedArrayInto env native tag bytes t start
      return true

/-! ### The writer -/

def typedArrayTag (t : Ty) : Nat :=
  match t, native with
  | .float, .little => 85
  | .float, .big => 81
  | .double, .little => 86
  | .double, .big => 82
  | .int ⟨true, .w8⟩, _ => 72
  | .int ⟨true, .w16⟩, .little => 77
  | .int ⟨true, .w16⟩, .big => 73
  | .int ⟨true, .w32⟩, .little => 78
  | .int ⟨true, .w32⟩, .big => 74
  | .int ⟨true, .w64⟩, .little => 79
  | .int ⟨true, .w64⟩, .big => 75
  | .int ⟨false, .w8⟩, _ => 64
  | .int ⟨false, .w16⟩, .little => 69
  | .int ⟨false, .w16⟩, .big => 65
  | .int ⟨false, .w32⟩, .little => 70
  | .int ⟨false, .w32⟩, .big => 66
  | .int ⟨false, .w64⟩, .little => 71
  | .int ⟨false, .w64⟩, .big => 67
  | _, _ => 0

/-- An element as it lies in memory. -/
def represent (t : Ty) (v : Val) : Bytes :=
  match t, v with
  | .int k, .int i => native.bytes k.width.bytes (i % 2 ^ k.width.bits).toNat
  | .float, .single x => native.bytes 4 x.bits
  | .double, .real x => native.bytes 8 x.bits
  | _, _ => []

def rangeData (t : Ty) (v : Val) : Bytes := v.items.flatMap (represent native (rangeShape t).1)

def writeRange (t : Ty) (v : Val) : W Unit :=
  Cbor.writeRange (typedArrayTag native (rangeShape t).1) (rangeData native t v)

end Host

/-! ### The bits of a tag -/

theorem rfc8746_isSome {tag : Nat} (hlo : 64 ≤ tag) (hhi : tag ≤ 87) (hreserved : tag ≠ 76) :
    ∃ e, rfc8746 tag = some e := by
  interval_cases tag
  case «76» => exact absurd rfl hreserved
  all_goals exact ⟨_, rfl⟩

theorem ofBits_integer {tag n : Nat} {signed : Bool} {order : Endian}
    (h : rfc8746 tag = some (.integer signed n order)) :
    Layout.ofBits tag = ⟨false, decide (order = .little), n, signed⟩ ∧ 0 < n ∧ n ≤ 8 := by
  unfold rfc8746 at h
  split at h
  all_goals
    cases h
    try decide

theorem ofBits_float {tag n : Nat} {order : Endian} (h : rfc8746 tag = some (.float n order)) :
    Layout.ofBits tag = ⟨true, decide (order = .little), n, false⟩ ∧ (n ≠ 16 → n ≤ 8) := by
  unfold rfc8746 at h
  split at h
  all_goals
    cases h
    try decide

theorem order_eq (l : Layout) (order : Endian) (h : l.little = decide (order = .little)) :
    l.order = order := by
  rw [Layout.order, h]
  cases order <;> rfl

/-! ### The words -/

theorem element_length {size i : Nat} {bytes : Bytes} (hi : i < bytes.length / size) :
    (element size bytes i).length = size := by
  have hsize : 0 < size := Nat.pos_of_ne_zero fun h => by simp [h] at hi
  have hle : (i + 1) * size ≤ bytes.length :=
    (Nat.mul_le_mul_right size hi).trans (Nat.div_mul_le_self _ _)
  rw [Nat.succ_mul] at hle
  rw [element, List.length_take, List.length_drop]
  omega

theorem element_eq {size i : Nat} {bytes : Bytes} (hi : i < bytes.length / size) :
    (List.range size).map (fun b => bytes.getD (i * size + b) 0) = element size bytes i := by
  have hlen := element_length hi
  apply List.ext_getElem
  · rw [List.length_map, List.length_range, hlen]
  · intro b hb hb'
    rw [List.length_map, List.length_range] at hb
    have hin : i * size + b < bytes.length := by
      rw [element, List.length_take, List.length_drop] at hb'
      omega
    rw [List.getElem_map, List.getElem_range, List.getD_eq_getElem?_getD,
      List.getElem?_eq_getElem hin]
    simp [element]

/-- The word is read as the format says. -/
theorem toNat_readWord {l : Layout} (hsize : l.size ≤ 8) {bytes : Bytes} {i : Nat}
    (hi : i < bytes.length / l.size) :
    (Host.readWord l bytes i).toNat = l.order.value (element l.size bytes i) := by
  rw [Host.readWord, Endian.toNat_assemble _ (by omega), element_eq hi]

theorem toInt_signed {l : Layout} (hpos : 0 < l.size) (hsize : l.size ≤ 8) {w : BitVec 64}
    (hw : w.toNat < 256 ^ l.size) :
    (Host.signed l w).toInt = (w.toNat : Int).bmod (256 ^ l.size) := by
  rw [Endian.pow_byte] at hw ⊢
  exact TwosComplement.toInt_fill (by omega) (by omega) hw

/-! ### Integers -/

theorem pow_bytes (w : IntWidth) : 256 ^ w.bytes = 2 ^ w.bits := by
  cases w <;> rfl

theorem int_bounds (k : IntTy) : -2 ^ 63 ≤ k.min ∧ k.min ≤ 0 ∧ 0 ≤ k.max ∧ k.max < 2 ^ 64 := by
  obtain ⟨signed, width⟩ := k
  cases signed <;> cases width <;> decide

theorem bits_half (w : IntWidth) : (2 : Int) ^ w.bits = 2 ^ (w.bits - 1) * 2 := by
  cases w <;> rfl

/-- A word is cast to the value of the type that it is congruent to. -/
theorem castWord_eq {k : IntTy} {i : Int} (hi : k.Holds i) {w : BitVec 64}
    (hw : (w.toNat : Int) % (2 ^ k.width.bits : Nat) = i % (2 ^ k.width.bits : Nat)) :
    castWord k w = i := by
  obtain ⟨hmin, hmax⟩ := hi
  have hhalf := bits_half k.width
  unfold castWord
  dsimp only
  rw [IntTy.min] at hmin
  rw [IntTy.max] at hmax
  split
  · rename_i hsigned
    rw [if_pos hsigned] at hmin hmax
    rw [BitVec.toInt_setWidth, ← Int.emod_bmod, hw, Int.emod_bmod, Int.bmod_eq_of_le]
    all_goals
      push_cast
      omega
  · rename_i hunsigned
    rw [if_neg hunsigned] at hmin hmax
    rw [BitVec.toNat_setWidth, Int.natCast_emod, hw]
    refine Int.emod_eq_of_lt hmin ?_
    push_cast
    omega

theorem emod_narrow {i j : Int} (h : i = j % 2 ^ 64) (w : IntWidth) :
    i % (2 ^ w.bits : Nat) = j % (2 ^ w.bits : Nat) := by
  cases w <;> simp only [IntWidth.bits] <;> omega

/-- The signed comparison with the minimum, and the unsigned one of a positive word with the
maximum. -/
theorem rejects_signed (k : IntTy) (w : BitVec 64) :
    (w.slt (BitVec.ofInt 64 k.min) = true ∨ (0#64).slt w = true ∧
      (BitVec.ofInt 64 k.max).ult w = true) ↔ ¬ k.Holds w.toInt := by
  obtain ⟨hlow, hneg, hpos, hhigh⟩ := int_bounds k
  have hmin : (BitVec.ofInt 64 k.min).toInt = k.min := by
    rw [BitVec.toInt_ofInt, Int.bmod_eq_of_le]
    all_goals omega
  have hmax : (BitVec.ofInt 64 k.max).toNat = k.max.toNat := by
    rw [BitVec.toNat_ofInt]
    omega
  have hword := w.toInt_eq_toNat_bmod
  have hlt := w.isLt
  rw [Int.bmod_def] at hword
  rw [BitVec.slt_iff_toInt_lt, BitVec.slt_iff_toInt_lt, BitVec.ult_iff_lt, BitVec.lt_def, hmin,
    hmax, IntTy.Holds, BitVec.toInt_zero]
  omega

theorem rejects_unsigned (k : IntTy) (w : BitVec 64) :
    (BitVec.ofInt 64 k.max).ult w = true ↔ ¬ k.Holds w.toNat := by
  obtain ⟨hlow, hneg, hpos, hhigh⟩ := int_bounds k
  have hmax : (BitVec.ofInt 64 k.max).toNat = k.max.toNat := by
    rw [BitVec.toNat_ofInt]
    omega
  rw [BitVec.ult_iff_lt, BitVec.lt_def, hmax, IntTy.Holds]
  omega

variable {env : Env}

/-- What is stored for an integer element: its value, if the type holds it. -/
theorem store_integer {order : Endian} {signed : Bool} {n : Nat} (hpos : 0 < n) (hsize : n ≤ 8)
    (k : IntTy) {bytes : Bytes} {i : Nat} (hi : i < bytes.length / n) (off : Nat) :
    ∃ x, (ArrayElement.integer signed n order).integer? (element n bytes i) = some x ∧
      Host.store env ⟨false, decide (order = .little), n, signed⟩ (.int k) off
          (Host.readWord ⟨false, decide (order = .little), n, signed⟩ bytes i) =
        if k.Holds x then .ok (.int x) else .error (Host.rangeError env k off x) := by
  have horder : (⟨false, decide (order = .little), n, signed⟩ : Layout).order = order :=
    order_eq _ _ rfl
  generalize hl : (⟨false, decide (order = .little), n, signed⟩ : Layout) = l at horder
  obtain rfl : l.size = n := congrArg Layout.size hl.symm
  obtain rfl : l.isSigned = signed := congrArg Layout.isSigned hl.symm
  have hfloat : ¬ l.isFloat = true := hl ▸ Bool.false_ne_true
  have hword := toNat_readWord hsize hi
  rw [horder] at hword
  have hlt := order.value_lt (element l.size bytes i)
  rw [element_length hi, ← hword] at hlt
  generalize Host.readWord l bytes i = w at hword hlt
  refine ⟨_, rfl, ?_⟩
  rw [← hword, Host.store, if_neg hfloat]
  split
  · have hvalue := toInt_signed hpos hsize hlt
    rw [← hvalue]
    have hcast : ((Host.signed l w).toNat : Int) = (Host.signed l w).toInt % 2 ^ 64 := by
      have hbmod := (Host.signed l w).toInt_eq_toNat_bmod
      have hbound := (Host.signed l w).isLt
      rw [Int.bmod_def] at hbmod
      omega
    by_cases hholds : k.Holds (Host.signed l w).toInt
    · rw [if_neg (mt (rejects_signed k _).1 (not_not.2 hholds)), if_pos hholds,
        castWord_eq hholds (emod_narrow hcast _)]
    · rw [if_pos ((rejects_signed k _).2 hholds), if_neg hholds]
  · by_cases hholds : k.Holds w.toNat
    · have hcast : (w.toNat : Int) = (w.toNat : Int) % 2 ^ 64 := by
        have hbound := w.isLt
        omega
      rw [if_neg (mt (rejects_unsigned k _).1 (not_not.2 hholds)), if_pos hholds,
        castWord_eq hholds (emod_narrow hcast _)]
    · rw [if_pos ((rejects_unsigned k _).2 hholds), if_neg hholds]

/-- What is copied for an element of the same representation: its value, which the type holds. -/
theorem load_integer {native : Endian} {k : IntTy} {bytes : Bytes} {i : Nat}
    (hi : i < bytes.length / k.width.bytes) :
    ∃ x, (ArrayElement.integer k.signed k.width.bytes native).integer?
      (element k.width.bytes bytes i) = some x ∧ k.Holds x ∧
      Host.load native (.int k) (element k.width.bytes bytes i) = .int x := by
  have hlt := native.value_lt (element k.width.bytes bytes i)
  rw [element_length hi, pow_bytes] at hlt
  refine ⟨_, rfl, ?_⟩
  rw [Host.load, pow_bytes]
  generalize native.value (element k.width.bytes bytes i) = v at hlt
  have hhalf := bits_half k.width
  have hpos : 0 < 2 ^ k.width.bits := by positivity
  have hwide : 2 ^ k.width.bits ≤ 2 ^ 64 := by
    cases k.width <;> decide
  have hword : ((BitVec.ofNat 64 v).toNat : Int) = v := by
    rw [BitVec.toNat_ofNat, Nat.mod_eq_of_lt (hlt.trans_le hwide)]
  cases hsigned : k.signed with
  | true =>
    have hholds : k.Holds ((v : Int).bmod (2 ^ k.width.bits)) := by
      have hlow := Int.le_bmod (x := v) hpos
      have hhigh := Int.bmod_lt (x := v) hpos
      rw [IntTy.Holds, IntTy.min, IntTy.max, if_pos hsigned, if_pos hsigned]
      push_cast at hlow hhigh
      omega
    refine ⟨hholds, congrArg Val.int (castWord_eq hholds ?_)⟩
    rw [hword, Int.bmod_emod]
  | false =>
    have hholds : k.Holds v := by
      have hlast : (v : Int) < 2 ^ k.width.bits := by exact_mod_cast hlt
      rw [IntTy.Holds, IntTy.min, IntTy.max, if_neg (by simp [hsigned]), if_neg (by simp [hsigned])]
      omega
    exact ⟨hholds, congrArg Val.int (castWord_eq hholds (by rw [hword]))⟩

/-! ### A whole range -/

/-- Every element is overwritten, if every word has one. -/
theorem fillElements_eq_ok {f : Nat → Except Error Val} {ws : List Nat} {olds vs : List Val}
    (hlen : olds.length = ws.length) :
    fillElements f ws olds = (vs, none) ↔ ws.map f = vs.map .ok := by
  induction ws generalizing olds vs with
  | nil =>
    obtain rfl := List.length_eq_zero_iff.1 hlen
    rw [fillElements, List.map_nil, Prod.mk.injEq, eq_comm (a := ([] : List (Except Error Val))),
      List.map_eq_nil_iff]
    exact ⟨fun h => h.1.symm, fun h => ⟨h.symm, rfl⟩⟩
    intros
    rename_i h
    cases h
  | cons w ws ih =>
    cases olds with
    | nil => cases hlen
    | cons old olds =>
      have ih := fun us => @ih olds us (Nat.succ.inj hlen)
      rw [fillElements, List.map_cons]
      cases hw : f w with
      | error e =>
        refine iff_of_false (fun h => by cases h) fun h => ?_
        cases vs with
        | nil => cases h
        | cons v vs => cases (List.cons.inj h).1
      | ok u =>
        cases vs with
        | nil => exact iff_of_false (fun h => by cases h) fun h => by cases h
        | cons v vs =>
          rw [List.map_cons, List.cons.injEq, ← ih vs, Prod.mk.injEq, Prod.ext_iff, List.cons.injEq,
            Except.ok.injEq]
          exact and_assoc

theorem fillRange_eq_ok {f : Nat → Except Error Val} {ws : List Nat} {olds : List Val}
    (hlen : olds.length = ws.length) {b b' : Build State} :
    fillRange f ws olds b = .ok () b' ↔ ∃ vs, ws.map f = vs.map .ok ∧
      b' = { b with out := .seq vs } := by
  unfold fillRange
  cases hfill : fillElements f ws olds with
  | mk vs err =>
    cases err with
    | none =>
      have hvs := (fillElements_eq_ok hlen).1 hfill
      constructor
      · rintro ⟨⟩
        exact ⟨vs, hvs, rfl⟩
      · rintro ⟨us, hus, rfl⟩
        have heq := ((fillElements_eq_ok hlen).2 hus).symm.trans hfill
        rw [(Prod.mk.inj heq).1]
    | some e =>
      refine iff_of_false nofun ?_
      rintro ⟨us, hus, -⟩
      have heq := ((fillElements_eq_ok hlen).2 hus).symm.trans hfill
      cases (Prod.mk.inj heq).2

/-- Words with an element are words with a value that the type holds. -/
theorem map_ok_iff {f : Nat → Except Error Val} {g : Nat → Option Int} {p : Int → Prop}
    {ws : List Nat} (h : ∀ w ∈ ws, ∀ v, f w = .ok v ↔ ∃ x, g w = some x ∧ p x ∧ v = .int x)
    (vs : List Val) :
    ws.map f = vs.map .ok ↔ ∃ is :
      List Int, ws.map g = is.map some ∧ (∀ i ∈ is, p i) ∧ vs = is.map .int := by
  induction ws generalizing vs with
  | nil =>
    constructor
    · intro hvs
      exact ⟨[], rfl, nofun, List.map_eq_nil_iff.1 hvs.symm⟩
    · rintro ⟨is, his, -, rfl⟩
      rw [List.map_eq_nil_iff.1 his.symm]
      rfl
  | cons w ws ih =>
    obtain ⟨hw, hws⟩ := List.forall_mem_cons.1 h
    have ih := ih hws
    constructor
    · intro hvs
      cases vs with
      | nil => cases hvs
      | cons v vs =>
        obtain ⟨hv, hrest⟩ := List.cons.inj hvs
        obtain ⟨x, hx, hp, rfl⟩ := (hw v).1 hv
        obtain ⟨is, his, hps, rfl⟩ := (ih vs).1 hrest
        exact ⟨x :: is, congrArg₂ List.cons hx his, List.forall_mem_cons.2 ⟨hp, hps⟩, rfl⟩
    · rintro ⟨is, his, hp, rfl⟩
      cases is with
      | nil => cases his
      | cons x is =>
        obtain ⟨hx, his⟩ := List.cons.inj his
        obtain ⟨hpx, hps⟩ := List.forall_mem_cons.1 hp
        exact congrArg₂ List.cons ((hw _).2 ⟨x, hx, hpx, rfl⟩) ((ih _).2 ⟨is, his, hps, rfl⟩)

theorem ofBits_size {tag : Nat} {e : ArrayElement} (he : rfc8746 tag = some e) :
    (Layout.ofBits tag).size = e.size := by
  cases e with
  | integer signed n order => rw [(ofBits_integer he).1]; rfl
  | float n order => rw [(ofBits_float he).1]; rfl

theorem ofBits_wide {tag : Nat} {e : ArrayElement} (he : rfc8746 tag = some e) :
    (Layout.ofBits tag).isFloat = true ∧ (Layout.ofBits tag).size = 16 ↔ e.size = 16 := by
  rw [ofBits_size he]
  refine ⟨And.right, fun h => ⟨?_, h⟩⟩
  cases e with
  | integer signed n order =>
    have hle : n ≤ 8 := (ofBits_integer he).2.2
    have heq : n = 16 := h
    omega
  | float n order => rw [(ofBits_float he).1]

/-- An element is stored if it is an integer that the type holds. -/
theorem store_eq_ok {tag : Nat} {e : ArrayElement} (he : rfc8746 tag = some e) (k : IntTy)
    (off : Nat) {bytes : Bytes} {i : Nat} (hi : i < bytes.length / e.size) (v : Val) :
    Host.store env (Layout.ofBits tag) (.int k) off (Host.readWord (Layout.ofBits tag) bytes i) =
      .ok v ↔
      ∃ x, e.integer? (element e.size bytes i) = some x ∧ k.Holds x ∧ v = .int x := by
  cases e with
  | integer signed n order =>
    obtain ⟨hbits, hpos, hsize⟩ := ofBits_integer he
    obtain ⟨x, hx, hstore⟩ := @store_integer env order signed n hpos hsize k bytes i hi off
    rw [hbits, hstore]
    constructor
    · intro h
      split at h
      · rename_i hholds
        cases h
        exact ⟨x, hx, hholds, rfl⟩
      · cases h
    · rintro ⟨y, hy, hholds, rfl⟩
      obtain rfl := Option.some.inj (hx.symm.trans hy)
      rw [if_pos hholds]
  | float n order =>
    rw [(ofBits_float he).1, Host.store, if_pos rfl]
    refine iff_of_false nofun ?_
    rintro ⟨x, hx, -⟩
    cases hx

theorem stores_iff {tag : Nat} {e : ArrayElement} (he : rfc8746 tag = some e) (k : IntTy)
    (off : Nat) (bytes : Bytes) (vs : List Val) :
    (List.range (bytes.length / e.size)).map
        (fun i => Host.store env (Layout.ofBits tag) (.int k) off
          (Host.readWord (Layout.ofBits tag) bytes i)) = vs.map .ok ↔
      ∃ is : List Int, (List.range (bytes.length / e.size)).map
        (fun i => e.integer? (element e.size bytes i)) = is.map some ∧
        (∀ i ∈ is, k.Holds i) ∧ vs = is.map .int :=
  map_ok_iff (fun _ hi => store_eq_ok he k off (List.mem_range.1 hi)) vs

/-- The elements of a range are overwritten one by one, if all of them are integers that the type
holds. -/
theorem storeRange_eq_ok {tag : Nat} {e : ArrayElement} (he : rfc8746 tag = some e) (k : IntTy)
    (off : Nat) {bytes : Bytes} {olds : List Val} (hlen : olds.length = bytes.length / e.size)
    {b b' : Build State} :
    Host.storeRange env (Layout.ofBits tag) (.int k) off (bytes.length / e.size) bytes olds b =
      .ok () b' ↔
      ∃ is : List Int, (List.range (bytes.length / e.size)).map
        (fun i => e.integer? (element e.size bytes i)) = is.map some ∧
        (∀ i ∈ is, k.Holds i) ∧ b' = { b with out := .seq (is.map .int) } := by
  unfold Host.storeRange
  rw [fillRange_eq_ok (hlen.trans List.length_range.symm)]
  constructor
  · rintro ⟨vs, hvs, rfl⟩
    obtain ⟨is, his, hholds, rfl⟩ := (stores_iff he k off bytes vs).1 hvs
    exact ⟨is, his, hholds, rfl⟩
  · rintro ⟨is, his, hholds, rfl⟩
    exact ⟨_, (stores_iff he k off bytes _).2 ⟨is, his, hholds, rfl⟩, rfl⟩

/-! ### The copy -/

/-- What is copied is laid out as the format lays out the element type of the range. -/
theorem copies_integer {native : Endian} {tag : Nat} {e : ArrayElement} (he : rfc8746 tag = some e)
    {k : IntTy} (h : Host.copies native (Layout.ofBits tag) (.int k) = true) :
    e = .integer k.signed k.width.bytes native := by
  cases e with
  | integer signed n order =>
    have hbits := (ofBits_integer he).1
    have horder : (Layout.ofBits tag).order = order := order_eq _ _ (by rw [hbits])
    simp only [Host.copies, horder, Host.elementSize, Bool.and_eq_true, beq_iff_eq] at h
    rw [hbits] at h
    obtain ⟨⟨⟨-, rfl⟩, rfl⟩, rfl⟩ := h
    rfl
  | float n order =>
    simp only [Host.copies, (ofBits_float he).1, Bool.not_true, Bool.false_and] at h
    cases h

/-- Where the bytes may be copied, storing them one by one does the same. -/
theorem copyRange_eq {native : Endian} {tag : Nat} {e : ArrayElement} (he : rfc8746 tag = some e)
    {k : IntTy} (h : Host.copies native (Layout.ofBits tag) (.int k) = true)
    (off : Nat) {bytes : Bytes} {olds : List Val} (hlen : olds.length = bytes.length / e.size)
    (b : Build State) :
    Host.copyRange native (.int k) (bytes.length / e.size) bytes b =
      Host.storeRange env (Layout.ofBits tag) (.int k) off (bytes.length / e.size) bytes olds
        b := by
  obtain rfl := copies_integer he h
  refine ((fillRange_eq_ok (hlen.trans List.length_range.symm)).2 ⟨_, ?_, rfl⟩).symm
  rw [List.map_map]
  refine List.map_congr_left fun i hi => ?_
  obtain ⟨x, hx, hholds, hload⟩ := @load_integer native k bytes i (List.mem_range.1 hi)
  exact (store_eq_ok he k off (List.mem_range.1 hi) _).2 ⟨x, hx, hholds, hload⟩

/-! ### The typed array -/

/-- A contiguous range of integers, of a fixed length or not. -/
def intRange (k : IntTy) : Option Nat → Ty
  | none => .seq .vector (.int k)
  | some m => .array m (.int k)

theorem rangeShape_intRange (k : IntTy) (fixed : Option Nat) :
    rangeShape (intRange k fixed) = (.int k, fixed) := by
  cases fixed <;> rfl

theorem shaped_intRange {k : IntTy} {fixed : Option Nat} {v : Val}
    (h : Shaped env (intRange k fixed) v) {m : Nat} (hm : m ∈ fixed) : v.items.length = m := by
  obtain rfl := Option.mem_def.1 hm
  exact (h.length rfl).trans List.length_replicate

theorem rfcIntegers_eq_some
    {tag : Nat} {e : ArrayElement} (he : rfc8746 tag = some e) {bytes : Bytes} {is : List Int} :
    rfcIntegers tag bytes = some is ↔ e.size ≠ 16 ∧ bytes.length % e.size = 0 ∧
      (List.range (bytes.length / e.size)).map
        (fun i => e.integer? (element e.size bytes i)) = is.map some := by
  have hmap : (List.range (bytes.length / e.size)).mapM
    (fun i => e.integer? (element e.size bytes i)) =
      ((List.range (bytes.length / e.size)).map fun i => e.integer? (element e.size bytes i)).mapM
        id := by
    rw [List.mapM_map]
    rfl
  rw [rfcIntegers, he, Option.bind_some, hmap, ← mapM_id_eq_some]
  split
  · rename_i h
    refine iff_of_false nofun fun hall => ?_
    rcases h with h | h
    · exact hall.1 h
    · exact h hall.2.1
  · rename_i h
    rw [not_or, not_not] at h
    rw [← and_assoc, and_iff_right h]

/-- A typed array is read if it holds integers that the type holds, as many as the range has, and
then the range holds them. -/
theorem typedArrayInto_iff
    (native : Endian) {tag : Nat} {e : ArrayElement} (he : rfc8746 tag = some e) {k : IntTy}
    {fixed : Option Nat} (bytes : Bytes) (off : Nat) {b b' : Build State}
    (hb : Shaped env (intRange k fixed) b.out) :
    Host.typedArrayInto env native tag bytes (intRange k fixed) off b = .ok () b' ↔
      ∃ is, rfcIntegers tag bytes = some is ∧ (∀ i ∈ is, k.Holds i) ∧ (∀ m ∈ fixed, m = is.length) ∧
        b' = { b with out := .seq (is.map .int) } := by
  have hcount : ∀ {is : List Int}, (List.range (bytes.length / e.size)).map
    (fun i => e.integer? (element e.size bytes i)) =
      is.map some → is.length = bytes.length / e.size := by
    intro is h
    have hlen := congrArg List.length h
    rw [List.length_map, List.length_map, List.length_range] at hlen
    exact hlen.symm
  simp only [rfcIntegers_eq_some he]
  unfold Host.typedArrayInto
  simp only [rangeShape_intRange, ofBits_size he]
  by_cases hwide : e.size = 16
  · rw [if_pos (ofBits_size he ▸ (ofBits_wide he).2 hwide)]
    refine iff_of_false nofun ?_
    rintro ⟨is, ⟨hne, -⟩, -⟩
    exact hne hwide
  rw [if_neg fun h => hwide h.2]
  by_cases hwhole : bytes.length % e.size ≠ 0
  · rw [if_pos hwhole]
    refine iff_of_false nofun ?_
    rintro ⟨is, ⟨-, hzero, -⟩, -⟩
    exact hwhole hzero
  rw [if_neg hwhole]
  by_cases hfixed : ∀ m ∈ fixed, m = bytes.length / e.size
  · rw [if_pos hfixed, Run.bind_of_ok (D.getOut_eq_ok.2 ⟨rfl, rfl⟩)]
    have holds :
      (if fixed.isSome then b.out.items else List.replicate (bytes.length / e.size)
      ((Ty.int k).zero env)).length =
        bytes.length / e.size := by
      cases fixed with
      | none => exact List.length_replicate
      | some m => exact (shaped_intRange hb rfl).trans (hfixed m rfl)
    have hstore : (if Host.copies native (Layout.ofBits tag) (.int k) = true then
          Host.copyRange native (.int k) (bytes.length / e.size) bytes
        else Host.storeRange env (Layout.ofBits tag) (.int k) off (bytes.length / e.size) bytes
          (if fixed.isSome then b.out.items else List.replicate (bytes.length / e.size)
            ((Ty.int k).zero env))) b =
        Host.storeRange env (Layout.ofBits tag) (.int k) off (bytes.length / e.size) bytes
          (if fixed.isSome then b.out.items else List.replicate (bytes.length / e.size)
            ((Ty.int k).zero env)) b := by
      split
      · rename_i hcopies
        exact copyRange_eq he hcopies off holds b
      · rfl
    rw [hstore, storeRange_eq_ok he k off holds]
    refine exists_congr fun is => ⟨?_, ?_⟩
    · rintro ⟨his, hholds, rfl⟩
      exact ⟨⟨hwide, not_not.1 hwhole, his⟩, hholds,
        fun m hm => (hfixed m hm).trans (hcount his).symm, rfl⟩
    · rintro ⟨⟨-, -, his⟩, hholds, -, rfl⟩
      exact ⟨his, hholds, rfl⟩
  · rw [if_neg hfixed]
    refine iff_of_false nofun ?_
    rintro ⟨is, ⟨-, -, his⟩, -, hlen, -⟩
    exact hfixed fun m hm => (hlen m hm).trans (hcount his)

/-! ### The little-endian host -/

theorem ofBits_eq {tag : Nat} (hlo : 64 ≤ tag) (hhi : tag ≤ 87) (hreserved : tag ≠ 76) :
    Layout.ofBits tag = Layout.of tag := by
  interval_cases tag
  case «76» => exact absurd rfl hreserved
  all_goals rfl

theorem beValue_eq (bs : Bytes) : beValue bs = Endian.big.value bs := by
  induction bs using List.reverseRecOn with
  | nil => rfl
  | append_singleton bs b ih =>
    rw [beValue_append_singleton, ih, Endian.value, Endian.value, Endian.arrange, Endian.arrange,
      List.reverse_append,
      List.reverse_singleton, List.singleton_append, List.map_cons, Nat.ofDigits_cons, Nat.mul_comm,
        Nat.add_comm]

theorem word_eq (l : Layout) (bs : Bytes) : l.word bs = l.order.value bs := by
  rw [Layout.word, Layout.order, beValue_eq]
  split
  · rw [Endian.value, Endian.value, Endian.arrange, Endian.arrange, List.reverse_reverse]
  · rfl

theorem words_eq (l : Layout) (n : Nat) (bytes : Bytes) :
    l.words n bytes = (List.range n).map fun i => l.word (element l.size bytes i) := by
  induction n generalizing bytes with
  | zero => rfl
  | succ n ih =>
    have hrest : (fun i => l.word (element l.size bytes i)) ∘ Nat.succ = fun i =>
      l.word (element l.size (bytes.drop l.size) i) := by
      funext i
      rw [Function.comp_apply, element, element, List.drop_drop, Nat.succ_mul, Nat.add_comm]
    rw [Layout.words, ih, List.range_succ_eq_map, List.map_cons, List.map_map, hrest, element,
      Nat.zero_mul, List.drop_zero]

theorem intOf_eq {l : Layout} (hpos : 0 < l.size) {w : Nat} (hw : w < 256 ^ l.size) :
    l.intOf w = if l.isSigned then (w : Int).bmod (256 ^ l.size) else w := by
  rw [Endian.pow_byte] at hw ⊢
  unfold Layout.intOf
  by_cases hsigned : l.isSigned = true
  · simp only [hsigned, true_and, if_true]
    split
    · rename_i hhalf
      rw [TwosComplement.bmod_of_half_le (by omega) hhalf hw]
      push_cast
      rfl
    · rename_i hhalf
      rw [TwosComplement.bmod_of_lt_half (by omega) (not_le.1 hhalf)]
  · simp only [hsigned, false_and, if_false, Bool.false_eq_true]

theorem fillElements_congr {f g : Nat → Except Error Val} {w : Nat → Nat} {is : List Nat}
    (h : ∀ i ∈ is, f i = g (w i)) (olds : List Val) :
    fillElements f is olds = fillElements g (is.map w) olds := by
  induction is generalizing olds with
  | nil => rfl
  | cons i is ih =>
    obtain ⟨hi, his⟩ := List.forall_mem_cons.1 h
    cases olds with
    | nil => rfl
    | cons old olds => rw [List.map_cons, fillElements, fillElements, hi, ih his]

theorem intOf_word_eq {l : Layout} (hpos : 0 < l.size) (hsize : l.size ≤ 8) {w : BitVec 64}
    (hw : w.toNat < 256 ^ l.size) :
    (if l.isSigned then (Host.signed l w).toInt else w.toNat) = l.intOf w.toNat := by
  rw [intOf_eq hpos hw]
  split
  · exact toInt_signed hpos hsize hw
  · rfl

theorem floatOf_eq {l : Layout} {w : BitVec 64} (hw : w.toNat < 256 ^ l.size) :
    Host.floatOf l w = l.floatOf w.toNat := by
  unfold Host.floatOf Layout.floatOf
  split
  · rename_i hhalf
    have hlt : w.toNat < 2 ^ 16 := by
      rw [hhalf] at hw
      exact hw
    rw [BitVec.toNat_setWidth, Nat.mod_eq_of_lt hlt]
  · split
    · rename_i hsingle
      have hlt : w.toNat < 2 ^ 32 := by
        rw [hsingle] at hw
        exact hw
      rw [BitVec.toNat_setWidth, Nat.mod_eq_of_lt hlt]
    · rfl

/-- An element is what its word stands for, where no single is copied. -/
theorem store_eq {tag : Nat} {e : ArrayElement} (he : rfc8746 tag = some e)
    (hwide : e.size ≠ 16) {t : Ty} (ht : typedArrayElement t = true)
    (hcopies : t = .float → Host.copies .little (Layout.ofBits tag) t = false)
    (off : Nat) {bytes : Bytes} {i : Nat} (hi : i < bytes.length / (Layout.ofBits tag).size) :
    Host.store env (Layout.ofBits tag) t off (Host.readWord (Layout.ofBits tag) bytes i) =
      (Layout.ofBits tag).element env t off
        ((Layout.ofBits tag).word (element (Layout.ofBits tag).size bytes i)) := by
  have hpos : 0 < (Layout.ofBits tag).size := Nat.pos_of_ne_zero fun h => by simp [h] at hi
  have hsize : (Layout.ofBits tag).size ≤ 8 := by
    rw [ofBits_size he]
    cases e with
    | integer signed n order => exact (ofBits_integer he).2.2
    | float n order => exact (ofBits_float he).2 hwide
  have hword := toNat_readWord hsize hi
  rw [word_eq, ← hword]
  have hlt := (Layout.ofBits tag).order.value_lt (element (Layout.ofBits tag).size bytes i)
  rw [element_length hi, ← hword] at hlt
  cases t with
  | int k =>
    cases e with
    | integer signed n order =>
      obtain ⟨hbits, -, -⟩ := ofBits_integer he
      have hvalue := intOf_eq hpos hlt
      rw [hword] at hvalue ⊢
      rw [hbits] at hi hpos hsize hvalue ⊢
      rw [order_eq _ order rfl] at hvalue ⊢
      obtain ⟨x, hx, hstore⟩ := @store_integer env order signed n hpos hsize k bytes i hi off
      rw [hstore, Layout.element, if_neg Bool.false_ne_true, hvalue]
      obtain rfl := Option.some.inj hx
      rfl
    | float n order =>
      rw [(ofBits_float he).1]
      rfl
  | float =>
    rw [Host.store, Layout.element, intOf_word_eq hpos hsize hlt, floatOf_eq hlt]
    by_cases hfloat : (Layout.ofBits tag).isFloat = true
    · have hdiffer : ¬ ((Layout.ofBits tag).size = 4 ∧ (Layout.ofBits tag).little = true) := by
        rintro ⟨hfour, hlittle⟩
        have hcopied : Host.copies .little (Layout.ofBits tag) .float = true := by
          simp [Host.copies, hfloat, hfour, Host.elementSize, Layout.order, hlittle]
        exact Bool.false_ne_true ((hcopies rfl).symm.trans hcopied)
      rw [if_pos hfloat, if_neg (not_not.2 hfloat), if_neg hdiffer]
    · rw [if_neg hfloat, if_pos hfloat]
  | double =>
    rw [Host.store, Layout.element, intOf_word_eq hpos hsize hlt, floatOf_eq hlt]
    all_goals
      intros
      rename_i h
      cases h
  | _ => cases ht

/-- The bytes of a float are copied as its word. -/
theorem load_float {l : Layout} {t : Ty} (ht : t = .float ∨ t = .double)
    (hcopies : Host.copies .little l t = true) (off : Nat) (bs : Bytes) :
    l.element env t off (l.word bs) = .ok (Host.load .little t bs) := by
  rcases ht with rfl | rfl
  · simp only [Host.copies, Host.elementSize, Bool.and_eq_true, beq_iff_eq] at hcopies
    obtain ⟨⟨hfloat, hsize⟩, horder⟩ := hcopies
    have hlittle : l.little = true := by
      by_contra h
      simp [Layout.order, h] at horder
    rw [Layout.element, if_neg (not_not.2 hfloat), if_pos ⟨hsize, hlittle⟩, word_eq, horder]
    rfl
  · simp only [Host.copies, Host.elementSize, Bool.and_eq_true, beq_iff_eq] at hcopies
    obtain ⟨⟨hfloat, hsize⟩, horder⟩ := hcopies
    have hfloatOf : l.floatOf (Endian.little.value bs) = doubleOfBits (Endian.little.value bs) := by
      rw [Layout.floatOf, hsize]
      rfl
    rw [word_eq, horder, Layout.element, if_pos hfloat, hfloatOf]
    · rfl
    all_goals
      intros
      rename_i h
      cases h

/-- On a little-endian host the words of a typed array are read as numbers. -/
theorem typedArrayInto_little
    {tag : Nat} (hlo : 64 ≤ tag) (hhi : tag ≤ 87) (hreserved : tag ≠ 76) {t : Ty}
    (ht : typedArrayElement (rangeShape t).1 = true)
    (bytes : Bytes) (off : Nat) {b : Build State}
    (hb : ∀ m ∈ (rangeShape t).2, b.out.items.length = m) :
    Host.typedArrayInto env .little tag bytes t off b = typedArrayInto env tag bytes t off b := by
  obtain ⟨e, he⟩ := rfc8746_isSome hlo hhi hreserved
  unfold Host.typedArrayInto typedArrayInto
  simp only [← ofBits_eq hlo hhi hreserved]
  split
  · rfl
  rename_i hwide
  rw [ofBits_wide he] at hwide
  split
  · rfl
  split
  swap
  · rfl
  rename_i hfixed
  generalize hl : Layout.ofBits tag = l
  have hgetOut : D.getOut b = .ok b.out b := D.getOut_eq_ok.2 ⟨rfl, rfl⟩
  rw [hl] at hfixed
  rw [Run.bind_of_ok hgetOut, Run.bind_of_ok hgetOut, words_eq]
  have holds : (if (rangeShape t).2.isSome then b.out.items
      else List.replicate (bytes.length / l.size) ((rangeShape t).1.zero env)).length =
        bytes.length / l.size := by
    cases hshape : (rangeShape t).2 with
    | none => exact List.length_replicate
    | some m => exact (hb m hshape).trans (hfixed m hshape)
  generalize (if (rangeShape t).2.isSome then b.out.items
      else List.replicate (bytes.length / l.size) ((rangeShape t).1.zero env)) = olds at holds
  have hstore : ((rangeShape t).1 = .float → Host.copies .little l (rangeShape t).1 = false) →
      Host.storeRange env l (rangeShape t).1 off (bytes.length / l.size) bytes olds b =
        fillRange (l.element env (rangeShape t).1 off)
          ((List.range (bytes.length / l.size)).map fun i => l.word (element l.size bytes i)) olds
            b := by
    intro hcopies
    subst hl
    unfold Host.storeRange fillRange
    rw [fillElements_congr (fun i hi => store_eq he hwide ht hcopies off (List.mem_range.1 hi))
      olds]
  split
  · rename_i hcopies
    have hsize : l.size = Host.elementSize (rangeShape t).1 := by
      simp only [Host.copies, Bool.and_eq_true, beq_iff_eq] at hcopies
      exact hcopies.1.2
    have hfloat : (rangeShape t).1 = .float ∨ (rangeShape t).1 = .double →
        Host.copyRange .little (rangeShape t).1 (bytes.length / l.size) bytes b =
          fillRange (l.element env (rangeShape t).1 off)
            ((List.range (bytes.length / l.size)).map fun i => l.word (element l.size bytes i)) olds
              b := by
      intro hreal
      refine ((fillRange_eq_ok ?_).2 ⟨_, ?_, rfl⟩).symm
      · rw [List.length_map, List.length_range, holds]
      · rw [List.map_map, List.map_map, ← hsize]
        exact List.map_congr_left fun i _ => load_float hreal hcopies off _
    generalize (rangeShape t).1 = elem at ht hcopies hstore hfloat
    cases elem with
    | int k =>
      refine Eq.trans ?_ (hstore nofun)
      subst hl
      rw [ofBits_size he] at holds ⊢
      exact copyRange_eq he hcopies off holds b
    | float => exact hfloat (.inl rfl)
    | double => exact hfloat (.inr rfl)
    | _ => cases ht
  · rename_i hcopies
    exact hstore fun _ => Bool.eq_false_iff.2 hcopies

/-! ### What is written -/

/-- Elements of one size lie one after the other. -/
theorem elements_flatMap {vs : List Val} {f : Val → Bytes} {n : Nat}
    (hn : ∀ v, v ∈ vs → (f v).length = n) :
    (List.range vs.length).map (element n (vs.flatMap f)) = vs.map f := by
  induction vs with
  | nil => rfl
  | cons v vs ih =>
    obtain ⟨hv, hvs⟩ := List.forall_mem_cons.1 hn
    have hrest : element n ((v :: vs).flatMap f) ∘ Nat.succ = element n (vs.flatMap f) := by
      funext i
      rw [Function.comp_apply, element, element, List.flatMap_cons, Nat.succ_mul,
        Nat.add_comm, ← List.drop_drop,
        List.drop_left' hv]
    have hfirst : element n ((v :: vs).flatMap f) 0 = f v := by
      rw [element, Nat.zero_mul, List.drop_zero, List.flatMap_cons, List.take_left' hv]
    rw [List.length_cons, List.range_succ_eq_map, List.map_cons, List.map_map, hrest, hfirst,
      ih hvs, List.map_cons]

/-- The bytes of an integer of the type have its value. -/
theorem integer?_bytes {k : IntTy} {i : Int} (hi : k.Holds i) (order : Endian) :
    (ArrayElement.integer k.signed k.width.bytes order).integer?
      (order.bytes k.width.bytes (i % 2 ^ k.width.bits).toNat) =
      some i := by
  have hpos : (0 : Int) < 2 ^ k.width.bits := by positivity
  have hnonneg := Int.emod_nonneg i hpos.ne'
  have hlast := Int.emod_lt_of_pos i hpos
  have hlt : (i % 2 ^ k.width.bits).toNat < 256 ^ k.width.bytes := by
    rw [pow_bytes]
    have hcast : ((2 ^ k.width.bits : Nat) : Int) = 2 ^ k.width.bits := by push_cast; rfl
    omega
  have hhalf := bits_half k.width
  obtain ⟨hmin, hmax⟩ := hi
  rw [IntTy.min] at hmin
  rw [IntTy.max] at hmax
  rw [ArrayElement.integer?, Endian.value_bytes order hlt, Int.toNat_of_nonneg hnonneg]
  cases hsigned : k.signed with
  | true =>
    rw [if_pos hsigned] at hmin hmax
    have hmod : (i % 2 ^ k.width.bits).bmod (256 ^ k.width.bytes) = i.bmod (2 ^ k.width.bits) := by
      rw [pow_bytes, ← Int.emod_bmod i]
      push_cast
      rfl
    rw [if_pos rfl, hmod, Int.bmod_eq_of_le]
    all_goals
      push_cast
      omega
  | false =>
    rw [if_neg (by simp [hsigned])] at hmin hmax
    rw [if_neg Bool.false_ne_true, Int.emod_eq_of_lt hmin (by omega)]

/-- The tag that is written names the elements of the type, in the order of the host. -/
theorem typedArrayTag_entry (native : Endian) (k : IntTy) :
    ∃ order, rfc8746 (Host.typedArrayTag native (.int k)) =
      some (.integer k.signed k.width.bytes order) ∧
      ∀ x, native.bytes k.width.bytes x = order.bytes k.width.bytes x := by
  obtain ⟨signed, width⟩ := k
  cases width with
  | w8 =>
    -- the order of a single byte is the same either way
    have hone : ∀ x, native.bytes 1 x = Endian.big.bytes 1 x := by
      intro x
      cases native <;> rfl
    cases signed with
    | true => exact ⟨.big, rfl, hone⟩
    | false => exact ⟨.big, rfl, hone⟩
  | w16 | w32 | w64 =>
    refine ⟨native, ?_, fun _ => rfl⟩
    cases signed <;> cases native <;> rfl

theorem typedArrayTag_range (native : Endian) (k : IntTy) :
    64 ≤ Host.typedArrayTag native (.int k) ∧ Host.typedArrayTag native (.int k) ≤ 87 ∧
      Host.typedArrayTag native (.int k) ≠ 76 := by
  obtain ⟨signed, width⟩ := k
  cases signed <;> cases width <;> cases native <;> decide

theorem represent_length (native : Endian) (k : IntTy) (i : Int) :
    (Host.represent native (.int k) (.int i)).length = k.width.bytes := Endian.length_bytes ..

/-- What is written holds the integers of the range. -/
theorem rfcIntegers_rangeData
    (native : Endian) {k : IntTy} (fixed : Option Nat) {is : List Int} (his : ∀ i ∈ is, k.Holds i) :
    rfcIntegers (Host.typedArrayTag native (.int k))
      (Host.rangeData native (intRange k fixed) (.seq (is.map .int))) = some is := by
  obtain ⟨order, he, hbytes⟩ := typedArrayTag_entry native k
  have hdata : Host.rangeData native (intRange k fixed) (.seq (is.map .int)) =
      (is.map Val.int).flatMap (Host.represent native (.int k)) := by
    rw [Host.rangeData, rangeShape_intRange]
    rfl
  have hlength : ∀ v ∈ is.map Val.int, (Host.represent native (.int k) v).length =
    k.width.bytes := by
    intro v hv
    obtain ⟨i, -, rfl⟩ := List.mem_map.1 hv
    exact represent_length native k i
  have htotal : ((is.map Val.int).flatMap (Host.represent native (.int k))).length =
    is.length * k.width.bytes := by
    rw [List.length_flatMap, List.map_congr_left hlength, List.map_const', List.sum_replicate_nat,
      List.length_map]
  have hpos : 0 < k.width.bytes := by
    cases k.width <;> decide
  have hcount : is.length * k.width.bytes / k.width.bytes = is.length := Nat.mul_div_cancel _ hpos
  rw [hdata, rfcIntegers_eq_some he]
  simp only [ArrayElement.size, htotal, hcount]
  refine ⟨?_, Nat.mul_mod_left _ _, ?_⟩
  · cases k.width <;> decide
  · have helements := elements_flatMap hlength
    rw [List.length_map, List.map_map] at helements
    have hcomp : (List.range is.length).map (fun i =>
          (ArrayElement.integer k.signed k.width.bytes order).integer?
            (element k.width.bytes ((is.map Val.int).flatMap (Host.represent native (.int k))) i)) =
        ((List.range is.length).map
          (element k.width.bytes ((is.map Val.int).flatMap (Host.represent native (.int k))))).map
          (ArrayElement.integer k.signed k.width.bytes order).integer? := by
      rw [List.map_map]
      rfl
    rw [hcomp, helements, List.map_map]
    refine List.map_congr_left fun i hi => ?_
    rw [Function.comp_apply, Function.comp_apply, Host.represent, hbytes]
    exact integer?_bytes (his i hi) order

/-- The bytes of a typed array. -/
def rangeItem (native : Endian) (t : Ty) (v : Val) : Bytes :=
  makeHead .tag (Host.typedArrayTag native (rangeShape t).1) ++
    (makeHead .bytes (Host.rangeData native t v).length ++ Host.rangeData native t v)

theorem writeRange_eq (native : Endian) (t : Ty) (v : Val) (w : Writer) :
    Host.writeRange native t v w = .ok ()
      ((w.modifyTop Frame.item).append (rangeItem native t v)) :=
  congrArg (EStateM.Result.ok ()) (Writer.append_append _ _ _)

/-- A range that lies ahead in the order of one host is restored on any other. -/
theorem readRange_back (there here : Endian) {k : IntTy} {fixed : Option Nat} {is : List Int}
    (his : ∀ i ∈ is, k.Holds i) (hfixed : ∀ m ∈ fixed, m = is.length)
    (hsize : (Host.rangeData there (intRange k fixed) (.seq (is.map .int))).length < 2 ^ 64)
    {o : Options} (haccept : o.acceptTypedArrays = true) {inp r : Bytes} {s : State}
    (hdepth : s.depth ≤ o.maxDepth)
    (hin : inp.drop s.pos = rangeItem there (intRange k fixed) (.seq (is.map .int)) ++ r)
    {old : Val} (hold : Shaped env (intRange k fixed) old) :
    ∃ u, Host.readRange env here o inp (intRange k fixed) { reader := s, out := old } =
        .ok true { reader := u, out := .seq (is.map .int) } ∧
      Same u (s.advance (rangeItem there (intRange k fixed) (.seq (is.map .int))).length) := by
  obtain ⟨hlo, hhi, hreserved⟩ := typedArrayTag_range there k
  have htag : (headOf (Host.typedArrayTag there (.int k))).value =
    Host.typedArrayTag there (.int k) := headOf_value (by omega)
  have hitem : rangeItem there (intRange k fixed) (.seq (is.map .int)) =
      (Item.tag (headOf (Host.typedArrayTag there (.int k)))
        (.str false (headOf (Host.rangeData there (intRange k fixed) (.seq (is.map .int))).length)
          (Host.rangeData there (intRange k fixed) (.seq (is.map .int))))).bytes := by
    have hlt : Host.typedArrayTag there (.int k) < 2 ^ 64 := by omega
    rw [rangeItem, rangeShape_intRange, ← headOf_bytes hlt, ← headOf_bytes hsize]
    rfl
  have hlies : Lies o inp (.tag (headOf (Host.typedArrayTag there (.int k)))
      (.str false (headOf (Host.rangeData there (intRange k fixed) (.seq (is.map .int))).length)
        (Host.rangeData there (intRange k fixed) (.seq (is.map .int))))) s
      (s.advance (rangeItem there (intRange k fixed) (.seq (is.map .int))).length) := by
    have htagged : Accepts o s.depth
      (.str false (headOf (Host.rangeData there (intRange k fixed) (.seq (is.map .int))).length)
        (Host.rangeData there (intRange k fixed) (.seq (is.map .int)))) :=
      .str ⟨(headOf_value hsize).symm, fun _ => trivial, fun _ => headOf_shortest _⟩
    refine ⟨.tag ⟨trivial, fun _ => trivial, fun _ => headOf_shortest _⟩ htagged, hdepth,
      ⟨r, hitem ▸ hin⟩, ?_⟩
    rw [← hitem]
    exact ⟨rfl, rfl⟩
  obtain ⟨u, hrange, hsame⟩ := hlies.rangeBytes (by omega) (by omega) (by omega)
  rw [htag] at hrange
  obtain ⟨order, he, -⟩ := typedArrayTag_entry there k
  refine ⟨u, ?_, hsame⟩
  have hinto :=
    (typedArrayInto_iff here he (Host.rangeData there (intRange k fixed) (.seq (is.map .int))) s.pos
    (b := { reader := u, out := old }) hold).2
      ⟨is, rfcIntegers_rangeData there fixed his, his, hfixed, rfl⟩
  unfold Host.readRange
  rw [if_neg (not_not.2 haccept), call_bind (b := { reader := s, out := old }) hrange]
  exact Run.bind_of_ok hinto _

/-- A range of integers is filled by exactly the typed arrays whose integers it holds, the copied
bytes are the elements that would have been stored, and what either host writes is restored on
either. -/
theorem typed_array_integers (env : Env) (k : IntTy) (fixed : Option Nat) :
    (∀ (native : Endian) (tag : Nat) (bytes : Bytes) (off : Nat) (b b' : Build State), 64 ≤ tag →
      tag ≤ 87 → tag ≠ 76 →
        Shaped env (intRange k fixed) b.out →
        (Host.typedArrayInto env native tag bytes (intRange k fixed) off b = .ok () b' ↔
          ∃ is, rfcIntegers tag bytes = some is ∧ (∀ i ∈ is, k.Holds i) ∧
            (∀ m ∈ fixed, m = is.length) ∧
            b' = { b with out := .seq (is.map .int) })) ∧
    (∀ (native : Endian) (tag : Nat) (bytes : Bytes) (off : Nat) (olds : List Val)
      (b : Build State),
        64 ≤ tag → tag ≤ 87 → tag ≠ 76 → Host.copies native (Layout.ofBits tag) (.int k) = true →
        olds.length = bytes.length / (Layout.ofBits tag).size →
        Host.copyRange native (.int k) (bytes.length / (Layout.ofBits tag).size) bytes b =
          Host.storeRange env (Layout.ofBits tag) (.int k) off
            (bytes.length / (Layout.ofBits tag).size) bytes olds b) ∧
    ∀ (there : Endian) (is : List Int), (∀ i ∈ is, k.Holds i) → (∀ m ∈ fixed, m = is.length) →
      (Host.rangeData there (intRange k fixed) (.seq (is.map .int))).length < 2 ^ 64 →
      ∃ item, (∀ w, Host.writeRange there (intRange k fixed) (.seq (is.map .int)) w =
            .ok () ((w.modifyTop Frame.item).append item)) ∧
        ∀ (here : Endian) (o : Options) (inp r : Bytes) (s : State) (old : Val),
          o.acceptTypedArrays = true →
          s.depth ≤ o.maxDepth → inp.drop s.pos = item ++ r → Shaped env (intRange k fixed) old →
          ∃ u, Host.readRange env here o inp (intRange k fixed) { reader := s, out := old } =
              .ok true { reader := u, out := .seq (is.map .int) } ∧
                Same u (s.advance item.length) := by
  refine ⟨?_, ?_, ?_⟩
  · intro native tag bytes off b b' hlo hhi hreserved hb
    obtain ⟨e, he⟩ := rfc8746_isSome hlo hhi hreserved
    exact typedArrayInto_iff native he bytes off hb
  · intro native tag bytes off olds b hlo hhi hreserved hcopies hlen
    obtain ⟨e, he⟩ := rfc8746_isSome hlo hhi hreserved
    rw [ofBits_size he] at hlen ⊢
    exact copyRange_eq he hcopies off hlen b
  · intro there is his hfixed hsize
    refine ⟨_, writeRange_eq there _ _, ?_⟩
    intro here o inp r s old haccept hdepth hin hold
    exact readRange_back there here his hfixed hsize haccept hdepth hin hold

/-- Two big-endian integers on a little-endian host. -/
theorem typed_array_integers_swapped :
    Host.typedArrayInto default .little 73 [0x01, 0x02, 0xFF, 0xFE] (intRange ⟨true, .w16⟩ none) 0
      { reader := {}, out := .seq [] } =
      .ok () { reader := {}, out := .seq [.int 258, .int (-2)] } := by
  refine ((typed_array_integers default ⟨true, .w16⟩ none).1 .little 73 _ 0 _ _ (by decide)
    (by decide) (by decide)
    (.whole rfl)).2 ⟨[258, -2], by decide, by decide, nofun, rfl⟩

end VCodec.Cbor
