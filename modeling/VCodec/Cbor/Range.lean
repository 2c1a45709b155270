import VCodec.Cbor.Read
import VCodec.Core.Reader

/-!
# Typed arrays

The bulk form of a numeric range, RFC 8746: one tagged byte string. The tag gives the width, the
sign and the byte order of the elements; the host is little-endian.
-/

namespace VCodec.Cbor

open D

/-- `typed_array_element`. -/
def typedArrayElement : Ty → Bool
  | .int _ | .float | .double => true
  | _ => false

/-- `typed_array_range`: a contiguous range of such elements. -/
def typedArrayRange : Ty → Bool
  | .seq .vector t | .array _ t => typedArrayElement t
  | _ => false

/-- The tag of a range of the element type in native byte order. -/
def typedArrayTag : Ty → Nat
  | .float => 85
  | .double => 86
  | .int ⟨true, w⟩ => match w with | .w8 => 72 | .w16 => 77 | .w32 => 78 | .w64 => 79
  | .int ⟨false, w⟩ => match w with | .w8 => 64 | .w16 => 69 | .w32 => 70 | .w64 => 71
  | _ => 0

/-- What a typed array tag says of the elements. -/
structure Layout where
  isFloat : Bool
  little : Bool
  size : Nat
  isSigned : Bool
  deriving DecidableEq, Repr

def Layout.of (tag : Nat) : Layout :=
  let isFloat : Bool := 80 ≤ tag
  let little : Bool := if isFloat then 84 ≤ tag else tag / 4 % 2 = 1
  { isFloat, little
    size := if isFloat then 2 * 2 ^ (tag - if little then 84 else 80) else 2 ^ (tag % 4)
    isSigned := ¬ isFloat ∧ 72 ≤ tag }

def Layout.word (l : Layout) (bs : Bytes) : Nat := beValue (if l.little then bs.reverse else bs)

/-- The words of a byte string that holds `n` of them. -/
def Layout.words (l : Layout) : Nat → Bytes → List Nat
  | 0, _ => []
  | n + 1, bs => l.word (bs.take l.size) :: l.words n (bs.drop l.size)

/-- The value of a word that is no float. -/
def Layout.intOf (l : Layout) (w : Nat) : Int :=
  if l.isSigned ∧ 2 ^ (8 * l.size - 1) ≤ w then (w : Int) - 2 ^ (8 * l.size) else w

def Layout.floatOf (l : Layout) (w : Nat) : Double :=
  if l.size = 2 then fromHalf w else if l.size =
    4 then doubleOfSingle (singleOfBits w) else doubleOfBits w

/-- `static_cast` of an integer to a floating type. -/
def singleOfInt (i : Int) : Single := .ofRatio singleFormat (i < 0) i.natAbs 1

def doubleOfInt (i : Int) : Double := .ofRatio doubleFormat (i < 0) i.natAbs 1

variable (env : Env)

/-- A word as an element of the range. -/
def Layout.element (l : Layout) (t : Ty) (off w : Nat) : Except Error Val :=
  match t with
  | .int k =>
    if l.isFloat then
      .error (((error .typeMismatch off).withExpected (str "integer typed array")).withFound
        (str "float typed array"))
    else if k.min ≤ l.intOf w ∧ l.intOf w ≤ k.max then .ok (.int (l.intOf w))
    else .error (((error .outOfRange off).withDetail (decimalInt (l.intOf w))).withContext
      (env.display (.int k)))
  | .float =>
    if ¬ l.isFloat then .ok (.single (singleOfInt (l.intOf w)))
    -- elements of the same representation are copied
    else if l.size = 4 ∧ l.little then .ok (.single (singleOfBits w))
    else .ok (.single (singleOfDouble (l.floatOf w)))
  | _ => .ok (.real (if l.isFloat then l.floatOf w else doubleOfInt (l.intOf w)))

/-- Overwrite the elements one by one, up to the first word that does not fit. -/
def fillElements (element : Nat → Except Error Val) : List Nat → List Val → List Val × Option Error
  | w :: ws, old :: olds =>
    match element w with
    | .ok v =>
      let filled := fillElements element ws olds
      (v :: filled.1, filled.2)
    | .error e => (old :: olds, some e)
  | _, olds => (olds, none)

/-- The element type of a range, and its length if that is fixed. -/
def rangeShape : Ty → Ty × Option Nat
  | .seq _ t => (t, none)
  | .array n t => (t, some n)
  | t => (t, none)

def fillRange (element : Nat → Except Error Val) (ws : List Nat) (olds : List Val) : D State Unit :=
  fun b =>
  let filled := fillElements element ws olds
  match filled.2 with
  | none => .ok () { b with out := .seq filled.1 }
  | some e => .error (.error e) { b with out := .seq filled.1 }

def typedArrayInto (tag : Nat) (bytes : Bytes) (t : Ty) (off : Nat) : D State Unit :=
  let l := Layout.of tag
  let n := bytes.length / l.size
  let elem := (rangeShape t).1
  if l.isFloat ∧ l.size = 16 then
    fail (((error .typeMismatch off).withExpected
      (str "typed array of a supported width")).withFound
      (str "float128 typed array"))
  else if bytes.length % l.size ≠ 0 then
    fail ((error .malformedItem off).withDetail
      (str "typed array length is not a multiple of the element size"))
  else if ∀ m ∈ (rangeShape t).2, m = n then do
    let out ← getOut
    let olds := if (rangeShape t).2.isSome then out.items else List.replicate n (elem.zero env)
    fillRange (l.element env elem off) (l.words n bytes) olds
  else
    fail (((error .typeMismatch off).withExpected
      (str "array of " ++ decimal ((rangeShape t).2.getD 0) ++ str " elements")).withFound
      (str "array of " ++ decimal n ++ str " elements"))

section

variable (o : Options) (inp : Bytes)

/-- Run behind a head, and return to it on failure. -/
def behind {α : Type} (h : ParsedHead) (m : M α) : M α := fun s =>
  match m (s.advance h.length) with
  | .ok a s' => .ok a s'
  | .error e s' => .error e { s' with pos := s.pos }

/-- The tag and the bytes of a typed array, if one comes next, and where it starts. -/
def rangeBytes : M (Option (Nat × Bytes × Nat)) := do
  let h ← rawHead inp
  if h.mt ≠ .tag ∨ h.value < 64 ∨ 87 < h.value ∨ h.value = 76 then return none
  else do
    let start := (← get).pos
    let b ← behind h (expectBytes o inp)
    return some (h.value, b.bytes, start)

def readRange (t : Ty) : D State Bool :=
  if ¬ o.acceptTypedArrays then return false
  else do
    let range ← call (rangeBytes o inp)
    match range with
    | none => return false
    | some (tag, bytes, start) => do
      typedArrayInto env tag bytes t start
      return true

end

end VCodec.Cbor
