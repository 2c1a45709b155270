import VCodec.Cbor.Head
import VCodec.Cbor.Options
import VCodec.Core.Lower
import VCodec.Library.ByteOrder
import VCodec.Library.Run
import Mathlib.Data.List.Sort

/-!
# The CBOR writer

The sink calls of the writer on its output and its stack of frames, innermost first. A buffered
frame collects its body; its head is written when it closes, with the entries of a map sorted by
their encoded keys. Output goes to the nearest buffered frame, or to the result.
-/

namespace VCodec.Cbor

/-- The extent of a key in the body of its map. -/
structure Entry where
  start : Nat
  keyEnd : Nat
  deriving DecidableEq, Repr

structure Frame where
  isMap : Bool := false
  /-- The body is collected and the head written at close. -/
  buffered : Bool := false
  /-- A break is due at close. -/
  indefinite : Bool := false
  items : Nat := 0
  body : Bytes := []
  /-- Of a map, one for each key. -/
  entries : List Entry := []
  deriving DecidableEq, Repr

structure Writer where
  out : Bytes := []
  frames : List Frame := []
  deriving DecidableEq, Repr

abbrev W := EStateM EncodeError Writer

/-- Append to the innermost buffered frame, if there is one. -/
def appendFrames (bs : Bytes) : List Frame → Option (List Frame)
  | [] => none
  | f :: fs =>
    if f.buffered then some ({ f with body := f.body ++ bs } :: fs) else (appendFrames bs fs).map
      (f :: ·)

namespace Writer

/-- Append to `cur()`. -/
def append (w : Writer) (bs : Bytes) : Writer :=
  match appendFrames bs w.frames with
  | some frames => { w with frames }
  | none => { w with out := w.out ++ bs }

/-- Change the innermost frame. -/
def modifyTop (w : Writer) (g : Frame → Frame) : Writer :=
  match w.frames with
  | [] => w
  | f :: fs => { w with frames := g f :: fs }

def pushFrame (w : Writer) (f : Frame) : Writer := { w with frames := f :: w.frames }

end Writer

def Frame.item (f : Frame) : Frame := { f with items := f.items + 1 }

def Frame.keyStart (f : Frame) : Frame :=
  if f.buffered then { f with entries := f.entries ++ [⟨f.body.length, 0⟩] } else f

def Frame.keyEnd (f : Frame) : Frame :=
  if f.buffered then
    { f with entries := f.entries.dropLast ++
      (f.entries.getLast?.map fun e => ⟨e.start, f.body.length⟩).toList }
  else f

section

variable (o : Options)

def append (bs : Bytes) : W Unit := modify (·.append bs)

def put (b : UInt8) : W Unit := append [b]

def head (m : Major) (v : Nat) : W Unit := append (makeHead m v)

/-- Called for every value that is an item of the innermost container. -/
def item : W Unit := modify (·.modifyTop Frame.item)

def keyStart : W Unit := modify (·.modifyTop Frame.keyStart)

def keyEnd : W Unit := modify (·.modifyTop Frame.keyEnd)

def encodeError (code : Errc) (message : Bytes) : EncodeError := { code, message }

def checkUtf8 (t : Bytes) : W Unit :=
  match validateUtf8 t with
  | some bad =>
    throw (encodeError .invalidUtf8
      (str "text string contains invalid UTF-8 at byte " ++ decimal bad))
  | none => pure ()

/-! ### Scalars -/

/-- The head of a signed integer, major type 0 or 1. -/
def intHead (i : Int) : Bytes :=
  if 0 ≤ i then makeHead .uint i.toNat else makeHead .nint (-1 - i).toNat

/-- `std::to_string` of a finite double: six decimals. -/
def decimalDouble (d : Double) : Bytes :=
  let n := Ieee.nearestEven (doubleFormat.units d.mag * 10 ^ 6) (2 ^ doubleFormat.scale)
  (if d.neg then [0x2D] else []) ++ decimal (n / 10 ^ 6) ++ [0x2E] ++
    (decimal (10 ^ 6 + n % 10 ^ 6)).tail

def floatMax : Nat := (2 ^ 24 - 1) * 2 ^ 104

def pinnedError (d : Double) (name : Bytes) (width : Bytes) : EncodeError :=
  encodeError .outOfRange (str "value " ++ decimalDouble d ++ str " does not fit a " ++ name ++
    str "-precision float ([[=cbor::float_width(" ++ width ++ str ")]])")

def halfBytes (h : Nat) : Bytes := 0xF9 :: be 2 h

def singleBytes (x : Single) : Bytes := 0xFA :: be 4 x.bits

def doubleBytes (d : Double) : Bytes := 0xFB :: be 8 d.bits

/-- The shortest of the three forms that keeps the value. -/
def preferredBytes (d : Double) : Bytes :=
  match toHalf d with
  | some h => halfBytes h
  | none => if fitsSingle d then singleBytes (singleOfDouble d) else doubleBytes d

def writeReal (d : Double) (w : FloatWidth) : W Unit :=
  let units := doubleFormat.units d.mag
  let finite := d.mag < doubleFormat.infMag
  match w with
  | .preferred => append (preferredBytes d)
  | .half =>
    if finite ∧ 65520 * 2 ^ doubleFormat.scale ≤
      units then throw (pinnedError d (str "half") (str "half"))
    else append (halfBytes (toHalfRounded d))
  | .single =>
    if finite ∧ floatMax * 2 ^ doubleFormat.scale <
      units then throw (pinnedError d (str "single") (str "single"))
    else append (singleBytes (singleOfDouble d))
  | .double => append (doubleBytes d)

def null : W Unit := do
  item
  put 0xF6

def boolean (b : Bool) : W Unit := do
  item
  put (if b then 0xF5 else 0xF4)

def uint (u : Nat) : W Unit := do
  item
  head .uint u

def sint (i : Int) : W Unit := do
  item
  append (intHead i)

def real (d : Double) : W Unit := do
  item
  writeReal d o.floats

/-- The hook of a member with a pinned width. -/
def realField (width : Option FloatWidth) (d : Double) : W Unit := do
  item
  writeReal d (width.getD o.floats)

/-- A negative integer `-1 - n` by its raw argument. -/
def negative (n : Nat) : W Unit := do
  item
  head .nint n

/-- An unassigned simple value, 0–19 or 32–255. -/
def simple (v : UInt8) : W Unit :=
  if 20 ≤ v.toNat ∧ v.toNat ≤ 31 then
    throw (encodeError .unsupportedSimpleValue
      (str "simple value " ++ decimal v.toNat ++ str " is reserved or has its own representation"))
  else do
    item
    if v.toNat < 24 then put (initialByte .simple v.toNat) else append [0xF8, v]

/-- Not an item: it prefixes one. -/
def tag (t : Nat) : W Unit := head .tag t

/-! ### Strings -/

def text (t : Bytes) : W Unit := do
  item
  if o.validateUtf8 then checkUtf8 t
  append (makeHead .text t.length ++ t)

def bytes (b : Bytes) : W Unit := do
  item
  append (makeHead .bytes b.length ++ b)

def chunkSize : Nat := 4096

/-- The definite-length chunks of a string. The first argument bounds their number. -/
def chunks (m : Major) : Nat → Bytes → Bytes
  | 0, _ => []
  | n + 1, t =>
    if t = [] then []
    else
      let c := t.take chunkSize
      makeHead m c.length ++ c ++ chunks m n (t.drop chunkSize)

/-- The hook of a member with `cbor::indefinite`. -/
def textField (indefinite : Bool) (t : Bytes) : W Unit :=
  if indefinite ∧ ¬ o.deterministic then do
    item
    if o.validateUtf8 then checkUtf8 t
    append (0x7F :: (chunks .text t.length t ++ [breakByte]))
  else text o t

def bytesField (indefinite : Bool) (b : Bytes) : W Unit :=
  if indefinite ∧ ¬ o.deterministic then do
    item
    append (0x5F :: (chunks .bytes b.length b ++ [breakByte]))
  else bytes b

/-- A typed array: one tag and one byte string with the elements as they lie in memory. -/
def writeRange (tag : Nat) (data : Bytes) : W Unit := do
  item
  head .tag tag
  append (makeHead .bytes data.length ++ data)

/-! ### Keys -/

def key (k : Bytes) : W Unit := do
  keyStart
  if o.validateUtf8 then checkUtf8 k
  append (makeHead .text k.length ++ k)
  keyEnd

def keyUint (k : Nat) : W Unit := do
  keyStart
  head .uint k
  keyEnd

def keySint (k : Int) : W Unit := do
  keyStart
  append (intHead k)
  keyEnd

def beginKey : W Unit := keyStart

def endKey : W Unit := keyEnd

/-- A key encoded at compile time. -/
def preparedKey (name : Bytes) : W Unit := do
  keyStart
  append (makeHead .text name.length ++ name)
  keyEnd

def preparedIntKey (k : Int) : W Unit := do
  keyStart
  append (intHead k)
  keyEnd

/-! ### Containers -/

def nestingError : EncodeError :=
  encodeError .depthExceeded (str "nesting depth exceeds max_depth (" ++ decimal o.maxDepth ++
    str "); a cycle through smart pointers is the usual cause")

def openFrame (m : Major) (n : Option Nat) (isMap : Bool) : W Unit := fun w =>
  if o.maxDepth ≤ w.frames.length then .error (nestingError o) w
  else if o.deterministic then
    -- maps are buffered to sort, unsized arrays to count
    match (if isMap then none else n) with
    | none => .ok () (w.pushFrame { isMap, buffered := true })
    | some n => .ok () ((w.append (makeHead m n)).pushFrame { isMap })
  else
    match (if o.indefinite then none else n) with
    | some n => .ok () ((w.append (makeHead m n)).pushFrame { isMap })
    | none => .ok () ((w.append (makeIndefiniteHead m)).pushFrame { isMap, indefinite := true })

/-- An entry of a buffered map: the bytes of its key, and of its key and value. -/
structure Slice where
  key : Bytes
  whole : Bytes
  deriving DecidableEq, Repr

/-- The bytes from `start` up to `stop`. -/
def span (body : Bytes) (start stop : Nat) : Bytes := (body.drop start).take (stop - start)

/-- Every entry ends where the next one starts, and the last where the body ends. -/
def slices (body : Bytes) : List Entry → List Slice
  | [] => []
  | e :: es =>
    let stop := match es with
      | [] => body.length
      | e' :: _ => e'.start
    ⟨span body e.start e.keyEnd, span body e.start stop⟩ :: slices body es

/-- Stable sort by the bytewise order of the keys. -/
def sortSlices (s : List Slice) : List Slice := s.insertionSort fun a b => a.key ≤ b.key

def hasRepeat : List Slice → Bool
  | a :: b :: s => a.key = b.key || hasRepeat (b :: s)
  | _ => false

def duplicateError : EncodeError :=
  encodeError .duplicateKey (str "deterministic encoding forbids duplicate map keys")

def close : W Unit := fun w =>
  match w.frames with
  | [] => .ok () w
  | f :: fs =>
    let w := { w with frames := fs }
    if f.indefinite then .ok () (w.append [breakByte])
    else if ¬ f.buffered then .ok () w
    else if f.isMap then
      let order := sortSlices (slices f.body f.entries)
      if hasRepeat order then .error duplicateError w
      else .ok () (w.append (makeHead .map order.length ++ order.flatMap Slice.whole))
    else .ok () (w.append (makeHead .array f.items ++ f.body))

def beginArray (n : Option Nat) : W Unit := do
  item
  openFrame o .array n false

def endArray : W Unit := close

def beginMap (n : Option Nat) : W Unit := do
  item
  openFrame o .map n true

def endMap : W Unit := close

/-- The hooks of a container member with `cbor::indefinite`. -/
def beginArrayField (indefinite : Bool) (n : Option Nat) : W Unit :=
  beginArray o (if indefinite ∧ ¬ o.deterministic then none else n)

def beginMapField (indefinite : Bool) (n : Option Nat) : W Unit :=
  beginMap o (if indefinite ∧ ¬ o.deterministic then none else n)

/-- A map that is not buffered even under deterministic encoding. -/
def openOrdered (n : Nat) : W Unit := fun w =>
  if o.maxDepth ≤ w.frames.length then .error (nestingError o) w
  else .ok () ((w.append (makeHead .map n)).pushFrame { isMap := true })

/-- The members of a struct arrive in canonical order: no buffering. -/
def beginMapOrdered (n : Option Nat) : W Unit := do
  item
  match (if o.deterministic ∨ ¬ o.indefinite then n else none) with
  | some n => openOrdered o n
  | none => openFrame o .map n true

end

end VCodec.Cbor
