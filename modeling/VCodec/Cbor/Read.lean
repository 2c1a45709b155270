import VCodec.Cbor.Grammar
import VCodec.Cbor.Options
import VCodec.Core.Model
import VCodec.Library.Run

/-!
# The CBOR reader

The reader's operations on its position, depth and error list, over an input and options that do not
change. An operation is a run of `EStateM Error State`, so a failure leaves the state where the code
leaves the object. A loop of the code runs on the bytes that are left: every round consumes one, and
with none left it reports what the code reports at the end of the input.
-/

namespace VCodec.Cbor

structure State where
  pos : Nat := 0
  depth : Nat := 0
  /-- Offset of the current item's head, after skipped tags. -/
  start : Nat := 0
  collected : List Error := []
  deriving DecidableEq, Repr

abbrev M := EStateM Error State

/-- Position in the low 48 bits of a 64-bit word, depth above it. -/
def State.save (s : State) : Nat := s.pos ||| (s.depth * 2 ^ 48 % 2 ^ 64)

def State.restore (s : State) (n : Nat) : State := { s with pos := n % 2 ^ 48, depth := n / 2 ^ 48 }

def State.advance (s : State) (n : Nat) : State := { s with pos := s.pos + n }

/-! ### Texts of errors -/

def error (code : Errc) (offset : Nat) : Error := { code, offset }

/-- `-1 - n` as decimal. -/
def negativeText (n : Nat) : Bytes := 0x2D :: decimal (n + 1)

def tagText (t : Nat) : Bytes :=
  str "tag " ++ decimal t ++ if (tagName t).isEmpty then [] else str " (" ++ tagName t ++ str ")"

def hexDigit (n : Nat) : UInt8 := UInt8.ofNat (if n < 10 then 0x30 + n else 0x61 + (n - 10))

def diag (key : Bytes) : Bytes :=
  let h := parseHead key 0
  if h.length ≠ 0 ∧ h.mt = .uint then decimal h.value
  else if h.length ≠ 0 ∧ h.mt = .nint then negativeText h.value
  else if h.length ≠ 0 ∧ h.mt = .text then str "\"" ++ key.drop h.length ++ str "\""
  else str "h'" ++ key.flatMap (fun b => [hexDigit (b.toNat / 16), hexDigit (b.toNat % 16)]) ++
    str "'"

def foundName (h : ParsedHead) : Bytes :=
  if h.mt = .simple then
    if h.ai = 20 ∨ h.ai = 21 then str "boolean"
    else if h.ai = 22 then str "null"
    else if h.ai = 23 then str "undefined"
    else if 25 ≤ h.ai ∧ h.ai ≤ 27 then str "float"
    else str "simple value " ++ decimal h.value
  else majorName h.mt

def floatName (ai : Nat) : Bytes :=
  if ai = 25 then str "half" else if ai = 26 then str "single" else str "double"

section

variable (o : Options) (inp : Bytes)

def itemLength (pos : Nat) (h : ParsedHead) : Nat :=
  if h.mt = .bytes ∨ h.mt = .text then
    if h.indefinite then h.length else min ((h.length + h.value) % 2 ^ 64) (inp.length - pos)
  else h.length

def typeError (pos : Nat) (expected : Bytes) (h : ParsedHead) : Error :=
  (((error .typeMismatch pos).withExpected expected).withFound (foundName h)).withLength
    (itemLength inp pos h)

def depthError (pos : Nat) : Error :=
  ((error .depthExceeded pos).withDetail (decimal o.maxDepth)).withLength 1

def breakError (pos : Nat) : Error :=
  ((error .malformedItem pos).withDetail (str "break outside an indefinite-length item")).withLength
    1

def reservedError (pos : Nat) : Error :=
  ((error .malformedItem pos).withDetail (str "reserved additional information")).withLength 1

def simpleError (pos : Nat) : Error :=
  ((error .malformedItem pos).withDetail (str "two-byte simple value below 32")).withLength 2

def indefiniteError (pos : Nat) (m : Major) : Error :=
  (((error .nonDeterministic pos).withDetail
    (str "indefinite-length " ++ majorName m)).withSuggestion
    (str "deterministic encoding requires definite lengths")).withLength 1

/-! ### Determinism -/

def shortestError (pos : Nat) (h : ParsedHead) : Error :=
  let v := if h.mt = .nint then negativeText h.value else decimal h.value
  let need := if h.value < 24 then 1 else if h.value ≤ 0xFF then 2 else if h.value ≤ 0xFFFF then 3
    else if h.value ≤ 0xFFFFFFFF then 5 else 9
  (((error .nonDeterministic pos).withDetail
    (str "integer " ++ v ++ str " encoded in " ++ decimal h.length ++ str " bytes")).withSuggestion
    (str "shortest form is " ++ decimal need ++
      str (if need = 1 then " byte" else " bytes"))).withLength h.length

def checkHeadDeterministic (h : ParsedHead) (pos : Nat) : Option Error :=
  if h.indefinite then some (indefiniteError pos h.mt)
  else if ¬ h.shortest ∧ h.mt ≠ .simple then some (shortestError pos h)
  else none

def floatErrorLength (ai : Nat) : Nat := 1 + if ai = 25 then 2 else if ai = 26 then 4 else 8

def nanError (pos ai : Nat) : Error :=
  (((error .nonDeterministic pos).withDetail (str "NaN not encoded as f97e00")).withSuggestion
    (str "deterministic encoding uses the canonical half NaN")).withLength (floatErrorLength ai)

def floatError (pos ai need : Nat) : Error :=
  (((error .nonDeterministic pos).withDetail
    (str "float encoded as " ++ floatName ai)).withSuggestion
    (str "preferred form is " ++ floatName need)).withLength (floatErrorLength ai)

def checkPreferredFloat (d : Double) (ai raw pos : Nat) : Option Error :=
  if d.isNan then if ¬ (ai = 25 ∧ raw = 0x7E00) then some (nanError pos ai) else none
  else if ai ≠ preferredAi d then some (floatError pos ai (preferredAi d))
  else none

def keyError (cur prev : Bytes) (start : Nat) : Error :=
  let equal := cur = prev
  (((error .nonDeterministic start).withDetail
    (str (if equal then "duplicate map key" else "map keys out of canonical order"))).withSuggestion
    (str "key " ++ diag cur ++
      (if equal then str " repeats" else str " precedes key " ++ diag prev))).withLength cur.length

def keyOrderError (cur prev : Bytes) (start : Nat) : Option Error :=
  if cur < prev ∨ cur = prev then some (keyError cur prev start) else none

/-- The error of a check that counts only if the options ask for deterministic encoding. -/
def whenStrict (e : Option Error) : Option Error := if o.requireDeterministic then e else none

/-! ### Heads -/

/-- Where the head of the next item stands behind its ignorable tags, and the head. -/
def scanHead (expected : Bytes) : Nat → Nat → Except Error (Nat × ParsedHead)
  | 0, p => .error ((error .truncated p).withExpected expected)
  | fuel + 1, p =>
    if inp.length ≤ p then .error ((error .truncated p).withExpected expected)
    else
      let h := parseHead inp p
      if h.length = 0 then .error ((error .truncated p).withExpected expected)
      else if h.isBreak then .error (breakError p)
      else if h.reserved then .error (reservedError p)
      else if h.mt = .tag then
        if o.ignoreUnknownTags then scanHead expected fuel (p + h.length)
        else .error
          ((((error .tagMismatch p).withExpected (str "no tag")).withFound
          (tagText h.value)).withLength
          h.length)
      else if h.mt = .simple ∧ h.ai = 24 ∧ h.value < 32 then .error (simpleError p)
      else
        match whenStrict o (checkHeadDeterministic h p) with
        | some e => .error e
        | none => .ok (p, h)

/-- Head of the next item; nothing is consumed but the tags before it. -/
def itemHead (expected : Bytes) : M ParsedHead := fun s =>
  match scanHead o inp expected (inp.length - s.pos) s.pos with
  | .ok (p, h) => .ok h { s with pos := p, start := p }
  | .error e => .error e s

/-- Head without tag skipping. -/
def rawHead : M ParsedHead := fun s =>
  let h := parseHead inp s.pos
  if inp.length ≤ s.pos then .error (error .truncated s.pos) s
  else if h.length = 0 then .error (error .truncated s.pos) s
  else if h.reserved then .error (reservedError s.pos) s
  else if h.isBreak then .error (breakError s.pos) s
  else .ok h s

def peekFrom : Nat → Nat → Kind
  | 0, _ => .undefined
  | fuel + 1, p =>
    let h := parseHead inp p
    if h.length = 0 ∨ h.reserved ∨ h.isBreak then .undefined
    else
      match h.mt with
      | .tag => if o.ignoreUnknownTags then peekFrom fuel (p + h.length) else .tag
      | .uint => .uint
      | .nint => .sint
      | .bytes => .bytes
      | .text => .text
      | .array => .array
      | .map => .map
      | .simple =>
        if h.ai = 20 ∨ h.ai = 21 then .boolean
        else if h.ai = 22 then .null
        else if h.ai = 23 then (if o.undefinedAsNull then .null else .undefined)
        else if 25 ≤ h.ai ∧ h.ai ≤ 27 then .real
        else .undefined

def peek (s : State) : Kind := peekFrom o inp (inp.length - s.pos) s.pos

/-! ### Scalars -/

def consume (h : ParsedHead) : M Unit := modify (·.advance h.length)

def throwType (expected : Bytes) (h : ParsedHead) {α : Type} : M α := fun s =>
  .error (typeError inp s.pos expected h) s

def throwRange (detail : Bytes) (h : ParsedHead) {α : Type} : M α := fun s =>
  .error (((error .outOfRange s.pos).withDetail detail).withLength h.length) s

def expectNull : M Unit := do
  let h ← itemHead o inp (str "null")
  if h.mt = .simple ∧ (h.ai = 22 ∨ (o.undefinedAsNull ∧ h.ai = 23)) then consume h
  else throwType inp (str "null") h

def expectBoolean : M Bool := do
  let h ← itemHead o inp (str "boolean")
  if h.mt = .simple ∧ (h.ai = 20 ∨ h.ai = 21) then do
    consume h
    return h.ai = 21
  else throwType inp (str "boolean") h

def expectUint : M Nat := do
  let h ← itemHead o inp (str "unsigned integer")
  if h.mt = .uint then do
    consume h
    return h.value
  else if h.mt = .nint then throwRange (negativeText h.value) h
  else throwType inp (str "unsigned integer") h

def expectSint : M Int := do
  let h ← itemHead o inp (str "integer")
  if h.mt = .uint then
    if int64Max < h.value then throwRange (decimal h.value) h
    else do
      consume h
      return (h.value : Int)
  else if h.mt = .nint then
    if int64Max < h.value then throwRange (negativeText h.value) h
    else do
      consume h
      return -1 - (h.value : Int)
  else throwType inp (str "integer") h

def expectSimple : M Nat := do
  let h ← itemHead o inp (str "simple value")
  if h.mt ≠ .simple ∨ (20 ≤ h.ai ∧ h.ai ≤ 23) ∨
    (25 ≤ h.ai ∧ h.ai ≤ 27) then throwType inp (str "simple value") h
  else do
    consume h
    return h.value % 256

def expectNint : M Nat := do
  let h ← itemHead o inp (str "negative integer")
  if h.mt ≠ .nint then throwType inp (str "negative integer") h
  else do
    consume h
    return h.value

/-- `double(n)` for an unsigned integer. -/
def doubleOfNat (n : Nat) : Double := .ofRatio doubleFormat false n 1

/-- `-1.0 - d` for a double that is a non-negative integer. -/
def negOneMinus (d : Double) : Double :=
  .ofRatio doubleFormat true (2 ^ doubleFormat.scale + doubleFormat.units d.mag)
    (2 ^ doubleFormat.scale)

def expectReal : M Double := do
  let h ← itemHead o inp (str "float")
  if h.mt = .uint then do
    consume h
    return doubleOfNat h.value
  else if h.mt = .nint then do
    consume h
    return negOneMinus (doubleOfNat h.value)
  else if h.mt = .simple ∧ 25 ≤ h.ai ∧ h.ai ≤ 27 then do
    let d := floatOf h.ai h.value
    let s ← get
    match whenStrict o (checkPreferredFloat d h.ai h.value s.pos) with
    | some e => throw e
    | none => do
      consume h
      return d
  else throwType inp (str "float") h

/-! ### Strings -/

def stringBytesError (pos : Nat) (h : ParsedHead) : Error :=
  ((error .truncated pos).withExpected (decimal h.value ++ str " string bytes")).withLength h.length

/-- The chunks of an indefinite-length string, appended to the scratch buffer. -/
def readChunks (major : Major) : Nat → Bytes → M Bytes
  | 0, _ => fun s => .error ((error .truncated s.pos).withExpected (str "string chunk or break")) s
  | fuel + 1, scratch => fun s =>
    if inp.length ≤ s.pos then .error
      ((error .truncated s.pos).withExpected (str "string chunk or break")) s
    else if (inp.drop s.pos).head? = some breakByte then .ok scratch (s.advance 1)
    else
      let c := parseHead inp s.pos
      let span := (inp.drop (s.pos + c.length)).take c.value
      if c.length = 0 then .error (error .truncated s.pos) s
      else if c.mt ≠ major ∨ c.indefinite then
        .error (((error .malformedItem s.pos).withDetail (str
          "indefinite-length string chunk must be a definite-length string of the same type")).withLength c.length) s
      else if inp.length - s.pos - c.length < c.value then .error (stringBytesError s.pos c) s
      else
        match (if o.validateUtf8 ∧ major = .text then validateUtf8 span else none) with
        | some bad => .error ((error .invalidUtf8 (s.pos + c.length + bad)).withLength 1) s
        | none => readChunks major fuel (scratch ++ span) (s.advance (c.length + c.value))

/-- A definite or indefinite string, and whether it was assembled from chunks. -/
def readString (h : ParsedHead) (major : Major) : M (Bytes × Bool) := fun s =>
  if ¬ h.indefinite then
    if inp.length - s.pos - h.length < h.value then .error (stringBytesError s.pos h) s
    else .ok ((inp.drop (s.pos + h.length)).take h.value, false) (s.advance (h.length + h.value))
  else if o.requireDeterministic then .error (indefiniteError s.pos h.mt) s
  else
    match readChunks o inp major (inp.length - (s.pos + h.length)) [] (s.advance h.length) with
    | .ok scratch s => .ok (scratch, true) s
    | .error e s => .error e s

def expectText : M TextRef := do
  let h ← itemHead o inp (str "text string")
  if h.mt ≠ .text then throwType inp (str "text string") h
  else do
    let r ← readString o inp h .text
    let s ← get
    match (if o.validateUtf8 then validateUtf8 r.1 else none) with
    | some bad =>
      throw ((error .invalidUtf8 (s.start + if r.2 then 0 else h.length + bad)).withLength 1)
    | none => return { text := r.1, borrowed := !r.2, rawLength := s.pos - s.start }

def expectBytes : M BytesRef := do
  let h ← itemHead o inp (str "byte string")
  if h.mt ≠ .bytes then throwType inp (str "byte string") h
  else do
    let r ← readString o inp h .bytes
    return { bytes := r.1, borrowed := !r.2 }

/-! ### Tags -/

def throwTag (expected : Bytes) (h : ParsedHead) {α : Type} : M α := fun s =>
  .error ((((error .tagMismatch s.pos).withExpected expected).withFound
    (if h.mt = .tag then tagText h.value else str "no tag")).withLength h.length) s

def expectTags : List Nat → M Unit
  | [] => pure ()
  | t :: ts => do
    let h ← rawHead inp
    if h.mt ≠ .tag ∨ h.value ≠ t then throwTag (tagText t) h
    else do
      consume h
      expectTags ts

/-! ### Big numbers -/

structure BignumRef where
  /-- Tag 3: the value is `-1 - n`. -/
  negative : Bool
  /-- Big-endian. -/
  magnitude : Bytes
  deriving DecidableEq, Repr

def throwBignum (h : ParsedHead) {α : Type} : M α := fun s =>
  .error ((((error .tagMismatch s.pos).withExpected (str "tag 2 or 3 (bignum)")).withFound
    (foundName h)).withLength
    h.length) s

/-- The byte string behind the tag `h`. If it fails, the tag is not consumed either. -/
def magnitude (h : ParsedHead) : M BignumRef := fun s =>
  match expectBytes o inp (s.advance h.length) with
  | .error e s' => .error e { s' with pos := s.pos }
  | .ok b s' => .ok { negative := h.value = 3, magnitude := b.bytes } s'

def expectBignum : M BignumRef := do
  let h ← rawHead inp
  if h.mt ≠ .tag ∨ (h.value ≠ 2 ∧ h.value ≠ 3) then throwBignum h
  else magnitude o inp h

/-! ### Generic validator -/

structure Level where
  isMap : Bool
  remaining : Option Nat
  keyNext : Bool := true
  keyStart : Nat := 0
  prevStart : Nat := 0
  prevEnd : Nat := 0
  inKey : Bool := false
  havePrev : Bool := false
  deriving DecidableEq, Repr

/-- What follows a head: another head, or the end of the item that the stack was waiting for. -/
inductive Step
  | again (stack : List Level)
  | done (stack : List Level)

/-- The bytes between two positions. -/
def subspan (start stop : Nat) : Bytes := (inp.drop start).take (stop - start)

/-- Note where a key starts, under the validation of deterministic encoding. -/
def Level.mark (top : Level) (pos : Nat) : Level :=
  if o.requireDeterministic ∧ top.isMap ∧ top.keyNext ∧
    ¬ top.inKey then { top with keyStart := pos, inKey := true }
  else top

def markKey (stack : List Level) (pos : Nat) : List Level :=
  match stack with
  | [] => []
  | top :: rest => top.mark o pos :: rest

/-- The item or the opening that a definite or indefinite head stands for. -/
def skipBody (stack : List Level) (h : ParsedHead) : M Step := fun s =>
  match h.mt with
  | .uint | .nint => .ok (.done stack) (s.advance h.length)
  | .simple =>
    if h.ai = 24 ∧ h.value < 32 then .error (simpleError s.pos) s
    else
      match whenStrict o
        (if 25 ≤ h.ai then checkPreferredFloat (floatOf h.ai h.value) h.ai h.value s.pos
        else none) with
      | some e => .error e s
      | none => .ok (.done stack) (s.advance h.length)
  | .bytes | .text =>
    match readString o inp h h.mt s with
    | .error e s => .error e s
    | .ok r s' =>
      match (if o.validateUtf8 ∧ h.mt = .text then validateUtf8 r.1 else none) with
      | some bad =>
        .error ((error .invalidUtf8 (if r.2 then s.pos else s.pos + h.length + bad)).withLength 1)
          s'
      | none => .ok (.done stack) s'
  | .tag =>
    let s' := s.advance h.length
    if inp.length ≤ s'.pos then .error ((error .truncated s'.pos).withExpected (str "tagged item"))
      s'
    else if (inp.drop s'.pos).head? = some breakByte then
      .error (((error .malformedItem s'.pos).withDetail (str "tag with no content")).withLength 1)
        s'
    else .ok (.again stack) s'
  | .array | .map =>
    if o.maxDepth ≤ s.depth then .error (depthError o s.pos) s
    else
      let s' := { s with pos := s.pos + h.length, depth := s.depth + 1 }
      let isMap : Bool := h.mt = .map
      if h.indefinite then .ok (.again ({ isMap, remaining := none } :: stack)) s'
      else if h.value = 0 then .ok (.done stack) { s' with depth := s'.depth - 1 }
      else
        let remaining := if isMap then h.value * 2 % 2 ^ 64 else h.value
        .ok (.again ({ isMap, remaining := some remaining } :: stack)) s'

/-- One round of the loop, up to `item_done`. -/
def skipHead (stack : List Level) : M Step := fun s =>
  let h := parseHead inp s.pos
  if h.length = 0 then .error (error .truncated s.pos) s
  else if h.isBreak then
    match stack with
    | [] => .error (breakError s.pos) s
    | top :: rest =>
      if top.remaining.isSome then .error (breakError s.pos) s
      else if top.isMap ∧ ¬ top.keyNext then
        .error (((error .malformedItem s.pos).withDetail (str "break after a map key")).withLength
          1) s
      else .ok (.done rest) { s with pos := s.pos + 1, depth := s.depth - 1 }
  else if h.reserved then .error (reservedError s.pos) s
  else
    match whenStrict o (checkHeadDeterministic h s.pos) with
    | some e => .error e s
    | none => skipBody o inp stack h s

/-- The key that ends at `pos` follows the previous one of its map. -/
def Level.checkKey (top : Level) (pos : Nat) : Except Error Level :=
  if o.requireDeterministic ∧ top.isMap ∧ top.keyNext then
    let cur := subspan inp top.keyStart pos
    match (if top.havePrev then keyOrderError cur (subspan inp top.prevStart top.prevEnd)
      top.keyStart else none) with
    | some e => .error e
    | none =>
      .ok { top with prevStart := top.keyStart, prevEnd := pos, havePrev := true, inKey := false }
  else .ok top

def Level.flip (top : Level) : Level :=
  if top.isMap then { top with keyNext := !top.keyNext } else top

/-- Count one item down; `none` if it was the last. -/
def Level.count (top : Level) : Option Level :=
  match top.remaining with
  | some r =>
    let r := (r + (2 ^ 64 - 1)) % 2 ^ 64
    if r = 0 then none else some { top with remaining := some r }
  | none => some top

/-- An item has ended: count it, and close every level that it completes. -/
def itemDone : List Level → M (List Level)
  | [] => pure []
  | top :: rest => fun s =>
    match top.checkKey o inp s.pos with
    | .error e => .error e s
    | .ok top =>
      match top.flip.count with
      | none => itemDone rest { s with depth := s.depth - 1 }
      | some top => .ok (top :: rest) s

def skipLoop : Nat → List Level → M Unit
  | 0, _ => fun s => .error (error .truncated s.pos) s
  | fuel + 1, stack => fun s =>
    if inp.length ≤ s.pos then .error (error .truncated s.pos) s
    else
      match skipHead o inp (markKey o stack s.pos) s with
      | .error e s => .error e s
      | .ok (.again stack) s => skipLoop fuel stack s
      | .ok (.done stack) s =>
        match itemDone o inp stack s with
        | .error e s => .error e s
        | .ok [] s => .ok () s
        | .ok (top :: stack) s => skipLoop fuel (top :: stack) s

/-- A complete generic validator: skips one item of any shape. -/
def skipValue : M Unit := fun s => skipLoop o inp (inp.length - s.pos) [] s

/-! ### Containers -/

/-- A cursor over the elements of an array. -/
structure SeqCursor where
  remaining : Option Nat
  deriving DecidableEq, Repr

structure MapCursor where
  remaining : Option Nat
  prevStart : Nat := 0
  prevEnd : Nat := 0
  havePrev : Bool := false
  deriving DecidableEq, Repr

def SeqCursor.next (c : SeqCursor) : M (Bool × SeqCursor) := fun s =>
  match c.remaining with
  | some 0 => .ok (false, c) { s with depth := s.depth - 1 }
  | some (n + 1) =>
    if inp.length ≤ s.pos then .error ((error .truncated s.pos).withExpected (str "array element"))
      s
    else .ok (true, { remaining := some n }) s
  | none =>
    if inp.length ≤ s.pos then .error
      ((error .truncated s.pos).withExpected (str "array element or break")) s
    else if (inp.drop s.pos).head? = some breakByte then
      .ok (false, c) { s with pos := s.pos + 1, depth := s.depth - 1 }
    else .ok (true, c) s

/-- Under the validation of deterministic encoding a key must follow the previous one. Its extent
comes from a skip over a saved position; a malformed key is left for the caller's decode to
report. -/
def MapCursor.keyAhead (c : MapCursor) : M (Bool × MapCursor) := fun s =>
  if o.requireDeterministic then
    match skipValue o inp s with
    | .error _ s' => .ok (true, c) (s'.restore s.save)
    | .ok _ s' =>
      let cur := subspan inp s.pos s'.pos
      let c' := { c with prevStart := s.pos, prevEnd := s'.pos, havePrev := true }
      match (if c.havePrev then keyOrderError cur (subspan inp c.prevStart c.prevEnd) s.pos
        else none) with
      | some e => .error e (s'.restore s.save)
      | none => .ok (true, c') (s'.restore s.save)
  else .ok (true, c) s

def MapCursor.next (c : MapCursor) : M (Bool × MapCursor) := fun s =>
  match c.remaining with
  | some 0 => .ok (false, c) { s with depth := s.depth - 1 }
  | some (n + 1) =>
    if inp.length ≤ s.pos then .error ((error .truncated s.pos).withExpected (str "map key")) s
    else MapCursor.keyAhead o inp { c with remaining := some n } s
  | none =>
    if inp.length ≤ s.pos then .error
      ((error .truncated s.pos).withExpected (str "map key or break")) s
    else if (inp.drop s.pos).head? = some breakByte then
      .ok (false, c) { s with pos := s.pos + 1, depth := s.depth - 1 }
    else MapCursor.keyAhead o inp c s

/-- One level deeper, behind the head of the container; `none` for an indefinite one. -/
def enter (h : ParsedHead) : M (Option Nat) := fun s =>
  if o.maxDepth ≤ s.depth then .error (depthError o s.pos) s
  else .ok (if h.indefinite then none else some h.value)
    { s with pos := s.pos + h.length, depth := s.depth + 1 }

def expectContainer (isMap : Bool) (expected : Bytes) : M (Option Nat) := do
  let h ← itemHead o inp expected
  if h.mt ≠ containerMajor isMap then throwType inp expected h
  else enter o h

def expectArray : M SeqCursor := do
  let remaining ← expectContainer o inp false (str "array")
  return { remaining }

def expectMap : M MapCursor := do
  let remaining ← expectContainer o inp true (str "map")
  return { remaining }

/-! ### Entry and exit -/

def finish : M Unit := fun s =>
  if s.pos < inp.length then .error ((error .trailingContent s.pos).withLength 1) s else .ok () s

/-- A leading self-describe tag is skipped. -/
def start (s : State) : State :=
  let h := parseHead inp s.pos
  if h.length ≠ 0 ∧ h.mt = .tag ∧ h.value = selfDescribeTag then s.advance h.length else s

end

end VCodec.Cbor
