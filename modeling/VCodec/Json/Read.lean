import VCodec.Json.Number
import VCodec.Json.Options

/-!
# The JSON reader

The reader's operations on its position, depth and error list, over an input and options that do not
change. As in the CBOR reader, an operation is a run of `EStateM Error State`, and a loop runs on
the bytes that are left. Text that needs unescaping is returned as a value; the scratch buffers it
goes through have no other use.
-/

namespace VCodec.Json

structure State where
  pos : Nat := 0
  depth : Nat := 0
  collected : List Error := []
  deriving DecidableEq, Repr

abbrev M := EStateM Error State

/-- Position in the low 48 bits of a 64-bit word, depth above it. -/
def State.save (s : State) : Nat := s.pos ||| (s.depth * 2 ^ 48 % 2 ^ 64)

def State.restore (s : State) (n : Nat) : State := { s with pos := n % 2 ^ 48, depth := n / 2 ^ 48 }

def State.advance (s : State) (n : Nat) : State := { s with pos := s.pos + n }

def isWs (c : UInt8) : Bool := c = 0x20 ∨ c = 0x0A ∨ c = 0x0D ∨ c = 0x09

section

variable (o : Options) (cc : Charconv) (inp : Bytes)

/-! ### Errors -/

/-- Line and column of an offset, both from 1. -/
def lineCol (offset : Nat) : LineCol :=
  (inp.take offset).foldl
    (fun lc c => if c = 0x0A then ⟨lc.line + 1, 1⟩ else ⟨lc.line, lc.column + 1⟩) ⟨1, 1⟩

def error (code : Errc) (offset : Nat) : Error :=
  { code, offset, position := some (lineCol inp offset) }

/-- The byte at a position. -/
def at? (p : Nat) : Option UInt8 := inp[p]?

def foundName (c : UInt8) : Bytes :=
  if c = 0x6E then str "null"
  else if c = 0x74 ∨ c = 0x66 then str "boolean"
  else if c = 0x22 then str "string"
  else if c = 0x5B then str "array"
  else if c = 0x7B then str "object"
  else if c = 0x2D ∨ isDigit c then str "number"
  else []

/-- The bytes that end a token. -/
def isBoundary (c : UInt8) : Bool :=
  c = 0x2C ∨ c = 0x7D ∨ c = 0x5D ∨ c = 0x3A ∨ isWs c ∨ c = 0x7B ∨ c = 0x5B ∨ c = 0x22

def tokenLength (p : Nat) : Nat :=
  if at? inp p = some 0x22 then 1 else max 1 ((inp.drop p).takeWhile fun c => ¬ isBoundary c).length

/-- `in_.substr(pos, n)`. -/
def substr (p n : Nat) : Bytes := (inp.drop p).take n

def unexpected (p : Nat) (expected : Bytes) : Error :=
  if inp.length ≤ p then (error inp .truncated p).withExpected expected
  else (((error inp .unexpectedToken p).withDetail (substr inp p 1)).withExpected
    expected).withLength (tokenLength inp p)

/-- The literal that a first letter promises. -/
def literalWord (c : UInt8) : Option Bytes :=
  if c = 0x74 then some (str "true") else if c = 0x66 then some (str "false")
  else if c = 0x6E then some (str "null") else none

def typeError (p : Nat) (expected : Bytes) : Error :=
  match at? inp p with
  | none => (error inp .truncated p).withExpected expected
  | some c =>
    if foundName c = [] then unexpected inp p expected
    -- a literal that is none is a syntax error
    else if ∃ word ∈ literalWord c, substr inp p word.length ≠ word then unexpected inp p expected
    else (((error inp .typeMismatch p).withExpected expected).withFound (foundName c)).withLength
      (tokenLength inp p)

def depthError (p : Nat) : Error :=
  ((error inp .depthExceeded p).withDetail (decimal o.maxDepth)).withLength 1

def numberError (p : Nat) (n : NumberScan) : Error :=
  if n.error = .outOfRange then
    (((error inp .outOfRange p).withDetail (substr inp p n.length)).withContext
      (str "double")).withLength n.length
  else
    let len := tokenLength inp p
    ((error inp .invalidNumber p).withDetail (substr inp p len)).withLength len

def controlError (p : Nat) : Error :=
  (((error inp .unexpectedToken p).withDetail (str "control character")).withExpected
    (str "escaped control character")).withLength 1

def unterminatedError (p : Nat) : Error :=
  (error inp .unterminatedString p).withLength (inp.length - p)

/-! ### Blanks and literals -/

def skipWs : M Unit := modify fun s => s.advance ((inp.drop s.pos).takeWhile isWs).length

def offset : M Nat := do
  skipWs inp
  return (← get).pos

def mismatch (expected : Bytes) (want : UInt8) : M Unit := fun s =>
  if at? inp s.pos = some want then .ok () s else .error (typeError inp s.pos expected) s

def literal (word : Bytes) : M Unit := fun s =>
  if substr inp s.pos word.length = word then .ok () (s.advance word.length)
  else if inp.length < s.pos + word.length ∧ inp.drop s.pos = word.take (inp.length - s.pos) then
    .error ((error inp .truncated inp.length).withExpected (str "'" ++ word ++ str "'")) s
  else .error (unexpected inp s.pos (str "'" ++ word ++ str "'")) s

/-! ### Strings -/

def hexValue (c : UInt8) : Option Nat :=
  if isDigit c then some (c.toNat - 0x30)
  else if 0x61 ≤ c.toNat ∧ c.toNat ≤ 0x66 then some (c.toNat - 0x61 + 10)
  else if 0x41 ≤ c.toNat ∧ c.toNat ≤ 0x46 then some (c.toNat - 0x41 + 10)
  else none

/-- The value of four hexadecimal digits. -/
def hex4 (s : Bytes) : Option Nat :=
  match s with
  | a :: b :: c :: d :: _ => do
    return (((← hexValue a) * 16 + (← hexValue b)) * 16 + (← hexValue c)) * 16 + (← hexValue d)
  | _ => none

def appendUtf8 (cp : Nat) : Bytes :=
  if cp < 0x80 then [UInt8.ofNat cp]
  else if cp < 0x800 then [UInt8.ofNat (0xC0 + cp / 64), UInt8.ofNat (0x80 + cp % 64)]
  else if cp < 0x10000 then
    [UInt8.ofNat (0xE0 + cp / 4096), UInt8.ofNat (0x80 + cp / 64 % 64),
      UInt8.ofNat (0x80 + cp % 64)]
  else
    [UInt8.ofNat (0xF0 + cp / 262144), UInt8.ofNat (0x80 + cp / 4096 % 64),
      UInt8.ofNat (0x80 + cp / 64 % 64),
      UInt8.ofNat (0x80 + cp % 64)]

/-- What a one-letter escape stands for. -/
def simpleEscape (e : UInt8) : Option UInt8 :=
  if e = 0x22 ∨ e = 0x5C ∨ e = 0x2F then some e
  else if e = 0x62 then some 0x08
  else if e = 0x66 then some 0x0C
  else if e = 0x6E then some 0x0A
  else if e = 0x72 then some 0x0D
  else if e = 0x74 then some 0x09
  else none

def escapeError (i : Nat) (detail : Bytes) (length : Nat) : Error :=
  ((error inp .invalidEscape i).withDetail detail).withLength length

/-- The text of the escape `\u` at `i` and the bytes it takes. -/
def unicodeEscape (i : Nat) : Except Error (Bytes × Nat) :=
  let shown := min 6 (inp.length - i)
  match hex4 (inp.drop (i + 2)) with
  | none => .error (escapeError inp i (substr inp i shown) shown)
  | some code =>
    if 0xD800 ≤ code ∧ code ≤ 0xDBFF then
      let lone := escapeError inp i (str "lone high surrogate") 6
      if i + 11 < inp.length ∧ at? inp (i + 6) = some 0x5C ∧ at? inp (i + 7) = some 0x75 then
        match hex4 (inp.drop (i + 8)) with
        | some lo =>
          if 0xDC00 ≤ lo ∧ lo ≤ 0xDFFF then
            .ok (appendUtf8 (0x10000 + (code - 0xD800) * 1024 + (lo - 0xDC00)), 12)
          else .error lone
        | none => .error lone
      else .error lone
    else if 0xDC00 ≤ code ∧ code ≤ 0xDFFF then .error
      (escapeError inp i (str "lone low surrogate") 6)
    else .ok (appendUtf8 code, 6)

/-- The text of the escape at `i` and the bytes it takes. -/
def readEscape (open_ i : Nat) : Except Error (Bytes × Nat) :=
  match at? inp (i + 1) with
  | none => .error (unterminatedError inp open_)
  | some e =>
    match simpleEscape e with
    | some c => .ok ([c], 2)
    | none =>
      if e = 0x75 then unicodeEscape inp i else .error (escapeError inp i (substr inp i 2) 2)

/-- The text from `i` to the closing quote, and where that stands. -/
def unescape (open_ : Nat) : Nat → Nat → Bytes → Except Error (Bytes × Nat)
  | 0, _, _ => .error (unterminatedError inp open_)
  | fuel + 1, i, scratch =>
    match at? inp i with
    | none => .error (unterminatedError inp open_)
    | some c =>
      if c = 0x22 then .ok (scratch, i)
      else if c.toNat < 0x20 then .error (controlError inp i)
      else if c ≠ 0x5C then unescape open_ fuel (i + 1) (scratch ++ [c])
      else
        match readEscape inp open_ i with
        | .error e => .error e
        | .ok (text, n) => unescape open_ fuel (i + n) (scratch ++ text)

/-- The end of a string without escapes, or where its first escape stands. -/
inductive Plain
  | quote (i : Nat)
  | escape (i : Nat)

def scanPlain (open_ : Nat) : Nat → Nat → Except Error Plain
  | 0, _ => .error (unterminatedError inp open_)
  | fuel + 1, i =>
    match at? inp i with
    | none => .error (unterminatedError inp open_)
    | some c =>
      if c = 0x22 then .ok (.quote i)
      else if c = 0x5C then .ok (.escape i)
      else if c.toNat < 0x20 then .error (controlError inp i)
      else scanPlain open_ fuel (i + 1)

/-- The string whose quotes stand at `open_` and `close`, its text checked and passed. -/
def closeString (open_ close : Nat) (text : Bytes) (borrowed : Bool) : M TextRef := fun s =>
  match (if o.validateUtf8 then validateUtf8 (substr inp (open_ + 1) (close - open_ - 1))
    else none) with
  | some bad => .error ((error inp .invalidUtf8 (open_ + 1 + bad)).withLength 1) s
  | none => .ok { text, borrowed, rawLength := close + 1 - open_ } { s with pos := close + 1 }

/-- At a quote. The text is the input's own if it has no escapes. -/
def parseString : M TextRef := fun s =>
  let fuel := inp.length - s.pos
  match scanPlain inp s.pos fuel (s.pos + 1) with
  | .error e => .error e s
  | .ok (.quote i) => closeString o inp s.pos i (substr inp (s.pos + 1) (i - s.pos - 1)) true s
  | .ok (.escape i) =>
    match unescape inp s.pos fuel i (substr inp (s.pos + 1) (i - s.pos - 1)) with
    | .error e => .error e s
    | .ok (text, close) => closeString o inp s.pos close text false s

/-! ### Classification -/

def peek : M Kind := do
  skipWs inp
  let s ← get
  return match at? inp s.pos with
    | none => .undefined
    | some c =>
      if c = 0x6E then .null
      else if c = 0x74 ∨ c = 0x66 then .boolean
      else if c = 0x22 then .text
      else if c = 0x5B then .array
      else if c = 0x7B then .map
      else if c = 0x2D ∨ isDigit c then
        let kind := (scanNumber cc (inp.drop s.pos)).kind
        if kind = .undefined then .real else kind
      else .undefined

/-! ### Scalars -/

def expectNull : M Unit := do
  skipWs inp
  mismatch inp (str "null") 0x6E
  literal inp (str "null")

def expectBoolean : M Bool := do
  skipWs inp
  let s ← get
  if at? inp s.pos = some 0x74 then do
    literal inp (str "true")
    return true
  else if at? inp s.pos = some 0x66 then do
    literal inp (str "false")
    return false
  else throw (typeError inp s.pos (str "boolean"))

/-- The number at the position, which it does not pass. -/
def number (expected : Bytes) : M NumberScan := fun s =>
  match at? inp s.pos with
  | none => .error ((error inp .truncated s.pos).withExpected expected) s
  | some c =>
    if ¬ (c = 0x2D ∨ isDigit c) then .error (typeError inp s.pos expected) s
    else
      let n := scanNumber cc (inp.drop s.pos)
      if n.kind = .undefined then .error (numberError inp s.pos n) s else .ok n s

def passNumber (n : NumberScan) : M Unit := modify (·.advance n.length)

def throwNumberRange (n : NumberScan) {α : Type} : M α := fun s =>
  .error (((error inp .outOfRange s.pos).withDetail (substr inp s.pos n.length)).withLength
    n.length) s

def throwNotInteger (n : NumberScan) {α : Type} : M α := fun s =>
  .error ((((error inp .typeMismatch s.pos).withExpected (str "integer")).withFound
    (str "number")).withLength n.length) s

def expectPlainUint : M Nat := do
  skipWs inp
  let n ← number cc inp (str "integer")
  if n.kind = .uint then do
    passNumber n
    return n.u
  else if n.kind = .sint ∨ n.overflow then throwNumberRange inp n
  else throwNotInteger inp n

def expectPlainSint : M Int := do
  skipWs inp
  let n ← number cc inp (str "integer")
  if n.kind = .sint then do
    passNumber n
    return n.i
  else if n.kind = .uint then
    if int64Max < n.u then throwNumberRange inp n
    else do
      passNumber n
      return (n.u : Int)
  else if n.overflow then throwNumberRange inp n
  else throwNotInteger inp n

/-- `double` of an integer. -/
def doubleOfInt (i : Int) : Double := .ofRatio doubleFormat (i < 0) i.natAbs 1

def expectReal : M Double := do
  skipWs inp
  let n ← number cc inp (str "number")
  let s ← get
  -- "-0" is an integer literal; a double keeps its sign
  let negativeZero : Bool := n.kind = .sint ∧ n.i = 0 ∧ at? inp s.pos = some 0x2D
  passNumber n
  return match n.kind with
    | .uint => doubleOfInt n.u
    | .sint => if negativeZero then .zero doubleFormat true else doubleOfInt n.i
    | _ => n.d

/-- The integer that a string spells, if `accept` takes it. -/
def quotedInteger {α : Type} (accept : NumberScan → Option α) : M α := do
  let start := (← get).pos
  let t ← parseString o inp
  let n := scanNumber cc t.text
  if n.kind = .undefined ∨ n.length ≠ t.text.length ∨ n.kind = .real then do
    modify fun s => { s with pos := start }
    throw ((((error inp .typeMismatch start).withExpected (str "integer")).withFound
      (str "string")).withLength
      (t.text.length + 2))
  else
    match accept n with
    | some a => return a
    | none => do
      modify fun s => { s with pos := start }
      throw ((error inp .outOfRange (start + 1)).withDetail t.text)

def NumberScan.uint? (n : NumberScan) : Option Nat := if n.kind = .sint then none else some n.u

def NumberScan.sint? (n : NumberScan) : Option Int :=
  if n.kind = .uint then if int64Max < n.u then none else some n.u else some n.i

/-- `json::as_string` accepts a quoted integer as well as a bare one. -/
def expectInteger {α : Type} (bare : M α) (accept : NumberScan → Option α) (f : FieldMeta) : M α :=
  if f.asString then do
    skipWs inp
    if at? inp (← get).pos = some 0x22 then quotedInteger o cc inp accept else bare
  else bare

def expectUint (f : FieldMeta) : M Nat :=
  expectInteger o cc inp (expectPlainUint cc inp) NumberScan.uint? f

def expectSint (f : FieldMeta) : M Int :=
  expectInteger o cc inp (expectPlainSint cc inp) NumberScan.sint? f

/-! ### Strings and bytes -/

def expectText : M TextRef := do
  skipWs inp
  mismatch inp (str "string") 0x22
  parseString o inp

def b64Value (url : Bool) (c : UInt8) : Option Nat :=
  if 0x41 ≤ c.toNat ∧ c.toNat ≤ 0x5A then some (c.toNat - 0x41)
  else if 0x61 ≤ c.toNat ∧ c.toNat ≤ 0x7A then some (c.toNat - 0x61 + 26)
  else if isDigit c then some (c.toNat - 0x30 + 52)
  else if c = (if url then 0x2D else 0x2B) then some 62
  else if c = (if url then 0x5F else 0x2F) then some 63
  else none

/-- The digits of a base64 text, six bits each; `acc` holds the last `bits` of them. -/
def base64Loop (url : Bool) : Bytes → Nat → Nat → Bytes → Option Bytes
  | [], _, _, out => some out
  | c :: s, acc, bits, out =>
    match b64Value url c with
    | none => none
    | some v =>
      let acc := (acc * 64 + v) % 2 ^ 32
      let bits := bits + 6
      if 8 ≤ bits then base64Loop url s acc (bits - 8) (out ++ [UInt8.ofNat (acc / 2 ^ (bits - 8))])
      else base64Loop url s acc bits out

def base64Decode (url : Bool) (s : Bytes) : Option Bytes :=
  let s := (s.reverse.dropWhile (· = 0x3D)).reverse
  if s.length % 4 = 1 then none else base64Loop url s 0 0 []

def hexDecode : Bytes → Option Bytes
  | [] => some []
  | [_] => none
  | a :: b :: s => do
    let hi ← hexValue a
    let lo ← hexValue b
    return UInt8.ofNat (hi * 16 + lo) :: (← hexDecode s)

def decodeEncoding : BytesEncoding → Bytes → Option Bytes
  | .base64 => base64Decode false
  | .base64url => base64Decode true
  | .hex => hexDecode

def encodingName : BytesEncoding → Bytes
  | .base64 => str "base64 string"
  | .base64url => str "base64url string"
  | .hex => str "hex string"

def decodeBytes (enc : BytesEncoding) : M BytesRef := do
  skipWs inp
  let start := (← get).pos
  mismatch inp (str "string") 0x22
  let t ← parseString o inp
  match decodeEncoding enc t.text with
  | some bytes => return { bytes, borrowed := false }
  | none => do
    modify fun s => { s with pos := start }
    throw ((((error inp .typeMismatch start).withExpected (encodingName enc)).withFound
      (str "string")).withLength
      (t.text.length + 2))

def expectBytes (f : FieldMeta) : M BytesRef := decodeBytes o inp (f.bytes.getD .base64)

/-! ### Containers -/

/-- A cursor over the elements of an array or the entries of an object. -/
structure Cursor where
  first : Bool := true
  deriving DecidableEq, Repr

/-- The closing bracket, what an element begins with, and what the errors call them. -/
structure Brackets where
  close : UInt8
  head : Bytes
  firstExpected : Bytes
  nextExpected : Bytes

def arrayBrackets : Brackets := ⟨0x5D, str "value", str "value or ']'", str "',' or ']'"⟩

def objectBrackets : Brackets := ⟨0x7D, str "key", str "key or '\x7d'", str "',' or '\x7d'"⟩

def Cursor.next (b : Brackets) (c : Cursor) : M (Bool × Cursor) := do
  skipWs inp
  let s ← get
  match at? inp s.pos with
  | none =>
    throw ((error inp .truncated s.pos).withExpected
      (if c.first then b.firstExpected else b.nextExpected))
  | some x =>
    if x = b.close then do
      modify fun s => { s with pos := s.pos + 1, depth := s.depth - 1 }
      return (false, c)
    else if c.first then return (true, { first := false })
    else if x ≠ 0x2C then throw (unexpected inp s.pos b.nextExpected)
    else do
      modify (·.advance 1)
      skipWs inp
      let s ← get
      -- a trailing comma
      if at? inp s.pos = some b.close then throw (unexpected inp s.pos b.head)
      else return (true, c)

/-- The colon behind a key. -/
def passColon : M Unit := do
  skipWs inp
  let s ← get
  match at? inp s.pos with
  | none => throw ((error inp .truncated s.pos).withExpected (str "':'"))
  | some x => if x = 0x3A then modify (·.advance 1) else throw (unexpected inp s.pos (str "':'"))

def keyText : M TextRef := do
  skipWs inp
  let s ← get
  match at? inp s.pos with
  | none => throw ((error inp .truncated s.pos).withExpected (str "key"))
  | some x =>
    if x ≠ 0x22 then throw (unexpected inp s.pos (str "key"))
    else do
      let t ← parseString o inp
      passColon inp
      return t

/-- Keys are text. -/
def keyInteger {α : Type} : M α :=
  fun s => .error ((error inp .nonTextKey s.pos).withFound (str "string")) s

def enter : M Unit := fun s =>
  if o.maxDepth ≤ s.depth then .error (depthError o inp s.pos) s
  else .ok () { s with pos := s.pos + 1, depth := s.depth + 1 }

def expectContainer (expected : Bytes) (bracket : UInt8) : M Cursor := do
  skipWs inp
  mismatch inp expected bracket
  enter o inp
  return {}

def expectArray : M Cursor := expectContainer o inp (str "array") 0x5B

def expectMap : M Cursor := expectContainer o inp (str "object") 0x7B

/-! ### Generic validator -/

inductive SkipState
  | wantValue | wantKey | afterValue
  deriving DecidableEq, Repr

/-- The innermost container, an object or not, and those around it: `is_object` up to `local`. -/
abbrev Levels := List Bool

/-- The bracket that opens a container has been seen: an empty one is closed at once. -/
def skipOpen (levels : Levels) (isObject : Bool) : M (Levels × SkipState) := do
  modify (·.advance 1)
  skipWs inp
  let s ← get
  match at? inp s.pos with
  | none => throw (error inp .truncated s.pos)
  | some c =>
    if c = (if isObject then 0x7D else 0x5D) then do
      modify (·.advance 1)
      return (levels, .afterValue)
    else return (isObject :: levels, if isObject then .wantKey else .wantValue)

/-- A number is passed, and a text or a literal. -/
def skipScalar (c : UInt8) : M Unit := do
  if c = 0x22 then do
    let _ ← parseString o inp
  else if c = 0x74 then literal inp (str "true")
  else if c = 0x66 then literal inp (str "false")
  else if c = 0x6E then literal inp (str "null")
  else if c = 0x2D ∨ isDigit c then do
    let s ← get
    let n := scanNumber cc (inp.drop s.pos)
    if n.kind = .undefined then throw (numberError inp s.pos n) else passNumber n
  else throw (unexpected inp (← get).pos (str "value"))

/-- One round of the loop, at the byte `c`. -/
def skipStep (levels : Levels) (state : SkipState) (c : UInt8) : M (Levels × SkipState) := do
  match state, levels with
  | .wantValue, levels =>
    if c = 0x5B ∨ c = 0x7B then do
      let s ← get
      if o.maxDepth ≤ s.depth + levels.length then throw (depthError o inp s.pos)
      else skipOpen inp levels (c = 0x7B)
    else do
      skipScalar o cc inp c
      return (levels, .afterValue)
  | .wantKey, levels =>
    if c ≠ 0x22 then throw (unexpected inp (← get).pos (str "key"))
    else do
      let _ ← parseString o inp
      passColon inp
      return (levels, .wantValue)
  | .afterValue, [] => return ([], .afterValue)
  | .afterValue, isObject :: levels =>
    let b := if isObject then objectBrackets else arrayBrackets
    if c = 0x2C then do
      modify (·.advance 1)
      skipWs inp
      let s ← get
      if at? inp s.pos = some 0x7D ∨
        at? inp s.pos = some 0x5D then throw (unexpected inp s.pos b.head)
      else return (isObject :: levels, if isObject then .wantKey else .wantValue)
    else if c = b.close then do
      modify (·.advance 1)
      return (levels, .afterValue)
    else throw (unexpected inp (← get).pos b.nextExpected)

def skipLoop : Nat → Levels → SkipState → M Unit
  | 0, levels, state => fun s =>
    if state = .afterValue ∧ levels = [] then .ok () s else .error (error inp .truncated s.pos) s
  | fuel + 1, levels, state => do
    -- the value is complete
    if state = .afterValue ∧ levels = [] then return
    else do
      skipWs inp
      let s ← get
      match at? inp s.pos with
      | none => throw (error inp .truncated s.pos)
      | some c => do
        let (levels, state) ← skipStep o cc inp levels state c
        skipLoop fuel levels state

/-- A complete generic validator: skips one value of any shape. -/
def skipValue : M Unit := do
  let s ← get
  skipLoop o cc inp (inp.length - s.pos) [] .wantValue

/-- After the top-level value only blanks may remain. -/
def finish : M Unit := do
  skipWs inp
  let s ← get
  if s.pos < inp.length then throw ((error inp .trailingContent s.pos).withLength 1) else return

end

end VCodec.Json
