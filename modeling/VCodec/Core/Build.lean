import VCodec.Core.Lookup
import VCodec.Core.Reader

/-!
# Construction

The type-directed decoder: the expected type drives the reader, and every failure carries an error
to which the frames it passes append their steps. The recursion over types takes a bound, because a
type may refer to itself and a loop over a cursor ends with the input only; a run that uses the
bound up is an abort of its own, so what is proved of a successful run holds for every bound.
-/

namespace VCodec

open D

variable {σ S M : Type} (env : Env) (r : Reader σ S M)

/-! ### Scalars -/

/-- `static_cast<std::uint64_t>`. -/
def toUint64 (i : Int) : Nat := (i % 2 ^ 64).toNat

/-- `static_cast<std::int64_t>`. -/
def toInt64 (i : Int) : Int := i.bmod (2 ^ 64)

/-- An out-of-range error of the reader names no type yet. -/
def withRangeContext (f : FieldMeta) (t : Ty) (e : Error) : Error :=
  if e.code = .outOfRange ∧ e.context = [] then e.withContext (env.displayFor f t) else e

def rangeError (f : FieldMeta) (k : IntTy) (off : Nat) (i : Int) : Error :=
  ((r.error .outOfRange off).withDetail (decimalInt i)).withContext (env.displayFor f (.int k))

def decodeUint (f : FieldMeta) (k : IntTy) : D σ Int := do
  let off ← call r.offset
  let u ← mapError (withRangeContext env f (.int k)) (call (r.expectUint f))
  if k.max < u then fail (rangeError env r f k off u)
  else return u

def decodeSint (f : FieldMeta) (k : IntTy) : D σ Int := do
  let off ← call r.offset
  let i ← mapError (withRangeContext env f (.int k)) (call (r.expectSint f))
  if k.max < i ∨ i < k.min then fail (rangeError env r f k off i)
  else return i

def decodeInt (f : FieldMeta) (k : IntTy) : D σ Int :=
  if k.signed then decodeSint env r f k else decodeUint env r f k

/-- The length an error about a text covers. -/
def textLength (t : TextRef) : Nat := if t.rawLength ≠ 0 then t.rawLength else t.text.length + 2

def withCandidates (texts : List Bytes) (e : Error) : Error := texts.foldl Error.withCandidate e

/-- The enumerators that an error offers. -/
def EnumDef.offered (e : EnumDef) : List Enumerator := e.enumerators.filter fun en => ¬ en.skipped

def decodeEnum (f : FieldMeta) (e : EnumDef) : D σ Unit := do
  let off ← call r.offset
  if r.traits.enumAsInteger f e then do
    let raw ← decodeInt env r f e.underlying
    match e.enumerators.find? (fun en => en.value = raw ∧ ¬ en.skipped) with
    | some en => setOut (.int en.value)
    | none =>
      fail (withCandidates (e.offered.map fun en => decimalInt en.value)
        (((r.error .unknownEnumerator off).withDetail (decimalInt raw)).withContext e.name))
  else do
    let t ← call r.expectText
    match e.find t.text with
    | some en => setOut (.int en.value)
    | none =>
      fail (withCandidates (e.offered.map (·.name))
        ((((r.error .unknownEnumerator off).withDetail t.text).withContext e.name).withLength
          (textLength t)))

/-- The name of what borrows: the member, or the type. -/
def borrower (f : FieldMeta) (t : Ty) : Bytes := if f.isMember then f.qualified else env.display t

def decodeString (f : FieldMeta) (view : Bool) : D σ Unit := do
  let off ← call r.offset
  let t ← call r.expectText
  -- a view can only alias the input
  if view ∧ ¬ t.borrowed then
    fail ((((r.error .escapeInBorrowedString off).withContext
      (borrower env f (.string view))).withLength
      (textLength t)).withSuggestion (str "use std::string instead of std::string_view"))
  else setOut (.text t.text)

def decodeChar : D σ Unit := do
  let off ← call r.offset
  let t ← call r.expectText
  match t.text with
  | [c] => setOut (.char c)
  | text =>
    fail ((((r.error .typeMismatch off).withExpected (str "single-character string")).withFound
      (str "string of length " ++ decimal text.length)).withLength (text.length + 2))

/-! ### Bytes -/

/-- The bytes in a range of the type: `std::byte`s, or small integers. -/
def bytesVal (t : Ty) (b : Bytes) : Val :=
  match t with
  | .byteRange _ => .bytes b
  | _ => .seq (b.map fun x => .int x.toNat)

/-- The length of a byte range of fixed length. -/
def Ty.byteCount : Ty → Option Nat
  | .byteRange (.array n) | .array n _ => some n
  | _ => none

/-- A span can only alias the input. -/
def Ty.borrowsBytes : Ty → Bool
  | .byteRange .span => true
  | _ => false

def decodeBytes (f : FieldMeta) (t : Ty) : D σ Unit := do
  let off ← call r.offset
  let b ← call (r.expectBytes f)
  if t.borrowsBytes ∧ ¬ b.borrowed then
    fail (((r.error .indefiniteInBorrowedString off).withContext (borrower env f t)).withSuggestion
      (str "use std::vector<std::byte> instead of std::span<const std::byte>"))
  else if ∀ n ∈ t.byteCount, b.bytes.length = n then setOut (bytesVal t b.bytes)
  else
    fail (((r.error .typeMismatch off).withExpected
      (str "byte string of length " ++ decimal (t.byteCount.getD 0))).withFound
      (str "byte string of length " ++ decimal b.bytes.length))

/-! ### Optional-likes -/

/-- A null empties the object; anything else is for the value it holds, which `dec` decodes. -/
def decodeOptional (dec : D σ Unit) (t : Ty) : D σ Unit := do
  if (← call r.peek) = .null then do
    call r.expectNull
    setOut .null
  else do
    setOut (.some (t.zero env))
    onHeld dec

/-! ### Sequences -/

/-- `append_to`. -/
def appendTo (kind : SeqKind) (t : Ty) (vs : List Val) (v : Val) : List Val :=
  match kind with
  | .set => env.insert t v vs
  | _ => vs ++ [v]

def sequenceLoop (dec : D σ Unit) (kind : SeqKind) (t : Ty) : Nat → S → Nat → D σ Unit
  | 0, _, _ => throw .outOfFuel
  | fuel + 1, c, i => do
    let (more, c) ← call (r.next c)
    if more then do
      let v ← onLocal (t.zero env) (inStep r (·.pushIndex i) dec)
      let out ← getOut
      setOut (.seq (appendTo env kind t out.items v))
      sequenceLoop dec kind t fuel c (i + 1)
    else return

def decodeSequence (fuel : Nat) (dec : D σ Unit) (kind : SeqKind) (t : Ty) : D σ Unit := do
  let c ← call r.expectArray
  setOut (.seq [])
  sequenceLoop env r dec kind t fuel c 0

def countError (off n found : Nat) : Error :=
  ((r.error .typeMismatch off).withExpected
    (str "array of " ++ decimal n ++ str " elements")).withFound
    (str "array of " ++ decimal found ++ str " elements")

/-- Decode each type's value into its element of the object. -/
def elementsLoop (dec : Ty → D σ Unit) (off n : Nat) : List Ty → Nat → S → D σ S
  | [], _, c => return c
  | t :: ts, i, c => do
    let (more, c) ← call (r.next c)
    if more then do
      onItem i (inStep r (·.pushIndex i) (dec t))
      elementsLoop dec off n ts (i + 1) c
    else fail (countError r off n i)

/-- Count the elements that are too many. -/
def extraLoop : Nat → S → Nat → D σ Nat
  | 0, _, _ => throw .outOfFuel
  | fuel + 1, c, extra => do
    call r.skipValue
    let (more, c) ← call (r.next c)
    if more then extraLoop fuel c (extra + 1) else return extra + 1

/-- An array of exactly the given elements. -/
def decodeElements (fuel : Nat) (dec : Ty → D σ Unit) (ts : List Ty) : D σ Unit := do
  let off ← call r.offset
  let c ← call r.expectArray
  let c ← elementsLoop r dec off ts.length ts 0 c
  let (more, c) ← call (r.next c)
  if more then do
    let extra ← extraLoop r fuel c ts.length
    fail (countError r off ts.length extra)
  else return

def decodeFixedArray (fuel : Nat) (dec : Ty → D σ Unit) (n : Nat) (t : Ty) : D σ Unit :=
  decodeElements r fuel dec (List.replicate n t)

def decodeTuple (fuel : Nat) (dec : Ty → D σ Unit) (ts : List Ty) : D σ Unit :=
  decodeElements r fuel dec ts

/-! ### Maps -/

/-- The outcome of `std::from_chars` for an integer. -/
inductive FromChars
  | value (i : Int) (rest : Bytes)
  | outOfRange
  | invalid

def isDigit (c : UInt8) : Bool := 0x30 ≤ c.toNat ∧ c.toNat ≤ 0x39

def digitsValue (ds : Bytes) : Nat := ds.foldl (fun n c => n * 10 + (c.toNat - 0x30)) 0

def fromChars (k : IntTy) (text : Bytes) : FromChars :=
  let neg : Bool := k.signed ∧ text.head? = some 0x2D
  let s := if neg then text.tail else text
  let ds := s.takeWhile isDigit
  let i : Int := if neg then -(digitsValue ds : Int) else digitsValue ds
  if ds = [] then .invalid
  else if k.min ≤ i ∧ i ≤ k.max then .value i (s.dropWhile isDigit)
  else .outOfRange

def keyRangeError (k : IntTy) (off : Nat) (detail : Bytes) : Error :=
  ((r.error .outOfRange off).withDetail detail).withContext (env.display (.int k))

def parseIntegralKey (k : IntTy) (text : Bytes) (off : Nat) : D σ Int :=
  match fromChars k text with
  | .outOfRange => fail (keyRangeError env r k off text)
  | .value i [] => return i
  | _ =>
    fail ((((r.error .typeMismatch off).withExpected (str "integer key")).withFound
      (str "string")).withLength
      (text.length + 2))

/-- The key of an entry of a map of type `m`. -/
def decodeKey (f : FieldMeta) (m : Ty) (off : Nat) : KeyTy → D σ Key
  | .text view => do
    let t ← call r.keyText
    if view ∧ ¬ t.borrowed then
      fail (((r.error .escapeInBorrowedString off).withContext (borrower env f m)).withSuggestion
        (str "use std::string keys instead of std::string_view"))
    else return .text t.text
  | .int k => do
    let kind ← call r.keyKind
    if kind = .text then do
      let t ← call r.keyText
      return .int (← parseIntegralKey env r k t.text off)
    else if kind = .uint then do
      let u ← call r.keyUint
      if k.max < u then fail (keyRangeError env r k off (decimal u))
      else return .int u
    else do
      let i ← call r.keySint
      if ¬ k.signed ∨ k.max < i ∨ i < k.min then fail (keyRangeError env r k off (decimalInt i))
      else return .int i

def Key.push : Key → Error → Error
  | .text s, e => e.pushKey s
  | .int i, e => e.pushKeyInt (toUint64 i)

def Key.lt : Key → Key → Bool
  | .text a, .text b => a < b
  | .int a, .int b => a < b
  | .text _, .int _ => false
  | .int _, .text _ => true

/-- `insert_into`, of a key that is not there yet. -/
def insertInto (kind : MapKind) (k : Key) (v : Val) (es : List (Key × Val)) : List (Key × Val) :=
  match kind with
  | .ordered => es.takeWhile (·.1.lt k) ++ (k, v) :: es.dropWhile (·.1.lt k)
  | _ => es ++ [(k, v)]

/-- Run on the value of entry `i` of the map object. -/
def onEntry (i : Nat) (m : D σ Unit) : D σ Unit :=
  focus (fun v => (v.entries.map (·.2)).getD i .null)
    (fun v w => .map (v.entries.modify i fun e => (e.1, w))) m

/-- The entry that a key of a map with unique keys repeats. -/
def repeated (kind : MapKind) (k : Key) (es : List (Key × Val)) : Option Nat :=
  if kind = .pairs then none else es.findIdx? (·.1 = k)

def duplicateMapKeyError (off : Nat) (k : Key) : Error :=
  k.push (match k with
    | .text s => ((r.error .duplicateKey off).withDetail s).withLength (s.length + 2)
    | .int i => (r.error .duplicateKey off).withDetail (decimalInt (toInt64 i)))

/-- The value of an entry, as the key and the policy for duplicates have it. -/
def mapEntry (dec : D σ Unit) (kind : MapKind) (t : Ty) (off : Nat) (key : Key)
    (es : List (Key × Val)) : D σ Unit :=
  match repeated kind key es, r.duplicates with
  | some _, .error => fail (duplicateMapKeyError r off key)
  | some _, .firstWins => call r.skipValue
  | some i, .lastWins => onEntry i (inStep r key.push dec)
  | none, _ => do
    let v ← onLocal (t.zero env) (inStep r key.push dec)
    setOut (.map (insertInto kind key v es))

def mapLoop (dec : D σ Unit) (f : FieldMeta) (kind : MapKind) (kt : KeyTy) (t : Ty) :
    Nat → M → D σ Unit
  | 0, _ => throw .outOfFuel
  | fuel + 1, c => do
    let (more, c) ← call (r.nextKey c)
    if more then do
      let off ← call r.offset
      let key ← decodeKey env r f (.map kind kt t) off kt
      let out ← getOut
      mapEntry env r dec kind t off key out.entries
      mapLoop dec f kind kt t fuel c
    else return

def decodeMap (fuel : Nat) (dec : D σ Unit) (f : FieldMeta) (kind : MapKind) (kt : KeyTy)
    (t : Ty) : D σ Unit := do
  let c ← call r.expectMap
  setOut (.map [])
  mapLoop env r dec f kind kt t fuel c

/-! ### Members -/

def decodeTags (f : FieldMeta) (tags : List Nat) : D σ Unit :=
  if tags = [] then return
  else
    mapError (fun e => if f.isMember ∧ e.code = .tagMismatch then e.withContext f.identifier else e)
      (call (r.expectTags tags))

/-- The bulk form is tried for the whole member only. -/
def decodeBulk (dec : D σ Unit) (f : FieldMeta) (t : Ty) : D σ Unit :=
  if r.traits.bulkRange f t ∨ r.traits.acceptsBulkRange t then do
    let handled ← r.readRange t
    if handled then return else dec
  else dec

/-- One member's value: expected tags stand before a present value, never before the null of an
empty optional. -/
def decodeFieldValue (dec : Ty → D σ Unit) (f : FieldMeta) : Ty → D σ Unit
  | .optional t => decodeOptional env r (decodeFieldValue dec f t) t
  | t => do
    decodeTags r f (r.traits.expectedTags env f t)
    decodeBulk r (dec t) f t

/-! ### Structs -/

def StructDef.anyIntegerKey (s : StructDef) : Bool :=
  s.fields.any fun f => (r.traits.integerKey s f).isSome

/-- The key of an entry of a struct. -/
inductive EntryKey
  | text (k : Bytes)
  | int (i : Int)
  deriving DecidableEq

/-- The kind of an entry's key matters only where a member has an integer key. -/
def entryKeyKind (s : StructDef) : D σ Kind :=
  if s.anyIntegerKey r then call r.keyKind else return .text

/-- The key of an entry, or an integer that no member's key can be. -/
def readEntryKey (s : StructDef) : D σ (Except Nat EntryKey) := do
  let kind ← entryKeyKind r s
  if kind = .uint then do
    let u ← call r.keyUint
    if int64Max < u then return .error u else return .ok (.int u)
  else if kind = .sint then do
    let i ← call r.keySint
    return .ok (.int i)
  else do
    let t ← call r.keyText
    return .ok (.text t.text)

/-- The member that a key names. A member with an integer key takes its wire name only where the
format says so. -/
def StructDef.resolve (s : StructDef) : EntryKey → Option Nat
  | .int i => s.fields.findIdx? fun f => r.traits.integerKey s f = some i
  | .text k =>
    match s.find k with
    | none => none
    | some i =>
      match s.fields[i]? with
      | none => none
      | some f =>
        if (r.traits.integerKey s f).isSome ∧ ¬ r.traits.acceptsTextKey f.info ∧
          k = f.wireName then none
        else some i

def EntryKey.push : EntryKey → Error → Error
  | .text k, e => e.pushKey k
  | .int i, e => e.pushKeyInt (toUint64 i)

/-- An error about a key. -/
def keyErrorAt (code : Errc) (off : Nat) : EntryKey → Error
  | .text k => ((r.error code off).withDetail k).withLength (k.length + 2)
  | .int i => (r.error code off).withDetail (decimalInt i)

def unknownFieldError (s : StructDef) (off : Nat) (key : EntryKey) : Error :=
  let e := ((keyErrorAt r .unknownField off key).withContext s.name).withDenyUnknown
  key.push (match key with
    | .text k => if suggest k s.fields = [] then e else e.withSuggestion (suggest k s.fields)
    | .int _ => e)

/-- Report an error about a key: in collect mode it is recorded and the value skipped. -/
def reportKey (e : Error) : D σ Unit :=
  match r.errors with
  | .failFast => fail e
  | .collect => do
    collect r e
    call r.skipValue

/-- In collect mode a failure that is no syntax error is recorded, and the value skipped from its
start. -/
def recover (m : D σ Unit) : D σ Unit := fun b =>
  match r.errors with
  | .failFast => m b
  | .collect =>
    match m b with
    | .ok a b' => .ok a b'
    | .error (.error e) b' =>
      if isSyntaxError e.code then .error (.error e) b'
      else (do
        collect r e
        modifyReader (r.restore (r.save b.reader))
        call r.skipValue) b'
    | .error a b' => .error a b'

def unknownEntry (s : StructDef) (ignoreKey : Bytes) (off : Nat) (key : EntryKey) : D σ Unit :=
  if ignoreKey ≠ [] ∧ key = .text ignoreKey then call r.skipValue
  else if s.denyUnknown then reportKey r (unknownFieldError r s off key)
  else call r.skipValue

/-- The value of an entry that names member `i`, with field `f`; `seen` lists the members met so
far. -/
def memberEntry (dec : FieldMeta → Ty → D σ Unit) (i : Nat) (f : Field) (off : Nat) (key : EntryKey)
    (seen : List Nat) :
    D σ Unit :=
  if f.skipDeserializing then call r.skipValue
  else if i ∈ seen ∧ r.duplicates = .error then reportKey r
    (key.push (keyErrorAt r .duplicateKey off key))
  else if i ∈ seen ∧ r.duplicates = .firstWins then call r.skipValue
  else recover r (inStep r (·.pushMember f.info.identifier) (onItem i (dec f.info f.ty)))

def bigKeyError (s : StructDef) (off u : Nat) : Error :=
  ((((r.error .unknownField off).withDetail (decimal u)).withContext
    s.name).withDenyUnknown).pushKeyInt u

/-- The value of an entry whose key is an integer above every `std::int64_t`. -/
def bigKeyEntry (s : StructDef) (off u : Nat) : D σ Unit := do
  call r.skipValue
  if s.denyUnknown then fail (bigKeyError r s off u) else return

/-- The value of an entry, and the members seen behind it. -/
def structEntry (dec : FieldMeta → Ty → D σ Unit) (s : StructDef) (ignoreKey : Bytes) (off : Nat)
    (seen : List Nat) :
    Except Nat EntryKey → D σ (List Nat)
  | .error u => do
    bigKeyEntry r s off u
    return seen
  | .ok key =>
    match s.resolve r key with
    | none => do
      unknownEntry r s ignoreKey off key
      return seen
    | some i =>
      match s.fields[i]? with
      | none => throw .rejected
      | some f => do
        memberEntry r dec i f off key seen
        return if f.skipDeserializing then seen else i :: seen

def structLoop (dec : FieldMeta → Ty → D σ Unit) (s : StructDef) (ignoreKey : Bytes) :
    Nat → M → List Nat → D σ (List Nat)
  | 0, _, _ => throw .outOfFuel
  | fuel + 1, c, seen => do
    let (more, c) ← call (r.nextKey c)
    if more then do
      let off ← call r.offset
      let key ← readEntryKey r s
      let seen ← structEntry r dec s ignoreKey off seen key
      structLoop dec s ignoreKey fuel c seen
    else return seen

/-- The key that comes next, as the error that lists the keys shows it. -/
def describeKey (kind : Kind) : EStateM Error σ Bytes :=
  if kind = .uint then do return decimal (← r.keyUint)
  else if kind = .sint then do return decimalInt (← r.keySint)
  else do return str "\"" ++ (← r.keyText).text ++ str "\""

def describeLoop : Nat → M → Error → Nat → D σ (Error × Nat)
  | 0, _, _, _ => throw .outOfFuel
  | fuel + 1, c, e, count => do
    match ← attempt (r.nextKey c) with
    | some (true, c) => do
      let kind ← call r.keyKind
      match ← attempt (describeKey r kind) with
      | none => return (e, count)
      | some key => do
        let e := e.withCandidate key
        match ← attempt r.skipValue with
        | none => return (e, count + 1)
        | some _ => describeLoop fuel c e (count + 1)
    | _ => return (e, count)

def describeMap (fuel : Nat) (e : Error) : D σ (Error × Nat) := do
  match ← attempt r.expectMap with
  | some c => describeLoop r fuel c e 0
  | none => return (e, 0)

/-- List the keys of the map that starts at a saved position. -/
def describePresentKeys (fuel save : Nat) (e : Error) : D σ Error := do
  let here := r.save (← getReader)
  modifyReader (r.restore save)
  let described ← describeMap r fuel e
  modifyReader (r.restore here)
  return described.1.withFound (decimal described.2)

def missingFieldError (s : StructDef) (f : Field) (off : Nat) : Error :=
  let e := (((r.error .missingField off).withDetail f.wireName).withContainerOffset off).withContext
    s.name
  match r.traits.integerKey s f with
  | some k => e.withExpected (decimalInt k)
  | none => e

/-- The value that `default_value` assigns to a member. -/
def Field.defaulted (f : Field) (v : Val) : Val :=
  match f.ty with
  | .optional _ => .some v
  | _ => v

/-- A required member that is missing: the first one is the error, or each one is collected. -/
def reportMissing (fuel : Nat) (s : StructDef) (off save : Nat) (f : Field) :
    Option Error → D σ (Option Error)
  | some e => return some e
  | none => do
    let e ← describePresentKeys r fuel save (missingFieldError r s f off)
    match r.errors with
    | .collect => do
      collect r e
      return none
    | .failFast => return some e

/-- What becomes of member `i`, with field `f`, if it was not seen. -/
def missingMember (fuel : Nat) (s : StructDef) (off save : Nat) (i : Nat) (f : Field)
    (missing : Option Error) :
    D σ (Option Error) :=
  if f.required then reportMissing r fuel s off save f missing
  else
    match f.default with
    | some v => do
      onItem i (setOut (f.defaulted v))
      return missing
    | none => return missing

/-- Defaults of the members not seen, and the first of the required ones. -/
def missingLoop (fuel : Nat) (s : StructDef) (off save : Nat) (seen : List Nat) :
    List Field → Nat → Option Error → D σ (Option Error)
  | [], _, missing => return missing
  | f :: fs, i, missing =>
    if f.skipDeserializing ∨ i ∈ seen then missingLoop fuel s off save seen fs (i + 1) missing
    else do
      let missing ← missingMember r fuel s off save i f missing
      missingLoop fuel s off save seen fs (i + 1) missing

def decodeMembers (fuel : Nat) (dec : FieldMeta → Ty → D σ Unit) (s : StructDef)
    (ignoreKey : Bytes) : D σ Unit := do
  let off ← call r.offset
  let save := r.save (← getReader)
  let c ← call r.expectMap
  let seen ← structLoop r dec s ignoreKey fuel c []
  match ← missingLoop r fuel s off save seen s.fields 0 none with
  | some e => fail e
  | none => return

/-- `dec` decodes one member's value. -/
def decodeStruct (fuel : Nat) (dec : FieldMeta → Ty → D σ Unit) (s : StructDef)
    (ignoreKey : Bytes) : D σ Unit :=
  match s.transparent, s.fields with
  | true, f :: _ => inStep r (·.pushMember f.info.identifier) (onItem 0 (dec f.info f.ty))
  | _, _ => decodeMembers r fuel dec s ignoreKey

/-! ### Variants -/

/-- Consume the entries behind the discriminator. -/
def consumeRest : Nat → M → D σ Unit
  | 0, _ => throw .outOfFuel
  | fuel + 1, c => do
    let (more, c) ← call (r.nextKey c)
    if more then do
      let _ ← call r.keyText
      call r.skipValue
      consumeRest fuel c
    else return

/-- The first pass: the offset and the value of the discriminator. -/
def findTag (tagKey : Bytes) : Nat → M → D σ (Option (Nat × Bytes))
  | 0, _ => throw .outOfFuel
  | fuel + 1, c => do
    let (more, c) ← call (r.nextKey c)
    if more then do
      let _ ← call r.offset
      let t ← call r.keyText
      if t.text = tagKey then do
        let off ← call r.offset
        let tv ← call r.expectText
        consumeRest r fuel c
        return some (off, tv.text)
      else do
        call r.skipValue
        findTag tagKey fuel c
    else return none

/-- The entries of an externally tagged alternative; whether there was a value. -/
def externalLoop (dec : D σ Unit) (tagKey : Bytes) : Nat → M → Bool → D σ Bool
  | 0, _, _ => throw .outOfFuel
  | fuel + 1, c, haveValue => do
    let (more, c) ← call (r.nextKey c)
    if more then do
      let _ ← call r.offset
      let t ← call r.keyText
      if t.text = variantValueKey then do
        inStep r (·.pushMember variantValueKey) dec
        externalLoop dec tagKey fuel c true
      else do
        call r.skipValue
        externalLoop dec tagKey fuel c haveValue
    else return haveValue

/-- The last alternative of the name. -/
def findAlternative (name : Bytes) : List (Bytes × Ty) → Nat → Option (Nat × Ty)
  | [], _ => none
  | (n, t) :: alts, i =>
    match findAlternative name alts (i + 1) with
    | some alt => some alt
    | none => if n = name then some (i, t) else none

/-- The alternative that the discriminator names. -/
def chooseAlternative (alts : List (Bytes × Ty)) (tagKey : Bytes) (off : Nat) :
    Option (Nat × Bytes) → D σ (Nat × Ty)
  | none =>
    fail (withCandidates (alts.map (·.1))
      ((((r.error .missingTag off).withDetail tagKey).withContainerOffset off).withContext
        (env.display (.variant alts))))
  | some (tagOff, name) =>
    match findAlternative name alts 0 with
    | some alt => return alt
    | none =>
      fail ((withCandidates (alts.map (·.1))
        ((((r.error .noVariantAlternative tagOff).withDetail name).withContext
          (env.display (.variant alts))).withLength
          (name.length + 2))).pushKey tagKey)

/-- The second pass: a struct carries the discriminator among its members, any other payload stands
beside it. -/
def decodeAlternative (fuel : Nat) (dec : Ty → D σ Unit) (decStruct : StructDef → Bytes → D σ Unit)
    (alts : List (Bytes × Ty)) (tagKey : Bytes) (off i : Nat) (t : Ty) : D σ Unit :=
  match internallyTagged env t with
  | some s => onAlternative i (decStruct s tagKey)
  | none => do
    let c ← call r.expectMap
    let haveValue ← externalLoop r (onAlternative i (dec t)) tagKey fuel c false
    if haveValue then return
    else
      fail ((((r.error .missingField off).withDetail variantValueKey).withContainerOffset
        off).withContext
        (env.display (.variant alts)))

/-- `dec` decodes the payload of an alternative, `decStruct` the members of one that is a struct. -/
def decodeVariant (fuel : Nat) (dec : Ty → D σ Unit) (decStruct : StructDef → Bytes → D σ Unit)
    (f : FieldMeta) (alts : List (Bytes × Ty)) : D σ Unit :=
  match f.tagKey with
  | none => throw .rejected
  | some tagKey => do
    let start := r.save (← getReader)
    let off ← call r.offset
    let c ← call r.expectMap
    let tag ← findTag r tagKey fuel c
    let (i, t) ← chooseAlternative env r alts tagKey off tag
    modifyReader (r.restore start)
    setOut (.variant i (t.zero env))
    decodeAlternative env r fuel dec decStruct alts tagKey off i t

/-! ### Time points -/

/-- The codec of time points: an RFC 3339 text under `tag(0)`, else a count of seconds. -/
def decodeTime (f : FieldMeta) (d : Duration) : D σ Unit := do
  if 0 ∈ f.tags then do
    let off ← call r.offset
    let t ← call r.expectText
    match env.parseTime t.text with
    | some secs => setOut (env.timeOfSeconds d secs)
    | none =>
      fail ((((r.error .typeMismatch off).withExpected (str "RFC 3339 date-time")).withFound
        (str "text string")).withLength (if t.rawLength ≠ 0 then t.rawLength else t.text.length))
  else do
    let kind ← call r.peek
    if kind = .uint ∨ kind = .sint then do
      let i ← call (r.expectSint noField)
      setOut (env.timeOfSeconds d i)
    else do
      let x ← call r.expectReal
      setOut (env.timeOfReal d x)

/-! ### Dispatch -/

def decodeValue : Nat → FieldMeta → Ty → D σ Unit
  | 0, _, _ => throw .outOfFuel
  | fuel + 1, f, t =>
    let dec := decodeValue fuel
    let decField : FieldMeta → Ty → D σ Unit := fun f t => decodeFieldValue env r (dec f) f t
    match t with
    | .time d => if r.traits.timeCodec then decodeTime env r f d else throw .rejected
    | .bool => do setOut (.bool (← call r.expectBoolean))
    | .char => decodeChar r
    | .int k => do setOut (.int (← decodeInt env r f k))
    | .float => do setOut (.single (singleOfDouble (← call r.expectReal)))
    | .double => do setOut (.real (← call r.expectReal))
    | .enum e => decodeEnum env r f e
    | .string view => decodeString env r f view
    | .optional t => decodeOptional env r (dec f t) t
    | .variant alts => decodeVariant env r fuel (dec noField) (decodeStruct r fuel decField) f alts
    | .byteRange _ => decodeBytes env r f t
    | .map kind kt t => decodeMap env r fuel (dec f t) f kind kt t
    | .tuple ts => decodeTuple r fuel (dec f) ts
    | .array n t =>
      if r.traits.isBytes f (.array n t) then decodeBytes env r f (.array n t) else decodeFixedArray
        r fuel (dec f) n t
    | .seq kind t =>
      if r.traits.isBytes f (.seq kind t) then decodeBytes env r f (.seq kind t)
      else decodeSequence env r fuel (dec f t) kind t
    | .struct id => decodeStruct r fuel decField (env.structs id) []

/-- The top-level entry: it turns the path of every error root first. -/
def decode (fuel : Nat) (t : Ty) : D σ Unit := fun b =>
  let finish : Build σ → Build σ := fun b =>
    match r.errors with
    | .failFast => b
    | .collect =>
      { b with reader := r.setCollected ((r.collected b.reader).map Error.finalize) b.reader }
  match mapError Error.finalize (decodeFieldValue env r (decodeValue env r fuel noField) noField t)
    b with
  | .ok a b' => .ok a (finish b')
  | .error e b' => .error e (finish b')

end VCodec
