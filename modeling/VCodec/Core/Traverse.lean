import VCodec.Core.Lookup
import VCodec.Core.Reader

/-!
# Traversal

The type-directed encoder: the type of a value decides which calls of the sink it becomes. A
member's context goes with its value, through optionals and the elements of containers, but not into
the members of a struct. A sink throws, and a failure collects its path while it passes.
-/

namespace VCodec

/-- What traversal asks of a format. A hook that takes the context of a member ignores it where the
format has no use for it. -/
structure Sink (ω : Type) where
  traits : Traits
  /-- `member_order`: the positions of a struct's members, in the order they are written. -/
  memberOrder : StructDef → List Nat
  null : EStateM EncodeError ω Unit
  boolean : Bool → EStateM EncodeError ω Unit
  uint : FieldMeta → Nat → EStateM EncodeError ω Unit
  sint : FieldMeta → Int → EStateM EncodeError ω Unit
  real : FieldMeta → Double → EStateM EncodeError ω Unit
  text : FieldMeta → Bytes → EStateM EncodeError ω Unit
  bytes : FieldMeta → Bytes → EStateM EncodeError ω Unit
  /-- The bulk form of a numeric range. -/
  writeRange : Ty → Val → EStateM EncodeError ω Unit
  beginArray : FieldMeta → Option Nat → EStateM EncodeError ω Unit
  endArray : EStateM EncodeError ω Unit
  beginMap : FieldMeta → Option Nat → EStateM EncodeError ω Unit
  /-- The entries arrive in the format's order. -/
  beginMapOrdered : Option Nat → EStateM EncodeError ω Unit
  endMap : EStateM EncodeError ω Unit
  key : Bytes → EStateM EncodeError ω Unit
  keyUint : Nat → EStateM EncodeError ω Unit
  keySint : Int → EStateM EncodeError ω Unit
  /-- Keys of members, encoded at compile time. -/
  preparedKey : Bytes → EStateM EncodeError ω Unit
  preparedIntKey : Int → EStateM EncodeError ω Unit
  tag : Nat → EStateM EncodeError ω Unit

variable {ω : Type} (env : Env) (s : Sink ω)

/-! ### Paths -/

/-- Append a step to the path of an exception. -/
def inPath {α : Type} (step : EncodeError → EncodeError) (m : EStateM EncodeError ω α) :
    EStateM EncodeError ω α :=
  Run.mapError step m

/-- The value is none of the type. -/
def illTyped : EncodeError := { code := .typeMismatch, message := [] }

/-! ### Enums -/

def skippedError (e : EnumDef) (en : Enumerator) : EncodeError :=
  { code := .unknownEnumerator
    message := str "enumerator '" ++ en.identifier ++ str "' of " ++ e.name ++
      str " is marked [[=vcodec::skip]] and cannot be encoded" }

/-- The value is shown as a `long long`. -/
def noEnumeratorError (e : EnumDef) (i : Int) : EncodeError :=
  { code := .unknownEnumerator
    message := str "value " ++ decimalInt (i.bmod (2 ^ 64)) ++ str " is not an enumerator of " ++
      e.name }

def encodeEnum (f : FieldMeta) (e : EnumDef) (i : Int) : EStateM EncodeError ω Unit :=
  if s.traits.enumAsInteger f e then
    match e.enumerators.find? (fun en => en.value = i ∧ en.skipped) with
    | some en => throw (skippedError e en)
    | none => if e.underlying.signed then s.sint f i else s.uint f i.toNat
  else
    match e.enumerators.find? (fun en => en.value = i) with
    | some en => if en.skipped then throw (skippedError e en) else s.text noField en.name
    | none => throw (noEnumeratorError e i)

/-! ### Members -/

/-- The bytes of a range of bytes: `std::byte`s, or small integers. -/
def asBytes : Val → Bytes
  | .bytes b => b
  | .seq vs => vs.map fun
    | .int i => UInt8.ofNat i.toNat
    | _ => 0
  | _ => []

/-- A member whose annotations leave it out of this object. -/
def Field.omits (f : Field) (v : Val) : Bool :=
  (f.skipIfNull && (match f.ty, v with
    | .optional _, .null => true
    | _, _ => false)) ||
  (f.skipIfDefault && env.equal f.ty v f.initial)

theorem Field.omits_iff {f : Field} {v : Val} :
    f.omits env v = true ↔
      f.skipIfNull = true ∧ (∃ t, f.ty = .optional t) ∧ v = .null ∨
        f.skipIfDefault = true ∧ env.equal f.ty v f.initial = true := by
  unfold Field.omits
  rw [Bool.or_eq_true, Bool.and_eq_true, Bool.and_eq_true]
  refine or_congr (and_congr_right fun _ => ?_) Iff.rfl
  split
  · exact iff_of_true rfl ⟨⟨_, ‹f.ty = .optional _›⟩, rfl⟩
  · rename_i h
    exact iff_of_false Bool.false_ne_true fun ⟨⟨t, ht⟩, hv⟩ => h t ht hv

/-- The value of one member, `enc` its plain encoding: tags stand before a present value, never
before the null of an empty optional. -/
def encodeFieldValue (f : FieldMeta) (enc : EStateM EncodeError ω Unit) :
    Ty → Val → EStateM EncodeError ω Unit
  | .optional t, .some v => encodeFieldValue f enc t v
  | .optional _, _ => s.null
  | t, v => do
    (s.traits.expectedTags env f t).forM s.tag
    if s.traits.bulkRange f t then s.writeRange t v else enc

/-- A member of an object, with its value and the plain encoding of the value. -/
structure Member (ω : Type) where
  field : Field
  value : Val
  enc : EStateM EncodeError ω Unit

def Member.emitted (m : Member ω) : Bool := ¬ m.field.skipSerializing ∧ ¬ m.field.omits env m.value

/-- The key of a member. -/
def emitKey (d : StructDef) (f : Field) : EStateM EncodeError ω Unit :=
  match s.traits.integerKey d f with
  | some k => s.preparedIntKey k
  | none => s.preparedKey f.wireName

def encodeMember (d : StructDef) (m : Member ω) : EStateM EncodeError ω Unit :=
  if m.emitted env then do
    emitKey s d m.field
    inPath (·.pushMember m.field.info.identifier)
      (encodeFieldValue env s m.field.info m.enc m.field.ty m.value)
  else return

def encodeMembers (d : StructDef) (ms : List (Member ω)) : EStateM EncodeError ω Unit :=
  (s.memberOrder d).forM fun i =>
    match ms[i]? with
    | some m => encodeMember env s d m
    | none => return

/-- `conditional_fields`: some value may leave a member out. -/
def StructDef.conditionalFields (d : StructDef) : Bool :=
  d.fields.any fun f => f.skipIfNull || f.skipIfDefault

/-- `serialized_field_count`. -/
def serializedFieldCount (ms : List (Member ω)) : Nat :=
  (ms.filter fun m => ¬ m.field.skipSerializing).length

/-- The count that an object announces: a sum over the type, or what this value is going to emit. -/
def memberCount (d : StructDef) (ms : List (Member ω)) : Nat :=
  if d.conditionalFields then (ms.filter (Member.emitted env)).length else serializedFieldCount ms

/-- A struct. With a discriminator, its entry comes first, and its place is for the sink to find. -/
def encodeStruct (d : StructDef) (tagKey tagValue : Bytes) (ms : List (Member ω)) :
    EStateM EncodeError ω Unit :=
  if d.transparent then
    match ms with
    | [m] => inPath (·.pushMember m.field.info.identifier) m.enc
    -- a transparent struct has exactly one member
    | _ => throw illTyped
  else do
    let n := memberCount env d ms + if tagKey = [] then 0 else 1
    if tagKey = [] then s.beginMapOrdered (some n)
    else do
      s.beginMap noField (some n)
      s.key tagKey
      s.text noField tagValue
    encodeMembers env s d ms
    s.endMap

/-! ### Variants -/

def valuelessError : EncodeError :=
  { code := .noVariantAlternative, message := str "variant is valueless_by_exception" }

/-- An alternative that has no object of its own stands beside the discriminator. -/
def encodeExternal (tagKey name : Bytes) (enc : EStateM EncodeError ω Unit) : EStateM EncodeError ω
    Unit := do
  s.beginMap noField (some 2)
  s.key tagKey
  s.text noField name
  s.preparedKey variantValueKey
  inPath (·.pushMember variantValueKey) enc
  s.endMap

/-! ### Containers -/

/-- The count that `std::ranges::size` gives, if it gives one. -/
def sizeOf? (t : Ty) (n : Nat) : Option Nat := if env.sized t then some n else none

def encodeElements : Nat → List (EStateM EncodeError ω Unit) → EStateM EncodeError ω Unit
  | _, [] => return
  | i, enc :: encs => do
    inPath (·.pushIndex i) enc
    encodeElements (i + 1) encs

def encodeSequence (f : FieldMeta) (t : Ty) (encs : List (EStateM EncodeError ω Unit)) : EStateM
    EncodeError ω Unit := do
  s.beginArray f (sizeOf? env t encs.length)
  encodeElements 0 encs
  s.endArray

def encodeTuple (encs : List (EStateM EncodeError ω Unit)) : EStateM EncodeError ω Unit := do
  s.beginArray noField (some encs.length)
  encodeElements 0 encs
  s.endArray

/-- A path step for a key: integers take the form of an index. -/
def Key.pushEncode : Key → EncodeError → EncodeError
  | .text k, e => e.pushKey k
  | .int i, e => e.pushIndex (i % 2 ^ 64).toNat

def encodeKey (kt : KeyTy) (k : Key) : EStateM EncodeError ω Unit :=
  match kt, k with
  | .text _, .text k => s.key k
  | .int k, .int i => if k.signed then s.keySint i else s.keyUint i.toNat
  | _, _ => throw illTyped

def encodeMap (f : FieldMeta) (t : Ty) (kt : KeyTy) (es : List (Key × EStateM EncodeError ω Unit)) :
    EStateM EncodeError ω Unit := do
  s.beginMap f (sizeOf? env t es.length)
  es.forM fun (k, enc) => do
    encodeKey s kt k
    inPath k.pushEncode enc
  s.endMap

/-! ### Time points -/

/-- The seconds of a double that is an integer of less than 9e15. -/
def wholeSeconds (x : Double) : Option Int :=
  let units := doubleFormat.units x.mag
  let one := 2 ^ doubleFormat.scale
  if units % one = 0 ∧ units < 9000000000000000 * one then
    some (if x.neg then -((units / one : Nat) : Int) else (units / one : Nat))
  else none

/-- The codec of time points: an RFC 3339 text under `tag(0)`, else a count of seconds. -/
def encodeTime (f : FieldMeta) (d : Duration) (v : Val) : EStateM EncodeError ω Unit :=
  if 0 ∈ f.tags then s.text noField (env.formatTime d v)
  else if d.den ≤ d.num ∧ d.integral then s.sint noField (env.secondsOfTime d v)
  else
    match wholeSeconds (env.realOfTime d v) with
    | some i => s.sint noField i
    | none => s.real noField (env.realOfTime d v)

/-! ### Dispatch -/

mutual

def encodeValue (f : FieldMeta) : Ty → Val → EStateM EncodeError ω Unit
  | .time d, .int i => if s.traits.timeCodec then encodeTime env s f d (.int i) else throw illTyped
  | .time d, .real x =>
    if s.traits.timeCodec then encodeTime env s f d (.real x) else throw illTyped
  | .bool, .bool b => s.boolean b
  | .char, .char c => s.text noField [c]
  | .int k, .int i => if k.signed then s.sint f i else s.uint f i.toNat
  | .float, .single x => s.real f (doubleOfSingle x)
  | .double, .real x => s.real f x
  | .enum e, .int i => encodeEnum s f e i
  | .string _, .text t => s.text f t
  | .optional t, .some v => encodeValue f t v
  | .optional _, .null => s.null
  | .variant alts, .variant i v =>
    match alts[i]? with
    | none => throw valuelessError
    -- an alternative's name is that of its type, so the last alternative of the same type has the
    -- same
    | some (name, t) =>
      match internallyTagged env t, v with
      | some d, .seq vs => encodeStruct env s d (f.tagKey.getD []) name (encodeFields d.fields vs)
      | some _, _ => throw illTyped
      | none, v => encodeExternal s (f.tagKey.getD []) name (encodeValue noField t v)
  | .byteRange _, .bytes b => s.bytes f b
  | .map kind kt t, .map es => encodeMap env s f (.map kind kt t) kt (encodeEntries f t es)
  | .tuple ts, .seq vs => encodeTuple s (encodeEach f ts vs)
  | .array n t, .seq vs =>
    if s.traits.isBytes f (.array n t) then s.bytes f (asBytes (.seq vs))
    else encodeSequence env s f (.array n t) (encodeAll f t vs)
  | .seq kind t, .seq vs =>
    if s.traits.isBytes f (.seq kind t) then s.bytes f (asBytes (.seq vs))
    else encodeSequence env s f (.seq kind t) (encodeAll f t vs)
  | .struct id, .seq vs =>
    encodeStruct env s (env.structs id) [] [] (encodeFields (env.structs id).fields vs)
  | _, _ => throw illTyped

/-- The elements of a range. -/
def encodeAll (f : FieldMeta) (t : Ty) : List Val → List (EStateM EncodeError ω Unit)
  | [] => []
  | v :: vs => encodeValue f t v :: encodeAll f t vs

/-- The elements of a tuple. -/
def encodeEach (f : FieldMeta) : List Ty → List Val → List (EStateM EncodeError ω Unit)
  | t :: ts, v :: vs => encodeValue f t v :: encodeEach f ts vs
  | _, _ => []

/-- The members of an object. -/
def encodeFields : List Field → List Val → List (Member ω)
  | f :: fs, v :: vs => ⟨f, v, encodeValue f.info f.ty v⟩ :: encodeFields fs vs
  | _, _ => []

/-- The values of a map. -/
def encodeEntries (f : FieldMeta) (t : Ty) :
    List (Key × Val) → List (Key × EStateM EncodeError ω Unit)
  | [] => []
  | (k, v) :: es => (k, encodeValue f t v) :: encodeEntries f t es

end

/-- The top-level entry: it turns the path of an exception root first. -/
def encode (t : Ty) (v : Val) : EStateM EncodeError ω Unit :=
  inPath EncodeError.finalize (encodeFieldValue env s noField (encodeValue env s noField t v) t v)

end VCodec
