import VCodec.Core.Lower
import VCodec.Core.Model
import Mathlib.Algebra.Order.Group.Int

/-!
# Types, values and schemas

The types the formats are instantiated at, as the classification of the source sees them, and the
values of those types. A struct type is a name: its schema stands in a table, so that a type may
refer to itself through a smart pointer. A schema lists the leaf members of the struct, with
inherited and flattened members already spliced in, and a struct value lists their values in the
same order.
-/

namespace VCodec

/-! ### Types -/

inductive IntWidth
  | w8 | w16 | w32 | w64
  deriving DecidableEq, Repr

def IntWidth.bits : IntWidth → Nat
  | .w8 => 8 | .w16 => 16 | .w32 => 32 | .w64 => 64

def IntWidth.bytes : IntWidth → Nat
  | .w8 => 1 | .w16 => 2 | .w32 => 4 | .w64 => 8

structure IntTy where
  signed : Bool
  width : IntWidth
  deriving DecidableEq, Repr

/-- `std::numeric_limits<T>::min()`. -/
def IntTy.min (k : IntTy) : Int := if k.signed then -2 ^ (k.width.bits - 1) else 0

/-- `std::numeric_limits<T>::max()`. -/
def IntTy.max (k : IntTy) : Int :=
  if k.signed then 2 ^ (k.width.bits - 1) - 1 else 2 ^ k.width.bits - 1

def uint8 : IntTy := ⟨false, .w8⟩

/-- The types of map keys. -/
inductive KeyTy
  | text (view : Bool)
  | int (k : IntTy)
  deriving DecidableEq, Repr

/-- A map with unique keys, ordered or not, or a range of pairs. -/
inductive MapKind
  | ordered | unordered | pairs
  deriving DecidableEq, Repr

/-- A contiguous sequence, another one that is appended to, or a set. -/
inductive SeqKind
  | vector | list | set
  deriving DecidableEq, Repr

/-- A contiguous range of `std::byte`. -/
inductive ByteRange
  | vector
  | array (n : Nat)
  | span
  deriving DecidableEq, Repr

structure Enumerator where
  name : Bytes
  identifier : Bytes
  value : Int
  skipped : Bool := false
  aliases : List Bytes := []
  deriving DecidableEq, Repr

structure EnumDef where
  name : Bytes
  underlying : IntTy
  enumerators : List Enumerator
  /-- `as_integer` and `as_text` on the type. -/
  asInteger : Bool := false
  asText : Bool := false
  deriving DecidableEq, Repr

/-- The tick of a time point in seconds, and whether ticks are counted in an integer. -/
structure Duration where
  num : Nat
  den : Nat
  integral : Bool
  deriving DecidableEq, Repr

inductive Ty
  | bool
  | char
  | int (k : IntTy)
  | float
  | double
  | enum (e : EnumDef)
  /-- `std::string` or, if `view`, `std::string_view`. -/
  | string (view : Bool)
  /-- `std::optional`, `std::unique_ptr` or `std::shared_ptr`. -/
  | optional (t : Ty)
  | variant (alts : List (Bytes × Ty))
  | byteRange (r : ByteRange)
  | map (kind : MapKind) (key : KeyTy) (t : Ty)
  /-- `std::pair` or `std::tuple`. -/
  | tuple (ts : List Ty)
  | array (n : Nat) (t : Ty)
  | seq (kind : SeqKind) (t : Ty)
  | struct (id : Nat)
  /-- `std::chrono::sys_time`. -/
  | time (d : Duration)

/-! ### Values -/

inductive Key
  | text (s : Bytes)
  | int (i : Int)
  deriving DecidableEq, Repr

inductive Val
  | bool (b : Bool)
  | char (c : UInt8)
  /-- An integer, an enumerator or a count of ticks. -/
  | int (i : Int)
  | single (x : Single)
  | real (x : Double)
  | text (s : Bytes)
  | bytes (b : Bytes)
  | null
  | some (v : Val)
  | variant (i : Nat) (v : Val)
  /-- The elements of a range or a tuple, the members of a struct. -/
  | seq (vs : List Val)
  | map (es : List (Key × Val))
  deriving Inhabited

/-- The elements of a range or a tuple, the members of a struct. -/
def Val.items : Val → List Val
  | .seq vs => vs
  | _ => []

def Val.entries : Val → List (Key × Val)
  | .map es => es
  | _ => []

def Val.item (i : Nat) (v : Val) : Val := v.items.getD i .null

def Val.setItem (i : Nat) (v w : Val) : Val := .seq (v.items.set i w)

/-- The value an optional-like holds. -/
def Val.held : Val → Val
  | .some v => v
  | _ => .null

/-- The value of the alternative a variant holds. -/
def Val.payload : Val → Val
  | .variant _ v => v
  | _ => .null

/-! ### Annotations -/

inductive BytesEncoding
  | base64 | base64url | hex
  deriving DecidableEq, Repr

/-- The class that declares a member: whether it has `integer_keys`, and the identifiers and
explicit keys of its members. -/
structure Owner where
  integerKeys : Bool := false
  members : List (Bytes × Option Int) := []
  deriving DecidableEq, Repr

/-- The context of a member: its names and annotations. Top-level values and the payload of a
variant have none. -/
structure FieldMeta where
  /-- `F.depth > 0`. -/
  isMember : Bool := false
  identifier : Bytes := []
  qualified : Bytes := []
  owner : Owner := {}
  /-- The discriminator of a variant member. -/
  tagKey : Option Bytes := none
  /-- `as_integer` and `as_text` on the member. -/
  asInteger : Bool := false
  asText : Bool := false
  key : Option Int := none
  textKeyAlias : Bool := false
  tags : List Nat := []
  byteString : Bool := false
  typedArray : Bool := false
  indefinite : Bool := false
  floatWidth : Option FloatWidth := none
  bytes : Option BytesEncoding := none
  asString : Bool := false
  stringifyKeys : Bool := false
  deriving DecidableEq, Repr

def noField : FieldMeta := {}

structure Field where
  info : FieldMeta
  ty : Ty
  wireName : Bytes
  aliases : List Bytes := []
  skipSerializing : Bool := false
  skipDeserializing : Bool := false
  skipIfNull : Bool := false
  skipIfDefault : Bool := false
  required : Bool
  /-- The payload of `default_value`. -/
  default : Option Val := none
  /-- The value in a default-constructed object. -/
  initial : Val

structure StructDef where
  name : Bytes
  denyUnknown : Bool := false
  transparent : Bool := false
  tags : List Nat := []
  deterministic : Bool := false
  selfDescribe : Bool := false
  fields : List Field

/-- What a program's types give to the library: the schemas of its structs, the spelling of its
types, their comparison, the insertion of its sets, the conversions of its clocks. -/
structure Env where
  structs : Nat → StructDef
  /-- `type_display`. -/
  display : Ty → Bytes
  /-- `type_display_for`. -/
  displayFor : FieldMeta → Ty → Bytes
  /-- `operator==`. -/
  equal : Ty → Val → Val → Bool
  /-- `std::ranges::sized_range`. -/
  sized : Ty → Bool
  /-- `insert` of a set. -/
  insert : Ty → Val → List Val → List Val
  /-- `std::chrono::parse` of an RFC 3339 date-time, in seconds. -/
  parseTime : Bytes → Option Int
  /-- `time_point_cast` from seconds in an integer and in a double. -/
  timeOfSeconds : Duration → Int → Val
  timeOfReal : Duration → Double → Val
  /-- The whole seconds and the seconds since the epoch. -/
  secondsOfTime : Duration → Val → Int
  realOfTime : Duration → Val → Double
  /-- `std::format` of a time point as an RFC 3339 date-time. -/
  formatTime : Duration → Val → Bytes

/-- A program without struct types, sets or clocks. -/
instance : Inhabited Env where
  default := {
    structs := fun _ => { name := [], fields := [] }
    display := fun _ => []
    displayFor := fun _ _ => []
    equal := fun _ _ _ => false
    sized := fun _ => true
    insert := fun _ _ vs => vs
    parseTime := fun _ => none
    timeOfSeconds := fun _ i => .int i
    timeOfReal := fun _ x => .real x
    secondsOfTime := fun _ _ => 0
    realOfTime := fun _ _ => .zero doubleFormat false
    formatTime := fun _ _ => [] }

variable (env : Env)

mutual

/-- The value-initialised object of a type. -/
def Ty.zero : Ty → Val
  | .bool => .bool false
  | .char => .char 0
  | .int _ => .int 0
  | .float => .single (.zero singleFormat false)
  | .double => .real (.zero doubleFormat false)
  | .enum _ => .int 0
  | .string _ => .text []
  | .optional _ => .null
  | .variant [] => .variant 0 .null
  | .variant ((_, t) :: _) => .variant 0 t.zero
  | .byteRange (.array n) => .bytes (List.replicate n 0)
  | .byteRange _ => .bytes []
  | .map _ _ _ => .map []
  | .tuple ts => .seq (Ty.zeros ts)
  | .array n t => .seq (List.replicate n t.zero)
  | .seq _ _ => .seq []
  | .struct id => .seq ((env.structs id).fields.map (·.initial))
  | .time d => if d.integral then .int 0 else .real (.zero doubleFormat false)

def Ty.zeros : List Ty → List Val
  | [] => []
  | t :: ts => t.zero :: Ty.zeros ts

end

end VCodec
