import VCodec.Cbor.Api
import VCodec.Cbor.Write
import VCodec.Core.Traverse

/-!
# Typed encoding

The CBOR writer as traversal sees it, the order of a struct's members, and the encode entry points.
-/

namespace VCodec.Cbor

/-! ### Members -/

def encodeTextKey (name : Bytes) : Bytes := makeHead .text name.length ++ name

/-- The encoded key of a member. -/
def memberKey (d : StructDef) (f : Field) : Bytes :=
  match integerKey d f with
  | some k => intHead k
  | none => encodeTextKey f.wireName

/-- The canonical order of the encoded keys. -/
def memberOrder (d : StructDef) : List Nat :=
  let keys := d.fields.map (memberKey d)
  (List.range d.fields.length).insertionSort fun a b => keys.getD a [] ≤ keys.getD b []

/-! ### Typed arrays -/

/-- An element of a numeric range, as it lies in memory. -/
def elementBytes (t : Ty) (v : Val) : Bytes :=
  match t, v with
  | .int k, .int i => (be k.width.bytes (i % 2 ^ k.width.bits).toNat).reverse
  | .float, .single x => (be 4 x.bits).reverse
  | .double, .real x => (be 8 x.bits).reverse
  | _, _ => []

/-- The elements of a numeric range. -/
def rangeData (t : Ty) (v : Val) : Bytes := v.items.flatMap (elementBytes (rangeShape t).1)

/-! ### The sink -/

def sink (o : Options) : Sink Writer where
  traits := traits
  memberOrder := memberOrder
  null := null
  boolean := boolean
  uint _ := uint
  sint _ := sint
  real f := realField o f.floatWidth
  text f := textField o f.indefinite
  bytes f := bytesField o f.indefinite
  writeRange t v := writeRange (typedArrayTag (rangeShape t).1) (rangeData t v)
  beginArray f := beginArrayField o f.indefinite
  endArray := endArray
  beginMap f := beginMapField o f.indefinite
  beginMapOrdered := beginMapOrdered o
  endMap := endMap
  key := key o
  keyUint := keyUint
  keySint := keySint
  preparedKey := preparedKey
  preparedIntKey := preparedIntKey
  tag := tag

/-! ### Entry points -/

/-- A type declared `cbor::deterministic` is canonical whatever the call's options say. -/
def withTypeDeterminismEncode (o : Options) (det : Bool) : Options :=
  if det then { o with deterministic := true, indefinite := false } else o

def wantsSelfDescribe (env : Env) : Ty → Bool
  | .struct id => (env.structs id).selfDescribe
  | _ => false

def encodeAppend (env : Env) (o : Options) (t : Ty) (v : Val) (out : Bytes) :
    Except EncodeError Bytes :=
  let o := withTypeDeterminismEncode o (isDeterministicType env t)
  let out := if o.selfDescribe ∨ wantsSelfDescribe env t then out ++
    makeHead .tag selfDescribeTag else out
  match VCodec.encode env (sink o) t v { out } with
  | .ok _ w => .ok w.out
  | .error e _ => .error e

def encode (env : Env) (o : Options) (t : Ty) (v : Val) : Except EncodeError Bytes :=
  encodeAppend env o t v []

end VCodec.Cbor
