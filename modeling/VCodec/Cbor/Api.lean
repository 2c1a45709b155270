import VCodec.Cbor.Range
import VCodec.Core.Entry

/-!
# Typed decoding

`format_traits` for CBOR, the reader as construction sees it, and the decode entry points: a leading
self-describe tag is skipped, one value of the type is decoded, and nothing may remain.
-/

namespace VCodec.Cbor

open D

/-! ### Traits -/

/-- The smallest integer from `next` on that is not taken. -/
def bump (taken : List Int) : Nat → Int → Int
  | 0, next => next
  | fuel + 1, next => if next ∈ taken then bump taken fuel (next + 1) else next

def allocateFrom (taken : List Int) (identifier : Bytes) :
    Int → List (Bytes × Option Int) → Option Int
  | _, [] => none
  | next, (name, key) :: ms =>
    if key.isSome then allocateFrom taken identifier next ms
    else
      let k := bump taken taken.length next
      if name = identifier then some k else allocateFrom taken identifier (k + 1) ms

/-- The declaration-order key of a member of a class declared `integer_keys`. -/
def allocatedKey (w : Owner) (identifier : Bytes) : Option Int :=
  if w.integerKeys then allocateFrom (w.members.filterMap Prod.snd) identifier 1 w.members else none

/-- The key is allocated by the class that declares the member, which a flattened or inherited
member keeps. -/
def integerKey (_ : StructDef) (f : Field) : Option Int :=
  match f.info.key with
  | some k => some k
  | none => allocatedKey f.info.owner f.info.identifier

/-- A member's own tags, else tag 1 of a time point, else the tags of a struct type. -/
def expectedTags (env : Env) (f : FieldMeta) (t : Ty) : List Nat :=
  if f.tags ≠ [] then f.tags
  else
    match t with
    | .time _ => [1]
    | .struct id => (env.structs id).tags
    | _ => []

def isBytes (f : FieldMeta) (t : Ty) : Bool :=
  match t with
  | .byteRange _ => true
  | t => contiguousOfUint8 t && f.byteString

def traits : Traits where
  isBytes := isBytes
  integerKey := integerKey
  acceptsTextKey f := f.textKeyAlias
  expectedTags := expectedTags
  enumDefaultInteger := true
  bulkRange f t := f.typedArray && typedArrayRange t
  acceptsBulkRange := typedArrayRange
  timeCodec := true

/-! ### The reader -/

def reader (env : Env) (o : Options) (inp : Bytes) : Reader State SeqCursor MapCursor where
  traits := traits
  duplicates := o.duplicates
  errors := o.errors
  error := error
  collected s := s.collected
  setCollected es s := { s with collected := es }
  offset s := .ok s.pos s
  peek s := .ok (peek o inp s) s
  save := State.save
  restore n s := s.restore n
  expectNull := expectNull o inp
  expectBoolean := expectBoolean o inp
  expectUint _ := expectUint o inp
  expectSint _ := expectSint o inp
  expectReal := expectReal o inp
  expectText := expectText o inp
  expectBytes _ := expectBytes o inp
  expectTags := expectTags inp
  readRange := readRange env o inp
  expectArray := expectArray o inp
  next := SeqCursor.next inp
  expectMap := expectMap o inp
  nextKey := MapCursor.next o inp
  keyKind s := .ok (peek o inp s) s
  keyText := expectText o inp
  keyUint := expectUint o inp
  keySint := expectSint o inp
  skipValue := skipValue o inp

/-! ### Entry points -/

/-- A struct type may ask for deterministic encoding itself. -/
def isDeterministicType (env : Env) : Ty → Bool
  | .struct id => (env.structs id).deterministic
  | _ => false

def withTypeDeterminism (o : Options) (det : Bool) : Options := if det then o.strict else o

def annotateTypeDeterminism (env : Env) (t : Ty) (e : Error) : Error :=
  match t with
  | .struct id =>
    if (env.structs id).deterministic ∧ e.code = .nonDeterministic then
      e.withSuggestion (e.suggestion ++ str "; " ++ (env.structs id).name ++
        str " is declared [[=cbor::deterministic]]")
    else e
  | _ => e

/-- What remains to be checked when the value has been decoded. -/
def conclude (o : Options) (inp : Bytes) (b : Build State) : Except Abort Val :=
  match (if o.errors = .collect then b.reader.collected.head? else none) with
  | some e => .error (.error e)
  | none =>
    match finish inp b.reader with
    | .ok _ _ => .ok b.out
    | .error e _ => .error (.error e)

def decode (env : Env) (o : Options) (fuel : Nat) (t : Ty) (inp : Bytes) : Except Abort Val :=
  let o := withTypeDeterminism o (isDeterministicType env t)
  match VCodec.decode env (reader env o inp) fuel t
    { reader := start inp {}, out := t.zero env } with
  | .ok _ b => conclude o inp b
  | .error (.error e) _ => .error (.error (annotateTypeDeterminism env t e.finalize))
  | .error a _ => .error a

/-- Decode into an object of the caller's, which keeps what a failing run has written. -/
def decodeInto (env : Env) (o : Options) (fuel : Nat) (t : Ty) (inp : Bytes) : EStateM Abort Val
    Unit := fun out =>
  let o := withTypeDeterminism o (isDeterministicType env t)
  match VCodec.decode env (reader env o inp) fuel t { reader := start inp {}, out } with
  | .ok _ b =>
    match conclude o inp b with
    | .ok v => .ok () v
    | .error a => .error a b.out
  | .error (.error e) b => .error (.error (annotateTypeDeterminism env t e.finalize)) b.out
  | .error a b => .error a b.out

def finishErrors (inp : Bytes) (s : State) : List Error :=
  match finish inp s with
  | .ok _ _ => []
  | .error e _ => [e]

/-- Decode and return every error met: those collected on the way, and the one that ended the
run. -/
def decodeAll (env : Env) (o : Options) (fuel : Nat) (t : Ty) (inp : Bytes) :
    Except Abort (Collected Val) :=
  let o := { withTypeDeterminism o (isDeterministicType env t) with errors := .collect }
  let annotate := annotateTypeDeterminism env t
  match VCodec.decode env (reader env o inp) fuel t
    { reader := start inp {}, out := t.zero env } with
  | .ok _ b =>
    .ok { value := b.out, errors := b.reader.collected.map annotate ++ finishErrors inp b.reader }
  | .error (.error e) b =>
    .ok { value := b.out, errors := b.reader.collected.map annotate ++ [annotate e.finalize] }
  | .error a _ => .error a

variable {env : Env} {o : Options} {fuel : Nat} {t : Ty} {inp : Bytes}

theorem conclude_eq (b : Build State) :
    conclude o inp b =
      settle (o.errors = .collect) b.reader.collected (finish inp b.reader) b.out := by
  unfold conclude settle
  cases (if o.errors = .collect then b.reader.collected.head? else none) with
  | some _ => rfl
  | none => cases finish inp b.reader <;> rfl

theorem finishErrors_eq (s : State) : finishErrors inp s = lastErrors (finish inp s) := by
  unfold finishErrors
  cases finish inp s <;> rfl

theorem decode_eq : decode env o fuel t inp =
    let o := withTypeDeterminism o (isDeterministicType env t)
    deliver (fun e => annotateTypeDeterminism env t e.finalize) (conclude o inp)
      (VCodec.decode env (reader env o inp) fuel t
        { reader := start inp {}, out := t.zero env }) := by
  simp only [decode]
  generalize withTypeDeterminism o (isDeterministicType env t) = o
  cases VCodec.decode env (reader env o inp) fuel t
    { reader := start inp {}, out := t.zero env } with
  | ok _ _ => rfl
  | error a _ => cases a <;> rfl

theorem outcome_decodeInto (v : Val) : outcome (decodeInto env o fuel t inp v) =
    let o := withTypeDeterminism o (isDeterministicType env t)
    deliver (fun e => annotateTypeDeterminism env t e.finalize) (conclude o inp)
      (VCodec.decode env (reader env o inp) fuel t { reader := start inp {}, out := v }) := by
  simp only [decodeInto]
  generalize withTypeDeterminism o (isDeterministicType env t) = o
  cases VCodec.decode env (reader env o inp) fuel t { reader := start inp {}, out := v } with
  | ok _ b =>
    simp only [deliver]
    cases conclude o inp b <;> rfl
  | error a _ => cases a <;> rfl

theorem decodeAll_eq : decodeAll env o fuel t inp =
    let o := { withTypeDeterminism o (isDeterministicType env t) with errors := .collect }
    gather (annotateTypeDeterminism env t) (fun b => b.reader.collected)
      (fun b => finishErrors inp b.reader)
      (VCodec.decode env (reader env o inp) fuel t
        { reader := start inp {}, out := t.zero env }) := by
  simp only [decodeAll]
  generalize withTypeDeterminism o (isDeterministicType env t) = o
  cases VCodec.decode env (reader env { o with errors := .collect } inp) fuel t
      { reader := start inp {}, out := t.zero env } with
  | ok _ _ => rfl
  | error a _ => cases a <;> rfl

end VCodec.Cbor
