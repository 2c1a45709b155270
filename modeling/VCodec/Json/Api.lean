import VCodec.Core.Entry
import VCodec.Json.Read

/-!
# Typed decoding of JSON

`format_traits` for JSON, the reader as construction sees it, and the decode entry points.
-/

namespace VCodec.Json

/-! ### Traits -/

def isBytes (f : FieldMeta) (t : Ty) : Bool :=
  match t with
  | .byteRange _ => true
  | t => contiguousOfUint8 t && f.bytes.isSome

def traits : Traits where
  isBytes := isBytes
  integerKey _ _ := none
  acceptsTextKey _ := true
  expectedTags _ _ _ := []
  enumDefaultInteger := false
  bulkRange _ _ := false
  acceptsBulkRange _ := false
  timeCodec := false

/-! ### The reader -/

def reader (o : Options) (cc : Charconv) (inp : Bytes) : Reader State Cursor Cursor where
  traits := traits
  duplicates := o.duplicates
  errors := o.errors
  error := error inp
  collected s := s.collected
  setCollected es s := { s with collected := es }
  offset := offset inp
  peek := peek cc inp
  save := State.save
  restore n s := s.restore n
  expectNull := expectNull inp
  expectBoolean := expectBoolean inp
  expectUint := expectUint o cc inp
  expectSint := expectSint o cc inp
  expectReal := expectReal cc inp
  expectText := expectText o inp
  expectBytes := expectBytes o inp
  expectTags _ := pure ()
  readRange _ := pure false
  expectArray := expectArray o inp
  next := Cursor.next inp arrayBrackets
  expectMap := expectMap o inp
  nextKey := Cursor.next inp objectBrackets
  keyKind := pure .text
  keyText := keyText o inp
  keyUint := keyInteger inp
  keySint := keyInteger inp
  skipValue := skipValue o cc inp

/-! ### Entry points -/

def finishErrors (inp : Bytes) (s : State) : List Error :=
  match finish inp s with
  | .ok _ _ => []
  | .error e _ => [e]

/-- What remains to be checked when the value has been decoded. -/
def conclude (o : Options) (inp : Bytes) (b : Build State) : Except Abort Val :=
  match (if o.errors = .collect then b.reader.collected.head? else none) with
  | some e => .error (.error e)
  | none =>
    match finish inp b.reader with
    | .ok _ _ => .ok b.out
    | .error e _ => .error (.error e)

def decode (env : Env) (o : Options) (cc : Charconv) (fuel : Nat) (t : Ty) (inp : Bytes) :
    Except Abort Val :=
  match VCodec.decode env (reader o cc inp) fuel t { reader := {}, out := t.zero env } with
  | .ok _ b => conclude o inp b
  | .error a _ => .error a

/-- Decode into an object of the caller's, which keeps what a failing run has written. -/
def decodeInto (env : Env) (o : Options) (cc : Charconv) (fuel : Nat) (t : Ty) (inp : Bytes) :
    EStateM Abort Val Unit := fun out =>
  match VCodec.decode env (reader o cc inp) fuel t { reader := {}, out } with
  | .ok _ b =>
    match conclude o inp b with
    | .ok v => .ok () v
    | .error a => .error a b.out
  | .error a b => .error a b.out

/-- Decode and return every error met: those collected on the way, and the one that ended the
run. -/
def decodeAll (env : Env) (o : Options) (cc : Charconv) (fuel : Nat) (t : Ty) (inp : Bytes) :
    Except Abort (Collected Val) :=
  let o := { o with errors := .collect }
  match VCodec.decode env (reader o cc inp) fuel t { reader := {}, out := t.zero env } with
  | .ok _ b => .ok { value := b.out, errors := b.reader.collected ++ finishErrors inp b.reader }
  | .error (.error e) b => .ok { value := b.out, errors := b.reader.collected ++ [e.finalize] }
  | .error a _ => .error a

variable {env : Env} {o : Options} {cc : Charconv} {fuel : Nat} {t : Ty} {inp : Bytes}

theorem conclude_eq (b : Build State) :
    conclude o inp b =
      settle (o.errors = .collect) b.reader.collected (finish inp b.reader) b.out := by
  unfold conclude settle
  cases (if o.errors = .collect then b.reader.collected.head? else none) with
  | some _ => rfl
  | none => cases finish inp b.reader <;> rfl

theorem finishErrors_eq (s : State) : finishErrors inp s = lastErrors (finish inp s) := by
  unfold finishErrors
  cases finish inp s <;> rfl

theorem decode_eq : decode env o cc fuel t inp =
    deliver id (conclude o inp)
      (VCodec.decode env (reader o cc inp) fuel t { reader := {}, out := t.zero env }) := by
  unfold decode
  cases VCodec.decode env (reader o cc inp) fuel t { reader := {}, out := t.zero env } with
  | ok _ _ => rfl
  | error a _ => cases a <;> rfl

theorem outcome_decodeInto (v : Val) : outcome (decodeInto env o cc fuel t inp v) =
    deliver id (conclude o inp)
      (VCodec.decode env (reader o cc inp) fuel t { reader := {}, out := v }) := by
  unfold decodeInto
  cases VCodec.decode env (reader o cc inp) fuel t { reader := {}, out := v } with
  | ok _ b =>
    simp only [deliver]
    cases conclude o inp b <;> rfl
  | error a _ => cases a <;> rfl

theorem decodeAll_eq : decodeAll env o cc fuel t inp =
    let o := { o with errors := .collect }
    gather id (fun b => b.reader.collected) (fun b => finishErrors inp b.reader)
      (VCodec.decode env (reader o cc inp) fuel t { reader := {}, out := t.zero env }) := by
  simp only [decodeAll]
  cases VCodec.decode env (reader { o with errors := .collect } cc inp) fuel t
      { reader := {}, out := t.zero env } with
  | ok _ b => rw [gather, List.map_id]
  | error a b =>
    cases a with
    | error _ => rw [gather, List.map_id]; rfl
    | rejected => rfl
    | outOfFuel => rfl

end VCodec.Json
