import VCodec.Core.Types
import VCodec.Library.Run

/-!
# Readers and objects under construction

What construction asks of a format: its reader, with the cursors over arrays and maps, and its
traits. Construction runs on the reader's state and on the object it fills, which keeps what a
failing run has already written into it, as the code's out parameter does.
-/

namespace VCodec

/-- The hooks of `format_traits` that construction and traversal consult. -/
structure Traits where
  isBytes : FieldMeta → Ty → Bool
  integerKey : StructDef → Field → Option Int
  acceptsTextKey : FieldMeta → Bool
  expectedTags : Env → FieldMeta → Ty → List Nat
  enumDefaultInteger : Bool
  bulkRange : FieldMeta → Ty → Bool
  acceptsBulkRange : Ty → Bool
  /-- The format has a codec for time points. -/
  timeCodec : Bool

/-- `enum_encodes_as_integer`. -/
def Traits.enumAsInteger (t : Traits) (f : FieldMeta) (e : EnumDef) : Bool :=
  if f.asInteger then true
  else if f.asText then false
  else if e.asInteger then true
  else if e.asText then false
  else t.enumDefaultInteger

inductive Abort
  | error (e : Error)
  /-- The audit rejects the type. -/
  | rejected
  /-- The recursion of the model is used up. -/
  | outOfFuel
  deriving DecidableEq, Repr

/-- A reader, and the object that is decoded into. -/
structure Build (σ : Type) where
  reader : σ
  out : Val

abbrev D (σ : Type) := EStateM Abort (Build σ)

structure Reader (σ S M : Type) where
  traits : Traits
  duplicates : DuplicateKey
  errors : ErrorMode
  error : Errc → Nat → Error
  collected : σ → List Error
  setCollected : List Error → σ → σ
  offset : EStateM Error σ Nat
  peek : EStateM Error σ Kind
  save : σ → Nat
  restore : Nat → σ → σ
  expectNull : EStateM Error σ Unit
  expectBoolean : EStateM Error σ Bool
  expectUint : FieldMeta → EStateM Error σ Nat
  expectSint : FieldMeta → EStateM Error σ Int
  expectReal : EStateM Error σ Double
  expectText : EStateM Error σ TextRef
  expectBytes : FieldMeta → EStateM Error σ BytesRef
  expectTags : List Nat → EStateM Error σ Unit
  /-- The bulk form of a numeric range, if that is what comes next. -/
  readRange : Ty → D σ Bool
  expectArray : EStateM Error σ S
  next : S → EStateM Error σ (Bool × S)
  expectMap : EStateM Error σ M
  nextKey : M → EStateM Error σ (Bool × M)
  keyKind : EStateM Error σ Kind
  keyText : EStateM Error σ TextRef
  keyUint : EStateM Error σ Nat
  keySint : EStateM Error σ Int
  skipValue : EStateM Error σ Unit

/-- A range of `std::uint8_t` that an annotation turns into bytes. -/
def contiguousOfUint8 : Ty → Bool
  | .seq .vector t | .array _ t =>
    match t with
    | .int k => k = uint8
    | _ => false
  | _ => false

/-! ### Saved places -/

/-- The position of a place that is saved in one word. -/
theorem saved_pos {pos : Nat} (depth : Nat) (hpos : pos < 2 ^ 48) :
    (pos ||| (depth * 2 ^ 48 % 2 ^ 64)) % 2 ^ 48 = pos := by
  have hhigh : depth * 2 ^ 48 % 2 ^ 64 % 2 ^ 48 = 0 := by omega
  rw [Nat.or_mod_two_pow, Nat.mod_eq_of_lt hpos, hhigh, Nat.or_zero]

theorem saved_depth {pos depth : Nat} (hpos : pos < 2 ^ 48) (hdepth : depth < 2 ^ 16) :
    (pos ||| (depth * 2 ^ 48 % 2 ^ 64)) / 2 ^ 48 = depth := by
  have hmod : depth * 2 ^ 48 % 2 ^ 64 = 2 ^ 48 * depth := by omega
  rw [hmod, Nat.or_comm, ← Nat.two_pow_add_eq_or_of_lt hpos]
  omega

/-! ### Runs on an object -/

namespace D

variable {σ S M α : Type}

/-- A call of the reader. -/
def call (m : EStateM Error σ α) : D σ α := fun b =>
  match m b.reader with
  | .ok a s => .ok a { b with reader := s }
  | .error e s => .error (.error e) { b with reader := s }

theorem call_of_ok {m : EStateM Error σ α} {b : Build σ} {a : α} {s : σ}
    (h : m b.reader = .ok a s) :
    call m b = .ok a { b with reader := s } := by
  rw [call, h]

theorem call_of_error {m : EStateM Error σ α} {b : Build σ} {e : Error} {s : σ}
    (h : m b.reader = .error e s) :
    call m b = .error (.error e) { b with reader := s } := by
  rw [call, h]

def fail (e : Error) : D σ α := throw (.error e)

def getReader : D σ σ := fun b => .ok b.reader b

def modifyReader (f : σ → σ) : D σ Unit := fun b => .ok () { b with reader := f b.reader }

def getOut : D σ Val := fun b => .ok b.out b

/-- Assign the object. -/
def setOut (v : Val) : D σ Unit := fun b => .ok () { b with out := v }

/-- Run on a part of the object. -/
def focus (get : Val → Val) (put : Val → Val → Val) (m : D σ α) : D σ α := fun b =>
  match m { b with out := get b.out } with
  | .ok a b' => .ok a { b' with out := put b.out b'.out }
  | .error e b' => .error e { b' with out := put b.out b'.out }

/-- Run on element or member `i` of the object. -/
def onItem (i : Nat) (m : D σ α) : D σ α := focus (Val.item i) (Val.setItem i) m

/-- Run on the value that the optional-like object holds. -/
def onHeld (m : D σ α) : D σ α := focus Val.held (fun _ v => .some v) m

/-- Run on alternative `i` of the variant object. -/
def onAlternative (i : Nat) (m : D σ α) : D σ α := focus Val.payload (fun _ v => .variant i v) m

/-- Run on a local object, and return what it has become. -/
def onLocal (v : Val) (m : D σ Unit) : D σ Val := fun b =>
  match m { b with out := v } with
  | .ok _ b' => .ok b'.out { b' with out := b.out }
  | .error e b' => .error e { b' with out := b.out }

/-- A call of the reader whose error is dropped. -/
def attempt (m : EStateM Error σ α) : D σ (Option α) := fun b =>
  match m b.reader with
  | .ok a s => .ok (some a) { b with reader := s }
  | .error _ s => .ok none { b with reader := s }

/-- Change the error of a failing run. -/
def mapError (f : Error → Error) (m : D σ α) : D σ α :=
  Run.mapError (fun
    | .error e => .error (f e)
    | a => a) m

/-- A step of the path, on the error of a failing run and on every error collected during it. -/
def inStep (r : Reader σ S M) (step : Error → Error) (m : D σ α) : D σ α := fun b =>
  let annotate : Build σ → Build σ := fun b' =>
    match r.errors with
    | .failFast => b'
    | .collect =>
      let mark := (r.collected b.reader).length
      let errors := r.collected b'.reader
      { b' with reader := r.setCollected (errors.take mark ++ (errors.drop mark).map step) b'.reader }
  match mapError step m b with
  | .ok a b' => .ok a (annotate b')
  | .error e b' => .error e (annotate b')

/-- Append to the collected errors. -/
def collect (r : Reader σ S M) (e : Error) : D σ Unit :=
  modifyReader fun s => r.setCollected (r.collected s ++ [e]) s

end D

end VCodec
