import Mathlib.Data.Nat.Digits.Defs

/-!
# Errors and shared options

The error a decode reports, with its code, offset, texts and path, and the exception an encode
throws. A path is built while the failure unwinds: every frame appends its own step, so steps stand
leaf first until `finalize` reverses them. A path keeps sixteen steps and a flag for the rest.

Texts are byte strings, as the code's are: a detail may quote any bytes of the input.
-/

namespace VCodec

abbrev Bytes := List UInt8

/-- The bytes of a string literal. -/
def str (s : String) : Bytes := s.toUTF8.data.toList

/-- `std::to_string` of an unsigned integer. -/
def decimal (n : Nat) : Bytes :=
  if n = 0 then [0x30] else ((Nat.digits 10 n).reverse.map fun d => UInt8.ofNat (0x30 + d))

/-- `std::to_string` of a signed integer. -/
def decimalInt (i : Int) : Bytes :=
  if i < 0 then 0x2D :: decimal i.natAbs else decimal i.natAbs

inductive Errc
  | unexpectedToken | unterminatedString | invalidEscape | invalidUtf8
  | invalidNumber | trailingContent | depthExceeded | truncated
  | typeMismatch | missingField | unknownField | duplicateKey
  | outOfRange | unknownEnumerator | noVariantAlternative | missingTag
  | escapeInBorrowedString | nonTextKey
  | malformedItem | unsupportedSimpleValue
  | tagMismatch
  | nonDeterministic | indefiniteInBorrowedString
  deriving DecidableEq, Repr

def isSyntaxError : Errc → Bool
  | .unexpectedToken | .unterminatedString | .invalidEscape | .invalidUtf8
  | .invalidNumber | .trailingContent | .depthExceeded | .truncated
  | .malformedItem | .unsupportedSimpleValue => true
  | _ => false

structure LineCol where
  line : Nat
  column : Nat
  deriving DecidableEq, Repr

inductive PathStep
  | member (name : Bytes)
  | index (i : Nat)
  | keyText (key : Bytes)
  | keyInt (k : Nat)
  deriving DecidableEq, Repr

def maxPathSteps : Nat := 16

structure Error where
  code : Errc
  offset : Nat
  length : Nat := 0
  position : Option LineCol := none
  containerOffset : Option Nat := none
  steps : List PathStep := []
  truncated : Bool := false
  finalized : Bool := false
  denyUnknown : Bool := false
  detail : Bytes := []
  expected : Bytes := []
  found : Bytes := []
  context : Bytes := []
  suggestion : Bytes := []
  candidates : List Bytes := []
  deriving DecidableEq, Repr

namespace Error

def withLength (e : Error) (n : Nat) : Error := { e with length := n }

def withDetail (e : Error) (s : Bytes) : Error := { e with detail := s }

def withExpected (e : Error) (s : Bytes) : Error := { e with expected := s }

def withFound (e : Error) (s : Bytes) : Error := { e with found := s }

def withContext (e : Error) (s : Bytes) : Error := { e with context := s }

def withSuggestion (e : Error) (s : Bytes) : Error := { e with suggestion := s }

def withCandidate (e : Error) (s : Bytes) : Error := { e with candidates := e.candidates ++ [s] }

def withContainerOffset (e : Error) (o : Nat) : Error := { e with containerOffset := some o }

def withDenyUnknown (e : Error) : Error := { e with denyUnknown := true }

/-- Append a step; a late one, after `finalize`, goes in front to keep the root first. -/
def push (e : Error) (s : PathStep) : Error :=
  if e.finalized then
    if maxPathSteps ≤ e.steps.length then { e with truncated := true, steps := s :: e.steps.drop 1 }
    else { e with steps := s :: e.steps }
  else if maxPathSteps ≤ e.steps.length then { e with truncated := true }
  else { e with steps := e.steps ++ [s] }

def pushMember (e : Error) (identifier : Bytes) : Error := e.push (.member identifier)

def pushIndex (e : Error) (i : Nat) : Error := e.push (.index i)

def pushKey (e : Error) (key : Bytes) : Error := e.push (.keyText key)

def pushKeyInt (e : Error) (k : Nat) : Error := e.push (.keyInt k)

def finalize (e : Error) : Error :=
  if e.finalized then e else { e with steps := e.steps.reverse, finalized := true }

/-! ### No step changes the code -/

@[simp] theorem push_code (e : Error) (s : PathStep) : (e.push s).code = e.code := by
  unfold push
  split <;> split <;> rfl

@[simp] theorem pushMember_code (e : Error) (m : Bytes) :
    (e.pushMember m).code = e.code := e.push_code _

@[simp] theorem pushIndex_code (e : Error) (i : Nat) :
    (e.pushIndex i).code = e.code := e.push_code _

@[simp] theorem pushKey_code (e : Error) (k : Bytes) : (e.pushKey k).code = e.code := e.push_code _

@[simp] theorem pushKeyInt_code (e : Error) (k : Nat) :
    (e.pushKeyInt k).code = e.code := e.push_code _

@[simp] theorem withContext_code (e : Error) (s : Bytes) : (e.withContext s).code = e.code := rfl

@[simp] theorem finalize_code (e : Error) : e.finalize.code = e.code := by
  unfold finalize
  split <;> rfl

@[simp] theorem finalize_finalize (e : Error) : e.finalize.finalize = e.finalize := by
  unfold finalize
  split <;> simp_all

end Error

/-- The exception of an encode: the value exists but cannot be represented. -/
structure EncodeError where
  code : Errc
  message : Bytes
  steps : List PathStep := []
  truncated : Bool := false
  finalized : Bool := false
  deriving DecidableEq, Repr

namespace EncodeError

def push (e : EncodeError) (s : PathStep) : EncodeError :=
  if maxPathSteps ≤ e.steps.length then { e with truncated := true }
    else { e with steps := e.steps ++ [s] }

def pushMember (e : EncodeError) (identifier : Bytes) : EncodeError := e.push (.member identifier)

def pushIndex (e : EncodeError) (i : Nat) : EncodeError := e.push (.index i)

def pushKey (e : EncodeError) (k : Bytes) : EncodeError := e.push (.keyText k)

def finalize (e : EncodeError) : EncodeError :=
  if e.finalized then e else { e with steps := e.steps.reverse, finalized := true }

@[simp] theorem push_code (e : EncodeError) (s : PathStep) : (e.push s).code = e.code := by
  unfold push
  split <;> rfl

@[simp] theorem pushMember_code (e : EncodeError) (m : Bytes) :
    (e.pushMember m).code = e.code := e.push_code _

@[simp] theorem pushIndex_code (e : EncodeError) (i : Nat) :
    (e.pushIndex i).code = e.code := e.push_code _

@[simp] theorem pushKey_code (e : EncodeError) (k : Bytes) : (e.pushKey k).code = e.code :=
  e.push_code _

@[simp] theorem finalize_code (e : EncodeError) : e.finalize.code = e.code := by
  unfold finalize
  split <;> rfl

end EncodeError

/-- The result of `decode_all`: a value and every error met. -/
structure Collected (α : Type) where
  value : α
  errors : List Error
  deriving Repr

def Collected.complete {α : Type} (c : Collected α) : Prop := c.errors = []

/-! ### Options shared by the formats -/

inductive DuplicateKey
  | lastWins
  | firstWins
  | error
  deriving DecidableEq, Repr

inductive ErrorMode
  | failFast
  | collect
  deriving DecidableEq, Repr

end VCodec
