import VCodec.Core.Model

/-!
# CBOR options

The options of a CBOR call, with the defaults of the source.
-/

namespace VCodec.Cbor

structure Options where
  deterministic : Bool := true
  indefinite : Bool := false
  floats : FloatWidth := .preferred
  selfDescribe : Bool := false
  requireDeterministic : Bool := false
  ignoreUnknownTags : Bool := true
  undefinedAsNull : Bool := true
  acceptTypedArrays : Bool := true
  maxDepth : Nat := 256
  validateUtf8 : Bool := true
  duplicates : DuplicateKey := .lastWins
  errors : ErrorMode := .failFast
  deriving DecidableEq, Repr

/-- The same options with the validation of deterministic encoding on. -/
def Options.strict (o : Options) : Options := { o with requireDeterministic := true }

/-- The same options with the validation of deterministic encoding off. -/
def Options.lax (o : Options) : Options := { o with requireDeterministic := false }

end VCodec.Cbor
