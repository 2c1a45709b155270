import VCodec.Core.Model
import VCodec.Core.Types

/-!
# JSON options

The options of a JSON call, with the defaults of the source.
-/

namespace VCodec.Json

structure Options where
  pretty : Bool := false
  indent : Nat := 2
  maxDepth : Nat := 256
  validateUtf8 : Bool := true
  duplicates : DuplicateKey := .lastWins
  errors : ErrorMode := .failFast
  deriving DecidableEq, Repr

end VCodec.Json
