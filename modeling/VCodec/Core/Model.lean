import VCodec.Error

/-!
# The data model

The kinds of value the formats can express, and text and bytes as a reader saw them. A reference
holds its bytes; `borrowed` says whether the code's view would alias the input.
-/

namespace VCodec

inductive Kind
  | null | boolean | uint | sint | real | text | bytes | array | map | tag | undefined
  deriving DecidableEq, Repr

def int64Max : Nat := 2 ^ 63 - 1

/-- The pinned width of an encoded float. -/
inductive FloatWidth
  | preferred | half | single | double
  deriving DecidableEq, Repr

structure TextRef where
  text : Bytes
  borrowed : Bool
  rawLength : Nat
  deriving DecidableEq, Repr

structure BytesRef where
  bytes : Bytes
  borrowed : Bool
  deriving DecidableEq, Repr

end VCodec
