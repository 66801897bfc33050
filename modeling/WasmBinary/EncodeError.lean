import WasmBinary.IntKind
import WasmBinary.Sink

/-!
# Encoding errors
-/

namespace WasmBinary

/-- Why a part of a module has no encoding, or could not be written. -/
inductive EncodeError where
  /-- The value of an integer field lies outside the range of its kind. -/
  | outOfRange (kind : IntKind) (value : Int)
  /-- A block has `count` result types, where the format has room for one. -/
  | multiValueResult (count : Nat)
  | lengthOverflow (length : Nat)
  | io (cause : Sink.Error)
  deriving DecidableEq, Repr

def EncodeError.message : EncodeError → String
  | .outOfRange kind value => s!"value {value} is out of range for {kind.name}"
  | .multiValueResult count =>
    s!"block result type has {count} value types, at most one is allowed"
  | .lengthOverflow length => s!"length {length} does not fit in a u32 length field"
  | .io cause => s!"IO error: {cause.message}"

end WasmBinary
