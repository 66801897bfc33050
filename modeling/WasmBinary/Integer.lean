import WasmBinary.Encode

/-!
# Integer fields

An `Integer` has an unbounded value. Its kind is checked when it is encoded, before anything is
written.
-/

namespace WasmBinary

/-- A value for a field of the given kind. -/
structure Integer where
  kind : IntKind
  value : Int
  deriving DecidableEq, Repr

namespace Integer

/-- Fails if the value is not one of its kind. -/
def check (n : Integer) : Encoder Unit :=
  if n.kind.Contains n.value then pure () else throw (.outOfRange n.kind n.value)

/-- The value as a word, in two's complement if it is negative. -/
def word (n : Integer) : BitVec n.kind.bits := BitVec.ofInt n.kind.bits n.value

/-- Writes the word. A bit pattern is read as signed, whichever way it was given. -/
def emitWord (n : Integer) : Encoder Unit :=
  match n.kind with
  | .unsigned _ => Leb128.writeUnsigned n.word
  | .signed _ | .pattern _ => Leb128.writeSigned n.word

end Integer

instance : Encode Integer where
  encode n := do
    n.check
    n.emitWord

end WasmBinary
