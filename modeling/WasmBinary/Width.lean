/-!
# Widths and signs

The two sizes of numbers that a module knows, and the two ways to read a word.
-/

namespace WasmBinary

inductive Width where
  | w32
  | w64
  deriving DecidableEq, Repr

def Width.bits : Width → Nat
  | .w32 => 32
  | .w64 => 64

/-- How the bits of a word are read as an integer. -/
inductive Signedness where
  | signed
  | unsigned
  deriving DecidableEq, Repr

end WasmBinary
