import WasmBinary.Encode

/-!
# Floating-point constants

A constant is kept by its bit pattern, so that signed zeros and NaN payloads are exact. Comparison
is that of IEEE numbers and not of patterns.
-/

namespace WasmBinary

/-- The number of fraction bits of a float. -/
def Width.fractionBits : Width → Nat
  | .w32 => 23
  | .w64 => 52

structure FloatBits (width : Width) where
  bits : BitVec width.bits

namespace FloatBits

variable {width : Width}

/-- The pattern without its sign bit. -/
def magnitude (x : FloatBits width) : Nat := x.bits.toNat % (1 <<< (width.bits - 1))

/-- The magnitude of infinity: all bits of the exponent are set. -/
def infinity (width : Width) : Nat := (1 <<< (width.bits - 1)) - (1 <<< width.fractionBits)

/-- Whether the pattern stands for no number. -/
def isNaN (x : FloatBits width) : Bool := infinity width < x.magnitude

def isZero (x : FloatBits width) : Bool := x.magnitude == 0

/-- Equality of numbers: NaN differs from itself, and the two zeros are equal. -/
instance : BEq (FloatBits width) where
  beq x y := !x.isNaN && !y.isNaN && (x.bits == y.bits || (x.isZero && y.isZero))

/-- The bytes of a pattern, lowest first. -/
def bytes (x : FloatBits width) : Bytes :=
  (List.range (width.bits / 8)).map fun i => ⟨x.bits.extractLsb' (8 * i) 8⟩

instance : Encode (FloatBits width) := ⟨fun x => Encoder.emit x.bytes⟩

end FloatBits

end WasmBinary
