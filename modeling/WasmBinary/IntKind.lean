import WasmBinary.Width

/-!
# Kinds of integers

The integer fields of the format, each with the range of values it takes.
-/

namespace WasmBinary

inductive IntKind where
  | unsigned (width : Width)
  /-- An integer in two's complement. -/
  | signed (width : Width)
  /-- A bit pattern, given by its unsigned or by its signed value. -/
  | pattern (width : Width)
  deriving DecidableEq, Repr

namespace IntKind

def name : IntKind → String
  | .unsigned .w32 => "u32"
  | .unsigned .w64 => "u64"
  | .signed .w32 => "s32"
  | .signed .w64 => "s64"
  | .pattern .w32 => "i32"
  | .pattern .w64 => "i64"

def bits : IntKind → Nat
  | .unsigned width | .signed width | .pattern width => width.bits

def lower : IntKind → Int
  | .unsigned _ => 0
  | .signed width | .pattern width => -(1 <<< (width.bits - 1) : Nat)

/-- The first value that is too large. -/
def upper : IntKind → Int
  | .signed width => (1 <<< (width.bits - 1) : Nat)
  | .unsigned width | .pattern width => (1 <<< width.bits : Nat)

def Contains (kind : IntKind) (value : Int) : Prop := kind.lower ≤ value ∧ value < kind.upper

instance (kind : IntKind) (value : Int) : Decidable (kind.Contains value) :=
  inferInstanceAs (Decidable (_ ∧ _))

end IntKind

end WasmBinary
