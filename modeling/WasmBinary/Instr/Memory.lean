import WasmBinary.Types

/-!
# Memory instructions

Loads and stores, of whole values and of the lower bits of integers, with their opcodes.
-/

namespace WasmBinary

/-- Loads and stores. Those that move 8, 16 or 32 bits of an integer have the width of the
integer, and when they load, the way in which the bits above are filled. -/
inductive MemOp where
  | load (type : ValType)
  | load8 (width : Width) (sign : Signedness)
  | load16 (width : Width) (sign : Signedness)
  | load32 (sign : Signedness)
  | store (type : ValType)
  | store8 (width : Width)
  | store16 (width : Width)
  | store32
  deriving DecidableEq, Repr

def MemOp.opcode : MemOp → UInt8
  | .load .i32 => 0x28
  | .load .i64 => 0x29
  | .load .f32 => 0x2a
  | .load .f64 => 0x2b
  | .load8 .w32 .signed => 0x2c
  | .load8 .w32 .unsigned => 0x2d
  | .load16 .w32 .signed => 0x2e
  | .load16 .w32 .unsigned => 0x2f
  | .load8 .w64 .signed => 0x30
  | .load8 .w64 .unsigned => 0x31
  | .load16 .w64 .signed => 0x32
  | .load16 .w64 .unsigned => 0x33
  | .load32 .signed => 0x34
  | .load32 .unsigned => 0x35
  | .store .i32 => 0x36
  | .store .i64 => 0x37
  | .store .f32 => 0x38
  | .store .f64 => 0x39
  | .store8 .w32 => 0x3a
  | .store16 .w32 => 0x3b
  | .store8 .w64 => 0x3c
  | .store16 .w64 => 0x3d
  | .store32 => 0x3e

end WasmBinary
