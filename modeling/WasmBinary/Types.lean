import WasmBinary.Encode

/-!
# Types

The types of values, blocks, functions, memories, tables and globals, and the arguments of memory
instructions, with their encodings.
-/

namespace WasmBinary

open Encoder

inductive ValType where
  | i32
  | i64
  | f32
  | f64
  deriving DecidableEq, Repr

def ValType.byte : ValType → UInt8
  | .i32 => 0x7f
  | .i64 => 0x7e
  | .f32 => 0x7d
  | .f64 => 0x7c

instance : Encode ValType := ⟨fun type => emitByte type.byte⟩

/-- The results of a block. The format has room for one; more are an error when encoded. -/
structure BlockType where
  results : List ValType
  deriving DecidableEq, Repr

/-- The byte of a block without a result. -/
def emptyBlockType : UInt8 := 0x40

instance : Encode BlockType where
  encode
    | ⟨[]⟩ => emitByte emptyBlockType
    | ⟨[type]⟩ => encode type
    | ⟨types⟩ => throw (.multiValueResult types.length)

structure FuncType where
  params : List ValType
  results : List ValType
  deriving DecidableEq, Repr

/-- The byte in front of a function type. -/
def funcTypeForm : UInt8 := 0x60

instance : Encode FuncType where
  encode type := do
    emitByte funcTypeForm
    encode type.params
    encode type.results

/-- The least size of a memory or table, and the largest one if there is one. -/
structure Limits where
  min : UInt32
  max : Option UInt32
  deriving DecidableEq, Repr

instance : Encode Limits where
  encode
    | ⟨min, none⟩ => do
      emitByte 0x00
      encode min
    | ⟨min, some max⟩ => do
      emitByte 0x01
      encode min
      encode max

structure MemType where
  limits : Limits
  deriving DecidableEq, Repr

instance : Encode MemType := ⟨fun type => encode type.limits⟩

/-- The type of a table. Its elements are function references. -/
structure TableType where
  limits : Limits
  deriving DecidableEq, Repr

/-- The byte of the type of function references. -/
def funcRef : UInt8 := 0x70

instance : Encode TableType where
  encode type := do
    emitByte funcRef
    encode type.limits

inductive Mutability where
  | const
  | var
  deriving DecidableEq, Repr

def Mutability.byte : Mutability → UInt8
  | .const => 0x00
  | .var => 0x01

structure GlobalType where
  mutability : Mutability
  type : ValType
  deriving DecidableEq, Repr

instance : Encode GlobalType where
  encode type := do
    encode type.type
    emitByte type.mutability.byte

/-- The argument of a load or store: the exponent of its alignment, and its offset. -/
structure MemArg where
  align : UInt32
  offset : UInt32
  deriving DecidableEq, Repr

instance : Encode MemArg where
  encode arg := do
    encode arg.align
    encode arg.offset

end WasmBinary
