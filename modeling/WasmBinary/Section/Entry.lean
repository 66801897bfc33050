import WasmBinary.Instr

/-!
# Entries of sections

Imports, exports, globals, element segments and data segments.
-/

namespace WasmBinary

open Encoder

inductive ImportDesc where
  /-- A function, by the index of its type. -/
  | func (type : UInt32)
  | table (type : TableType)
  | memory (type : MemType)
  | global (type : GlobalType)
  deriving DecidableEq, Repr

instance : Encode ImportDesc where
  encode
    | .func type => do
      emitByte 0x00
      encode type
    | .table type => do
      emitByte 0x01
      encode type
    | .memory type => do
      emitByte 0x02
      encode type
    | .global type => do
      emitByte 0x03
      encode type

structure Import where
  moduleName : String
  itemName : String
  desc : ImportDesc
  deriving DecidableEq, Repr

instance : Encode Import where
  encode item := do
    encode item.moduleName
    encode item.itemName
    encode item.desc

/-- The spaces of indices from which a module exports. -/
inductive ExportKind where
  | func
  | table
  | memory
  | global
  deriving DecidableEq, Repr

def ExportKind.byte : ExportKind → UInt8
  | .func => 0x00
  | .table => 0x01
  | .memory => 0x02
  | .global => 0x03

structure ExportDesc where
  kind : ExportKind
  index : UInt32
  deriving DecidableEq, Repr

instance : Encode ExportDesc where
  encode desc := do
    emitByte desc.kind.byte
    encode desc.index

structure Export where
  name : String
  desc : ExportDesc
  deriving DecidableEq, Repr

instance : Encode Export where
  encode item := do
    encode item.name
    encode item.desc

structure Global where
  type : GlobalType
  init : Expr
  deriving BEq

instance : Encode Global where
  encode item := do
    encode item.type
    encode item.init

/-- Functions to be put into a table, from the given offset on. -/
structure Element where
  table : UInt32
  offset : Expr
  funcs : List UInt32
  deriving BEq

instance : Encode Element where
  encode segment := do
    encode segment.table
    encode segment.offset
    encode segment.funcs

/-- Bytes to be put into a memory, from the given offset on. -/
structure Data where
  memory : UInt32
  offset : Expr
  bytes : Bytes
  deriving BEq

instance : Encode Data where
  encode segment := do
    encode segment.memory
    encode segment.offset
    emitSized segment.bytes.toByteArray

end WasmBinary
