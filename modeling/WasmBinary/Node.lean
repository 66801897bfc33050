import WasmBinary.Module

/-!
# Nodes

A node is any part of a module that has an encoding of its own. Vectors and pairs of nodes are
nodes too.
-/

namespace WasmBinary

open Encoder

inductive Node where
  | u32 (word : UInt32)
  | u64 (word : UInt64)
  | i32 (word : Int32)
  | i64 (word : Int64)
  | integer (n : Integer)
  | f32 (value : FloatBits .w32)
  | f64 (value : FloatBits .w64)
  | name (name : String)
  | vector (nodes : List Node)
  | pair (first second : Node)
  | valType (type : ValType)
  | blockType (type : BlockType)
  | funcType (type : FuncType)
  | limits (limits : Limits)
  | memType (type : MemType)
  | tableType (type : TableType)
  | globalType (type : GlobalType)
  | memArg (arg : MemArg)
  | instr (instr : Instr)
  | expr (expr : Expr)
  | importDesc (desc : ImportDesc)
  | importItem (item : Import)
  | exportDesc (desc : ExportDesc)
  | exportItem (item : Export)
  | globalItem (item : Global)
  | element (segment : Element)
  | localGroup (group : Local)
  | code (code : Code)
  | data (segment : Data)
  | sectionItem (item : Section)
  | module (m : Module)

namespace Node

mutual

def emit : Node → Encoder Unit
  | .u32 x => encode x
  | .u64 x => encode x
  | .i32 x => encode x
  | .i64 x => encode x
  | .integer x => encode x
  | .f32 x => encode x
  | .f64 x => encode x
  | .name x => encode x
  | .vector nodes => do
    emitLength nodes.length
    emitSeq nodes
  | .pair first second => do
    emit first
    emit second
  | .valType x => encode x
  | .blockType x => encode x
  | .funcType x => encode x
  | .limits x => encode x
  | .memType x => encode x
  | .tableType x => encode x
  | .globalType x => encode x
  | .memArg x => encode x
  | .instr x => encode x
  | .expr x => encode x
  | .importDesc x => encode x
  | .importItem x => encode x
  | .exportDesc x => encode x
  | .exportItem x => encode x
  | .globalItem x => encode x
  | .element x => encode x
  | .localGroup x => encode x
  | .code x => encode x
  | .data x => encode x
  | .sectionItem x => encode x
  | .module x => encode x

def emitSeq : List Node → Encoder Unit
  | [] => pure ()
  | node :: nodes => do
    emit node
    emitSeq nodes

end

instance : Encode Node := ⟨emit⟩

mutual

/-- Equality of nodes of the same kind, in which floats are compared as numbers. -/
protected def beq : Node → Node → Bool
  | .u32 a, .u32 b => a == b
  | .u64 a, .u64 b => a == b
  | .i32 a, .i32 b => a == b
  | .i64 a, .i64 b => a == b
  | .integer a, .integer b => a == b
  | .f32 a, .f32 b => a == b
  | .f64 a, .f64 b => a == b
  | .name a, .name b => a == b
  | .vector as, .vector bs => seqBeq as bs
  | .pair a a', .pair b b' => a.beq b && a'.beq b'
  | .valType a, .valType b => a == b
  | .blockType a, .blockType b => a == b
  | .funcType a, .funcType b => a == b
  | .limits a, .limits b => a == b
  | .memType a, .memType b => a == b
  | .tableType a, .tableType b => a == b
  | .globalType a, .globalType b => a == b
  | .memArg a, .memArg b => a == b
  | .instr a, .instr b => a == b
  | .expr a, .expr b => a == b
  | .importDesc a, .importDesc b => a == b
  | .importItem a, .importItem b => a == b
  | .exportDesc a, .exportDesc b => a == b
  | .exportItem a, .exportItem b => a == b
  | .globalItem a, .globalItem b => a == b
  | .element a, .element b => a == b
  | .localGroup a, .localGroup b => a == b
  | .code a, .code b => a == b
  | .data a, .data b => a == b
  | .sectionItem a, .sectionItem b => a == b
  | .module a, .module b => a == b
  | _, _ => false

def seqBeq : List Node → List Node → Bool
  | [], [] => true
  | a :: as, b :: bs => a.beq b && seqBeq as bs
  | _, _ => false

end

instance : BEq Node := ⟨Node.beq⟩

end Node

end WasmBinary
