import WasmBinary.FloatBits
import WasmBinary.Instr.Memory
import WasmBinary.Instr.Numeric
import WasmBinary.Integer

/-!
# Instructions

Instructions form a tree, in which blocks hold the instructions inside them. In the encoding a
block is its opcode, its type, its instructions and an end byte, with an else byte between the two
bodies of a conditional.

Two things can be wrong with an instruction. A constant out of its range is found before its
opcode is written, a block with more than one result after.
-/

namespace WasmBinary

open Encoder

/-- The byte that ends a block or an expression. -/
def endByte : UInt8 := 0x0b

/-- The byte between the two bodies of a conditional. -/
def elseByte : UInt8 := 0x05

/-- Instructions that are their opcode alone. -/
inductive BareOp where
  | unreachable
  | nop
  | ret
  | drop
  | select
  | numeric (op : Numeric)
  deriving DecidableEq, Repr

def BareOp.opcode : BareOp → UInt8
  | .unreachable => 0x00
  | .nop => 0x01
  | .ret => 0x0f
  | .drop => 0x1a
  | .select => 0x1b
  | .numeric op => op.opcode

/-- Instructions with one body. -/
inductive BlockKind where
  | block
  | loop
  /-- A conditional without an alternative. -/
  | ifThen
  deriving DecidableEq, Repr

/-- The opcode of a conditional, with or without an alternative. -/
def ifOpcode : UInt8 := 0x04

def BlockKind.opcode : BlockKind → UInt8
  | .block => 0x02
  | .loop => 0x03
  | .ifThen => ifOpcode

/-- Instructions with one index as their argument. -/
inductive IndexOp where
  | br
  | brIf
  | call
  | localGet
  | localSet
  | localTee
  | globalGet
  | globalSet
  | memorySize
  | memoryGrow
  deriving DecidableEq, Repr

def IndexOp.opcode : IndexOp → UInt8
  | .br => 0x0c
  | .brIf => 0x0d
  | .call => 0x10
  | .localGet => 0x20
  | .localSet => 0x21
  | .localTee => 0x22
  | .globalGet => 0x23
  | .globalSet => 0x24
  | .memorySize => 0x3f
  | .memoryGrow => 0x40

def intConstOpcode : Width → UInt8
  | .w32 => 0x41
  | .w64 => 0x42

def floatConstOpcode : Width → UInt8
  | .w32 => 0x43
  | .w64 => 0x44

inductive Instr where
  | bare (op : BareOp)
  | block (kind : BlockKind) (type : BlockType) (body : List Instr)
  | ifElse (type : BlockType) (thenBody elseBody : List Instr)
  | indexed (op : IndexOp) (index : UInt32)
  /-- A branch to the label that the operand selects, or to the last one. -/
  | brTable (labels : List UInt32) (otherwise : UInt32)
  | callIndirect (type table : UInt32)
  | memory (op : MemOp) (arg : MemArg)
  /-- A constant, given by its signed or by its unsigned value. -/
  | intConst (width : Width) (value : Int)
  | f32Const (value : FloatBits .w32)
  | f64Const (value : FloatBits .w64)

namespace Instr

/-- The byte with which an instruction starts. -/
def opcode : Instr → UInt8
  | .bare op => op.opcode
  | .block kind _ _ => kind.opcode
  | .ifElse _ _ _ => ifOpcode
  | .indexed op _ => op.opcode
  | .brTable _ _ => 0x0e
  | .callIndirect _ _ => 0x11
  | .memory op _ => op.opcode
  | .intConst width _ => intConstOpcode width
  | .f32Const _ => floatConstOpcode .w32
  | .f64Const _ => floatConstOpcode .w64

mutual

def emit (instr : Instr) : Encoder Unit :=
  match instr with
  | .bare _ => emitByte instr.opcode
  | .block _ type body => do
    emitByte instr.opcode
    encode type
    emitSeq body
    emitByte endByte
  | .ifElse type thenBody elseBody => do
    emitByte instr.opcode
    encode type
    emitSeq thenBody
    emitByte elseByte
    emitSeq elseBody
    emitByte endByte
  | .indexed _ index => do
    emitByte instr.opcode
    encode index
  | .brTable labels otherwise => do
    emitByte instr.opcode
    encode labels
    encode otherwise
  | .callIndirect type table => do
    emitByte instr.opcode
    encode type
    encode table
  | .memory _ arg => do
    emitByte instr.opcode
    encode arg
  | .intConst width value => do
    let n : Integer := ⟨.pattern width, value⟩
    n.check
    emitByte instr.opcode
    n.emitWord
  | .f32Const value => do
    emitByte instr.opcode
    encode value
  | .f64Const value => do
    emitByte instr.opcode
    encode value

def emitSeq : List Instr → Encoder Unit
  | [] => pure ()
  | instr :: instrs => do
    emit instr
    emitSeq instrs

end

instance : Encode Instr := ⟨emit⟩

mutual

/-- Equality, in which floats are compared as numbers. -/
protected def beq : Instr → Instr → Bool
  | .bare op, .bare op' => op == op'
  | .block kind type body, .block kind' type' body' =>
    kind == kind' && type == type' && seqBeq body body'
  | .ifElse type thenBody elseBody, .ifElse type' thenBody' elseBody' =>
    type == type' && seqBeq thenBody thenBody' && seqBeq elseBody elseBody'
  | .indexed op index, .indexed op' index' => op == op' && index == index'
  | .brTable labels otherwise, .brTable labels' otherwise' =>
    labels == labels' && otherwise == otherwise'
  | .callIndirect type table, .callIndirect type' table' => type == type' && table == table'
  | .memory op arg, .memory op' arg' => op == op' && arg == arg'
  | .intConst width value, .intConst width' value' => width == width' && value == value'
  | .f32Const value, .f32Const value' => value == value'
  | .f64Const value, .f64Const value' => value == value'
  | _, _ => false

def seqBeq : List Instr → List Instr → Bool
  | [], [] => true
  | instr :: instrs, instr' :: instrs' => instr.beq instr' && seqBeq instrs instrs'
  | _, _ => false

end

instance : BEq Instr := ⟨Instr.beq⟩

end Instr

/-- Instructions that compute a value or make up the body of a function. -/
structure Expr where
  body : List Instr

instance : Encode Expr where
  encode expr := do
    Instr.emitSeq expr.body
    emitByte endByte

instance : BEq Expr := ⟨fun a b => Instr.seqBeq a.body b.body⟩

end WasmBinary
