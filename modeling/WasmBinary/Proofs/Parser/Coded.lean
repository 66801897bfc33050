import Mathlib.Data.List.Nodup
import WasmBinary.Proofs.Parser

/-!
# Values told apart by a byte

Types of finitely many values, each with a byte of its own. The tables of the format are written out
here, those of the opcodes in the order of the bytes. A value is read by looking its byte up.
-/

namespace WasmBinary

open Encoder WasmBinary.Parser

/-- Whether numbers differ from each other and from the positions of the bits set in `seen`. -/
def distinctFrom (seen : Nat) : List Nat → Bool
  | [] => true
  | n :: ns => !seen.testBit n && distinctFrom (seen ||| 1 <<< n) ns

lemma nodup_of_distinctFrom {seen : Nat} {ns : List Nat} (h : distinctFrom seen ns = true) :
    ns.Nodup ∧ ∀ n ∈ ns, seen.testBit n = false := by
  induction ns generalizing seen with
  | nil => exact ⟨List.nodup_nil, List.forall_mem_nil _⟩
  | cons n ns ih =>
    rw [distinctFrom, Bool.and_eq_true, Bool.not_eq_true'] at h
    obtain ⟨hnodup, hbits⟩ := ih h.2
    simp only [Nat.testBit_or, Bool.or_eq_false_iff] at hbits
    have hn : n ∉ ns := by
      intro hmem
      have hbit := (hbits n hmem).2
      rw [Nat.one_shiftLeft, Nat.testBit_two_pow_self] at hbit
      exact nomatch hbit
    refine ⟨List.nodup_cons.mpr ⟨hn, hnodup⟩, List.forall_mem_cons.mpr ⟨h.1, ?_⟩⟩
    intro m hm
    exact (hbits m hm).1

/-- Types whose values are told apart by a byte. -/
class Coded (α : Type) where
  byte : α → UInt8
  /-- The values with the bytes that the format has for them. -/
  table : List (UInt8 × α)
  mem_table : ∀ a, a ∈ table.map Prod.snd
  byte_eq : ∀ entry ∈ table, byte entry.2 = entry.1
  distinct : distinctFrom 0 (table.map fun entry => entry.1.toNat) = true

namespace Coded

variable {α : Type} [Coded α]

lemma byte_mem_table (a : α) : (byte a, a) ∈ (table : List (UInt8 × α)) := by
  obtain ⟨⟨b, a'⟩, hentry, rfl⟩ := List.mem_map.mp (mem_table a)
  have hbyte : byte a' = b := byte_eq _ hentry
  rwa [hbyte]

/-- The value that a byte stands for. -/
def ofByte? (b : UInt8) : Option α :=
  ((table : List (UInt8 × α)).find? fun entry => entry.1 = b).map Prod.snd

lemma ofByte?_byte (a : α) : ofByte? (byte a) = some a := by
  have hsome : ((table : List (UInt8 × α)).find? fun entry => entry.1 = byte a).isSome := by
    rw [List.find?_isSome]
    exact ⟨_, byte_mem_table a, decide_eq_true rfl⟩
  obtain ⟨entry, hentry⟩ := Option.isSome_iff_exists.mp hsome
  have hbyte : entry.1 = byte a := by simpa using List.find?_some hentry
  have hnodup := (nodup_of_distinctFrom (distinct (α := α))).1
  have heq : entry = (byte a, a) :=
    List.inj_on_of_nodup_map hnodup (List.mem_of_find?_eq_some hentry) (byte_mem_table a)
      (congrArg UInt8.toNat hbyte)
  rw [ofByte?, hentry, heq]
  rfl

/-- Reads the byte of a value. -/
def parser : Parser α := do
  ofOption (ofByte? (← Parser.byte))

lemma reads (a : α) : Reads parser (emitByte (byte a)) a := by
  apply Reads.emit
  intro rest
  change ((ofByte? (byte a)).map (·, rest)) = _
  rw [ofByte?_byte]
  rfl

end Coded

/-! ### Tables of the format -/

instance : Coded ValType where
  byte := ValType.byte
  table := [(0x7f, .i32), (0x7e, .i64), (0x7d, .f32), (0x7c, .f64)]
  mem_table := by rintro (_ | _) <;> simp
  byte_eq := by decide
  distinct := by decide

instance : Coded Mutability where
  byte := Mutability.byte
  table := [(0, .const), (1, .var)]
  mem_table := by rintro (_ | _) <;> simp
  byte_eq := by decide
  distinct := by decide

instance : Coded ExportKind where
  byte := ExportKind.byte
  table := [(0, .func), (1, .table), (2, .memory), (3, .global)]
  mem_table := by rintro (_ | _) <;> simp
  byte_eq := by decide
  distinct := by decide

instance : Coded SectionId where
  byte := SectionId.byte
  table := [(0, .custom), (1, .types), (2, .imports), (3, .functions), (4, .tables), (5, .memories),
    (6, .globals), (7, .exports), (8, .start), (9, .elements), (10, .codes), (11, .datas)]
  mem_table := by rintro (_ | _) <;> simp
  byte_eq := by decide
  distinct := by decide

/-! ### Opcodes -/

/-- What the first byte of an instruction can be, with the bytes that end its bodies. -/
inductive Opcode where
  | bare (op : BareOp)
  | opening (kind : BlockKind)
  | otherwise
  | closing
  | indexed (op : IndexOp)
  | brTable
  | callIndirect
  | memory (op : MemOp)
  | intConst (width : Width)
  | floatConst (width : Width)

def Opcode.byte : Opcode → UInt8
  | .bare op => op.opcode
  | .opening kind => kind.opcode
  | .otherwise => elseByte
  | .closing => endByte
  | .indexed op => op.opcode
  | .brTable => 0x0e
  | .callIndirect => 0x11
  | .memory op => op.opcode
  | .intConst width => intConstOpcode width
  | .floatConst width => floatConstOpcode width

/-- Loads and stores in the order of their opcodes. -/
def MemOp.all : List MemOp := [
  .load .i32, .load .i64, .load .f32, .load .f64,
  .load8 .w32 .signed, .load8 .w32 .unsigned, .load16 .w32 .signed, .load16 .w32 .unsigned,
  .load8 .w64 .signed, .load8 .w64 .unsigned, .load16 .w64 .signed, .load16 .w64 .unsigned,
  .load32 .signed, .load32 .unsigned,
  .store .i32, .store .i64, .store .f32, .store .f64,
  .store8 .w32, .store16 .w32, .store8 .w64, .store16 .w64, .store32]

def IntRel.all : List IntRel :=
  [.eq, .ne, .lt .signed, .lt .unsigned, .gt .signed, .gt .unsigned, .le .signed, .le .unsigned,
    .ge .signed, .ge .unsigned]

def FloatRel.all : List FloatRel := [.eq, .ne, .lt, .gt, .le, .ge]

def IntUnary.all : List IntUnary := [.clz, .ctz, .popcnt]

def IntBinary.all : List IntBinary :=
  [.add, .sub, .mul, .div .signed, .div .unsigned, .rem .signed, .rem .unsigned, .and, .or, .xor,
    .shl, .shr .signed, .shr .unsigned, .rotl, .rotr]

def FloatUnary.all : List FloatUnary := [.abs, .neg, .ceil, .floor, .trunc, .nearest, .sqrt]

def FloatBinary.all : List FloatBinary := [.add, .sub, .mul, .div, .min, .max, .copysign]

def Conversion.all : List Conversion := [
  .wrap,
  .trunc .w32 .w32 .signed, .trunc .w32 .w32 .unsigned,
  .trunc .w32 .w64 .signed, .trunc .w32 .w64 .unsigned,
  .extend .signed, .extend .unsigned,
  .trunc .w64 .w32 .signed, .trunc .w64 .w32 .unsigned,
  .trunc .w64 .w64 .signed, .trunc .w64 .w64 .unsigned,
  .convert .w32 .w32 .signed, .convert .w32 .w32 .unsigned,
  .convert .w32 .w64 .signed, .convert .w32 .w64 .unsigned,
  .demote,
  .convert .w64 .w32 .signed, .convert .w64 .w32 .unsigned,
  .convert .w64 .w64 .signed, .convert .w64 .w64 .unsigned,
  .promote,
  .floatBits .w32, .floatBits .w64, .intBits .w32, .intBits .w64]

/-- Numeric instructions in the order of their opcodes. -/
def Numeric.all : List Numeric := List.flatten [
  [.intEqz .w32], IntRel.all.map (.intRel .w32),
  [.intEqz .w64], IntRel.all.map (.intRel .w64),
  FloatRel.all.map (.floatRel .w32), FloatRel.all.map (.floatRel .w64),
  IntUnary.all.map (.intUnary .w32), IntBinary.all.map (.intBinary .w32),
  IntUnary.all.map (.intUnary .w64), IntBinary.all.map (.intBinary .w64),
  FloatUnary.all.map (.floatUnary .w32), FloatBinary.all.map (.floatBinary .w32),
  FloatUnary.all.map (.floatUnary .w64), FloatBinary.all.map (.floatBinary .w64),
  Conversion.all.map .conversion]

lemma MemOp.mem_all (op : MemOp) : op ∈ all := by
  rcases op with (_ | _) | ⟨_ | _, _ | _⟩ | ⟨_ | _, _ | _⟩ | (_ | _) | (_ | _) | (_ | _) | (_ | _) |
    _ <;> decide

lemma IntRel.mem_all (rel : IntRel) : rel ∈ all := by
  rcases rel with _ | _ | (_ | _) | (_ | _) | (_ | _) | (_ | _) <;> decide

lemma IntBinary.mem_all (op : IntBinary) : op ∈ all := by
  rcases op with _ | _ | _ | (_ | _) | (_ | _) | _ | _ | _ | _ | (_ | _) | _ | _ <;> decide

lemma Conversion.mem_all (op : Conversion) : op ∈ all := by
  rcases op with _ | ⟨_ | _, _ | _, _ | _⟩ | (_ | _) | ⟨_ | _, _ | _, _ | _⟩ | _ | _ | (_ | _) |
    (_ | _) <;> decide

lemma Numeric.mem_all (op : Numeric) : op ∈ all := by
  cases op with
  | intEqz width => cases width <;> simp [all]
  | intRel width rel => cases width <;> simp [all, rel.mem_all]
  | floatRel width rel => cases width <;> cases rel <;> decide
  | intUnary width op => cases width <;> cases op <;> decide
  | intBinary width op => cases width <;> simp [all, op.mem_all]
  | floatUnary width op => cases width <;> cases op <;> decide
  | floatBinary width op => cases width <;> cases op <;> decide
  | conversion op => simp [all, op.mem_all]

/-- Values that have consecutive bytes, with these bytes. -/
def consecutive {α : Type} (first : UInt8) : List α → List (UInt8 × α)
  | [] => []
  | a :: as => (first, a) :: consecutive (first + 1) as

@[simp]
lemma map_snd_consecutive {α : Type} (first : UInt8) (as : List α) :
    (consecutive first as).map Prod.snd = as := by
  induction as generalizing first with
  | nil => rfl
  | cons a as ih => rw [consecutive, List.map_cons, ih]

/-- The bytes from 0x06 to 0x0a, 0x12 to 0x19, 0x1c to 0x1f, 0x25 to 0x27 and those after 0xbf are
no opcodes. -/
def Opcode.table : List (UInt8 × Opcode) := List.flatten [
  consecutive 0x00 [.bare .unreachable, .bare .nop, .opening .block, .opening .loop,
    .opening .ifThen, .otherwise],
  consecutive 0x0b [.closing, .indexed .br, .indexed .brIf, .brTable, .bare .ret, .indexed .call,
    .callIndirect],
  consecutive 0x1a [.bare .drop, .bare .select],
  consecutive 0x20 [.indexed .localGet, .indexed .localSet, .indexed .localTee, .indexed .globalGet,
    .indexed .globalSet],
  consecutive 0x28 (MemOp.all.map .memory),
  consecutive 0x3f [.indexed .memorySize, .indexed .memoryGrow],
  consecutive 0x41 [.intConst .w32, .intConst .w64, .floatConst .w32, .floatConst .w64],
  consecutive 0x45 (Numeric.all.map fun op => .bare (.numeric op))]

lemma Opcode.mem_table (opcode : Opcode) : opcode ∈ table.map Prod.snd := by
  simp only [table, List.map_flatten, List.map_cons, List.map_nil, map_snd_consecutive]
  cases opcode with
  | bare op =>
    cases op with
    | numeric op => simp [op.mem_all]
    | _ => simp
  | opening kind => cases kind <;> simp
  | indexed op => cases op <;> simp
  | memory op => simp [op.mem_all]
  | intConst width => cases width <;> simp
  | floatConst width => cases width <;> simp
  | _ => simp

instance : Coded Opcode where
  byte := Opcode.byte
  table := Opcode.table
  mem_table := Opcode.mem_table
  byte_eq := by decide +kernel
  distinct := by decide +kernel

end WasmBinary
