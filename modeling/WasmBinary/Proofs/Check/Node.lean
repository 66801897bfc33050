import WasmBinary.Node
import WasmBinary.Proofs.Check

/-!
# The checks made for each kind of node

Most parts of a module have nothing that can be wrong with them but their lengths. The values of
constants and the results of blocks are checked where they stand in the tree, and the length of a
section or a function body once its contents are complete.
-/

namespace WasmBinary

open Encoder

/-! ### Types -/

instance : Checked ValType := ⟨fun _ => [], fun _ => Checking.emitByte _⟩

instance : Checked BlockType where
  checks type := [.results type.results.length]
  checking
    | ⟨[]⟩ => Checking.cons_of_holds (Nat.zero_le 1) (Checking.emitByte _)
    | ⟨[type]⟩ => Checking.cons_of_holds (Nat.le_refl 1) (checking type)
    | ⟨type :: type' :: types⟩ => Checking.throw (c := .results (types.length + 2)) (by
        unfold Check.Holds
        omega)

instance : Checked FuncType where
  checks type := checks type.params ++ checks type.results
  checking type := (Checking.emitByte _).seq ((checking type.params).seq (checking type.results))

instance : Checked Limits where
  checks _ := []
  checking
    | ⟨min, none⟩ => (Checking.emitByte _).seq (checking min)
    | ⟨min, some max⟩ => (Checking.emitByte _).seq ((checking min).seq (checking max))

instance : Checked MemType := ⟨fun _ => [], fun type => checking type.limits⟩

instance : Checked TableType :=
  ⟨fun _ => [], fun type => (Checking.emitByte _).seq (checking type.limits)⟩

instance : Checked GlobalType :=
  ⟨fun _ => [], fun type => (checking type.type).seq (Checking.emitByte _)⟩

instance : Checked MemArg :=
  ⟨fun _ => [], fun arg => (checking arg.align).seq (checking arg.offset)⟩

instance {width : Width} : Checked (FloatBits width) := ⟨fun _ => [], fun _ => Checking.emit _⟩

/-! ### Instructions -/

namespace Instr

mutual

def checks : Instr → List Check
  | .block _ type body => Checked.checks type ++ seqChecks body
  | .ifElse type thenBody elseBody =>
    Checked.checks type ++ (seqChecks thenBody ++ seqChecks elseBody)
  | .brTable labels _ => Checked.checks labels
  | .intConst width value => [.integer (.pattern width) value]
  | .bare _ | .indexed _ _ | .callIndirect _ _ | .memory _ _ | .f32Const _ | .f64Const _ => []

def seqChecks : List Instr → List Check
  | [] => []
  | instr :: instrs => checks instr ++ seqChecks instrs

end

mutual

theorem checking : (instr : Instr) → Checking instr.emit instr.checks
  | .bare _ => Checking.emitByte _
  | .block kind type body => by
    rw [emit, checks]
    have hbody := (seq_checking body).seq_unchecked (Checking.emitByte endByte)
    exact (Checking.emitByte _).seq ((Checked.checking type).seq hbody)
  | .ifElse type thenBody elseBody => by
    rw [emit, checks]
    have helse := (seq_checking elseBody).seq_unchecked (Checking.emitByte endByte)
    have hthen := (seq_checking thenBody).seq ((Checking.emitByte elseByte).seq helse)
    exact (Checking.emitByte _).seq ((Checked.checking type).seq hthen)
  | .indexed _ index => (Checking.emitByte _).seq (Checked.checking index)
  | .brTable labels otherwise => by
    rw [emit, checks]
    exact (Checking.emitByte _).seq ((Checked.checking labels).seq_unchecked
      (Checked.checking otherwise))
  | .callIndirect type table =>
    (Checking.emitByte _).seq ((Checked.checking type).seq (Checked.checking table))
  | .memory _ arg => (Checking.emitByte _).seq (Checked.checking arg)
  | .intConst width value =>
    (Checking.check ⟨.pattern width, value⟩).seq
      ((Checking.emitByte _).seq (Checking.emitWord ⟨.pattern width, value⟩))
  | .f32Const value => (Checking.emitByte _).seq (Checked.checking value)
  | .f64Const value => (Checking.emitByte _).seq (Checked.checking value)

theorem seq_checking : (instrs : List Instr) → Checking (emitSeq instrs) (seqChecks instrs)
  | [] => Checking.pure
  | instr :: instrs => by
    rw [emitSeq, seqChecks]
    exact (checking instr).seq (seq_checking instrs)

end

end Instr

instance : Checked Instr := ⟨Instr.checks, Instr.checking⟩

instance : Checked Expr where
  checks expr := Instr.seqChecks expr.body
  checking expr := (Instr.seq_checking expr.body).seq_unchecked (Checking.emitByte endByte)

/-! ### Entries of sections -/

instance : Checked ImportDesc where
  checks _ := []
  checking
    | .func type => (Checking.emitByte _).seq (checking type)
    | .table type => (Checking.emitByte _).seq (checking type)
    | .memory type => (Checking.emitByte _).seq (checking type)
    | .global type => (Checking.emitByte _).seq (checking type)

instance : Checked Import where
  checks item := checks item.moduleName ++ checks item.itemName
  checking item := (checking item.moduleName).seq
    ((checking item.itemName).seq_unchecked (checking item.desc))

instance : Checked ExportDesc :=
  ⟨fun _ => [], fun desc => (Checking.emitByte _).seq (checking desc.index)⟩

instance : Checked Export where
  checks item := checks item.name
  checking item := (checking item.name).seq_unchecked (checking item.desc)

instance : Checked Global where
  checks item := checks item.init
  checking item := (checking item.type).seq (checking item.init)

instance : Checked Element where
  checks segment := checks segment.offset ++ checks segment.funcs
  checking segment :=
    (checking segment.table).seq ((checking segment.offset).seq (checking segment.funcs))

instance : Checked Data where
  checks segment := checks segment.offset ++ [.length segment.bytes.length]
  checking segment :=
    (checking segment.memory).seq ((checking segment.offset).seq (Checking.emitSized _))

instance : Checked Local :=
  ⟨fun _ => [], fun group => (checking group.count).seq (checking group.type)⟩

/-- Writes what stands after the size of a function body. -/
def Code.emitContents (code : Code) : Encoder Unit := do
  encode code.locals
  encode code.body

lemma Code.checking_contents (code : Code) :
    Checking code.emitContents (checks code.locals ++ checks code.body) :=
  (checking code.locals).seq (checking code.body)

instance : Checked Code where
  checks code := checks code.locals ++ checks code.body ++ code.emitContents.lengthCheck
  checking code := Checking.buffered code.checking_contents Checking.emitSized

/-! ### Sections and modules -/

namespace Section

def contentsChecks : Section → List Check
  | .custom item => checks item.name
  | .types items => checks items
  | .imports items => checks items
  | .functions items => checks items
  | .tables items => checks items
  | .memories items => checks items
  | .globals items => checks items
  | .exports items => checks items
  | .start _ => []
  | .elements items => checks items
  | .codes items => checks items
  | .datas items => checks items

lemma checking_contents (sec : Section) : Checking sec.emitContents sec.contentsChecks := by
  cases sec with
  | custom item => exact (checking item.name).seq_unchecked (Checking.emit item.payload)
  | _ => exact checking _

end Section

instance : Checked Section where
  checks sec := sec.contentsChecks ++ sec.emitContents.lengthCheck
  checking sec := Checking.buffered sec.checking_contents fun bs =>
    (Checking.emitByte sec.id.byte).seq (Checking.emitSized bs)

instance : Checked Module where
  checks m := m.sections.flatMap checks
  checking m := (Checking.emit Module.magic).seq
    ((Checking.emit Module.version).seq (Checking.emitAll m.sections))

/-! ### Nodes -/

namespace Node

mutual

def checks : Node → List Check
  | .vector nodes => .length nodes.length :: seqChecks nodes
  | .pair first second => checks first ++ checks second
  | .integer x => Checked.checks x
  | .name x => Checked.checks x
  | .blockType x => Checked.checks x
  | .funcType x => Checked.checks x
  | .instr x => Checked.checks x
  | .expr x => Checked.checks x
  | .importItem x => Checked.checks x
  | .exportItem x => Checked.checks x
  | .globalItem x => Checked.checks x
  | .element x => Checked.checks x
  | .code x => Checked.checks x
  | .data x => Checked.checks x
  | .sectionItem x => Checked.checks x
  | .module x => Checked.checks x
  | .u32 _ | .u64 _ | .i32 _ | .i64 _ | .f32 _ | .f64 _ | .valType _ | .limits _ | .memType _
  | .tableType _ | .globalType _ | .memArg _ | .importDesc _ | .exportDesc _ | .localGroup _ => []

def seqChecks : List Node → List Check
  | [] => []
  | node :: nodes => checks node ++ seqChecks nodes

end

mutual

theorem checking : (node : Node) → Checking node.emit node.checks
  | .vector nodes => by
    rw [emit, checks]
    exact (Checking.emitLength nodes.length).seq (seq_checking nodes)
  | .pair first second => by
    rw [emit, checks]
    exact (checking first).seq (checking second)
  | .u32 x => Checked.checking x
  | .u64 x => Checked.checking x
  | .i32 x => Checked.checking x
  | .i64 x => Checked.checking x
  | .integer x => Checked.checking x
  | .f32 x => Checked.checking x
  | .f64 x => Checked.checking x
  | .name x => Checked.checking x
  | .valType x => Checked.checking x
  | .blockType x => Checked.checking x
  | .funcType x => Checked.checking x
  | .limits x => Checked.checking x
  | .memType x => Checked.checking x
  | .tableType x => Checked.checking x
  | .globalType x => Checked.checking x
  | .memArg x => Checked.checking x
  | .instr x => Checked.checking x
  | .expr x => Checked.checking x
  | .importDesc x => Checked.checking x
  | .importItem x => Checked.checking x
  | .exportDesc x => Checked.checking x
  | .exportItem x => Checked.checking x
  | .globalItem x => Checked.checking x
  | .element x => Checked.checking x
  | .localGroup x => Checked.checking x
  | .code x => Checked.checking x
  | .data x => Checked.checking x
  | .sectionItem x => Checked.checking x
  | .module x => Checked.checking x

theorem seq_checking : (nodes : List Node) → Checking (emitSeq nodes) (seqChecks nodes)
  | [] => Checking.pure
  | node :: nodes => by
    rw [emitSeq, seqChecks]
    exact (checking node).seq (seq_checking nodes)

end

end Node

instance : Checked Node := ⟨Node.checks, Node.checking⟩

end WasmBinary
