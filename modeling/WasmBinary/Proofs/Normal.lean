import WasmBinary.Proofs.Check.Node

/-!
# Normal forms

A constant can be given by its signed or by its unsigned value. The normal form of a module gives
all of them by their signed values and is otherwise the same module. What has an encoding has the
same encoding as its normal form.
-/

namespace WasmBinary

open Encoder

/-- The integer of this width in two's complement that is congruent to a given one. -/
def Width.signedValue (width : Width) (value : Int) : Int := value.bmod (2 ^ width.bits)

namespace Instr

mutual

def norm : Instr → Instr
  | .bare op => .bare op
  | .block kind type body => .block kind type (seqNorm body)
  | .ifElse type thenBody elseBody => .ifElse type (seqNorm thenBody) (seqNorm elseBody)
  | .indexed op index => .indexed op index
  | .brTable labels otherwise => .brTable labels otherwise
  | .callIndirect type table => .callIndirect type table
  | .memory op arg => .memory op arg
  | .intConst width value => .intConst width (width.signedValue value)
  | .f32Const value => .f32Const value
  | .f64Const value => .f64Const value

def seqNorm : List Instr → List Instr
  | [] => []
  | instr :: instrs => norm instr :: seqNorm instrs

end

end Instr

def Expr.norm (expr : Expr) : Expr := ⟨Instr.seqNorm expr.body⟩

def Global.norm (item : Global) : Global := { item with init := item.init.norm }

def Element.norm (segment : Element) : Element := { segment with offset := segment.offset.norm }

def Code.norm (code : Code) : Code := { code with body := code.body.norm }

def Data.norm (segment : Data) : Data := { segment with offset := segment.offset.norm }

def Section.norm : Section → Section
  | .globals items => .globals (items.map Global.norm)
  | .elements items => .elements (items.map Element.norm)
  | .codes items => .codes (items.map Code.norm)
  | .datas items => .datas (items.map Data.norm)
  | .custom item => .custom item
  | .types items => .types items
  | .imports items => .imports items
  | .functions items => .functions items
  | .tables items => .tables items
  | .memories items => .memories items
  | .exports items => .exports items
  | .start func => .start func

def Module.norm (m : Module) : Module := ⟨m.sections.map Section.norm⟩

/-! ### Encodings of normal forms -/

lemma Width.contains_signedValue (width : Width) (value : Int) :
    (IntKind.signed width).Contains (width.signedValue value) := by
  have hpos : 0 < 2 ^ width.bits := Nat.two_pow_pos _
  have hle := Int.le_bmod (x := value) hpos
  have hlt := Int.bmod_lt (x := value) hpos
  unfold signedValue IntKind.Contains IntKind.lower IntKind.upper
  cases width <;> simp only [bits] at hle hlt ⊢ <;> omega

lemma IntKind.pattern_of_signed {width : Width} {value : Int}
    (h : (IntKind.signed width).Contains value) : (IntKind.pattern width).Contains value := by
  unfold Contains lower upper at *
  cases width <;> simp only [Width.bits] at h ⊢ <;> omega

lemma Integer.check_of_contains {n : Integer} (h : n.kind.Contains n.value) :
    n.check = pure () := by
  rw [check, if_pos h]

lemma Width.ofInt_signedValue (width : Width) (value : Int) :
    BitVec.ofInt width.bits (width.signedValue value) = BitVec.ofInt width.bits value := by
  apply BitVec.eq_of_toInt_eq
  rw [BitVec.toInt_ofInt, BitVec.toInt_ofInt, signedValue, Int.bmod_bmod]

lemma Integer.emitWord_signedValue (width : Width) (value : Int) :
    (⟨.pattern width, width.signedValue value⟩ : Integer).emitWord =
      (⟨.pattern width, value⟩ : Integer).emitWord := by
  have hword := width.ofInt_signedValue value
  exact congrArg (fun word => (Leb128.writeSigned word : Encoder Unit)) hword

namespace Instr

mutual

theorem emit_norm : (instr : Instr) → (∀ c ∈ instr.checks, c.Holds) → instr.norm.emit = instr.emit
  | .bare _, _ | .indexed _ _, _ | .brTable _ _, _ | .callIndirect _ _, _ | .memory _ _, _
  | .f32Const _, _ | .f64Const _, _ => rfl
  | .intConst width value, h => by
    have hvalue : (IntKind.pattern width).Contains value := h _ (List.mem_singleton_self _)
    have hsigned := IntKind.pattern_of_signed (width.contains_signedValue value)
    rw [norm, emit, emit, Integer.check_of_contains hsigned, Integer.check_of_contains hvalue,
      Integer.emitWord_signedValue]
    rfl
  | .block kind type body, h => by
    rw [checks, List.forall_mem_append] at h
    rw [norm, emit, emit, emitSeq_norm body h.2]
    rfl
  | .ifElse type thenBody elseBody, h => by
    rw [checks, List.forall_mem_append, List.forall_mem_append] at h
    rw [norm, emit, emit, emitSeq_norm thenBody h.2.1, emitSeq_norm elseBody h.2.2]
    rfl

theorem emitSeq_norm : (instrs : List Instr) → (∀ c ∈ seqChecks instrs, c.Holds) →
    emitSeq (seqNorm instrs) = emitSeq instrs
  | [], _ => rfl
  | instr :: instrs, h => by
    rw [seqChecks, List.forall_mem_append] at h
    rw [seqNorm, emitSeq, emitSeq, emit_norm instr h.1, emitSeq_norm instrs h.2]

end

end Instr

/-- A function that changes no encoding of a value for which all checks hold. -/
def KeepsEncoding {α : Type} [Encode α] [Checked α] (f : α → α) : Prop :=
  ∀ a, (∀ c ∈ checks a, c.Holds) → encode (f a) = encode a

namespace KeepsEncoding

variable {α : Type} [Encode α] [Checked α] {f : α → α}

lemma emitAll (h : KeepsEncoding f) (as : List α) (has : ∀ c ∈ as.flatMap checks, c.Holds) :
    emitAll (as.map f) = emitAll as := by
  induction as with
  | nil => rfl
  | cons a as ih =>
    rw [List.flatMap_cons, List.forall_mem_append] at has
    rw [List.map_cons, Encoder.emitAll, Encoder.emitAll, h a has.1, ih has.2]

lemma vector (h : KeepsEncoding f) : KeepsEncoding (List.map f) := by
  intro as has
  have hitems : ∀ c ∈ as.flatMap checks, c.Holds := fun c hc => has c (List.mem_cons_of_mem _ hc)
  change (do emitLength (as.map f).length; Encoder.emitAll (as.map f)) = _
  rw [List.length_map, h.emitAll as hitems]
  rfl

end KeepsEncoding

lemma Expr.encode_norm : KeepsEncoding Expr.norm := by
  intro expr h
  change (do Instr.emitSeq (Instr.seqNorm expr.body); emitByte endByte) = _
  rw [Instr.emitSeq_norm expr.body h]
  rfl

lemma Global.encode_norm : KeepsEncoding Global.norm := by
  intro item h
  change (do encode item.type; encode item.init.norm) = _
  rw [Expr.encode_norm item.init h]
  rfl

lemma Element.encode_norm : KeepsEncoding Element.norm := by
  intro segment h
  change (do encode segment.table; encode segment.offset.norm; encode segment.funcs) = _
  rw [Expr.encode_norm segment.offset fun c hc => h c (List.mem_append_left _ hc)]
  rfl

lemma Data.encode_norm : KeepsEncoding Data.norm := by
  intro segment h
  change (do
    encode segment.memory
    encode segment.offset.norm
    emitSized segment.bytes.toByteArray) = _
  rw [Expr.encode_norm segment.offset fun c hc => h c (List.mem_append_left _ hc)]
  rfl

lemma Code.encode_norm : KeepsEncoding Code.norm := by
  intro code h
  have hbody : ∀ c ∈ checks code.body, c.Holds := fun c hc =>
    h c (List.mem_append_left _ (List.mem_append_right _ hc))
  change (do
    let contents ← buffered do
      encode code.locals
      encode code.body.norm
    emitSized contents) = _
  rw [Expr.encode_norm code.body hbody]
  rfl

lemma Section.encode_norm : KeepsEncoding Section.norm := by
  intro sec h
  have hcontents : ∀ c ∈ sec.contentsChecks, c.Holds := fun c hc =>
    h c (List.mem_append_left _ hc)
  have hid : sec.norm.id = sec.id := by cases sec <;> rfl
  have hemit : sec.norm.emitContents = sec.emitContents := by
    cases sec with
    | globals items => exact Global.encode_norm.vector items hcontents
    | elements items => exact Element.encode_norm.vector items hcontents
    | codes items => exact Code.encode_norm.vector items hcontents
    | datas items => exact Data.encode_norm.vector items hcontents
    | _ => rfl
  change (do
    let contents ← buffered sec.norm.emitContents
    sec.norm.id.emitFrame contents) = _
  rw [hid, hemit]
  rfl

theorem Module.encode_norm : KeepsEncoding Module.norm := by
  intro m h
  change (do emit Module.magic; emit Module.version; emitAll (m.sections.map Section.norm)) = _
  rw [Section.encode_norm.emitAll m.sections h]
  rfl

end WasmBinary
