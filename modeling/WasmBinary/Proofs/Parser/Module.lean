import WasmBinary.Proofs.Parser.Instr

/-!
# Parsers of sections and modules
-/

namespace WasmBinary

open Encoder WasmBinary.Parser

/-! ### Entries of sections -/

instance : Readable ImportDesc where
  parser := do
    match ← (Coded.parser : Parser ExportKind) with
    | .func => return .func (← parser)
    | .table => return .table (← parser)
    | .memory => return .memory (← parser)
    | .global => return .global (← parser)
  reads
    | .func type => (Coded.reads ExportKind.func).seq ((reads type).map _)
    | .table type => (Coded.reads ExportKind.table).seq ((reads type).map _)
    | .memory type => (Coded.reads ExportKind.memory).seq ((reads type).map _)
    | .global type => (Coded.reads ExportKind.global).seq ((reads type).map _)

instance : Readable Import where
  parser := do return ⟨← parser, ← parser, ← parser⟩
  reads item :=
    (reads item.moduleName).seq ((reads item.itemName).seq ((reads item.desc).map _))

instance : Readable ExportDesc where
  parser := do return ⟨← Coded.parser, ← parser⟩
  reads desc := (Coded.reads desc.kind).seq ((reads desc.index).map _)

instance : Readable Export where
  parser := do return ⟨← parser, ← parser⟩
  reads item := (reads item.name).seq ((reads item.desc).map _)

instance : Readable Local where
  parser := do return ⟨← parser, ← parser⟩
  reads group := (reads group.count).seq ((reads group.type).map _)

def Global.parser : Parser Global := do return ⟨← Readable.parser, ← Expr.parser⟩

lemma Global.reads (item : Global) : Reads parser (encode item) item.norm :=
  (Readable.reads item.type).seq (item.init.reads.map _)

def Element.parser : Parser Element := do
  return ⟨← Readable.parser, ← Expr.parser, ← Readable.parser⟩

lemma Element.reads (segment : Element) : Reads parser (encode segment) segment.norm :=
  (Readable.reads segment.table).seq
    (segment.offset.reads.seq ((Readable.reads segment.funcs).map _))

def Data.parser : Parser Data := do
  return ⟨← Readable.parser, ← Expr.parser, ← sized remaining⟩

lemma Data.reads (segment : Data) : Reads parser (encode segment) segment.norm :=
  (Readable.reads segment.memory).seq
    (segment.offset.reads.seq ((Reads.emitSized rfl).map _))

def Code.parser : Parser Code := sized do return ⟨← Readable.parser, ← Expr.parser⟩

lemma Code.reads (code : Code) : Reads parser (encode code) code.norm := by
  have hcontents :
      Reads (do return ⟨← Readable.parser, ← Expr.parser⟩) code.emitContents code.norm :=
    (Readable.reads code.locals).seq (code.body.reads.map _)
  refine ⟨(checking code).traced, ?_⟩
  intro bs hbs
  obtain ⟨contents, himage, hlength, rfl⟩ := toBytes_code_iff.mp hbs
  exact sized_append (hcontents.run_all himage) hlength

/-! ### Sections -/

namespace Section

/-- Reads what stands after the length of a section. -/
def contentsParser : SectionId → Parser Section
  | .custom => do return .custom ⟨← Readable.parser, ← remaining⟩
  | .types => do return .types (← Readable.parser)
  | .imports => do return .imports (← Readable.parser)
  | .functions => do return .functions (← Readable.parser)
  | .tables => do return .tables (← Readable.parser)
  | .memories => do return .memories (← Readable.parser)
  | .globals => do return .globals (← vector Global.parser)
  | .exports => do return .exports (← Readable.parser)
  | .start => do return .start (← Readable.parser)
  | .elements => do return .elements (← vector Element.parser)
  | .codes => do return .codes (← vector Code.parser)
  | .datas => do return .datas (← vector Data.parser)

/-- The payload of a custom section has no end of its own, so the contents are read as a whole. -/
lemma contentsParser_run {sec : Section} {contents : Bytes}
    (h : sec.emitContents.image = .ok contents) :
    contentsParser sec.id contents = some (sec.norm, []) := by
  have hwhole : Reads (contentsParser sec.id) sec.emitContents sec.norm →
      contentsParser sec.id contents = some (sec.norm, []) := fun hreads => hreads.run_all h
  cases sec with
  | custom item =>
    have hname := Readable.reads item.name
    obtain ⟨as, cs, has, hcs, rfl⟩ := (image_seq hname.traced (Traced.emit _)).mp h
    rw [emit_image_iff.mp hcs]
    exact bind_run (hname.run as has _) _
  | globals items => exact hwhole ((Reads.vector Global.reads items).map _)
  | elements items => exact hwhole ((Reads.vector Element.reads items).map _)
  | codes items => exact hwhole ((Reads.vector Code.reads items).map _)
  | datas items => exact hwhole ((Reads.vector Data.reads items).map _)
  | _ => exact hwhole ((Readable.reads _).map _)

def parser : Parser Section := do
  let id ← (Coded.parser : Parser SectionId)
  sized (contentsParser id)

lemma reads (sec : Section) : Reads parser (encode sec) sec.norm := by
  refine ⟨(checking sec).traced, ?_⟩
  intro bs hbs rest
  obtain ⟨contents, hcontents, hlength, rfl⟩ := toBytes_section_iff.mp hbs
  have hid := (Coded.reads sec.id).run [sec.id.byte] (emitByte_image_iff.mpr rfl)
  have hsized := sized_append (contentsParser_run hcontents) hlength
  exact (bind_run (hid _) _).trans (hsized rest)

end Section

/-! ### Modules -/

def Module.parser : Parser Module := do
  expect [0x00, 0x61, 0x73, 0x6d]
  expect [0x01, 0x00, 0x00, 0x00]
  return ⟨← many Section.parser⟩

theorem Module.parser_image {m : Module} {bs : Bytes} (h : toBytes m = .ok bs) :
    parser bs = some (m.norm, []) := by
  obtain ⟨pieces, hpieces, rfl⟩ := toBytes_module_iff.mp h
  have hmagic := (Reads.expect magic).run magic (emit_image_iff.mpr rfl)
  have hversion := (Reads.expect version).run version (emit_image_iff.mpr rfl)
  have hmany := Reads.many_pieces Section.reads rfl hpieces
  rw [List.append_assoc]
  exact (bind_run (hmagic _) _).trans ((bind_run (hversion _) _).trans (bind_run hmany _))

end WasmBinary
