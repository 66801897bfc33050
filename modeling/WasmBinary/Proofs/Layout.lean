import Mathlib.Data.List.ModifyLast
import WasmBinary.Proofs.Equality

/-!
# Where the zeros of a module are written

A layout is what an encoder writes, with marks at the zeros: the last byte of a floating-point
constant that is zero holds its sign, and comes with the constant. Modules that differ only in the
signs of zeros have layouts that differ only in the marked bytes.
-/

namespace WasmBinary

open Encoder

/-- A byte of an encoding. -/
structure MarkedByte where
  byte : UInt8
  /-- The constant that ends with the byte, if it is a zero. -/
  zero? : Option Instr

/-- Drops the sign of a zero. -/
def MarkedByte.eraseSign : MarkedByte → MarkedByte
  | ⟨byte, none⟩ => ⟨byte, none⟩
  | ⟨_, some zero⟩ => ⟨0, some zero.dropZeroSigns⟩

/-- What an encoder writes, and how it ends. -/
@[ext]
structure Layout where
  bytes : List MarkedByte
  outcome : Except EncodeError Unit

namespace Layout

def trace (l : Layout) : Trace EncodeError := ⟨l.bytes.map MarkedByte.byte, l.outcome⟩

def eraseSigns (l : Layout) : Layout := ⟨l.bytes.map MarkedByte.eraseSign, l.outcome⟩

def zeros (l : Layout) : List Instr := l.bytes.filterMap MarkedByte.zero?

/-- The layout of an encoder that writes no zeros. -/
def plain (encoder : Encoder Unit) : Layout :=
  ⟨(Trace.of encoder).bytes.map (⟨·, none⟩), (Trace.of encoder).outcome⟩

/-- The first layout, and the second one unless the first ends with an error. -/
instance : Append Layout where
  append l l' :=
    match l.outcome with
    | .ok _ => ⟨l.bytes ++ l'.bytes, l'.outcome⟩
    | .error _ => l

/-- Layouts one after another. -/
def all : List Layout → Layout
  | [] => ⟨[], .ok ()⟩
  | l :: ls => l ++ all ls

/-- A layout with a header that tells its length. Nothing is written if it ends with an error. -/
def framed (header : Nat → Encoder Unit) (l : Layout) : Layout :=
  match l.outcome with
  | .ok _ => plain (header l.bytes.length) ++ l
  | .error e => ⟨[], .error e⟩

variable {l l' : Layout}

lemma append_of_ok (h : l.outcome = .ok ()) : l ++ l' = ⟨l.bytes ++ l'.bytes, l'.outcome⟩ := by
  change (match l.outcome with | .ok _ => _ | .error _ => _) = _
  rw [h]

lemma append_of_error {e : EncodeError} (h : l.outcome = .error e) : l ++ l' = l := by
  change (match l.outcome with | .ok _ => _ | .error _ => _) = _
  rw [h]

lemma trace_append : (l ++ l').trace = l.trace ++ l'.trace := by
  rcases l with ⟨bytes, e | _⟩
  · rfl
  · rw [append_of_ok rfl, trace, List.map_append]
    rfl

lemma eraseSigns_append : (l ++ l').eraseSigns = l.eraseSigns ++ l'.eraseSigns := by
  rcases l with ⟨bytes, e | _⟩
  · rfl
  · rw [append_of_ok rfl, eraseSigns, List.map_append]
    rfl

lemma trace_plain (encoder : Encoder Unit) : (plain encoder).trace = Trace.of encoder := by
  apply Trace.ext
  · rw [trace, plain, List.map_map]
    exact List.map_id _
  · rfl

lemma eraseSigns_plain (encoder : Encoder Unit) : (plain encoder).eraseSigns = plain encoder := by
  simp [eraseSigns, plain, MarkedByte.eraseSign]

lemma zeros_plain (encoder : Encoder Unit) : (plain encoder).zeros = [] := by
  simp [zeros, plain]

/-- Each mark is at the end of the encoding of its constant. -/
def MarksEnds (l : Layout) : Prop :=
  ∀ i byte zero, l.bytes[i]? = some ⟨byte, some zero⟩ →
    ∃ bs, toBytes zero = .ok bs ∧ bs <:+ l.trace.bytes.take (i + 1)

lemma marksEnds_plain (encoder : Encoder Unit) : (plain encoder).MarksEnds := by
  intro i byte zero h
  simp [plain] at h

lemma MarksEnds.append (h : l.MarksEnds) (h' : l'.MarksEnds) : (l ++ l').MarksEnds := by
  rcases l with ⟨bytes, e | _⟩
  · exact h
  · rw [append_of_ok rfl]
    intro i byte zero hi
    have hbytes : trace ⟨bytes ++ l'.bytes, l'.outcome⟩ =
        ⟨bytes.map MarkedByte.byte ++ l'.trace.bytes, l'.outcome⟩ := by
      rw [trace, List.map_append]
      rfl
    rw [hbytes, List.take_append]
    dsimp only at hi ⊢
    by_cases hlt : i < bytes.length
    · rw [List.getElem?_append_left hlt] at hi
      obtain ⟨bs, hbs, hsuffix⟩ := h i byte zero hi
      have hzero : i + 1 - (bytes.map MarkedByte.byte).length = 0 := by
        rw [List.length_map]
        omega
      rw [hzero, List.take_zero, List.append_nil]
      exact ⟨bs, hbs, hsuffix⟩
    · rw [List.getElem?_append_right (by omega)] at hi
      obtain ⟨bs, hbs, hsuffix⟩ := h' _ byte zero hi
      have hsub : i + 1 - (bytes.map MarkedByte.byte).length = i - bytes.length + 1 := by
        rw [List.length_map]
        omega
      rw [hsub]
      exact ⟨bs, hbs, hsuffix.trans (List.suffix_append _ _)⟩

end Layout

/-- `l` is the layout of an encoder that writes these instructions, among other things. With the
signs of zeros dropped it is `erased`. -/
structure LaysOut (l erased : Layout) (encoder : Encoder Unit) (instrs : List Instr) : Prop where
  traced : Traced encoder
  trace : l.trace = Trace.of encoder
  erased : l.eraseSigns = erased
  zeros : l.outcome = .ok () → l.zeros = instrs.filter Instr.isZero
  ends : l.MarksEnds

namespace LaysOut

variable {l l' erased erased' : Layout} {a b encoder : Encoder Unit} {instrs instrs' : List Instr}

theorem seq (h : LaysOut l erased a instrs) (h' : LaysOut l' erased' b instrs') :
    LaysOut (l ++ l') (erased ++ erased') (do a; b) (instrs ++ instrs') where
  traced := h.traced.seq h'.traced
  trace := by rw [Layout.trace_append, h.trace, h'.trace, Traced.of_seq h.traced h'.traced]
  erased := by rw [Layout.eraseSigns_append, h.erased, h'.erased]
  zeros := by
    intro hok
    cases hl : l.outcome with
    | error e =>
      rw [Layout.append_of_error hl, hl] at hok
      exact nomatch hok
    | ok =>
      rw [Layout.append_of_ok hl] at hok ⊢
      rw [Layout.zeros, List.filterMap_append, List.filter_append]
      exact congrArg₂ (· ++ ·) (h.zeros hl) (h'.zeros hok)
  ends := h.ends.append h'.ends

/-- An encoder that writes no zeros. -/
lemma plain (h : Traced encoder) (hzero : ∀ instr ∈ instrs, instr.isZero = false) :
    LaysOut (.plain encoder) (.plain encoder) encoder instrs where
  traced := h
  trace := Layout.trace_plain encoder
  erased := Layout.eraseSigns_plain encoder
  zeros := by
    intro _
    rw [Layout.zeros_plain, eq_comm, List.filter_eq_nil_iff]
    simpa using hzero
  ends := Layout.marksEnds_plain encoder

lemma plain_nil (h : Traced encoder) : LaysOut (.plain encoder) (.plain encoder) encoder [] :=
  plain h (List.forall_mem_nil _)

lemma plain_seq (ha : Traced a) (h : LaysOut l erased b instrs) :
    LaysOut (.plain a ++ l) (.plain a ++ erased) (do a; b) instrs :=
  (plain_nil ha).seq h

lemma seq_plain (h : LaysOut l erased a instrs) (hb : Traced b) :
    LaysOut (l ++ .plain b) (erased ++ .plain b) (do a; b) instrs := by
  have hseq := h.seq (plain_nil hb)
  rwa [List.append_nil] at hseq

lemma throw (e : EncodeError) : LaysOut ⟨[], .error e⟩ ⟨[], .error e⟩ (throw e) instrs where
  traced := Traced.throw e
  trace := by
    rw [Trace.of_throw]
    rfl
  erased := rfl
  zeros := nofun
  ends := nofun

lemma nil : LaysOut (.all []) (.all []) (pure ()) [] where
  traced := Traced.pure
  trace := by
    rw [Trace.of_pure]
    rfl
  erased := rfl
  zeros := fun _ => rfl
  ends := nofun

lemma emit_of_image (h : LaysOut l erased encoder instrs) {bs : Bytes}
    (hbs : encoder.image = .ok bs) : LaysOut l erased (emit bs) instrs :=
  ⟨Traced.emit bs, by rw [h.trace, image_eq_ok_iff.mp hbs, Trace.of_emit], h.erased, h.zeros,
    h.ends⟩

theorem framed (h : LaysOut l erased encoder instrs) {header : Nat → Encoder Unit}
    (hheader : ∀ n, Traced (header n)) :
    LaysOut (l.framed header) (erased.framed header)
      (do let buffer ← buffered encoder; header buffer.size; emitBuffer buffer) instrs := by
  -- Signs change neither the outcome nor the length, so both sides get the same header or none.
  have hlength : erased.bytes.length = l.bytes.length := by
    rw [← h.erased]
    exact List.length_map _
  have houtcome : erased.outcome = l.outcome := by
    rw [← h.erased]
    rfl
  rw [buffered_bind]
  unfold Layout.framed
  rw [houtcome, hlength]
  cases himage : encoder.image with
  | error e =>
    have hof : l.outcome = .error e :=
      (congrArg Trace.outcome h.trace).trans (image_eq_error_iff.mp himage)
    rw [hof]
    exact throw e
  | ok bs =>
    have htrace : l.trace = ⟨bs, .ok ()⟩ := h.trace.trans (image_eq_ok_iff.mp himage)
    have hof : l.outcome = .ok () := congrArg Trace.outcome htrace
    have hbs : bs.length = l.bytes.length := by
      have hmap := congrArg (fun t => t.bytes.length) htrace
      exact hmap.symm.trans (List.length_map _)
    dsimp only
    rw [hof, List.size_toByteArray, hbs, emitBuffer_toByteArray]
    exact (plain_nil (hheader l.bytes.length)).seq (h.emit_of_image himage)

end LaysOut

/-! ### Zeros -/

namespace FloatBits

variable {width : Width} {x : FloatBits width}

lemma bits_of_isZero (h : x.isZero = true) : x.bits = 0 ∨ x.bits = BitVec.intMin width.bits := by
  have hmod : x.bits.toNat % (1 <<< (width.bits - 1)) = 0 := by simpa [isZero, magnitude] using h
  have hlt := x.bits.isLt
  rw [← BitVec.toNat_inj, ← BitVec.toNat_inj]
  cases width <;> simp [Width.bits, BitVec.toNat_intMin] at hmod hlt ⊢ <;> omega

/-- The sign of a zero is in its last byte, and the other bytes are the same without it. -/
lemma exists_bytes_of_isZero (h : x.isZero = true) :
    ∃ front sign, x.bytes = front ++ [sign] ∧ x.dropZeroSign.bytes = front ++ [0] := by
  rw [dropZeroSign, if_pos h]
  rcases x with ⟨bits⟩
  cases width with
  | w32 =>
    rcases bits_of_isZero h with rfl | rfl
    · exact ⟨[0, 0, 0], 0x00, rfl, rfl⟩
    · exact ⟨[0, 0, 0], 0x80, rfl, rfl⟩
  | w64 =>
    rcases bits_of_isZero h with rfl | rfl
    · exact ⟨[0, 0, 0, 0, 0, 0, 0], 0x00, rfl, rfl⟩
    · exact ⟨[0, 0, 0, 0, 0, 0, 0], 0x80, rfl, rfl⟩

end FloatBits

namespace Instr

lemma trace_float {width : Width} (x : FloatBits width) :
    Trace.of (do emitByte (floatConstOpcode width); encode x) =
      ⟨floatConstOpcode width :: x.bytes, .ok ()⟩ := by
  change Trace.of (do Encoder.emit [floatConstOpcode width]; Encoder.emit x.bytes) = _
  rw [Traced.of_seq (Traced.emit _) (Traced.emit _), Trace.of_emit, Trace.of_emit]
  rfl

lemma exists_trace_of_isZero {instr : Instr} (h : instr.isZero = true) :
    ∃ front sign, Trace.of instr.emit = ⟨front ++ [sign], .ok ()⟩ ∧
      Trace.of instr.dropZeroSigns.emit = ⟨front ++ [0], .ok ()⟩ := by
  have hfloat (width : Width) (x : FloatBits width) (hx : x.isZero = true) :
      ∃ front sign,
        Trace.of (do emitByte (floatConstOpcode width); encode x) = ⟨front ++ [sign], .ok ()⟩ ∧
        Trace.of (do emitByte (floatConstOpcode width); encode x.dropZeroSign) =
          ⟨front ++ [0], .ok ()⟩ := by
    obtain ⟨front, sign, hbytes, hdrop⟩ := FloatBits.exists_bytes_of_isZero hx
    refine ⟨floatConstOpcode width :: front, sign, ?_, ?_⟩
    · rw [trace_float, hbytes, List.cons_append]
    · rw [trace_float, hdrop, List.cons_append]
  cases instr with
  | f32Const x =>
    rw [dropZeroSigns, emit, emit]
    exact hfloat .w32 x h
  | f64Const x =>
    rw [dropZeroSigns, emit, emit]
    exact hfloat .w64 x h
  | _ => exact nomatch h

end Instr

namespace Layout

/-- Marks the last byte. -/
def mark (zero : Instr) (l : Layout) : Layout :=
  { l with bytes := l.bytes.modifyLast ({ · with zero? := some zero }) }

/-- The layout of an instruction without a body. -/
def leaf (instr : Instr) : Layout :=
  if instr.isZero then mark instr (plain instr.emit) else plain instr.emit

/-- What is written for a zero. -/
def ofZero (zero : Instr) (front : Bytes) (sign : UInt8) : Layout :=
  ⟨front.map (⟨·, none⟩) ++ [⟨sign, some zero⟩], .ok ()⟩

lemma leaf_of_isZero {zero : Instr} (h : zero.isZero = true) {front : Bytes} {sign : UInt8}
    (htrace : Trace.of zero.emit = ⟨front ++ [sign], .ok ()⟩) :
    leaf zero = ofZero zero front sign := by
  rw [leaf, if_pos h, plain, htrace, mark]
  dsimp only
  rw [List.map_append, List.map_singleton, List.modifyLast_concat]
  rfl

lemma trace_ofZero (zero : Instr) (front : Bytes) (sign : UInt8) :
    (ofZero zero front sign).trace = ⟨front ++ [sign], .ok ()⟩ := by
  apply Trace.ext
  · simp [trace, ofZero, Function.comp_def]
  · rfl

lemma eraseSigns_ofZero (zero : Instr) (front : Bytes) (sign : UInt8) :
    (ofZero zero front sign).eraseSigns = ofZero zero.dropZeroSigns front 0 := by
  apply Layout.ext
  · simp [eraseSigns, ofZero, MarkedByte.eraseSign]
  · rfl

lemma marksEnds_ofZero {zero : Instr} {front : Bytes} {sign : UInt8}
    (h : toBytes zero = .ok (front ++ [sign])) : (ofZero zero front sign).MarksEnds := by
  intro i byte instr hi
  rw [trace_ofZero]
  dsimp only [ofZero] at hi ⊢
  by_cases hlt : i < front.length
  · rw [List.getElem?_append_left (by simpa using hlt)] at hi
    simp at hi
  · rw [List.getElem?_append_right (by simpa using hlt), List.getElem?_singleton] at hi
    split at hi
    · obtain ⟨-, hinstr⟩ := MarkedByte.mk.inj (Option.some.inj hi)
      rw [← Option.some.inj hinstr, List.take_of_length_le (by simp; omega)]
      exact ⟨_, h, List.suffix_rfl⟩
    · exact nomatch hi

end Layout

lemma LaysOut.zero {zero : Instr} (h : zero.isZero = true) :
    LaysOut (.leaf zero) (.leaf zero.dropZeroSigns) zero.emit [zero] := by
  obtain ⟨front, sign, htrace, hdrop⟩ := Instr.exists_trace_of_isZero h
  have hzero : zero.dropZeroSigns.isZero = true := by rw [zero.isZero_dropZeroSigns, h]
  rw [Layout.leaf_of_isZero h htrace, Layout.leaf_of_isZero hzero hdrop]
  refine ⟨zero.checking.traced, ?_, ?_, ?_, ?_⟩
  · rw [Layout.trace_ofZero, htrace]
  · rw [Layout.eraseSigns_ofZero]
  · intro _
    simp [Layout.zeros, Layout.ofZero, h]
  · exact Layout.marksEnds_ofZero (image_eq_ok_iff.mpr htrace)

lemma LaysOut.leaf {instr : Instr} (h : instr.isZero = false → instr.dropZeroSigns = instr) :
    LaysOut (.leaf instr) (.leaf instr.dropZeroSigns) instr.emit [instr] := by
  cases hzero : instr.isZero with
  | true => exact LaysOut.zero hzero
  | false =>
    have hplain : Layout.leaf instr = .plain instr.emit := by
      rw [Layout.leaf, hzero]
      rfl
    rw [h hzero, hplain]
    exact LaysOut.plain instr.checking.traced (by simpa using hzero)

/-! ### Modules -/

namespace Instr

mutual

def layout : Instr → Layout
  | .block kind type body =>
    .plain (emitByte kind.opcode) ++ (.plain (encode type) ++ (seqLayout body ++
      .plain (emitByte endByte)))
  | .ifElse type thenBody elseBody =>
    .plain (emitByte ifOpcode) ++ (.plain (encode type) ++ (seqLayout thenBody ++
      (.plain (emitByte elseByte) ++ (seqLayout elseBody ++ .plain (emitByte endByte)))))
  | instr => .leaf instr

def seqLayout : List Instr → Layout
  | [] => .all []
  | instr :: instrs => layout instr ++ seqLayout instrs

end

mutual

theorem laysOut : (instr : Instr) →
    LaysOut instr.layout instr.dropZeroSigns.layout instr.emit instr.subtree
  | .bare _ | .indexed _ _ | .brTable _ _ | .callIndirect _ _ | .memory _ _ | .intConst _ _ =>
    LaysOut.leaf fun _ => rfl
  | .f32Const x => LaysOut.leaf fun h => congrArg f32Const (FloatBits.dropZeroSign_of_not_isZero h)
  | .f64Const x => LaysOut.leaf fun h => congrArg f64Const (FloatBits.dropZeroSign_of_not_isZero h)
  | .block kind type body => by
    have hopening : LaysOut _ _ (emitByte kind.opcode) [.block kind type body] :=
      LaysOut.plain (Traced.emit _) (by simp [isZero])
    have hbody := (seq_laysOut body).seq_plain (Traced.emit [endByte])
    rw [emit, layout, dropZeroSigns, layout, subtree]
    exact hopening.seq (hbody.plain_seq (Checked.checking type).traced)
  | .ifElse type thenBody elseBody => by
    have hopening : LaysOut _ _ (emitByte ifOpcode) [.ifElse type thenBody elseBody] :=
      LaysOut.plain (Traced.emit _) (by simp [isZero])
    have helse := (seq_laysOut elseBody).seq_plain (Traced.emit [endByte])
    have hbodies := (seq_laysOut thenBody).seq (helse.plain_seq (Traced.emit [elseByte]))
    rw [emit, layout, dropZeroSigns, layout, subtree]
    exact hopening.seq (hbodies.plain_seq (Checked.checking type).traced)

theorem seq_laysOut : (instrs : List Instr) →
    LaysOut (seqLayout instrs) (seqLayout (seqDropZeroSigns instrs)) (emitSeq instrs)
      (subtrees instrs)
  | [] => LaysOut.nil
  | instr :: instrs => by
    rw [emitSeq, seqLayout, seqDropZeroSigns, seqLayout, subtrees]
    exact (laysOut instr).seq (seq_laysOut instrs)

end

end Instr

/-- Types with a layout for each value. -/
class LaidOut (α : Type) [Encode α] [BEq α] [NumericEq α] where
  layout : α → Layout
  laysOut : ∀ a : α,
    LaysOut (layout a) (layout (dropZeroSigns a)) (encode a) (NumericEq.instrs a)

export LaidOut (layout laysOut)

section Vectors

variable {α : Type} [Encode α] [BEq α] [NumericEq α] [LaidOut α]

lemma LaysOut.emitAll (as : List α) :
    LaysOut (.all (as.map layout)) (.all ((dropZeroSigns as).map layout)) (emitAll as)
      (NumericEq.instrs as) := by
  induction as with
  | nil => exact LaysOut.nil
  | cons a as ih => exact (laysOut a).seq ih

instance : LaidOut (List α) where
  layout as := .plain (emitLength as.length) ++ .all (as.map layout)
  laysOut as := by
    have hlength : (dropZeroSigns as).length = as.length := List.length_map _
    rw [hlength]
    exact (LaysOut.emitAll as).plain_seq (Checking.emitLength as.length).traced

end Vectors

instance : LaidOut Expr where
  layout expr := Instr.seqLayout expr.body ++ .plain (emitByte endByte)
  laysOut expr := (Instr.seq_laysOut expr.body).seq_plain (Traced.emit [endByte])

instance : LaidOut Global where
  layout item := .plain (encode item.type) ++ layout item.init
  laysOut item := (laysOut item.init).plain_seq (checking item.type).traced

instance : LaidOut Element where
  layout segment :=
    .plain (encode segment.table) ++ (layout segment.offset ++ .plain (encode segment.funcs))
  laysOut segment := ((laysOut segment.offset).seq_plain (checking segment.funcs).traced).plain_seq
    (checking segment.table).traced

instance : LaidOut Data where
  layout segment :=
    .plain (encode segment.memory) ++
      (layout segment.offset ++ .plain (emitSized segment.bytes.toByteArray))
  laysOut segment :=
    ((laysOut segment.offset).seq_plain (Checking.emitSized segment.bytes).traced).plain_seq
      (checking segment.memory).traced

instance : LaidOut Code where
  layout code := (Layout.plain (encode code.locals) ++ layout code.body).framed emitLength
  laysOut code := ((laysOut code.body).plain_seq (checking code.locals).traced).framed
    fun n => (Checking.emitLength n).traced

def Section.contentsLayout : Section → Layout
  | .globals items => layout items
  | .elements items => layout items
  | .codes items => layout items
  | .datas items => layout items
  | sec => .plain sec.emitContents

lemma Section.contents_laysOut (sec : Section) :
    LaysOut sec.contentsLayout sec.dropZeroSigns.contentsLayout sec.emitContents sec.instrs := by
  cases sec with
  | globals items => exact laysOut items
  | elements items => exact laysOut items
  | codes items => exact laysOut items
  | datas items => exact laysOut items
  | _ => exact LaysOut.plain_nil (Section.checking_contents _).traced

/-- Writes what stands in front of the contents of a section. -/
def Section.emitHeader (sec : Section) (length : Nat) : Encoder Unit := do
  emitByte sec.id.byte
  emitLength length

lemma Section.encode_eq_framed (sec : Section) :
    encode sec = (do
      let contents ← buffered sec.emitContents
      sec.emitHeader contents.size
      emitBuffer contents) := by
  apply congrArg (buffered sec.emitContents >>= ·)
  funext contents
  exact (bind_assoc _ _ _).symm

instance : LaidOut Section where
  layout sec := sec.contentsLayout.framed sec.emitHeader
  laysOut sec := by
    have hheader (n : Nat) : Traced (sec.emitHeader n) :=
      (Traced.emit [sec.id.byte]).seq (Checking.emitLength n).traced
    have hid : (dropZeroSigns sec).emitHeader = sec.emitHeader := by cases sec <;> rfl
    rw [sec.encode_eq_framed, hid]
    exact sec.contents_laysOut.framed hheader

instance : LaidOut Module where
  layout m := .plain (emit Module.magic) ++
    (.plain (emit Module.version) ++ .all (m.sections.map layout))
  laysOut m := ((LaysOut.emitAll m.sections).plain_seq (Traced.emit Module.version)).plain_seq
    (Traced.emit Module.magic)

end WasmBinary
