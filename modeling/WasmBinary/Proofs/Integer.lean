import Mathlib
import WasmBinary.Proofs.Image
import WasmBinary.Proofs.Leb128.RoundTrip
import WasmBinary.Proofs.Normal

/-!
# Integers of a kind

An integer is written if its value is in the range of its kind, and nothing is written of it
otherwise. What is written is read back as the value, or for a bit pattern, as the signed number
that is congruent to it. A constant is its opcode and the integer.
-/

namespace WasmBinary

open Encoder

/-! ### Ranges and congruence -/

namespace IntKind

/-- The values of a kind. Those of a bit pattern are signed or unsigned. -/
def range : IntKind → Set Int
  | .unsigned .w32 => Set.Ico 0 (2 ^ 32)
  | .unsigned .w64 => Set.Ico 0 (2 ^ 64)
  | .signed .w32 => Set.Ico (-2 ^ 31) (2 ^ 31)
  | .signed .w64 => Set.Ico (-2 ^ 63) (2 ^ 63)
  | .pattern .w32 => Set.Ico (-2 ^ 31) (2 ^ 32)
  | .pattern .w64 => Set.Ico (-2 ^ 63) (2 ^ 64)

/-- How a number of a kind is read. -/
def sign : IntKind → Signedness
  | .unsigned _ => .unsigned
  | .signed _ | .pattern _ => .signed

lemma contains_iff {kind : IntKind} {v : Int} : kind.Contains v ↔ v ∈ kind.range := by
  rcases kind with (_ | _) | (_ | _) | (_ | _) <;> exact Iff.rfl

lemma unsigned_range (width : Width) : (unsigned width).range = Set.Ico 0 (2 ^ width.bits) := by
  cases width <;> rfl

end IntKind

namespace Width

variable {width : Width} {u v : Int}

lemma signedValue_eq_iff :
    width.signedValue u = width.signedValue v ↔ u ≡ v [ZMOD 2 ^ width.bits] := by
  have hcast : ((2 ^ width.bits : Nat) : Int) = 2 ^ width.bits := by push_cast; rfl
  unfold signedValue Int.ModEq
  rw [← hcast]
  constructor
  · intro h
    rw [← Int.bmod_emod, h, Int.bmod_emod]
  · intro h
    rw [← Int.emod_bmod, h, Int.emod_bmod]

lemma signedValue_modEq (width : Width) (v : Int) :
    width.signedValue v ≡ v [ZMOD 2 ^ width.bits] := by
  rw [← signedValue_eq_iff]
  exact Int.bmod_bmod

lemma signedValue_mem (width : Width) (v : Int) :
    width.signedValue v ∈ (IntKind.signed width).range :=
  IntKind.contains_iff.mp (width.contains_signedValue v)

lemma signedValue_of_mem (h : v ∈ (IntKind.signed width).range) : width.signedValue v = v := by
  unfold signedValue
  cases width <;> exact Int.bmod_eq_of_le h.1 h.2

lemma toInt_ofInt (width : Width) (v : Int) :
    (BitVec.ofInt width.bits v).toInt = width.signedValue v := BitVec.toInt_ofInt v

lemma toNat_ofInt_of_mem (h : v ∈ (IntKind.unsigned width).range) :
    (BitVec.ofInt width.bits v).toNat = v.toNat := by
  rw [IntKind.unsigned_range] at h
  have hmod : v % (2 ^ width.bits : Nat) = v := Int.emod_eq_of_lt h.1 (by exact_mod_cast h.2)
  rw [BitVec.toNat_ofInt, hmod]

end Width

/-! ### Attempts -/

/-- A value as a word with a sign, if it is the value of one. -/
def Width.signedWord? (width : Width) (v : Int) : Option (BitVec width.bits) :=
  if (IntKind.signed width).Contains v then some (BitVec.ofInt width.bits v) else none

/-- A value as a word without a sign, if it is the value of one. -/
def Width.unsignedWord? (width : Width) (v : Int) : Option (BitVec width.bits) :=
  if (IntKind.unsigned width).Contains v then some (BitVec.ofInt width.bits v) else none

namespace IntKind

/-- A value as a word of a kind. For a bit pattern the value is first taken as one with a sign, and
if there is no such word, as one without. -/
def word? : (kind : IntKind) → Int → Option (BitVec kind.bits)
  | .unsigned width, v => width.unsignedWord? v
  | .signed width, v => width.signedWord? v
  | .pattern width, v => width.signedWord? v <|> width.unsignedWord? v

lemma contains_pattern_iff {width : Width} {v : Int} :
    (pattern width).Contains v ↔ (signed width).Contains v ∨ (unsigned width).Contains v := by
  simp only [contains_iff, range]
  cases width <;> simp only [Set.mem_Ico] <;> omega

/-- The attempts find a word for the values in the range of the kind, and it is the same word. -/
theorem word?_eq (kind : IntKind) (v : Int) :
    kind.word? v = if kind.Contains v then some (BitVec.ofInt kind.bits v) else none := by
  rcases kind with width | width | width
  · rfl
  · rfl
  · change (width.signedWord? v <|> width.unsignedWord? v) = _
    by_cases hsigned : (signed width).Contains v
    · rw [Width.signedWord?, if_pos hsigned, if_pos (contains_pattern_iff.mpr (.inl hsigned))]
      rfl
    · have hattempt : width.signedWord? v = none := if_neg hsigned
      rw [hattempt, if_congr (contains_pattern_iff.trans (or_iff_right hsigned)) rfl rfl]
      rfl

/-- The word of a value, or an error if the attempts find none. -/
def checkedWord (kind : IntKind) (v : Int) : Encoder (BitVec kind.bits) :=
  match kind.word? v with
  | some word => pure word
  | none => throw (.outOfRange kind v)

/-- Writes a word of a kind. -/
def write (kind : IntKind) (word : BitVec kind.bits) : Encoder Unit :=
  match kind with
  | .unsigned _ => Leb128.writeUnsigned word
  | .signed _ | .pattern _ => Leb128.writeSigned word

end IntKind

namespace Integer

lemma check_seq (n : Integer) (next : BitVec n.kind.bits → Encoder Unit) :
    (do n.check; next n.word) = (do let word ← n.kind.checkedWord n.value; next word) := by
  rw [check, IntKind.checkedWord, IntKind.word?_eq]
  by_cases h : n.kind.Contains n.value
  · rw [if_pos h, if_pos h]
    rfl
  · rw [if_neg h, if_neg h]
    rfl

/-- An integer is written as the word that the attempts find. -/
theorem encode_eq_write (n : Integer) :
    encode n = (do let word ← n.kind.checkedWord n.value; n.kind.write word) := by
  have hword : n.emitWord = n.kind.write n.word := by
    rcases n with ⟨_ | _ | _, v⟩ <;> rfl
  rw [← check_seq, ← hword]
  rfl

end Integer

/-! ### Integers -/

lemma Encoder.emit_then_emit (as bs : Bytes) :
    (do emit as; emit bs : Encoder Unit) = emit (as ++ bs) := by
  have htraced := (Traced.emit as).seq (Traced.emit bs)
  rw [htraced, Traced.of_seq (Traced.emit as) (Traced.emit bs), Traced.emit (as ++ bs)]
  simp only [Trace.of_emit, Trace.ok_append]

namespace Integer

variable {n : Integer}

/-- The number as which an integer is read back. -/
def ReadAs (n : Integer) (u : Int) : Prop :=
  match n.kind with
  | .unsigned _ | .signed _ => u = n.value
  | .pattern width => u ∈ (IntKind.signed width).range ∧ u ≡ n.value [ZMOD 2 ^ width.bits]

lemma encode_of_not_mem (h : n.value ∉ n.kind.range) :
    encode n = throw (.outOfRange n.kind n.value) := by
  rw [← IntKind.contains_iff] at h
  change (do n.check; n.emitWord) = _
  rw [check, if_neg h]
  rfl

lemma encode_of_mem (h : n.value ∈ n.kind.range) : encode n = n.emitWord := by
  change (do n.check; n.emitWord) = _
  rw [check_of_contains (IntKind.contains_iff.mpr h)]
  rfl

/-- A value in its range is written as the number as which it is read back. -/
lemma emitWord_of_mem (h : n.value ∈ n.kind.range) :
    ∃ u, n.ReadAs u ∧ Leb128.Writable n.kind.sign u ∧
      n.emitWord = emit (Leb128.shortest n.kind.sign u) := by
  rcases n with ⟨width | width | width, v⟩
  · have hnonneg : 0 ≤ v := by
      rw [IntKind.unsigned_range] at h
      exact h.1
    have hword := Width.toNat_ofInt_of_mem h
    refine ⟨v, rfl, hnonneg, ?_⟩
    change (Leb128.writeUnsigned (BitVec.ofInt width.bits v) : Encoder Unit) = _
    rw [Leb128.writeUnsigned_eq_write, hword]
    rfl
  · refine ⟨v, rfl, trivial, ?_⟩
    change (Leb128.writeSigned (BitVec.ofInt width.bits v) : Encoder Unit) = _
    rw [Leb128.writeSigned_eq_write (seven_le_bits width), width.toInt_ofInt,
      Width.signedValue_of_mem h]
    rfl
  · refine ⟨width.signedValue v, ⟨width.signedValue_mem v, width.signedValue_modEq v⟩, trivial, ?_⟩
    change (Leb128.writeSigned (BitVec.ofInt width.bits v) : Encoder Unit) = _
    rw [Leb128.writeSigned_eq_write (seven_le_bits width), width.toInt_ofInt]
    rfl

lemma ReadAs.unique {u u' : Int} (h : n.ReadAs u) (h' : n.ReadAs u') : u' = u := by
  rcases n with ⟨width | width | width, v⟩
  · exact h'.trans h.symm
  · exact h'.trans h.symm
  · rw [← Width.signedValue_of_mem h.1, ← Width.signedValue_of_mem h'.1, Width.signedValue_eq_iff]
    exact h'.2.trans h.2.symm

lemma mem_range_of_image {bs : Bytes} (h : toBytes n = .ok bs) : n.value ∈ n.kind.range :=
  IntKind.contains_iff.mp (holds_of_image h _ List.mem_cons_self)

lemma image_of_mem (h : n.value ∈ n.kind.range) :
    ∃ u, n.ReadAs u ∧ Leb128.Writable n.kind.sign u ∧
      toBytes n = .ok (Leb128.shortest n.kind.sign u) := by
  obtain ⟨u, hread, hu, hword⟩ := emitWord_of_mem h
  refine ⟨u, hread, hu, ?_⟩
  rw [toBytes, encode_of_mem h, hword, emit_image_iff]

lemma emitWord_of_image {bs : Bytes} (h : toBytes n = .ok bs) : n.emitWord = emit bs := by
  have hn := mem_range_of_image h
  obtain ⟨u, -, -, hword⟩ := emitWord_of_mem hn
  rw [toBytes, encode_of_mem hn, hword, emit_image_iff] at h
  rw [hword, h]

lemma toBytes_eq_error_iff {e : EncodeError} :
    toBytes n = .error e ↔ n.value ∉ n.kind.range ∧ e = .outOfRange n.kind n.value := by
  by_cases h : n.value ∈ n.kind.range
  · obtain ⟨u, -, -, himage⟩ := image_of_mem h
    simp [himage, h]
  · rw [toBytes, encode_of_not_mem h, image_eq_error_iff, Trace.of_throw]
    simp [h, eq_comm]

/-- Bit patterns have the same image exactly if they are congruent. -/
lemma pattern_image_eq_iff {width : Width} {v v' : Int} {bs bs' : Bytes}
    (h : toBytes (⟨.pattern width, v⟩ : Integer) = .ok bs)
    (h' : toBytes (⟨.pattern width, v'⟩ : Integer) = .ok bs') :
    bs = bs' ↔ v ≡ v' [ZMOD 2 ^ width.bits] := by
  obtain ⟨u, hread, hu, himage⟩ := image_of_mem (mem_range_of_image h)
  obtain ⟨u', hread', hu', himage'⟩ := image_of_mem (mem_range_of_image h')
  obtain rfl := Except.ok.inj (h.symm.trans himage)
  obtain rfl := Except.ok.inj (h'.symm.trans himage')
  constructor
  · intro heq
    have hdecode := Leb128.decode_shortest hu []
    rw [heq, Leb128.decode_shortest hu' []] at hdecode
    obtain rfl : u' = u := congrArg Prod.fst (Except.ok.inj hdecode)
    exact hread.2.symm.trans hread'.2
  · intro hcongr
    have hread'' : (⟨.pattern width, v⟩ : Integer).ReadAs u' :=
      ⟨hread'.1, hread'.2.trans hcongr.symm⟩
    rw [hread.unique hread'']

end Integer

/-! ### Constants -/

namespace Instr

variable {width : Width} {v : Int}

lemma encode_intConst (width : Width) (v : Int) :
    encode (intConst width v) = (do
      (⟨.pattern width, v⟩ : Integer).check
      emitByte (intConstOpcode width)
      (⟨.pattern width, v⟩ : Integer).emitWord) := rfl

/-- The attempts for a constant are made before its opcode is written. -/
theorem encode_intConst_eq_write (width : Width) (v : Int) :
    encode (intConst width v) = (do
      let word ← (IntKind.pattern width).checkedWord v
      emitByte (intConstOpcode width)
      (IntKind.pattern width).write word) :=
  Integer.check_seq ⟨.pattern width, v⟩ fun word => do
    emitByte (intConstOpcode width)
    (IntKind.pattern width).write word

lemma intConst_of_image {bs : Bytes} (h : toBytes (⟨.pattern width, v⟩ : Integer) = .ok bs) :
    encode (intConst width v) = Encoder.emit (intConstOpcode width :: bs) := by
  have hv := IntKind.contains_iff.mpr (Integer.mem_range_of_image h)
  rw [encode_intConst, Integer.check_of_contains hv, Integer.emitWord_of_image h]
  exact emit_then_emit [intConstOpcode width] bs

lemma intConst_of_not_mem (h : v ∉ (IntKind.pattern width).range) :
    encode (intConst width v) = throw (.outOfRange (.pattern width) v) := by
  rw [← IntKind.contains_iff] at h
  rw [encode_intConst, Integer.check, if_neg h]
  rfl

end Instr

/-- An integer out of the range of its kind fails on every sink and leaves it as it is. In its range
it is written and read back, whatever follows. The bytes of a bit pattern are those of the congruent
ones and of no others. A constant is its opcode and the bytes of its bit pattern. It fails as this
does, and writes nothing then. -/
theorem integers_checked_and_read_back :
    (∀ n : Integer, n.value ∉ n.kind.range →
      ∀ s, encode n s = .error (.outOfRange n.kind n.value) s) ∧
    (∀ n : Integer, n.value ∈ n.kind.range →
      ∃ bs u, (∀ s, encode n s = emit bs s) ∧ n.ReadAs u ∧ (∀ u', n.ReadAs u' → u' = u) ∧
        ∀ rest, Leb128.decode n.kind.sign (bs ++ rest) = .ok (u, bs.length)) ∧
    (∀ (width : Width) (v v' : Int) (bs bs' : Bytes),
      toBytes (⟨.pattern width, v⟩ : Integer) = .ok bs →
      toBytes (⟨.pattern width, v'⟩ : Integer) = .ok bs' →
        (bs = bs' ↔ v ≡ v' [ZMOD 2 ^ width.bits])) ∧
    ∀ (width : Width) (v : Int),
      (∀ bs, toBytes (⟨.pattern width, v⟩ : Integer) = .ok bs →
        ∀ s, encode (Instr.intConst width v) s = emit (intConstOpcode width :: bs) s) ∧
      ∀ e, toBytes (⟨.pattern width, v⟩ : Integer) = .error e →
        ∀ s, encode (Instr.intConst width v) s = .error e s := by
  refine ⟨?_, ?_, ?_, ?_⟩
  · intro n hn s
    rw [Integer.encode_of_not_mem hn]
    rfl
  · intro n hn
    obtain ⟨u, hread, hu, hword⟩ := Integer.emitWord_of_mem hn
    refine ⟨Leb128.shortest n.kind.sign u, u, ?_, hread, fun u' => hread.unique,
      Leb128.decode_shortest hu⟩
    intro s
    rw [Integer.encode_of_mem hn, hword]
  · intro width v v' bs bs'
    exact Integer.pattern_image_eq_iff
  · intro width v
    refine ⟨?_, ?_⟩
    · intro bs hbs s
      rw [Instr.intConst_of_image hbs]
    · intro e he s
      obtain ⟨hv, rfl⟩ := Integer.toBytes_eq_error_iff.mp he
      rw [Instr.intConst_of_not_mem hv]
      rfl

/-- The largest bit pattern of 32 bits is written like -1. A constant with it needs two bytes, and
the next number is out of range. -/
theorem integers_checked_and_read_back_at_limits :
    let n (v : Int) : Integer := ⟨.pattern .w32, v⟩
    let e : EncodeError := .outOfRange (.pattern .w32) 0x100000000
    (n 0x100000000).value ∉ (n 0x100000000).kind.range ∧
      encode (n 0x100000000) ⟨.empty, some 0⟩ = .error e ⟨.empty, some 0⟩ ∧
      encode (Instr.intConst .w32 0x100000000) ⟨.empty, some 0⟩ = .error e ⟨.empty, some 0⟩ ∧
      (n 0xffffffff).value ∈ (n 0xffffffff).kind.range ∧
      toBytes (n 0xffffffff) = .ok [0x7f] ∧ toBytes (n (-1)) = .ok [0x7f] ∧
      0xffffffff ≡ -1 [ZMOD 2 ^ 32] ∧ Leb128.decode .signed [0x7f, 0x80] = .ok (-1, 1) ∧
      encode (Instr.intConst .w32 0xffffffff) ⟨.empty, some 1⟩ =
        .error (.io .full) ⟨⟨#[0x41]⟩, some 0⟩ := by
  intro n e
  have hout : (n 0x100000000).value ∉ (n 0x100000000).kind.range := by
    simp [n, IntKind.range]
  have hin : (n 0xffffffff).value ∈ (n 0xffffffff).kind.range := by
    simp [n, IntKind.range]
  have hunsigned : toBytes (⟨.pattern .w32, 0xffffffff⟩ : Integer) = .ok [0x7f] := by cbv
  have hsigned : toBytes (⟨.pattern .w32, -1⟩ : Integer) = .ok [0x7f] := by cbv
  obtain ⟨hfails, hreads, hpattern, hconst⟩ := integers_checked_and_read_back
  refine ⟨hout, hfails _ hout _, ?_, hin, hunsigned, hsigned,
    (hpattern .w32 _ _ _ _ hunsigned hsigned).mp rfl, ?_, ?_⟩
  · exact (hconst .w32 _).2 _ (Integer.toBytes_eq_error_iff.mpr ⟨hout, rfl⟩) _
  · obtain ⟨bs, u, hencode, -, hunique, hdecode⟩ := hreads _ hin
    have hminus : (n 0xffffffff).ReadAs (-1) := by
      simp [n, Integer.ReadAs, IntKind.range, Int.ModEq, Width.bits]
    obtain rfl : -1 = u := hunique (-1) hminus
    obtain rfl : [0x7f] = bs := by
      rw [toBytes, funext hencode] at hunsigned
      exact emit_image_iff.mp hunsigned
    exact hdecode [0x80]
  · rw [(hconst .w32 _).1 _ hunsigned]
    rfl

end WasmBinary
