import WasmBinary.Proofs.Integer
import WasmBinary.Proofs.Parser.Instr

/-!
# Where instructions end

A sequence of instructions has no length in front of it. It ends with the end or the else of the
block that it is in, and what is encoded tells where this is and which instructions stand before it.
-/

namespace WasmBinary

open Encoder

/-! ### Congruent instructions -/

namespace Instr

mutual

/-- The instructions are the same, but for constants with different values that are congruent. -/
inductive Congruent : Instr → Instr → Prop where
  | refl (instr : Instr) : Congruent instr instr
  | intConst {width : Width} {v v' : Int} (h : v ≡ v' [ZMOD 2 ^ width.bits]) :
    Congruent (.intConst width v) (.intConst width v')
  | block {kind : BlockKind} {type : BlockType} {body body' : List Instr}
    (h : SeqCongruent body body') : Congruent (.block kind type body) (.block kind type body')
  | ifElse {type : BlockType} {thenBody thenBody' elseBody elseBody' : List Instr}
    (hthen : SeqCongruent thenBody thenBody') (helse : SeqCongruent elseBody elseBody') :
    Congruent (.ifElse type thenBody elseBody) (.ifElse type thenBody' elseBody')

inductive SeqCongruent : List Instr → List Instr → Prop where
  | nil : SeqCongruent [] []
  | cons {instr instr' : Instr} {instrs instrs' : List Instr} (h : Congruent instr instr')
    (hrest : SeqCongruent instrs instrs') : SeqCongruent (instr :: instrs) (instr' :: instrs')

end

mutual

theorem norm_eq_of_congruent : (instr : Instr) → {instr' : Instr} → Congruent instr instr' →
    instr.norm = instr'.norm
  | _, _, .refl _ => rfl
  | .intConst _ _, _, .intConst h => by rw [norm, norm, Width.signedValue_eq_iff.mpr h]
  | .block _ _ body, _, .block h => by rw [norm, norm, seqNorm_eq_of_congruent body h]
  | .ifElse _ thenBody elseBody, _, .ifElse hthen helse => by
    rw [norm, norm, seqNorm_eq_of_congruent thenBody hthen, seqNorm_eq_of_congruent elseBody helse]

theorem seqNorm_eq_of_congruent : (instrs : List Instr) → {instrs' : List Instr} →
    SeqCongruent instrs instrs' → seqNorm instrs = seqNorm instrs'
  | [], _, .nil => rfl
  | instr :: instrs, _, .cons h hrest => by
    rw [seqNorm, seqNorm, norm_eq_of_congruent instr h, seqNorm_eq_of_congruent instrs hrest]

end

mutual

theorem congruent_of_norm_eq : (instr instr' : Instr) → instr.norm = instr'.norm →
    Congruent instr instr'
  | instr, instr', h => by
    cases instr with
    | block kind type body =>
      cases instr' with
      | block kind' type' body' =>
        obtain ⟨rfl, rfl, hbody⟩ := block.inj h
        exact .block (congruent_of_seqNorm_eq body body' hbody)
      | _ => exact nomatch h
    | ifElse type thenBody elseBody =>
      cases instr' with
      | ifElse type' thenBody' elseBody' =>
        obtain ⟨rfl, hthen, helse⟩ := ifElse.inj h
        exact .ifElse (congruent_of_seqNorm_eq thenBody thenBody' hthen)
          (congruent_of_seqNorm_eq elseBody elseBody' helse)
      | _ => exact nomatch h
    | intConst width v =>
      cases instr' with
      | intConst width' v' =>
        obtain ⟨rfl, hvalue⟩ := intConst.inj h
        exact .intConst (Width.signedValue_eq_iff.mp hvalue)
      | _ => exact nomatch h
    | _ =>
      cases instr' with
      | block => exact nomatch h
      | ifElse => exact nomatch h
      | intConst => exact nomatch h
      | _ =>
        rw [norm, norm] at h
        rw [h]
        exact .refl _

theorem congruent_of_seqNorm_eq : (instrs instrs' : List Instr) → seqNorm instrs = seqNorm instrs' →
    SeqCongruent instrs instrs'
  | [], [], _ => .nil
  | [], _ :: _, h => nomatch h
  | _ :: _, [], h => nomatch h
  | instr :: instrs, instr' :: instrs', h => by
    rw [seqNorm, seqNorm, List.cons.injEq] at h
    exact .cons (congruent_of_norm_eq instr instr' h.1) (congruent_of_seqNorm_eq instrs instrs' h.2)

end

lemma seqNorm_eq_iff {instrs instrs' : List Instr} :
    seqNorm instrs = seqNorm instrs' ↔ SeqCongruent instrs instrs' :=
  ⟨congruent_of_seqNorm_eq instrs instrs', seqNorm_eq_of_congruent instrs⟩

/-! ### Sequences and what follows them -/

lemma image_seqNorm {instrs : List Instr} {bs : Bytes} (h : (emitSeq instrs).image = .ok bs) :
    (emitSeq (seqNorm instrs)).image = .ok bs := by
  have houtcome := (seq_checking instrs).outcome
  rw [image_eq_ok_iff.mp h] at houtcome
  rw [emitSeq_norm instrs (Check.holds_of_verdict houtcome.symm), h]

end Instr

/-- The token of a byte that ends a body. -/
lemma exists_terminator {t : UInt8} (h : t = endByte ∨ t = elseByte) :
    ∃ last : Token, (last = .otherwise ∨ last = .closing) ∧ toBytes last = .ok [t] := by
  rcases h with rfl | rfl
  · exact ⟨.closing, .inr rfl, emitByte_image_iff.mpr rfl⟩
  · exact ⟨.otherwise, .inl rfl, emitByte_image_iff.mpr rfl⟩

lemma PartialTree.read_terminated {instrs : List Instr} {bs : Bytes}
    (h : (Instr.emitSeq instrs).image = .ok bs) {last : Token}
    (hlast : last = .otherwise ∨ last = .closing) {t : UInt8} (ht : toBytes last = .ok [t])
    (rest : Bytes) :
    read ⟨[], []⟩ (bs ++ [t] ++ rest) = some ((Instr.seqNorm instrs, last), rest) := by
  have himage : image (do Instr.emitSeq instrs; encode last) = .ok (bs ++ [t]) :=
    (image_seq (Instr.seq_checking instrs).traced (checking last).traced).mpr ⟨_, _, h, ht, rfl⟩
  exact (reads_seq instrs hlast).run _ himage rest

/-- Where the encoding of instructions ends can be seen from its bytes. If two encodings go on with
an end or an else and any bytes, they are the same bytes exactly if the instructions are congruent
and what follows them is the same. -/
theorem seq_self_delimiting (xs ys : List Instr) (as bs : Bytes)
    (hxs : (Instr.emitSeq xs).image = .ok as) (hys : (Instr.emitSeq ys).image = .ok bs)
    (t u : UInt8) (ht : t = endByte ∨ t = elseByte) (hu : u = endByte ∨ u = elseByte)
    (r s : Bytes) :
    as ++ [t] ++ r = bs ++ [u] ++ s ↔ t = u ∧ r = s ∧ Instr.SeqCongruent xs ys := by
  obtain ⟨last, hlast, hlast_bytes⟩ := exists_terminator ht
  obtain ⟨last', hlast', hlast_bytes'⟩ := exists_terminator hu
  constructor
  · intro heq
    have hread := PartialTree.read_terminated hxs hlast hlast_bytes r
    rw [heq, PartialTree.read_terminated hys hlast' hlast_bytes' s] at hread
    simp only [Option.some.injEq, Prod.mk.injEq] at hread
    obtain ⟨⟨hnorm, rfl⟩, rfl⟩ := hread
    obtain ⟨rfl, -⟩ := List.cons.inj (Except.ok.inj (hlast_bytes.symm.trans hlast_bytes'))
    exact ⟨rfl, rfl, Instr.seqNorm_eq_iff.mp hnorm.symm⟩
  · rintro ⟨rfl, rfl, hcongruent⟩
    have himage := Instr.image_seqNorm hxs
    rw [Instr.seqNorm_eq_iff.mpr hcongruent, Instr.image_seqNorm hys] at himage
    rw [Except.ok.inj himage]

/-- A constant that looks like an end stands in front of the end. Another constant is given by its
unsigned and by its signed value. -/
theorem seq_self_delimiting_with_misleading_constant :
    let instrs (v : Int) : List Instr :=
      [.ifElse ⟨[]⟩ [.intConst .w32 v] [], .intConst .w64 11]
    let bs : Bytes := [0x04, 0x40, 0x41, 0x7f, 0x05, 0x0b, 0x42, 0x0b]
    (Instr.emitSeq (instrs 0xffffffff)).image = .ok bs ∧
      (Instr.emitSeq (instrs (-1))).image = .ok bs ∧
      (endByte = endByte ∨ endByte = elseByte) ∧ (elseByte = endByte ∨ elseByte = elseByte) ∧
      Instr.SeqCongruent (instrs 0xffffffff) (instrs (-1)) ∧
      bs ++ [endByte] ++ [0x05] ≠ bs ++ [elseByte] ++ [0x05] := by
  intro instrs bs
  have hunsigned : (Instr.emitSeq (instrs 0xffffffff)).image = .ok bs := by cbv
  have hsigned : (Instr.emitSeq (instrs (-1))).image = .ok bs := by cbv
  have hend : endByte = endByte ∨ endByte = elseByte := .inl rfl
  have helse : elseByte = endByte ∨ elseByte = elseByte := .inr rfl
  have hsame := seq_self_delimiting _ _ bs bs hunsigned hsigned _ _ hend hend [] []
  have hother := seq_self_delimiting _ _ bs bs hunsigned hsigned _ _ hend helse [0x05] [0x05]
  exact ⟨hunsigned, hsigned, hend, helse, (hsame.mp rfl).2.2,
    fun heq => absurd (hother.mp heq).1 (by decide)⟩

end WasmBinary
