import WasmBinary.Integer
import WasmBinary.Proofs.Trace

/-!
# What is checked in an encoding

An encoding can fail for three reasons, each found by a check. `Checked α` lists the checks made
for a value in the order in which they are made. The encoder of the value is traced, and ends with
the error of the first check that does not hold.
-/

namespace WasmBinary

open Encoder

/-- What has to hold at some place of a value for the value to have an encoding. -/
inductive Check where
  /-- A length fits into 32 bits. -/
  | length (n : Nat)
  /-- A value is one of its kind. -/
  | integer (kind : IntKind) (value : Int)
  /-- A block has at most one result. -/
  | results (count : Nat)
  deriving DecidableEq

namespace Check

def Holds : Check → Prop
  | length n => n < UInt32.size
  | integer kind value => kind.Contains value
  | results count => count ≤ 1

instance : DecidablePred Holds
  | length n => inferInstanceAs (Decidable (n < UInt32.size))
  | integer kind value => inferInstanceAs (Decidable (kind.Contains value))
  | results count => inferInstanceAs (Decidable (count ≤ 1))

/-- The error of a check that does not hold. -/
def error : Check → EncodeError
  | length n => .lengthOverflow n
  | integer kind value => .outOfRange kind value
  | results count => .multiValueResult count

/-- The error of the first check that does not hold. -/
def verdict : List Check → Except EncodeError Unit
  | [] => .ok ()
  | c :: cs => if c.Holds then verdict cs else .error c.error

lemma verdict_cons_of_holds {c : Check} (h : c.Holds) (cs : List Check) :
    verdict (c :: cs) = verdict cs := by
  rw [verdict, if_pos h]

lemma verdict_cons_of_not_holds {c : Check} (h : ¬c.Holds) (cs : List Check) :
    verdict (c :: cs) = .error c.error := by
  rw [verdict, if_neg h]

lemma holds_of_verdict {cs : List Check} (h : verdict cs = .ok ()) : ∀ c ∈ cs, c.Holds := by
  induction cs with
  | nil => exact List.forall_mem_nil _
  | cons c cs ih =>
    by_cases hc : c.Holds
    · rw [verdict_cons_of_holds hc] at h
      exact List.forall_mem_cons.mpr ⟨hc, ih h⟩
    · rw [verdict_cons_of_not_holds hc] at h
      exact nomatch h

lemma verdict_append (cs ds : List Check) :
    verdict (cs ++ ds) = (verdict cs).bind fun _ => verdict ds := by
  induction cs with
  | nil => rfl
  | cons c cs ih =>
    by_cases h : c.Holds
    · rw [List.cons_append, verdict_cons_of_holds h, verdict_cons_of_holds h, ih]
    · rw [List.cons_append, verdict_cons_of_not_holds h, verdict_cons_of_not_holds h]
      rfl

end Check

/-- The encoder does on every sink what its trace says, and ends as the checks decide. -/
structure Checking (encoder : Encoder Unit) (cs : List Check) : Prop where
  traced : Traced encoder
  outcome : (Trace.of encoder).outcome = Check.verdict cs

namespace Checking

theorem seq {a b : Encoder Unit} {cs ds : List Check} (ha : Checking a cs) (hb : Checking b ds) :
    Checking (do a; b) (cs ++ ds) := by
  refine ⟨ha.traced.seq hb.traced, ?_⟩
  rw [Traced.of_seq ha.traced hb.traced, Trace.outcome_append, ha.outcome, hb.outcome,
    Check.verdict_append]

lemma seq_unchecked {a b : Encoder Unit} {cs : List Check} (ha : Checking a cs)
    (hb : Checking b []) : Checking (do a; b) cs := by
  have h := ha.seq hb
  rwa [List.append_nil] at h

lemma cons_of_holds {encoder : Encoder Unit} {c : Check} {cs : List Check} (hc : c.Holds)
    (h : Checking encoder cs) : Checking encoder (c :: cs) :=
  ⟨h.traced, by rw [h.outcome, Check.verdict_cons_of_holds hc]⟩

lemma throw {c : Check} (hc : ¬c.Holds) : Checking (throw c.error) [c] := by
  refine ⟨Traced.throw _, ?_⟩
  rw [Trace.of_throw, Check.verdict_cons_of_not_holds hc]

lemma pure : Checking (pure ()) [] := by
  refine ⟨Traced.pure, ?_⟩
  rw [Trace.of_pure]
  rfl

lemma emit (bs : Bytes) : Checking (emit bs) [] := by
  refine ⟨Traced.emit bs, ?_⟩
  rw [Trace.of_emit]
  rfl

lemma emitByte (b : UInt8) : Checking (emitByte b) [] := emit [b]

lemma emitLength (n : Nat) : Checking (emitLength n) [.length n] := by
  by_cases h : n < UInt32.size
  · rw [emitLength_of_lt h]
    exact cons_of_holds h (emit _)
  · rw [emitLength_of_le (Nat.le_of_not_lt h)]
    exact throw (c := .length n) h

lemma emitSized (bs : Bytes) : Checking (emitSized bs.toByteArray) [.length bs.length] := by
  rw [emitSized_toByteArray]
  exact (emitLength bs.length).seq (emit bs)

lemma check (n : Integer) : Checking n.check [.integer n.kind n.value] := by
  by_cases h : n.kind.Contains n.value
  · rw [Integer.check, if_pos h]
    exact cons_of_holds h pure
  · rw [Integer.check, if_neg h]
    exact throw (c := .integer n.kind n.value) h

end Checking

namespace Encoder

/-- The check of the length of what an encoder writes, made if nothing is wrong with it. -/
def lengthCheck (encoder : Encoder Unit) : List Check :=
  match encoder.image with
  | .ok bs => [.length bs.length]
  | .error _ => []

end Encoder

lemma Checking.buffered {encoder : Encoder Unit} {cs : List Check} (h : Checking encoder cs)
    {next : ByteArray → Encoder Unit}
    (hnext : ∀ bs : Bytes, Checking (next bs.toByteArray) [.length bs.length]) :
    Checking (do let buffer ← buffered encoder; next buffer) (cs ++ encoder.lengthCheck) := by
  have houtcome := h.outcome
  rw [buffered_bind, lengthCheck]
  cases himage : encoder.image with
  | ok bs =>
    rw [image_eq_ok_iff.mp himage] at houtcome
    refine ⟨(hnext bs).traced, ?_⟩
    rw [(hnext bs).outcome, Check.verdict_append, ← houtcome]
    rfl
  | error e =>
    rw [image_eq_error_iff.mp himage] at houtcome
    refine ⟨Traced.throw e, ?_⟩
    rw [Trace.of_throw, List.append_nil, ← houtcome]

/-- Types whose encoders are traced, with the checks made for a value in their order. -/
class Checked (α : Type) [Encode α] where
  checks : α → List Check
  checking : ∀ a : α, Checking (encode a) (checks a)

export Checked (checks checking)

/-- Types whose encoders can do no more to an unlimited sink than write to it. -/
class AppendOnly (α : Type) [Encode α] : Prop where
  appends : ∀ a : α, Appends (encode a)

instance {α : Type} [Encode α] [Checked α] : AppendOnly α := ⟨fun a => (checking a).traced.appends⟩

lemma holds_of_image {α : Type} [Encode α] [Checked α] {a : α} {bs : Bytes}
    (h : toBytes a = .ok bs) : ∀ c ∈ checks a, c.Holds := by
  have houtcome := (checking a).outcome
  rw [image_eq_ok_iff.mp h] at houtcome
  exact Check.holds_of_verdict houtcome.symm

section Shared

variable {α β : Type} [Encode α] [Checked α] [Encode β] [Checked β]

lemma Checking.emitAll (as : List α) : Checking (emitAll as) (as.flatMap checks) := by
  induction as with
  | nil => exact Checking.pure
  | cons a as ih => exact (checking a).seq ih

instance : Checked (List α) where
  checks as := .length as.length :: as.flatMap checks
  checking as := (Checking.emitLength as.length).seq (Checking.emitAll as)

instance : Checked (α × β) where
  checks pair := checks pair.1 ++ checks pair.2
  checking pair := (checking pair.1).seq (checking pair.2)

end Shared

instance : Checked String where
  checks name := [.length name.toUTF8.data.toList.length]
  checking name := by
    have h := Checking.emitSized name.toUTF8.data.toList
    rwa [Sink.toByteArray_toList] at h

lemma Checking.writeUnsigned {w : Nat} (word : BitVec w) :
    Checking (Leb128.writeUnsigned word) [] := by
  rw [Leb128.writeUnsigned_eq_write]
  exact Checking.emit _

lemma Checking.writeSigned {w : Nat} (hw : 7 ≤ w) (word : BitVec w) :
    Checking (Leb128.writeSigned word) [] := by
  rw [Leb128.writeSigned_eq_write hw]
  exact Checking.emit _

instance : Checked UInt32 := ⟨fun _ => [], fun _ => Checking.writeUnsigned _⟩

instance : Checked UInt64 := ⟨fun _ => [], fun _ => Checking.writeUnsigned _⟩

instance : Checked Int32 := ⟨fun _ => [], fun _ => Checking.writeSigned (by decide) _⟩

instance : Checked Int64 := ⟨fun _ => [], fun _ => Checking.writeSigned (by decide) _⟩

lemma seven_le_bits (width : Width) : 7 ≤ width.bits := by
  cases width <;> decide

lemma Checking.emitWord (n : Integer) : Checking n.emitWord [] := by
  rcases n with ⟨width | width | width, value⟩
  · exact Checking.writeUnsigned _
  · exact Checking.writeSigned (seven_le_bits width) _
  · exact Checking.writeSigned (seven_le_bits width) _

instance : Checked Integer where
  checks n := [.integer n.kind n.value]
  checking n := (Checking.check n).seq (Checking.emitWord n)

end WasmBinary
