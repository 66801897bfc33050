import Mathlib.Data.List.Forall2
import WasmBinary.Proofs.Check.Node

/-!
# What an image is made of

An image is put together from the images of its parts. Each lemma says when a kind of encoder has
an image, and from which parts it is made.
-/

namespace WasmBinary

open Encoder

lemma emit_image_iff {as bs : Bytes} : (emit as).image = .ok bs ↔ bs = as := by
  rw [image_eq_ok_iff, Trace.of_emit]
  simp [eq_comm]

lemma emitByte_image_iff {b : UInt8} {bs : Bytes} : (emitByte b).image = .ok bs ↔ bs = [b] :=
  emit_image_iff

lemma emitLength_image_iff {n : Nat} {bs : Bytes} :
    (emitLength n).image = .ok bs ↔ n < UInt32.size ∧ bs = Leb128.encodeUnsigned n := by
  by_cases h : n < UInt32.size
  · rw [emitLength_of_lt h, emit_image_iff, and_iff_right h]
  · rw [emitLength_of_le (Nat.le_of_not_lt h), image_eq_ok_iff, Trace.of_throw]
    exact ⟨fun hthrow => (nomatch hthrow), fun hbs => absurd hbs.1 h⟩

lemma emit_seq_image_iff {as bs : Bytes} {next : Encoder Unit} (h : Traced next) :
    image (do emit as; next) = .ok bs ↔ ∃ cs, next.image = .ok cs ∧ bs = as ++ cs := by
  rw [image_seq (Traced.emit as) h]
  simp only [emit_image_iff, exists_eq_left, exists_and_left]

lemma emitLength_seq_image_iff {n : Nat} {bs : Bytes} {next : Encoder Unit} (h : Appends next) :
    image (do emitLength n; next) = .ok bs ↔
      n < UInt32.size ∧ ∃ cs, next.image = .ok cs ∧ bs = Leb128.encodeUnsigned n ++ cs := by
  rw [image_seq_of_appends (Checking.emitLength n).traced.appends h]
  simp only [emitLength_image_iff]
  constructor
  · rintro ⟨_, cs, ⟨hn, rfl⟩, hcs, hbs⟩
    exact ⟨hn, cs, hcs, hbs⟩
  · rintro ⟨hn, cs, hcs, hbs⟩
    exact ⟨_, cs, ⟨hn, rfl⟩, hcs, hbs⟩

lemma emitSized_image_iff {as bs : Bytes} :
    (emitSized as.toByteArray).image = .ok bs ↔
      as.length < UInt32.size ∧ bs = Leb128.encodeUnsigned as.length ++ as := by
  rw [emitSized_toByteArray, emitLength_seq_image_iff (Traced.emit as).appends]
  simp only [emit_image_iff, exists_eq_left]

lemma buffered_image_iff {encoder : Encoder Unit} {next : ByteArray → Encoder Unit} {bs : Bytes} :
    image (do let contents ← buffered encoder; next contents) = .ok bs ↔
      ∃ contents : Bytes, encoder.image = .ok contents ∧
        (next contents.toByteArray).image = .ok bs := by
  rw [buffered_bind]
  cases encoder.image with
  | ok contents => simp
  | error e =>
    have hthrow : ¬image (throw e) = .ok bs := by
      rw [image_eq_ok_iff, Trace.of_throw]
      simp
    simp [hthrow]

section Vectors

variable {α : Type} [Encode α] [AppendOnly α]

/-- The image of a sequence is made of one piece for each of its elements. -/
def Pieces (as : List α) (pieces : List Bytes) : Prop :=
  List.Forall₂ (fun a piece => toBytes a = .ok piece) as pieces

omit [AppendOnly α] in
lemma Pieces.replicate {a : α} {piece : Bytes} (h : toBytes a = .ok piece) (n : Nat) :
    Pieces (List.replicate n a) (List.replicate n piece) := by
  induction n with
  | zero => exact List.Forall₂.nil
  | succ n ih => exact List.Forall₂.cons h ih

lemma Appends.emitAll (as : List α) : Appends (emitAll as) := by
  induction as with
  | nil => exact Traced.pure.appends
  | cons a as ih => exact (AppendOnly.appends a).seq ih

lemma emitAll_image_iff {as : List α} {bs : Bytes} :
    (emitAll as).image = .ok bs ↔ ∃ pieces, Pieces as pieces ∧ bs = pieces.flatten := by
  induction as generalizing bs with
  | nil =>
    have hnil : (emitAll ([] : List α)).image = .ok bs ↔ bs = [] := by
      change image (pure ()) = .ok bs ↔ bs = []
      rw [image_eq_ok_iff, Trace.of_pure]
      simp [eq_comm]
    rw [hnil]
    constructor
    · rintro rfl
      exact ⟨[], List.Forall₂.nil, rfl⟩
    · rintro ⟨pieces, hpieces, rfl⟩
      cases hpieces
      rfl
  | cons a as ih =>
    rw [emitAll, image_seq_of_appends (AppendOnly.appends a) (Appends.emitAll as)]
    constructor
    · rintro ⟨piece, rest, hpiece, hrest, rfl⟩
      obtain ⟨pieces, hpieces, rfl⟩ := ih.mp hrest
      exact ⟨piece :: pieces, List.Forall₂.cons hpiece hpieces, rfl⟩
    · rintro ⟨pieces, hpieces, rfl⟩
      cases hpieces with
      | cons hpiece hrest => exact ⟨_, _, hpiece, ih.mpr ⟨_, hrest, rfl⟩, rfl⟩

theorem toBytes_vector_iff {as : List α} {bs : Bytes} :
    toBytes as = .ok bs ↔ as.length < UInt32.size ∧
      ∃ pieces, Pieces as pieces ∧ bs = Leb128.encodeUnsigned as.length ++ pieces.flatten := by
  change image (do emitLength as.length; emitAll as) = .ok bs ↔ _
  rw [emitLength_seq_image_iff (Appends.emitAll as)]
  simp only [emitAll_image_iff]
  constructor
  · rintro ⟨hlength, _, ⟨pieces, hpieces, rfl⟩, hbs⟩
    exact ⟨hlength, pieces, hpieces, hbs⟩
  · rintro ⟨hlength, pieces, hpieces, hbs⟩
    exact ⟨hlength, _, ⟨pieces, hpieces, rfl⟩, hbs⟩

end Vectors

lemma toBytes_name {name : String} (h : name.toUTF8.data.toList.length < UInt32.size) :
    toBytes name = .ok (Leb128.encodeUnsigned name.toUTF8.data.toList.length ++
      name.toUTF8.data.toList) := by
  have himage := emitSized_image_iff.mpr ⟨h, rfl⟩
  rwa [Sink.toByteArray_toList] at himage

theorem toBytes_code_iff {code : Code} {bs : Bytes} :
    toBytes code = .ok bs ↔ ∃ contents, code.emitContents.image = .ok contents ∧
      contents.length < UInt32.size ∧ bs = Leb128.encodeUnsigned contents.length ++ contents := by
  change image (do let contents ← buffered code.emitContents; emitSized contents) = _ ↔ _
  rw [buffered_image_iff]
  simp only [emitSized_image_iff]

lemma emitFrame_image_iff {id : SectionId} {contents bs : Bytes} :
    (id.emitFrame contents.toByteArray).image = .ok bs ↔ contents.length < UInt32.size ∧
      bs = id.byte :: (Leb128.encodeUnsigned contents.length ++ contents) := by
  unfold SectionId.emitFrame emitByte
  rw [emit_seq_image_iff (Checking.emitSized _).traced]
  simp only [emitSized_image_iff]
  constructor
  · rintro ⟨_, ⟨hlength, rfl⟩, hbs⟩
    exact ⟨hlength, hbs⟩
  · rintro ⟨hlength, hbs⟩
    exact ⟨_, ⟨hlength, rfl⟩, hbs⟩

theorem toBytes_section_iff {sec : Section} {bs : Bytes} :
    toBytes sec = .ok bs ↔ ∃ contents, sec.emitContents.image = .ok contents ∧
      contents.length < UInt32.size ∧
      bs = sec.id.byte :: (Leb128.encodeUnsigned contents.length ++ contents) := by
  change image (do let contents ← buffered sec.emitContents; sec.id.emitFrame contents) = _ ↔ _
  rw [buffered_image_iff]
  simp only [emitFrame_image_iff]

theorem toBytes_module_iff {m : Module} {bs : Bytes} :
    toBytes m = .ok bs ↔ ∃ pieces, Pieces m.sections pieces ∧
      bs = Module.magic ++ Module.version ++ pieces.flatten := by
  change image (do emit Module.magic; emit Module.version; emitAll m.sections) = .ok bs ↔ _
  have hsections := Checking.emitAll m.sections
  rw [emit_seq_image_iff ((Checking.emit Module.version).seq hsections).traced]
  simp only [emit_seq_image_iff hsections.traced, emitAll_image_iff]
  constructor
  · rintro ⟨_, ⟨_, ⟨pieces, hpieces, rfl⟩, rfl⟩, rfl⟩
    exact ⟨pieces, hpieces, rfl⟩
  · rintro ⟨pieces, hpieces, rfl⟩
    exact ⟨_, ⟨_, ⟨pieces, hpieces, rfl⟩, rfl⟩, rfl⟩

end WasmBinary
