import WasmBinary.Proofs.Image
import WasmBinary.Proofs.Leb128.RoundTrip

/-!
# Vectors

A vector is its length and the encodings of its elements, up to the first element that fails. A
vector that is too long fails before any element is encoded. If the elements tell where they end,
so does the vector, since its length tells how many of them there are.
-/

namespace WasmBinary

open Encoder

section Elements

variable {α : Type} [Encode α]

/-- Either all elements of a list have images, or there is a first one that fails. -/
lemma pieces_or_first_error (as : List α) : (∃ pieces, Pieces as pieces) ∨
    ∃ before a after pieces e, as = before ++ a :: after ∧ Pieces before pieces ∧
      toBytes a = .error e := by
  induction as with
  | nil => exact .inl ⟨[], List.Forall₂.nil⟩
  | cons a as ih =>
    cases ha : toBytes a with
    | error e => exact .inr ⟨[], a, as, [], e, rfl, List.Forall₂.nil, ha⟩
    | ok piece =>
      obtain ⟨pieces, hpieces⟩ | ⟨before, a', after, pieces, e, rfl, hbefore, ha'⟩ := ih
      · exact .inl ⟨piece :: pieces, List.Forall₂.cons ha hpieces⟩
      · exact .inr ⟨a :: before, a', after, piece :: pieces, e, rfl,
          List.Forall₂.cons ha hbefore, ha'⟩

lemma exists_pieces {as : List α} (h : ∀ a ∈ as, ∃ bs, toBytes a = .ok bs) :
    ∃ pieces, Pieces as pieces := by
  obtain hpieces | ⟨before, a, after, -, e, rfl, -, ha⟩ := pieces_or_first_error as
  · exact hpieces
  · obtain ⟨bs, hbs⟩ := h a (by simp)
    exact nomatch ha.symm.trans hbs

variable [AppendOnly α]

/-- A sequence goes as far as its first element that fails. -/
lemma trace_emitAll_of_error {before : List α} {pieces : List Bytes} (h : Pieces before pieces)
    {a : α} {e : EncodeError} (ha : toBytes a = .error e) (after : List α) :
    Trace.of (emitAll (before ++ a :: after)) =
      ⟨pieces.flatten ++ (Trace.of (encode a)).bytes, .error e⟩ := by
  induction h with
  | nil =>
    have htrace : Trace.of (encode a) = ⟨(Trace.of (encode a)).bytes, .error e⟩ :=
      Trace.ext rfl (image_eq_error_iff.mp ha)
    rw [List.nil_append, emitAll, (AppendOnly.appends a).of_seq (Appends.emitAll after), htrace,
      Trace.error_append]
    rfl
  | @cons b piece before pieces hpiece _ ih =>
    rw [List.cons_append, emitAll,
      (AppendOnly.appends b).of_seq (Appends.emitAll (before ++ a :: after)), ih,
      image_eq_ok_iff.mp hpiece, Trace.ok_append, List.flatten_cons, List.append_assoc]

lemma exists_first_error {as : List α} {e : EncodeError} (h : (emitAll as).image = .error e) :
    ∃ before a after bs, as = before ++ a :: after ∧ (emitAll before).image = .ok bs ∧
      toBytes a = .error e := by
  obtain ⟨pieces, hpieces⟩ | ⟨before, a, after, pieces, e', rfl, hbefore, ha⟩ :=
    pieces_or_first_error as
  · rw [emitAll_image_iff.mpr ⟨pieces, hpieces, rfl⟩] at h
    exact nomatch h
  · rw [image_eq_error_iff, trace_emitAll_of_error hbefore ha] at h
    obtain rfl := Except.error.inj h
    exact ⟨before, a, after, _, rfl, emitAll_image_iff.mpr ⟨pieces, hbefore, rfl⟩, ha⟩

end Elements

/-! ### Lengths and elements -/

section Lengths

variable {α : Type} [Encode α]

lemma encode_vector_of_le {as : List α} (h : UInt32.size ≤ as.length) (sink : Sink) :
    encode as sink = .error (.lengthOverflow as.length) sink := by
  change EStateM.bind (emitLength as.length) (fun _ => emitAll as) sink = _
  rw [emitLength_of_le h]
  rfl

instance [AppendOnly α] : AppendOnly (List α) :=
  ⟨fun as => (Checking.emitLength as.length).traced.appends.seq (Appends.emitAll as)⟩

lemma trace_vector [AppendOnly α] {as : List α} (h : as.length < UInt32.size) :
    Trace.of (encode as) = ⟨Leb128.encodeUnsigned as.length, .ok ()⟩ ++ Trace.of (emitAll as) := by
  change Trace.of (do emitLength as.length; emitAll as) = _
  rw [(Checking.emitLength as.length).traced.appends.of_seq (Appends.emitAll as),
    emitLength_of_lt h, Trace.of_emit]

lemma run_vector [AppendOnly α] {as : List α} (h : as.length < UInt32.size)
    (held : ByteArray) {bs : Bytes} {outcome : Except EncodeError Unit}
    (htrace : Trace.of (emitAll as) = ⟨bs, outcome⟩) :
    encode as ⟨held, none⟩ = Trace.finish ⟨bs, outcome⟩
      ⟨held ++ (Leb128.encodeUnsigned as.length ++ bs), none⟩ := by
  rw [AppendOnly.appends as, trace_vector h, htrace]
  rfl

lemma exists_left_of_error {a : α} {e : EncodeError} (h : toBytes a = .error e) :
    ∃ left, encode a {} = .error e left ∧ left.bytes = (Trace.of (encode a)).bytes := by
  unfold toBytes image at h
  unfold Trace.of
  rcases hrun : encode a {} with ⟨_, sink⟩ | ⟨e', sink⟩
  · rw [hrun] at h
    exact nomatch h
  · rw [hrun] at h
    obtain rfl := Except.error.inj h
    exact ⟨sink, rfl, rfl⟩

end Lengths

/-! ### Vectors that tell where they end -/

/-- Different values have different encodings, whatever bytes follow them. -/
def SelfDelimiting (α : Type) [Encode α] : Prop :=
  ∀ (a b : α) (as bs r s : Bytes), toBytes a = .ok as → toBytes b = .ok bs →
    as ++ r = bs ++ s → a = b

namespace SelfDelimiting

variable {α : Type} [Encode α]

lemma pieces (h : SelfDelimiting α) {as bs : List α} {ps qs : List Bytes} {r s : Bytes}
    (has : Pieces as ps) (hbs : Pieces bs qs) (hlength : as.length = bs.length)
    (heq : ps.flatten ++ r = qs.flatten ++ s) : as = bs := by
  induction has generalizing bs qs with
  | nil => exact (List.length_eq_zero_iff.mp hlength.symm).symm
  | @cons a p as ps ha _ ih =>
    cases hbs with
    | nil => exact nomatch hlength
    | @cons b q bs qs hb hbs =>
      rw [List.flatten_cons, List.flatten_cons, List.append_assoc, List.append_assoc] at heq
      obtain rfl := h a b p q _ _ ha hb heq
      obtain rfl := Except.ok.inj (ha.symm.trans hb)
      rw [ih hbs (Nat.succ.inj hlength) (List.append_cancel_left heq)]

theorem vector [AppendOnly α] (h : SelfDelimiting α) : SelfDelimiting (List α) := by
  intro as bs image image' r s himage himage' heq
  obtain ⟨-, ps, hps, rfl⟩ := toBytes_vector_iff.mp himage
  obtain ⟨-, qs, hqs, rfl⟩ := toBytes_vector_iff.mp himage'
  rw [List.append_assoc, List.append_assoc] at heq
  -- The lengths are read back, so as many elements follow on both sides.
  have hread := Leb128.decodeUnsigned_encodeUnsigned as.length (ps.flatten ++ r)
  rw [heq, Leb128.decodeUnsigned_encodeUnsigned] at hread
  have hlength : as.length = bs.length := (congrArg Prod.fst (Except.ok.inj hread)).symm
  rw [hlength] at heq
  exact h.pieces hps hqs hlength (List.append_cancel_left heq)

end SelfDelimiting

/-- A vector that is too long fails on every sink, and nothing is written or encoded. Any other
vector writes its length and its elements to a sink without a limit, up to the first element that
fails and what this one leaves. Vectors of elements that tell where they end tell where they end. -/
theorem vector_encoding {α : Type} [Encode α] :
    (∀ as : List α, UInt32.size ≤ as.length →
      ∀ sink, encode as sink = .error (.lengthOverflow as.length) sink) ∧
    (AppendOnly α → ∀ as : List α, as.length < UInt32.size → ∀ held : ByteArray,
      (∃ pieces, Pieces as pieces ∧ encode as ⟨held, none⟩ =
        .ok () ⟨held ++ (Leb128.encodeUnsigned as.length ++ pieces.flatten), none⟩) ∨
      ∃ before a after pieces e left, as = before ++ a :: after ∧ Pieces before pieces ∧
        encode a {} = .error e left ∧ encode as ⟨held, none⟩ = .error e
          ⟨held ++ (Leb128.encodeUnsigned as.length ++ (pieces.flatten ++ left.bytes)), none⟩) ∧
    (AppendOnly α → SelfDelimiting α → SelfDelimiting (List α)) := by
  refine ⟨fun as h sink => encode_vector_of_le h sink, ?_, fun _ h => h.vector⟩
  intro _ as hlength held
  obtain ⟨pieces, hpieces⟩ | ⟨before, a, after, pieces, e, hsplit, hbefore, ha⟩ :=
    pieces_or_first_error as
  · left
    have himage : (emitAll as).image = .ok pieces.flatten := emitAll_image_iff.mpr ⟨_, hpieces, rfl⟩
    exact ⟨pieces, hpieces, run_vector hlength held (image_eq_ok_iff.mp himage)⟩
  · right
    obtain ⟨left, hleft, hbytes⟩ := exists_left_of_error ha
    have htrace := trace_emitAll_of_error hbefore ha after
    rw [← hsplit, ← hbytes] at htrace
    exact ⟨before, a, after, pieces, e, left, hsplit, hbefore, hleft,
      run_vector hlength held htrace⟩

/-- A vector of invalid block types that is too long, a vector of instructions that fails inside its
second element, and vectors of value types. -/
theorem vector_encoding_of_types_and_instrs :
    let type : BlockType := ⟨[.i32, .i64]⟩
    let bad : Instr := .block .loop ⟨[]⟩ [.bare .drop, .intConst .w32 (2 ^ 32)]
    (UInt32.size ≤ (List.replicate UInt32.size type).length ∧
      encode (List.replicate UInt32.size type) ⟨⟨#[1]⟩, some 0⟩ =
        .error (.lengthOverflow (List.replicate UInt32.size type).length) ⟨⟨#[1]⟩, some 0⟩) ∧
    (∃ before a after pieces e left, [.bare .nop, bad, bad] = before ++ a :: after ∧
      Pieces before pieces ∧ encode a {} = .error e left ∧
      encode [.bare .nop, bad, bad] ⟨⟨#[7]⟩, none⟩ =
        .error e ⟨(⟨#[7]⟩ : ByteArray) ++
          (Leb128.encodeUnsigned 3 ++ (pieces.flatten ++ left.bytes)), none⟩) ∧
    SelfDelimiting ValType ∧ SelfDelimiting (List ValType) := by
  intro type bad
  have hlong : UInt32.size ≤ (List.replicate UInt32.size type).length :=
    Nat.le_of_eq List.length_replicate.symm
  have htypes : SelfDelimiting ValType := by
    intro a b as bs r s ha hb heq
    rw [emitByte_image_iff.mp ha, emitByte_image_iff.mp hb] at heq
    have hbyte : a.byte = b.byte := (List.cons.inj heq).1
    revert hbyte
    cases a <;> cases b <;> decide
  refine ⟨⟨hlong, vector_encoding.1 _ hlong _⟩, ?_, htypes,
    vector_encoding.2.2 inferInstance htypes⟩
  have hbad : toBytes bad = .error (.outOfRange (.pattern .w32) (2 ^ 32)) := rfl
  obtain ⟨pieces, hpieces, -⟩ | hleft :=
    vector_encoding.2.1 inferInstance [.bare .nop, bad, bad] (by decide) ⟨#[7]⟩
  · rcases hpieces with _ | ⟨-, _ | ⟨hpiece, -⟩⟩
    cases hpiece.symm.trans hbad
  · exact hleft

end WasmBinary
