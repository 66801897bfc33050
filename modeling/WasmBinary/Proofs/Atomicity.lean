import Mathlib
import WasmBinary.Proofs.Truncation
import WasmBinary.Proofs.Vectors

/-!
# What failures leave behind

Most encoders leave what they wrote before they failed. Sections and function bodies do not, since
their contents are complete before any of them is written. So a module that fails leaves its header
and the sections in front of the one that fails.
-/

namespace WasmBinary

open Encoder

/-! ### Streams without a limit -/

namespace Sink

lemma stream_unlimited {ε : Type} [SinkError ε] {writers : List (EStateM ε Sink Unit)}
    (h : ∀ writer ∈ writers, Traced writer) (held : ByteArray) :
    (stream writers ⟨held, none⟩).2 = ⟨held ++ written writers, none⟩ ∧
      (stream writers ⟨held, none⟩).1.map Step.outcome =
        writers.map fun writer => (Trace.of writer).outcome := by
  induction writers generalizing held with
  | nil =>
    refine ⟨?_, rfl⟩
    simp [stream, written]
  | cons writer writers ih =>
    obtain ⟨hwriter, hwriters⟩ := List.forall_mem_cons.mp h
    obtain ⟨hsink, hsteps⟩ := ih hwriters (held ++ (Trace.of writer).bytes)
    rw [← append_append, ← written_cons] at hsink
    rw [stream, hwriter.run_unlimited, Trace.finish]
    cases houtcome : (Trace.of writer).outcome with
    | ok u =>
      refine ⟨hsink, ?_⟩
      simp only [List.map_cons, hsteps, houtcome]
    | error e =>
      refine ⟨hsink, ?_⟩
      simp only [List.map_cons, hsteps, houtcome]

end Sink

/-! ### Buffered encoders -/

namespace Encoder

/-- What the encoder writes, if nothing is wrong with it, has a length that fits into its field. -/
def ImageFits (encoder : Encoder Unit) : Prop :=
  ∀ bs, encoder.image = .ok bs → bs.length < UInt32.size

/-- The encoder writes nothing if it fails. -/
def AllOrNothing (encoder : Encoder Unit) : Prop :=
  ∀ e, encoder.image = .error e → (Trace.of encoder).bytes = []

lemma allOrNothing_buffered {encoder : Encoder Unit} (hfit : encoder.ImageFits)
    {next : ByteArray → Encoder Unit}
    (hnext : ∀ bs : Bytes, bs.length < UInt32.size →
      ∃ out, (next bs.toByteArray).image = .ok out) :
    AllOrNothing (do let buffer ← buffered encoder; next buffer) := by
  intro e he
  rw [buffered_bind] at he ⊢
  cases himage : encoder.image with
  | error e' =>
    exact congrArg Trace.bytes (Trace.of_throw e')
  | ok bs =>
    obtain ⟨out, hout⟩ := hnext bs (hfit bs himage)
    rw [himage] at he
    exact nomatch hout.symm.trans he

end Encoder

/-- A part of a module that is written at once, with the length of its contents in front. -/
inductive Framed where
  | sectionItem (item : Section)
  | code (entry : Code)

namespace Framed

def emit : Framed → Encoder Unit
  | .sectionItem item => encode item
  | .code entry => encode entry

instance : Encode Framed := ⟨emit⟩

def emitContents : Framed → Encoder Unit
  | .sectionItem item => item.emitContents
  | .code entry => entry.emitContents

lemma traced (part : Framed) : Traced (encode part) := by
  cases part with
  | sectionItem item => exact (checking item).traced
  | code entry => exact (checking entry).traced

lemma allOrNothing {part : Framed} (h : part.emitContents.ImageFits) :
    AllOrNothing (encode part) := by
  cases part with
  | sectionItem item =>
    have hnext : ∀ bs : Bytes, bs.length < UInt32.size →
        ∃ out, (item.id.emitFrame bs.toByteArray).image = .ok out :=
      fun bs hbs => ⟨_, emitFrame_image_iff.mpr ⟨hbs, rfl⟩⟩
    exact allOrNothing_buffered h hnext
  | code entry =>
    have hnext : ∀ bs : Bytes, bs.length < UInt32.size →
        ∃ out, (emitSized bs.toByteArray).image = .ok out :=
      fun bs hbs => ⟨_, emitSized_image_iff.mpr ⟨hbs, rfl⟩⟩
    exact allOrNothing_buffered h hnext

lemma trace_of_fits {part : Framed} (h : part.emitContents.ImageFits) :
    (Trace.of (encode part)).bytes = (toBytes part).toOption.getD [] ∧
      (Trace.of (encode part)).outcome = (toBytes part).map fun _ => () := by
  cases himage : toBytes part with
  | ok bs =>
    rw [image_eq_ok_iff.mp himage]
    exact ⟨rfl, rfl⟩
  | error e => exact ⟨allOrNothing h e himage, image_eq_error_iff.mp himage⟩

lemma written_of_fits {parts : List Framed} (h : ∀ part ∈ parts, part.emitContents.ImageFits) :
    Sink.written (parts.map encode) =
      (parts.filterMap fun part => (toBytes part).toOption).flatten := by
  induction parts with
  | nil => rfl
  | cons part parts ih =>
    obtain ⟨hpart, hparts⟩ := List.forall_mem_cons.mp h
    rw [List.map_cons, Sink.written_cons, (trace_of_fits hpart).1, ih hparts, List.filterMap_cons]
    cases (toBytes part).toOption <;> rfl

theorem stream_of_fits {parts : List Framed} (h : ∀ part ∈ parts, part.emitContents.ImageFits)
    (held : ByteArray) :
    let result := Sink.stream (parts.map encode) ⟨held, none⟩
    result.2 = ⟨held ++ (parts.filterMap fun part => (toBytes part).toOption).flatten, none⟩ ∧
      result.1.map Sink.Step.outcome = parts.map fun part => (toBytes part).map fun _ => () := by
  have htraced : ∀ writer ∈ parts.map (encode : Framed → Encoder Unit), Traced writer := by
    intro writer hwriter
    obtain ⟨part, -, rfl⟩ := List.mem_map.mp hwriter
    exact part.traced
  obtain ⟨hsink, hsteps⟩ := Sink.stream_unlimited htraced held
  refine ⟨?_, ?_⟩
  · rw [hsink, written_of_fits h]
  · rw [hsteps, List.map_map]
    exact List.map_congr_left fun part hpart => (trace_of_fits (h part hpart)).2

end Framed

/-! ### Modules that fail -/

namespace Module

/-- The section with the index `k` is the first one that fails. -/
structure FailsAt (m : Module) (k : Fin m.sections.length) (e : EncodeError) : Prop where
  earlier : ∀ i < k, ∃ bs, toBytes (m.sections.get i) = .ok bs
  fails : toBytes (m.sections.get k) = .error e

variable {m : Module} {k : Fin m.sections.length} {e : EncodeError}

lemma FailsAt.exists_pieces (h : m.FailsAt k e) : ∃ pieces, Pieces (m.sections.take k) pieces := by
  apply WasmBinary.exists_pieces
  intro sec hsec
  obtain ⟨i, hi, rfl⟩ := List.mem_take_iff_getElem.mp hsec
  have hik : i < k.val := by omega
  exact h.earlier ⟨i, by omega⟩ hik

lemma FailsAt.trace (h : m.FailsAt k e) {pieces : List Bytes}
    (hpieces : Pieces (m.sections.take k) pieces) :
    Trace.of (encode m) = ⟨magic ++ version ++ pieces.flatten ++
      (Trace.of (encode (m.sections.get k))).bytes, .error e⟩ := by
  have hsplit : m.sections = m.sections.take k ++ m.sections.get k :: m.sections.drop (k + 1) := by
    rw [List.get_eq_getElem, ← List.drop_eq_getElem_cons k.isLt, List.take_append_drop]
  have hsections := trace_emitAll_of_error hpieces h.fails (m.sections.drop (k + 1))
  rw [← hsplit] at hsections
  change Trace.of (do emit magic; emit version; emitAll m.sections) = _
  have htraced := Checking.emitAll m.sections
  rw [Traced.of_seq (Traced.emit magic) ((Checking.emit version).seq htraced).traced,
    Traced.of_seq (Traced.emit version) htraced.traced, hsections, Trace.of_emit, Trace.of_emit,
    Trace.ok_append, Trace.ok_append]
  simp only [List.append_assoc]

lemma FailsAt.run (h : m.FailsAt k e) {pieces : List Bytes}
    (hpieces : Pieces (m.sections.take k) pieces) (held : ByteArray) :
    encode m ⟨held, none⟩ = .error e ⟨held ++ (magic ++ version ++ pieces.flatten ++
      (Trace.of (encode (m.sections.get k))).bytes), none⟩ := by
  rw [(checking m).traced.run_unlimited, h.trace hpieces]
  rfl

lemma exists_failsAt (h : ∃ sec ∈ m.sections, ∃ e, toBytes sec = .error e) :
    ∃ k e, m.FailsAt k e := by
  classical
  have hindex : ∃ i, ∃ (hi : i < m.sections.length) (e : EncodeError),
      toBytes (m.sections.get ⟨i, hi⟩) = .error e := by
    obtain ⟨sec, hsec, e, he⟩ := h
    obtain ⟨i, hi, rfl⟩ := List.getElem_of_mem hsec
    exact ⟨i, hi, e, he⟩
  obtain ⟨hk, e, he⟩ := Nat.find_spec hindex
  refine ⟨⟨Nat.find hindex, hk⟩, e, ?_, he⟩
  intro i hi
  cases hsec : toBytes (m.sections.get i) with
  | ok bs => exact ⟨bs, rfl⟩
  | error e' => exact absurd ⟨i.isLt, e', hsec⟩ (Nat.find_min hindex hi)

lemma FailsAt.toBytes_eq (h : m.FailsAt k e) : toBytes m = .error e := by
  obtain ⟨pieces, hpieces⟩ := h.exists_pieces
  rw [toBytes, image_eq_error_iff, h.trace hpieces]

lemma exists_error_of_toBytes (h : toBytes m = .error e) :
    ∃ sec ∈ m.sections, ∃ e, toBytes sec = .error e := by
  by_contra hnone
  have hall : ∀ sec ∈ m.sections, ∃ bs, toBytes sec = .ok bs := by
    intro sec hsec
    cases himage : toBytes sec with
    | ok bs => exact ⟨bs, rfl⟩
    | error e' => exact absurd ⟨sec, hsec, e', himage⟩ hnone
  obtain ⟨pieces, hpieces⟩ := WasmBinary.exists_pieces hall
  exact nomatch h.symm.trans (toBytes_module_iff.mpr ⟨pieces, hpieces, rfl⟩)

/-- The error of a module is that of its first section that fails. -/
theorem toBytes_eq_error_iff : toBytes m = .error e ↔ ∃ k, m.FailsAt k e := by
  constructor
  · intro h
    obtain ⟨k, e', hk⟩ := exists_failsAt (exists_error_of_toBytes h)
    obtain rfl : e = e' := Except.error.inj (h.symm.trans hk.toBytes_eq)
    exact ⟨k, hk⟩
  · rintro ⟨k, hk⟩
    exact hk.toBytes_eq

end Module

/-- A section whose contents are complete and too long leaves its id. -/
lemma Section.trace_of_le {sec : Section} {contents : Bytes}
    (hcontents : sec.emitContents.image = .ok contents) (hlong : UInt32.size ≤ contents.length) :
    Trace.of (encode sec) = ⟨[sec.id.byte], .error (.lengthOverflow contents.length)⟩ := by
  have hencode : encode sec = sec.id.emitFrame contents.toByteArray := by
    change (do let contents ← buffered sec.emitContents; sec.id.emitFrame contents) = _
    rw [buffered_bind, hcontents]
  have hsized : Trace.of (emitSized contents.toByteArray) =
      ⟨[], .error (.lengthOverflow contents.length)⟩ := by
    rw [emitSized_toByteArray, Traced.of_seq (Checking.emitLength _).traced (Traced.emit contents),
      emitLength_of_le hlong, Trace.of_throw, Trace.error_append]
  rw [hencode, SectionId.emitFrame, emitByte,
    Traced.of_seq (Traced.emit _) (Checking.emitSized contents).traced, hsized, Trace.of_emit]
  rfl

lemma Section.trace_of_not_fits {sec : Section} (h : ¬sec.emitContents.ImageFits) :
    (Trace.of (encode sec)).bytes = [sec.id.byte] := by
  unfold ImageFits at h
  push Not at h
  obtain ⟨contents, hcontents, hlong⟩ := h
  rw [Section.trace_of_le hcontents hlong]

/-- Sections and function bodies with contents of at most the allowed length are written as a whole
or not at all, so a stream of them keeps the images of those that do not fail. A module that fails
leaves its header and the images of the sections in front of its first section that fails. It also
leaves the id of that section if the contents of it are complete and too long. -/
theorem failures_leave_finished_parts :
    (∀ (parts : List Framed) (held : ByteArray),
      (∀ part ∈ parts, part.emitContents.ImageFits) →
      let result := Sink.stream (parts.map encode) ⟨held, none⟩
      result.2 = ⟨held ++ (parts.filterMap fun part => (toBytes part).toOption).flatten, none⟩ ∧
      result.1.map Sink.Step.outcome = parts.map fun part => (toBytes part).map fun _ => ()) ∧
    ∀ (m : Module) (k : Fin m.sections.length) (e : EncodeError), m.FailsAt k e →
      ∃ pieces rest, Pieces (m.sections.take k) pieces ∧
        (∀ held, encode m ⟨held, none⟩ = .error e
          ⟨held ++ (Module.magic ++ Module.version ++ pieces.flatten ++ rest), none⟩) ∧
        ((m.sections.get k).emitContents.ImageFits → rest = []) ∧
        (¬(m.sections.get k).emitContents.ImageFits → rest = [(m.sections.get k).id.byte]) := by
  refine ⟨fun parts held h => Framed.stream_of_fits h held, ?_⟩
  intro m k e h
  obtain ⟨pieces, hpieces⟩ := h.exists_pieces
  refine ⟨pieces, (Trace.of (encode (m.sections.get k))).bytes, hpieces, h.run hpieces, ?_, ?_⟩
  · intro hfit
    have hpart : AllOrNothing (encode (Framed.sectionItem (m.sections.get k))) :=
      Framed.allOrNothing hfit
    exact hpart e h.fails
  · exact Section.trace_of_not_fits

lemma Encoder.imageFits_of_ok {encoder : Encoder Unit} {bs : Bytes} (h : encoder.image = .ok bs)
    (hlength : bs.length < UInt32.size) : encoder.ImageFits := by
  intro bs' h'
  obtain rfl : bs = bs' := Except.ok.inj (h.symm.trans h')
  exact hlength

lemma Encoder.imageFits_of_error {encoder : Encoder Unit} {e : EncodeError}
    (h : encoder.image = .error e) : encoder.ImageFits :=
  fun _ h' => nomatch h.symm.trans h'

/-- A constant in a loop is out of range, after a function body that is complete. -/
theorem failures_leave_finished_parts_in_loop :
    let good : Code := ⟨[⟨1, .i32⟩], ⟨[]⟩⟩
    let bad : Code := ⟨[], ⟨[.block .loop ⟨[]⟩ [.bare .nop, .intConst .w32 (2 ^ 32)]]⟩⟩
    let parts : List Framed := [.code bad, .code good, .sectionItem (.codes [good, bad])]
    let m : Module := ⟨[.start 7, .codes [good, bad], .start 8]⟩
    let e : EncodeError := .outOfRange (.pattern .w32) (2 ^ 32)
    (∀ part ∈ parts, part.emitContents.ImageFits) ∧
      (Sink.stream (parts.map encode) ⟨⟨#[0xff]⟩, none⟩).2 = ⟨⟨#[0xff, 4, 1, 1, 127, 11]⟩, none⟩ ∧
      m.FailsAt 1 e ∧ encode m {} = .error e ⟨⟨#[0, 97, 115, 109, 1, 0, 0, 0, 8, 1, 7]⟩, none⟩ := by
  intro good bad parts m e
  have hgood : toBytes good = .ok [4, 1, 1, 127, 11] := by cbv
  have hbad : toBytes bad = .error e := by cbv
  have hcodes : toBytes (Section.codes [good, bad]) = .error e := by cbv
  have hstart : toBytes (Section.start 7) = .ok [8, 1, 7] := by cbv
  have hcodes_contents : (Framed.sectionItem (.codes [good, bad])).emitContents.image =
      .error e := by cbv
  have hfit : ∀ part ∈ parts, part.emitContents.ImageFits := by
    have hgood_contents : (Framed.code good).emitContents.image = .ok [1, 1, 127, 11] := by cbv
    have hbad_contents : (Framed.code bad).emitContents.image = .error e := by cbv
    simp only [parts, List.forall_mem_cons]
    exact ⟨imageFits_of_error hbad_contents, imageFits_of_ok hgood_contents (by decide),
      imageFits_of_error hcodes_contents, List.forall_mem_nil _⟩
  have hfails : m.FailsAt 1 e := by
    refine ⟨?_, hcodes⟩
    intro i hi
    obtain rfl : i = 0 := Fin.ext (Nat.lt_one_iff.mp hi)
    exact ⟨_, hstart⟩
  obtain ⟨hstream, hmodule⟩ := failures_leave_finished_parts
  refine ⟨hfit, ?_, hfails, ?_⟩
  · have hparts : (parts.filterMap fun part => (toBytes part).toOption) = [[4, 1, 1, 127, 11]] := by
      have hbad_part : toBytes (Framed.code bad) = .error e := hbad
      have hgood_part : toBytes (Framed.code good) = .ok [4, 1, 1, 127, 11] := hgood
      have hcodes_part : toBytes (Framed.sectionItem (.codes [good, bad])) = .error e := hcodes
      simp [parts, hbad_part, hgood_part, hcodes_part, Except.toOption]
    rw [(hstream parts ⟨#[0xff]⟩ hfit).1, hparts]
    rfl
  · obtain ⟨pieces, rest, hpieces, hencode, hrest, -⟩ := hmodule m 1 e hfails
    obtain rfl : rest = [] := hrest (imageFits_of_error hcodes_contents)
    have hpieces : pieces = [[8, 1, 7]] := by
      rcases hpieces with _ | ⟨hpiece, _ | _⟩
      rw [Except.ok.inj (hpiece.symm.trans hstart)]
    have hempty := hencode .empty
    rw [hpieces] at hempty
    exact hempty

lemma length_toUTF8_replicate (n : Nat) :
    (String.ofList (List.replicate n 'a')).toUTF8.data.toList.length = n := by
  change (String.ofList (List.replicate n 'a')).toByteArray.data.toList.length = n
  rw [String.toByteArray_ofList, List.utf8Encode, List.data_toByteArray, List.length_flatMap,
    List.map_replicate, List.sum_replicate]
  exact Nat.mul_one n

lemma exists_image_of_import {name : String} {n : Nat} (hsize : name.toUTF8.data.toList.length = n)
    (hlt : n < UInt32.size) :
    ∃ piece, toBytes (⟨name, "", .func 0⟩ : Import) = .ok piece ∧
      piece.length = (Leb128.encodeUnsigned n).length + n + 3 := by
  have hitem : toBytes "" = .ok [0] := by cbv
  have hdesc : toBytes (ImportDesc.func 0) = .ok [0, 0] := by cbv
  have htraced := (checking (ImportDesc.func 0)).traced
  have hrest := (image_seq (checking "").traced htraced).mpr ⟨[0], [0, 0], hitem, hdesc, rfl⟩
  have hname := toBytes_name (hsize ▸ hlt)
  refine ⟨_, (image_seq (checking name).traced ((checking "").traced.seq htraced)).mpr
    ⟨_, _, hname, hrest, rfl⟩, ?_⟩
  rw [List.length_append, List.length_append, hsize]
  rfl

/-- The header is not all that a module leaves if the contents of its only section are complete and
have more bytes than the field of their length has room for. -/
theorem failures_leave_finished_parts_and_id :
    let name := String.ofList (List.replicate 1080000 'a')
    let m : Module := ⟨[.imports (List.replicate 3980 ⟨name, "", .func 0⟩)]⟩
    let e : EncodeError := .lengthOverflow 4298423882
    m.FailsAt 0 e ∧ encode m {} = .error e ⟨⟨#[0, 97, 115, 109, 1, 0, 0, 0, 2]⟩, none⟩ ∧
      ¬∃ pieces, Pieces (m.sections.take 0) pieces ∧ encode m {} =
        .error e ⟨(Module.magic ++ Module.version ++ pieces.flatten).toByteArray, none⟩ := by
  have hsize := length_toUTF8_replicate 1080000
  generalize String.ofList (List.replicate 1080000 'a') = text at hsize ⊢
  intro _ m e
  let item : Import := ⟨text, "", .func 0⟩
  obtain ⟨piece, hpiece, hpiece_length⟩ := exists_image_of_import hsize (by decide)
  have hcontents : (Section.imports (List.replicate 3980 item)).emitContents.image =
      .ok (Leb128.encodeUnsigned 3980 ++ (List.replicate 3980 piece).flatten) := by
    refine toBytes_vector_iff.mpr ⟨?_, _, Pieces.replicate hpiece 3980, ?_⟩
    · rw [List.length_replicate]
      decide
    · rw [List.length_replicate]
  have hlength : (Leb128.encodeUnsigned 3980 ++ (List.replicate 3980 piece).flatten).length =
      4298423882 := by
    have hcount : Leb128.encodeUnsigned 3980 = [0x8c, 0x1f] := by cbv
    have hlength : Leb128.encodeUnsigned 1080000 = [0xc0, 0xf5, 0x41] := by cbv
    rw [hcount, List.length_append, List.length_flatten, List.map_replicate, List.sum_replicate,
      hpiece_length, hlength]
    rfl
  have htrace := Section.trace_of_le hcontents (by rw [hlength]; decide)
  rw [hlength] at htrace
  have hfails : m.FailsAt 0 e := by
    refine ⟨fun i hi => absurd hi (Fin.not_lt_zero i), ?_⟩
    exact image_eq_error_iff.mpr (congrArg Trace.outcome htrace)
  have hrun := hfails.run List.Forall₂.nil .empty
  have hbytes : (Trace.of (encode (m.sections.get 0))).bytes = [2] := congrArg Trace.bytes htrace
  rw [hbytes] at hrun
  refine ⟨hfails, hrun, ?_⟩
  rintro ⟨pieces, hpieces, hheader⟩
  cases hpieces
  cases hrun.symm.trans hheader

end WasmBinary
