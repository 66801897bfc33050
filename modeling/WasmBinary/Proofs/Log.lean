import WasmBinary.Proofs.Atomicity
import WasmBinary.Proofs.Framing
import WasmBinary.Proofs.Recorder

/-!
# The log of a run

A run that encodes the sections one after another reports each section whose contents are complete,
up to the first one that fails. So the log of a run can be read off its image.
-/

namespace WasmBinary

open Encoder Recorder

namespace Recorder

/-- What has been recorded when a recorder ends, with an error or not. -/
def final {α : Type} : EStateM.Result EncodeError Recording α → Recording
  | .ok _ recording => recording
  | .error _ recording => recording

end Recorder

/-! ### Events of sections -/

namespace Section

/-- The event shows the section and the length of its contents. -/
def Reported (sec : Section) (event : Event) : Prop :=
  ∃ contents, sec.emitContents.image = .ok contents ∧
    event = .sectionEncoded sec.id contents.length

def encodes (sec : Section) : Bool := (toBytes sec).isOk

variable {sec : Section} {contents : Bytes}

lemma encodes_of_contents (h : sec.emitContents.image = .ok contents)
    (hlength : contents.length < UInt32.size) : sec.encodes = true := by
  rw [encodes, toBytes_section_iff.mpr ⟨contents, h, hlength, rfl⟩]
  rfl

lemma not_encodes_of_error {e : EncodeError} (h : sec.emitContents.image = .error e) :
    sec.encodes = false := by
  unfold encodes
  cases hsec : toBytes sec with
  | error e' => rfl
  | ok bs =>
    obtain ⟨contents, hcontents, -⟩ := toBytes_section_iff.mp hsec
    exact nomatch hcontents.symm.trans h

/-- A section that fails leaves no event. -/
lemma record_of_error {e : EncodeError} (h : sec.emitContents.image = .error e)
    (recording : Recording) : sec.record recording = .error e recording := by
  change EStateM.bind (onSink (buffered sec.emitContents)) _ recording = _
  rw [EStateM.bind, onSink, buffered_eq, h]

lemma record_of_contents (h : sec.emitContents.image = .ok contents)
    (hlength : contents.length < UInt32.size) (held : ByteArray) (events : Array Event) :
    sec.record ⟨⟨held, none⟩, events⟩ =
      .ok () ⟨⟨held ++ (sec.id.byte :: (Leb128.encodeUnsigned contents.length ++ contents)), none⟩,
        events.push (.sectionEncoded sec.id contents.length)⟩ := by
  have htraced : Traced (sec.id.emitFrame contents.toByteArray) :=
    ((Checking.emitByte sec.id.byte).seq (Checking.emitSized contents)).traced
  have hrun := htraced.run_unlimited held
  rw [image_eq_ok_iff.mp (emitFrame_image_iff.mpr ⟨hlength, rfl⟩)] at hrun
  change EStateM.bind (onSink (buffered sec.emitContents)) _ _ = _
  rw [EStateM.bind, onSink, buffered_eq, h]
  change onSink (sec.id.emitFrame contents.toByteArray)
    ⟨⟨held, none⟩, events.push (.sectionEncoded sec.id contents.toByteArray.size)⟩ = _
  rw [onSink, hrun, List.size_toByteArray]
  rfl

end Section

namespace Module

/-- Sections are reported one after another up to the first one that fails. -/
lemma record_events {secs : List Section} (hfit : ∀ sec ∈ secs, sec.emitContents.ImageFits)
    (held : ByteArray) (events : Array Event) :
    ∃ log, List.Forall₂ Section.Reported (secs.takeWhile Section.encodes) log ∧
      (final (secs.forM Section.record ⟨⟨held, none⟩, events⟩)).events.toList =
        events.toList ++ log := by
  induction secs generalizing held events with
  | nil => exact ⟨[], List.Forall₂.nil, (List.append_nil _).symm⟩
  | cons sec secs ih =>
    obtain ⟨hsec, hsecs⟩ := List.forall_mem_cons.mp hfit
    change ∃ log, _ ∧ (final (EStateM.bind sec.record (fun _ => secs.forM Section.record)
      ⟨⟨held, none⟩, events⟩)).events.toList = _
    cases hcontents : sec.emitContents.image with
    | error e =>
      have hstop : ¬sec.encodes = true := by simp [Section.not_encodes_of_error hcontents]
      refine ⟨[], ?_, ?_⟩
      · rw [List.takeWhile_cons_of_neg hstop]
        exact List.Forall₂.nil
      · rw [EStateM.bind, Section.record_of_error hcontents]
        exact (List.append_nil _).symm
    | ok contents =>
      have hlength := hsec contents hcontents
      obtain ⟨log, hlog, hevents⟩ := ih hsecs
        (held ++ (sec.id.byte :: (Leb128.encodeUnsigned contents.length ++ contents)))
        (events.push (.sectionEncoded sec.id contents.length))
      refine ⟨.sectionEncoded sec.id contents.length :: log, ?_, ?_⟩
      · rw [List.takeWhile_cons_of_pos (Section.encodes_of_contents hcontents hlength)]
        exact List.Forall₂.cons ⟨contents, hcontents, rfl⟩ hlog
      · rw [EStateM.bind, Section.record_of_contents hcontents hlength]
        dsimp only
        rw [hevents, Array.toList_push, List.append_assoc, List.singleton_append]

lemma sequentialRun_events_eq (m : Module) :
    m.sequentialRun.events =
      (final (m.sections.forM Section.record
        ⟨⟨(magic ++ version).toByteArray, none⟩, #[]⟩)).events.toList := by
  unfold sequentialRun
  dsimp only
  change (match m.sections.forM Section.record ⟨⟨(magic ++ version).toByteArray, none⟩, #[]⟩ with
    | .ok _ recording => (⟨.ok recording.sink.bytes, recording.events.toList⟩ : Run)
    | .error e recording => ⟨.error e, recording.events.toList⟩).events = _
  cases m.sections.forM Section.record ⟨⟨(magic ++ version).toByteArray, none⟩, #[]⟩ <;> rfl

lemma sequentialRun_events {m : Module}
    (hfit : ∀ sec ∈ m.sections, sec.emitContents.ImageFits) :
    List.Forall₂ Section.Reported (m.sections.takeWhile Section.encodes)
      m.sequentialRun.events := by
  obtain ⟨log, hlog, hevents⟩ := record_events hfit (magic ++ version).toByteArray #[]
  rw [sequentialRun_events_eq, hevents]
  exact hlog

end Module

/-! ### Events and images -/

/-- The event shows the id and the length that a slice of an image gives. -/
def Event.Describes (event : Event) (slice : Slice) : Prop :=
  ∃ id, event = .sectionEncoded id slice.length ∧ id.byte = slice.id

/-- The number of bytes that a section takes with its id and its length. -/
def Slice.size (slice : Slice) : Nat :=
  1 + (Leb128.encodeUnsigned slice.length).length + slice.length

namespace Slice

lemma Frames.length_bytes {slice : Slice} {sec : Section} (h : slice.Frames sec) :
    slice.bytes.length = slice.size := by
  obtain ⟨-, -, contents, -, hlength, hbytes, -⟩ := h
  rw [hbytes, size, List.length_cons, List.length_append, hlength]
  omega

lemma Frames.describes {slice : Slice} {sec : Section} {event : Event} (h : slice.Frames sec)
    (hevent : sec.Reported event) : event.Describes slice := by
  obtain ⟨-, hid, contents, hcontents, hlength, -⟩ := h
  obtain ⟨contents', hcontents', rfl⟩ := hevent
  obtain rfl : contents = contents' := Except.ok.inj (hcontents.symm.trans hcontents')
  exact ⟨sec.id, by rw [hlength], hid.symm⟩

lemma length_flatten {slices : List Slice} {sections : List Section}
    (h : List.Forall₂ Frames slices sections) :
    (slices.map Slice.bytes).flatten.length = (slices.map size).sum := by
  induction h with
  | nil => rfl
  | cons hslice _ ih =>
    rw [List.map_cons, List.flatten_cons, List.length_append, hslice.length_bytes, ih,
      List.map_cons, List.sum_cons]

lemma describes_of_frames {slices : List Slice} {sections : List Section} {log : List Event}
    (h : List.Forall₂ Frames slices sections) (hlog : List.Forall₂ Section.Reported sections log) :
    List.Forall₂ Event.Describes log slices := by
  induction h generalizing log with
  | nil =>
    cases hlog
    exact List.Forall₂.nil
  | cons hslice _ ih =>
    cases hlog with
    | cons hevent hrest => exact List.Forall₂.cons (hslice.describes hevent) (ih hrest)

end Slice

lemma takeWhile_encodes {sections : List Section} {pieces : List Bytes}
    (h : Pieces sections pieces) : sections.takeWhile Section.encodes = sections := by
  induction h with
  | nil => rfl
  | cons hpiece _ ih =>
    rw [List.takeWhile_cons_of_pos, ih]
    rw [Section.encodes, hpiece]
    rfl

/-- The log of a sequential run: its start, the warnings if they are asked for, the sections in
front of the first one that fails, and its end. If no section fails, the events of the sections give
the ids and lengths that are found in the image, and the last event gives the size that follows from
these. -/
theorem sequential_log_exact (m : Module) (checkOrder : Bool)
    (schedule : Schedule m.sections.length)
    (hfit : ∀ sec ∈ m.sections, sec.emitContents.ImageFits) :
    let run := m.run ⟨false, checkOrder⟩ schedule
    ∃ log last,
      run.events = .started m.sections.length false ::
        (if checkOrder then m.orderWarnings else []) ++ log ++ [last] ∧
      List.Forall₂ Section.Reported (m.sections.takeWhile Section.encodes) log ∧
      (∀ e, run.result = .error e → last = .failed e) ∧
      ∀ b, run.result = .ok b → last = .finished b.length ∧
        ∃ slices, sectionSlices (b.drop 8) = some slices ∧
          List.Forall₂ Event.Describes log slices ∧
          b.length = 8 + (slices.map Slice.size).sum := by
  intro run
  have hlog := Module.sequentialRun_events hfit
  refine ⟨m.sequentialRun.events, _, rfl, hlog, ?_, ?_⟩
  · intro e he
    have hresult : m.sequentialRun.result = .error e := he
    simp only [Bool.false_eq_true, if_false, hresult]
  · intro b hb
    have hresult : m.sequentialRun.result = .ok b := hb
    refine ⟨by simp only [Bool.false_eq_true, if_false, hresult], ?_⟩
    rw [Module.sequentialRun_result] at hresult
    obtain ⟨pieces, hpieces, rfl⟩ := toBytes_module_iff.mp hresult
    obtain ⟨slices, hslices, rfl, hframes⟩ := sectionSlices_pieces hpieces
    rw [takeWhile_encodes hpieces] at hlog
    refine ⟨slices, hslices, Slice.describes_of_frames hframes hlog, ?_⟩
    rw [List.length_append, Slice.length_flatten hframes]
    rfl

/-- Both modules have sections out of order. In one of them the second section fails, the other has
an image of 14 bytes. -/
theorem sequential_log_exact_with_failure_and_without :
    let global : Global := ⟨⟨.const, .i32⟩, ⟨[.intConst .w32 (2 ^ 40)]⟩⟩
    let bad : Module := ⟨[.start 7, .globals [global], .custom ⟨"a", [1]⟩]⟩
    let good : Module := ⟨[.start 7, .types []]⟩
    let e : EncodeError := .outOfRange (.pattern .w32) (2 ^ 40)
    ((∀ sec ∈ bad.sections, sec.emitContents.ImageFits) ∧
      (bad.run ⟨false, true⟩).result = .error e ∧
      (bad.run ⟨false, true⟩).events =
        [.started 3 false, .outOfOrder .start .globals, .sectionEncoded .start 1, .failed e]) ∧
    (∀ sec ∈ good.sections, sec.emitContents.ImageFits) ∧
      (good.run ⟨false, true⟩).result = .ok [0, 97, 115, 109, 1, 0, 0, 0, 8, 1, 7, 1, 1, 0] ∧
      ∃ log, List.Forall₂ Section.Reported good.sections log ∧
        (good.run ⟨false, true⟩).events =
          [.started 2 false, .outOfOrder .start .types] ++ log ++ [.finished 14] := by
  intro global bad good e
  have hstart : (Section.start 7).emitContents.image = .ok [7] := by cbv
  have hglobals : (Section.globals [global]).emitContents.image = .error e := by cbv
  have hcustom : (Section.custom ⟨"a", [1]⟩).emitContents.image = .ok [1, 97, 1] := by cbv
  have htypes : (Section.types []).emitContents.image = .ok [0] := by cbv
  have hstart_fits := imageFits_of_ok hstart (by decide)
  have hstart_encodes := Section.encodes_of_contents hstart (by decide)
  refine ⟨?_, ?_⟩
  · have hfit : ∀ sec ∈ bad.sections, sec.emitContents.ImageFits := by
      simp only [bad, List.forall_mem_cons]
      exact ⟨hstart_fits, imageFits_of_error hglobals, imageFits_of_ok hcustom (by decide),
        List.forall_mem_nil _⟩
    have hresult : (bad.run ⟨false, true⟩).result = .error e := by cbv
    obtain ⟨log, last, hevents, hlog, hlast, -⟩ := sequential_log_exact bad true (.inOrder _) hfit
    have hfirst : bad.sections.takeWhile Section.encodes = [.start 7] := by
      rw [List.takeWhile_cons_of_pos hstart_encodes,
        List.takeWhile_cons_of_neg (by simp [Section.not_encodes_of_error hglobals])]
    rw [hfirst] at hlog
    rcases hlog with _ | ⟨⟨contents, hcontents, rfl⟩, _ | _⟩
    obtain rfl : [7] = contents := Except.ok.inj (hstart.symm.trans hcontents)
    refine ⟨hfit, hresult, hevents.trans ?_⟩
    rw [hlast e hresult]
    rfl
  · have hfit : ∀ sec ∈ good.sections, sec.emitContents.ImageFits := by
      simp only [good, List.forall_mem_cons]
      exact ⟨hstart_fits, imageFits_of_ok htypes (by decide), List.forall_mem_nil _⟩
    have hresult : (good.run ⟨false, true⟩).result =
        .ok [0, 97, 115, 109, 1, 0, 0, 0, 8, 1, 7, 1, 1, 0] := by cbv
    obtain ⟨log, last, hevents, hlog, -, hlast⟩ := sequential_log_exact good true (.inOrder _) hfit
    have hall : good.sections.takeWhile Section.encodes = good.sections := by
      rw [List.takeWhile_cons_of_pos hstart_encodes,
        List.takeWhile_cons_of_pos (Section.encodes_of_contents htypes (by decide))]
      rfl
    rw [hall] at hlog
    refine ⟨hfit, hresult, log, hlog, hevents.trans ?_⟩
    rw [(hlast _ hresult).1]
    rfl

end WasmBinary
