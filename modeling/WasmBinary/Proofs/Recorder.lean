import Mathlib.Tactic.Lemma
import WasmBinary.Module.Run

/-!
# Recorders and encoders

Events have no influence on what is written. A recorder follows an encoder if, whatever events it
raises, it does on its sink what the encoder does.
-/

namespace WasmBinary

open Encoder Recorder

variable {α β : Type}

namespace Recorder

/-- The result of an encoder together with events. -/
def withEvents (events : Array Event) :
    EStateM.Result EncodeError Sink α → EStateM.Result EncodeError Recording α
  | .ok a sink => .ok a ⟨sink, events⟩
  | .error e sink => .error e ⟨sink, events⟩

/-- The recorder does on its sink what the encoder does. -/
def Follows (recorder : Recorder α) (encoder : Encoder α) : Prop :=
  ∀ recording, ∃ events, recorder recording = withEvents events (encoder recording.sink)

namespace Follows

lemma onSink (encoder : Encoder α) : Follows (onSink encoder) encoder := by
  rintro ⟨sink, events⟩
  refine ⟨events, ?_⟩
  unfold Recorder.onSink
  dsimp only
  cases encoder sink <;> rfl

lemma pure (a : α) : Follows (pure a) (pure a) := fun recording => ⟨recording.events, rfl⟩

lemma bind {recorder : Recorder α} {encoder : Encoder α} {recorders : α → Recorder β}
    {encoders : α → Encoder β} (h : Follows recorder encoder)
    (hnext : ∀ a, Follows (recorders a) (encoders a)) :
    Follows (recorder >>= recorders) (encoder >>= encoders) := by
  intro recording
  obtain ⟨events, hevents⟩ := h recording
  change ∃ events, EStateM.bind recorder recorders recording =
    withEvents events (EStateM.bind encoder encoders recording.sink)
  rw [EStateM.bind, EStateM.bind, hevents]
  cases encoder recording.sink with
  | ok a sink => exact hnext a ⟨sink, events⟩
  | error e sink => exact ⟨events, rfl⟩

/-- An event does not change the sink. -/
lemma raise (event : Event) {recorder : Recorder α} {encoder : Encoder α}
    (h : Follows recorder encoder) : Follows (do raise event; recorder) encoder :=
  fun ⟨sink, events⟩ => h ⟨sink, events.push event⟩

end Follows

end Recorder

lemma Section.record_follows (sec : Section) : Follows sec.record (encode sec) :=
  (Follows.onSink _).bind fun _ => Follows.raise _ (Follows.onSink _)

lemma Module.record_follows (secs : List Section) :
    Follows (secs.forM Section.record) (emitAll secs) := by
  induction secs with
  | nil => exact Follows.pure ()
  | cons sec secs ih => exact sec.record_follows.bind fun _ => ih

/-- A run that encodes the sections one after another gives the encoding of the module. -/
theorem Module.sequentialRun_result (m : Module) : m.sequentialRun.result = toBytes m := by
  have hfollows : Follows (do
      Recorder.onSink (emit magic)
      Recorder.onSink (emit version)
      m.sections.forM Section.record) (encode m) :=
    (Follows.onSink _).bind fun _ => (Follows.onSink _).bind fun _ => record_follows m.sections
  obtain ⟨events, hevents⟩ := hfollows {}
  unfold sequentialRun toBytes image
  dsimp only
  rw [hevents]
  cases encode m {} <;> rfl

end WasmBinary
