import WasmBinary.Module.Order
import WasmBinary.Module.Parallel

/-!
# Runs of the encoder

A run encodes a module as configured and reports events. The configuration has no influence on the
image, if there is one.
-/

namespace WasmBinary

open Encoder

structure Config where
  parallelSections : Bool := false
  checkSectionOrder : Bool := true
  deriving DecidableEq, Repr

/-- A sink, and the events raised while it was written. -/
structure Recording where
  sink : Sink := {}
  events : Array Event := #[]

/-- An encoder that raises events. -/
abbrev Recorder := EStateM EncodeError Recording

namespace Recorder

def raise (event : Event) : Recorder Unit :=
  modify fun ⟨sink, events⟩ => ⟨sink, events.push event⟩

/-- Runs an encoder on the sink. -/
def onSink {α : Type} (encoder : Encoder α) : Recorder α := fun ⟨sink, events⟩ =>
  match encoder sink with
  | .ok a sink => .ok a ⟨sink, events⟩
  | .error e sink => .error e ⟨sink, events⟩

end Recorder

open Recorder

/-- Writes a section and reports the length of its contents. -/
def Section.record (sec : Section) : Recorder Unit := do
  let contents ← onSink (buffered sec.emitContents)
  raise (.sectionEncoded sec.id contents.size)
  onSink (sec.id.emitFrame contents)

/-- What a run gives: an image or an error, and the events raised. -/
structure Run where
  result : Except EncodeError Bytes
  events : List Event

namespace Module

/-- Encodes the sections one after another. -/
def sequentialRun (m : Module) : Run :=
  let recorder : Recorder Unit := do
    onSink (emit magic)
    onSink (emit version)
    m.sections.forM Section.record
  match recorder {} with
  | .ok _ recording => ⟨.ok recording.sink.bytes, recording.events.toList⟩
  | .error e recording => ⟨.error e, recording.events.toList⟩

/-- Encodes the sections in parallel. What happens inside the tasks is not reported. -/
def parallelRun (m : Module) (collect : Collector m.sections.length EncodeError Bytes) : Run :=
  ⟨m.parallelImage collect, []⟩

/-- Encodes a module. The collector matters only if sections are encoded in parallel. -/
def runWith (m : Module) (config : Config)
    (collect : Collector m.sections.length EncodeError Bytes) : Run :=
  let warnings := if config.checkSectionOrder then m.orderWarnings else []
  let inner := if config.parallelSections then m.parallelRun collect else m.sequentialRun
  let last : Event := match inner.result with
    | .ok image => .finished image.length
    | .error e => .failed e
  ⟨inner.result,
    .started m.sections.length config.parallelSections :: warnings ++ inner.events ++ [last]⟩

/-- Encodes a module, in parallel as scheduled or sequentially. -/
def run (m : Module) (config : Config := {})
    (schedule : Schedule m.sections.length := .inOrder _) : Run :=
  m.runWith config (schedule.collect [])

end Module

end WasmBinary
