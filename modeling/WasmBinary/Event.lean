import WasmBinary.EncodeError
import WasmBinary.Section.Id

/-!
# Events

What a run of the encoder reports while it works.
-/

namespace WasmBinary

inductive Level where
  | warn
  | debug
  | trace
  deriving DecidableEq, Repr

def Level.name : Level → String
  | .warn => "WARN"
  | .debug => "DEBUG"
  | .trace => "TRACE"

/-- Something that happens in a run. -/
inductive Event where
  /-- A run starts on a module with this number of sections. -/
  | started (sections : Nat) (parallel : Bool)
  /-- A section should stand before the one in front of it. -/
  | outOfOrder (previous current : SectionId)
  /-- The contents of a section are complete and have this length. -/
  | sectionEncoded (id : SectionId) (length : Nat)
  /-- A run ends with an image of this length. -/
  | finished (length : Nat)
  /-- A run ends with an error. -/
  | failed (error : EncodeError)
  deriving DecidableEq, Repr

namespace Event

def level : Event → Level
  | .started _ _ | .finished _ | .failed _ => .debug
  | .outOfOrder _ _ => .warn
  | .sectionEncoded _ _ => .trace

def message : Event → String
  | .started _ _ => "encoding module"
  | .outOfOrder _ _ => "section is out of canonical order, emitting it as given"
  | .sectionEncoded _ _ => "section encoded"
  | .finished _ => "module encoded"
  | .failed _ => "cannot encode module"

def fields : Event → List (String × String)
  | .started sections parallel =>
    [("sections", toString sections), ("parallel", if parallel then "true" else "false")]
  | .outOfOrder previous current => [("section", current.name), ("previous", previous.name)]
  | .sectionEncoded id length => [("id", toString id.byte), ("len", toString length)]
  | .finished length => [("len", toString length)]
  | .failed error => [("err", error.message)]

end Event

end WasmBinary
