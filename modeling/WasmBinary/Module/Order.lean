import WasmBinary.Event
import WasmBinary.Module

/-!
# The order of sections

Sections other than custom ones should have ascending ids. Each is compared with the one just
before it, so a module out of order gets a warning wherever the ids do not ascend.
-/

namespace WasmBinary.Module

/-- The warnings about sections that follow one with the id `last`. -/
def orderWarningsAfter (last : Option SectionId) : List Section → List Event
  | [] => []
  | sec :: secs =>
    if sec.id = .custom then orderWarningsAfter last secs
    else
      match last with
      | none => orderWarningsAfter (some sec.id) secs
      | some previous =>
        if sec.id ≤ previous then
          .outOfOrder previous sec.id :: orderWarningsAfter (some sec.id) secs
        else orderWarningsAfter (some sec.id) secs

/-- The warnings about sections out of order. -/
def orderWarnings (m : Module) : List Event := orderWarningsAfter none m.sections

end WasmBinary.Module
