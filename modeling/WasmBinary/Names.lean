import WasmBinary.Section

/-!
# Names for debugging

The names of a module, its functions and their locals go into a custom section. Names can be given
in any order and are written in the order of the indices.
-/

namespace WasmBinary

open Encoder

abbrev NameMap := List (UInt32 × String)

/-- The names of a module and of what is in it. -/
structure Names where
  moduleName : Option String := none
  functions : NameMap := []
  /-- The names of locals, by function. -/
  locals : List (UInt32 × NameMap) := []
  deriving DecidableEq, Repr

namespace Names

/-- Sorts by index. Entries with the same index keep their order. -/
def sortByIndex {α : Type} (entries : List (UInt32 × α)) : List (UInt32 × α) :=
  entries.mergeSort fun a b => a.1 ≤ b.1

/-- Writes a part of the section after its id and its size. -/
def emitSubsection {α : Type} [Encode α] (id : UInt8) (contents : α) : Encoder Unit := do
  let buffer ← buffered (encode contents)
  emitByte id
  emitSized buffer

/-- Writes the parts that are not empty. -/
def emitPayload (names : Names) : Encoder Unit := do
  match names.moduleName with
  | some name => emitSubsection 0x00 name
  | none => pure ()
  match names.functions with
  | [] => pure ()
  | functions => emitSubsection 0x01 (sortByIndex functions)
  match names.locals with
  | [] => pure ()
  | locals =>
    emitSubsection 0x02 ((sortByIndex locals).map fun (func, locals) => (func, sortByIndex locals))

def sectionName : String := "name"

def toSection (names : Names) : Except EncodeError Section := do
  let payload ← image names.emitPayload
  return .custom ⟨sectionName, payload⟩

end Names

end WasmBinary
