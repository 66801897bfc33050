/-!
# Section ids

The kinds of sections, in the order in which a module should have them. Custom sections can stand
anywhere.
-/

namespace WasmBinary

inductive SectionId where
  | custom
  | types
  | imports
  | functions
  | tables
  | memories
  | globals
  | exports
  | start
  | elements
  | codes
  | datas
  deriving DecidableEq, Repr

namespace SectionId

def byte : SectionId → UInt8
  | .custom => 0
  | .types => 1
  | .imports => 2
  | .functions => 3
  | .tables => 4
  | .memories => 5
  | .globals => 6
  | .exports => 7
  | .start => 8
  | .elements => 9
  | .codes => 10
  | .datas => 11

def name : SectionId → String
  | .custom => "Custom"
  | .types => "Type"
  | .imports => "Import"
  | .functions => "Function"
  | .tables => "Table"
  | .memories => "Memory"
  | .globals => "Global"
  | .exports => "Export"
  | .start => "Start"
  | .elements => "Element"
  | .codes => "Code"
  | .datas => "Data"

instance : LE SectionId := ⟨fun a b => a.byte ≤ b.byte⟩

instance (a b : SectionId) : Decidable (a ≤ b) := inferInstanceAs (Decidable (a.byte ≤ b.byte))

end SectionId

end WasmBinary
