import WasmBinary.Section.Code
import WasmBinary.Section.Entry
import WasmBinary.Section.Id

/-!
# Sections

A section is its id, the length of its contents and the contents. The contents are put together
before any of it is written, so nothing is written of a section with something wrong in it.
-/

namespace WasmBinary

open Encoder

/-- A section for any purpose, which the format leaves uninterpreted. -/
structure Custom where
  name : String
  payload : Bytes
  deriving DecidableEq, Repr

inductive Section where
  | custom (item : Custom)
  | types (items : List FuncType)
  | imports (items : List Import)
  /-- The index of the type of each function. -/
  | functions (items : List UInt32)
  | tables (items : List TableType)
  | memories (items : List MemType)
  | globals (items : List Global)
  | exports (items : List Export)
  /-- The index of the function to start with. -/
  | start (func : UInt32)
  | elements (items : List Element)
  | codes (items : List Code)
  | datas (items : List Data)
  deriving BEq

/-- Writes the id of a section and its contents. -/
def SectionId.emitFrame (id : SectionId) (contents : ByteArray) : Encoder Unit := do
  emitByte id.byte
  emitSized contents

namespace Section

def id : Section → SectionId
  | .custom _ => .custom
  | .types _ => .types
  | .imports _ => .imports
  | .functions _ => .functions
  | .tables _ => .tables
  | .memories _ => .memories
  | .globals _ => .globals
  | .exports _ => .exports
  | .start _ => .start
  | .elements _ => .elements
  | .codes _ => .codes
  | .datas _ => .datas

/-- Writes what stands after the length. -/
def emitContents : Section → Encoder Unit
  | .custom item => do
    encode item.name
    emit item.payload
  | .types items => encode items
  | .imports items => encode items
  | .functions items => encode items
  | .tables items => encode items
  | .memories items => encode items
  | .globals items => encode items
  | .exports items => encode items
  | .start func => encode func
  | .elements items => encode items
  | .codes items => encode items
  | .datas items => encode items

end Section

instance : Encode Section where
  encode sec := do
    let contents ← buffered sec.emitContents
    sec.id.emitFrame contents

end WasmBinary
