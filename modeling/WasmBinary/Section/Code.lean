import WasmBinary.Instr

/-!
# Function bodies

A function body declares its locals in groups of the same type. Its encoding is preceded by its
size, so it is put together before any of it is written.
-/

namespace WasmBinary

open Encoder

structure Local where
  count : UInt32
  type : ValType
  deriving DecidableEq, Repr

instance : Encode Local where
  encode group := do
    encode group.count
    encode group.type

structure Code where
  locals : List Local
  body : Expr
  deriving BEq

instance : Encode Code where
  encode code := do
    let contents ← buffered do
      encode code.locals
      encode code.body
    emitSized contents

namespace Code

/-- Puts a local in front of groups. -/
def consLocal (type : ValType) : List Local → List Local
  | [] => [⟨1, type⟩]
  | group :: groups =>
    if group.type = type then ⟨group.count + 1, type⟩ :: groups else ⟨1, type⟩ :: group :: groups

/-- The runs of equal types. -/
def groupLocals (types : List ValType) : List Local := types.foldr consLocal []

def ofLocals (types : List ValType) (body : Expr) : Code := ⟨groupLocals types, body⟩

end Code

end WasmBinary
