import WasmBinary.Leb128.Word
import WasmBinary.Width

/-!
# Numbers with an encoding

Everything that can be written in LEB128: machine words of any width, and unbounded numbers.
-/

namespace WasmBinary.Leb128

/-- A number together with the way it is written. -/
inductive Number where
  /-- A word read as a natural number, written byte by byte. -/
  | unsignedWord (w : Nat) (word : BitVec w)
  /-- A word in two's complement, written byte by byte. -/
  | signedWord (w : Nat) (word : BitVec w)
  /-- A natural number of any size, written at once. -/
  | natural (n : Nat)
  /-- An integer of any size, written at once. -/
  | integer (v : Int)

namespace Number

def write : Number → Sink.Writer Unit
  | .unsignedWord _ word => writeUnsigned word
  | .signedWord _ word => writeSigned word
  | .natural n => Sink.write (encodeUnsigned n)
  | .integer v => Sink.write (encodeSigned v)

/-- Whether a number is written without or with a sign. -/
def kind : Number → Signedness
  | .unsignedWord _ _ | .natural _ => .unsigned
  | .signedWord _ _ | .integer _ => .signed

def value : Number → Int
  | .unsignedWord _ word => word.toNat
  | .signedWord _ word => word.toInt
  | .natural n => n
  | .integer v => v

/-- The shortest encoding of a number. -/
def encoding : Number → Bytes
  | .unsignedWord _ word => encodeUnsigned word.toNat
  | .signedWord _ word => encodeSigned word.toInt
  | .natural n => encodeUnsigned n
  | .integer v => encodeSigned v

end Number

end WasmBinary.Leb128
