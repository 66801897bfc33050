import WasmBinary.EncodeError
import WasmBinary.Leb128.Word

/-!
# Encoders

An encoder writes to a sink as it goes, so a failure leaves behind what was written before it.
Nothing of what `buffered` runs reaches the sink. Its bytes are there to be written after their
number, once it is known that there is nothing wrong with them.

Here are also the encodings that all parts of a module share: lengths, byte strings, vectors,
names, pairs and machine words.
-/

namespace WasmBinary

/-- A computation that writes to a sink and may fail with an encoding error. -/
abbrev Encoder := EStateM EncodeError Sink

instance : MonadLift Sink.Writer Encoder where
  monadLift writer := writer.adaptExcept .io

/-- Types whose values have an encoding. -/
class Encode (α : Type) where
  encode : α → Encoder Unit

export Encode (encode)

namespace Encoder

def emit (bs : Bytes) : Encoder Unit := Sink.write bs

def emitBuffer (buffer : ByteArray) : Encoder Unit := Sink.writeBuffer buffer

def emitByte (b : UInt8) : Encoder Unit := emit [b]

/-- What an encoder writes to an unlimited sink. -/
def image (encoder : Encoder Unit) : Except EncodeError Bytes :=
  match encoder {} with
  | .ok _ sink => .ok sink.bytes
  | .error e _ => .error e

/-- Runs an encoder on a sink of its own and gives what it has written. -/
def buffered (encoder : Encoder Unit) : Encoder ByteArray := fun sink =>
  match encoder {} with
  | .ok _ inner => .ok inner.held sink
  | .error e _ => .error e sink

def emitLength (n : Nat) : Encoder Unit :=
  if n < UInt32.size then Leb128.writeUnsigned (BitVec.ofNat 32 n) else throw (.lengthOverflow n)

/-- Writes the bytes of a buffer after their number. -/
def emitSized (buffer : ByteArray) : Encoder Unit := do
  emitLength buffer.size
  emitBuffer buffer

def emitAll {α : Type} [Encode α] : List α → Encoder Unit
  | [] => pure ()
  | a :: as => do
    encode a
    emitAll as

end Encoder

open Encoder

/-- The encoding of a value. -/
def toBytes {α : Type} [Encode α] (a : α) : Except EncodeError Bytes := image (encode a)

instance : Encode UInt32 := ⟨fun word => Leb128.writeUnsigned word.toBitVec⟩

instance : Encode UInt64 := ⟨fun word => Leb128.writeUnsigned word.toBitVec⟩

instance : Encode Int32 := ⟨fun word => Leb128.writeSigned word.toBitVec⟩

instance : Encode Int64 := ⟨fun word => Leb128.writeSigned word.toBitVec⟩

/-- A vector is written as its length and its elements. -/
instance {α : Type} [Encode α] : Encode (List α) where
  encode as := do
    emitLength as.length
    emitAll as

/-- A name is written as the number of its bytes and the bytes. -/
instance : Encode String := ⟨fun name => emitSized name.toUTF8⟩

instance {α β : Type} [Encode α] [Encode β] : Encode (α × β) where
  encode pair := do
    encode pair.1
    encode pair.2

end WasmBinary
