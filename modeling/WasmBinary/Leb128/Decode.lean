import WasmBinary.Sink
import WasmBinary.Width

/-!
# LEB128 decoding

A number ends with the first byte whose continuation bit is clear, whatever follows. Padded forms
are read like the shortest one, and there is no limit on the size.
-/

namespace WasmBinary.Leb128

/-- Why no number can be read. -/
inductive DecodeError where
  /-- All bytes, `consumed` of them, have the continuation bit set. -/
  | unexpectedEnd (consumed : Nat)
  deriving DecidableEq, Repr

def DecodeError.message : DecodeError → String
  | .unexpectedEnd consumed =>
    s!"unexpected end of input after {consumed} byte(s), continuation bit still set"

def payload (b : UInt8) : Nat := (b &&& 0x7f).toNat

def continues (b : UInt8) : Bool := b &&& 0x80 != 0

/-- Whether a last group stands for a negative number. -/
def negative (b : UInt8) : Bool := b &&& 0x40 != 0

/-- Reads groups on top of the `count` groups read before, which have the value `value`. -/
def decodeUnsignedFrom (value count : Nat) : Bytes → Except DecodeError (Nat × Nat)
  | [] => .error (.unexpectedEnd count)
  | b :: bs =>
    let value := value ||| payload b <<< (7 * count)
    if continues b then decodeUnsignedFrom value (count + 1) bs else .ok (value, count + 1)

/-- Reads a natural number from the front of `bs`, with the number of bytes it takes. -/
def decodeUnsigned (bs : Bytes) : Except DecodeError (Nat × Nat) := decodeUnsignedFrom 0 0 bs

/-- Reads groups on top of the `count` groups read before, which have the value `value`. -/
def decodeSignedFrom (value : Int) (count : Nat) : Bytes → Except DecodeError (Int × Nat)
  | [] => .error (.unexpectedEnd count)
  | b :: bs =>
    let value := value + (payload b <<< (7 * count) : Nat)
    if continues b then decodeSignedFrom value (count + 1) bs
    else if negative b then .ok (value - (1 <<< (7 * (count + 1)) : Nat), count + 1)
    else .ok (value, count + 1)

/-- Reads an integer from the front of `bs`, with the number of bytes it takes. -/
def decodeSigned (bs : Bytes) : Except DecodeError (Int × Nat) := decodeSignedFrom 0 0 bs

/-- Reads a number of the given kind from the front of `bs`. -/
def decode (kind : Signedness) (bs : Bytes) : Except DecodeError (Int × Nat) :=
  match kind with
  | .unsigned => (decodeUnsigned bs).map fun (value, count) => (value, count)
  | .signed => decodeSigned bs

/-- Reads one number after another, each from where the last one that could be read ended. Gives
all results and the bytes left. -/
def decodeStream : List Signedness → Bytes → List (Except DecodeError (Int × Nat)) × Bytes
  | [], bs => ([], bs)
  | kind :: kinds, bs =>
    let result := decode kind bs
    let rest := match result with
      | .ok (_, count) => bs.drop count
      | .error _ => bs
    let (results, left) := decodeStream kinds rest
    (result :: results, left)

end WasmBinary.Leb128
