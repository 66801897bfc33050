import WasmBinary.Sink

/-!
# LEB128 encoding of unbounded integers

An integer is written in groups of seven bits, lowest group first, one group a byte. Every byte
but the last has its highest bit, the continuation bit, set. Bit 6 of the last byte of a signed
number is its sign.
-/

namespace WasmBinary.Leb128

/-- The byte of a group after which more groups follow. -/
def continued (group : UInt8) : UInt8 := group ||| 0x80

/-- The lowest group of a natural number. -/
def lowGroup (n : Nat) : UInt8 := UInt8.ofNat (n % 128)

/-- The shortest encoding of a natural number. -/
def encodeUnsigned (n : Nat) : Bytes :=
  if n < 128 then [lowGroup n] else continued (lowGroup n) :: encodeUnsigned (n / 128)

/-- The lowest group of the two's complement of an integer. -/
def lowGroupSigned (v : Int) : UInt8 := lowGroup (v % 128).toNat

/-- The shortest encoding of an integer: groups follow until the rest is the sign extension of
the last group. -/
def encodeSigned (v : Int) : Bytes :=
  if -64 ≤ v ∧ v < 64 then [lowGroupSigned v]
  else continued (lowGroupSigned v) :: encodeSigned (v / 128)
termination_by v.natAbs

theorem encodeUnsigned_of_lt {n : Nat} (h : n < 128) : encodeUnsigned n = [lowGroup n] := by
  rw [encodeUnsigned, if_pos h]

theorem encodeUnsigned_of_le {n : Nat} (h : 128 ≤ n) :
    encodeUnsigned n = continued (lowGroup n) :: encodeUnsigned (n / 128) := by
  rw [encodeUnsigned, if_neg (by omega)]

theorem encodeSigned_of_mem {v : Int} (h : -64 ≤ v ∧ v < 64) :
    encodeSigned v = [lowGroupSigned v] := by
  rw [encodeSigned, if_pos h]

theorem encodeSigned_of_not_mem {v : Int} (h : ¬(-64 ≤ v ∧ v < 64)) :
    encodeSigned v = continued (lowGroupSigned v) :: encodeSigned (v / 128) := by
  rw [encodeSigned, if_neg h]

end WasmBinary.Leb128
