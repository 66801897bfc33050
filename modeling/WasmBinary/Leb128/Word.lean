import WasmBinary.Leb128.Encode

/-!
# LEB128 writers for machine words

The same encodings computed on words of a fixed width, by masks and shifts, and written byte by
byte as the groups are found.
-/

namespace WasmBinary.Leb128

variable {w : Nat}

theorem toNat_ushiftRight_lt {word : BitVec w} (h : ¬word >>> 7 = 0) :
    (word >>> 7).toNat < word.toNat := by
  have hne : (word >>> 7).toNat ≠ 0 := fun h0 => h (BitVec.eq_of_toNat_eq (by simpa using h0))
  rw [BitVec.toNat_ushiftRight, Nat.shiftRight_eq_div_pow] at hne ⊢
  omega

theorem natAbs_sshiftRight_lt {word : BitVec w}
    (h : ¬(word.sshiftRight 6 = 0 ∨ word.sshiftRight 6 = -1)) :
    ((word.sshiftRight 6).sshiftRight 1).toInt.natAbs < word.toInt.natAbs := by
  have hzero : (word.sshiftRight 6).toInt ≠ 0 := fun h0 =>
    h (.inl (BitVec.eq_of_toInt_eq (by simpa using h0)))
  have hone : (word.sshiftRight 6).toInt ≠ -1 := fun h1 =>
    h (.inr (by rw [← BitVec.ofInt_toInt (x := word.sshiftRight 6), h1]; simp [BitVec.ofInt_neg]))
  rw [BitVec.toInt_sshiftRight, BitVec.toInt_sshiftRight, Int.shiftRight_eq_div_pow,
    Int.shiftRight_eq_div_pow]
  rw [BitVec.toInt_sshiftRight, Int.shiftRight_eq_div_pow] at hzero hone
  omega

/-- Writes a word read as a natural number. -/
def writeUnsigned (word : BitVec w) : Sink.Writer Unit := do
  let group := word.setWidth 8 &&& 0x7f#8
  if word >>> 7 = 0 then
    Sink.write [⟨group⟩]
  else
    Sink.write [⟨group ||| 0x80#8⟩]
    writeUnsigned (word >>> 7)
termination_by word.toNat
decreasing_by exact toNat_ushiftRight_lt ‹_›

/-- Writes a word read in two's complement. Six bits are dropped first, so that what is left is
`0` or `-1` as soon as bit 6, the sign of the group, stands for all the rest. -/
def writeSigned (word : BitVec w) : Sink.Writer Unit := do
  let group := word.setWidth 8
  if word.sshiftRight 6 = 0 ∨ word.sshiftRight 6 = -1 then
    Sink.write [⟨group &&& 0x7f#8⟩]
  else
    Sink.write [⟨group ||| 0x80#8⟩]
    writeSigned ((word.sshiftRight 6).sshiftRight 1)
termination_by word.toInt.natAbs
decreasing_by exact natAbs_sshiftRight_lt ‹_›

end WasmBinary.Leb128
