import WasmBinary.Proofs.Leb128.Value

/-!
# The sign in an encoding

With a sign and without one, a natural number is written in the same groups, as long as the last of
them does not look negative. A number and its complement are written in groups that are complements
of each other. So everything about the encodings of negative numbers can be read off those of
natural ones.
-/

namespace WasmBinary.Leb128

/-! ### Natural numbers with a sign -/

/-- A last group that looks negative is continued by a group for the sign. -/
def withSign (groups : Bytes) (last : UInt8) : Bytes :=
  if last.toNat.testBit 6 then groups ++ [last ||| 0x80, 0x00] else groups ++ [last]

lemma withSign_cons (b : UInt8) (groups : Bytes) (last : UInt8) :
    withSign (b :: groups) last = b :: withSign groups last := by
  unfold withSign
  split <;> rfl

lemma testBit_lowGroup {n : Nat} (hn : n < 128) :
    (lowGroup n).toNat.testBit 6 = decide (64 ≤ n) := by
  rw [← negative_eq_testBit, negative_eq, (lowGroup_bits n).1, Nat.mod_eq_of_lt hn]

lemma encodeSigned_of_lt {n : Nat} (hn : n < 128) : encodeSigned n = withSign [] (lowGroup n) := by
  unfold withSign
  rw [testBit_lowGroup hn, lowGroup_eq]
  by_cases hsmall : n < 64
  · rw [if_neg (by simpa using hsmall), encodeSigned_of_mem (by omega)]
    rfl
  · have hrest : (n : Int) / 128 = 0 := by omega
    have hzero : encodeSigned 0 = [0x00] := encodeSigned_of_mem (by omega)
    rw [if_pos (by simpa using hsmall), encodeSigned_of_not_mem (by omega), hrest, hzero]
    rfl

/-- The encodings of a natural number without and with a sign differ at most by the group for the
sign. -/
theorem encodeSigned_natCast (n : Nat) :
    ∃ groups last, encodeUnsigned n = groups ++ [last] ∧ encodeSigned n = withSign groups last := by
  fun_induction encodeUnsigned n with
  | case1 n hn => exact ⟨[], lowGroup n, rfl, encodeSigned_of_lt hn⟩
  | case2 n hn ih =>
    obtain ⟨groups, last, hunsigned, hsigned⟩ := ih
    refine ⟨continued (lowGroup n) :: groups, last, ?_, ?_⟩
    · rw [hunsigned, List.cons_append]
    · rw [withSign_cons, ← hsigned, encodeSigned_of_not_mem (by omega), lowGroup_eq]
      rfl

/-! ### Complements -/

/-- The byte with all bits of its group complemented. -/
def complementGroup (b : UInt8) : UInt8 := b ^^^ 0x7f

lemma complementGroup_continued (b : UInt8) :
    complementGroup (continued b) = continued (complementGroup b) := by
  revert b
  exact forall_byte (by decide +kernel)

lemma complementGroup_lowGroup {n : Nat} (hn : n < 128) :
    complementGroup (lowGroup n) = lowGroup (127 - n) := by
  have h : ∀ k : Fin 128, complementGroup (lowGroup k) = lowGroup (127 - k) := by decide +kernel
  exact h ⟨n, hn⟩

lemma lowGroupSigned_complement (v : Int) :
    lowGroupSigned (-1 - v) = complementGroup (lowGroupSigned v) := by
  have hlow : (-1 - v) % 128 = 127 - v % 128 := by omega
  have hnat : ((-1 - v) % 128).toNat = 127 - (v % 128).toNat := by omega
  rw [lowGroupSigned, lowGroupSigned, complementGroup_lowGroup (by omega), hnat]

/-- The groups of the complement of a number are the complements of its groups. -/
theorem encodeSigned_complement (v : Int) :
    encodeSigned (-1 - v) = (encodeSigned v).map complementGroup := by
  have hv : Writable .signed v := trivial
  induction v, hv using Writable.induction with
  | single v hv hsingle =>
    unfold Single at hsingle
    rw [encodeSigned_of_mem hsingle, encodeSigned_of_mem (by omega), lowGroupSigned_complement]
    rfl
  | more v hv hsingle ih =>
    have hrest : (-1 - v) / 128 = -1 - v / 128 := by omega
    unfold Single at hsingle
    rw [encodeSigned_of_not_mem hsingle, encodeSigned_of_not_mem (by omega), hrest, ih,
      lowGroupSigned_complement, List.map_cons, complementGroup_continued]

/-- A natural number is written with a sign as without one, unless bit 6 of the last byte is set.
Then its last byte is continued by a byte that is zero. The encodings of a number and of its
complement have the same continuation bits and complementary groups. -/
theorem signed_encodings_from_unsigned :
    (∀ n : Nat, ∃ groups last, encodeUnsigned n = groups ++ [last] ∧
      encodeSigned n = if last.toNat.testBit 6 then groups ++ [last ||| 0x80, 0x00]
        else groups ++ [last]) ∧
    (∀ v : Int, encodeSigned (-1 - v) = (encodeSigned v).map fun b => b ^^^ 0x7f) ∧
    ∀ v : Int, (encodeSigned (-1 - v)).length = (encodeSigned v).length := by
  refine ⟨encodeSigned_natCast, encodeSigned_complement, ?_⟩
  intro v
  rw [encodeSigned_complement, List.length_map]

end WasmBinary.Leb128
