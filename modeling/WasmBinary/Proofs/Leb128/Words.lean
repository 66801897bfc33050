import Mathlib.Algebra.Group.Int.Defs
import Mathlib.Algebra.Group.Nat.Defs
import Mathlib.Tactic.Lemma
import WasmBinary.Leb128.Number
import WasmBinary.Proofs.Leb128.Loop

/-!
# Words and unbounded numbers

The loops on machine words write what the encodings of unbounded numbers say, for every width. Read
as numbers, the rounds on words are those on numbers. The signed loop needs words of at least seven
bits, one whole group: the group of a narrower word is cut off above its sign.
-/

namespace WasmBinary.Leb128

variable {w : Nat}

/-! ### Words without a sign -/

/-- The round of a loop that masks a group and shifts it out. -/
def unsignedRound (word : BitVec w) : Round (BitVec w) :=
  let group := word.setWidth 8 &&& 0x7f#8
  if word >>> 7 = 0 then ⟨⟨group⟩, none⟩ else ⟨⟨group ||| 0x80#8⟩, some (word >>> 7)⟩

lemma writeUnsigned_eq_round (word : BitVec w) :
    writeUnsigned word = (unsignedRound word).write writeUnsigned := by
  rw [writeUnsigned, unsignedRound]
  split <;> rfl

lemma toNat_and_127 (b : BitVec 8) : (b &&& 0x7f#8).toNat = b.toNat % 128 := by
  have h127 : (0x7f#8).toNat = 2 ^ 7 - 1 := rfl
  rw [BitVec.toNat_and, h127, Nat.and_two_pow_sub_one_eq_mod]

lemma low_group_of_word (word : BitVec w) :
    (⟨word.setWidth 8 &&& 0x7f#8⟩ : UInt8) = lowGroup word.toNat := by
  apply UInt8.toNat_inj.mp
  change (word.setWidth 8 &&& 0x7f#8).toNat = (UInt8.ofNat _).toNat
  rw [toNat_and_127, BitVec.toNat_setWidth, UInt8.toNat_ofNat']
  omega

lemma toNat_ushiftRight_seven (word : BitVec w) : (word >>> 7).toNat = word.toNat / 128 := by
  rw [BitVec.toNat_ushiftRight, Nat.shiftRight_eq_div_pow]

lemma ushiftRight_seven_eq_zero_iff (word : BitVec w) : word >>> 7 = 0 ↔ word.toNat / 128 = 0 := by
  rw [← BitVec.toNat_inj, toNat_ushiftRight_seven]
  rfl

lemma unsignedRound_map (word : BitVec w) :
    (unsignedRound word).map BitVec.toNat = naturalRound word.toNat := by
  have hgroup := low_group_of_word word
  rw [unsignedRound, naturalRound]
  by_cases h : word >>> 7 = 0
  · rw [if_pos h, if_pos ((ushiftRight_seven_eq_zero_iff word).mp h), ← hgroup]
    rfl
  · rw [if_neg h, if_neg (mt (ushiftRight_seven_eq_zero_iff word).mpr h), ← hgroup,
      ← toNat_ushiftRight_seven]
    rfl

lemma loop_unsignedRound (word : BitVec w) :
    Loop unsignedRound word (encodeUnsigned word.toNat) :=
  (loop_naturalRound word.toNat).of_map unsignedRound_map

/-- Writing a word group by group is one write of the encoding of its value. -/
theorem writeUnsigned_eq_write (word : BitVec w) :
    writeUnsigned word = Sink.write (encodeUnsigned word.toNat) :=
  (loop_unsignedRound word).write_eq writeUnsigned_eq_round

/-! ### Words in two's complement -/

/-- The round of a loop that shifts out six bits, looks whether only copies of the sign are left,
and shifts out the seventh bit if not. -/
def signedRound (word : BitVec w) : Round (BitVec w) :=
  let group := word.setWidth 8
  if word.sshiftRight 6 = 0 ∨ word.sshiftRight 6 = -1 then ⟨⟨group &&& 0x7f#8⟩, none⟩
  else ⟨⟨group ||| 0x80#8⟩, some ((word.sshiftRight 6).sshiftRight 1)⟩

lemma writeSigned_eq_round (word : BitVec w) :
    writeSigned word = (signedRound word).write writeSigned := by
  rw [writeSigned, signedRound]
  split <;> rfl

lemma continued_and_127 (b : BitVec 8) : b &&& 0x7f#8 ||| 0x80#8 = b ||| 0x80#8 := by
  revert b
  decide +kernel

lemma toInt_emod_128 (hw : 7 ≤ w) (word : BitVec w) :
    (word.toInt % 128).toNat = word.toNat % 128 := by
  obtain ⟨k, rfl⟩ := Nat.exists_eq_add_of_le hw
  have hpow : (2 ^ (7 + k) : Nat) = 128 * 2 ^ k := by rw [Nat.pow_add]
  rw [BitVec.toInt_eq_toNat_cond]
  split
  · omega
  · rw [hpow]
    push_cast
    rw [Int.sub_mul_emod_self_left]
    omega

lemma low_group_of_signed_word (hw : 7 ≤ w) (word : BitVec w) :
    (⟨word.setWidth 8 &&& 0x7f#8⟩ : UInt8) = lowGroupSigned word.toInt := by
  have hlow : lowGroup word.toNat = lowGroup (word.toNat % 128) := by
    rw [lowGroup, lowGroup, Nat.mod_mod]
  rw [low_group_of_word, lowGroupSigned, toInt_emod_128 hw, hlow]

lemma continued_group_of_signed_word (hw : 7 ≤ w) (word : BitVec w) :
    (⟨word.setWidth 8 ||| 0x80#8⟩ : UInt8) = continued (lowGroupSigned word.toInt) := by
  rw [← low_group_of_signed_word hw, ← continued_and_127]
  rfl

lemma sshiftRight_six_iff (hw : 7 ≤ w) (word : BitVec w) :
    (word.sshiftRight 6 = 0 ∨ word.sshiftRight 6 = -1) ↔ Single .signed word.toInt := by
  have hzero : (0 : BitVec w).toInt = 0 := BitVec.toInt_zero
  have hone : (-1 : BitVec w).toInt = -1 := by
    have hall : (-1 : BitVec w) = BitVec.allOnes w := BitVec.neg_one_eq_allOnes
    rw [hall, BitVec.toInt_allOnes, if_pos (by omega)]
  rw [← BitVec.toInt_inj, ← BitVec.toInt_inj, hzero, hone, BitVec.toInt_sshiftRight,
    Int.shiftRight_eq_div_pow]
  unfold Single
  omega

lemma toInt_sshiftRight_seven (word : BitVec w) :
    ((word.sshiftRight 6).sshiftRight 1).toInt = word.toInt / 128 := by
  rw [BitVec.toInt_sshiftRight, BitVec.toInt_sshiftRight, Int.shiftRight_eq_div_pow,
    Int.shiftRight_eq_div_pow]
  omega

lemma signedRound_map (hw : 7 ≤ w) (word : BitVec w) :
    (signedRound word).map BitVec.toInt = integerRound word.toInt := by
  have hdone := (sshiftRight_six_iff hw word).trans (single_signed_iff word.toInt)
  rw [signedRound, integerRound]
  by_cases h : word.sshiftRight 6 = 0 ∨ word.sshiftRight 6 = -1
  · rw [if_pos h, if_pos (hdone.mp h), ← low_group_of_signed_word hw]
    rfl
  · rw [if_neg h, if_neg (mt hdone.mpr h), ← continued_group_of_signed_word hw,
      ← toInt_sshiftRight_seven]
    rfl

lemma loop_signedRound (hw : 7 ≤ w) (word : BitVec w) :
    Loop signedRound word (encodeSigned word.toInt) :=
  (loop_integerRound word.toInt).of_map (signedRound_map hw)

/-- Writing a word in two's complement group by group is one write of the encoding of its
value. -/
theorem writeSigned_eq_write (hw : 7 ≤ w) (word : BitVec w) :
    writeSigned word = Sink.write (encodeSigned word.toInt) :=
  (loop_signedRound hw word).write_eq writeSigned_eq_round

/-! ### All loops -/

/-- The loops on words end and write the encodings of their values, into a sink without a limit all
of them. So do the loops on unbounded numbers, which divide and stop at other signs. -/
theorem word_loops_write_encodings {w : Nat} (hw : 8 ≤ w) (word : BitVec w) :
    (∀ bs, Loop unsignedRound word bs ↔ bs = encodeUnsigned word.toNat) ∧
    (∀ held, writeUnsigned word ⟨held, none⟩ = .ok () ⟨held ++ encodeUnsigned word.toNat, none⟩) ∧
    (∀ bs, Loop signedRound word bs ↔ bs = encodeSigned word.toInt) ∧
    (∀ held, writeSigned word ⟨held, none⟩ = .ok () ⟨held ++ encodeSigned word.toInt, none⟩) ∧
    (∀ n bs, Loop naturalRound n bs ↔ bs = encodeUnsigned n) ∧
    ∀ v bs, Loop integerRound v bs ↔ bs = encodeSigned v := by
  have hw7 : 7 ≤ w := by omega
  refine ⟨fun bs => (loop_unsignedRound word).iff_eq, ?_,
    fun bs => (loop_signedRound hw7 word).iff_eq, ?_, fun n bs => (loop_naturalRound n).iff_eq,
    fun v bs => (loop_integerRound v).iff_eq⟩
  · intro held
    rw [writeUnsigned_eq_write, Sink.write_unlimited]
  · intro held
    rw [writeSigned_eq_write hw7, Sink.write_unlimited]

/-- In a word of eight bits, `0x80` stands for 128 and for -128. Both take two groups. -/
theorem word_loops_write_encodings_of_0x80 :
    8 ≤ 8 ∧ Loop unsignedRound 0x80#8 [0x80, 0x01] ∧ Loop signedRound 0x80#8 [0x80, 0x7f] ∧
      writeSigned 0x80#8 ⟨⟨#[0xff]⟩, none⟩ = .ok () ⟨⟨#[0xff, 0x80, 0x7f]⟩, none⟩ := by
  have hunsigned : encodeUnsigned (0x80#8).toNat = [0x80, 0x01] := by
    rw [encodeUnsigned_of_le (by decide), encodeUnsigned_of_lt (by decide)]
    decide
  have hsigned : encodeSigned (0x80#8).toInt = [0x80, 0x7f] := by
    rw [encodeSigned_of_not_mem (by decide), encodeSigned_of_mem (by decide)]
    decide
  obtain ⟨hloop, -, hloop_signed, hwrite, -⟩ :=
    word_loops_write_encodings (Nat.le_refl 8) 0x80#8
  refine ⟨Nat.le_refl 8, (hloop _).mpr hunsigned.symm, (hloop_signed _).mpr hsigned.symm, ?_⟩
  rw [hwrite, hsigned]
  rfl

end WasmBinary.Leb128
