import Mathlib.Algebra.BigOperators.Ring.Finset
import Mathlib.Data.Int.ModEq
import Mathlib.Data.List.GetD
import Mathlib.Tactic.Ring
import WasmBinary.Proofs.Leb128.Stream

/-!
# The value of groups

The groups up to the first one that does not continue a number are its digits to the base 128. Read
with a sign, the last digit counts 128 less if its highest bit is set. So the two ways to read the
same bytes end at the same byte, and differ at most by the power of 128 that comes next.
-/

namespace WasmBinary.Leb128

open Finset

/-! ### Bits of a byte -/

lemma continues_eq_testBit (b : UInt8) : continues b = b.toNat.testBit 7 := by
  revert b
  exact forall_byte (by decide +kernel)

lemma negative_eq_testBit (b : UInt8) : negative b = b.toNat.testBit 6 := by
  revert b
  exact forall_byte (by decide +kernel)

lemma payload_eq_mod (b : UInt8) : payload b = b.toNat % 128 := by
  revert b
  exact forall_byte (by decide +kernel)

/-! ### Sums of groups -/

/-- The value of the first `n` groups. -/
def groupSum (n : Nat) (bs : Bytes) : Nat :=
  ∑ i ∈ range n, (bs.getD i 0).toNat % 128 * 128 ^ i

lemma groupSum_succ (n : Nat) (bs : Bytes) :
    groupSum (n + 1) bs = groupSum n bs + payload (bs.getD n 0) * 128 ^ n := by
  unfold groupSum
  rw [sum_range_succ, payload_eq_mod]

lemma groupSum_cons (n : Nat) (b : UInt8) (bs : Bytes) :
    groupSum (n + 1) (b :: bs) = payload b + 128 * groupSum n bs := by
  unfold groupSum
  rw [sum_range_succ', mul_sum, payload_eq_mod, add_comm, pow_zero, mul_one, List.getD_cons_zero]
  congr 1
  apply sum_congr rfl
  intro i _
  rw [List.getD_cons_succ]
  ring

lemma groupSum_lt (n : Nat) (bs : Bytes) : groupSum n bs < 128 ^ n := by
  induction n with
  | zero => exact Nat.one_pos
  | succ n ih =>
    have hlast : payload (bs.getD n 0) * 128 ^ n ≤ 127 * 128 ^ n :=
      Nat.mul_le_mul_right _ (Nat.le_of_lt_succ (payload_lt _))
    rw [groupSum_succ, pow_succ]
    omega

/-! ### What the decoders read -/

/-- All groups but the last count alike in both kinds of numbers. -/
lemma decode_eq_sum (kind : Signedness) {bs : Bytes} {k : Nat} (hk : k < bs.length)
    (hbefore : ∀ i < k, continues (bs.getD i 0) = true) (hlast : continues (bs.getD k 0) = false) :
    decode kind bs = .ok (groupSum k bs + 128 ^ k * lastValue kind (bs.getD k 0), k + 1) := by
  induction bs generalizing k with
  | nil => exact absurd hk (Nat.not_lt_zero k)
  | cons b bs ih =>
    cases k with
    | zero =>
      rw [List.getD_cons_zero] at hlast ⊢
      rw [decode_of_last hlast]
      simp [groupSum]
    | succ k =>
      have hb : continues b = true := hbefore 0 (Nat.succ_pos k)
      have hrest := ih (Nat.lt_of_succ_lt_succ hk)
        (fun i hi => hbefore (i + 1) (Nat.succ_lt_succ hi)) hlast
      have hvalue : (payload b : Int) + 2 ^ (7 * 1) *
          (groupSum k bs + 128 ^ k * lastValue kind (bs.getD k 0)) =
            groupSum (k + 1) (b :: bs) + 128 ^ (k + 1) * lastValue kind (bs.getD k 0) := by
        rw [groupSum_cons]
        push_cast
        ring
      rw [decode_of_continues hb, hrest, onTop, hvalue, Nat.add_comm 1,
        List.getD_cons_succ]

/-- The value of a number of `k + 1` groups that is read with a sign. -/
def signedSum (k : Nat) (bs : Bytes) : Int :=
  if (bs.getD k 0).toNat.testBit 6 then groupSum (k + 1) bs - 128 ^ (k + 1) else groupSum (k + 1) bs

lemma sum_unsigned (k : Nat) (bs : Bytes) :
    (groupSum k bs + 128 ^ k * lastValue .unsigned (bs.getD k 0) : Int) = groupSum (k + 1) bs := by
  rw [groupSum_succ, lastValue]
  push_cast
  ring

lemma sum_signed (k : Nat) (bs : Bytes) :
    (groupSum k bs + 128 ^ k * lastValue .signed (bs.getD k 0) : Int) = signedSum k bs := by
  rw [signedSum, groupSum_succ, lastValue, negative_eq_testBit]
  split
  · push_cast
    ring
  · push_cast
    ring

lemma lastValue_signed_mem (b : UInt8) : -64 ≤ lastValue .signed b ∧ lastValue .signed b < 64 := by
  have hp := payload_lt b
  rw [lastValue_signed]
  split <;> omega

/-- The last group decides in which half of its range the value lies. -/
lemma signedSum_mem (k : Nat) (bs : Bytes) :
    -(128 ^ (k + 1) / 2) ≤ signedSum k bs ∧ signedSum k bs < 128 ^ (k + 1) / 2 := by
  obtain ⟨hlower, hupper⟩ := lastValue_signed_mem (bs.getD k 0)
  have hrest : (groupSum k bs : Int) < 128 ^ k := by exact_mod_cast groupSum_lt k bs
  have hpow : (0 : Int) ≤ 128 ^ k := Int.pow_nonneg (by decide)
  have hleft := Int.mul_le_mul_of_nonneg_left hlower hpow
  have hright := Int.mul_le_mul_of_nonneg_left (Int.le_sub_one_of_lt hupper) hpow
  rw [← sum_signed, pow_succ]
  omega

lemma signedSum_modEq (k : Nat) (bs : Bytes) :
    signedSum k bs ≡ groupSum (k + 1) bs [ZMOD 128 ^ (k + 1)] := by
  unfold signedSum
  split
  · rw [Int.modEq_iff_dvd, sub_sub_cancel]
  · rfl

/-- The first byte that does not continue a number. -/
lemma findIdx_spec {bs : Bytes} (h : ∃ b ∈ bs, ¬b.toNat.testBit 7) :
    let k := bs.findIdx fun b => !b.toNat.testBit 7
    k < bs.length ∧ (∀ i < k, continues (bs.getD i 0) = true) ∧
      continues (bs.getD k 0) = false := by
  intro k
  have hk : k < bs.length := List.findIdx_lt_length_of_exists (by simpa using h)
  refine ⟨hk, ?_, ?_⟩
  · intro i hi
    have hbit := List.not_of_lt_findIdx hi
    rw [List.getD_eq_getElem _ _ (hi.trans hk), continues_eq_testBit]
    simpa using hbit
  · have hbit := List.findIdx_getElem (w := hk)
    rw [List.getD_eq_getElem _ _ hk, continues_eq_testBit]
    simpa using hbit

/-- Bytes that all have their continuation bit set are read as no number. Otherwise both kinds of
numbers end with the first byte that has it clear, whatever follows. The unsigned value is the sum
of the groups up to there, and the signed value is the one in the signed range that is congruent to
it. -/
theorem decoders_sum_groups (bs : Bytes) :
    ((∀ b ∈ bs, b.toNat.testBit 7) →
      decodeUnsigned bs = .error (.unexpectedEnd bs.length) ∧
      decodeSigned bs = .error (.unexpectedEnd bs.length)) ∧
    ((∃ b ∈ bs, ¬b.toNat.testBit 7) →
      let k := bs.findIdx fun b => !b.toNat.testBit 7
      let n := k + 1
      let sum := ∑ i ∈ range n, (bs.getD i 0).toNat % 128 * 128 ^ i
      let signed : Int := if (bs.getD k 0).toNat.testBit 6 then sum - 128 ^ n else sum
      decodeUnsigned bs = .ok (sum, n) ∧ decodeSigned bs = .ok (signed, n) ∧
        sum < 128 ^ n ∧ -(128 ^ n / 2) ≤ signed ∧ signed < 128 ^ n / 2 ∧
        signed ≡ sum [ZMOD 128 ^ n]) := by
  refine ⟨?_, ?_⟩
  · intro h
    have hall : ∀ b ∈ bs, continues b = true := by simpa only [continues_eq_testBit] using h
    have hunsigned : decode .unsigned bs = _ := decode_of_all_continue hall
    have hsigned : decode .signed bs = _ := decode_of_all_continue hall
    exact ⟨decodeUnsigned_eq_error_iff.mpr hunsigned, hsigned⟩
  · intro h k n sum signed
    obtain ⟨hk, hbefore, hlast⟩ := findIdx_spec h
    have hunsigned := decode_eq_sum .unsigned hk hbefore hlast
    have hsigned := decode_eq_sum .signed hk hbefore hlast
    rw [sum_unsigned] at hunsigned
    rw [sum_signed] at hsigned
    obtain ⟨hlower, hupper⟩ := signedSum_mem k bs
    exact ⟨decodeUnsigned_eq_ok_iff.mpr hunsigned, hsigned, groupSum_lt n bs, hlower, hupper,
      signedSum_modEq k bs⟩

/-- A number of one group more than it needs, with a byte behind it, and one without an end. -/
theorem decoders_sum_groups_overlong_and_cut :
    let bs : Bytes := [0xc0, 0xff, 0x7f, 0x05]
    let cut : Bytes := [0x80, 0xff]
    (∃ b ∈ bs, ¬b.toNat.testBit 7) ∧ decodeUnsigned bs = .ok (2097088, 3) ∧
      decodeSigned bs = .ok (-64, 3) ∧ (-64 : Int) ≡ 2097088 [ZMOD 128 ^ 3] ∧
      (∀ b ∈ cut, b.toNat.testBit 7) ∧ decodeUnsigned cut = .error (.unexpectedEnd 2) ∧
      decodeSigned cut = .error (.unexpectedEnd 2) := by
  intro bs cut
  have hbs : ∃ b ∈ bs, ¬b.toNat.testBit 7 := ⟨0x7f, by decide, by decide⟩
  have hcut : ∀ b ∈ cut, b.toNat.testBit 7 :=
    List.forall_mem_cons.mpr ⟨by decide, List.forall_mem_singleton.mpr (by decide)⟩
  have hfirst : (bs.findIdx fun b => !b.toNat.testBit 7) = 2 := by decide
  have hsum : ∑ i ∈ range 3, (bs.getD i 0).toNat % 128 * 128 ^ i = 2097088 := by decide
  have hsign : (bs.getD 2 0).toNat.testBit 6 = true := by decide
  have hread := (decoders_sum_groups bs).2 hbs
  simp only [hfirst, hsum, hsign, Nat.reduceAdd, if_true] at hread
  obtain ⟨hunsigned, hsigned, -, -, -, hmod⟩ := hread
  obtain ⟨hnone, hnone'⟩ := (decoders_sum_groups cut).1 hcut
  exact ⟨hbs, hunsigned, hsigned, hmod, hcut, hnone, hnone'⟩

end WasmBinary.Leb128
