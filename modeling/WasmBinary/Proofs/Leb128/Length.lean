import Mathlib
import WasmBinary.Proofs.Integer
import WasmBinary.Proofs.Leb128.Value

/-!
# Lengths of encodings

The numbers whose encoding has at most a given length are those that so many groups stand for. So
the length of an encoding is the number of groups that its number needs, it grows with the number,
and the words of a given width have encodings of bounded length.
-/

namespace WasmBinary.Leb128

variable {kind : Signedness}

/-! ### Numbers that fit into some groups -/

/-- The number is one of those that `n` groups stand for. -/
def FitsIn : Signedness → Nat → Int → Prop
  | .unsigned, n, v => v < 2 ^ (7 * n)
  | .signed, n, v => -2 ^ (7 * n - 1) ≤ v ∧ v < 2 ^ (7 * n - 1)

lemma FitsIn.mono {m n : Nat} (hmn : m ≤ n) {v : Int} (h : FitsIn kind m v) :
    FitsIn kind n v := by
  cases kind with
  | unsigned =>
    have hpow : (2 : Int) ^ (7 * m) ≤ 2 ^ (7 * n) := pow_le_pow_right₀ (by omega) (by omega)
    exact lt_of_lt_of_le h hpow
  | signed =>
    have hpow : (2 : Int) ^ (7 * m - 1) ≤ 2 ^ (7 * n - 1) := pow_le_pow_right₀ (by omega) (by omega)
    exact ⟨(neg_le_neg hpow).trans h.1, lt_of_lt_of_le h.2 hpow⟩

lemma fitsIn_one (v : Int) : FitsIn kind 1 v ↔ Single kind v := by
  cases kind <;> rfl

lemma fitsIn_add_two (n : Nat) (v : Int) :
    FitsIn kind (n + 2) v ↔ FitsIn kind (n + 1) (v / 128) := by
  cases kind with
  | unsigned =>
    have hpow : (2 : Int) ^ (7 * (n + 2)) = 2 ^ (7 * (n + 1)) * 128 := by
      rw [Nat.mul_succ, pow_add]
      rfl
    unfold FitsIn
    omega
  | signed =>
    have hexp : 7 * (n + 2) - 1 = 7 * (n + 1) - 1 + 7 := by omega
    have hpow : (2 : Int) ^ (7 * (n + 2) - 1) = 2 ^ (7 * (n + 1) - 1) * 128 := by
      rw [hexp, pow_add]
      rfl
    unfold FitsIn
    omega

lemma length_shortest_pos {v : Int} (h : Writable kind v) : 0 < (shortest kind v).length := by
  obtain ⟨groups, last, hbytes, -⟩ := exists_groups h
  rw [hbytes, List.length_append]
  exact Nat.succ_pos _

/-- An encoding is as long as the number of groups that its number needs. -/
theorem length_shortest_le_iff {v : Int} (h : Writable kind v) {n : Nat} (hn : 0 < n) :
    (shortest kind v).length ≤ n ↔ FitsIn kind n v := by
  induction v, h using Writable.induction generalizing n with
  | single v h hv =>
    rw [shortest_of_single h hv, List.length_singleton]
    have hfits := ((fitsIn_one v).mpr hv).mono hn
    exact iff_of_true hn hfits
  | more v h hv ih =>
    rw [shortest_of_not_single h hv, List.length_cons]
    obtain _ | _ | n := n
    · exact absurd hn (Nat.lt_irrefl 0)
    · have hpos := length_shortest_pos h.div
      rw [fitsIn_one]
      exact iff_of_false (by omega) hv
    · rw [fitsIn_add_two, Nat.add_le_add_iff_right]
      exact ih (Nat.succ_pos n)

lemma fitsIn_length {v : Int} (h : Writable kind v) : FitsIn kind (shortest kind v).length v :=
  (length_shortest_le_iff h (length_shortest_pos h)).mp (Nat.le_refl _)

/-! ### The lengths of encodings -/

theorem length_encodeUnsigned (n : Nat) : (encodeUnsigned n).length = max 1 (n.size ⌈/⌉ 7) := by
  have hn : Writable .unsigned n := Int.natCast_nonneg n
  apply eq_of_forall_ge_iff
  intro k
  cases k with
  | zero =>
    have hpos : 0 < (encodeUnsigned n).length := length_shortest_pos hn
    exact iff_of_false (by omega) (by simp)
  | succ k =>
    have hfits : (encodeUnsigned n).length ≤ k + 1 ↔ (n : Int) < 2 ^ (7 * (k + 1)) :=
      length_shortest_le_iff hn (Nat.succ_pos k)
    have hcast : (n : Int) < 2 ^ (7 * (k + 1)) ↔ n < 2 ^ (7 * (k + 1)) := by norm_cast
    rw [hfits, hcast, max_le_iff, and_iff_right (Nat.le_add_left 1 k),
      ceilDiv_le_iff_le_smul (by omega), smul_eq_mul, Nat.size_le]

theorem isLeast_length_encodeSigned (v : Int) :
    IsLeast {n | 1 ≤ n ∧ -2 ^ (7 * n - 1) ≤ v ∧ v < 2 ^ (7 * n - 1)} (encodeSigned v).length := by
  have hv : Writable .signed v := trivial
  constructor
  · exact ⟨length_shortest_pos hv, fitsIn_length hv⟩
  · rintro n ⟨hn, hfits⟩
    exact (length_shortest_le_iff hv hn).mpr hfits

lemma length_shortest_le_of_fitsIn {u v : Int} (hu : Writable kind u) (hv : Writable kind v)
    (h : ∀ n, FitsIn kind n v → FitsIn kind n u) :
    (shortest kind u).length ≤ (shortest kind v).length :=
  (length_shortest_le_iff hu (length_shortest_pos hv)).mpr (h _ (fitsIn_length hv))

theorem monotone_length_encodeUnsigned : Monotone fun n => (encodeUnsigned n).length := by
  intro m n hmn
  have hle : (m : Int) ≤ n := Int.ofNat_le.mpr hmn
  have hm : Writable .unsigned m := Int.natCast_nonneg m
  exact length_shortest_le_of_fitsIn hm (Int.natCast_nonneg n) fun k => hle.trans_lt

theorem length_encodeSigned_le {u v : Int} (hsign : 0 ≤ u ∧ 0 ≤ v ∨ u ≤ 0 ∧ v ≤ 0)
    (hle : |u| ≤ |v|) : (encodeSigned u).length ≤ (encodeSigned v).length := by
  have hu : Writable .signed u := trivial
  have hv : Writable .signed v := trivial
  refine length_shortest_le_of_fitsIn hu hv ?_
  intro n hfits
  rw [Int.abs_eq_natAbs, Int.abs_eq_natAbs] at hle
  unfold FitsIn at hfits ⊢
  have hpos : (0 : Int) < 2 ^ (7 * n - 1) := Int.pow_pos (by decide)
  omega

/-! ### Where an encoding ends -/

/-- The last byte is the only one whose continuation bit is clear. -/
def EndsAtLast (bs : Bytes) : Prop :=
  ∃ groups last, bs = groups ++ [last] ∧ (∀ b ∈ groups, b.toNat.testBit 7) ∧
    ¬last.toNat.testBit 7

lemma endsAtLast_shortest {v : Int} (h : Writable kind v) : EndsAtLast (shortest kind v) := by
  obtain ⟨groups, last, hbytes, hgroups, hlast⟩ := exists_groups h
  refine ⟨groups, last, hbytes, ?_, ?_⟩
  · intro b hb
    rw [← continues_eq_testBit]
    exact hgroups b hb
  · rw [← continues_eq_testBit, hlast]
    exact Bool.false_ne_true

/-! ### Words -/

lemma le_mul_ceilDiv (w : Nat) : w ≤ 7 * (w ⌈/⌉ 7) := by
  have h := le_smul_ceilDiv (b := w) (show 0 < 7 by decide)
  rwa [smul_eq_mul] at h

lemma ceilDiv_pos {w : Nat} (hw : 0 < w) : 0 < w ⌈/⌉ 7 := by
  have h := le_mul_ceilDiv w
  omega

variable {w : Nat}

lemma length_encodeUnsigned_word_le (hw : 0 < w) (word : BitVec w) :
    (encodeUnsigned word.toNat).length ≤ w ⌈/⌉ 7 := by
  have hword : Writable .unsigned word.toNat := Int.natCast_nonneg _
  have hpow : 2 ^ w ≤ 2 ^ (7 * (w ⌈/⌉ 7)) := Nat.pow_le_pow_right (by decide) (le_mul_ceilDiv w)
  have hlt : (word.toNat : Int) < 2 ^ (7 * (w ⌈/⌉ 7)) := by
    exact_mod_cast word.isLt.trans_le hpow
  exact (length_shortest_le_iff hword (ceilDiv_pos hw)).mpr hlt

lemma length_encodeSigned_word_le (hw : 0 < w) (word : BitVec w) :
    (encodeSigned word.toInt).length ≤ w ⌈/⌉ 7 := by
  have hword : Writable .signed word.toInt := trivial
  have hle := le_mul_ceilDiv w
  have hpow : (2 : Int) ^ (w - 1) ≤ 2 ^ (7 * (w ⌈/⌉ 7) - 1) :=
    pow_le_pow_right₀ (by decide) (by omega)
  apply (length_shortest_le_iff hword (ceilDiv_pos hw)).mpr
  exact ⟨(neg_le_neg hpow).trans word.le_toInt, word.toInt_lt.trans_le hpow⟩

end WasmBinary.Leb128

namespace WasmBinary

open Encoder Leb128

/-- The word of an integer is written as the encoding of its value, without or with a sign. -/
lemma Integer.emitWord_cases (n : Integer) :
    n.emitWord = emit (encodeUnsigned n.word.toNat) ∨
      n.emitWord = emit (encodeSigned n.word.toInt) := by
  have hlift : ∀ {writer : Sink.Writer Unit} {bs : Bytes}, writer = Sink.write bs →
      (writer : Encoder Unit) = emit bs := by
    rintro writer bs rfl
    rfl
  rcases n with ⟨width | width | width, v⟩
  · exact .inl (hlift (writeUnsigned_eq_write _))
  · exact .inr (hlift (writeSigned_eq_write (seven_le_bits width) _))
  · exact .inr (hlift (writeSigned_eq_write (seven_le_bits width) _))

lemma IntKind.bits_pos (kind : IntKind) : 0 < kind.bits := by
  rcases kind with (_ | _) | (_ | _) | (_ | _) <;> decide

lemma Integer.length_image_le {n : Integer} {bs : Bytes} (h : toBytes n = .ok bs) :
    bs.length ≤ n.kind.bits ⌈/⌉ 7 := by
  have himage : n.emitWord.image = .ok bs := by
    rw [emitWord_of_image h, emit_image_iff]
  rcases n.emitWord_cases with hword | hword
  · rw [hword, emit_image_iff] at himage
    rw [himage]
    exact length_encodeUnsigned_word_le n.kind.bits_pos _
  · rw [hword, emit_image_iff] at himage
    rw [himage]
    exact length_encodeSigned_word_le n.kind.bits_pos _

/-- The length of an encoding is the number of groups that its number needs, one at least, and only
the last byte ends it. So it grows with natural numbers, and with the magnitude of integers of one
sign. Words, and with them the integer fields of a width, take at most as many bytes as the width
has groups. -/
theorem encoded_lengths :
    (∀ n : Nat, (encodeUnsigned n).length = max 1 (n.size ⌈/⌉ 7)) ∧
    (∀ v : Int, IsLeast {n | 1 ≤ n ∧ -2 ^ (7 * n - 1) ≤ v ∧ v < 2 ^ (7 * n - 1)}
      (encodeSigned v).length) ∧
    (∀ n : Nat, EndsAtLast (encodeUnsigned n)) ∧ (∀ v : Int, EndsAtLast (encodeSigned v)) ∧
    (Monotone fun n => (encodeUnsigned n).length) ∧
    (∀ u v : Int, 0 ≤ u ∧ 0 ≤ v ∨ u ≤ 0 ∧ v ≤ 0 → |u| ≤ |v| →
      (encodeSigned u).length ≤ (encodeSigned v).length) ∧
    (∀ (w : Nat) (word : BitVec w), 0 < w →
      (encodeUnsigned word.toNat).length ≤ w ⌈/⌉ 7 ∧
      (encodeSigned word.toInt).length ≤ w ⌈/⌉ 7) ∧
    ∀ (n : Integer) (bs : Bytes), toBytes n = .ok bs → bs.length ≤ n.kind.bits ⌈/⌉ 7 := by
  refine ⟨length_encodeUnsigned, isLeast_length_encodeSigned, ?_, ?_,
    monotone_length_encodeUnsigned, fun u v => length_encodeSigned_le, ?_,
    fun n bs => Integer.length_image_le⟩
  · intro n
    have hn : Writable .unsigned n := Int.natCast_nonneg n
    exact endsAtLast_shortest hn
  · intro v
    have hv : Writable .signed v := trivial
    exact endsAtLast_shortest hv
  · intro w word hw
    exact ⟨length_encodeUnsigned_word_le hw word, length_encodeSigned_word_le hw word⟩

/-- One byte is enough down to -64, and the next number needs two. The least signed word of 32 bits
takes five bytes, which is the most that there can be. -/
theorem encoded_lengths_of_negative :
    (encodeSigned (-64)).length = 1 ∧ (encodeSigned (-65)).length = 2 ∧
      ((-64 : Int) ≤ 0 ∧ (-65 : Int) ≤ 0) ∧ |(-64 : Int)| ≤ |(-65 : Int)| ∧
      (encodeSigned (-64)).length ≤ (encodeSigned (-65)).length ∧
      (encodeSigned (0x80000000#32).toInt).length ≤ 5 ∧
      toBytes (⟨.pattern .w32, -0x80000000⟩ : Integer) = .ok [0x80, 0x80, 0x80, 0x80, 0x78] ∧
      ([0x80, 0x80, 0x80, 0x80, 0x78] : Bytes).length ≤ 5 := by
  obtain ⟨-, hleast, -, -, -, hsigned, hword, hfield⟩ := encoded_lengths
  have hone : (encodeSigned (-64)).length = 1 := by
    refine (hleast (-64)).unique ⟨by simp, ?_⟩
    rintro n ⟨hn, -⟩
    exact hn
  have htwo : (encodeSigned (-65)).length = 2 := by
    refine (hleast (-65)).unique ⟨by simp, ?_⟩
    rintro n ⟨hn, hlower, -⟩
    by_contra hlt
    obtain rfl : n = 1 := by omega
    exact absurd hlower (by decide)
  have hneg : (-64 : Int) ≤ 0 ∧ (-65 : Int) ≤ 0 := by decide
  have habs : |(-64 : Int)| ≤ |(-65 : Int)| := by decide
  have hleast_word : toBytes (⟨.pattern .w32, -0x80000000⟩ : Integer) =
      .ok [0x80, 0x80, 0x80, 0x80, 0x78] := by cbv
  exact ⟨hone, htwo, hneg, habs, hsigned _ _ (.inr hneg) habs, (hword 32 _ (by decide)).2,
    hleast_word, hfield _ _ hleast_word⟩

end WasmBinary
