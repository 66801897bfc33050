import Mathlib.Algebra.Group.Int.Defs
import Mathlib.Algebra.Group.Nat.Defs
import Mathlib.Tactic.Lemma
import WasmBinary.Leb128.Decode
import WasmBinary.Leb128.Encode

/-!
# One group at a time

What the decoders and the encodings do with one byte, for numbers without and with a sign. A
decoder that has read some groups goes on as it does from the start, and puts what it reads on top
of them. Everything about whole encodings is proved from these steps.
-/

namespace WasmBinary.Leb128

variable {kind : Signedness}

/-! ### Groups as bytes -/

lemma forall_byte {P : UInt8 → Prop} (h : ∀ k : Fin 256, P (UInt8.ofNat k)) (b : UInt8) : P b := by
  have hb := h ⟨b.toNat, b.toNat_lt⟩
  rwa [UInt8.ofNat_toNat] at hb

lemma payload_lt (b : UInt8) : payload b < 128 := by
  revert b
  exact forall_byte (by decide +kernel)

lemma continues_continued (b : UInt8) : continues (continued b) = true := by
  revert b
  exact forall_byte (by decide +kernel)

lemma payload_continued (b : UInt8) : payload (continued b) = payload b := by
  revert b
  exact forall_byte (by decide +kernel)

lemma negative_eq (b : UInt8) : negative b = decide (64 ≤ payload b) := by
  revert b
  exact forall_byte (by decide +kernel)

/-- A byte is its group, with the continuation bit if it has that. -/
lemma eq_lowGroup_payload (b : UInt8) :
    b = if continues b then continued (lowGroup (payload b)) else lowGroup (payload b) := by
  revert b
  exact forall_byte (by decide +kernel)

lemma lowGroup_bits (n : Nat) :
    payload (lowGroup n) = n % 128 ∧ continues (lowGroup n) = false := by
  have h : ∀ k : Fin 128, payload (UInt8.ofNat k) = k ∧ continues (UInt8.ofNat k) = false := by
    decide +kernel
  exact h ⟨n % 128, Nat.mod_lt _ (by omega)⟩

lemma payload_lowGroupSigned (v : Int) : (payload (lowGroupSigned v) : Int) = v % 128 := by
  rw [lowGroupSigned, (lowGroup_bits _).1]
  omega

lemma continues_lowGroupSigned (v : Int) : continues (lowGroupSigned v) = false :=
  (lowGroup_bits _).2

/-! ### Reading one group -/

/-- What has been read in all, if the result is that of going on after `count` groups which have
the value `value`. -/
def onTop (value : Int) (count : Nat) :
    Except DecodeError (Int × Nat) → Except DecodeError (Int × Nat)
  | .ok (v, n) => .ok (value + 2 ^ (7 * count) * v, count + n)
  | .error (.unexpectedEnd n) => .error (.unexpectedEnd (count + n))

/-- The value of a group that no other follows. -/
def lastValue : Signedness → UInt8 → Int
  | .unsigned, b => payload b
  | .signed, b => if negative b then payload b - 128 else payload b

lemma lastValue_signed (b : UInt8) :
    lastValue .signed b = if 64 ≤ payload b then (payload b : Int) - 128 else payload b := by
  rw [lastValue, negative_eq]
  simp only [decide_eq_true_eq]

lemma onTop_onTop (value value' : Int) (count count' : Nat)
    (result : Except DecodeError (Int × Nat)) :
    onTop value count (onTop value' count' result) =
      onTop (value + 2 ^ (7 * count) * value') (count + count') result := by
  rcases result with ⟨n⟩ | ⟨v, n⟩
  · simp only [onTop, Nat.add_assoc]
  · have hvalue : value + 2 ^ (7 * count) * (value' + 2 ^ (7 * count') * v) =
        value + 2 ^ (7 * count) * value' + 2 ^ (7 * (count + count')) * v := by
      rw [Nat.mul_add, Int.pow_add, Int.mul_add, Int.mul_assoc, Int.add_assoc]
    simp only [onTop, hvalue, Nat.add_assoc]

lemma or_shiftLeft_eq_add {value k : Nat} (p : Nat) (h : value < 2 ^ k) :
    value ||| p <<< k = value + 2 ^ k * p := by
  rw [Nat.or_comm, Nat.shiftLeft_eq, Nat.mul_comm, ← Nat.two_pow_add_eq_or_of_lt h, Nat.add_comm]

lemma add_group_lt {value count p : Nat} (h : value < 2 ^ (7 * count)) (hp : p < 128) :
    value + 2 ^ (7 * count) * p < 2 ^ (7 * (count + 1)) := by
  have hmul := Nat.mul_le_mul_left (2 ^ (7 * count)) (Nat.succ_le_of_lt hp)
  have hpow : 2 ^ (7 * (count + 1)) = 2 ^ (7 * count) * 128 := by
    rw [Nat.mul_succ, Nat.pow_add]
  rw [Nat.mul_succ] at hmul
  omega

/-- The bits of the groups read so far and those of the next one do not overlap, so that the
decoder adds where it combines bits. -/
lemma decodeUnsignedFrom_eq (bs : Bytes) (value count : Nat) (h : value < 2 ^ (7 * count)) :
    (decodeUnsignedFrom value count bs).map (fun (v, n) => ((v : Int), n)) =
      onTop value count (decode .unsigned bs) := by
  induction bs generalizing value count with
  | nil => rfl
  | cons b bs ih =>
    -- The rest is read on top of `b` in two ways: after all groups before it, and after none.
    have hp := payload_lt b
    have hnext := ih _ _ (add_group_lt h hp)
    have hfirst := ih (payload b) 1 hp
    have hstart : decode .unsigned (b :: bs) =
        if continues b then onTop (payload b) 1 (decode .unsigned bs) else .ok (payload b, 1) := by
      rw [← hfirst, decode, decodeUnsigned, decodeUnsignedFrom]
      simp only [Nat.mul_zero, Nat.shiftLeft_zero, Nat.zero_or, Nat.zero_add]
      cases continues b <;> rfl
    rw [decodeUnsignedFrom, or_shiftLeft_eq_add _ h, hstart]
    dsimp only
    cases continues b
    · simp [onTop, Except.map]
    · rw [if_pos rfl, if_pos rfl, onTop_onTop, hnext]
      push_cast
      rfl

lemma shiftLeft_cast (p k : Nat) : ((p <<< k : Nat) : Int) = 2 ^ k * (p : Int) := by
  rw [Nat.shiftLeft_eq, Int.natCast_mul, Int.natCast_pow, Int.mul_comm]
  rfl

lemma decodeSignedFrom_eq (bs : Bytes) (value : Int) (count : Nat) :
    decodeSignedFrom value count bs = onTop value count (decodeSigned bs) := by
  induction bs generalizing value count with
  | nil => rfl
  | cons b bs ih =>
    rw [decodeSigned, decodeSignedFrom, decodeSignedFrom]
    simp only [shiftLeft_cast, Nat.mul_zero, Int.pow_zero, Int.one_mul, Int.zero_add, Nat.zero_add]
    cases continues b
    · cases negative b
      · simp [onTop]
      · have hpow : (2 : Int) ^ (7 * (count + 1)) = 2 ^ (7 * count) * 2 ^ (7 * 1) := by
          rw [Nat.mul_add, Int.pow_add]
        simp only [onTop, hpow, Int.mul_sub, Int.mul_assoc, Int.add_sub_assoc, if_true,
          Bool.false_eq_true, if_false]
    · rw [if_pos rfl, if_pos rfl, ih, ih, onTop_onTop]

theorem decode_nil (kind : Signedness) : decode kind [] = .error (.unexpectedEnd 0) := by
  cases kind <;> rfl

/-- After a group that continues a number, the rest of the number is read from what follows. -/
theorem decode_of_continues {b : UInt8} (h : continues b = true) (bs : Bytes) :
    decode kind (b :: bs) = onTop (payload b) 1 (decode kind bs) := by
  cases kind with
  | unsigned =>
    rw [← decodeUnsignedFrom_eq bs _ _ (payload_lt b), decode, decodeUnsigned, decodeUnsignedFrom]
    simp [h]
  | signed =>
    rw [decode, decodeSigned, decodeSignedFrom]
    simp only [h, if_true, decodeSignedFrom_eq, shiftLeft_cast]
    simp [decode]

/-- A number ends with the first group that does not continue it, whatever follows. -/
theorem decode_of_last {b : UInt8} (h : continues b = false) (bs : Bytes) :
    decode kind (b :: bs) = .ok (lastValue kind b, 1) := by
  cases kind with
  | unsigned =>
    rw [decode, decodeUnsigned, decodeUnsignedFrom]
    simp [h, lastValue, Except.map]
  | signed =>
    rw [decode, decodeSigned, decodeSignedFrom, lastValue]
    cases negative b <;> simp [h]

lemma decodeUnsigned_eq_ok_iff {bs : Bytes} {value count : Nat} :
    decodeUnsigned bs = .ok (value, count) ↔ decode .unsigned bs = .ok (value, count) := by
  rw [decode]
  rcases decodeUnsigned bs with e | ⟨v, n⟩
  · simp [Except.map]
  · simp only [Except.map, Except.ok.injEq, Prod.mk.injEq, Int.natCast_inj]

lemma decodeUnsigned_eq_error_iff {bs : Bytes} {e : DecodeError} :
    decodeUnsigned bs = .error e ↔ decode .unsigned bs = .error e := by
  rw [decode]
  rcases decodeUnsigned bs with e' | ⟨v, n⟩ <;> simp [Except.map]

/-! ### Writing one group -/

/-- The numbers that can be written without a sign, or with one. -/
def Writable : Signedness → Int → Prop
  | .unsigned, v => 0 ≤ v
  | .signed, _ => True

/-- The numbers written as one group. -/
def Single : Signedness → Int → Prop
  | .unsigned, v => v < 128
  | .signed, v => -64 ≤ v ∧ v < 64

/-- The shortest encoding of a number without or with a sign. -/
def shortest : Signedness → Int → Bytes
  | .unsigned, v => encodeUnsigned v.toNat
  | .signed, v => encodeSigned v

lemma Writable.div {v : Int} (h : Writable kind v) : Writable kind (v / 128) := by
  cases kind with
  | unsigned => exact Int.ediv_nonneg h (by decide)
  | signed => trivial

lemma Writable.of_div {v : Int} (h : Writable kind (v / 128)) : Writable kind v := by
  cases kind with
  | unsigned =>
    unfold Writable at h ⊢
    omega
  | signed => trivial

lemma lowGroup_eq (n : Nat) : lowGroup n = lowGroupSigned n := by
  unfold lowGroupSigned lowGroup
  congr 1
  omega

lemma shortest_of_single {v : Int} (h : Writable kind v) (hv : Single kind v) :
    shortest kind v = [lowGroupSigned v] := by
  cases kind with
  | unsigned =>
    obtain ⟨n, rfl⟩ := Int.eq_ofNat_of_zero_le h
    rw [shortest, Int.toNat_natCast, encodeUnsigned_of_lt (Int.ofNat_lt.mp hv), lowGroup_eq]
  | signed => exact encodeSigned_of_mem hv

lemma shortest_of_not_single {v : Int} (h : Writable kind v) (hv : ¬Single kind v) :
    shortest kind v = continued (lowGroupSigned v) :: shortest kind (v / 128) := by
  cases kind with
  | unsigned =>
    obtain ⟨n, rfl⟩ := Int.eq_ofNat_of_zero_le h
    have hn : 128 ≤ n := by
      unfold Single at hv
      omega
    rw [shortest, Int.toNat_natCast, encodeUnsigned_of_le hn, lowGroup_eq]
    rfl
  | signed => exact encodeSigned_of_not_mem hv

lemma single_signed_iff (v : Int) :
    Single .signed v ↔ v / 128 = if negative (lowGroupSigned v) then -1 else 0 := by
  have hpayload := payload_lowGroupSigned v
  unfold Single
  rw [negative_eq]
  simp only [decide_eq_true_eq]
  split <;> omega

/-- Numbers are taken apart group by group, down to one that is a single group. -/
@[elab_as_elim]
theorem Writable.induction {motive : (v : Int) → Writable kind v → Prop}
    (single : ∀ v h, Single kind v → motive v h)
    (more : ∀ v h, ¬Single kind v → motive (v / 128) h.div → motive v h)
    (v : Int) (h : Writable kind v) : motive v h := by
  induction hn : v.natAbs using Nat.strongRecOn generalizing v with
  | ind n ih =>
    by_cases hv : Single kind v
    · exact single v h hv
    · have hlt : (v / 128).natAbs < n := by
        cases kind with
        | unsigned =>
          unfold Single at hv
          omega
        | signed =>
          unfold Single at hv
          omega
      exact more v h hv (ih _ hlt (v / 128) h.div rfl)

end WasmBinary.Leb128
