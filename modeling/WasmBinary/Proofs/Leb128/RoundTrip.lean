import WasmBinary.Proofs.Leb128.Step

/-!
# Reading back what was encoded

Groups are read back one by one, so numbers are read back from their encodings, whatever bytes
follow.
-/

namespace WasmBinary.Leb128

variable {kind : Signedness}

lemma lastValue_lowGroupSigned {v : Int} (h : Writable kind v) (hv : Single kind v) :
    lastValue kind (lowGroupSigned v) = v := by
  cases kind with
  | unsigned =>
    unfold Writable at h
    unfold Single at hv
    rw [lastValue, payload_lowGroupSigned]
    omega
  | signed =>
    unfold Single at hv
    have hpayload := payload_lowGroupSigned v
    rw [lastValue_signed]
    by_cases hneg : v < 0
    · rw [if_pos (by omega)]
      omega
    · rw [if_neg (by omega)]
      omega

/-- A number without or with a sign is read back from its encoding. -/
theorem decode_shortest {v : Int} (h : Writable kind v) (rest : Bytes) :
    decode kind (shortest kind v ++ rest) = .ok (v, (shortest kind v).length) := by
  induction v, h using Writable.induction with
  | single v h hv =>
    rw [shortest_of_single h hv, List.singleton_append,
      decode_of_last (continues_lowGroupSigned v), lastValue_lowGroupSigned h hv]
    rfl
  | more v h hv ih =>
    have hvalue : v % 128 + 2 ^ (7 * 1) * (v / 128) = v := Int.emod_add_mul_ediv v 128
    rw [shortest_of_not_single h hv, List.cons_append, decode_of_continues (continues_continued _),
      ih, payload_continued, payload_lowGroupSigned, onTop, hvalue, List.length_cons, Nat.add_comm]

/-- A natural number is read back, whatever follows. -/
theorem decodeUnsigned_encodeUnsigned (n : Nat) (rest : Bytes) :
    decodeUnsigned (encodeUnsigned n ++ rest) = .ok (n, (encodeUnsigned n).length) := by
  have hn : Writable .unsigned n := Int.natCast_nonneg n
  exact decodeUnsigned_eq_ok_iff.mpr (decode_shortest hn rest)

/-- An integer is read back, whatever follows. -/
theorem decodeSigned_encodeSigned (v : Int) (rest : Bytes) :
    decodeSigned (encodeSigned v ++ rest) = .ok (v, (encodeSigned v).length) := by
  have hv : Writable .signed v := trivial
  exact decode_shortest hv rest

end WasmBinary.Leb128
