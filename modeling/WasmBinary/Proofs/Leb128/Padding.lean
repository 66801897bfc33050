import WasmBinary.Proofs.Leb128.RoundTrip

/-!
# Padded encodings

An encoding can be made longer without a change of its value: its last group is continued by
groups that only repeat the sign. The decoders read all of these forms and nothing else, so of all
bytes that are read as a number, its encoding is the shortest.
-/

namespace WasmBinary.Leb128

variable {kind : Signedness}

/-! ### The forms of a number -/

/-- Sets the continuation bit of the last byte. -/
def continueLast : Bytes → Bytes
  | [] => []
  | [b] => [continued b]
  | b :: c :: bs => b :: continueLast (c :: bs)

/-- The group that repeats the sign of a number. -/
def signGroup (v : Int) : UInt8 := if v < 0 then 0x7f else 0x00

/-- What `j + 1` groups repeat above a number. -/
def signGroups (v : Int) (j : Nat) : Bytes :=
  List.replicate j (continued (signGroup v)) ++ [signGroup v]

/-- The encoding of a number with `j + 1` groups more than it needs. -/
def padded (kind : Signedness) (v : Int) (j : Nat) : Bytes :=
  continueLast (shortest kind v) ++ signGroups v j

lemma shortest_ne_nil {v : Int} (h : Writable kind v) : shortest kind v ≠ [] := by
  by_cases hv : Single kind v
  · rw [shortest_of_single h hv]
    exact List.cons_ne_nil _ _
  · rw [shortest_of_not_single h hv]
    exact List.cons_ne_nil _ _

lemma continueLast_cons {bs : Bytes} (b : UInt8) (h : bs ≠ []) :
    continueLast (b :: bs) = b :: continueLast bs := by
  cases bs with
  | nil => exact absurd rfl h
  | cons c bs => rfl

lemma length_continueLast (bs : Bytes) : (continueLast bs).length = bs.length := by
  fun_induction continueLast bs with
  | case1 => rfl
  | case2 b => rfl
  | case3 b c bs ih => rw [List.length_cons, ih, ← List.length_cons]

lemma signGroup_div (v : Int) : signGroup (v / 128) = signGroup v := by
  have h : v / 128 < 0 ↔ v < 0 := by omega
  simp only [signGroup, h]

lemma padded_of_not_single {v : Int} (h : Writable kind v) (hv : ¬Single kind v) (j : Nat) :
    padded kind v j = continued (lowGroupSigned v) :: padded kind (v / 128) j := by
  unfold padded signGroups
  rw [shortest_of_not_single h hv, continueLast_cons _ (shortest_ne_nil h.div), signGroup_div]
  rfl

lemma padded_of_single {v : Int} (h : Writable kind v) (hv : Single kind v) (j : Nat) :
    padded kind v j = continued (lowGroupSigned v) :: signGroups v j := by
  unfold padded
  rw [shortest_of_single h hv]
  rfl

/-! ### Padded forms are read -/

/-- The number that the groups above another one stand for. -/
def extension (v : Int) : Int := if v < 0 then -1 else 0

lemma Single.div_eq {v : Int} (h : Writable kind v) (hv : Single kind v) :
    v / 128 = extension v := by
  unfold extension
  cases kind with
  | unsigned =>
    unfold Writable at h
    unfold Single at hv
    rw [if_neg (by omega)]
    omega
  | signed =>
    unfold Single at hv
    split <;> omega

lemma writable_extension {v : Int} (h : Writable kind v) : Writable kind (extension v) := by
  cases kind with
  | unsigned =>
    rw [extension, if_neg (Int.not_lt.mpr h)]
    exact Int.le_refl 0
  | signed => trivial

lemma single_extension (v : Int) : Single kind (extension v) := by
  unfold extension
  cases kind with
  | unsigned =>
    unfold Single
    split <;> omega
  | signed =>
    unfold Single
    split <;> omega

lemma lowGroupSigned_extension (v : Int) : lowGroupSigned (extension v) = signGroup v := by
  unfold extension signGroup
  split <;> decide

lemma signGroup_extension (v : Int) : signGroup (extension v) = signGroup v := by
  have h : extension v < 0 ↔ v < 0 := by
    unfold extension
    split <;> omega
  simp only [signGroup, h]

lemma shortest_extension {v : Int} (h : Writable kind v) :
    shortest kind (extension v) = [signGroup v] := by
  rw [shortest_of_single (writable_extension h) (single_extension v), lowGroupSigned_extension]

lemma padded_extension {v : Int} (h : Writable kind v) (j : Nat) :
    padded kind (extension v) j = signGroups v (j + 1) := by
  unfold padded signGroups
  rw [shortest_extension h, signGroup_extension]
  rfl

lemma payload_signGroup (v : Int) : payload (signGroup v) + 128 * extension v = extension v := by
  unfold signGroup extension
  split <;> decide

lemma signGroups_succ (v : Int) (j : Nat) :
    signGroups v (j + 1) = continued (signGroup v) :: signGroups v j := rfl

lemma length_signGroups (v : Int) (j : Nat) : (signGroups v j).length = j + 1 := by
  rw [signGroups, List.length_append, List.length_replicate, List.length_singleton]

lemma decode_signGroups {v : Int} (h : Writable kind v) (j : Nat) :
    decode kind (signGroups v j) = .ok (extension v, j + 1) := by
  induction j with
  | zero =>
    have hread := decode_shortest (writable_extension h) []
    rwa [shortest_extension h] at hread
  | succ j ih =>
    have hvalue : payload (signGroup v) + 2 ^ (7 * 1) * extension v = extension v :=
      payload_signGroup v
    rw [signGroups_succ, decode_of_continues (continues_continued _), ih, payload_continued, onTop,
      hvalue, Nat.add_comm]

/-- A padded form is read like the encoding. -/
theorem decode_padded {v : Int} (h : Writable kind v) (j : Nat) :
    decode kind (padded kind v j) = .ok (v, (padded kind v j).length) := by
  have hvalue : ∀ v : Int, v % 128 + 2 ^ (7 * 1) * (v / 128) = v := fun v =>
    Int.emod_add_mul_ediv v 128
  induction v, h using Writable.induction with
  | single v h hv =>
    rw [padded_of_single h hv, decode_of_continues (continues_continued _), decode_signGroups h,
      payload_continued, payload_lowGroupSigned, onTop, ← hv.div_eq h, hvalue, List.length_cons,
      length_signGroups, Nat.add_comm]
  | more v h hv ih =>
    rw [padded_of_not_single h hv, decode_of_continues (continues_continued _), ih,
      payload_continued, payload_lowGroupSigned, onTop, hvalue, List.length_cons, Nat.add_comm]

/-! ### Nothing else is read -/

lemma onTop_eq_ok_iff {result : Except DecodeError (Int × Nat)} {value v : Int} {count n : Nat} :
    onTop value count result = .ok (v, n) ↔
      ∃ v' n', result = .ok (v', n') ∧ v = value + 2 ^ (7 * count) * v' ∧ n = count + n' := by
  constructor
  · intro h
    rcases result with e | ⟨v', n'⟩
    · exact nomatch h
    · rw [onTop, Except.ok.injEq, Prod.mk.injEq] at h
      exact ⟨v', n', rfl, h.1.symm, h.2.symm⟩
  · rintro ⟨v', n', rfl, rfl, rfl⟩
    rfl

lemma lowGroupSigned_add (b : UInt8) (v : Int) :
    lowGroupSigned (payload b + 128 * v) = lowGroup (payload b) := by
  rw [lowGroup_eq, lowGroupSigned, lowGroupSigned, Int.add_mul_emod_self_left]

lemma lastValue_eq (kind : Signedness) (b : UInt8) :
    Writable kind (lastValue kind b) ∧ Single kind (lastValue kind b) ∧
      lowGroupSigned (lastValue kind b) = lowGroup (payload b) := by
  have hlt := payload_lt b
  cases kind with
  | unsigned =>
    refine ⟨Int.natCast_nonneg _, ?_, (lowGroup_eq _).symm⟩
    exact Int.ofNat_lt.mpr hlt
  | signed =>
    rw [lastValue_signed]
    unfold Single
    by_cases h : 64 ≤ payload b
    · have hsub : (payload b : Int) - 128 = payload b + 128 * (-1) := by omega
      rw [if_pos h, hsub]
      exact ⟨trivial, by omega, lowGroupSigned_add b (-1)⟩
    · rw [if_neg h]
      exact ⟨trivial, by omega, (lowGroup_eq _).symm⟩

/-- Bytes that are read as a number are its encoding or a padded form of it. -/
theorem eq_of_decode {bs : Bytes} {v : Int} (h : decode kind bs = .ok (v, bs.length)) :
    Writable kind v ∧ (bs = shortest kind v ∨ ∃ j, bs = padded kind v j) := by
  induction bs generalizing v with
  | nil =>
    rw [decode_nil] at h
    exact nomatch h
  | cons b bs ih =>
    cases hb : continues b with
    | false =>
      rw [decode_of_last hb, Except.ok.injEq, Prod.mk.injEq, List.length_cons] at h
      obtain ⟨rfl, hlength⟩ := h
      have hbs : bs = [] := List.eq_nil_of_length_eq_zero (by omega)
      obtain ⟨hwritable, hsingle, hgroup⟩ := lastValue_eq kind b
      have hbyte := eq_lowGroup_payload b
      rw [if_neg (by simp [hb])] at hbyte
      refine ⟨hwritable, .inl ?_⟩
      rw [shortest_of_single hwritable hsingle, hgroup, ← hbyte, hbs]
    | true =>
      rw [decode_of_continues hb, onTop_eq_ok_iff] at h
      obtain ⟨rest, n, hrest, hv, hn⟩ := h
      have hlength : n = bs.length := by
        rw [List.length_cons] at hn
        omega
      rw [hlength] at hrest
      obtain ⟨hwritable_rest, hbs⟩ := ih hrest
      have hdiv : v / 128 = rest := by
        have hlt := payload_lt b
        omega
      have hbyte : b = continued (lowGroupSigned v) := by
        rw [hv]
        refine (eq_lowGroup_payload b).trans ?_
        rw [if_pos hb]
        exact congrArg continued (lowGroupSigned_add b rest).symm
      rw [← hdiv] at hwritable_rest hbs
      have hwritable := hwritable_rest.of_div
      refine ⟨hwritable, ?_⟩
      rw [hbyte]
      by_cases hsingle : Single kind v
      · -- What is above a single group is only its sign, so `b` starts a padded form.
        rw [hsingle.div_eq hwritable] at hbs
        rcases hbs with rfl | ⟨j, rfl⟩
        · rw [shortest_extension hwritable]
          exact .inr ⟨0, (padded_of_single hwritable hsingle 0).symm⟩
        · rw [padded_extension hwritable]
          exact .inr ⟨j + 1, (padded_of_single hwritable hsingle (j + 1)).symm⟩
      · rcases hbs with rfl | ⟨j, rfl⟩
        · exact .inl (shortest_of_not_single hwritable hsingle).symm
        · exact .inr ⟨j, (padded_of_not_single hwritable hsingle j).symm⟩

theorem decode_eq_ok_iff {bs : Bytes} {v : Int} :
    decode kind bs = .ok (v, bs.length) ↔
      Writable kind v ∧ (bs = shortest kind v ∨ ∃ j, bs = padded kind v j) := by
  constructor
  · exact eq_of_decode
  · rintro ⟨h, rfl | ⟨j, rfl⟩⟩
    · have hread := decode_shortest h []
      rwa [List.append_nil] at hread
    · exact decode_padded h j

/-! ### The shortest form -/

/-- A number is read from its own bytes, whatever follows them. -/
lemma decode_take_append {bs : Bytes} {v : Int} {n : Nat} (h : decode kind bs = .ok (v, n)) :
    n ≤ bs.length ∧ ∀ more, decode kind (bs.take n ++ more) = .ok (v, n) := by
  induction bs generalizing v n with
  | nil =>
    rw [decode_nil] at h
    exact nomatch h
  | cons b bs ih =>
    cases hb : continues b with
    | false =>
      rw [decode_of_last hb] at h
      obtain ⟨rfl, rfl⟩ : lastValue kind b = v ∧ 1 = n := by simpa using h
      exact ⟨Nat.succ_le_succ (Nat.zero_le _), fun more => decode_of_last hb more⟩
    | true =>
      rw [decode_of_continues hb, onTop_eq_ok_iff] at h
      obtain ⟨rest, n, hrest, rfl, rfl⟩ := h
      obtain ⟨hle, htake⟩ := ih hrest
      refine ⟨?_, ?_⟩
      · rw [List.length_cons]
        omega
      · intro more
        rw [Nat.add_comm, List.take_succ_cons, List.cons_append, decode_of_continues hb, htake,
          onTop, Nat.add_comm]

lemma length_padded (v : Int) (j : Nat) :
    (padded kind v j).length = (shortest kind v).length + (j + 1) := by
  rw [padded, List.length_append, length_continueLast, length_signGroups]

/-- Bytes that start with a number are its encoding, or longer than it. -/
theorem eq_shortest_or_lt {bs : Bytes} {v : Int} {n : Nat} (h : decode kind bs = .ok (v, n)) :
    bs = shortest kind v ∨ (shortest kind v).length < bs.length := by
  obtain ⟨hn, hmore⟩ := decode_take_append h
  have htake := hmore []
  rw [List.append_nil] at htake
  have hlength : (bs.take n).length = n := List.length_take_of_le hn
  have hform : decode kind (bs.take n) = .ok (v, (bs.take n).length) := by rw [htake, hlength]
  obtain ⟨-, hshortest | ⟨j, hpadded⟩⟩ := eq_of_decode hform
  · by_cases hall : n = bs.length
    · rw [hall, List.take_length] at hshortest
      exact .inl hshortest
    · rw [← hshortest, hlength]
      exact .inr (by omega)
  · have hlong := congrArg List.length hpadded
    rw [hlength, length_padded] at hlong
    exact .inr (by omega)

lemma padded_unsigned (v j : Nat) :
    padded .unsigned v j =
      continueLast (encodeUnsigned v) ++ List.replicate j 0x80 ++ [0x00] := by
  have hsign : signGroup v = 0x00 := if_neg (by omega)
  rw [padded, signGroups, hsign, ← List.append_assoc]
  rfl

lemma padded_signed (v : Int) (j : Nat) :
    padded .signed v j =
      if 0 ≤ v then continueLast (encodeSigned v) ++ List.replicate j 0x80 ++ [0x00]
      else continueLast (encodeSigned v) ++ List.replicate j 0xff ++ [0x7f] := by
  rw [padded, signGroups, ← List.append_assoc]
  by_cases hv : 0 ≤ v
  · have hsign : signGroup v = 0x00 := if_neg (by omega)
    rw [if_pos hv, hsign]
    rfl
  · have hsign : signGroup v = 0x7f := if_pos (by omega)
    rw [if_neg hv, hsign]
    rfl

/-- The bytes that are read as a number are its encoding, and this encoding continued by groups
that repeat its sign. So among all bytes that start with the number, its encoding is the only
shortest one. -/
theorem readings_are_paddings :
    (∀ (bs : Bytes) (v : Nat), decodeUnsigned bs = .ok (v, bs.length) ↔
      bs = encodeUnsigned v ∨
        ∃ j, bs = continueLast (encodeUnsigned v) ++ List.replicate j 0x80 ++ [0x00]) ∧
    (∀ (bs : Bytes) (v : Int), decodeSigned bs = .ok (v, bs.length) ↔
      bs = encodeSigned v ∨
        ∃ j, bs = if 0 ≤ v then continueLast (encodeSigned v) ++ List.replicate j 0x80 ++ [0x00]
          else continueLast (encodeSigned v) ++ List.replicate j 0xff ++ [0x7f]) ∧
    (∀ (bs : Bytes) (v n : Nat), decodeUnsigned bs = .ok (v, n) →
      bs = encodeUnsigned v ∨ (encodeUnsigned v).length < bs.length) ∧
    ∀ (bs : Bytes) (v : Int) (n : Nat), decodeSigned bs = .ok (v, n) →
      bs = encodeSigned v ∨ (encodeSigned v).length < bs.length := by
  refine ⟨?_, ?_, ?_, ?_⟩
  · intro bs v
    have hv : Writable .unsigned v := Int.natCast_nonneg v
    rw [decodeUnsigned_eq_ok_iff, decode_eq_ok_iff, and_iff_right hv]
    simp only [padded_unsigned]
    rfl
  · intro bs v
    have hv : Writable .signed v := trivial
    have hform : decode .signed bs = .ok (v, bs.length) ↔ _ := decode_eq_ok_iff
    rw [and_iff_right hv] at hform
    simp only [padded_signed] at hform
    exact hform
  · intro bs v n h
    exact eq_shortest_or_lt (decodeUnsigned_eq_ok_iff.mp h)
  · intro bs v n h
    have hdecode : decode .signed bs = .ok (v, n) := h
    exact eq_shortest_or_lt hdecode

/-- The encoding of `-64` has one byte. With two more groups, and something after them, it is
still read. -/
theorem readings_are_paddings_of_minus_64 :
    let bs : Bytes := [0xc0, 0xff, 0x7f]
    encodeSigned (-64) = [0x40] ∧ decodeSigned bs = .ok (-64, bs.length) ∧
      decodeSigned (bs ++ [0x01]) = .ok (-64, 3) ∧
      (encodeSigned (-64)).length < (bs ++ [0x01]).length := by
  intro bs
  have hshort : encodeSigned (-64) = [0x40] := by cbv
  have hread : decodeSigned (bs ++ [0x01]) = .ok (-64, 3) := by rfl
  obtain ⟨-, hforms, -, hshortest⟩ := readings_are_paddings
  refine ⟨hshort, (hforms bs (-64)).mpr (.inr ⟨1, ?_⟩), hread, ?_⟩
  · rw [hshort]
    decide
  · rcases hshortest _ _ _ hread with h | h
    · rw [hshort] at h
      exact absurd h (by decide)
    · exact h

end WasmBinary.Leb128
