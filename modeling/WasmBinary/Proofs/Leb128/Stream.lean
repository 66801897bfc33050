import WasmBinary.Leb128.Number
import WasmBinary.Proofs.Leb128.RoundTrip

/-!
# Streams of numbers

Numbers written one after another are read back one after another. In a stream that is cut off
somewhere, the numbers in front of the cut are read back, and the one that is cut is noticed.
-/

namespace WasmBinary.Leb128

/-! ### Bytes that all continue -/

lemma decode_of_all_continue {kind : Signedness} {bs : Bytes} (h : ∀ b ∈ bs, continues b = true) :
    decode kind bs = .error (.unexpectedEnd bs.length) := by
  induction bs with
  | nil => exact decode_nil kind
  | cons b bs ih =>
    obtain ⟨hb, hbs⟩ := List.forall_mem_cons.mp h
    rw [decode_of_continues hb, ih hbs, onTop, List.length_cons, Nat.add_comm]

/-- All bytes of an encoding but the last have the continuation bit set. -/
lemma exists_groups {kind : Signedness} {v : Int} (h : Writable kind v) :
    ∃ groups last, shortest kind v = groups ++ [last] ∧ (∀ b ∈ groups, continues b = true) ∧
      continues last = false := by
  induction v, h using Writable.induction with
  | single v h hv =>
    exact ⟨[], _, shortest_of_single h hv, List.forall_mem_nil _, continues_lowGroupSigned v⟩
  | more v h hv ih =>
    obtain ⟨groups, last, hbytes, hgroups, hlast⟩ := ih
    refine ⟨continued (lowGroupSigned v) :: groups, last, ?_, ?_, hlast⟩
    · rw [shortest_of_not_single h hv, hbytes, List.cons_append]
    · exact List.forall_mem_cons.mpr ⟨continues_continued _, hgroups⟩

lemma continues_of_mem_take {kind : Signedness} {v : Int} (h : Writable kind v) {k : Nat}
    (hk : k < (shortest kind v).length) : ∀ b ∈ (shortest kind v).take k, continues b = true := by
  obtain ⟨groups, last, hbytes, hgroups, -⟩ := exists_groups h
  rw [hbytes, List.length_append, List.length_singleton] at hk
  rw [hbytes, List.take_append_of_le_length (Nat.le_of_lt_succ hk)]
  intro b hb
  exact hgroups b (List.mem_of_mem_take hb)

lemma decodeStream_of_all_continue (kinds : List Signedness) {bs : Bytes}
    (h : ∀ b ∈ bs, continues b = true) :
    decodeStream kinds bs =
      (List.replicate kinds.length (.error (.unexpectedEnd bs.length)), bs) := by
  induction kinds with
  | nil => rfl
  | cons kind kinds ih =>
    rw [decodeStream, decode_of_all_continue h]
    dsimp only
    rw [ih, List.length_cons, List.replicate_succ]

/-! ### Streams -/

namespace Number

lemma writable (number : Number) : Writable number.kind number.value := by
  cases number with
  | unsignedWord w word => exact Int.natCast_nonneg word.toNat
  | natural n => exact Int.natCast_nonneg n
  | signedWord w word => trivial
  | integer v => trivial

lemma encoding_eq_shortest (number : Number) :
    number.encoding = shortest number.kind number.value := by
  cases number <;> rfl

/-- What is read where the encoding of a number stands. -/
def reading (number : Number) : Except DecodeError (Int × Nat) :=
  .ok (number.value, number.encoding.length)

/-- The encodings of numbers one after another. -/
def encodings (numbers : List Number) : Bytes := numbers.flatMap encoding

lemma encodings_cons (number : Number) (numbers : List Number) :
    encodings (number :: numbers) = number.encoding ++ encodings numbers := List.flatMap_cons

lemma encodings_append (as bs : List Number) :
    encodings (as ++ bs) = encodings as ++ encodings bs := List.flatMap_append

lemma decode_encoding (number : Number) (rest : Bytes) :
    decode number.kind (number.encoding ++ rest) = number.reading := by
  rw [reading, encoding_eq_shortest]
  exact decode_shortest number.writable rest

/-- Whatever is to be read after a stream of numbers is read from what follows it. -/
theorem decodeStream_encodings (numbers : List Number) (kinds : List Signedness) (rest : Bytes) :
    decodeStream (numbers.map kind ++ kinds) (encodings numbers ++ rest) =
      (numbers.map reading ++ (decodeStream kinds rest).1, (decodeStream kinds rest).2) := by
  induction numbers with
  | nil => rfl
  | cons number numbers ih =>
    rw [List.map_cons, List.cons_append, encodings_cons, List.append_assoc, decodeStream,
      decode_encoding, reading]
    dsimp only
    rw [List.drop_left, ih]
    rfl

/-- The number in whose encoding a stream is cut. -/
lemma exists_cut {numbers : List Number} {p : Nat} (h : p < (encodings numbers).length) :
    ∃ before number after, numbers = before ++ number :: after ∧ (encodings before).length ≤ p ∧
      p - (encodings before).length < number.encoding.length := by
  induction numbers generalizing p with
  | nil => exact absurd h (Nat.not_lt_zero p)
  | cons first numbers ih =>
    rw [encodings_cons, List.length_append] at h
    by_cases hp : p < first.encoding.length
    · exact ⟨[], first, numbers, rfl, Nat.zero_le p, hp⟩
    · have hrest : p - first.encoding.length < (encodings numbers).length := by omega
      obtain ⟨before, number, after, rfl, hbefore, hnumber⟩ := ih hrest
      refine ⟨first :: before, number, after, rfl, ?_, ?_⟩
      · rw [encodings_cons, List.length_append]
        omega
      · rw [encodings_cons, List.length_append, ← Nat.sub_sub]
        exact hnumber

lemma decodeStream_cut (before after : List Number) (number : Number) {k : Nat}
    (hk : k < number.encoding.length) :
    decodeStream ((before ++ number :: after).map kind)
        (encodings before ++ number.encoding.take k) =
      (before.map reading ++ List.replicate (after.length + 1) (.error (.unexpectedEnd k)),
        number.encoding.take k) := by
  have hlength : (number.encoding.take k).length = k := List.length_take_of_le (Nat.le_of_lt hk)
  have hcontinue : ∀ b ∈ number.encoding.take k, continues b = true := by
    rw [encoding_eq_shortest] at hk ⊢
    exact continues_of_mem_take number.writable hk
  rw [List.map_append, decodeStream_encodings, decodeStream_of_all_continue _ hcontinue, hlength,
    List.length_map, List.length_cons]

/-- A stream of numbers is read back number by number, and nothing of what follows it is touched.
If it is cut off, the numbers in front of the cut are read back. The next one is found to be
incomplete, with as many bytes of it as there are in front of the cut, and so are all that should
follow. -/
theorem stream_read_back (numbers : List Number) :
    (∀ rest, decodeStream (numbers.map kind) (encodings numbers ++ rest) =
      (numbers.map reading, rest)) ∧
    ∀ p < (encodings numbers).length, ∃ before number after,
      numbers = before ++ number :: after ∧ (encodings before).length ≤ p ∧
      p < (encodings (before ++ [number])).length ∧
      let left := p - (encodings before).length
      decodeStream (numbers.map kind) ((encodings numbers).take p) =
        (before.map reading ++ List.replicate (after.length + 1) (.error (.unexpectedEnd left)),
          number.encoding.take left) := by
  refine ⟨?_, ?_⟩
  · intro rest
    have h := decodeStream_encodings numbers [] rest
    rwa [List.append_nil, decodeStream, List.append_nil] at h
  · intro p hp
    obtain ⟨before, number, after, rfl, hbefore, hnumber⟩ := exists_cut hp
    have hcut : (encodings (before ++ number :: after)).take p =
        encodings before ++ number.encoding.take (p - (encodings before).length) := by
      rw [encodings_append, encodings_cons, List.take_append, List.take_of_length_le hbefore,
        List.take_append_of_le_length (Nat.le_of_lt hnumber)]
    refine ⟨before, number, after, rfl, hbefore, ?_, ?_⟩
    · rw [encodings_append, List.length_append, encodings_cons, List.length_append]
      omega
    · rw [hcut]
      exact decodeStream_cut before after number hnumber

/-- The second of three numbers is cut after the first of its two bytes. -/
theorem stream_read_back_cut_in_second :
    let numbers : List Number := [.natural 300, .integer 64, .natural 5]
    encodings numbers = [0xac, 0x02, 0xc0, 0x00, 0x05] ∧ 3 < (encodings numbers).length ∧
      decodeStream (numbers.map kind) (encodings numbers ++ [0xff]) =
        ([.ok (300, 2), .ok (64, 2), .ok (5, 1)], [0xff]) ∧
      decodeStream (numbers.map kind) ((encodings numbers).take 3) =
        ([.ok (300, 2), .error (.unexpectedEnd 1), .error (.unexpectedEnd 1)], [0xc0]) := by
  intro numbers
  have hfirst : (Number.natural 300).encoding = [0xac, 0x02] := by cbv
  have hsecond : (Number.integer 64).encoding = [0xc0, 0x00] := by cbv
  have hthird : (Number.natural 5).encoding = [0x05] := by cbv
  have hall : encodings numbers = [0xac, 0x02, 0xc0, 0x00, 0x05] := by
    simp [numbers, encodings, hfirst, hsecond, hthird]
  have hcut : 3 < (encodings numbers).length := by
    rw [hall]
    decide
  obtain ⟨hwhole, hcuts⟩ := stream_read_back numbers
  refine ⟨hall, hcut, ?_, ?_⟩
  · rw [hwhole]
    simp [numbers, reading, value, hfirst, hsecond, hthird]
  · obtain ⟨before, number, after, hsplit, hbefore, hnumber, hdecode⟩ := hcuts 3 hcut
    have hsecond_cut : before = [.natural 300] ∧ number = .integer 64 ∧ after = [.natural 5] := by
      rcases before with _ | ⟨first, _ | ⟨second, before⟩⟩ <;>
        simp only [numbers, List.nil_append, List.cons_append, List.cons.injEq] at hsplit
      · obtain ⟨rfl, -⟩ := hsplit
        rw [List.nil_append, encodings_cons, hfirst] at hnumber
        exact absurd hnumber (by decide)
      · obtain ⟨rfl, rfl, rfl⟩ := hsplit
        exact ⟨rfl, rfl, rfl⟩
      · obtain ⟨rfl, rfl, -⟩ := hsplit
        rw [encodings_cons, encodings_cons, hfirst, hsecond, ← List.append_assoc,
          List.length_append] at hbefore
        have hfour : ([0xac, 0x02] ++ [0xc0, 0x00] : Bytes).length = 4 := rfl
        omega
    obtain ⟨rfl, rfl, rfl⟩ := hsecond_cut
    rw [hdecode]
    simp [reading, value, encodings, hfirst, hsecond]

end Number

end WasmBinary.Leb128
