import WasmBinary.Leb128.Number
import WasmBinary.Proofs.Check.Node

/-!
# Sinks that run full

A sink with a limit truncates: of writers run one after another it keeps the first bytes of what
they write without a limit. A writer ends as it does without a limit if all of its bytes fit, and
with the error of the full sink otherwise.
-/

namespace WasmBinary

namespace Sink

section Stream

variable {ε : Type} [SinkError ε]

/-- How a writer with the trace `t` ends on a sink with room for `room` more bytes. -/
def outcomeIn (room : Nat) (t : Trace ε) : Except ε Unit :=
  if t.bytes.length ≤ room then t.outcome else .error SinkError.full

/-- Everything that writers write without a limit. -/
def written (writers : List (EStateM ε Sink Unit)) : Bytes :=
  writers.flatMap fun writer => (Trace.of writer).bytes

omit [SinkError ε] in
lemma written_cons (writer : EStateM ε Sink Unit) (writers : List (EStateM ε Sink Unit)) :
    written (writer :: writers) = (Trace.of writer).bytes ++ written writers :=
  List.flatMap_cons

omit [SinkError ε] in
lemma length_le_written {writer : EStateM ε Sink Unit} {writers : List (EStateM ε Sink Unit)}
    (h : writer ∈ writers) : (Trace.of writer).bytes.length ≤ (written writers).length := by
  induction h with
  | head writers => simp [written_cons]
  | tail other _ ih =>
    rw [written_cons, List.length_append]
    omega

lemma stream_cons {writer : EStateM ε Sink Unit} (h : Traced writer)
    (writers : List (EStateM ε Sink Unit)) (held : ByteArray) (room : Nat) :
    let t := Trace.of writer
    let after : Sink := ⟨held ++ t.bytes.take room, some (room - t.bytes.length)⟩
    stream (writer :: writers) ⟨held, some room⟩ =
      (⟨outcomeIn room t, after.held.size⟩ :: (stream writers after).1,
        (stream writers after).2) := by
  dsimp only
  rw [stream, h, Trace.of_replay, outcomeIn]
  by_cases hfit : (Trace.of writer).bytes.length ≤ room
  · rw [Trace.replay_of_le held hfit, if_pos hfit, List.take_of_length_le hfit, Trace.finish]
    cases (Trace.of writer).outcome <;> rfl
  · have hlt : room < (Trace.of writer).bytes.length := Nat.lt_of_not_le hfit
    rw [Trace.replay_of_lt held hlt, if_neg hfit, Nat.sub_eq_zero_of_le (Nat.le_of_lt hlt)]

theorem stream_sink {writers : List (EStateM ε Sink Unit)}
    (h : ∀ writer ∈ writers, Traced writer) (held : ByteArray) (room : Nat) :
    (stream writers ⟨held, some room⟩).2 =
      ⟨held ++ (written writers).take room, some (room - (written writers).length)⟩ := by
  induction writers generalizing held room with
  | nil => simp [stream, written]
  | cons writer writers ih =>
    have hrest := ih (fun w hw => h w (List.mem_cons_of_mem _ hw))
    rw [stream_cons (h writer List.mem_cons_self)]
    dsimp only
    rw [hrest, written_cons, List.take_append, List.length_append, Nat.sub_sub, append_append]

/-- A step of a stream ends as without a limit exactly if it writes nothing or if everything
written up to it fits. -/
theorem stream_outcome {writers : List (EStateM ε Sink Unit)}
    (h : ∀ writer ∈ writers, Traced writer) (held : ByteArray) (room i : Nat)
    (hi : i < writers.length) :
    (stream writers ⟨held, some room⟩).1[i]?.map Step.outcome =
      some (if (Trace.of writers[i]).bytes = [] ∨ (written (writers.take (i + 1))).length ≤ room
        then (Trace.of writers[i]).outcome else .error SinkError.full) := by
  induction writers generalizing held room i with
  | nil => exact absurd hi (Nat.not_lt_zero i)
  | cons writer writers ih =>
    rw [stream_cons (h writer List.mem_cons_self)]
    cases i with
    | zero =>
      have hiff : ((Trace.of writer).bytes = [] ∨ (written [writer]).length ≤ room) ↔
          (Trace.of writer).bytes.length ≤ room := by
        constructor
        · rintro (hnil | hle)
          · simp [hnil]
          · simpa [written] using hle
        · intro hle
          exact .inr (by simpa [written] using hle)
      simp [outcomeIn, hiff]
    | succ i =>
      have hi' : i < writers.length := Nat.lt_of_succ_lt_succ hi
      have hrest := ih (fun w hw => h w (List.mem_cons_of_mem _ hw))
        (held ++ (Trace.of writer).bytes.take room) (room - (Trace.of writer).bytes.length) i hi'
      -- A step that writes something is itself part of what has to fit.
      have hpart :
          (Trace.of writers[i]).bytes.length ≤ (written (writers.take (i + 1))).length := by
        apply length_le_written
        rw [List.take_succ_eq_append_getElem hi']
        exact List.mem_append_right _ List.mem_cons_self
      have hiff : ((Trace.of writers[i]).bytes = [] ∨
            (written (writers.take (i + 1))).length ≤ room - (Trace.of writer).bytes.length) ↔
          ((Trace.of writers[i]).bytes = [] ∨
            (written ((writer :: writers).take (i + 1 + 1))).length ≤ room) := by
        rw [List.take_succ_cons, written_cons, List.length_append]
        by_cases hnil : (Trace.of writers[i]).bytes = []
        · simp [hnil]
        · have hpos := List.length_pos_iff.mpr hnil
          simp only [hnil, false_or]
          omega
      dsimp only
      rw [List.getElem?_cons_succ, hrest]
      simp only [List.getElem_cons_succ, hiff]

/-- Sinks that already hold something truncate what the writers write: they keep the first bytes
of it, and the writers whose bytes are not all kept end with the error of the full sink. -/
def Truncates (writers : List (EStateM ε Sink Unit)) : Prop :=
  ∀ (held : Bytes) (capacity : Nat), held.length ≤ capacity →
    let result := stream writers ⟨held.toByteArray, some (capacity - held.length)⟩
    result.2.bytes = held ++ (written writers).take (capacity - held.length) ∧
    ∀ (i : Nat) (hi : i < writers.length),
      result.1[i]?.map Step.outcome =
        some (if (Trace.of writers[i]).bytes = [] ∨
            held.length + (written (writers.take (i + 1))).length ≤ capacity
          then (Trace.of writers[i]).outcome else .error SinkError.full)

theorem truncates_of_traced {writers : List (EStateM ε Sink Unit)}
    (h : ∀ writer ∈ writers, Traced writer) : Truncates writers := by
  intro held capacity hheld
  have hroom : ∀ n, n ≤ capacity - held.length ↔ held.length + n ≤ capacity := by
    intro n
    omega
  refine ⟨?_, ?_⟩
  · rw [stream_sink h, bytes_append, List.data_toByteArray]
  · intro i hi
    rw [stream_outcome h _ _ i hi]
    simp only [hroom]

end Stream

end Sink

/-! ### Nodes and numbers -/

namespace Leb128.Number

lemma exists_writeSigned_eq_write {w : Nat} (word : BitVec w) :
    ∃ bs, writeSigned word = Sink.write bs := by
  fun_induction writeSigned word with
  | case1 word group h => exact ⟨_, rfl⟩
  | case2 word group h ih =>
    obtain ⟨bs, hbs⟩ := ih
    rw [hbs, write_then_write]
    exact ⟨_, rfl⟩

lemma exists_write_eq (number : Number) : ∃ bs, number.write = Sink.write bs := by
  cases number with
  | unsignedWord w word => exact ⟨_, writeUnsigned_eq_write word⟩
  | signedWord w word => exact exists_writeSigned_eq_write word
  | natural n => exact ⟨_, rfl⟩
  | integer v => exact ⟨_, rfl⟩

lemma traced (number : Number) : Traced number.write := by
  obtain ⟨bs, hbs⟩ := number.exists_write_eq
  rw [hbs]
  exact Traced.write bs

end Leb128.Number

inductive Item where
  | node (node : Node)
  | number (number : Leb128.Number)

namespace Item

def write : Item → Encoder Unit
  | .node x => encode x
  | .number x => x.write

lemma traced (item : Item) : Traced item.write := by
  cases item with
  | node x => exact (checking x).traced
  | number x =>
    obtain ⟨bs, hbs⟩ := x.exists_write_eq
    rw [write, hbs]
    exact Traced.emit bs

end Item

lemma Check.verdict_ne_io (cs : List Check) (cause : Sink.Error) :
    verdict cs ≠ .error (.io cause) := by
  induction cs with
  | nil => exact fun h => nomatch h
  | cons c cs ih =>
    by_cases h : c.Holds
    · rw [verdict_cons_of_holds h]
      exact ih
    · rw [verdict_cons_of_not_holds h]
      cases c <;> exact fun h => nomatch h

/-- A full sink truncates every stream of nodes and numbers. Without a limit, no node or number
ends with an error of the sink. Words written byte by byte leave the same as the numbers they
stand for, which are written at once. -/
theorem stream_truncates :
    (∀ items : List Item, Sink.Truncates (items.map Item.write)) ∧
    (∀ numbers : List Leb128.Number, Sink.Truncates (numbers.map Leb128.Number.write)) ∧
    (∀ (item : Item) (cause : Sink.Error), (Trace.of item.write).outcome ≠ .error (.io cause)) ∧
    ∀ (w : Nat) (word : BitVec w), 8 ≤ w →
      (Leb128.Number.unsignedWord w word).write = (Leb128.Number.natural word.toNat).write ∧
      (Leb128.Number.signedWord w word).write = (Leb128.Number.integer word.toInt).write := by
  refine ⟨?_, ?_, ?_, ?_⟩
  · intro items
    apply Sink.truncates_of_traced
    intro writer hwriter
    obtain ⟨item, -, rfl⟩ := List.mem_map.mp hwriter
    exact item.traced
  · intro numbers
    apply Sink.truncates_of_traced
    intro writer hwriter
    obtain ⟨number, -, rfl⟩ := List.mem_map.mp hwriter
    exact number.traced
  · intro item cause
    cases item with
    | node x =>
      rw [Item.write, (checking x).outcome]
      exact Check.verdict_ne_io _ cause
    | number x =>
      obtain ⟨bs, hbs⟩ := x.exists_write_eq
      have hok : (Trace.of (Item.number x).write).outcome = .ok () := by
        rw [Item.write, hbs]
        exact congrArg Trace.outcome (Trace.of_emit bs)
      rw [hok]
      exact fun h => nomatch h
  · intro w word hw
    exact ⟨Leb128.writeUnsigned_eq_write word, Leb128.writeSigned_eq_write (by omega) word⟩

/-- Of a number that takes two bytes a sink with room for one keeps one. The block type after it
writes nothing and fails for its own reason. -/
theorem stream_truncates_at_one_byte :
    let items : List Item := [.number (.natural 300), .node (.blockType ⟨[.i32, .i64]⟩)]
    let result := Sink.stream (items.map Item.write) ⟨⟨#[0xff]⟩, some 1⟩
    [(0xff : UInt8)].length ≤ 2 ∧ result.2.bytes = [0xff, 0xac] ∧
      result.1[0]?.map Sink.Step.outcome = some (.error (.io .full)) ∧
      result.1[1]?.map Sink.Step.outcome = some (.error (.multiValueResult 2)) := by
  let items : List Item := [.number (.natural 300), .node (.blockType ⟨[.i32, .i64]⟩)]
  have hnumber : Trace.of (Item.number (.natural 300)).write = ⟨[0xac, 0x02], .ok ()⟩ := by
    have hbytes : Leb128.encodeUnsigned 300 = [0xac, 0x02] := by
      rw [Leb128.encodeUnsigned_of_le (by decide), Leb128.encodeUnsigned_of_lt (by decide)]
      decide
    rw [← hbytes]
    exact Trace.of_emit _
  have htype : Trace.of (Item.node (.blockType ⟨[.i32, .i64]⟩)).write =
      ⟨[], .error (.multiValueResult 2)⟩ := Trace.of_throw _
  obtain ⟨hsink, hsteps⟩ := stream_truncates.1 items [0xff] 2 (by decide)
  refine ⟨by decide, ?_, ?_, ?_⟩
  · refine hsink.trans ?_
    simp [items, Sink.written, hnumber, htype]
  · refine (hsteps 0 (by decide)).trans ?_
    simp [items, Sink.written, hnumber]
    rfl
  · refine (hsteps 1 (by decide)).trans ?_
    simp [items, htype]

end WasmBinary
