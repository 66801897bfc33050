/-!
# Byte sinks

A `Sink` keeps the bytes written to it as long as it has room. A write that does not fit keeps
what fits and fails; the sink stays usable, so a stream of writers can go on after an error.

Bytes are held in a buffer. What is proved of them is stated for lists of bytes.

## Main statements

* `Sink.write_of_le`, `Sink.write_of_lt`: a write with enough room and one without.
* `Sink.write_append`: two writes one after the other keep what one write of both keeps.
-/

namespace WasmBinary

abbrev Bytes := List UInt8

/-- A buffer with bytes added to it. -/
instance : HAppend ByteArray Bytes ByteArray := ⟨fun held bs => held ++ bs.toByteArray⟩

/-- The bytes written so far, and the number of bytes that can still be written; without a
`room` there is no limit. -/
structure Sink where
  held : ByteArray := .empty
  room : Option Nat := none

namespace Sink

/-- The reason why a sink fails. -/
inductive Error where
  /-- A write needs more room than the sink has left. -/
  | full
  deriving DecidableEq, Repr

def Error.message : Error → String
  | .full => "failed to write whole buffer"

abbrev Writer := EStateM Error Sink

def bytes (s : Sink) : Bytes := s.held.data.toList

/-- Writes a buffer, or as much of it as there is room for. -/
def writeBuffer (buffer : ByteArray) : Writer Unit
  | ⟨held, none⟩ => .ok () ⟨held ++ buffer, none⟩
  | ⟨held, some room⟩ =>
    if buffer.size ≤ room then .ok () ⟨held ++ buffer, some (room - buffer.size)⟩
    else .error .full ⟨held ++ buffer.extract 0 room, some 0⟩

def write (bs : Bytes) : Writer Unit := writeBuffer bs.toByteArray

/-! ### Buffers and lists -/

@[simp]
theorem toByteArray_toList (buffer : ByteArray) : buffer.data.toList.toByteArray = buffer :=
  ByteArray.ext (by simp)

theorem extract_toByteArray (bs : Bytes) (n : Nat) :
    bs.toByteArray.extract 0 n = (bs.take n).toByteArray :=
  ByteArray.ext (by simp)

@[simp]
theorem append_nil (held : ByteArray) : held ++ ([] : Bytes) = held := ByteArray.append_empty

theorem append_append (held : ByteArray) (as bs : Bytes) :
    held ++ (as ++ bs) = held ++ as ++ bs := by
  change held ++ (as ++ bs).toByteArray = held ++ as.toByteArray ++ bs.toByteArray
  rw [List.toByteArray_append, ByteArray.append_assoc]

theorem empty_append (bs : Bytes) : ByteArray.empty ++ bs = bs.toByteArray := ByteArray.empty_append

@[simp]
theorem bytes_append (held : ByteArray) (bs : Bytes) (room : Option Nat) :
    bytes ⟨held ++ bs, room⟩ = held.data.toList ++ bs := by
  change (held ++ bs.toByteArray).data.toList = _
  simp

/-! ### Writes -/

theorem write_unlimited (bs : Bytes) (held : ByteArray) :
    write bs ⟨held, none⟩ = .ok () ⟨held ++ bs, none⟩ := rfl

theorem write_of_le {bs : Bytes} {room : Nat} (held : ByteArray) (h : bs.length ≤ room) :
    write bs ⟨held, some room⟩ = .ok () ⟨held ++ bs, some (room - bs.length)⟩ := by
  rw [← List.size_toByteArray] at h ⊢
  rw [write, writeBuffer, if_pos h]
  rfl

theorem write_of_lt {bs : Bytes} {room : Nat} (held : ByteArray) (h : room < bs.length) :
    write bs ⟨held, some room⟩ = .error .full ⟨held ++ bs.take room, some 0⟩ := by
  rw [← List.size_toByteArray] at h
  rw [write, writeBuffer, if_neg (by omega), extract_toByteArray]
  rfl

/-- Writing nothing succeeds on every sink, a full one too. -/
@[simp]
theorem write_nil (s : Sink) : write [] s = .ok () s := by
  rcases s with ⟨held, _ | room⟩
  · rw [write_unlimited, append_nil]
  · rw [write_of_le held (Nat.zero_le room), append_nil]
    rfl

/-- Two writes one after the other keep what one write of both keeps. -/
theorem write_append (as bs : Bytes) (s : Sink) :
    write (as ++ bs) s = (do write as; write bs : Writer Unit) s := by
  change _ = EStateM.bind (write as) (fun _ => write bs) s
  have hlen : (as ++ bs).length = as.length + bs.length := List.length_append
  rcases s with ⟨held, _ | room⟩
  · simp only [EStateM.bind, write_unlimited, append_append]
  · by_cases ha : as.length ≤ room
    · by_cases hb : bs.length ≤ room - as.length
      · have hab : (as ++ bs).length ≤ room := by omega
        simp only [EStateM.bind, write_of_le held ha, write_of_le _ hb, write_of_le held hab, hlen,
          append_append, Nat.sub_sub]
      · have hb : room - as.length < bs.length := by omega
        have hab : room < (as ++ bs).length := by omega
        simp only [EStateM.bind, write_of_le held ha, write_of_lt _ hb, write_of_lt held hab,
          List.take_append, List.take_of_length_le ha, append_append]
    · have ha : room < as.length := by omega
      have hab : room < (as ++ bs).length := by omega
      have hsub : room - as.length = 0 := by omega
      simp only [EStateM.bind, write_of_lt held ha, write_of_lt held hab, List.take_append, hsub,
        List.take_zero, List.append_nil]

/-- How one writer of a stream ended, and the size of the sink after it. -/
structure Step (ε : Type) where
  outcome : Except ε Unit
  size : Nat

/-- Runs writers one after another on one sink, going on after errors. -/
def stream {ε : Type} : List (EStateM ε Sink Unit) → Sink → List (Step ε) × Sink
  | [], s => ([], s)
  | writer :: writers, s =>
    match writer s with
    | .ok _ s =>
      let size := s.held.size
      let (steps, last) := stream writers s
      (⟨.ok (), size⟩ :: steps, last)
    | .error e s =>
      let size := s.held.size
      let (steps, last) := stream writers s
      (⟨.error e, size⟩ :: steps, last)

end Sink

end WasmBinary
