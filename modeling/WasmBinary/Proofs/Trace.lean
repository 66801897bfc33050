import WasmBinary.Encode
import WasmBinary.Proofs.Leb128.Words

/-!
# Traces of writers

`Trace.of writer` is what a writer does on an empty sink without a limit: the bytes it writes and
how it ends. A writer is `Traced` if its trace decides what it does on every sink: it writes the
bytes of the trace as far as they fit, and ends as the trace says if all of them do. Writers put
together from traced ones are traced, and their traces are put together in the same way.
-/

namespace WasmBinary

open Encoder

/-- Errors of writers, among them that of a sink without room. -/
class SinkError (ε : Type) where
  full : ε

instance : SinkError Sink.Error := ⟨.full⟩

instance : SinkError EncodeError := ⟨.io .full⟩

/-- The bytes that a writer writes, and how it ends. -/
@[ext]
structure Trace (ε : Type) where
  bytes : Bytes
  outcome : Except ε Unit

namespace Trace

variable {ε : Type}

/-- What a writer does on an empty sink without a limit. -/
def of (writer : EStateM ε Sink Unit) : Trace ε :=
  match writer {} with
  | .ok _ s => ⟨s.bytes, .ok ()⟩
  | .error e s => ⟨s.bytes, .error e⟩

/-- Ends as the trace says. -/
def finish (t : Trace ε) (s : Sink) : EStateM.Result ε Sink Unit :=
  match t.outcome with
  | .ok _ => .ok () s
  | .error e => .error e s

/-- Does on a sink what the trace says, as far as there is room. -/
def replay [SinkError ε] (t : Trace ε) : EStateM ε Sink Unit := fun s =>
  match Sink.write t.bytes s with
  | .ok _ s => t.finish s
  | .error .full s => .error SinkError.full s

/-- The first trace, and the second one unless the first ends with an error. -/
instance : Append (Trace ε) where
  append t u :=
    match t.outcome with
    | .ok _ => ⟨t.bytes ++ u.bytes, u.outcome⟩
    | .error _ => t

/-- What there is to show for a trace: its bytes if all went well. -/
def image (t : Trace ε) : Except ε Bytes := t.outcome.map fun _ => t.bytes

lemma ok_append (bs : Bytes) (u : Trace ε) :
    (⟨bs, .ok ()⟩ : Trace ε) ++ u = ⟨bs ++ u.bytes, u.outcome⟩ := rfl

lemma error_append (bs : Bytes) (e : ε) (u : Trace ε) :
    (⟨bs, .error e⟩ : Trace ε) ++ u = ⟨bs, .error e⟩ := rfl

lemma outcome_append (t u : Trace ε) :
    (t ++ u).outcome = t.outcome.bind fun _ => u.outcome := by
  rcases t with ⟨bs, _ | _⟩ <;> rfl

lemma replay_unlimited [SinkError ε] (t : Trace ε) (held : ByteArray) :
    t.replay ⟨held, none⟩ = t.finish ⟨held ++ t.bytes, none⟩ := rfl

lemma replay_of_le [SinkError ε] {t : Trace ε} {room : Nat} (held : ByteArray)
    (h : t.bytes.length ≤ room) :
    t.replay ⟨held, some room⟩ =
      t.finish ⟨held ++ t.bytes, some (room - t.bytes.length)⟩ := by
  rw [replay, Sink.write_of_le held h]

lemma replay_of_lt [SinkError ε] {t : Trace ε} {room : Nat} (held : ByteArray)
    (h : room < t.bytes.length) :
    t.replay ⟨held, some room⟩ = .error SinkError.full ⟨held ++ t.bytes.take room, some 0⟩ := by
  rw [replay, Sink.write_of_lt held h]

lemma of_eq_of_run {writer : EStateM ε Sink Unit} {t : Trace ε}
    (h : writer {} = t.finish ⟨ByteArray.empty ++ t.bytes, none⟩) : of writer = t := by
  have hbytes : Sink.bytes ⟨ByteArray.empty ++ t.bytes, none⟩ = t.bytes :=
    Sink.bytes_append ByteArray.empty t.bytes none
  unfold of
  rw [h]
  rcases t with ⟨bs, e | _⟩ <;> simp only [finish, hbytes]

/-- A trace is that of its own replay. -/
lemma of_replay [SinkError ε] (t : Trace ε) : of t.replay = t :=
  of_eq_of_run (replay_unlimited t .empty)

lemma replay_append [SinkError ε] (t u : Trace ε) :
    (t ++ u).replay = (do t.replay; u.replay : EStateM ε Sink Unit) := by
  funext s
  change _ = EStateM.bind t.replay (fun _ => u.replay) s
  rcases t with ⟨as, e | _⟩
  · rw [error_append, EStateM.bind]
    unfold replay
    rcases Sink.write as s with ⟨_, s⟩ | ⟨⟨⟩, s⟩ <;> rfl
  · rw [ok_append, EStateM.bind]
    unfold replay
    rw [Sink.write_append]
    change (match EStateM.bind (Sink.write as) (fun _ => Sink.write u.bytes) s with
      | .ok _ s => u.finish s
      | .error .full s => .error SinkError.full s) = _
    rw [EStateM.bind]
    rcases Sink.write as s with ⟨_, s⟩ | ⟨⟨⟩, s⟩ <;> rfl

end Trace

/-- On every sink without a limit, the writer adds to what is there what it writes to an empty one,
and ends in the same way. -/
def Appends {ε : Type} (writer : EStateM ε Sink Unit) : Prop :=
  ∀ held : ByteArray,
    writer ⟨held, none⟩ = (Trace.of writer).finish ⟨held ++ (Trace.of writer).bytes, none⟩

namespace Appends

variable {ε : Type} {a b : EStateM ε Sink Unit}

lemma run_seq (ha : Appends a) (hb : Appends b) (held : ByteArray) :
    (do a; b) ⟨held, none⟩ = (Trace.of a ++ Trace.of b).finish
      ⟨held ++ (Trace.of a ++ Trace.of b).bytes, none⟩ := by
  change EStateM.bind a (fun _ => b) ⟨held, none⟩ = _
  rw [EStateM.bind, ha held]
  rcases Trace.of a with ⟨as, e | _⟩
  · rfl
  · rw [Trace.ok_append, Sink.append_append]
    exact hb (held ++ as)

theorem of_seq (ha : Appends a) (hb : Appends b) :
    Trace.of (do a; b) = Trace.of a ++ Trace.of b :=
  Trace.of_eq_of_run (ha.run_seq hb .empty)

theorem seq (ha : Appends a) (hb : Appends b) : Appends (do a; b) := by
  intro held
  rw [ha.of_seq hb]
  exact ha.run_seq hb held

end Appends

/-- On every sink, the writer does what its trace says. -/
def Traced {ε : Type} [SinkError ε] (writer : EStateM ε Sink Unit) : Prop :=
  writer = (Trace.of writer).replay

namespace Traced

variable {ε : Type} [SinkError ε]

lemma of_eq_replay {writer : EStateM ε Sink Unit} {t : Trace ε} (h : writer = t.replay) :
    Traced writer ∧ Trace.of writer = t := by
  have ht : Trace.of writer = t := by rw [h, Trace.of_replay]
  exact ⟨by rw [Traced, ht, h], ht⟩

lemma seq_eq_replay {a b : EStateM ε Sink Unit} (ha : Traced a) (hb : Traced b) :
    (do a; b) = (Trace.of a ++ Trace.of b).replay := by
  rw [Trace.replay_append, ← ha, ← hb]

theorem seq {a b : EStateM ε Sink Unit} (ha : Traced a) (hb : Traced b) : Traced (do a; b) :=
  (of_eq_replay (seq_eq_replay ha hb)).1

theorem of_seq {a b : EStateM ε Sink Unit} (ha : Traced a) (hb : Traced b) :
    Trace.of (do a; b) = Trace.of a ++ Trace.of b :=
  (of_eq_replay (seq_eq_replay ha hb)).2

lemma pure_eq_replay : (pure () : EStateM ε Sink Unit) = (⟨[], .ok ()⟩ : Trace ε).replay := by
  funext s
  rw [Trace.replay, Sink.write_nil]
  rfl

lemma throw_eq_replay (e : ε) :
    (throw e : EStateM ε Sink Unit) = (⟨[], .error e⟩ : Trace ε).replay := by
  funext s
  rw [Trace.replay, Sink.write_nil]
  rfl

lemma write_eq_replay (bs : Bytes) :
    Sink.write bs = (⟨bs, .ok ()⟩ : Trace Sink.Error).replay := by
  funext s
  rw [Trace.replay]
  rcases Sink.write bs s with ⟨_, s⟩ | ⟨⟨⟩, s⟩ <;> rfl

lemma emit_eq_replay (bs : Bytes) : emit bs = (⟨bs, .ok ()⟩ : Trace EncodeError).replay := by
  funext s
  change EStateM.adaptExcept EncodeError.io (Sink.write bs) s = _
  rw [Trace.replay, EStateM.adaptExcept]
  rcases Sink.write bs s with ⟨_, s⟩ | ⟨⟨⟩, s⟩ <;> rfl

lemma run_unlimited {writer : EStateM ε Sink Unit} (h : Traced writer) (held : ByteArray) :
    writer ⟨held, none⟩ = (Trace.of writer).finish ⟨held ++ (Trace.of writer).bytes, none⟩ :=
  (congrFun h _).trans (Trace.replay_unlimited _ held)

theorem appends {writer : EStateM ε Sink Unit} (h : Traced writer) : Appends writer :=
  h.run_unlimited

theorem pure : Traced (Pure.pure () : EStateM ε Sink Unit) := (of_eq_replay pure_eq_replay).1

theorem throw (e : ε) : Traced (MonadExcept.throw e : EStateM ε Sink Unit) :=
  (of_eq_replay (throw_eq_replay e)).1

theorem write (bs : Bytes) : Traced (Sink.write bs) := (of_eq_replay (write_eq_replay bs)).1

theorem emit (bs : Bytes) : Traced (Encoder.emit bs) := (of_eq_replay (emit_eq_replay bs)).1

end Traced

namespace Trace

lemma of_pure : of (pure () : Encoder Unit) = ⟨[], .ok ()⟩ :=
  (Traced.of_eq_replay Traced.pure_eq_replay).2

lemma of_throw (e : EncodeError) : of (throw e : Encoder Unit) = ⟨[], .error e⟩ :=
  (Traced.of_eq_replay (Traced.throw_eq_replay e)).2

lemma of_emit (bs : Bytes) : of (emit bs) = ⟨bs, .ok ()⟩ :=
  (Traced.of_eq_replay (Traced.emit_eq_replay bs)).2

lemma image_of (encoder : Encoder Unit) : (of encoder).image = encoder.image := by
  unfold of Encoder.image
  rcases encoder {} with ⟨_, s⟩ | ⟨e, s⟩ <;> rfl

end Trace

namespace Encoder

lemma image_eq_ok_iff {encoder : Encoder Unit} {bs : Bytes} :
    encoder.image = .ok bs ↔ Trace.of encoder = ⟨bs, .ok ()⟩ := by
  rw [← Trace.image_of]
  rcases Trace.of encoder with ⟨as, e | _⟩ <;> simp [Trace.image, Except.map]

lemma image_eq_error_iff {encoder : Encoder Unit} {e : EncodeError} :
    encoder.image = .error e ↔ (Trace.of encoder).outcome = .error e := by
  rw [← Trace.image_of]
  rcases Trace.of encoder with ⟨as, e' | _⟩ <;> simp [Trace.image, Except.map]

lemma image_seq_of_appends {a b : Encoder Unit} (ha : Appends a) (hb : Appends b) {bs : Bytes} :
    image (do a; b) = .ok bs ↔ ∃ as cs, a.image = .ok as ∧ b.image = .ok cs ∧ bs = as ++ cs := by
  simp only [image_eq_ok_iff, ha.of_seq hb]
  rcases Trace.of a with ⟨as, e | ⟨⟨⟩⟩⟩
  · simp [Trace.error_append]
  · rcases Trace.of b with ⟨cs, e | ⟨⟨⟩⟩⟩
    · simp [Trace.ok_append]
    · simp [Trace.ok_append, eq_comm]

/-- The bytes of two encoders one after the other are those of the first and those of the
second. -/
theorem image_seq {a b : Encoder Unit} (ha : Traced a) (hb : Traced b) {bs : Bytes} :
    image (do a; b) = .ok bs ↔ ∃ as cs, a.image = .ok as ∧ b.image = .ok cs ∧ bs = as ++ cs :=
  image_seq_of_appends ha.appends hb.appends

lemma buffered_eq (encoder : Encoder Unit) (s : Sink) :
    buffered encoder s = match encoder.image with
      | .ok bs => .ok bs.toByteArray s
      | .error e => .error e s := by
  unfold buffered image
  rcases encoder {} with ⟨_, inner⟩ | ⟨e, inner⟩
  · dsimp only
    rw [Sink.bytes, Sink.toByteArray_toList]
  · rfl

/-- A buffered encoder is opened by its image: nothing reaches the sink before it is complete. -/
lemma buffered_bind (encoder : Encoder Unit) (next : ByteArray → Encoder Unit) :
    (do let buffer ← buffered encoder; next buffer) =
      match encoder.image with
      | .ok bs => next bs.toByteArray
      | .error e => throw e := by
  funext s
  change EStateM.bind (buffered encoder) next s = _
  rw [EStateM.bind, buffered_eq]
  rcases encoder.image with e | bs <;> rfl

lemma emitBuffer_toByteArray (bs : Bytes) : emitBuffer bs.toByteArray = emit bs := rfl

lemma emitSized_toByteArray (bs : Bytes) :
    emitSized bs.toByteArray = (do emitLength bs.length; emit bs) := by
  rw [emitSized, List.size_toByteArray]
  rfl

lemma emitLength_of_lt {n : Nat} (h : n < UInt32.size) :
    emitLength n = emit (Leb128.encodeUnsigned n) := by
  rw [emitLength, if_pos h, Leb128.writeUnsigned_eq_write, BitVec.toNat_ofNat, Nat.mod_eq_of_lt h]
  rfl

lemma emitLength_of_le {n : Nat} (h : UInt32.size ≤ n) :
    emitLength n = throw (.lengthOverflow n) := by
  rw [emitLength, if_neg (by omega)]

end Encoder

end WasmBinary
