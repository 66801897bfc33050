import WasmBinary.Leb128.Word
import WasmBinary.Proofs.Leb128.Step

/-!
# Loops that write groups

A number is written in rounds. A round takes the lowest group off the number, writes it, and leaves
the rest to the next round or ends the loop. Loops over different representations of a number write
the same if each of their rounds does.
-/

namespace WasmBinary.Leb128

/-- What a round does: the byte that it writes, and the rest that it leaves to the next round if it
is not the last one. -/
structure Round (α : Type) where
  byte : UInt8
  rest : Option α

namespace Round

variable {α β : Type}

def map (f : α → β) (round : Round α) : Round β := ⟨round.byte, round.rest.map f⟩

/-- Writes the byte of a round and goes on with the rest. -/
def write (next : α → Sink.Writer Unit) : Round α → Sink.Writer Unit
  | ⟨b, none⟩ => Sink.write [b]
  | ⟨b, some rest⟩ => do
    Sink.write [b]
    next rest

end Round

/-- A loop that starts with a value ends after finitely many rounds, which write these bytes. -/
inductive Loop {α : Type} (round : α → Round α) : α → Bytes → Prop
  | last {a : α} {b : UInt8} (h : round a = ⟨b, none⟩) : Loop round a [b]
  | more {a rest : α} {b : UInt8} {bs : Bytes} (h : round a = ⟨b, some rest⟩)
      (hrest : Loop round rest bs) : Loop round a (b :: bs)

lemma write_then_write (as bs : Bytes) :
    (do Sink.write as; Sink.write bs : Sink.Writer Unit) = Sink.write (as ++ bs) :=
  funext fun s => (Sink.write_append as bs s).symm

namespace Loop

variable {α β : Type} {round : α → Round α} {round' : β → Round β} {a : α} {bs bs' : Bytes}

lemma unique (h : Loop round a bs) (h' : Loop round a bs') : bs = bs' := by
  induction h generalizing bs' with
  | last hround =>
    cases h' with
    | last hround' => rw [(Round.mk.inj (hround.symm.trans hround')).1]
    | more hround' _ => exact nomatch hround.symm.trans hround'
  | more hround _ ih =>
    cases h' with
    | last hround' => exact nomatch hround.symm.trans hround'
    | more hround' hrest' =>
      obtain ⟨rfl, hrest⟩ := Round.mk.inj (hround.symm.trans hround')
      obtain rfl := Option.some.inj hrest
      rw [ih hrest']

lemma iff_eq (h : Loop round a bs) : Loop round a bs' ↔ bs' = bs := by
  constructor
  · exact fun h' => h'.unique h
  · rintro rfl
    exact h

/-- A loop whose rounds are those of another one, seen through `f`, writes the same bytes. -/
theorem of_map {f : α → β} (hround : ∀ a, (round a).map f = round' (f a))
    (h : Loop round' (f a) bs) : Loop round a bs := by
  generalize hb : f a = b at h
  induction h generalizing a with
  | last h =>
    subst hb
    rw [← hround] at h
    obtain ⟨hbyte, hrest⟩ := Round.mk.inj h
    exact last (congrArg₂ Round.mk hbyte (Option.map_eq_none_iff.mp hrest))
  | more h _ ih =>
    subst hb
    rw [← hround] at h
    obtain ⟨hbyte, hrest⟩ := Round.mk.inj h
    obtain ⟨rest, hsome, hmap⟩ := Option.map_eq_some_iff.mp hrest
    exact more (congrArg₂ Round.mk hbyte hsome) (ih hmap)

/-- A writer that does the rounds of a loop writes all of the bytes. -/
theorem write_eq {writer : α → Sink.Writer Unit}
    (hwriter : ∀ a, writer a = (round a).write writer) (h : Loop round a bs) :
    writer a = Sink.write bs := by
  induction h with
  | last hround => rw [hwriter, hround, Round.write]
  | more hround _ ih =>
    rw [hwriter, hround, Round.write, ih, write_then_write]
    rfl

end Loop

/-! ### Unbounded numbers -/

/-- Divides by 128. The loop ends when nothing is left. -/
def naturalRound (n : Nat) : Round Nat :=
  if n / 128 = 0 then ⟨lowGroup n, none⟩ else ⟨continued (lowGroup n), some (n / 128)⟩

/-- Divides by 128, rounding down. The loop ends when bit 6 of the group stands for what is left. -/
def integerRound (v : Int) : Round Int :=
  let group := lowGroupSigned v
  if v / 128 = (if negative group then -1 else 0) then ⟨group, none⟩
  else ⟨continued group, some (v / 128)⟩

lemma loop_naturalRound (n : Nat) : Loop naturalRound n (encodeUnsigned n) := by
  fun_induction encodeUnsigned n with
  | case1 n h =>
    apply Loop.last
    rw [naturalRound, if_pos (Nat.div_eq_of_lt h)]
  | case2 n h ih =>
    have hrest : n / 128 ≠ 0 := by omega
    refine Loop.more ?_ ih
    rw [naturalRound, if_neg hrest]

lemma loop_integerRound (v : Int) : Loop integerRound v (encodeSigned v) := by
  have hv : Writable .signed v := trivial
  induction v, hv using Writable.induction with
  | single v hv hsingle =>
    rw [encodeSigned_of_mem hsingle]
    apply Loop.last
    rw [integerRound]
    exact if_pos ((single_signed_iff v).mp hsingle)
  | more v hv hsingle ih =>
    rw [encodeSigned_of_not_mem hsingle]
    refine Loop.more ?_ ih
    rw [integerRound]
    exact if_neg (mt (single_signed_iff v).mpr hsingle)

end WasmBinary.Leb128
