import WasmBinary.Proofs.Leb128.Padding
import WasmBinary.Proofs.Parser

/-!
# Parsers that do not look ahead

A parser is frugal if what it reads and takes does not depend on the bytes that follow. Combinators
keep this.
-/

namespace WasmBinary

open WasmBinary.Parser

/-- The parser does not look at more bytes than it takes. -/
def Parser.Frugal {α : Type} (p : Parser α) : Prop :=
  ∀ bs a rest, p bs = some (a, rest) →
    ∃ used, bs = used ++ rest ∧ ∀ more, p (used ++ more) = some (a, more)

namespace Parser.Frugal

variable {α β : Type} {p : Parser α}

lemma pure (a : α) : Frugal (Pure.pure a) := by
  rintro bs _ _ ⟨⟩
  exact ⟨[], rfl, fun _ => rfl⟩

lemma ofOption (a? : Option α) : Frugal (ofOption a?) := by
  intro bs a rest h
  obtain ⟨a', ha, heq⟩ := Option.map_eq_some_iff.mp h
  obtain ⟨rfl, rfl⟩ := Prod.mk.inj heq
  refine ⟨[], rfl, fun more => ?_⟩
  rw [ha]
  rfl

lemma bind {q : α → Parser β} (hp : Frugal p) (hq : ∀ a, Frugal (q a)) : Frugal (p >>= q) := by
  intro bs b rest h
  obtain ⟨⟨a, mid⟩, ha, hb⟩ := Option.bind_eq_some_iff.mp h
  obtain ⟨used, rfl, hused⟩ := hp bs a mid ha
  obtain ⟨used', rfl, hused'⟩ := hq a mid b rest hb
  refine ⟨used ++ used', (List.append_assoc _ _ _).symm, fun more => ?_⟩
  rw [List.append_assoc, bind_run (hused _)]
  exact hused' more

lemma byte : Frugal byte := by
  rintro (_ | ⟨b, bs⟩) a rest h
  · exact nomatch h
  · obtain ⟨rfl, rfl⟩ := Prod.mk.inj (Option.some.inj h)
    exact ⟨[b], rfl, fun _ => rfl⟩

lemma take (n : Nat) : Frugal (take n) := by
  intro bs a rest h
  unfold Parser.take at h
  split at h
  · next hn =>
    obtain ⟨rfl, rfl⟩ := Prod.mk.inj (Option.some.inj h)
    have hlength : (bs.take n).length = n := List.length_take_of_le hn
    refine ⟨bs.take n, (List.take_append_drop n bs).symm, fun more => ?_⟩
    have htake := take_append (bs.take n) more
    rwa [hlength] at htake
  · exact nomatch h

lemma unsigned : Frugal unsigned := by
  intro bs n rest h
  unfold Parser.unsigned at h
  cases hdecode : Leb128.decodeUnsigned bs with
  | error e =>
    rw [hdecode] at h
    exact nomatch h
  | ok result =>
    obtain ⟨m, count⟩ := result
    rw [hdecode] at h
    obtain ⟨rfl, rfl⟩ := Prod.mk.inj (Option.some.inj h)
    obtain ⟨hle, hmore⟩ := Leb128.decode_take_append (Leb128.decodeUnsigned_eq_ok_iff.mp hdecode)
    have hlength : (bs.take count).length = count := List.length_take_of_le hle
    refine ⟨bs.take count, (List.take_append_drop count bs).symm, fun more => ?_⟩
    unfold Parser.unsigned
    rw [Leb128.decodeUnsigned_eq_ok_iff.mpr (hmore more)]
    dsimp only
    rw [List.drop_left' hlength]

lemma u32 : Frugal u32 := unsigned.bind fun _ => ofOption _

lemma times (hp : Frugal p) (n : Nat) : Frugal (times p n) := by
  induction n with
  | zero => exact pure []
  | succ n ih => exact hp.bind fun _ => ih.bind fun _ => pure _

lemma vector (hp : Frugal p) : Frugal (vector p) := u32.bind hp.times

lemma append (hp : Frugal p) {bs rest : Bytes} {a : α} (h : p bs = some (a, rest)) (more : Bytes) :
    p (bs ++ more) = some (a, rest ++ more) := by
  obtain ⟨used, rfl, hused⟩ := hp bs a rest h
  rw [List.append_assoc, hused]

lemma length_le (hp : Frugal p) {bs rest : Bytes} {a : α} (h : p bs = some (a, rest)) :
    rest.length ≤ bs.length := by
  obtain ⟨used, rfl, -⟩ := hp bs a rest h
  rw [List.length_append]
  omega

end Parser.Frugal

end WasmBinary
