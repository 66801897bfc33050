import WasmBinary.Proofs.Image
import WasmBinary.Proofs.Leb128.RoundTrip

/-!
# Parsers

A parser reads a value from the front of bytes. `Reads p encoder a` says that `p` reads the value
`a` from what the encoder writes and leaves what follows alone. Parsers put together in the same way
as encoders read what these write.
-/

namespace WasmBinary

open Encoder

/-- Reads a value from the front of bytes. Gives the value and the bytes left. -/
abbrev Parser := StateT Bytes Option

namespace Parser

variable {α : Type}

def ofOption (a? : Option α) : Parser α := fun bs => a?.map (·, bs)

def byte : Parser UInt8
  | [] => none
  | b :: bs => some (b, bs)

/-- Reads a given number of bytes. -/
def take (n : Nat) : Parser Bytes := fun bs =>
  if n ≤ bs.length then some (bs.take n, bs.drop n) else none

/-- Reads all bytes that are left. -/
def remaining : Parser Bytes := fun bs => some (bs, [])

/-- Reads the given bytes and no others. -/
def expect (as : Bytes) : Parser Unit := do
  ofOption (if (← take as.length) = as then some () else none)

def unsigned : Parser Nat := fun bs =>
  match Leb128.decodeUnsigned bs with
  | .ok (n, count) => some (n, bs.drop count)
  | .error _ => none

def signed : Parser Int := fun bs =>
  match Leb128.decodeSigned bs with
  | .ok (v, count) => some (v, bs.drop count)
  | .error _ => none

/-- Reads a natural number of at most 32 bits. -/
def u32 : Parser Nat := do
  let n ← unsigned
  ofOption (if n < UInt32.size then some n else none)

/-- Applies a parser to bytes of which it must leave nothing. -/
def whole (p : Parser α) (bs : Bytes) : Option α :=
  match p bs with
  | some (a, []) => some a
  | _ => none

/-- Reads the size of a part and then this part as a whole. -/
def sized (p : Parser α) : Parser α := do
  let contents ← take (← u32)
  ofOption (p.whole contents)

/-- Reads a given number of values. -/
def times (p : Parser α) : Nat → Parser (List α)
  | 0 => pure []
  | n + 1 => do
    let a ← p
    let as ← times p n
    return a :: as

def vector (p : Parser α) : Parser (List α) := do
  times p (← u32)

/-- Reads values until no bytes are left. Each value has to take some of them. -/
def many (p : Parser α) (bs : Bytes) : Option (List α × Bytes) :=
  if bs = [] then some ([], [])
  else
    match p bs with
    | none => none
    | some (a, rest) =>
      if rest.length < bs.length then (many p rest).map fun (as, left) => (a :: as, left)
      else none
termination_by bs.length

def utf8 : Parser String := fun bs => (String.fromUTF8? ⟨bs.toArray⟩).map (·, [])

lemma unsigned_encodeUnsigned (n : Nat) (rest : Bytes) :
    unsigned (Leb128.encodeUnsigned n ++ rest) = some (n, rest) := by
  unfold unsigned
  rw [Leb128.decodeUnsigned_encodeUnsigned]
  dsimp only
  rw [List.drop_left]

lemma signed_encodeSigned (v : Int) (rest : Bytes) :
    signed (Leb128.encodeSigned v ++ rest) = some (v, rest) := by
  unfold signed
  rw [Leb128.decodeSigned_encodeSigned]
  dsimp only
  rw [List.drop_left]

lemma bind_run {β : Type} {p : Parser α} {bs rest : Bytes} {a : α} (h : p bs = some (a, rest))
    (q : α → Parser β) : (p >>= q) bs = q a rest := by
  change (p bs).bind (fun (a, rest) => q a rest) = _
  rw [h]
  rfl

lemma u32_encodeUnsigned {n : Nat} (h : n < UInt32.size) (rest : Bytes) :
    u32 (Leb128.encodeUnsigned n ++ rest) = some (n, rest) := by
  unfold u32
  rw [bind_run (unsigned_encodeUnsigned n rest), if_pos h]
  rfl

lemma take_append (as rest : Bytes) : take as.length (as ++ rest) = some (as, rest) := by
  rw [take, if_pos (by simp), List.take_left, List.drop_left]

lemma whole_of_run {p : Parser α} {bs : Bytes} {a : α} (h : p bs = some (a, [])) :
    p.whole bs = some a := by
  rw [whole, h]

lemma sized_append {p : Parser α} {contents : Bytes} {a : α} (h : p contents = some (a, []))
    (hlength : contents.length < UInt32.size) (rest : Bytes) :
    sized p (Leb128.encodeUnsigned contents.length ++ contents ++ rest) = some (a, rest) := by
  unfold sized
  rw [List.append_assoc, bind_run (u32_encodeUnsigned hlength _), bind_run (take_append _ _),
    whole_of_run h]
  rfl

lemma many_nil (p : Parser α) : many p [] = some ([], []) := by
  rw [many, if_pos rfl]

lemma length_lt_append {bs : Bytes} (hne : bs ≠ []) (rest : Bytes) :
    rest.length < (bs ++ rest).length := by
  rw [List.length_append]
  exact Nat.lt_add_of_pos_left (List.length_pos_of_ne_nil hne)

lemma many_append {p : Parser α} {bs rest left : Bytes} {a : α} {as : List α}
    (hne : bs ≠ []) (h : p (bs ++ rest) = some (a, rest)) (hrest : many p rest = some (as, left)) :
    many p (bs ++ rest) = some (a :: as, left) := by
  rw [many, if_neg (by simp [hne]), h]
  dsimp only
  rw [if_pos (length_lt_append hne rest), hrest]
  rfl

lemma utf8_toUTF8 (name : String) : utf8 name.toUTF8.data.toList = some (name, []) := by
  have hvalid : name.toUTF8.IsValidUTF8 := name.isValidUTF8
  unfold utf8
  rw [Array.toArray_toList, String.fromUTF8?, dif_pos hvalid]
  rfl

end Parser

open WasmBinary.Parser

/-- The parser reads what the encoder writes as the value, whatever follows. -/
structure Reads {α : Type} (p : Parser α) (encoder : Encoder Unit) (a : α) : Prop where
  traced : Traced encoder
  run : ∀ bs, encoder.image = .ok bs → ∀ rest, p (bs ++ rest) = some (a, rest)

namespace Reads

variable {α β : Type} {p : Parser α} {a : α}

theorem seq {q : α → Parser β} {e e' : Encoder Unit} {b : β} (h : Reads p e a)
    (h' : Reads (q a) e' b) : Reads (p >>= q) (do e; e') b := by
  refine ⟨h.traced.seq h'.traced, ?_⟩
  intro bs hbs rest
  obtain ⟨as, cs, has, hcs, rfl⟩ := (image_seq h.traced h'.traced).mp hbs
  rw [List.append_assoc, bind_run (h.run as has _)]
  exact h'.run cs hcs rest

lemma last {q : α → Parser β} {e : Encoder Unit} {b : β} (h : Reads p e a)
    (hq : q a = Pure.pure b) : Reads (p >>= q) e b := by
  refine ⟨h.traced, ?_⟩
  intro bs hbs rest
  rw [bind_run (h.run bs hbs rest), hq]
  rfl

lemma map {e : Encoder Unit} (f : α → β) (h : Reads p e a) :
    Reads (do return f (← p)) e (f a) := h.last rfl

lemma pure (a : α) : Reads (Pure.pure a) (Pure.pure ()) a := by
  refine ⟨Traced.pure, ?_⟩
  intro bs hbs rest
  rw [image_eq_ok_iff, Trace.of_pure] at hbs
  cases hbs
  rfl

lemma throw (e : EncodeError) : Reads p (MonadExcept.throw e) a := by
  refine ⟨Traced.throw e, ?_⟩
  intro bs hbs
  rw [image_eq_ok_iff, Trace.of_throw] at hbs
  exact nomatch hbs

lemma run_all {e : Encoder Unit} (h : Reads p e a) {bs : Bytes} (hbs : e.image = .ok bs) :
    p bs = some (a, []) := by
  have hrun := h.run bs hbs []
  rwa [List.append_nil] at hrun

/-- What a parser reads is not empty if it reads nothing from no bytes. -/
lemma ne_nil {e : Encoder Unit} (h : Reads p e a) (hnil : p [] = none) {bs : Bytes}
    (hbs : e.image = .ok bs) : bs ≠ [] := by
  rintro rfl
  exact nomatch hnil.symm.trans (h.run [] hbs [])

lemma emit {bs : Bytes} (h : ∀ rest, p (bs ++ rest) = some (a, rest)) : Reads p (emit bs) a := by
  refine ⟨Traced.emit bs, ?_⟩
  intro as has
  rw [emit_image_iff.mp has]
  exact h

lemma emitByte (b : UInt8) : Reads byte (emitByte b) b := emit fun _ => rfl

lemma expect (as : Bytes) : Reads (expect as) (Encoder.emit as) () := by
  apply emit
  intro rest
  unfold Parser.expect
  rw [bind_run (take_append as rest), if_pos rfl]
  rfl

lemma emitLength (n : Nat) : Reads u32 (emitLength n) n := by
  refine ⟨(Checking.emitLength n).traced, ?_⟩
  intro bs hbs
  obtain ⟨hn, rfl⟩ := emitLength_image_iff.mp hbs
  exact u32_encodeUnsigned hn

lemma emitSized {bs : Bytes} (h : p bs = some (a, [])) :
    Reads (sized p) (emitSized bs.toByteArray) a := by
  refine ⟨(Checking.emitSized bs).traced, ?_⟩
  intro as has
  obtain ⟨hlength, rfl⟩ := emitSized_image_iff.mp has
  exact sized_append h hlength

section Vectors

variable [Encode α] {p : Parser β} {f : α → β}

lemma emitAll (h : ∀ a, Reads p (encode a) (f a)) (as : List α) :
    Reads (times p as.length) (emitAll as) (as.map f) := by
  induction as with
  | nil => exact pure []
  | cons a as ih => exact (h a).seq (ih.map (f a :: ·))

theorem vector (h : ∀ a, Reads p (encode a) (f a)) (as : List α) :
    Reads (vector p) (encode as) (as.map f) :=
  (emitLength as.length).seq (emitAll h as)

theorem many_pieces [Checked α] (h : ∀ a, Reads p (encode a) (f a)) (hnil : p [] = none)
    {as : List α} {pieces : List Bytes} (hpieces : Pieces as pieces) :
    many p pieces.flatten = some (as.map f, []) := by
  induction hpieces with
  | nil => exact many_nil p
  | @cons a piece as pieces hpiece _ ih =>
    exact many_append ((h a).ne_nil hnil hpiece) ((h a).run piece hpiece _) ih

end Vectors

end Reads

/-- Types with a parser that reads every value back from its encoding. -/
class Readable (α : Type) [Encode α] where
  parser : Parser α
  reads : ∀ a : α, Reads parser (encode a) a

export Readable (parser reads)

instance : Readable UInt32 where
  parser := do return UInt32.ofNat (← u32)
  reads word := by
    have hword : UInt32.ofNat word.toBitVec.toNat = word := UInt32.ofNat_toNat
    change Reads _ (Leb128.writeUnsigned word.toBitVec) word
    rw [Leb128.writeUnsigned_eq_write]
    apply Reads.emit
    intro rest
    rw [bind_run (u32_encodeUnsigned word.toBitVec.isLt rest), hword]
    rfl

instance : Readable String where
  parser := sized utf8
  reads name := by
    have h := Reads.emitSized (utf8_toUTF8 name)
    rwa [Sink.toByteArray_toList] at h

instance {α : Type} [Encode α] [Readable α] : Readable (List α) where
  parser := vector parser
  reads as := by
    have h := Reads.vector reads as
    rwa [List.map_id'] at h

instance {α β : Type} [Encode α] [Encode β] [Readable α] [Readable β] : Readable (α × β) where
  parser := do return ⟨← parser, ← parser⟩
  reads pair := (reads pair.1).seq ((reads pair.2).map _)

end WasmBinary
