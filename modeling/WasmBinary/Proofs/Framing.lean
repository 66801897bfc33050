import Mathlib
import WasmBinary.Leb128.Decode
import WasmBinary.Proofs.Image
import WasmBinary.Proofs.Leb128.RoundTrip

/-!
# Framing

The sections of an image can be told apart without reading their contents: after its id, each says
how many bytes follow. In the same way the entries of a code section are told apart by their sizes.
-/

namespace WasmBinary

open Encoder

/-- Reads a length and skips that many bytes. Gives the length, the bytes read and skipped, and the
bytes left. -/
def skipSized (bs : Bytes) : Option (Nat × Bytes × Bytes) :=
  match Leb128.decodeUnsigned bs with
  | .error _ => none
  | .ok (length, count) =>
    if count + length ≤ bs.length then
      some (length, bs.take (count + length), bs.drop (count + length))
    else none

lemma skipSized_length_le {bs rest bytes : Bytes} {length : Nat}
    (h : skipSized bs = some (length, bytes, rest)) : rest.length ≤ bs.length := by
  unfold skipSized at h
  split at h
  · exact nomatch h
  · split at h
    · simp only [Option.some.injEq, Prod.mk.injEq] at h
      rw [← h.2.2, List.length_drop]
      omega
    · exact nomatch h

/-- A section as it is found in an image: its id, the length it gives, and all of its bytes. -/
structure Slice where
  id : UInt8
  length : Nat
  bytes : Bytes

namespace Slice

/-- The slice of a section with the given id and contents. -/
def ofContents (id : UInt8) (contents : Bytes) : Slice :=
  ⟨id, contents.length, id :: (Leb128.encodeUnsigned contents.length ++ contents)⟩

/-- What stands after the length. -/
def contents (slice : Slice) : Bytes := slice.bytes.drop (slice.bytes.length - slice.length)

lemma contents_ofContents (id : UInt8) (contents : Bytes) :
    (ofContents id contents).contents = contents := by
  have hlength : ((id :: Leb128.encodeUnsigned contents.length) ++ contents).length -
      contents.length = (id :: Leb128.encodeUnsigned contents.length).length := by
    rw [List.length_append, Nat.add_sub_cancel]
  unfold Slice.contents ofContents
  dsimp only
  rw [← List.cons_append, hlength, List.drop_left]

end Slice

/-- Walks over bytes from one section to the next. -/
def sectionSlices : Bytes → Option (List Slice)
  | [] => some []
  | id :: bs =>
    match _h : skipSized bs with
    | none => none
    | some (length, bytes, rest) => (sectionSlices rest).map (⟨id, length, id :: bytes⟩ :: ·)
termination_by bs => bs.length
decreasing_by
  have hle := skipSized_length_le _h
  rw [List.length_cons]
  omega

/-- Walks over a number of entries with sizes in front. Gives the entries and the bytes left. -/
def entrySlices : Nat → Bytes → Option (List Bytes × Bytes)
  | 0, bs => some ([], bs)
  | n + 1, bs => do
    let (_, entry, bs) ← skipSized bs
    let (entries, bs) ← entrySlices n bs
    return (entry :: entries, bs)

lemma skipSized_sized (contents rest : Bytes) :
    skipSized (Leb128.encodeUnsigned contents.length ++ contents ++ rest) =
      some (contents.length, Leb128.encodeUnsigned contents.length ++ contents, rest) := by
  have hlength : (Leb128.encodeUnsigned contents.length).length + contents.length =
      (Leb128.encodeUnsigned contents.length ++ contents).length := List.length_append.symm
  unfold skipSized
  rw [List.append_assoc, Leb128.decodeUnsigned_encodeUnsigned, ← List.append_assoc]
  dsimp only
  rw [hlength, if_pos (by simp), List.take_left, List.drop_left]

lemma sectionSlices_cons (id : UInt8) (contents rest : Bytes) :
    sectionSlices ((Slice.ofContents id contents).bytes ++ rest) =
      (sectionSlices rest).map (.ofContents id contents :: ·) := by
  have hskip := skipSized_sized contents rest
  unfold Slice.ofContents
  rw [List.cons_append, sectionSlices]
  split
  · next hnone => exact nomatch hnone.symm.trans hskip
  · next hsome =>
    have heq := hsome.symm.trans hskip
    simp only [Option.some.injEq, Prod.mk.injEq] at heq
    obtain ⟨rfl, rfl, rfl⟩ := heq
    rfl

/-- What each image shows of its value, the walk over all images shows of all values. -/
lemma sectionSlices_of_framed {α : Type} [Encode α] [Checked α] (Shows : Slice → α → Prop)
    {as : List α} {pieces : List Bytes} (hpieces : Pieces as pieces)
    (hframed : ∀ a ∈ as, ∀ piece, toBytes a = .ok piece → ∃ id contents,
      piece = (Slice.ofContents id contents).bytes ∧ Shows (.ofContents id contents) a) :
    ∃ slices, sectionSlices pieces.flatten = some slices ∧ slices.map Slice.bytes = pieces ∧
      List.Forall₂ Shows slices as := by
  induction hpieces with
  | nil => exact ⟨[], by rw [List.flatten_nil, sectionSlices], rfl, List.Forall₂.nil⟩
  | @cons a piece as pieces hpiece _ ih =>
    obtain ⟨hfirst, hrest⟩ := List.forall_mem_cons.mp hframed
    obtain ⟨id, contents, rfl, hshows⟩ := hfirst piece hpiece
    obtain ⟨slices, hslices, hbytes, hall⟩ := ih hrest
    refine ⟨.ofContents id contents :: slices, ?_, ?_, List.Forall₂.cons hshows hall⟩
    · rw [List.flatten_cons, sectionSlices_cons, hslices]
      rfl
    · rw [List.map_cons, hbytes]

/-! ### Code sections -/

lemma entrySlices_pieces {codes : List Code} {entries : List Bytes} (h : Pieces codes entries)
    (rest : Bytes) :
    entrySlices codes.length (entries.flatten ++ rest) = some (entries, rest) := by
  induction h with
  | nil => rfl
  | @cons code entry codes entries hentry _ ih =>
    obtain ⟨contents, -, -, rfl⟩ := toBytes_code_iff.mp hentry
    have hskip := skipSized_sized contents (entries.flatten ++ rest)
    rw [List.flatten_cons, List.append_assoc, List.length_cons, entrySlices, hskip]
    simp [ih]

/-- The contents are a count and as many entries, each of which is found by its size. -/
def CodesFramed (codes : List Code) (contents : Bytes) : Prop :=
  ∃ count entries, Leb128.decodeUnsigned contents = .ok (codes.length, count) ∧
    entrySlices codes.length (contents.drop count) = some (entries, []) ∧ Pieces codes entries

lemma codesFramed_of_image {codes : List Code} {contents : Bytes}
    (h : toBytes codes = .ok contents) : CodesFramed codes contents := by
  obtain ⟨-, entries, hentries, rfl⟩ := toBytes_vector_iff.mp h
  refine ⟨(Leb128.encodeUnsigned codes.length).length, entries, ?_, ?_, hentries⟩
  · exact Leb128.decodeUnsigned_encodeUnsigned codes.length entries.flatten
  · have hwalk := entrySlices_pieces hentries []
    rwa [List.drop_left, ← List.append_nil entries.flatten]

/-! ### Modules -/

/-- A slice is the image of a section and shows its id and the length of its contents. -/
def Slice.Frames (slice : Slice) (sec : Section) : Prop :=
  toBytes sec = .ok slice.bytes ∧ slice.id = sec.id.byte ∧
    ∃ contents, sec.emitContents.image = .ok contents ∧ slice.length = contents.length ∧
      slice.bytes = slice.id :: (Leb128.encodeUnsigned slice.length ++ contents) ∧
      ∀ codes, sec = .codes codes → CodesFramed codes contents

lemma sectionSlices_pieces {sections : List Section} {pieces : List Bytes}
    (h : Pieces sections pieces) :
    ∃ slices, sectionSlices pieces.flatten = some slices ∧ slices.map Slice.bytes = pieces ∧
      List.Forall₂ Slice.Frames slices sections := by
  apply sectionSlices_of_framed Slice.Frames h
  intro sec _ piece hpiece
  obtain ⟨contents, hcontents, hlength, rfl⟩ := toBytes_section_iff.mp hpiece
  refine ⟨sec.id.byte, contents, rfl, hpiece, rfl, contents, hcontents, rfl, rfl, ?_⟩
  rintro codes rfl
  exact codesFramed_of_image hcontents

/-- After the header, an image is cut by the lengths of its sections into one slice for each
section, and the contents of a code section into one entry for each function body. -/
theorem image_framed (m : Module) (b : Bytes) (h : toBytes m = .ok b) :
    b.take 8 = Module.magic ++ Module.version ∧
    ∃ slices, sectionSlices (b.drop 8) = some slices ∧
      (slices.map Slice.bytes).flatten = b.drop 8 ∧
      List.Forall₂ Slice.Frames slices m.sections := by
  obtain ⟨pieces, hpieces, rfl⟩ := toBytes_module_iff.mp h
  obtain ⟨slices, hslices, hbytes, hframes⟩ := sectionSlices_pieces hpieces
  refine ⟨rfl, slices, hslices, ?_, hframes⟩
  rw [hbytes]
  rfl

/-- A code section with two entries, and a custom section that ends like one. -/
theorem image_framed_codes_and_custom :
    let m : Module := ⟨[.codes [⟨[], ⟨[.block .loop ⟨[.i64]⟩ [.intConst .w64 (-1)]]⟩⟩,
      ⟨[⟨300, .f32⟩], ⟨[]⟩⟩], .custom ⟨"a", [0x0a, 0x01]⟩]⟩
    let b : Bytes := [0, 97, 115, 109, 1, 0, 0, 0, 10, 15, 2, 7, 0, 3, 126, 66, 127, 11, 11, 5, 1, 172,
      2, 125, 11, 0, 4, 1, 97, 10, 1]
    toBytes m = .ok b ∧ ∃ slices, sectionSlices (b.drop 8) = some slices ∧
      List.Forall₂ Slice.Frames slices m.sections := by
  intro m b
  have hm : toBytes m = .ok b := by cbv
  obtain ⟨-, slices, hslices, -, hframes⟩ := image_framed m b hm
  exact ⟨hm, slices, hslices, hframes⟩

end WasmBinary
