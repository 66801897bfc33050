import Mathlib
import WasmBinary.Proofs.Framing
import WasmBinary.Proofs.Names.Payload

/-!
# The parts of a payload

The parts of a payload are framed as sections are, and come in the order of their ids. There is one
for each kind of names that is given. It holds all of these in the order of their indices, and the
names of locals stay with their function.
-/

namespace WasmBinary

open Encoder WasmBinary.Parser

namespace Names

variable {names : Names} {part : Part} {piece : Bytes}

/-! ### What is in a part -/

namespace Part

def id : Part → UInt8
  | moduleName _ => 0
  | functions _ => 1
  | locals _ => 2

/-- The part has what is given for it, each entry once, in the order of the indices. -/
def Orders (names : Names) : Part → Prop
  | moduleName name => names.moduleName = some name
  | functions map => Sorted map ∧ map.Perm names.functions
  | locals maps => Sorted maps ∧ ∃ given, given.Perm names.locals ∧
      List.Forall₂ (fun x y => x.1 = y.1 ∧ Sorted x.2 ∧ x.2.Perm y.2) maps given

lemma mem_ofList {α : Type} {f : List α → Part} {as : List α} (h : part ∈ ofList f as) :
    part = f as := by
  cases as with
  | nil => exact absurd h List.not_mem_nil
  | cons a as => exact List.mem_singleton.mp h

lemma map_id_ofList {α : Type} {f : List α → Part} {i : UInt8} (hf : ∀ as, (f as).id = i)
    (as : List α) : (ofList f as).map id = if as = [] then [] else [i] := by
  cases as with
  | nil => rfl
  | cons a as =>
    rw [if_neg (List.cons_ne_nil a as)]
    exact congrArg List.singleton (hf (a :: as))

end Part

lemma perm_sortByIndex {α : Type} (entries : List (UInt32 × α)) :
    (sortByIndex entries).Perm entries := List.mergeSort_perm _ _

lemma orders_of_mem_parts (h : part ∈ names.norm.parts) : part.Orders names := by
  rcases List.mem_append.mp h with hmodule | hmaps
  · obtain ⟨name, hname, rfl⟩ := List.mem_map.mp hmodule
    exact Option.mem_toList.mp hname
  · rcases List.mem_append.mp hmaps with hfunctions | hlocals
    · rw [Part.mem_ofList hfunctions]
      exact ⟨sorted_sortByIndex _, perm_sortByIndex _⟩
    · rw [Part.mem_ofList hlocals]
      refine ⟨?_, sortByIndex names.locals, perm_sortByIndex _, ?_⟩
      · unfold norm
        rw [map_sortLocals_sortByIndex]
        exact sorted_sortByIndex _
      · apply List.forall₂_map_left_iff.mpr
        apply List.forall₂_same.mpr
        intro entry _
        exact ⟨rfl, sorted_sortByIndex _, perm_sortByIndex _⟩

lemma map_id_parts (names : Names) :
    names.norm.parts.map Part.id = (if names.moduleName = none then [] else [0]) ++
      ((if names.functions = [] then [] else [1]) ++ if names.locals = [] then [] else [2]) := by
  have hlocals : names.norm.locals = [] ↔ names.locals = [] :=
    List.map_eq_nil_iff.trans sortByIndex_eq_nil_iff
  have hfunctions : names.norm.functions = [] ↔ names.functions = [] := sortByIndex_eq_nil_iff
  have hmodule : (names.norm.moduleName.toList.map Part.moduleName).map Part.id =
      if names.moduleName = none then [] else [0] := by
    change (names.moduleName.toList.map Part.moduleName).map Part.id = _
    cases names.moduleName <;> rfl
  unfold parts
  rw [List.map_append, List.map_append, hmodule,
    Part.map_id_ofList (f := .functions) (i := 1) (fun _ => rfl),
    Part.map_id_ofList (f := .locals) (i := 2) (fun _ => rfl)]
  simp only [hfunctions, hlocals]

/-- The ids tell which names are given. -/
lemma ids_of_parts (names : Names) :
    let ids := names.norm.parts.map Part.id
    ids.Pairwise (· < ·) ∧ (∀ id ∈ ids, id = 0 ∨ id = 1 ∨ id = 2) ∧
      (0 ∈ ids ↔ names.moduleName ≠ none) ∧ (1 ∈ ids ↔ names.functions ≠ []) ∧
      (2 ∈ ids ↔ names.locals ≠ []) := by
  dsimp only
  rw [map_id_parts]
  rcases names with ⟨_ | name, _ | ⟨function, functions⟩, _ | ⟨entry, locals⟩⟩ <;> simp

/-! ### The walk over the parts -/

lemma subsection_framed {α : Type} [Encode α] {id : UInt8} {contents : α} {piece : Bytes}
    (h : Reads (Part.contentsParser id) (encode contents) part)
    (hpiece : (emitSubsection id contents).image = .ok piece) :
    ∃ cs, piece = (Slice.ofContents id cs).bytes ∧ Part.contentsParser id cs = some (part, []) := by
  obtain ⟨cs, hcs, -, rfl⟩ := emitSubsection_image_iff.mp hpiece
  exact ⟨cs, rfl, h.run_all hcs⟩

lemma part_framed (h : toBytes part = .ok piece) :
    ∃ cs, piece = (Slice.ofContents part.id cs).bytes ∧
      Part.contentsParser part.id cs = some (part, []) := by
  cases part with
  | moduleName name => exact subsection_framed ((reads name).map Part.moduleName) h
  | functions map => exact subsection_framed ((reads map).map Part.functions) h
  | locals maps => exact subsection_framed ((reads maps).map Part.locals) h

/-- The contents of the slice are read, in the way its id says, as a part for these names. -/
def ShownBy (names : Names) (slice : Slice) : Prop :=
  ∃ part : Part, part.id = slice.id ∧
    Part.contentsParser slice.id slice.contents = some (part, []) ∧ part.Orders names

lemma sectionSlices_parts {pieces : List Bytes} (h : Pieces names.norm.parts pieces) :
    ∃ slices, sectionSlices pieces.flatten = some slices ∧ slices.map Slice.bytes = pieces ∧
      (∀ slice ∈ slices, names.ShownBy slice) ∧
      slices.map Slice.id = names.norm.parts.map Part.id := by
  have hwalk := sectionSlices_of_framed
    (fun slice part => names.ShownBy slice ∧ slice.id = part.id) h <| by
    intro part hpart piece hpiece
    obtain ⟨cs, rfl, hread⟩ := part_framed hpiece
    refine ⟨part.id, cs, rfl, ⟨part, rfl, ?_, orders_of_mem_parts hpart⟩, rfl⟩
    rwa [Slice.contents_ofContents]
  obtain ⟨slices, hslices, hbytes, hshows⟩ := hwalk
  obtain ⟨hshown, hids⟩ := (List.forall₂_and_left _ _).mp hshows
  refine ⟨slices, hslices, hbytes, hshown, ?_⟩
  rw [← List.forall₂_eq_eq_eq, List.forall₂_map_left_iff, List.forall₂_map_right_iff]
  exact hids

/-- The section for names is made of the parts that are given, with ascending ids. Each of them is
found by the size in front of it and is read back as the names that are given, in the order of their
indices. -/
theorem payload_of_parts (names : Names) (sec : Section) (h : names.toSection = .ok sec) :
    ∃ payload slices, sec = .custom ⟨"name", payload⟩ ∧ sectionSlices payload = some slices ∧
      (slices.map Slice.bytes).flatten = payload ∧
      let ids := slices.map Slice.id
      ids.Pairwise (· < ·) ∧ (∀ id ∈ ids, id = 0 ∨ id = 1 ∨ id = 2) ∧
      (0 ∈ ids ↔ names.moduleName ≠ none) ∧ (1 ∈ ids ↔ names.functions ≠ []) ∧
      (2 ∈ ids ↔ names.locals ≠ []) ∧ ∀ slice ∈ slices, names.ShownBy slice := by
  obtain ⟨payload, hpayload, rfl⟩ := toSection_eq_ok_iff.mp h
  rw [emitPayload_eq] at hpayload
  obtain ⟨pieces, hpieces, rfl⟩ := emitAll_image_iff.mp hpayload
  obtain ⟨slices, hslices, hbytes, hshown, hids⟩ := sectionSlices_parts hpieces
  obtain ⟨hascend, hkinds, hmodule, hfunctions, hlocals⟩ := ids_of_parts names
  rw [← hids] at hascend hkinds hmodule hfunctions hlocals
  exact ⟨pieces.flatten, slices, rfl, hslices, by rw [hbytes], hascend, hkinds, hmodule, hfunctions,
    hlocals, hshown⟩

/-- An empty module name, functions out of order, and locals out of order in two functions. -/
theorem payload_of_parts_out_of_order :
    let names : Names := ⟨some "", [(7, "b"), (2, "a"), (7, "c")],
      [(3, [(1, "y"), (0, "x")]), (0, [])]⟩
    let payload : Bytes := [0, 1, 0, 1, 10, 3, 2, 1, 97, 7, 1, 98, 7, 1, 99,
      2, 11, 2, 0, 0, 3, 2, 0, 1, 120, 1, 1, 121]
    names.toSection = .ok (.custom ⟨"name", payload⟩) ∧
      ∃ slices, sectionSlices payload = some slices ∧ 0 ∈ slices.map Slice.id ∧
        ∀ slice ∈ slices, names.ShownBy slice := by
  intro names payload
  have hsection : names.toSection = .ok (.custom ⟨"name", payload⟩) := by cbv
  obtain ⟨payload', slices, hcustom, hslices, -, -, -, hmodule, -, -, hshown⟩ :=
    payload_of_parts names _ hsection
  obtain rfl : payload = payload' := congrArg Custom.payload (Section.custom.inj hcustom)
  exact ⟨hsection, slices, hslices, hmodule.mpr (by decide), hshown⟩

end Names

end WasmBinary
