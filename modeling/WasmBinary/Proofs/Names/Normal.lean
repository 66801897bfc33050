import Mathlib.Data.List.Forall2
import WasmBinary.Proofs.Names.Order

/-!
# Names in normal form

Names in normal form stand in the order of their indices at every level. Names have the same normal
form if they differ at most in the order of entries with different indices.
-/

namespace WasmBinary.Names

/-- A function with the names of its locals in the order of their indices. -/
def sortLocals (entry : UInt32 × NameMap) : UInt32 × NameMap := (entry.1, sortByIndex entry.2)

def norm (names : Names) : Names :=
  ⟨names.moduleName, sortByIndex names.functions, (sortByIndex names.locals).map sortLocals⟩

/-- The same function, with the same locals for each index. -/
def SameLocals (x y : UInt32 × NameMap) : Prop := x.1 = y.1 ∧ SameByIndex x.2 y.2

/-- For each index, the names have the same entries in the same order. -/
structure Reordered (a b : Names) : Prop where
  moduleName : a.moduleName = b.moduleName
  functions : SameByIndex a.functions b.functions
  locals : ∀ i, List.Forall₂ SameLocals (entriesAt i a.locals) (entriesAt i b.locals)

lemma sortLocals_eq_iff {x y : UInt32 × NameMap} :
    sortLocals x = sortLocals y ↔ SameLocals x y := by
  unfold sortLocals SameLocals
  rw [Prod.mk.injEq, sortByIndex_eq_iff]

lemma map_sortLocals_eq_iff {as bs : List (UInt32 × NameMap)} :
    as.map sortLocals = bs.map sortLocals ↔ List.Forall₂ SameLocals as bs := by
  rw [← List.forall₂_eq_eq_eq, List.forall₂_map_left_iff, List.forall₂_map_right_iff]
  simp only [sortLocals_eq_iff]

lemma entriesAt_map_sortLocals (i : UInt32) (as : List (UInt32 × NameMap)) :
    entriesAt i (as.map sortLocals) = (entriesAt i as).map sortLocals := List.filter_map

lemma map_sortLocals_sortByIndex (as : List (UInt32 × NameMap)) :
    (sortByIndex as).map sortLocals = sortByIndex (as.map sortLocals) :=
  sortByIndex_map sortLocals (fun _ => rfl) as

theorem norm_eq_iff {a b : Names} : a.norm = b.norm ↔ a.Reordered b := by
  have hlocals : (sortByIndex a.locals).map sortLocals = (sortByIndex b.locals).map sortLocals ↔
      ∀ i, List.Forall₂ SameLocals (entriesAt i a.locals) (entriesAt i b.locals) := by
    rw [map_sortLocals_sortByIndex, map_sortLocals_sortByIndex, sortByIndex_eq_iff]
    simp only [SameByIndex, entriesAt_map_sortLocals, map_sortLocals_eq_iff]
  unfold norm
  rw [Names.mk.injEq, sortByIndex_eq_iff, hlocals]
  constructor
  · rintro ⟨hmodule, hfunctions, h⟩
    exact ⟨hmodule, hfunctions, h⟩
  · rintro ⟨hmodule, hfunctions, h⟩
    exact ⟨hmodule, hfunctions, h⟩

/-! ### Permutations -/

/-- Equal lists, or permutations of each other in which no index occurs twice. -/
def PermutedEntries {α : Type} (as bs : List (UInt32 × α)) : Prop :=
  as = bs ∨ as.Perm bs ∧ (as.map Prod.fst).Nodup

lemma PermutedEntries.sameByIndex {α : Type} {as bs : List (UInt32 × α)}
    (h : PermutedEntries as bs) : SameByIndex as bs := by
  rcases h with rfl | ⟨hperm, hnodup⟩
  · exact fun _ => rfl
  · exact sameByIndex_of_perm hperm hnodup

/-- Names with permuted functions, and with permuted locals in functions that are permuted. -/
structure Permuted (a b : Names) : Prop where
  moduleName : a.moduleName = b.moduleName
  functions : PermutedEntries a.functions b.functions
  locals : ∃ mid, List.Forall₂ (fun x y => x.1 = y.1 ∧ PermutedEntries x.2 y.2) a.locals mid ∧
    PermutedEntries mid b.locals

theorem Permuted.norm_eq {a b : Names} (h : a.Permuted b) : a.norm = b.norm := by
  obtain ⟨mid, hinner, houter⟩ := h.locals
  have hmid : a.locals.map sortLocals = mid.map sortLocals := by
    apply map_sortLocals_eq_iff.mpr
    exact hinner.imp fun x y hxy => ⟨hxy.1, hxy.2.sameByIndex⟩
  have hlocals : (sortByIndex a.locals).map sortLocals = (sortByIndex b.locals).map sortLocals :=
    calc
      _ = sortByIndex (mid.map sortLocals) := by rw [map_sortLocals_sortByIndex, hmid]
      _ = (sortByIndex mid).map sortLocals := (map_sortLocals_sortByIndex mid).symm
      _ = _ := by rw [sortByIndex_eq_iff.mpr houter.sameByIndex]
  unfold norm
  rw [h.moduleName, sortByIndex_eq_iff.mpr h.functions.sameByIndex, hlocals]

end WasmBinary.Names
