import Mathlib.Data.List.Nodup
import WasmBinary.Names

/-!
# Entries in the order of their indices

Sorting by index is stable. It keeps which entries a list has with each index and in what order they
stand, and it keeps nothing else. Where no index occurs twice, all permutations of a list are sorted
in the same way.
-/

namespace WasmBinary.Names

variable {α β : Type} {as bs : List (UInt32 × α)} {i : UInt32}

/-- The entries with an index, in their order. -/
def entriesAt (i : UInt32) (entries : List (UInt32 × α)) : List (UInt32 × α) :=
  entries.filter fun entry => entry.1 = i

/-- For each index, the lists have the same entries in the same order. -/
def SameByIndex (as bs : List (UInt32 × α)) : Prop := ∀ i, entriesAt i as = entriesAt i bs

def Sorted (entries : List (UInt32 × α)) : Prop := entries.Pairwise fun a b => a.1 ≤ b.1

lemma entriesAt_cons_of_eq {a : UInt32 × α} (h : a.1 = i) (as : List (UInt32 × α)) :
    entriesAt i (a :: as) = a :: entriesAt i as :=
  List.filter_cons_of_pos (decide_eq_true h)

lemma entriesAt_cons_of_ne {a : UInt32 × α} (h : a.1 ≠ i) (as : List (UInt32 × α)) :
    entriesAt i (a :: as) = entriesAt i as :=
  List.filter_cons_of_neg (by simp [h])

lemma mem_entriesAt {a : UInt32 × α} : a ∈ entriesAt i as ↔ a ∈ as ∧ a.1 = i := by
  simp [entriesAt]

lemma SameByIndex.mem (h : SameByIndex as bs) {a : UInt32 × α} (ha : a ∈ as) : a ∈ bs := by
  have hmem := mem_entriesAt.mpr ⟨ha, rfl⟩
  rw [h a.1] at hmem
  exact (mem_entriesAt.mp hmem).1

lemma SameByIndex.symm (h : SameByIndex as bs) : SameByIndex bs as := fun i => (h i).symm

lemma SameByIndex.of_cons {a : UInt32 × α} (h : SameByIndex (a :: as) (a :: bs)) :
    SameByIndex as bs := by
  intro i
  have hi := h i
  by_cases ha : a.1 = i
  · rw [entriesAt_cons_of_eq ha, entriesAt_cons_of_eq ha] at hi
    exact (List.cons.inj hi).2
  · rwa [entriesAt_cons_of_ne ha, entriesAt_cons_of_ne ha] at hi

/-! ### Sorting -/

lemma le_trans_index (a b c : UInt32 × α) (hab : decide (a.1 ≤ b.1) = true)
    (hbc : decide (b.1 ≤ c.1) = true) : decide (a.1 ≤ c.1) = true :=
  decide_eq_true (UInt32.le_trans (of_decide_eq_true hab) (of_decide_eq_true hbc))

lemma le_total_index (a b : UInt32 × α) : (decide (a.1 ≤ b.1) || decide (b.1 ≤ a.1)) = true := by
  simpa using UInt32.le_total a.1 b.1

lemma sorted_sortByIndex (entries : List (UInt32 × α)) : Sorted (sortByIndex entries) :=
  (List.pairwise_mergeSort le_trans_index le_total_index entries).imp of_decide_eq_true

/-- Entries with the same index keep their order. -/
theorem sameByIndex_sortByIndex (entries : List (UInt32 × α)) :
    SameByIndex (sortByIndex entries) entries := by
  intro i
  -- The entries with one index are sorted, so they are also a part of the sorted list.
  have hsorted : (entriesAt i entries).Pairwise fun a b => decide (a.1 ≤ b.1) = true := by
    apply List.pairwise_of_forall_mem_list
    intro a ha b hb
    rw [(mem_entriesAt.mp ha).2, (mem_entriesAt.mp hb).2]
    exact decide_eq_true (UInt32.le_refl i)
  have hpart : (entriesAt i entries).Sublist (sortByIndex entries) :=
    List.sublist_mergeSort le_trans_index le_total_index hsorted List.filter_sublist
  have hfilter : (entriesAt i entries).Sublist (entriesAt i (sortByIndex entries)) := by
    simpa only [entriesAt, List.filter_filter, Bool.and_self]
      using hpart.filter fun entry => decide (entry.1 = i)
  have hlength : (entriesAt i (sortByIndex entries)).length = (entriesAt i entries).length :=
    ((List.mergeSort_perm _ _).filter _).length_eq
  exact (hfilter.eq_of_length hlength.symm).symm

/-- A sorted list is determined by its entries with each index. -/
theorem eq_of_sorted (has : Sorted as) (hbs : Sorted bs) (h : SameByIndex as bs) : as = bs := by
  induction as generalizing bs with
  | nil =>
    cases bs with
    | nil => rfl
    | cons b bs => exact absurd (h.symm.mem List.mem_cons_self) List.not_mem_nil
  | cons a as ih =>
    cases bs with
    | nil => exact absurd (h.mem List.mem_cons_self) List.not_mem_nil
    | cons b bs =>
      obtain ⟨ha, has'⟩ := List.pairwise_cons.mp has
      obtain ⟨hb, hbs'⟩ := List.pairwise_cons.mp hbs
      have hle {c d : UInt32 × α} {cs : List (UInt32 × α)} (hd : d ∈ c :: cs)
          (hc : ∀ c' ∈ cs, c.1 ≤ c'.1) : c.1 ≤ d.1 := by
        rcases List.mem_cons.mp hd with rfl | hd
        · exact UInt32.le_refl _
        · exact hc d hd
      have hindex : b.1 = a.1 := UInt32.le_antisymm (hle (h.mem List.mem_cons_self) hb)
        (hle (h.symm.mem List.mem_cons_self) ha)
      have hfirst := h a.1
      rw [entriesAt_cons_of_eq rfl, entriesAt_cons_of_eq hindex] at hfirst
      obtain ⟨rfl, -⟩ := List.cons.inj hfirst
      rw [ih has' hbs' h.of_cons]

theorem sortByIndex_eq_iff : sortByIndex as = sortByIndex bs ↔ SameByIndex as bs := by
  constructor
  · intro h i
    rw [← sameByIndex_sortByIndex as i, h, sameByIndex_sortByIndex]
  · intro h
    apply eq_of_sorted (sorted_sortByIndex as) (sorted_sortByIndex bs)
    intro i
    rw [sameByIndex_sortByIndex, sameByIndex_sortByIndex, h]

/-- If no index occurs twice, the order does not matter. -/
theorem sameByIndex_of_perm (h : as.Perm bs) (hnodup : (as.map Prod.fst).Nodup) :
    SameByIndex as bs := by
  intro i
  induction h with
  | nil => rfl
  | cons a _ ih =>
    rw [List.map_cons, List.nodup_cons] at hnodup
    have hrest := ih hnodup.2
    unfold entriesAt at hrest ⊢
    rw [List.filter_cons, List.filter_cons, hrest]
  | swap a b as =>
    have hne : b.1 ≠ a.1 := by
      simp only [List.map_cons, List.nodup_cons, List.mem_cons, not_or] at hnodup
      exact hnodup.1.1
    by_cases ha : a.1 = i
    · have hb : b.1 ≠ i := fun hb => hne (hb.trans ha.symm)
      rw [entriesAt_cons_of_ne hb, entriesAt_cons_of_eq ha, entriesAt_cons_of_eq ha,
        entriesAt_cons_of_ne hb]
    · rw [entriesAt_cons_of_ne ha]
      by_cases hb : b.1 = i
      · rw [entriesAt_cons_of_eq hb, entriesAt_cons_of_eq hb, entriesAt_cons_of_ne ha]
      · rw [entriesAt_cons_of_ne hb, entriesAt_cons_of_ne hb, entriesAt_cons_of_ne ha]
  | trans has _ ih ih' =>
    have hmid := (has.map Prod.fst).nodup_iff.mp hnodup
    rw [ih hnodup, ih' hmid]

lemma sortByIndex_map (f : UInt32 × α → UInt32 × β) (hf : ∀ entry, (f entry).1 = entry.1)
    (entries : List (UInt32 × α)) :
    (sortByIndex entries).map f = sortByIndex (entries.map f) := by
  apply List.map_mergeSort
  intro a _ b _
  rw [hf, hf]

lemma sortByIndex_eq_nil_iff : sortByIndex as = [] ↔ as = [] := by
  rw [← List.length_eq_zero_iff, ← List.length_eq_zero_iff, sortByIndex, List.length_mergeSort]

end WasmBinary.Names
