import Mathlib.Data.List.Chain
import Mathlib.Tactic.Lemma
import WasmBinary.Module.Order

/-!
# Warnings about the order of sections

Each section is compared only with the one just before it. This is enough to tell whether all ids
ascend, since there is a warning for every place where they do not. Custom sections make no
difference.
-/

namespace WasmBinary

instance : LT SectionId := ⟨fun a b => a.byte < b.byte⟩

namespace Module

/-- The module with its custom sections left out. -/
def withoutCustom (m : Module) : Module := ⟨m.sections.filter fun sec => sec.id ≠ .custom⟩

/-- The ids of the sections that are compared. -/
def comparedIds (m : Module) : List SectionId := m.withoutCustom.sections.map Section.id

/-- The pairs of neighbours that do not ascend. -/
def descents (ids : List SectionId) : List (SectionId × SectionId) :=
  (ids.zip ids.tail).filter fun pair => pair.2 ≤ pair.1

lemma descents_of_le {a b : SectionId} (h : b ≤ a) (ids : List SectionId) :
    descents (a :: b :: ids) = (a, b) :: descents (b :: ids) :=
  List.filter_cons_of_pos (decide_eq_true h)

lemma descents_of_not_le {a b : SectionId} (h : ¬b ≤ a) (ids : List SectionId) :
    descents (a :: b :: ids) = descents (b :: ids) :=
  List.filter_cons_of_neg (by simpa using h)

lemma comparedIds_of_custom {sec : Section} (h : sec.id = .custom) (secs : List Section) :
    comparedIds ⟨sec :: secs⟩ = comparedIds ⟨secs⟩ := by
  simp [comparedIds, withoutCustom, h]

lemma comparedIds_of_ne {sec : Section} (h : sec.id ≠ .custom) (secs : List Section) :
    comparedIds ⟨sec :: secs⟩ = sec.id :: comparedIds ⟨secs⟩ := by
  simp [comparedIds, withoutCustom, h]

/-- The id of the section before is that of a neighbour, whatever custom sections stand between. -/
lemma orderWarningsAfter_eq (last : Option SectionId) (secs : List Section) :
    orderWarningsAfter last secs =
      (descents (last.toList ++ comparedIds ⟨secs⟩)).map fun pair => .outOfOrder pair.1 pair.2 := by
  induction secs generalizing last with
  | nil => cases last <;> rfl
  | cons sec secs ih =>
    rw [orderWarningsAfter.eq_def]
    dsimp only
    by_cases hcustom : sec.id = .custom
    · rw [if_pos hcustom, ih, comparedIds_of_custom hcustom]
    · rw [if_neg hcustom, comparedIds_of_ne hcustom]
      have hnext := ih (some sec.id)
      cases last with
      | none => exact hnext
      | some previous =>
        dsimp only
        rw [hnext]
        by_cases hle : sec.id ≤ previous
        · rw [if_pos hle]
          simp only [Option.toList_some, List.singleton_append, descents_of_le hle, List.map_cons]
        · rw [if_neg hle]
          simp only [Option.toList_some, List.singleton_append, descents_of_not_le hle]

lemma descents_eq_nil_iff (ids : List SectionId) :
    descents ids = [] ↔ ids.IsChain (· < ·) := by
  induction ids with
  | nil => exact iff_of_true rfl List.isChain_nil
  | cons a ids ih =>
    cases ids with
    | nil => exact iff_of_true rfl (List.isChain_singleton a)
    | cons b ids =>
      have hlt : a < b ↔ ¬b ≤ a := UInt8.not_le.symm
      rw [List.isChain_cons_cons, hlt, ← ih]
      by_cases hle : b ≤ a
      · simp [descents_of_le hle, hle]
      · simp [descents_of_not_le hle, hle]

instance : Trans (α := SectionId) (· < ·) (· < ·) (· < ·) := ⟨UInt8.lt_trans⟩

lemma orderWarnings_eq (m : Module) :
    m.orderWarnings = (descents m.comparedIds).map fun pair => .outOfOrder pair.1 pair.2 :=
  orderWarningsAfter_eq none m.sections

/-- The warnings are about the neighbours that do not ascend. So there are none exactly if every
section has a larger id than all sections before it, and custom sections have no part in this. -/
theorem order_warnings_exact (m : Module) :
    let ids := m.comparedIds
    m.orderWarnings =
      ((ids.zip ids.tail).filter fun pair => pair.2 ≤ pair.1).map
        (fun pair => .outOfOrder pair.1 pair.2) ∧
    (m.orderWarnings = [] ↔ ids.Pairwise (· < ·)) ∧
    (m.orderWarnings = [] → ids.Nodup) ∧
    ∀ m' : Module, m'.withoutCustom = m.withoutCustom → m'.orderWarnings = m.orderWarnings := by
  intro ids
  have hnone : m.orderWarnings = [] ↔ ids.Pairwise (· < ·) := by
    rw [orderWarnings_eq, List.map_eq_nil_iff, descents_eq_nil_iff, List.isChain_iff_pairwise]
  refine ⟨orderWarnings_eq m, hnone, ?_, ?_⟩
  · intro h
    refine (hnone.mp h).imp ?_
    rintro a _ hlt rfl
    exact UInt8.lt_irrefl _ hlt
  · intro m' h
    rw [orderWarnings_eq, orderWarnings_eq, comparedIds, h]
    rfl

/-- Sections out of order in two places, each time with a custom section between the two that are
compared. The same sections without the custom ones have the same warnings. -/
theorem order_warnings_exact_around_custom :
    let custom : Section := .custom ⟨"a", []⟩
    let m : Module := ⟨[custom, .start 7, custom, .types [], custom, custom, .types [], .datas []]⟩
    let m' : Module := ⟨[.start 7, .types [], .types [], .datas []]⟩
    let sorted : Module := ⟨[.types [], custom, .start 7, .datas []]⟩
    m.orderWarnings = [.outOfOrder .start .types, .outOfOrder .types .types] ∧
      m'.withoutCustom = m.withoutCustom ∧ m'.orderWarnings = m.orderWarnings ∧
      ¬m.comparedIds.Pairwise (· < ·) ∧
      sorted.orderWarnings = [] ∧ sorted.comparedIds.Nodup := by
  intro custom m m' sorted
  obtain ⟨hwarnings, hascend, -, hblind⟩ := order_warnings_exact m
  obtain ⟨-, -, hnodup, -⟩ := order_warnings_exact sorted
  have hsorted : sorted.orderWarnings = [] := rfl
  refine ⟨hwarnings, rfl, hblind m' rfl, ?_, hsorted, hnodup hsorted⟩
  intro h
  have hnone := hwarnings.symm.trans (hascend.mpr h)
  exact absurd hnone (List.cons_ne_nil _ _)

end Module

end WasmBinary
