import WasmBinary.Proofs.Atomicity
import WasmBinary.Proofs.Recorder

/-!
# Parallel and sequential runs

Tasks that are collected give their results in the order of their indices, or the error of one of
them that fails. So a parallel run gives the image that the sequential run gives, or fails like one
of the sections. Tasks that run under a schedule are collected in this way, and any of the errors
can be the one that is given, as schedules differ.
-/

namespace WasmBinary

open Encoder

namespace Schedule

variable {n : Nat} {ε α : Type} {task : Fin n → Except ε α}

/-- The step of `collect`: runs a task and puts its result into its slot. -/
def fill (task : Fin n → Except ε α) (slots : Vector α n) (i : Fin n) : Except ε (Vector α n) := do
  let result ← task i
  return slots.set i result i.isLt

lemma collect_eq (schedule : Schedule n) (placeholder : α) :
    schedule.collect placeholder task =
      schedule.order.foldlM (fill task) (Vector.replicate n placeholder) := rfl

lemma foldlM_fill_of_ok {i : Fin n} {result : α} (h : task i = .ok result) (order : List (Fin n))
    (slots : Vector α n) :
    (i :: order).foldlM (fill task) slots =
      order.foldlM (fill task) (slots.set i result i.isLt) := by
  rw [List.foldlM_cons, fill, h]
  rfl

lemma foldlM_fill_of_error {i : Fin n} {e : ε} (h : task i = .error e) (order : List (Fin n))
    (slots : Vector α n) : (i :: order).foldlM (fill task) slots = .error e := by
  rw [List.foldlM_cons, fill, h]
  rfl

/-- The slots of the tasks that have run hold their results, the others what they held before. -/
lemma foldlM_fill_ok {order : List (Fin n)} {slots results : Vector α n}
    (h : order.foldlM (fill task) slots = .ok results) (i : Fin n) :
    (i ∈ order → task i = .ok (results.get i)) ∧ (i ∉ order → results.get i = slots.get i) := by
  induction order generalizing slots with
  | nil =>
    obtain rfl : slots = results := Except.ok.inj h
    exact ⟨fun hi => absurd hi List.not_mem_nil, fun _ => rfl⟩
  | cons j order ih =>
    cases hj : task j with
    | error e =>
      rw [foldlM_fill_of_error hj] at h
      exact nomatch h
    | ok result =>
      rw [foldlM_fill_of_ok hj] at h
      obtain ⟨hrun, hkeep⟩ := ih h
      refine ⟨?_, ?_⟩
      · intro hi
        by_cases hmem : i ∈ order
        · exact hrun hmem
        · obtain rfl : i = j := (List.mem_cons.mp hi).resolve_right hmem
          rw [hj, hkeep hmem]
          exact congrArg Except.ok (Vector.getElem_set_self i.isLt).symm
      · intro hi
        rw [List.mem_cons, not_or] at hi
        rw [hkeep hi.2]
        exact Vector.getElem_set_ne _ _ fun h => hi.1 (Fin.ext h.symm)

lemma foldlM_fill_error {order : List (Fin n)} {slots : Vector α n} {e : ε}
    (h : order.foldlM (fill task) slots = .error e) : ∃ i, task i = .error e := by
  induction order generalizing slots with
  | nil => exact nomatch h
  | cons j order ih =>
    cases hj : task j with
    | error e' =>
      rw [foldlM_fill_of_error hj] at h
      obtain rfl : e' = e := Except.error.inj h
      exact ⟨j, hj⟩
    | ok result =>
      rw [foldlM_fill_of_ok hj] at h
      exact ih h

lemma collects (schedule : Schedule n) (task : Fin n → Except ε α) (placeholder : α) :
    Collects task (schedule.collect placeholder task) := by
  rw [collect_eq]
  cases h : schedule.order.foldlM (fill task) (Vector.replicate n placeholder) with
  | error e => exact foldlM_fill_error h
  | ok results =>
    intro i
    exact (foldlM_fill_ok h i).1 (schedule.perm.mem_iff.mpr (List.mem_finRange i))

/-- The schedule in which a task is complete before all others. -/
def startingWith (i : Fin n) : Schedule n :=
  ⟨i :: (List.finRange n).erase i, (List.perm_cons_erase (List.mem_finRange i)).symm⟩

/-- Schedules account for everything that can come of running tasks, and for nothing else. -/
theorem exists_collect_eq_iff (task : Fin n → Except ε α) (placeholder : α)
    (outcome : Except ε (Vector α n)) :
    (∃ schedule : Schedule n, schedule.collect placeholder task = outcome) ↔
      Collects task outcome := by
  constructor
  · rintro ⟨schedule, rfl⟩
    exact schedule.collects task placeholder
  · intro h
    cases outcome with
    | error e =>
      obtain ⟨i, hi⟩ := h
      exact ⟨startingWith i, foldlM_fill_of_error hi _ _⟩
    | ok results =>
      refine ⟨inOrder n, ?_⟩
      have hcollects := (inOrder n).collects task placeholder
      cases hcollect : (inOrder n).collect placeholder task with
      | error e =>
        rw [hcollect] at hcollects
        obtain ⟨i, hi⟩ := hcollects
        exact nomatch hi.symm.trans (h i)
      | ok results' =>
        rw [hcollect] at hcollects
        have heq : results' = results := by
          apply Vector.ext
          intro i hi
          exact Except.ok.inj ((hcollects ⟨i, hi⟩).symm.trans (h ⟨i, hi⟩))
        rw [heq]

end Schedule

namespace Module

variable (m : Module)

def sectionTask (i : Fin m.sections.length) : Except EncodeError Bytes :=
  toBytes (m.sections.get i)

lemma parallelImage_eq (collect : Collector m.sections.length EncodeError Bytes) :
    m.parallelImage collect = (collect m.sectionTask).map fun images =>
      magic ++ version ++ images.toList.flatten := by
  change Except.bind (collect m.sectionTask) _ = _
  cases collect m.sectionTask <;> rfl

variable {m}

lemma pieces_of_collects {images : Vector Bytes m.sections.length}
    (h : Collects m.sectionTask (.ok images)) : Pieces m.sections images.toList := by
  refine List.forall₂_iff_get.mpr ⟨images.length_toList.symm, ?_⟩
  intro i hi _
  exact h ⟨i, hi⟩

/-- A parallel run can end with the error of any section that fails, and with no other. -/
theorem exists_parallelImage_eq_error_iff {e : EncodeError} :
    (∃ schedule : Schedule m.sections.length, m.parallelImage (schedule.collect []) = .error e) ↔
      ∃ i : Fin m.sections.length, toBytes (m.sections.get i) = .error e := by
  have hcollect := Schedule.exists_collect_eq_iff m.sectionTask [] (.error e)
  refine Iff.trans (exists_congr fun schedule => ?_) hcollect
  rw [parallelImage_eq]
  cases schedule.collect [] m.sectionTask with
  | error e' => simp [Except.map]
  | ok images => simp [Except.map]

lemma toBytes_error_of_section {i : Fin m.sections.length} {e : EncodeError}
    (h : toBytes (m.sections.get i) = .error e) : ∃ e', toBytes m = .error e' := by
  obtain ⟨k, e', hk⟩ := exists_failsAt ⟨m.sections.get i, List.getElem_mem i.isLt, e, h⟩
  exact ⟨e', hk.toBytes_eq⟩

section Collected

variable {collect : Collector m.sections.length EncodeError Bytes}
  (hcollect : Collects m.sectionTask (collect m.sectionTask))

include hcollect

lemma exists_section_of_parallelImage {e : EncodeError} (h : m.parallelImage collect = .error e) :
    ∃ i : Fin m.sections.length, toBytes (m.sections.get i) = .error e := by
  rw [parallelImage_eq] at h
  cases houtcome : collect m.sectionTask with
  | ok images =>
    rw [houtcome] at h
    exact nomatch h
  | error e' =>
    rw [houtcome] at h hcollect
    obtain rfl : e' = e := Except.error.inj h
    exact hcollect

lemma toBytes_of_parallelImage {b : Bytes} (h : m.parallelImage collect = .ok b) :
    toBytes m = .ok b := by
  rw [parallelImage_eq] at h
  cases houtcome : collect m.sectionTask with
  | error e =>
    rw [houtcome] at h
    exact nomatch h
  | ok images =>
    rw [houtcome] at h hcollect
    obtain rfl : magic ++ version ++ images.toList.flatten = b := Except.ok.inj h
    exact toBytes_module_iff.mpr ⟨images.toList, pieces_of_collects hcollect, rfl⟩

theorem parallelImage_eq_ok_iff {b : Bytes} :
    m.parallelImage collect = .ok b ↔ toBytes m = .ok b := by
  constructor
  · exact toBytes_of_parallelImage hcollect
  · intro h
    cases hparallel : m.parallelImage collect with
    | ok b' =>
      rw [← h, toBytes_of_parallelImage hcollect hparallel]
    | error e =>
      obtain ⟨i, hi⟩ := exists_section_of_parallelImage hcollect hparallel
      obtain ⟨e', he'⟩ := toBytes_error_of_section hi
      exact nomatch h.symm.trans he'

lemma parallelImage_eq_of_unique
    (h : ∃! i : Fin m.sections.length, ∃ e, toBytes (m.sections.get i) = .error e) :
    m.parallelImage collect = toBytes m := by
  cases hparallel : m.parallelImage collect with
  | ok b => exact (toBytes_of_parallelImage hcollect hparallel).symm
  | error e =>
    obtain ⟨i, hi⟩ := exists_section_of_parallelImage hcollect hparallel
    obtain ⟨e', he'⟩ := toBytes_error_of_section hi
    obtain ⟨k, hk⟩ := toBytes_eq_error_iff.mp he'
    obtain rfl : i = k := h.unique ⟨e, hi⟩ ⟨e', hk.fails⟩
    obtain rfl : e = e' := Except.error.inj (hi.symm.trans hk.fails)
    exact he'.symm

end Collected

end Module

/-- However the images of the sections are collected, a parallel run gives the image of the module
if there is one, as the sequential run does. Otherwise it ends with the error of a section that fails,
and under some schedule with that of any of them. If only one section fails, it is the error of the
sequential run. Checking the order of the sections changes nothing of this. -/
theorem parallel_run_agrees (m : Module) (collect : Collector m.sections.length EncodeError Bytes)
    (hcollect : Collects m.sectionTask (collect m.sectionTask)) (checkOrder : Bool) :
    let parallel := (m.runWith ⟨true, checkOrder⟩ collect).result
    let sequential := (m.runWith ⟨false, checkOrder⟩ collect).result
    sequential = toBytes m ∧
    (∀ b, parallel = .ok b ↔ toBytes m = .ok b) ∧
    (∀ e, parallel = .error e → ∃ sec ∈ m.sections, toBytes sec = .error e) ∧
    ((∃! i : Fin m.sections.length, ∃ e, toBytes (m.sections.get i) = .error e) →
      parallel = sequential) ∧
    (∀ sec ∈ m.sections, ∀ e, toBytes sec = .error e →
      ∃ schedule, (m.run ⟨true, checkOrder⟩ schedule).result = .error e) ∧
    ∀ parallelSections checkOrder', (m.runWith ⟨parallelSections, checkOrder'⟩ collect).result =
      (m.runWith ⟨parallelSections, checkOrder⟩ collect).result := by
  intro parallel sequential
  have hparallel : parallel = m.parallelImage collect := rfl
  have hsequential : sequential = toBytes m := m.sequentialRun_result
  refine ⟨hsequential, ?_, ?_, ?_, ?_, ?_⟩
  · intro b
    rw [hparallel, Module.parallelImage_eq_ok_iff hcollect]
  · intro e he
    obtain ⟨i, hi⟩ := Module.exists_section_of_parallelImage hcollect he
    exact ⟨m.sections.get i, List.getElem_mem i.isLt, hi⟩
  · intro hunique
    rw [hparallel, hsequential, Module.parallelImage_eq_of_unique hcollect hunique]
  · intro sec hsec e he
    obtain ⟨i, hi, rfl⟩ := List.getElem_of_mem hsec
    exact Module.exists_parallelImage_eq_error_iff.mpr ⟨⟨i, hi⟩, he⟩
  · intro parallelSections checkOrder'
    rfl

/-- The second of three sections fails, while the last one is the first to be complete. -/
theorem parallel_run_agrees_last_first :
    let global : Global := ⟨⟨.const, .i32⟩, ⟨[.intConst .w32 (2 ^ 40)]⟩⟩
    let m : Module := ⟨[.start 7, .globals [global], .custom ⟨"a", [1]⟩]⟩
    let e : EncodeError := .outOfRange (.pattern .w32) (2 ^ 40)
    (∃! i : Fin m.sections.length, ∃ e, toBytes (m.sections.get i) = .error e) ∧
      (m.run ⟨true, true⟩ (.startingWith 2)).result = .error e ∧
      (m.run ⟨false, false⟩).result = .error e := by
  intro global m e
  have hstart : toBytes (Section.start 7) = .ok [8, 1, 7] := by cbv
  have hglobals : toBytes (Section.globals [global]) = .error e := by cbv
  have hcustom : toBytes (Section.custom ⟨"a", [1]⟩) = .ok [0, 3, 1, 97, 1] := by cbv
  have hm : toBytes m = .error e := by cbv
  have hunique : ∃! i : Fin m.sections.length, ∃ e, toBytes (m.sections.get i) = .error e := by
    refine ⟨1, ⟨e, hglobals⟩, ?_⟩
    rintro ⟨i, hi⟩ ⟨e', he'⟩
    have hcases : i = 0 ∨ i = 1 ∨ i = 2 := by
      change i < 3 at hi
      omega
    obtain rfl | rfl | rfl := hcases
    · cases hstart.symm.trans he'
    · rfl
    · cases hcustom.symm.trans he'
  let schedule : Schedule m.sections.length := .startingWith 2
  obtain ⟨hsequential, -, -, hagree, -, horder⟩ :=
    parallel_run_agrees m (schedule.collect []) (schedule.collects m.sectionTask []) true
  refine ⟨hunique, ?_, ?_⟩
  · exact (hagree hunique).trans (hsequential.trans hm)
  · exact (horder false false).trans (hsequential.trans hm)

end WasmBinary
