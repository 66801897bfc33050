import WasmBinary.Module

/-!
# Sections encoded in parallel

The sections of a module do not depend on each other, so their images can be made in any order and
are then collected. All that a parallel run relies on is `Collects`. A schedule is an order in which
the images are complete. Each of them goes into the slot of its section, and the first failure to
occur ends the run.
-/

namespace WasmBinary

/-- A way to run `n` tasks and to collect what comes of them. -/
abbrev Collector (n : Nat) (ε α : Type) := (Fin n → Except ε α) → Except ε (Vector α n)

/-- What can come of running tasks in any order: all results in the order of the indices, or the
error of a task that fails. -/
def Collects {n : Nat} {ε α : Type} (task : Fin n → Except ε α) : Except ε (Vector α n) → Prop
  | .ok results => ∀ i, task i = .ok (results.get i)
  | .error e => ∃ i, task i = .error e

/-- An order in which `n` tasks can be completed. -/
structure Schedule (n : Nat) where
  order : List (Fin n)
  perm : order.Perm (List.finRange n)

/-- The tasks in the order of their indices. -/
def Schedule.inOrder (n : Nat) : Schedule n := ⟨List.finRange n, .refl _⟩

/-- Runs tasks as they are scheduled and gives their results in the order of their indices.
Slots hold `placeholder` until their task is complete. -/
def Schedule.collect {n : Nat} {ε α : Type} (schedule : Schedule n) (placeholder : α) :
    Collector n ε α := fun task =>
  schedule.order.foldlM
    (fun slots i => do
      let result ← task i
      return slots.set i result)
    (Vector.replicate n placeholder)

namespace Module

/-- The image of a module whose sections are encoded in parallel. -/
def parallelImage (m : Module) (collect : Collector m.sections.length EncodeError Bytes) :
    Except EncodeError Bytes := do
  let sections : Vector Section m.sections.length := ⟨m.sections.toArray, List.size_toArray⟩
  let images ← collect fun i => toBytes sections[i]
  return magic ++ version ++ images.toList.flatten

end Module

end WasmBinary
