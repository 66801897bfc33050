import Mathlib.Data.List.Chain
import Mathlib.Tactic.Lemma
import WasmBinary.Section.Code

/-!
# Groups of locals

The groups of a function body are the runs of equal types in the list of its locals. There is one
such list of groups, and none that stands for the same locals is shorter. It is also what a loop
from the first to the last local gives, and no count overflows in it.
-/

namespace WasmBinary

/-- The types of the locals that groups stand for. -/
def Local.expand (groups : List Local) : List ValType :=
  groups.flatMap fun group => List.replicate group.count.toNat group.type

namespace Code

open Local

/-- Groups that stand for the given locals, none of them empty and none like the one before it. -/
structure Runs (types : List ValType) (groups : List Local) : Prop where
  expand_eq : expand groups = types
  one_le : ∀ group ∈ groups, 1 ≤ group.count
  differ : groups.IsChain fun a b => a.type ≠ b.type

/-- Adds a local behind groups. Fails if the last group has no room for it in its count. -/
def pushLocal (groups : List Local) (type : ValType) : Option (List Local) :=
  match groups.getLast? with
  | none => some [⟨1, type⟩]
  | some last =>
    if last.type = type then
      if last.count.toNat + 1 < UInt32.size then
        some (groups.dropLast ++ [⟨last.count + 1, type⟩])
      else none
    else some (groups ++ [⟨1, type⟩])

variable {types : List ValType} {groups : List Local} {count : UInt32} {type : ValType}

lemma expand_cons (group : Local) (groups : List Local) :
    expand (group :: groups) = List.replicate group.count.toNat group.type ++ expand groups :=
  List.flatMap_cons

lemma expand_concat (groups : List Local) (group : Local) :
    expand (groups ++ [group]) =
      expand groups ++ List.replicate group.count.toNat group.type := by
  unfold expand
  rw [List.flatMap_append, List.flatMap_singleton]

lemma toNat_add_one (h : count.toNat + 1 < UInt32.size) :
    (count + 1).toNat = count.toNat + 1 := by
  rw [UInt32.toNat_add]
  exact Nat.mod_eq_of_lt h

/-! ### The loop over the locals -/

lemma pushLocal_concat (groups : List Local) (last : Local) (type : ValType) :
    pushLocal (groups ++ [last]) type =
      if last.type = type then
        if last.count.toNat + 1 < UInt32.size then some (groups ++ [⟨last.count + 1, type⟩])
        else none
      else some (groups ++ [last] ++ [⟨1, type⟩]) := by
  unfold pushLocal
  rw [List.getLast?_concat, List.dropLast_concat]

lemma runs_concat_iff {last : Local} :
    Runs types (groups ++ [last]) ↔
      expand groups ++ List.replicate last.count.toNat last.type = types ∧
      ((∀ group ∈ groups, 1 ≤ group.count) ∧ 1 ≤ last.count) ∧
      (groups.IsChain fun a b => a.type ≠ b.type) ∧
      ∀ group ∈ groups.getLast?, group.type ≠ last.type := by
  have hones : (∀ group ∈ groups ++ [last], 1 ≤ group.count) ↔
      (∀ group ∈ groups, 1 ≤ group.count) ∧ 1 ≤ last.count := by
    rw [List.forall_mem_append, List.forall_mem_singleton]
  have hchain : ((groups ++ [last]).IsChain fun a b => a.type ≠ b.type) ↔
      (groups.IsChain fun a b => a.type ≠ b.type) ∧
        ∀ group ∈ groups.getLast?, group.type ≠ last.type := by
    simp [List.isChain_append]
  rw [← expand_concat, ← hones, ← hchain]
  constructor
  · intro h
    exact ⟨h.expand_eq, h.one_le, h.differ⟩
  · rintro ⟨hexpand, hone, hdiffer⟩
    exact ⟨hexpand, hone, hdiffer⟩

/-- From runs of the locals so far, the loop makes runs of these and the next one. -/
lemma Runs.push (h : Runs types groups) (hlength : types.length + 1 < UInt32.size)
    (type : ValType) :
    ∃ next, pushLocal groups type = some next ∧ Runs (types ++ [type]) next := by
  rcases List.eq_nil_or_concat' groups with rfl | ⟨front, last, rfl⟩
  · obtain ⟨rfl, -, -⟩ := h
    exact ⟨[⟨1, type⟩], rfl, rfl, by simp, List.isChain_singleton _⟩
  · obtain ⟨rfl, ⟨hfront, hone⟩, hchain, hnext⟩ := runs_concat_iff.mp h
    rw [pushLocal_concat]
    by_cases hsame : last.type = type
    · have hcount : last.count.toNat + 1 < UInt32.size := by
        rw [List.length_append, List.length_replicate] at hlength
        omega
      have hgrown : 1 ≤ last.count + 1 := by
        rw [UInt32.le_iff_toNat_le, toNat_add_one hcount]
        exact Nat.le_add_left _ _
      rw [if_pos hsame, if_pos hcount]
      refine ⟨_, rfl, runs_concat_iff.mpr ⟨?_, ⟨hfront, hgrown⟩, hchain, ?_⟩⟩
      · rw [toNat_add_one hcount, List.replicate_succ', hsame, List.append_assoc]
      · -- The group that grows keeps its type.
        rwa [← hsame]
    · rw [if_neg hsame]
      refine ⟨_, rfl, runs_concat_iff.mpr ⟨?_, ⟨h.one_le, UInt32.le_refl 1⟩, h.differ, ?_⟩⟩
      · rw [expand_concat]
        rfl
      · rw [List.getLast?_concat]
        rintro group ⟨rfl⟩
        exact hsame

lemma Runs.foldlM_push (h : Runs types groups) (more : List ValType)
    (hlength : (types ++ more).length < UInt32.size) :
    ∃ last, more.foldlM pushLocal groups = some last ∧ Runs (types ++ more) last := by
  induction more generalizing types groups with
  | nil => exact ⟨groups, rfl, by rwa [List.append_nil]⟩
  | cons type more ih =>
    have hnext : types.length + 1 < UInt32.size := by
      rw [List.length_append, List.length_cons] at hlength
      omega
    obtain ⟨next, hpush, hruns⟩ := h.push hnext type
    rw [← List.singleton_append, ← List.append_assoc] at hlength ⊢
    rw [List.singleton_append, List.foldlM_cons, hpush]
    exact ih hruns hlength

/-! ### Groups taken apart again -/

lemma groupLocals_append (as bs : List ValType) :
    groupLocals (as ++ bs) = as.foldr consLocal (groupLocals bs) := List.foldr_append

/-- More locals of the type of the first group only raise its count. -/
lemma foldr_consLocal_replicate {rest : List Local}
    (h : consLocal type groups = ⟨count, type⟩ :: rest) (n : Nat) :
    (List.replicate (n + 1) type).foldr consLocal groups =
      ⟨count + UInt32.ofNat n, type⟩ :: rest := by
  induction n with
  | zero => simpa using h
  | succ n ih =>
    rw [List.replicate_succ, List.foldr_cons, ih, consLocal, if_pos rfl, UInt32.add_assoc,
      UInt32.ofNat_add]
    rfl

lemma consLocal_of_differ (h : ∀ group ∈ groups.head?, type ≠ group.type) :
    consLocal type groups = ⟨1, type⟩ :: groups := by
  cases groups with
  | nil => rfl
  | cons group groups => rw [consLocal, if_neg (h group rfl).symm]

lemma exists_consLocal_eq (type : ValType) (groups : List Local) :
    ∃ count rest, consLocal type groups = ⟨count, type⟩ :: rest ∧ rest.length ≤ groups.length := by
  cases groups with
  | nil => exact ⟨1, [], rfl, Nat.le_refl _⟩
  | cons group groups =>
    rw [consLocal]
    split
    · exact ⟨_, _, rfl, Nat.le_succ _⟩
    · exact ⟨_, _, rfl, Nat.le_refl _⟩

/-- Runs are the groups of the locals that they stand for, so there are no others. -/
theorem groupLocals_eq_of_runs (h : Runs types groups) : groupLocals types = groups := by
  obtain ⟨rfl, hone, hdiffer⟩ := h
  induction groups with
  | nil => rfl
  | cons group groups ih =>
    obtain ⟨hfirst, hrest⟩ := List.forall_mem_cons.mp hone
    obtain ⟨hhead, htail⟩ := List.isChain_cons.mp hdiffer
    obtain ⟨n, hn⟩ := Nat.exists_eq_succ_of_ne_zero
      (Nat.ne_of_gt (UInt32.le_iff_toNat_le.mp hfirst))
    have hcount : 1 + UInt32.ofNat n = group.count := by
      rw [← UInt32.ofNat_toNat (x := group.count), hn, UInt32.add_comm, Nat.succ_eq_add_one,
        UInt32.ofNat_add]
      rfl
    rw [expand_cons, groupLocals_append, ih hrest htail, hn,
      foldr_consLocal_replicate (consLocal_of_differ hhead), hcount]

theorem length_groupLocals_expand_le (groups : List Local) :
    (groupLocals (expand groups)).length ≤ groups.length := by
  induction groups with
  | nil => exact Nat.le_refl 0
  | cons group groups ih =>
    rw [expand_cons, groupLocals_append, List.length_cons]
    cases group.count.toNat with
    | zero => exact Nat.le_succ_of_le ih
    | succ n =>
      obtain ⟨count, rest, hcons, hrest⟩ :=
        exists_consLocal_eq group.type (groupLocals (expand groups))
      rw [foldr_consLocal_replicate hcons, List.length_cons]
      exact Nat.succ_le_succ (hrest.trans ih)

/-- The groups of a function body are the only runs of its locals, and there are no fewer groups
that stand for these. A loop that adds one local after another makes them, and no count overflows
in it. -/
theorem locals_grouped (types : List ValType) (body : Expr) (h : types.length < UInt32.size) :
    let code := ofLocals types body
    code.body = body ∧ types.foldlM pushLocal [] = some code.locals ∧ Runs types code.locals ∧
      (∀ groups, Runs types groups → groups = code.locals) ∧
      ∀ groups, expand groups = types → code.locals.length ≤ groups.length := by
  have hnil : Runs [] [] := ⟨rfl, List.forall_mem_nil _, List.isChain_nil⟩
  obtain ⟨last, hloop, hruns⟩ := hnil.foldlM_push types h
  obtain rfl : groupLocals types = last := groupLocals_eq_of_runs hruns
  refine ⟨rfl, hloop, hruns, ?_, ?_⟩
  · intro groups hgroups
    exact (groupLocals_eq_of_runs hgroups).symm
  · rintro groups rfl
    exact length_groupLocals_expand_le groups

/-- Two runs of one type with another run between them. -/
theorem locals_grouped_in_three_runs :
    let types : List ValType := [.i32, .i32, .f64, .i32]
    let groups : List Local := [⟨2, .i32⟩, ⟨1, .f64⟩, ⟨1, .i32⟩]
    let split : List Local := [⟨1, .i32⟩, ⟨1, .i32⟩, ⟨1, .f64⟩, ⟨1, .i32⟩]
    types.length < UInt32.size ∧ (ofLocals types ⟨[]⟩).locals = groups ∧ Runs types groups ∧
      types.foldlM pushLocal [] = some groups ∧ expand split = types ∧
      groups.length ≤ split.length ∧ ¬Runs types split := by
  intro types groups split
  have hlength : types.length < UInt32.size := by decide
  obtain ⟨-, hloop, hruns, hunique, hshortest⟩ := locals_grouped types ⟨[]⟩ hlength
  refine ⟨hlength, rfl, hruns, hloop, rfl, hshortest split rfl, ?_⟩
  intro hsplit
  exact absurd (hunique split hsplit) (by decide)

end Code

end WasmBinary
