import WasmBinary.Proofs.Violation

/-!
# Equality of modules

Modules are compared part by part, and the floating-point constants in them as numbers. So a NaN
makes a module differ from all modules. Without NaNs, modules are equal exactly if they are the same
once the zeros in them have lost their signs.
-/

namespace WasmBinary

/-! ### Numbers -/

namespace FloatBits

variable {width : Width} {x y : FloatBits width}

/-- The bits between the sign and the fraction. -/
def exponent (x : FloatBits width) : BitVec (width.bits - 1 - width.fractionBits) :=
  x.bits.extractLsb' width.fractionBits _

/-- The lowest bits, after the binary point. -/
def fraction (x : FloatBits width) : BitVec width.fractionBits := x.bits.setWidth _

lemma magnitude_eq (x : FloatBits width) :
    x.magnitude = x.exponent.toNat * 2 ^ width.fractionBits + x.fraction.toNat := by
  rw [magnitude, exponent, fraction, BitVec.extractLsb'_toNat, BitVec.toNat_setWidth,
    Nat.shiftRight_eq_div_pow, Nat.one_shiftLeft]
  generalize x.bits.toNat = n
  cases width
  · change n % 2 ^ 31 = n / 2 ^ 23 % 2 ^ 8 * 2 ^ 23 + n % 2 ^ 23
    omega
  · change n % 2 ^ 63 = n / 2 ^ 52 % 2 ^ 11 * 2 ^ 52 + n % 2 ^ 52
    omega

/-- A pattern stands for no number exactly if all bits of its exponent are set, as in infinity, and
some bit of its fraction. -/
theorem isNaN_iff : x.isNaN = true ↔ x.exponent = BitVec.allOnes _ ∧ x.fraction ≠ 0 := by
  have hexponent := x.exponent.isLt
  have hfraction := x.fraction.isLt
  rw [isNaN, decide_eq_true_iff, magnitude_eq, ← BitVec.toNat_inj, ne_eq, ← BitVec.toNat_inj,
    BitVec.toNat_allOnes]
  generalize x.exponent.toNat = e at hexponent ⊢
  generalize x.fraction.toNat = f at hfraction ⊢
  cases width
  · change 2 ^ 31 - 2 ^ 23 < e * 2 ^ 23 + f ↔ e = 2 ^ 8 - 1 ∧ ¬f = 0
    change e < 2 ^ 8 at hexponent
    change f < 2 ^ 23 at hfraction
    omega
  · change 2 ^ 63 - 2 ^ 52 < e * 2 ^ 52 + f ↔ e = 2 ^ 11 - 1 ∧ ¬f = 0
    change e < 2 ^ 11 at hexponent
    change f < 2 ^ 52 at hfraction
    omega

/-- The same number, as zero without a sign if it is zero. -/
def dropZeroSign (x : FloatBits width) : FloatBits width := if x.isZero then ⟨0⟩ else x

lemma isZero_zero : (⟨0⟩ : FloatBits width).isZero = true := by
  simp [isZero, magnitude]

lemma dropZeroSign_of_not_isZero (h : x.isZero = false) : x.dropZeroSign = x := by
  rw [dropZeroSign, h]
  rfl

lemma isZero_dropZeroSign (x : FloatBits width) : x.dropZeroSign.isZero = x.isZero := by
  unfold dropZeroSign
  by_cases hx : x.isZero
  · rw [if_pos hx, isZero_zero, hx]
  · rw [if_neg hx]

lemma dropZeroSign_eq_iff :
    x.dropZeroSign = y.dropZeroSign ↔ x.bits = y.bits ∨ x.isZero = true ∧ y.isZero = true := by
  constructor
  · intro h
    have hzero : x.isZero = y.isZero := by
      rw [← isZero_dropZeroSign x, h, isZero_dropZeroSign]
    by_cases hx : x.isZero
    · exact .inr ⟨hx, hzero ▸ hx⟩
    · rw [dropZeroSign, dropZeroSign, if_neg hx, if_neg (hzero ▸ hx)] at h
      exact .inl (congrArg bits h)
  · rintro (hbits | ⟨hx, hy⟩)
    · rw [show x = y from congrArg mk hbits]
    · rw [dropZeroSign, dropZeroSign, if_pos hx, if_pos hy]

lemma beq_iff : (x == y) = true ↔
    x.isNaN = false ∧ y.isNaN = false ∧ x.dropZeroSign = y.dropZeroSign := by
  change (!x.isNaN && !y.isNaN && (x.bits == y.bits || (x.isZero && y.isZero))) = true ↔ _
  rw [dropZeroSign_eq_iff]
  simp [and_assoc]

end FloatBits

/-! ### Instructions -/

namespace Instr

def isNaN : Instr → Bool
  | .f32Const value => value.isNaN
  | .f64Const value => value.isNaN
  | _ => false

/-- Whether the instruction is a floating-point constant that is zero, with or without a sign. -/
def isZero : Instr → Bool
  | .f32Const value => value.isZero
  | .f64Const value => value.isZero
  | _ => false

mutual

def dropZeroSigns : Instr → Instr
  | .bare op => .bare op
  | .block kind type body => .block kind type (seqDropZeroSigns body)
  | .ifElse type thenBody elseBody =>
    .ifElse type (seqDropZeroSigns thenBody) (seqDropZeroSigns elseBody)
  | .indexed op index => .indexed op index
  | .brTable labels otherwise => .brTable labels otherwise
  | .callIndirect type table => .callIndirect type table
  | .memory op arg => .memory op arg
  | .intConst width value => .intConst width value
  | .f32Const value => .f32Const value.dropZeroSign
  | .f64Const value => .f64Const value.dropZeroSign

def seqDropZeroSigns : List Instr → List Instr
  | [] => []
  | instr :: instrs => dropZeroSigns instr :: seqDropZeroSigns instrs

end

lemma isZero_dropZeroSigns (instr : Instr) : instr.dropZeroSigns.isZero = instr.isZero := by
  cases instr with
  | f32Const x => exact x.isZero_dropZeroSign
  | f64Const x => exact x.isZero_dropZeroSign
  | _ => rfl

end Instr

/-- None of the instructions is a NaN. -/
def NaNFree (instrs : List Instr) : Prop := ∀ instr ∈ instrs, instr.isNaN = false

lemma naNFree_nil : NaNFree [] := List.forall_mem_nil _

lemma naNFree_cons {instr : Instr} {instrs : List Instr} :
    NaNFree (instr :: instrs) ↔ instr.isNaN = false ∧ NaNFree instrs := List.forall_mem_cons

lemma naNFree_append {instrs instrs' : List Instr} :
    NaNFree (instrs ++ instrs') ↔ NaNFree instrs ∧ NaNFree instrs' := List.forall_mem_append

/-- A comparison succeeds exactly if there is no NaN on either side and what is said to be the same
is the same. -/
def Compares (equal : Bool) (xs ys : List Instr) (same : Prop) : Prop :=
  equal = true ↔ NaNFree xs ∧ NaNFree ys ∧ same

namespace Compares

variable {equal equal' : Bool} {xs xs' ys ys' : List Instr} {same same' : Prop}

lemma of_naNFree (hx : NaNFree xs) (hy : NaNFree ys) (h : equal = true ↔ same) :
    Compares equal xs ys same := by
  rw [Compares, and_iff_right hx, and_iff_right hy, h]

lemma of_iff (h : equal = true ↔ same) : Compares equal [] [] same :=
  of_naNFree naNFree_nil naNFree_nil h

lemma of_lawful {α : Type} [BEq α] [LawfulBEq α] (a b : α) : Compares (a == b) [] [] (a = b) :=
  of_iff beq_iff_eq

lemma of_ne (h : ¬same) : Compares false xs ys same := by
  simp [Compares, h]

lemma congr (h : Compares equal xs ys same) (hsame : same ↔ same') :
    Compares equal xs ys same' := by
  rwa [Compares, ← hsame]

lemma and (h : Compares equal xs ys same) (h' : Compares equal' xs' ys' same') :
    Compares (equal && equal') (xs ++ xs') (ys ++ ys') (same ∧ same') := by
  unfold Compares at *
  rw [Bool.and_eq_true, h, h', naNFree_append, naNFree_append]
  constructor
  · rintro ⟨⟨hx, hy, hsame⟩, hx', hy', hsame'⟩
    exact ⟨⟨hx, hx'⟩, ⟨hy, hy'⟩, hsame, hsame'⟩
  · rintro ⟨⟨hx, hx'⟩, ⟨hy, hy'⟩, hsame, hsame'⟩
    exact ⟨⟨hx, hy, hsame⟩, hx', hy', hsame'⟩

end Compares

namespace Instr

lemma naNFree_singleton {instr : Instr} (h : instr.isNaN = false) : NaNFree [instr] :=
  naNFree_cons.mpr ⟨h, naNFree_nil⟩

lemma compares_float {width : Width} {x y : FloatBits width} {instr instr' : Instr}
    (hx : instr.isNaN = x.isNaN) (hy : instr'.isNaN = y.isNaN) :
    Compares (x == y) [instr] [instr'] (x.dropZeroSign = y.dropZeroSign) := by
  rw [Compares, FloatBits.beq_iff, naNFree_cons, naNFree_cons, hx, hy]
  simp [naNFree_nil]

mutual

theorem compares : (a b : Instr) →
    Compares (a.beq b) a.subtree b.subtree (a.dropZeroSigns = b.dropZeroSigns)
  | a, b => by
    cases a with
    | block kind type body =>
      cases b with
      | block kind' type' body' =>
        have hhead : Compares (kind == kind' && type == type') [.block kind type body]
            [.block kind' type' body'] (kind = kind' ∧ type = type') :=
          .of_naNFree (naNFree_singleton rfl) (naNFree_singleton rfl) (by simp)
        apply (hhead.and (seq_compares body body')).congr
        rw [dropZeroSigns, dropZeroSigns, block.injEq, and_assoc]
      | _ => exact Compares.of_ne (nomatch ·)
    | ifElse type thenBody elseBody =>
      cases b with
      | ifElse type' thenBody' elseBody' =>
        have hhead : Compares (type == type') [.ifElse type thenBody elseBody]
            [.ifElse type' thenBody' elseBody'] (type = type') :=
          .of_naNFree (naNFree_singleton rfl) (naNFree_singleton rfl) (by simp)
        have hbodies := (seq_compares thenBody thenBody').and (seq_compares elseBody elseBody')
        rw [Instr.beq, Bool.and_assoc]
        apply (hhead.and hbodies).congr
        rw [dropZeroSigns, dropZeroSigns, ifElse.injEq]
      | _ => exact Compares.of_ne (nomatch ·)
    | f32Const x =>
      cases b with
      | f32Const y =>
        apply (compares_float rfl rfl).congr
        rw [dropZeroSigns, dropZeroSigns, f32Const.injEq]
      | _ => exact Compares.of_ne (nomatch ·)
    | f64Const x =>
      cases b with
      | f64Const y =>
        apply (compares_float rfl rfl).congr
        rw [dropZeroSigns, dropZeroSigns, f64Const.injEq]
      | _ => exact Compares.of_ne (nomatch ·)
    | _ =>
      cases b with
      | block => exact Compares.of_ne (nomatch ·)
      | ifElse => exact Compares.of_ne (nomatch ·)
      | f32Const => exact Compares.of_ne (nomatch ·)
      | f64Const => exact Compares.of_ne (nomatch ·)
      | _ =>
        apply Compares.of_naNFree (naNFree_singleton rfl) (naNFree_singleton rfl)
        simp [Instr.beq, dropZeroSigns]

theorem seq_compares : (as bs : List Instr) →
    Compares (seqBeq as bs) (subtrees as) (subtrees bs) (seqDropZeroSigns as = seqDropZeroSigns bs)
  | [], [] => Compares.of_iff (by simp [seqBeq])
  | [], _ :: _ => Compares.of_ne (nomatch ·)
  | _ :: _, [] => Compares.of_ne (nomatch ·)
  | a :: as, b :: bs => by
    apply ((compares a b).and (seq_compares as bs)).congr
    rw [seqDropZeroSigns, seqDropZeroSigns, List.cons.injEq]

end

end Instr

/-! ### Modules -/

/-- Types that are compared by the numbers in them. -/
class NumericEq (α : Type) [BEq α] where
  /-- The instructions of a value, at any depth. -/
  instrs : α → List Instr
  dropZeroSigns : α → α
  compares : ∀ a b : α,
    Compares (a == b) (instrs a) (instrs b) (dropZeroSigns a = dropZeroSigns b)

export NumericEq (dropZeroSigns)

instance {α : Type} [BEq α] [NumericEq α] : NumericEq (List α) where
  instrs as := as.flatMap NumericEq.instrs
  dropZeroSigns as := as.map dropZeroSigns
  compares as bs := by
    induction as generalizing bs with
    | nil =>
      cases bs with
      | nil => exact Compares.of_iff (by simp)
      | cons => exact Compares.of_ne (nomatch ·)
    | cons a as ih =>
      cases bs with
      | nil => exact Compares.of_ne (nomatch ·)
      | cons b bs =>
        apply ((NumericEq.compares a b).and (ih bs)).congr
        rw [List.map_cons, List.map_cons, List.cons.injEq]

instance : NumericEq Expr where
  instrs := Expr.instrs
  dropZeroSigns expr := ⟨Instr.seqDropZeroSigns expr.body⟩
  compares a b := (Instr.seq_compares a.body b.body).congr (by rw [Expr.mk.injEq])

instance : NumericEq Global where
  instrs item := item.init.instrs
  dropZeroSigns item := { item with init := dropZeroSigns item.init }
  compares a b := by
    have htype := Compares.of_lawful a.type b.type
    apply (htype.and (NumericEq.compares a.init b.init)).congr
    rw [Global.mk.injEq]

instance : NumericEq Element where
  instrs segment := segment.offset.instrs
  dropZeroSigns segment := { segment with offset := dropZeroSigns segment.offset }
  compares a b := by
    have htable := Compares.of_lawful a.table b.table
    have hrest := (NumericEq.compares a.offset b.offset).and (.of_lawful a.funcs b.funcs)
    rw [List.append_nil, List.append_nil] at hrest
    apply (htable.and hrest).congr
    rw [Element.mk.injEq]

instance : NumericEq Data where
  instrs segment := segment.offset.instrs
  dropZeroSigns segment := { segment with offset := dropZeroSigns segment.offset }
  compares a b := by
    have hmemory := Compares.of_lawful a.memory b.memory
    have hrest := (NumericEq.compares a.offset b.offset).and (.of_lawful a.bytes b.bytes)
    rw [List.append_nil, List.append_nil] at hrest
    apply (hmemory.and hrest).congr
    rw [Data.mk.injEq]

instance : NumericEq Code where
  instrs code := code.body.instrs
  dropZeroSigns code := { code with body := dropZeroSigns code.body }
  compares a b := by
    have hlocals := Compares.of_lawful a.locals b.locals
    apply (hlocals.and (NumericEq.compares a.body b.body)).congr
    rw [Code.mk.injEq]

def Section.dropZeroSigns : Section → Section
  | .globals items => .globals (NumericEq.dropZeroSigns items)
  | .elements items => .elements (NumericEq.dropZeroSigns items)
  | .codes items => .codes (NumericEq.dropZeroSigns items)
  | .datas items => .datas (NumericEq.dropZeroSigns items)
  | .custom item => .custom item
  | .types items => .types items
  | .imports items => .imports items
  | .functions items => .functions items
  | .tables items => .tables items
  | .memories items => .memories items
  | .exports items => .exports items
  | .start func => .start func

instance : NumericEq Section where
  instrs := Section.instrs
  dropZeroSigns := Section.dropZeroSigns
  compares a b := by
    -- Sections of different kinds differ, and those of one kind are compared by their contents.
    cases a with
    | globals items | elements items | codes items | datas items =>
      cases b <;> first
        | exact Compares.of_ne (nomatch ·)
        | exact (NumericEq.compares items _).congr (by simp [Section.dropZeroSigns])
    | custom item | types item | imports item | functions item | tables item | memories item
    | exports item | start item =>
      cases b <;> first
        | exact Compares.of_ne (nomatch ·)
        | exact (Compares.of_lawful item _).congr (by simp [Section.dropZeroSigns])

instance : NumericEq Module where
  instrs := Module.instrs
  dropZeroSigns m := ⟨dropZeroSigns m.sections⟩
  compares a b := (NumericEq.compares a.sections b.sections).congr (by rw [Module.mk.injEq])

namespace NumericEq

variable {α : Type} [BEq α] [NumericEq α] {a b c : α}

theorem beq_self_iff : (a == a) = true ↔ NaNFree (instrs a) := by
  have h := compares a a
  rwa [Compares, and_iff_left rfl, and_self] at h

theorem symm (h : (a == b) = true) : (b == a) = true := by
  obtain ⟨ha, hb, hsame⟩ := (compares a b).mp h
  exact (compares b a).mpr ⟨hb, ha, hsame.symm⟩

theorem trans (hab : (a == b) = true) (hbc : (b == c) = true) : (a == c) = true := by
  obtain ⟨ha, -, hsame⟩ := (compares a b).mp hab
  obtain ⟨-, hc, hsame'⟩ := (compares b c).mp hbc
  exact (compares a c).mpr ⟨ha, hc, hsame.trans hsame'⟩

end NumericEq

end WasmBinary
