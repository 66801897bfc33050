import Mathlib
import WasmBinary.Proofs.Layout

/-!
# Images of equal modules

Equality of modules does not tell zeros apart by their signs, but their images do. So the images of
equal modules differ at most in the bytes that hold the signs of zeros.
-/

namespace WasmBinary

open Encoder

lemma MarkedByte.exists_zeros {x y : MarkedByte} (h : x.eraseSign = y.eraseSign)
    (hne : x.byte ≠ y.byte) : ∃ zero zero', x.zero? = some zero ∧ y.zero? = some zero' := by
  rcases x with ⟨byte, _ | zero⟩
  · rcases y with ⟨byte', _ | zero'⟩
    · exact absurd (congrArg MarkedByte.byte h) hne
    · exact nomatch congrArg MarkedByte.zero? h
  · rcases y with ⟨byte', _ | zero'⟩
    · exact nomatch congrArg MarkedByte.zero? h
    · exact ⟨zero, zero', rfl, rfl⟩

namespace Layout

variable {l l' : Layout}

lemma length_eq_of_eraseSigns (h : l.eraseSigns = l'.eraseSigns) :
    l.trace.bytes.length = l'.trace.bytes.length := by
  have hlength := congrArg (fun l => l.bytes.length) h
  simpa [eraseSigns, trace] using hlength

/-- Layouts that differ only in the signs of zeros have marks wherever they differ. -/
lemma exists_marks (h : l.eraseSigns = l'.eraseSigns) {i : Nat}
    (hi : l.trace.bytes[i]? ≠ l'.trace.bytes[i]?) :
    ∃ byte zero byte' zero', l.bytes[i]? = some ⟨byte, some zero⟩ ∧
      l'.bytes[i]? = some ⟨byte', some zero'⟩ := by
  have herase : l.bytes[i]?.map MarkedByte.eraseSign = l'.bytes[i]?.map MarkedByte.eraseSign := by
    rw [← List.getElem?_map, ← List.getElem?_map]
    exact congrArg (fun l => l.bytes[i]?) h
  rw [trace, trace, List.getElem?_map, List.getElem?_map] at hi
  cases hl : l.bytes[i]? with
  | none =>
    rw [hl] at herase hi
    rw [Option.map_eq_none_iff.mp herase.symm] at hi
    exact absurd rfl hi
  | some x =>
    rw [hl] at herase hi
    obtain ⟨y, hy, hxy⟩ := Option.map_eq_some_iff.mp herase.symm
    have hne : x.byte ≠ y.byte := by simpa [hy] using hi
    obtain ⟨zero, zero', hzero, hzero'⟩ := MarkedByte.exists_zeros hxy.symm hne
    exact ⟨x.byte, zero, y.byte, zero', by rw [← hzero], by rw [hy, ← hzero']⟩

end Layout

/-- In the encoding of the module, this zero ends at this offset. -/
structure Module.ZeroEndsAt (m : Module) (zero : Instr) (i : Nat) : Prop where
  mem : zero ∈ m.instrs
  isZero : zero.isZero = true
  mark : ∃ byte, (layout m).bytes[i]? = some ⟨byte, some zero⟩
  ends : ∀ image, toBytes m = .ok image →
    ∃ bs, toBytes zero = .ok bs ∧ bs <:+ image.take (i + 1)

namespace Module

variable {a b m : Module} {bs cs : Bytes}

lemma trace_layout (h : toBytes m = .ok bs) : (layout m).trace = ⟨bs, .ok ()⟩ :=
  (laysOut m).trace.trans (image_eq_ok_iff.mp h)

lemma zeroEndsAt_of_mark (h : toBytes m = .ok bs) {i : Nat} {byte : UInt8} {zero : Instr}
    (hmark : (layout m).bytes[i]? = some ⟨byte, some zero⟩) : m.ZeroEndsAt zero i := by
  have htrace := trace_layout h
  -- The marks of an image are the zeros of the module, in the same order.
  have hzero : zero ∈ (layout m).zeros :=
    List.mem_filterMap.mpr ⟨_, List.mem_of_getElem? hmark, rfl⟩
  rw [(laysOut m).zeros (congrArg Trace.outcome htrace)] at hzero
  obtain ⟨hmem, hisZero⟩ := List.mem_filter.mp hzero
  refine ⟨hmem, hisZero, ⟨byte, hmark⟩, ?_⟩
  intro image himage
  have hends := (laysOut m).ends i byte zero hmark
  rwa [trace_layout himage] at hends

lemma eraseSigns_layout_of_beq (h : (a == b) = true) :
    (layout a).eraseSigns = (layout b).eraseSigns := by
  obtain ⟨-, -, hsame⟩ := (NumericEq.compares a b).mp h
  rw [(laysOut a).erased, (laysOut b).erased, hsame]

lemma toBytes_eq_image_layout (m : Module) : toBytes m = (layout m).trace.image := by
  rw [(laysOut m).trace, Trace.image_of]
  rfl

lemma toBytes_of_beq (h : (a == b) = true) :
    (∃ e, toBytes a = .error e ∧ toBytes b = .error e) ∨
      ∃ bs cs, toBytes a = .ok bs ∧ toBytes b = .ok cs := by
  have houtcome := congrArg Layout.outcome (eraseSigns_layout_of_beq h)
  unfold Layout.eraseSigns at houtcome
  rw [toBytes_eq_image_layout a, toBytes_eq_image_layout b]
  unfold Trace.image Layout.trace
  dsimp only
  rw [houtcome]
  rcases (layout b).outcome with e | _
  · exact .inl ⟨e, rfl, rfl⟩
  · exact .inr ⟨_, _, rfl, rfl⟩

/-- A module is equal to itself exactly if there is no NaN in it, and equality is symmetric and
transitive. Equal modules fail with the same error or have images of the same length, which differ
only where both have the last byte of a zero. -/
theorem equality_and_images :
    (∀ a : Module, (a == a) = true ↔ ∀ instr ∈ a.instrs, instr.isNaN = false) ∧
    (∀ a b : Module, (a == b) = true → (b == a) = true) ∧
    (∀ a b c : Module, (a == b) = true → (b == c) = true → (a == c) = true) ∧
    ∀ a b : Module, (a == b) = true →
      (∃ e, toBytes a = .error e ∧ toBytes b = .error e) ∨
      ∃ bs cs, toBytes a = .ok bs ∧ toBytes b = .ok cs ∧ bs.length = cs.length ∧
        (∀ i, bs[i]? ≠ cs[i]? →
          ∃ zero zero', a.ZeroEndsAt zero i ∧ b.ZeroEndsAt zero' i) ∧
        ((∀ instr ∈ a.instrs, instr.isZero = false) → bs = cs) := by
  refine ⟨fun a => NumericEq.beq_self_iff, fun a b => NumericEq.symm,
    fun a b c => NumericEq.trans, ?_⟩
  intro a b h
  have herase := eraseSigns_layout_of_beq h
  obtain herror | ⟨bs, cs, hbs, hcs⟩ := toBytes_of_beq h
  · exact .inl herror
  right
  have hdiffer : ∀ i, bs[i]? ≠ cs[i]? →
      ∃ zero zero', a.ZeroEndsAt zero i ∧ b.ZeroEndsAt zero' i := by
    intro i hi
    have hmarks := Layout.exists_marks herase (i := i)
    rw [trace_layout hbs, trace_layout hcs] at hmarks
    obtain ⟨byte, zero, byte', zero', hmark, hmark'⟩ := hmarks hi
    exact ⟨zero, zero', zeroEndsAt_of_mark hbs hmark, zeroEndsAt_of_mark hcs hmark'⟩
  refine ⟨bs, cs, hbs, hcs, ?_, hdiffer, ?_⟩
  · have hlength := Layout.length_eq_of_eraseSigns herase
    rwa [trace_layout hbs, trace_layout hcs] at hlength
  · intro hzeros
    apply List.ext_getElem?
    intro i
    by_cases hi : bs[i]? = cs[i]?
    · exact hi
    · obtain ⟨zero, -, hzero, -⟩ := hdiffer i hi
      exact absurd (hzeros zero hzero.mem) (by simp [hzero.isZero])

/-- Zeros with different signs in a loop, in front of a constant that is the same in both modules.
If it is a NaN, the module differs from itself. -/
theorem equality_and_images_of_zeros_in_loop :
    let m (zero : FloatBits .w64) (next : FloatBits .w32) : Module := ⟨[.codes [⟨[],
      ⟨[.block .loop ⟨[]⟩ [.f64Const zero, .f32Const next]]⟩⟩]]⟩
    let one : FloatBits .w32 := ⟨0x3f800000⟩
    let nan : FloatBits .w32 := ⟨0x7fc00001⟩
    let image (sign : UInt8) : Bytes := [0, 97, 115, 109, 1, 0, 0, 0, 10, 21, 1, 19, 0, 3, 64,
      68, 0, 0, 0, 0, 0, 0, 0, sign, 67, 0, 0, 128, 63, 11, 11]
    (m ⟨0⟩ one == m ⟨1 <<< 63⟩ one) = true ∧ (m ⟨1 <<< 63⟩ one == m ⟨0⟩ one) = true ∧
      (m ⟨0⟩ one == m ⟨0⟩ one) = true ∧ (m ⟨0⟩ nan == m ⟨0⟩ nan) = false ∧
      toBytes (m ⟨0⟩ one) = .ok (image 0) ∧ toBytes (m ⟨1 <<< 63⟩ one) = .ok (image 0x80) ∧
      ∃ zero zero', (m ⟨0⟩ one).ZeroEndsAt zero 23 ∧
        (m ⟨1 <<< 63⟩ one).ZeroEndsAt zero' 23 := by
  intro m one nan image
  have h : (m ⟨0⟩ one == m ⟨1 <<< 63⟩ one) = true := by decide +kernel
  have hpositive : toBytes (m ⟨0⟩ one) = .ok (image 0) := by cbv
  have hnegative : toBytes (m ⟨1 <<< 63⟩ one) = .ok (image 0x80) := by cbv
  have hnan : nan.isNaN = true := FloatBits.isNaN_iff.mpr (by decide)
  have hmem : Instr.f32Const nan ∈ (m ⟨0⟩ nan).instrs := by
    simp [m, instrs, Section.instrs, Expr.instrs, Instr.subtrees, Instr.subtree]
  obtain ⟨hself, hsymm, htrans, himages⟩ := equality_and_images
  have hdiffers : (m ⟨0⟩ nan == m ⟨0⟩ nan) = false := by
    rw [Bool.eq_false_iff, ne_eq, hself]
    intro hall
    exact Bool.false_ne_true ((hall _ hmem).symm.trans hnan)
  refine ⟨h, hsymm _ _ h, htrans _ _ _ h (hsymm _ _ h), hdiffers, hpositive, hnegative, ?_⟩
  obtain ⟨e, herror, -⟩ | ⟨bs, cs, hbs, hcs, -, hdiffer, -⟩ := himages _ _ h
  · cases hpositive.symm.trans herror
  · apply hdiffer
    rw [← Except.ok.inj (hpositive.symm.trans hbs), ← Except.ok.inj (hnegative.symm.trans hcs)]
    decide

end Module

end WasmBinary
