import Mathlib
import WasmBinary.Proofs.Parser.Module

/-!
# Unique reading of images

An image determines the module it is made from, up to the two ways to give a constant.
-/

namespace WasmBinary

/-- A module with an image has the same image as its normal form. -/
lemma toBytes_norm {m : Module} {b : Bytes} (h : toBytes m = .ok b) : toBytes m.norm = .ok b := by
  have hencode := Module.encode_norm m (holds_of_image h)
  rw [toBytes, hencode]
  exact h

/-- The parser reads all of an image and gives the normal form of the module. Two modules with
images have the same image exactly if they have the same normal form. -/
theorem image_uniquely_readable :
    (∀ (m : Module) (b : Bytes), toBytes m = .ok b → Module.parser b = some (m.norm, [])) ∧
    ∀ (m₁ m₂ : Module) (b₁ b₂ : Bytes), toBytes m₁ = .ok b₁ → toBytes m₂ = .ok b₂ →
      (b₁ = b₂ ↔ m₁.norm = m₂.norm) := by
  refine ⟨fun m b h => Module.parser_image h, ?_⟩
  intro m₁ m₂ b₁ b₂ h₁ h₂
  constructor
  · rintro rfl
    have hnorm := (Module.parser_image h₁).symm.trans (Module.parser_image h₂)
    exact congrArg Prod.fst (Option.some.inj hnorm)
  · intro hnorm
    have hbytes := toBytes_norm h₁
    rw [hnorm, toBytes_norm h₂] at hbytes
    exact (Except.ok.inj hbytes).symm

/-- The same constant, given by its unsigned and by its signed value in the alternative of a
conditional. -/
theorem image_uniquely_readable_signed_and_unsigned :
    let m (value : Int) : Module := ⟨[.custom ⟨"a", [0x0b]⟩, .codes [⟨[⟨2, .f64⟩],
      ⟨[.ifElse ⟨[.i32]⟩ [.f32Const ⟨0x7f800001⟩] [.intConst .w32 value]]⟩⟩]]⟩
    let b : Bytes := [0, 97, 115, 109, 1, 0, 0, 0, 0, 3, 1, 97, 11, 10, 17, 1, 15, 1, 2, 124, 4, 127,
      67, 1, 0, 128, 127, 5, 65, 127, 11, 11]
    toBytes (m 4294967295) = .ok b ∧ toBytes (m (-1)) = .ok b ∧
      Module.parser b = some ((m 4294967295).norm, []) ∧
      (m 4294967295).norm = (m (-1)).norm := by
  intro m b
  have hunsigned : toBytes (m 4294967295) = .ok b := by cbv
  have hsigned : toBytes (m (-1)) = .ok b := by cbv
  obtain ⟨hparser, hequal⟩ := image_uniquely_readable
  exact ⟨hunsigned, hsigned, hparser _ _ hunsigned, (hequal _ _ _ _ hunsigned hsigned).mp rfl⟩

end WasmBinary
