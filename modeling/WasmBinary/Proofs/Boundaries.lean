import WasmBinary.Proofs.Framing

/-!
# Truncated images

A full sink keeps the first bytes of an image. Since no section image is the beginning of another
one, these bytes are an image in their own right only if they end where a section ends.
-/

namespace WasmBinary

open Encoder

variable {secs secs' : List Section} {pieces pieces' : List Bytes}

lemma section_image_prefix_free {sec sec' : Section} {piece piece' rest rest' : Bytes}
    (h : toBytes sec = .ok piece) (h' : toBytes sec' = .ok piece')
    (heq : piece ++ rest = piece' ++ rest') : piece = piece' ∧ rest = rest' := by
  obtain ⟨contents, -, -, rfl⟩ := toBytes_section_iff.mp h
  obtain ⟨contents', -, -, rfl⟩ := toBytes_section_iff.mp h'
  rw [List.cons_append, List.cons_append, List.cons.injEq] at heq
  obtain ⟨hid, hsized⟩ := heq
  -- The length field decides how far a section goes, whatever follows it.
  have hskip := skipSized_sized contents rest
  rw [hsized, skipSized_sized] at hskip
  simp only [Option.some.injEq, Prod.mk.injEq] at hskip
  obtain ⟨-, hcontents, hrest⟩ := hskip
  exact ⟨by rw [hid, hcontents], hrest.symm⟩

lemma section_image_ne_nil {sec : Section} {piece : Bytes} (h : toBytes sec = .ok piece) :
    piece ≠ [] := by
  obtain ⟨contents, -, -, rfl⟩ := toBytes_section_iff.mp h
  exact List.cons_ne_nil _ _

/-- Section images one after another are the beginning of others only if they are the first of
them. -/
theorem Pieces.flatten_prefix_iff (h' : Pieces secs' pieces') (h : Pieces secs pieces) :
    pieces'.flatten <+: pieces.flatten ↔ pieces' <+: pieces := by
  refine ⟨?_, List.IsPrefix.flatten⟩
  rintro ⟨after, hafter⟩
  induction h' generalizing secs pieces with
  | nil => exact List.nil_prefix
  | @cons sec' piece' secs' pieces' hpiece' _ ih =>
    rw [List.flatten_cons, List.append_assoc] at hafter
    cases h with
    | nil =>
      obtain ⟨hnil, -⟩ := List.append_eq_nil_iff.mp hafter
      exact absurd hnil (section_image_ne_nil hpiece')
    | @cons sec piece secs pieces hpiece hpieces =>
      obtain ⟨rfl, hrest⟩ := section_image_prefix_free hpiece' hpiece hafter
      exact List.cons_prefix_cons.mpr ⟨rfl, ih hpieces hrest⟩

/-- On a sink without room for all of its image, an encoder fails and leaves the first bytes. -/
lemma encode_of_lt {α : Type} [Encode α] [Checked α] {a : α} {b : Bytes} (h : toBytes a = .ok b)
    {capacity : Nat} (hlt : capacity < b.length) :
    encode a ⟨.empty, some capacity⟩ =
      .error (.io .full) ⟨(b.take capacity).toByteArray, some 0⟩ := by
  have htrace : Trace.of (encode a) = ⟨b, .ok ()⟩ := image_eq_ok_iff.mp h
  rw [(checking a).traced, htrace, Trace.replay_of_lt .empty hlt, Sink.empty_append]
  rfl

namespace Module

/-- The module made of the first sections. -/
def first (m : Module) (k : Nat) : Module := ⟨m.sections.take k⟩

variable {m m' : Module} {pieces : List Bytes}

lemma toBytes_first (h : Pieces m.sections pieces) (k : Nat) :
    toBytes (m.first k) = .ok (magic ++ version ++ (pieces.take k).flatten) :=
  toBytes_module_iff.mpr ⟨pieces.take k, List.forall₂_take k h, rfl⟩

lemma take_boundary (pieces : List Bytes) (k : Nat) :
    (magic ++ version ++ pieces.flatten).take (8 + (pieces.take k).flatten.length) =
      magic ++ version ++ (pieces.take k).flatten := by
  have hprefix := (List.prefix_append_right_inj (magic ++ version)).mpr
    (List.take_prefix k pieces).flatten
  have htake := List.prefix_iff_eq_take.mp hprefix
  rw [List.length_append] at htake
  exact htake.symm

lemma exists_boundary (h : Pieces m.sections pieces) {c : Nat}
    (hc : c < (magic ++ version ++ pieces.flatten).length)
    (h' : toBytes m' = .ok ((magic ++ version ++ pieces.flatten).take c)) :
    ∃ k < m.sections.length, c = 8 + (pieces.take k).flatten.length := by
  obtain ⟨pieces', hpieces', htake⟩ := toBytes_module_iff.mp h'
  have hlength : c = 8 + pieces'.flatten.length := by
    have hlengths := congrArg List.length htake
    rw [List.length_take_of_le (Nat.le_of_lt hc), List.length_append] at hlengths
    exact hlengths
  have hprefix : pieces' <+: pieces := by
    apply (hpieces'.flatten_prefix_iff h).mp
    rw [← List.prefix_append_right_inj (magic ++ version), ← htake]
    exact List.take_prefix _ _
  have htake' : pieces' = pieces.take pieces'.length := List.prefix_iff_eq_take.mp hprefix
  refine ⟨pieces'.length, ?_, htake' ▸ hlength⟩
  by_contra hall
  rw [h.length_eq, Nat.not_lt] at hall
  rw [htake', List.take_of_length_le hall] at hlength
  rw [List.length_append] at hc
  exact absurd hlength (Nat.ne_of_lt hc)

end Module

/-- An image without its last bytes is left by a sink without room for them. It is an image again
exactly if it ends at the boundary of a section, and then it is that of the sections before. -/
theorem truncated_image_iff_boundary (m : Module) (b : Bytes) (h : toBytes m = .ok b) :
    ∃ pieces, Pieces m.sections pieces ∧ ∀ c, 8 ≤ c → c < b.length →
      encode m ⟨.empty, some c⟩ = .error (.io .full) ⟨(b.take c).toByteArray, some 0⟩ ∧
      ((∃ m' : Module, toBytes m' = .ok (b.take c)) ↔
        ∃ k < m.sections.length, c = 8 + (pieces.take k).flatten.length) ∧
      ∀ k, c = 8 + (pieces.take k).flatten.length → toBytes (m.first k) = .ok (b.take c) := by
  obtain ⟨pieces, hpieces, rfl⟩ := toBytes_module_iff.mp h
  refine ⟨pieces, hpieces, ?_⟩
  intro c _ hc
  have hfirst : ∀ k, c = 8 + (pieces.take k).flatten.length → toBytes (m.first k) =
      .ok ((Module.magic ++ Module.version ++ pieces.flatten).take c) := by
    rintro k rfl
    rw [Module.toBytes_first hpieces k, Module.take_boundary]
  refine ⟨encode_of_lt h hc, ⟨?_, ?_⟩, hfirst⟩
  · rintro ⟨m', hm'⟩
    exact Module.exists_boundary hpieces hc hm'
  · rintro ⟨k, -, hk⟩
    exact ⟨m.first k, hfirst k hk⟩

/-- The payload of a custom section looks like the section after it. A cut in front of the payload
leaves no image, a cut behind it does. -/
theorem truncated_image_iff_boundary_custom :
    let m : Module := ⟨[.custom ⟨"a", [8, 1, 7]⟩, .start 7]⟩
    let b : Bytes := [0, 97, 115, 109, 1, 0, 0, 0, 0, 5, 1, 97, 8, 1, 7, 8, 1, 7]
    toBytes m = .ok b ∧ 8 ≤ 12 ∧ 15 < b.length ∧
      (¬∃ m' : Module, toBytes m' = .ok (b.take 12)) ∧ toBytes (m.first 1) = .ok (b.take 15) := by
  intro m b
  have hm : toBytes m = .ok b := by cbv
  have hcustom : toBytes (Section.custom ⟨"a", [8, 1, 7]⟩) = .ok [0, 5, 1, 97, 8, 1, 7] := by cbv
  obtain ⟨pieces, hpieces, hcut⟩ := truncated_image_iff_boundary m b hm
  rcases hpieces with _ | ⟨hpiece, hpieces⟩
  obtain rfl := Except.ok.inj (hpiece.symm.trans hcustom)
  refine ⟨hm, by decide, by decide, ?_, ?_⟩
  · rw [(hcut 12 (by decide) (by decide)).2.1]
    rintro ⟨_ | _ | k, hk, hlength⟩
    · simp at hlength
    · simp at hlength
    · simp [m] at hk
  · exact (hcut 15 (by decide) (by decide)).2.2 1 (by simp)

end WasmBinary
