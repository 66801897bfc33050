import Mathlib
import WasmBinary.Proofs.Names.Normal
import WasmBinary.Proofs.Parser.Module

/-!
# The payload of names

The payload has a part for the name of the module, one for its functions and one for their locals.
What is not given has no part. A parser reads the normal form of the names back from the payload, so
this is all the names that a payload can stand for.
-/

namespace WasmBinary

open Encoder WasmBinary.Parser

namespace Names

/-! ### Parts with a size -/

section Subsections

variable {α β : Type} [Encode α] {id : UInt8}

theorem emitSubsection_image_iff {contents : α} {bs : Bytes} :
    (emitSubsection id contents).image = .ok bs ↔ ∃ cs, toBytes contents = .ok cs ∧
      cs.length < UInt32.size ∧ bs = id :: (Leb128.encodeUnsigned cs.length ++ cs) := by
  unfold emitSubsection emitByte
  rw [buffered_image_iff]
  simp only [emit_seq_image_iff (Checking.emitSized _).traced, emitSized_image_iff]
  constructor
  · rintro ⟨cs, hcs, _, ⟨hlength, rfl⟩, hbs⟩
    exact ⟨cs, hcs, hlength, hbs⟩
  · rintro ⟨cs, hcs, hlength, hbs⟩
    exact ⟨cs, hcs, _, ⟨hlength, rfl⟩, hbs⟩

variable [Checked α]

lemma emitSubsection_checking (id : UInt8) (contents : α) :
    Checking (emitSubsection id contents) (checks contents ++ (encode contents).lengthCheck) := by
  apply (checking contents).buffered
  intro bs
  exact (Checking.emitByte id).seq (Checking.emitSized bs)

/-- The id of a part decides how its contents are read. -/
lemma reads_subsection {contentsParser : UInt8 → Parser β} {contents : α} {b : β}
    (h : Reads (contentsParser id) (encode contents) b) :
    Reads (do sized (contentsParser (← byte))) (emitSubsection id contents) b := by
  refine ⟨(emitSubsection_checking id contents).traced, ?_⟩
  intro bs hbs rest
  obtain ⟨cs, hcs, hlength, rfl⟩ := emitSubsection_image_iff.mp hbs
  exact sized_append (h.run_all hcs) hlength rest

end Subsections

/-- A part of the payload. -/
inductive Part where
  | moduleName (name : String)
  | functions (map : NameMap)
  | locals (maps : List (UInt32 × NameMap))

namespace Part

instance : Encode Part where
  encode
    | moduleName name => emitSubsection 0x00 name
    | functions map => emitSubsection 0x01 map
    | locals maps => emitSubsection 0x02 maps

instance : Checked Part where
  checks
    | moduleName name => checks name ++ (encode name).lengthCheck
    | functions map => checks map ++ (encode map).lengthCheck
    | locals maps => checks maps ++ (encode maps).lengthCheck
  checking
    | moduleName name => emitSubsection_checking _ name
    | functions map => emitSubsection_checking _ map
    | locals maps => emitSubsection_checking _ maps

def contentsParser : UInt8 → Parser Part
  | 0x00 => do return moduleName (← parser)
  | 0x01 => do return functions (← parser)
  | 0x02 => do return locals (← parser)
  | _ => failure

instance : Readable Part where
  parser := do sized (contentsParser (← byte))
  reads
    | moduleName name => reads_subsection ((reads name).map moduleName)
    | functions map => reads_subsection ((reads map).map functions)
    | locals maps => reads_subsection ((reads maps).map locals)

/-- The part for a list, which is left out if the list is empty. -/
def ofList {α : Type} (part : List α → Part) : List α → List Part
  | [] => []
  | as => [part as]

lemma emitAll_ofList {α β : Type} (part : List β → Part) (as : List α) (bs : List β) :
    (bs = [] ↔ as = []) →
      emitAll (ofList part bs) =
        match as with
        | [] => pure ()
        | _ => encode (part bs) := by
  intro h
  cases as with
  | nil =>
    rw [h.mpr rfl]
    rfl
  | cons a as =>
    obtain ⟨b, bs, rfl⟩ := List.exists_cons_of_ne_nil (mt h.mp (List.cons_ne_nil a as))
    exact emitAll_singleton _

end Part

/-- The parts for what is given. -/
def parts (names : Names) : List Part :=
  names.moduleName.toList.map Part.moduleName ++
    (Part.ofList Part.functions names.functions ++ Part.ofList Part.locals names.locals)

theorem emitPayload_eq (names : Names) : names.emitPayload = emitAll names.norm.parts := by
  obtain ⟨moduleName, functions, locals⟩ := names
  have hlocals : (sortByIndex locals).map sortLocals = [] ↔ locals = [] := by
    rw [List.map_eq_nil_iff, sortByIndex_eq_nil_iff]
  unfold norm parts
  rw [emitAll_append, emitAll_append, Part.emitAll_ofList _ _ _ sortByIndex_eq_nil_iff,
    Part.emitAll_ofList _ _ _ hlocals]
  -- What is not given has no part, so there is nothing to do before the parts that follow.
  cases moduleName with
  | none => cases functions <;> cases locals <;> rfl
  | some name =>
    rw [Option.toList_some, List.map_singleton, emitAll_singleton]
    cases functions <;> cases locals <;> rfl

/-- Puts a part into names. -/
def addPart : Part → Names → Names
  | .moduleName name, names => { names with moduleName := some name }
  | .functions map, names => { names with functions := map }
  | .locals maps, names => { names with locals := maps }

def ofParts (parts : List Part) : Names := parts.foldr addPart {}

lemma ofParts_parts (names : Names) : ofParts names.parts = names := by
  rcases names with ⟨_ | _, _ | _, _ | _⟩ <;> rfl

def parser : Parser Names := do return ofParts (← many Readable.parser)

theorem parser_payload {names : Names} {payload : Bytes}
    (h : names.emitPayload.image = .ok payload) : parser payload = some (names.norm, []) := by
  rw [emitPayload_eq] at h
  obtain ⟨pieces, hpieces, rfl⟩ := emitAll_image_iff.mp h
  have hmany := Reads.many_pieces reads rfl hpieces
  rw [List.map_id'] at hmany
  unfold parser
  rw [bind_run hmany, ofParts_parts]
  rfl

/-! ### Equal sections -/

lemma toSection_eq_ok_iff {names : Names} {sec : Section} :
    names.toSection = .ok sec ↔
      ∃ payload, names.emitPayload.image = .ok payload ∧ sec = .custom ⟨sectionName, payload⟩ := by
  unfold toSection
  cases names.emitPayload.image with
  | error e => simp [bind, Except.bind]
  | ok payload => simp [bind, Except.bind, pure, Except.pure, eq_comm]

lemma toSection_eq_of_norm_eq {a b : Names} (h : a.norm = b.norm) : a.toSection = b.toSection := by
  unfold toSection
  rw [emitPayload_eq, emitPayload_eq, h]

lemma norm_eq_of_toSection {a b : Names} {sec : Section} (ha : a.toSection = .ok sec)
    (hb : b.toSection = .ok sec) : a.norm = b.norm := by
  obtain ⟨payload, hpayload, rfl⟩ := toSection_eq_ok_iff.mp ha
  obtain ⟨payload', hpayload', hsec⟩ := toSection_eq_ok_iff.mp hb
  have hsame : payload = payload' := congrArg Custom.payload (Section.custom.inj hsec)
  have hread := parser_payload hpayload
  rw [hsame, parser_payload hpayload'] at hread
  exact (congrArg Prod.fst (Option.some.inj hread)).symm

/-- Two names with sections have the same section exactly if they have the same normal form. For
this they may differ in the order of entries with different indices, and in nothing else. -/
theorem sections_equal_iff :
    (∀ (a b : Names) (sec sec' : Section), a.toSection = .ok sec → b.toSection = .ok sec' →
      (sec = sec' ↔ a.norm = b.norm)) ∧
    (∀ a b : Names, a.norm = b.norm ↔ a.Reordered b) ∧
    (∀ a b : Names, a.Permuted b → a.toSection = b.toSection) ∧
    ∀ (α : Type) (entries : List (UInt32 × α)),
      Sorted (sortByIndex entries) ∧ SameByIndex (sortByIndex entries) entries := by
  refine ⟨?_, fun _ _ => norm_eq_iff, fun a b h => toSection_eq_of_norm_eq h.norm_eq, ?_⟩
  · intro a b sec sec' ha hb
    constructor
    · rintro rfl
      exact norm_eq_of_toSection ha hb
    · intro h
      rw [toSection_eq_of_norm_eq h, hb] at ha
      exact (Except.ok.inj ha).symm
  · intro α entries
    exact ⟨sorted_sortByIndex entries, sameByIndex_sortByIndex entries⟩

/-- Names in two orders at both levels, and two names of one function in both orders. -/
theorem sections_equal_iff_permuted_and_repeated :
    let a : Names := ⟨some "m", [(2, "b"), (1, "a")], [(3, [(1, "y"), (0, "x")]), (0, [(0, "z")])]⟩
    let b : Names := ⟨some "m", [(1, "a"), (2, "b")], [(0, [(0, "z")]), (3, [(0, "x"), (1, "y")])]⟩
    let sec : Section := .custom ⟨"name", [0, 2, 1, 109, 1, 7, 2, 1, 1, 97, 2, 1, 98, 2, 14, 2, 0,
      1, 0, 1, 122, 3, 2, 0, 1, 120, 1, 1, 121]⟩
    let c : Names := ⟨none, [(2, "b"), (1, "a"), (2, "c")], []⟩
    let d : Names := ⟨none, [(2, "c"), (1, "a"), (2, "b")], []⟩
    let sec' : Section := .custom ⟨"name", [1, 10, 3, 1, 1, 97, 2, 1, 98, 2, 1, 99]⟩
    let sec'' : Section := .custom ⟨"name", [1, 10, 3, 1, 1, 97, 2, 1, 99, 2, 1, 98]⟩
    a.toSection = .ok sec ∧ b.toSection = .ok sec ∧ a.norm = b.norm ∧
      a.Permuted b ∧ a.toSection = b.toSection ∧
      c.toSection = .ok sec' ∧ d.toSection = .ok sec'' ∧ c.norm ≠ d.norm := by
  intro a b sec c d sec' sec''
  have ha : a.toSection = .ok sec := by cbv
  have hb : b.toSection = .ok sec := by cbv
  have hc : c.toSection = .ok sec' := by cbv
  have hd : d.toSection = .ok sec'' := by cbv
  have hpermuted : a.Permuted b := by
    have hlocals : PermutedEntries [(1, "y"), (0, "x")] [(0, "x"), (1, "y")] :=
      .inr ⟨List.Perm.swap _ _ _, by decide⟩
    refine ⟨rfl, .inr ⟨List.Perm.swap _ _ _, by decide⟩, _, ?_, .inr ⟨List.Perm.swap _ _ _, ?_⟩⟩
    · exact .cons ⟨rfl, hlocals⟩ (.cons ⟨rfl, .inl rfl⟩ .nil)
    · decide
  obtain ⟨hequal, -, hpermute, -⟩ := sections_equal_iff
  have hne : sec' ≠ sec'' := by
    intro h
    exact absurd (congrArg Custom.payload (Section.custom.inj h)) (by decide)
  exact ⟨ha, hb, (hequal _ _ _ _ ha hb).mp rfl, hpermuted, hpermute _ _ hpermuted, hc, hd,
    mt (hequal _ _ _ _ hc hd).mpr hne⟩

end Names

end WasmBinary
