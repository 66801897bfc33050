import WasmBinary.Proofs.Check.Node

/-!
# The first violation in a module

`Module.instrs` lists the instructions of a module at any depth, in the order of the encoding. If
all lengths fit, a module has an image exactly if all of them are valid, and otherwise the error is
that of the first invalid one.
-/

namespace WasmBinary

open Encoder

namespace Instr

mutual

/-- An instruction and the instructions inside it, each block in front of its bodies. -/
def subtree : Instr → List Instr
  | .block kind type body => .block kind type body :: subtrees body
  | .ifElse type thenBody elseBody =>
    .ifElse type thenBody elseBody :: (subtrees thenBody ++ subtrees elseBody)
  | .bare op => [.bare op]
  | .indexed op index => [.indexed op index]
  | .brTable labels otherwise => [.brTable labels otherwise]
  | .callIndirect type table => [.callIndirect type table]
  | .memory op arg => [.memory op arg]
  | .intConst width value => [.intConst width value]
  | .f32Const value => [.f32Const value]
  | .f64Const value => [.f64Const value]

def subtrees : List Instr → List Instr
  | [] => []
  | instr :: instrs => subtree instr ++ subtrees instrs

end

/-- A constant has a signed or an unsigned value of its width, a block at most one result. -/
def Valid : Instr → Prop
  | .intConst .w32 value => -2 ^ 31 ≤ value ∧ value < 2 ^ 32
  | .intConst .w64 value => -2 ^ 63 ≤ value ∧ value < 2 ^ 64
  | .block _ type _ => type.results.length ≤ 1
  | .ifElse type _ _ => type.results.length ≤ 1
  | _ => True

/-- The error that an invalid instruction leads to. -/
def error? : Instr → Option EncodeError
  | .intConst width value => some (.outOfRange (.pattern width) value)
  | .block _ type _ => some (.multiValueResult type.results.length)
  | .ifElse type _ _ => some (.multiValueResult type.results.length)
  | _ => none

/-- An invalid instruction with valid ones in front of it. -/
def FirstInvalid (instrs : List Instr) (instr : Instr) : Prop :=
  ∃ before after, instrs = before ++ instr :: after ∧ (∀ other ∈ before, other.Valid) ∧
    ¬instr.Valid

/-- What is checked of an instruction itself, apart from lengths. -/
def check? : Instr → Option Check
  | .intConst width value => some (.integer (.pattern width) value)
  | .block _ type _ => some (.results type.results.length)
  | .ifElse type _ _ => some (.results type.results.length)
  | _ => none

lemma check?_cases (instr : Instr) :
    (instr.check? = none ∧ instr.Valid) ∨
      ∃ c, instr.check? = some c ∧ (c.Holds ↔ instr.Valid) ∧ instr.error? = some c.error := by
  cases instr with
  | intConst width value => cases width <;> exact .inr ⟨_, rfl, Iff.rfl, rfl⟩
  | block kind type body => exact .inr ⟨_, rfl, Iff.rfl, rfl⟩
  | ifElse type thenBody elseBody => exact .inr ⟨_, rfl, Iff.rfl, rfl⟩
  | _ => exact .inl ⟨rfl, trivial⟩

lemma FirstInvalid.cons {first instr : Instr} {instrs : List Instr} (hfirst : first.Valid) :
    FirstInvalid (first :: instrs) instr ↔ FirstInvalid instrs instr := by
  constructor
  · rintro ⟨before, after, hsplit, hbefore, hinstr⟩
    cases before with
    | nil =>
      rw [List.nil_append, List.cons.injEq] at hsplit
      exact absurd (hsplit.1 ▸ hfirst) hinstr
    | cons other before =>
      rw [List.cons_append, List.cons.injEq] at hsplit
      exact ⟨before, after, hsplit.2, fun o ho => hbefore o (List.mem_cons_of_mem _ ho), hinstr⟩
  · rintro ⟨before, after, rfl, hbefore, hinstr⟩
    exact ⟨first :: before, after, rfl, List.forall_mem_cons.mpr ⟨hfirst, hbefore⟩, hinstr⟩

lemma FirstInvalid.head {first instr : Instr} {instrs : List Instr} (hfirst : ¬first.Valid) :
    FirstInvalid (first :: instrs) instr ↔ instr = first := by
  constructor
  · rintro ⟨before, after, hsplit, hbefore, hinstr⟩
    cases before with
    | nil =>
      rw [List.nil_append, List.cons.injEq] at hsplit
      exact hsplit.1.symm
    | cons other before =>
      rw [List.cons_append, List.cons.injEq] at hsplit
      exact absurd (hbefore first (hsplit.1 ▸ List.mem_cons_self)) hfirst
  · rintro rfl
    exact ⟨[], instrs, rfl, List.forall_mem_nil _, hfirst⟩

lemma verdict_ok_iff (instrs : List Instr) :
    Check.verdict (instrs.filterMap check?) = .ok () ↔ ∀ instr ∈ instrs, instr.Valid := by
  induction instrs with
  | nil => simp [Check.verdict]
  | cons instr instrs ih =>
    rw [List.forall_mem_cons, List.filterMap_cons]
    rcases instr.check?_cases with ⟨hnone, hvalid⟩ | ⟨c, hsome, hiff, -⟩
    · simp [hnone, hvalid, ih]
    · by_cases hc : c.Holds
      · simp [hsome, Check.verdict_cons_of_holds hc, ih, hiff.mp hc]
      · simp [hsome, Check.verdict_cons_of_not_holds hc, mt hiff.mpr hc]

lemma verdict_error_iff (instrs : List Instr) (e : EncodeError) :
    Check.verdict (instrs.filterMap check?) = .error e ↔
      ∃ instr, FirstInvalid instrs instr ∧ instr.error? = some e := by
  induction instrs with
  | nil => simp [Check.verdict, FirstInvalid]
  | cons instr instrs ih =>
    rw [List.filterMap_cons]
    rcases instr.check?_cases with ⟨hnone, hvalid⟩ | ⟨c, hsome, hiff, herror⟩
    · simp [hnone, FirstInvalid.cons hvalid, ih]
    · by_cases hc : c.Holds
      · simp [hsome, Check.verdict_cons_of_holds hc, FirstInvalid.cons (hiff.mp hc), ih]
      · simp [hsome, Check.verdict_cons_of_not_holds hc,
          FirstInvalid.head (mt hiff.mpr hc), herror]

end Instr

/-! ### Lengths and the rest -/

namespace Check

def isLength : Check → Bool
  | length _ => true
  | _ => false

/-- The checks that are not about lengths. -/
def conditions (cs : List Check) : List Check := cs.filter fun c => !c.isLength

lemma conditions_append (cs ds : List Check) :
    conditions (cs ++ ds) = conditions cs ++ conditions ds := List.filter_append ..

lemma conditions_length_cons (n : Nat) (cs : List Check) :
    conditions (.length n :: cs) = conditions cs := rfl

lemma conditions_flatMap {α : Type} (f : α → List Check) (as : List α) :
    conditions (as.flatMap f) = as.flatMap fun a => conditions (f a) := List.filter_flatMap ..

lemma conditions_lengthCheck (encoder : Encoder Unit) : conditions encoder.lengthCheck = [] := by
  unfold lengthCheck
  cases encoder.image <;> rfl

lemma verdict_conditions {cs : List Check} (h : ∀ n, .length n ∈ cs → n < UInt32.size) :
    verdict (conditions cs) = verdict cs := by
  induction cs with
  | nil => rfl
  | cons c cs ih =>
    have hrest := ih (fun n hn => h n (List.mem_cons_of_mem _ hn))
    have hcond {d : Check} (hd : conditions (d :: cs) = d :: conditions cs) :
        verdict (conditions (d :: cs)) = verdict (d :: cs) := by
      rw [hd, verdict, verdict, hrest]
    cases c with
    | length n =>
      have hn : (Check.length n).Holds := h n List.mem_cons_self
      rw [conditions_length_cons, hrest, verdict_cons_of_holds hn]
    | integer kind value => exact hcond rfl
    | results count => exact hcond rfl

section Vectors

variable {α : Type} [Encode α] [Checked α]

lemma conditions_vector (as : List α) :
    conditions (checks as) = as.flatMap fun a => conditions (checks a) := by
  change conditions (.length as.length :: as.flatMap checks) = _
  rw [conditions_length_cons, conditions_flatMap]

lemma conditions_vector_nil (h : ∀ a : α, conditions (checks a) = []) (as : List α) :
    conditions (checks as) = [] := by
  rw [conditions_vector, List.flatMap_eq_nil_iff]
  exact fun a _ => h a

end Vectors

lemma conditions_funcType (type : FuncType) : conditions (checks type) = [] := by
  change conditions (checks type.params ++ checks type.results) = []
  rw [conditions_append, conditions_vector_nil (fun _ => rfl), conditions_vector_nil (fun _ => rfl)]
  rfl

end Check

/-! ### The instructions of a module -/

namespace Instr

open Check

mutual

theorem conditions_checks : (instr : Instr) →
    conditions instr.checks = instr.subtree.filterMap check?
  | .bare _ | .indexed _ _ | .callIndirect _ _ | .memory _ _ | .f32Const _ | .f64Const _
  | .intConst _ _ => rfl
  | .brTable labels _ => conditions_vector_nil (fun _ => rfl) labels
  | .block kind type body => by
    rw [checks, conditions_append, conditions_seqChecks body]
    rfl
  | .ifElse type thenBody elseBody => by
    rw [checks, conditions_append, conditions_append, conditions_seqChecks thenBody,
      conditions_seqChecks elseBody, ← List.filterMap_append]
    rfl

theorem conditions_seqChecks : (instrs : List Instr) →
    conditions (seqChecks instrs) = (subtrees instrs).filterMap check?
  | [] => rfl
  | instr :: instrs => by
    rw [seqChecks, subtrees, conditions_append, conditions_checks instr,
      conditions_seqChecks instrs, List.filterMap_append]

end

end Instr

def Expr.instrs (expr : Expr) : List Instr := Instr.subtrees expr.body

/-- The instructions of a section at any depth, in the order of the encoding. -/
def Section.instrs : Section → List Instr
  | .globals items => items.flatMap fun item => item.init.instrs
  | .elements items => items.flatMap fun segment => segment.offset.instrs
  | .codes items => items.flatMap fun code => code.body.instrs
  | .datas items => items.flatMap fun segment => segment.offset.instrs
  | .custom _ | .types _ | .imports _ | .functions _ | .tables _ | .memories _ | .exports _
  | .start _ => []

/-- The instructions of a module at any depth, in the order of the encoding. -/
def Module.instrs (m : Module) : List Instr := m.sections.flatMap Section.instrs

/-- The lengths of vectors, names, payloads, function bodies and section contents fit into their
fields. -/
def Module.LengthsFit (m : Module) : Prop := ∀ n, Check.length n ∈ checks m → n < UInt32.size

namespace Check

lemma conditions_expr (expr : Expr) :
    conditions (checks expr) = expr.instrs.filterMap Instr.check? :=
  Instr.conditions_seqChecks expr.body

lemma conditions_instrs {α : Type} [Encode α] [Checked α] {f : α → List Instr}
    (h : ∀ a, conditions (checks a) = (f a).filterMap Instr.check?) (as : List α) :
    conditions (checks as) = (as.flatMap f).filterMap Instr.check? := by
  rw [conditions_vector, List.filterMap_flatMap]
  exact congrArg (as.flatMap ·) (funext h)

lemma conditions_element (segment : Element) :
    conditions (checks segment) = segment.offset.instrs.filterMap Instr.check? := by
  change conditions (checks segment.offset ++ checks segment.funcs) = _
  rw [conditions_append, conditions_expr, conditions_vector_nil (fun _ => rfl), List.append_nil]

lemma conditions_data (segment : Data) :
    conditions (checks segment) = segment.offset.instrs.filterMap Instr.check? := by
  change conditions (checks segment.offset ++ [.length segment.bytes.length]) = _
  rw [conditions_append, conditions_expr]
  exact List.append_nil _

lemma conditions_code (code : Code) :
    conditions (checks code) = code.body.instrs.filterMap Instr.check? := by
  change conditions (checks code.locals ++ checks code.body ++ code.emitContents.lengthCheck) = _
  rw [conditions_append, conditions_append, conditions_vector_nil (fun _ => rfl), conditions_expr,
    conditions_lengthCheck, List.nil_append, List.append_nil]

lemma conditions_section (sec : Section) :
    conditions (checks sec) = sec.instrs.filterMap Instr.check? := by
  change conditions (sec.contentsChecks ++ sec.emitContents.lengthCheck) = _
  rw [conditions_append, conditions_lengthCheck, List.append_nil]
  cases sec with
  | types items => exact conditions_vector_nil conditions_funcType items
  | imports items => exact conditions_vector_nil (fun _ => rfl) items
  | exports items => exact conditions_vector_nil (fun _ => rfl) items
  | functions items => exact conditions_vector_nil (fun _ => rfl) items
  | tables items => exact conditions_vector_nil (fun _ => rfl) items
  | memories items => exact conditions_vector_nil (fun _ => rfl) items
  | globals items => exact conditions_instrs (fun item => conditions_expr item.init) items
  | elements items => exact conditions_instrs conditions_element items
  | codes items => exact conditions_instrs conditions_code items
  | datas items => exact conditions_instrs conditions_data items
  | custom item => rfl
  | start func => rfl

lemma conditions_module (m : Module) :
    conditions (checks m) = m.instrs.filterMap Instr.check? := by
  change conditions (m.sections.flatMap checks) = _
  rw [conditions_flatMap, Module.instrs, List.filterMap_flatMap]
  exact congrArg (m.sections.flatMap ·) (funext conditions_section)

end Check

lemma Module.outcome_eq_verdict (m : Module) (h : m.LengthsFit) :
    (Trace.of (encode m)).outcome = Check.verdict (m.instrs.filterMap Instr.check?) := by
  rw [(checking m).outcome, ← Check.conditions_module, Check.verdict_conditions h]

lemma toBytes_eq_ok_iff {m : Module} : (∃ bs, toBytes m = .ok bs) ↔
    (Trace.of (encode m)).outcome = .ok () := by
  simp only [toBytes, image_eq_ok_iff]
  constructor
  · rintro ⟨bs, h⟩
    rw [h]
  · intro h
    exact ⟨(Trace.of (encode m)).bytes, Trace.ext rfl h⟩

/-- If its lengths fit, a module has an image exactly if all of its instructions are valid.
Otherwise the first invalid one decides the error. -/
theorem module_encodes_iff_valid (m : Module) (h : m.LengthsFit) :
    ((∃ bs, toBytes m = .ok bs) ↔ ∀ instr ∈ m.instrs, instr.Valid) ∧
    ∀ e, toBytes m = .error e ↔
      ∃ instr, Instr.FirstInvalid m.instrs instr ∧ instr.error? = some e := by
  refine ⟨?_, ?_⟩
  · rw [toBytes_eq_ok_iff, m.outcome_eq_verdict h, Instr.verdict_ok_iff]
  · intro e
    rw [toBytes, image_eq_error_iff, m.outcome_eq_verdict h, Instr.verdict_error_iff]

lemma Checking.lengthCheck_eq_nil {encoder : Encoder Unit} {cs : List Check} {e : EncodeError}
    (h : Checking encoder cs) (he : Check.verdict cs = .error e) : encoder.lengthCheck = [] := by
  have himage : encoder.image = .error e := image_eq_error_iff.mpr (h.outcome.trans he)
  rw [lengthCheck, himage]

/-- In the alternative of a conditional a constant is out of range, in front of a block that has
two results. -/
theorem module_fails_in_alternative :
    let code : Code := ⟨[], ⟨[.ifElse ⟨[]⟩ [.bare .nop]
      [.intConst .w32 (2 ^ 32), .block .loop ⟨[.i32, .i64]⟩ []]]⟩⟩
    let m : Module := ⟨[.codes [code]]⟩
    m.LengthsFit ∧ toBytes m = .error (.outOfRange (.pattern .w32) (2 ^ 32)) := by
  intro code m
  have hcode : checks code =
      [.length 0, .results 0, .integer (.pattern .w32) (2 ^ 32), .results 2] := by
    have hlength := code.checking_contents.lengthCheck_eq_nil rfl
    change _ ++ code.emitContents.lengthCheck = _
    rw [hlength]
    rfl
  have hm : checks m = .length 1 :: checks code := by
    have hcontents : (Section.codes [code]).contentsChecks = .length 1 :: checks code := by
      change _ :: (checks code ++ []) = _
      rw [List.append_nil]
      rfl
    have hlength := (Section.codes [code]).checking_contents.lengthCheck_eq_nil (by
      rw [hcontents, hcode]
      rfl)
    change ((Section.codes [code]).contentsChecks ++
      (Section.codes [code]).emitContents.lengthCheck) ++ [] = _
    rw [hlength, hcontents, List.append_nil, List.append_nil]
  have hfit : m.LengthsFit := by
    intro n hn
    rw [hm, hcode] at hn
    simp at hn
    unfold UInt32.size
    omega
  have hsplit : m.instrs = [.ifElse ⟨[]⟩ [.bare .nop] [.intConst .w32 (2 ^ 32),
      .block .loop ⟨[.i32, .i64]⟩ []], .bare .nop] ++ .intConst .w32 (2 ^ 32) ::
        [.block .loop ⟨[.i32, .i64]⟩ []] := rfl
  have hbefore : ∀ other ∈ [Instr.ifElse ⟨[]⟩ [.bare .nop] [.intConst .w32 (2 ^ 32),
      .block .loop ⟨[.i32, .i64]⟩ []], .bare .nop], other.Valid := by
    simp [Instr.Valid]
  have hinvalid : ¬(Instr.intConst .w32 (2 ^ 32)).Valid := by
    simp [Instr.Valid]
  exact ⟨hfit, ((module_encodes_iff_valid m hfit).2 _).mpr
    ⟨_, ⟨_, _, hsplit, hbefore, hinvalid⟩, rfl⟩⟩

end WasmBinary
