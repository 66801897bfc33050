import WasmBinary.Proofs.Atomicity
import WasmBinary.Proofs.Integer
import WasmBinary.Proofs.Parser.Instr

/-!
# What a failing sequence of instructions leaves

A sequence fails at its first token with something wrong. Everything before this token is written,
and nothing of what follows. So what is left is the start of every encoding of a sequence that has
the same tokens up to there.
-/

namespace WasmBinary

open Encoder

/-! ### The first failure in a list -/

section Lists

variable {α : Type} [Encode α] [Checked α] {before after : List α} {a : α} {bs : Bytes}
  {e : EncodeError}

/-- A list that fails at `a` leaves the encoding of what is before it and what is left of `a`. -/
lemma trace_of_first_error {left : Bytes} (hbefore : (emitAll before).image = .ok bs)
    (ha : Trace.of (encode a) = ⟨left, .error e⟩) (after : List α) :
    Trace.of (emitAll (before ++ a :: after)) = ⟨bs ++ left, .error e⟩ := by
  obtain ⟨pieces, hpieces, rfl⟩ := emitAll_image_iff.mp hbefore
  have herror : toBytes a = .error e := image_eq_error_iff.mpr (congrArg Trace.outcome ha)
  rw [trace_emitAll_of_error hpieces herror, ha]

lemma exists_image_parts (h : (emitAll (before ++ a :: after)).image = .ok bs) :
    ∃ as piece rest, (emitAll before).image = .ok as ∧ toBytes a = .ok piece ∧
      bs = as ++ (piece ++ rest) := by
  have htraced := Checking.emitAll (a :: after)
  rw [emitAll_append, image_seq (Checking.emitAll before).traced htraced.traced] at h
  obtain ⟨as, cs, has, hcs, rfl⟩ := h
  rw [emitAll, image_seq (checking a).traced (Checking.emitAll after).traced] at hcs
  obtain ⟨piece, rest, hpiece, -, rfl⟩ := hcs
  exact ⟨as, piece, rest, has, hpiece, rfl⟩

end Lists

/-! ### Tokens with something wrong -/

lemma Check.exists_of_verdict_error {cs : List Check} {e : EncodeError}
    (h : verdict cs = .error e) : ∃ c ∈ cs, ¬c.Holds ∧ e = c.error := by
  induction cs with
  | nil => exact nomatch h
  | cons c cs ih =>
    by_cases hc : c.Holds
    · rw [verdict_cons_of_holds hc] at h
      obtain ⟨d, hd, hrest⟩ := ih h
      exact ⟨d, List.mem_cons_of_mem c hd, hrest⟩
    · rw [verdict_cons_of_not_holds hc] at h
      exact ⟨c, List.mem_cons_self, hc, (Except.error.inj h).symm⟩

namespace BlockType

variable {type : BlockType}

lemma encode_of_le (h : type.results.length ≤ 1) : ∃ b, encode type = emitByte b := by
  obtain ⟨_ | ⟨result, _ | ⟨result', results⟩⟩⟩ := type
  · exact ⟨_, rfl⟩
  · exact ⟨_, rfl⟩
  · exact absurd h (by simp)

lemma encode_of_lt (h : 1 < type.results.length) :
    encode type = throw (.multiValueResult type.results.length) := by
  obtain ⟨_ | ⟨result, _ | ⟨result', results⟩⟩⟩ := type
  · exact absurd h (by simp)
  · exact absurd h (by simp)
  · rfl

end BlockType

namespace Token

/-- What can be wrong with a token apart from lengths, with the error it leads to: the value of a
constant, or the number of results of a block. -/
inductive Violation : Token → EncodeError → Prop where
  | intConst {width : Width} {v : Int} (h : v ∉ (IntKind.pattern width).range) :
    Violation (.leaf (.intConst width v)) (.outOfRange (.pattern width) v)
  | opening {kind : BlockKind} {type : BlockType} (h : 1 < type.results.length) :
    Violation (.opening kind type) (.multiValueResult type.results.length)

lemma violation_of_not_holds {token : Token} {c : Check} (hc : c ∈ checks token) (h : ¬c.Holds) :
    token.Violation c.error ∨ ∃ n, c.error = .lengthOverflow n := by
  cases token with
  | leaf x =>
    cases x with
    | intConst width v =>
      obtain rfl := List.mem_singleton.mp hc
      exact .inl (.intConst (mt IntKind.contains_iff.mpr h))
    | brTable labels otherwise =>
      rcases List.mem_cons.mp hc with rfl | hlabel
      · exact .inr ⟨_, rfl⟩
      · obtain ⟨label, -, hnone⟩ := List.mem_flatMap.mp hlabel
        exact absurd hnone List.not_mem_nil
    | _ => exact absurd hc List.not_mem_nil
  | opening kind type =>
    obtain rfl := List.mem_singleton.mp hc
    exact .inl (.opening (Nat.lt_of_not_le h))
  | otherwise => exact absurd hc List.not_mem_nil
  | closing => exact absurd hc List.not_mem_nil

lemma violation_of_error {token : Token} {e : EncodeError} (h : toBytes token = .error e) :
    token.Violation e ∨ ∃ n, e = .lengthOverflow n := by
  have houtcome := (checking token).outcome
  rw [image_eq_error_iff.mp h] at houtcome
  obtain ⟨c, hc, hholds, rfl⟩ := Check.exists_of_verdict_error houtcome.symm
  exact violation_of_not_holds hc hholds

variable {width : Width} {v : Int} {kind : BlockKind} {type : BlockType}

/-- Nothing is written of a constant out of its range. -/
lemma trace_intConst (h : v ∉ (IntKind.pattern width).range) :
    Trace.of (encode (leaf (.intConst width v))) =
      ⟨[], .error (.outOfRange (.pattern width) v)⟩ := by
  have hthrow : encode (leaf (.intConst width v)) = throw (.outOfRange (.pattern width) v) :=
    Instr.intConst_of_not_mem h
  rw [hthrow, Trace.of_throw]

lemma intConst_image {bs : Bytes} (h : toBytes (leaf (.intConst width v)) = .ok bs) :
    ∃ rest, bs = intConstOpcode width :: rest := by
  change (encode (Instr.intConst width v)).image = .ok bs at h
  cases hword : toBytes (⟨.pattern width, v⟩ : Integer) with
  | ok rest =>
    rw [Instr.intConst_of_image hword] at h
    exact ⟨rest, emit_image_iff.mp h⟩
  | error e =>
    rw [Instr.intConst_of_not_mem (Integer.toBytes_eq_error_iff.mp hword).1, image_eq_ok_iff,
      Trace.of_throw] at h
    exact nomatch h

/-- Of a block with several results the opcode is written. -/
lemma trace_opening (h : 1 < type.results.length) :
    Trace.of (encode (opening kind type)) =
      ⟨[kind.opcode], .error (.multiValueResult type.results.length)⟩ := by
  change Trace.of (do emit [kind.opcode]; encode type) = _
  rw [BlockType.encode_of_lt h, Traced.of_seq (Traced.emit _) (Traced.throw _), Trace.of_emit,
    Trace.of_throw, Trace.ok_append, List.append_nil]

lemma opening_image {bs : Bytes} (h : toBytes (opening kind type) = .ok bs) :
    ∃ b, toBytes type = .ok [b] ∧ bs = [kind.opcode, b] := by
  change (do emit [kind.opcode]; encode type : Encoder Unit).image = .ok bs at h
  obtain ⟨cs, hcs, rfl⟩ := (emit_seq_image_iff (checking type).traced).mp h
  obtain ⟨b, hb⟩ := BlockType.encode_of_le (holds_of_image hcs _ List.mem_cons_self)
  rw [hb] at hcs
  obtain rfl := emitByte_image_iff.mp hcs
  exact ⟨b, by rw [toBytes, hb, emitByte_image_iff], rfl⟩

end Token

/-! ### Sequences that part ways -/

namespace Instr

/-- Two sequences have the same tokens `before` a place, where one goes on with the token `bad` and
the other one with `good`. After it they may differ. -/
structure Diverge (before : List Token) (bad good : Token) (xs ys : List Instr) : Prop where
  left : ∃ after, seqTokens xs = before ++ bad :: after
  right : ∃ after, seqTokens ys = before ++ good :: after

/-- What is left of a sequence that fails where another one is right: the encoding of the tokens
before, and what is written of the one that fails. -/
lemma Diverge.run {before : List Token} {bad good : Token} {xs ys : List Instr}
    (h : Diverge before bad good xs ys) {bs part : Bytes} {e : EncodeError}
    (hbad : Trace.of (encode bad) = ⟨part, .error e⟩) (hys : (emitSeq ys).image = .ok bs) :
    ∃ common piece, (emitAll before).image = .ok common ∧
      (∀ held, emitSeq xs ⟨held, none⟩ = .error e ⟨held ++ (common ++ part), none⟩) ∧
      toBytes good = .ok piece ∧ common ++ piece <+: bs := by
  obtain ⟨after, hxs⟩ := h.left
  obtain ⟨after', htokens⟩ := h.right
  rw [emitSeq_eq_emitAll, htokens] at hys
  obtain ⟨common, piece, rest, hcommon, hpiece, rfl⟩ := exists_image_parts hys
  refine ⟨common, piece, hcommon, ?_, hpiece, rest, List.append_assoc _ _ _⟩
  intro held
  rw [(seq_checking xs).traced.run_unlimited, emitSeq_eq_emitAll, hxs,
    trace_of_first_error hcommon hbad]
  rfl

end Instr

/-- A sequence that fails, for another reason than a length, has a first violation: a constant out
of its range or a block with several results, with nothing wrong in front of it. It leaves the
encoding of what is in front, and the opcode of a block. Every sequence that is the same up to
there and has an encoding starts with this. It goes on with the opcode of a constant in the place of
one out of range, and with the block type in the place of one with several results. -/
theorem partial_output_before_violation :
    (∀ (xs : List Instr) (e : EncodeError), (Instr.emitSeq xs).image = .error e →
      (∃ before bad after common, Instr.seqTokens xs = before ++ bad :: after ∧
        (emitAll before).image = .ok common ∧ bad.Violation e) ∨ ∃ n, e = .lengthOverflow n) ∧
    ∀ (before : List Token) (xs ys : List Instr) (bs : Bytes), (Instr.emitSeq ys).image = .ok bs →
      (∀ width v v', v ∉ (IntKind.pattern width).range →
        Instr.Diverge before (.leaf (.intConst width v)) (.leaf (.intConst width v')) xs ys →
          ∃ left, (emitAll before).image = .ok left ∧
            (∀ held, Instr.emitSeq xs ⟨held, none⟩ =
              .error (.outOfRange (.pattern width) v) ⟨held ++ left, none⟩) ∧
            left ++ [intConstOpcode width] <+: bs) ∧
      ∀ kind (type type' : BlockType), 1 < type.results.length →
        Instr.Diverge before (.opening kind type) (.opening kind type') xs ys →
          ∃ left b, (emitAll before).image = .ok left ∧
            (∀ held, Instr.emitSeq xs ⟨held, none⟩ =
              .error (.multiValueResult type.results.length)
                ⟨held ++ (left ++ [kind.opcode]), none⟩) ∧
            toBytes type' = .ok [b] ∧ left ++ [kind.opcode] ++ [b] <+: bs := by
  refine ⟨?_, ?_⟩
  · intro xs e h
    rw [Instr.emitSeq_eq_emitAll] at h
    obtain ⟨before, bad, after, common, hsplit, hbefore, hbad⟩ := exists_first_error h
    rcases Token.violation_of_error hbad with hviolation | hlength
    · exact .inl ⟨before, bad, after, common, hsplit, hbefore, hviolation⟩
    · exact .inr hlength
  · intro before xs ys bs hys
    refine ⟨?_, ?_⟩
    · intro width v v' hv hdiverge
      obtain ⟨left, piece, hleft, hrun, hpiece, hprefix⟩ :=
        hdiverge.run (Token.trace_intConst hv) hys
      obtain ⟨rest, rfl⟩ := Token.intConst_image hpiece
      rw [List.append_nil] at hrun
      refine ⟨left, hleft, hrun, ?_⟩
      rw [List.append_cons] at hprefix
      exact (List.prefix_append _ rest).trans hprefix
    · intro kind type type' htype hdiverge
      obtain ⟨left, piece, hleft, hrun, hpiece, hprefix⟩ :=
        hdiverge.run (Token.trace_opening htype) hys
      obtain ⟨b, hb, rfl⟩ := Token.opening_image hpiece
      rw [List.append_cons] at hprefix
      exact ⟨left, b, hleft, hrun, hb, hprefix⟩

/-- In the alternative of one conditional a constant is out of range. Another conditional has two
results, where a third one has a single result and no alternative. -/
theorem partial_output_before_violation_in_conditionals :
    let xs (v : Int) : List Instr :=
      [.ifElse ⟨[]⟩ [.bare .nop] [.bare .drop, .intConst .w32 v, .intConst .w64 (2 ^ 64)]]
    let ys : List Instr := [.ifElse ⟨[]⟩ [.bare .nop] [.bare .drop, .intConst .w32 7]]
    let zs : List Instr := [.bare .nop, .ifElse ⟨[.i32, .i64]⟩ [.bare .nop] []]
    let ws : List Instr := [.bare .nop, .block .ifThen ⟨[.i32]⟩ []]
    let before : List Token :=
      [.opening .ifThen ⟨[]⟩, .leaf (.bare .nop), .otherwise, .leaf (.bare .drop)]
    let v : Int := 0x100000000
    (Instr.emitSeq (xs v)).image = .error (.outOfRange (.pattern .w32) v) ∧
      (∃ before bad after common, Instr.seqTokens (xs v) = before ++ bad :: after ∧
        (emitAll before).image = .ok common ∧ bad.Violation (.outOfRange (.pattern .w32) v)) ∧
      (Instr.emitSeq ys).image = .ok [0x04, 0x40, 0x01, 0x05, 0x1a, 0x41, 0x07, 0x0b] ∧
      v ∉ (IntKind.pattern .w32).range ∧
      Instr.Diverge before (.leaf (.intConst .w32 v)) (.leaf (.intConst .w32 7)) (xs v) ys ∧
      Instr.emitSeq (xs v) ⟨⟨#[0xff]⟩, none⟩ = .error (.outOfRange (.pattern .w32) v)
        ⟨⟨#[0xff, 0x04, 0x40, 0x01, 0x05, 0x1a]⟩, none⟩ ∧
      (Instr.emitSeq ws).image = .ok [0x01, 0x04, 0x7f, 0x0b] ∧ 1 < [ValType.i32, .i64].length ∧
      Instr.Diverge [.leaf (.bare .nop)] (.opening .ifThen ⟨[.i32, .i64]⟩)
        (.opening .ifThen ⟨[.i32]⟩) zs ws ∧
      Instr.emitSeq zs ⟨⟨#[0xff]⟩, none⟩ =
        .error (.multiValueResult 2) ⟨⟨#[0xff, 0x01, 0x04]⟩, none⟩ := by
  intro xs ys zs ws before v
  have hxs : (Instr.emitSeq (xs v)).image = .error (.outOfRange (.pattern .w32) v) := by cbv
  have hys : (Instr.emitSeq ys).image = .ok [0x04, 0x40, 0x01, 0x05, 0x1a, 0x41, 0x07, 0x0b] := by
    cbv
  have hws : (Instr.emitSeq ws).image = .ok [0x01, 0x04, 0x7f, 0x0b] := by cbv
  have hv : v ∉ (IntKind.pattern .w32).range := by simp [v, IntKind.range]
  have hdiverge : Instr.Diverge before (.leaf (.intConst .w32 v)) (.leaf (.intConst .w32 7))
      (xs v) ys := ⟨⟨_, rfl⟩, ⟨_, rfl⟩⟩
  have hdiverge' : Instr.Diverge [.leaf (.bare .nop)] (.opening .ifThen ⟨[.i32, .i64]⟩)
      (.opening .ifThen ⟨[.i32]⟩) zs ws := ⟨⟨_, rfl⟩, ⟨_, rfl⟩⟩
  obtain ⟨hfirst, hparts⟩ := partial_output_before_violation
  refine ⟨hxs, ?_, hys, hv, hdiverge, ?_, hws, by decide, hdiverge', ?_⟩
  · rcases hfirst _ _ hxs with hviolation | ⟨n, hlength⟩
    · exact hviolation
    · cases hlength
  · obtain ⟨left, hleft, hrun, -⟩ := (hparts _ _ _ _ hys).1 _ _ _ hv hdiverge
    have hbefore : (emitAll before).image = .ok [0x04, 0x40, 0x01, 0x05, 0x1a] := by cbv
    obtain rfl := Except.ok.inj (hbefore.symm.trans hleft)
    exact hrun ⟨#[0xff]⟩
  · obtain ⟨left, b, hleft, hrun, -⟩ := (hparts _ _ _ _ hws).2 _ _ _ (by decide) hdiverge'
    have hbefore : (emitAll [Token.leaf (.bare .nop)]).image = .ok [0x01] := by cbv
    obtain rfl := Except.ok.inj (hbefore.symm.trans hleft)
    exact hrun ⟨#[0xff]⟩

end WasmBinary
