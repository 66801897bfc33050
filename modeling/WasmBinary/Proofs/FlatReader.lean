import Mathlib
import WasmBinary.Proofs.Parser.Frugal
import WasmBinary.Proofs.Parser.Instr

/-!
# Reading without a tree

A flat reader builds no tree. It reads one opcode after another, skips what belongs to it, and keeps
only a stack of the frames that are open. That is enough to find the end of an expression, and to
see its opcodes in the order of the tree.
-/

namespace WasmBinary

open Encoder WasmBinary.Parser

/-! ### The reader -/

/-- What can follow an opcode. In front of several numbers stands their count. -/
inductive Immediate where
  | blockType
  | number
  | numbers
  | float (width : Width)
  deriving DecidableEq

/-- Skips a LEB128 number, which ends with the first byte that has no continuation bit. -/
def skipNumber : Parser Unit
  | [] => none
  | b :: bs => if Leb128.continues b then skipNumber bs else some ((), bs)

def Immediate.skip : Immediate → Parser Unit
  | .blockType => do
    let _ ← byte
  | .number => skipNumber
  | .numbers => do
    let _ ← vector skipNumber
  | .float width => do
    let _ ← take (width.bits / 8)

def skipAll : List Immediate → Parser Unit
  | [] => pure ()
  | immediate :: immediates => do
    immediate.skip
    skipAll immediates

/-- What is known of a frame that is open: it can only be ended, or it is a conditional that can
still have an alternative. -/
inductive OpenFrame where
  | body
  | conditional
  deriving DecidableEq

/-- What the reader does for an opcode: it skips what follows, opens a frame, turns to the
alternative of a conditional, or ends a frame. -/
inductive Action where
  | skip (immediates : List Immediate)
  | enter (frame : OpenFrame)
  | turn
  | leave
  deriving DecidableEq

def Action.ofOpcode? (opcode : UInt8) : Option Action :=
  if opcode = 0x05 then some .turn
  else if opcode = 0x0b then some .leave
  else if opcode = 0x02 ∨ opcode = 0x03 then some (.enter .body)
  else if opcode = 0x04 then some (.enter .conditional)
  else if opcode ∈ [0x00, 0x01, 0x0f, 0x1a, 0x1b] ∨ 0x45 ≤ opcode ∧ opcode ≤ 0xbf then
    some (.skip [])
  else if opcode ∈ [0x0c, 0x0d, 0x10, 0x3f, 0x40, 0x41, 0x42] ∨ 0x20 ≤ opcode ∧ opcode ≤ 0x24 then
    some (.skip [.number])
  else if opcode = 0x11 ∨ 0x28 ≤ opcode ∧ opcode ≤ 0x3e then some (.skip [.number, .number])
  else if opcode = 0x0e then some (.skip [.numbers, .number])
  else if opcode = 0x43 then some (.skip [.float .w32])
  else if opcode = 0x44 then some (.skip [.float .w64])
  else none

/-- Gives the frames that are open after an action. -/
def Action.perform (frames : List OpenFrame) : Action → Parser (List OpenFrame)
  | .skip immediates => do
    skipAll immediates
    return frames
  | .enter frame => do
    Immediate.blockType.skip
    return frame :: frames
  | .turn => ofOption <| match frames with
    | .conditional :: frames => some (.body :: frames)
    | _ => none
  | .leave => ofOption frames.tail?

namespace FlatReader

def step (frames : List OpenFrame) : Parser (UInt8 × List OpenFrame) := do
  let opcode ← byte
  let action ← ofOption (Action.ofOpcode? opcode)
  return (opcode, ← action.perform frames)

lemma frugal_skipNumber : Frugal skipNumber := by
  intro bs
  induction bs with
  | nil => exact fun _ _ h => nomatch h
  | cons b bs ih =>
    rintro ⟨⟩ rest h
    rw [skipNumber] at h
    cases hb : Leb128.continues b with
    | true =>
      rw [hb, if_pos rfl] at h
      obtain ⟨used, rfl, hused⟩ := ih () rest h
      refine ⟨b :: used, rfl, fun more => ?_⟩
      rw [List.cons_append, skipNumber, hb, if_pos rfl, hused]
    | false =>
      rw [hb, if_neg Bool.false_ne_true] at h
      obtain rfl : bs = rest := by simpa using h
      refine ⟨[b], rfl, fun more => ?_⟩
      rw [List.singleton_append, skipNumber, hb, if_neg Bool.false_ne_true]

lemma frugal_skip (immediate : Immediate) : Frugal immediate.skip := by
  cases immediate with
  | blockType => exact Frugal.byte.bind fun _ => Frugal.pure ()
  | number => exact frugal_skipNumber
  | numbers => exact frugal_skipNumber.vector.bind fun _ => Frugal.pure ()
  | float width => exact (Frugal.take _).bind fun _ => Frugal.pure ()

lemma frugal_skipAll (immediates : List Immediate) : Frugal (skipAll immediates) := by
  induction immediates with
  | nil => exact Frugal.pure ()
  | cons immediate immediates ih => exact (frugal_skip immediate).bind fun _ => ih

lemma frugal_perform (frames : List OpenFrame) (action : Action) :
    Frugal (action.perform frames) := by
  cases action with
  | skip immediates => exact (frugal_skipAll immediates).bind fun _ => Frugal.pure frames
  | enter frame => exact (frugal_skip .blockType).bind fun _ => Frugal.pure (frame :: frames)
  | turn => exact Frugal.ofOption _
  | leave => exact Frugal.ofOption _

lemma frugal_after (frames : List OpenFrame) (opcode : UInt8) :
    Frugal (do return (opcode, ← (← ofOption (Action.ofOpcode? opcode)).perform frames)) :=
  (Frugal.ofOption _).bind fun action => (frugal_perform frames action).bind fun _ => Frugal.pure _

lemma frugal_step (frames : List OpenFrame) : Frugal (step frames) :=
  Frugal.byte.bind (frugal_after frames)

lemma step_length_lt {frames next : List OpenFrame} {opcode : UInt8} {bs rest : Bytes}
    (h : step frames bs = some ((opcode, next), rest)) : rest.length < bs.length := by
  cases bs with
  | nil => exact nomatch h
  | cons b bs =>
    have hle := (frugal_after frames b).length_le h
    rw [List.length_cons]
    omega

/-- Reads until no frame is open any more. Gives the opcodes and the bytes left. -/
def scan : List OpenFrame → Bytes → Option (List UInt8 × Bytes)
  | [], bs => some ([], bs)
  | frame :: frames, bs =>
    match _h : step (frame :: frames) bs with
    | none => none
    | some ((opcode, next), rest) => (scan next rest).map fun (seen, left) => (opcode :: seen, left)
termination_by _ bs => bs.length
decreasing_by exact step_length_lt _h

lemma scan_of_step {frame : OpenFrame} {frames next : List OpenFrame} {opcode : UInt8}
    {bs rest : Bytes} (h : step (frame :: frames) bs = some ((opcode, next), rest)) :
    scan (frame :: frames) bs =
      (scan next rest).map fun (seen, left) => (opcode :: seen, left) := by
  rw [scan]
  split
  · next hnone => exact nomatch hnone.symm.trans h
  · next hsome =>
    obtain ⟨heq, rfl⟩ := Prod.mk.inj (Option.some.inj (hsome.symm.trans h))
    obtain ⟨rfl, rfl⟩ := Prod.mk.inj heq
    rfl

lemma scan_append {frames : List OpenFrame} {bs rest : Bytes} {seen : List UInt8}
    (h : scan frames bs = some (seen, rest)) (more : Bytes) :
    scan frames (bs ++ more) = some (seen, rest ++ more) := by
  -- A step takes any number of bytes, so the induction is on what is left of them.
  induction hn : bs.length using Nat.strongRecOn generalizing frames bs seen with
  | ind n ih =>
    cases frames with
    | nil =>
      rw [scan] at h ⊢
      obtain ⟨rfl, rfl⟩ : [] = seen ∧ bs = rest := by simpa using h
      rfl
    | cons frame frames =>
      rw [scan] at h
      split at h
      · exact nomatch h
      · next opcode next mid hstep =>
        obtain ⟨⟨seen', left⟩, hscan, heq⟩ := Option.map_eq_some_iff.mp h
        obtain ⟨rfl, rfl⟩ := Prod.mk.inj heq
        have hmore := (frugal_step _).append hstep more
        have hrest := ih mid.length (hn ▸ step_length_lt hstep) hscan rfl
        rw [scan_of_step hmore, hrest]
        rfl

end FlatReader

/-! ### Opcodes and tokens -/

def BlockKind.frame : BlockKind → OpenFrame
  | .block | .loop => .body
  | .ifThen => .conditional

def Opcode.action : Opcode → Action
  | .bare _ => .skip []
  | .opening kind => .enter kind.frame
  | .otherwise => .turn
  | .closing => .leave
  | .indexed _ | .intConst _ => .skip [.number]
  | .brTable => .skip [.numbers, .number]
  | .callIndirect | .memory _ => .skip [.number, .number]
  | .floatConst width => .skip [.float width]

lemma Action.ofOpcode?_byte (opcode : Opcode) :
    ofOpcode? (Coded.byte opcode) = some opcode.action := by
  have htable : ∀ entry ∈ Opcode.table, ofOpcode? entry.1 = some entry.2.action := by
    decide +kernel
  exact htable _ (Coded.byte_mem_table opcode)

lemma skipNumber_shortest {kind : Signedness} {v : Int} (h : Leb128.Writable kind v)
    (rest : Bytes) : skipNumber (Leb128.shortest kind v ++ rest) = some ((), rest) := by
  induction v, h using Leb128.Writable.induction with
  | single v h hv =>
    rw [Leb128.shortest_of_single h hv, List.singleton_append, skipNumber,
      Leb128.continues_lowGroupSigned]
    rfl
  | more v h hv ih =>
    rw [Leb128.shortest_of_not_single h hv, List.cons_append, skipNumber,
      Leb128.continues_continued, if_pos rfl, ih]

namespace Reads

lemma skip_index (index : UInt32) : Reads skipNumber (encode index) () := by
  have hindex : Leb128.Writable .unsigned index.toBitVec.toNat := Int.natCast_nonneg _
  change Reads _ (Leb128.writeUnsigned index.toBitVec) ()
  rw [Leb128.writeUnsigned_eq_write]
  exact emit (skipNumber_shortest hindex)

lemma skip_constant (width : Width) (value : Int) :
    Reads skipNumber (⟨.pattern width, value⟩ : Integer).emitWord () := by
  have hvalue : Leb128.Writable .signed (BitVec.ofInt width.bits value).toInt := trivial
  change Reads _ (Leb128.writeSigned (BitVec.ofInt width.bits value)) ()
  rw [Leb128.writeSigned_eq_write (seven_le_bits width)]
  exact emit (skipNumber_shortest hvalue)

lemma skip_labels (labels : List UInt32) : Reads Immediate.numbers.skip (encode labels) () :=
  (vector skip_index labels).last rfl

lemma skip_float {width : Width} (value : FloatBits width) :
    Reads (Immediate.float width).skip (encode value) () := by
  have htake := emit (take_append value.bytes)
  rw [value.length_bytes] at htake
  exact htake.last rfl

lemma skip_blockType (type : BlockType) : Reads Immediate.blockType.skip (encode type) () := by
  obtain ⟨_ | ⟨result, _ | _⟩⟩ := type
  · exact (emitByte _).last rfl
  · exact (emitByte _).last rfl
  · exact throw _

lemma flat_step (opcode : Opcode) {frames next : List OpenFrame} {e : Encoder Unit}
    (h : Reads (opcode.action.perform frames) e next) :
    Reads (FlatReader.step frames) (do Encoder.emitByte (Coded.byte opcode); e)
      (Coded.byte opcode, next) := by
  refine (emitByte _).seq ?_
  rw [Action.ofOpcode?_byte]
  exact h.map (Coded.byte opcode, ·)

lemma flat_byte (opcode : Opcode) {frames next : List OpenFrame}
    (h : opcode.action.perform frames = Pure.pure next) :
    Reads (FlatReader.step frames) (Encoder.emitByte (Coded.byte opcode))
      (Coded.byte opcode, next) := by
  have hpure := pure next
  rw [← h] at hpure
  have hstep := flat_step opcode hpure
  rwa [bind_pure_unit] at hstep

lemma flat_skip (opcode : Opcode) {immediates : List Immediate}
    (haction : opcode.action = .skip immediates) (frames : List OpenFrame) {e : Encoder Unit}
    (h : Reads (skipAll immediates) e ()) :
    Reads (FlatReader.step frames) (do Encoder.emitByte (Coded.byte opcode); e)
      (Coded.byte opcode, frames) := by
  apply flat_step opcode
  rw [haction]
  exact h.last rfl

end Reads

namespace Token

def opcode : Token → UInt8
  | .leaf x => x.instr.opcode
  | .opening kind _ => kind.opcode
  | .otherwise => elseByte
  | .closing => endByte

lemma flat_leaf (leaf : Leaf) (frames : List OpenFrame) :
    Reads (FlatReader.step frames) leaf.instr.emit (leaf.instr.opcode, frames) := by
  cases leaf with
  | bare op => exact Reads.flat_byte (.bare op) rfl
  | indexed op index =>
    exact Reads.flat_skip (.indexed op) rfl frames ((Reads.skip_index index).last rfl)
  | brTable labels otherwise =>
    exact Reads.flat_skip .brTable rfl frames
      ((Reads.skip_labels labels).seq ((Reads.skip_index otherwise).last rfl))
  | callIndirect type table =>
    exact Reads.flat_skip .callIndirect rfl frames
      ((Reads.skip_index type).seq ((Reads.skip_index table).last rfl))
  | memory op arg =>
    exact Reads.flat_skip (.memory op) rfl frames
      ((Reads.skip_index arg.align).seq ((Reads.skip_index arg.offset).last rfl))
  | intConst width value =>
    exact Reads.check _ (Reads.flat_skip (.intConst width) rfl frames
      ((Reads.skip_constant width value).last rfl))
  | f32Const value =>
    exact Reads.flat_skip (.floatConst .w32) rfl frames ((Reads.skip_float value).last rfl)
  | f64Const value =>
    exact Reads.flat_skip (.floatConst .w64) rfl frames ((Reads.skip_float value).last rfl)

end Token

/-! ### Stacks and trees -/

def Frame.opened : Frame → OpenFrame
  | .body _ kind _ => kind.frame
  | .elseBody _ _ _ => .body

namespace PartialTree

/-- The stack of the reader where a tree is built: its frames and that of the whole expression. -/
def stack (tree : PartialTree) : List OpenFrame := tree.frames.map Frame.opened ++ [.body]

lemma stack_ne_nil (tree : PartialTree) : tree.stack ≠ [] :=
  List.append_ne_nil_of_right_ne_nil _ (List.cons_ne_nil _ _)

/-- The reader goes on as the tree does. -/
lemma flat_step {tree next : PartialTree} {token : Token} (h : tree.step token = some next) :
    Reads (FlatReader.step tree.stack) (encode token) (token.opcode, next.stack) := by
  rcases tree with ⟨frames, instrs⟩
  cases token with
  | leaf x =>
    obtain rfl : _ = next := Option.some.inj h
    exact Token.flat_leaf x _
  | opening kind type =>
    obtain rfl : _ = next := Option.some.inj h
    exact Reads.flat_step (.opening kind) ((Reads.skip_blockType type).last rfl)
  | otherwise =>
    match frames with
    | .body before .ifThen type :: frames =>
      obtain rfl : _ = next := Option.some.inj h
      exact Reads.flat_byte .otherwise rfl
  | closing =>
    match frames with
    | frame :: frames =>
      obtain rfl : _ = next := Option.some.inj h
      exact Reads.flat_byte .closing rfl

/-- Where a tree is built from tokens, the reader sees their opcodes. -/
theorem scan_pieces {tokens : List Token} {pieces : List Bytes} (h : Pieces tokens pieces)
    {tree next : PartialTree} (hrun : tree.run tokens = some next) (rest : Bytes) :
    FlatReader.scan tree.stack (pieces.flatten ++ rest) =
      (FlatReader.scan next.stack rest).map fun (seen, left) =>
        (tokens.map Token.opcode ++ seen, left) := by
  -- At every token, the reader's stack is that of the tree built so far.
  induction h generalizing tree with
  | nil =>
    rw [run, List.foldlM_nil] at hrun
    cases hrun
    simp
  | @cons token piece tokens pieces hpiece _ ih =>
    rw [run, List.foldlM_cons] at hrun
    obtain ⟨mid, hstep, hrun⟩ := Option.bind_eq_some_iff.mp hrun
    have hread := (flat_step hstep).run piece hpiece (pieces.flatten ++ rest)
    obtain ⟨frame, frames, hstack⟩ := List.exists_cons_of_ne_nil tree.stack_ne_nil
    rw [hstack] at hread ⊢
    rw [List.flatten_cons, List.append_assoc, FlatReader.scan_of_step hread, ih hrun,
      Option.map_map]
    rfl

end PartialTree

/-! ### Expressions -/

namespace Instr

mutual

/-- The opcodes of a tree in preorder, with an else between two bodies and an end after a block. -/
def listing : Instr → List UInt8
  | .block kind _ body => kind.opcode :: (seqListing body ++ [endByte])
  | .ifElse _ thenBody elseBody =>
    ifOpcode :: (seqListing thenBody ++ elseByte :: (seqListing elseBody ++ [endByte]))
  | .bare op => [op.opcode]
  | .indexed op _ => [op.opcode]
  | .brTable _ _ => [0x0e]
  | .callIndirect _ _ => [0x11]
  | .memory op _ => [op.opcode]
  | .intConst width _ => [intConstOpcode width]
  | .f32Const _ => [floatConstOpcode .w32]
  | .f64Const _ => [floatConstOpcode .w64]

def seqListing : List Instr → List UInt8
  | [] => []
  | instr :: instrs => listing instr ++ seqListing instrs

end

mutual

theorem opcodes_tokens : (instr : Instr) → instr.tokens.map Token.opcode = instr.listing
  | .bare _ | .indexed _ _ | .brTable _ _ | .callIndirect _ _ | .memory _ _ | .intConst _ _
  | .f32Const _ | .f64Const _ => rfl
  | .block kind type body => by
    rw [tokens, listing, List.map_cons, List.map_append, opcodes_seqTokens body]
    rfl
  | .ifElse type thenBody elseBody => by
    rw [tokens, listing, List.map_cons, List.map_append, List.map_cons, List.map_append,
      opcodes_seqTokens thenBody, opcodes_seqTokens elseBody]
    rfl

theorem opcodes_seqTokens : (instrs : List Instr) →
    (seqTokens instrs).map Token.opcode = seqListing instrs
  | [] => rfl
  | instr :: instrs => by
    rw [seqTokens, seqListing, List.map_append, opcodes_tokens instr, opcodes_seqTokens instrs]

end

end Instr

def Expr.listing (expr : Expr) : List UInt8 := Instr.seqListing expr.body ++ [endByte]

lemma Expr.scan_image {expr : Expr} {bs : Bytes} (h : toBytes expr = .ok bs) (rest : Bytes) :
    FlatReader.scan [.body] (bs ++ rest) = some (expr.listing, rest) := by
  have htraced := (Instr.seq_checking expr.body).traced
  obtain ⟨as, cs, has, hcs, rfl⟩ := (image_seq htraced (Traced.emit [endByte])).mp h
  rw [Instr.emitSeq_eq_emitAll] at has
  obtain ⟨pieces, hpieces, rfl⟩ := emitAll_image_iff.mp has
  have hscan := PartialTree.scan_pieces hpieces (PartialTree.run_seqTokens expr.body [] [])
    (cs ++ rest)
  have hend : FlatReader.step [.body] (cs ++ rest) = some ((endByte, []), rest) :=
    (Reads.flat_byte .closing rfl).run cs hcs rest
  rw [Instr.opcodes_seqTokens] at hscan
  rw [List.append_assoc]
  refine hscan.trans ?_
  change (FlatReader.scan [.body] (cs ++ rest)).map _ = _
  rw [FlatReader.scan_of_step hend, FlatReader.scan]
  rfl

/-- The flat reader finds the end of an expression and sees the opcodes of its tree in preorder,
whatever follows. It does not come to an end before the last byte. -/
theorem flat_scan_of_expr (expr : Expr) (bs : Bytes) (h : toBytes expr = .ok bs) :
    (∀ rest, FlatReader.scan [.body] (bs ++ rest) = some (expr.listing, rest)) ∧
    ∀ k < bs.length, FlatReader.scan [.body] (bs.take k) = none := by
  refine ⟨expr.scan_image h, ?_⟩
  intro k hk
  cases hcut : FlatReader.scan [.body] (bs.take k) with
  | none => rfl
  | some result =>
    obtain ⟨seen, left⟩ := result
    have hwhole := FlatReader.scan_append hcut (bs.drop k)
    have himage := expr.scan_image h []
    rw [List.take_append_drop] at hwhole
    rw [List.append_nil, hwhole] at himage
    have hleft : left ++ bs.drop k = [] := congrArg Prod.snd (Option.some.inj himage)
    have hdrop := List.drop_eq_nil_iff.mp (List.append_eq_nil_iff.mp hleft).2
    omega

/-- Immediates that look like ends, elses and openings are skipped. -/
theorem flat_scan_of_expr_with_misleading_immediates :
    let expr : Expr := ⟨[.ifElse ⟨[.i32]⟩ [.intConst .w32 11, .f32Const ⟨0x0b050b02⟩]
      [.brTable [5, 11] 2, .block .loop ⟨[]⟩ []]]⟩
    let bs : Bytes := [0x04, 0x7f, 0x41, 0x0b, 0x43, 0x02, 0x0b, 0x05, 0x0b, 0x05, 0x0e, 0x02, 0x05,
      0x0b, 0x02, 0x03, 0x40, 0x0b, 0x0b, 0x0b]
    toBytes expr = .ok bs ∧
      FlatReader.scan [.body] (bs ++ [0x0b]) =
        some ([0x04, 0x41, 0x43, 0x05, 0x0e, 0x03, 0x0b, 0x0b, 0x0b], [0x0b]) ∧
      FlatReader.scan [.body] (bs.take 19) = none := by
  intro expr bs
  have hexpr : toBytes expr = .ok bs := by cbv
  obtain ⟨hscan, hcut⟩ := flat_scan_of_expr expr bs hexpr
  exact ⟨hexpr, hscan [0x0b], hcut 19 (by decide)⟩

end WasmBinary
