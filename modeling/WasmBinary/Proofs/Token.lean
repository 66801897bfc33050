import WasmBinary.Proofs.Normal

/-!
# Instructions as tokens

The encoding of a tree of instructions is a flat sequence of tokens: instructions without bodies,
the openings of blocks, and the bytes between and after the bodies. The tree is put together again
from its tokens, from left to right, with a frame for each block that is still open.
-/

namespace WasmBinary

open Encoder

/-- Instructions without bodies. -/
inductive Leaf where
  | bare (op : BareOp)
  | indexed (op : IndexOp) (index : UInt32)
  | brTable (labels : List UInt32) (otherwise : UInt32)
  | callIndirect (type table : UInt32)
  | memory (op : MemOp) (arg : MemArg)
  | intConst (width : Width) (value : Int)
  | f32Const (value : FloatBits .w32)
  | f64Const (value : FloatBits .w64)

namespace Leaf

def instr : Leaf → Instr
  | .bare op => .bare op
  | .indexed op index => .indexed op index
  | .brTable labels otherwise => .brTable labels otherwise
  | .callIndirect type table => .callIndirect type table
  | .memory op arg => .memory op arg
  | .intConst width value => .intConst width value
  | .f32Const value => .f32Const value
  | .f64Const value => .f64Const value

def norm : Leaf → Leaf
  | .intConst width value => .intConst width (width.signedValue value)
  | x => x

end Leaf

/-- What stands in the encoding of instructions, in the order of the encoding. -/
inductive Token where
  | leaf (x : Leaf)
  | opening (kind : BlockKind) (type : BlockType)
  | otherwise
  | closing

instance : Encode Token where
  encode
    | .leaf x => x.instr.emit
    | .opening kind type => do
      emitByte kind.opcode
      encode type
    | .otherwise => emitByte elseByte
    | .closing => emitByte endByte

def Token.norm : Token → Token
  | .leaf x => .leaf x.norm
  | .opening kind type => .opening kind type
  | .otherwise => .otherwise
  | .closing => .closing

namespace Instr

mutual

def tokens : Instr → List Token
  | .bare op => [.leaf (.bare op)]
  | .block kind type body => .opening kind type :: (seqTokens body ++ [.closing])
  | .ifElse type thenBody elseBody =>
    .opening .ifThen type ::
      (seqTokens thenBody ++ .otherwise :: (seqTokens elseBody ++ [.closing]))
  | .indexed op index => [.leaf (.indexed op index)]
  | .brTable labels otherwise => [.leaf (.brTable labels otherwise)]
  | .callIndirect type table => [.leaf (.callIndirect type table)]
  | .memory op arg => [.leaf (.memory op arg)]
  | .intConst width value => [.leaf (.intConst width value)]
  | .f32Const value => [.leaf (.f32Const value)]
  | .f64Const value => [.leaf (.f64Const value)]

def seqTokens : List Instr → List Token
  | [] => []
  | instr :: instrs => tokens instr ++ seqTokens instrs

end

end Instr

/-! ### Encodings of tokens -/

lemma emitAll_singleton {α : Type} [Encode α] (a : α) : emitAll [a] = encode a :=
  bind_pure_unit

lemma emitAll_append {α : Type} [Encode α] (as bs : List α) :
    emitAll (as ++ bs) = (do emitAll as; emitAll bs : Encoder Unit) := by
  induction as with
  | nil => rfl
  | cons a as ih => rw [List.cons_append, emitAll, ih, emitAll, bind_assoc]

namespace Instr

mutual

theorem emit_eq_emitAll : (instr : Instr) → instr.emit = emitAll instr.tokens
  | .bare _ | .indexed _ _ | .brTable _ _ | .callIndirect _ _ | .memory _ _ | .intConst _ _
  | .f32Const _ | .f64Const _ => by
    rw [tokens, emitAll_singleton]
    rfl
  | .block kind type body => by
    rw [emit, emitSeq_eq_emitAll body, tokens, emitAll, emitAll_append, emitAll_singleton]
    exact (bind_assoc _ _ _).symm
  | .ifElse type thenBody elseBody => by
    rw [emit, emitSeq_eq_emitAll thenBody, emitSeq_eq_emitAll elseBody, tokens, emitAll,
      emitAll_append, emitAll, emitAll_append, emitAll_singleton]
    exact (bind_assoc _ _ _).symm

theorem emitSeq_eq_emitAll : (instrs : List Instr) → emitSeq instrs = emitAll (seqTokens instrs)
  | [] => rfl
  | instr :: instrs => by
    rw [emitSeq, seqTokens, emitAll_append, emit_eq_emitAll instr, emitSeq_eq_emitAll instrs]

end

mutual

theorem tokens_norm : (instr : Instr) → instr.norm.tokens = instr.tokens.map Token.norm
  | .bare _ | .indexed _ _ | .brTable _ _ | .callIndirect _ _ | .memory _ _ | .intConst _ _
  | .f32Const _ | .f64Const _ => rfl
  | .block kind type body => by
    rw [norm, tokens, tokens, seqTokens_norm body, List.map_cons, List.map_append]
    rfl
  | .ifElse type thenBody elseBody => by
    rw [norm, tokens, tokens, seqTokens_norm thenBody, seqTokens_norm elseBody, List.map_cons,
      List.map_append, List.map_cons, List.map_append]
    rfl

theorem seqTokens_norm : (instrs : List Instr) →
    seqTokens (seqNorm instrs) = (seqTokens instrs).map Token.norm
  | [] => rfl
  | instr :: instrs => by
    rw [seqNorm, seqTokens, seqTokens, tokens_norm instr, seqTokens_norm instrs, List.map_append]

end

end Instr

/-! ### Trees from tokens -/

/-- A block whose end is still to come, with the instructions in front of it. -/
inductive Frame where
  | body (before : List Instr) (kind : BlockKind) (type : BlockType)
  | elseBody (before : List Instr) (type : BlockType) (thenBody : List Instr)

/-- The instructions up to a block, when its last body is known. -/
def Frame.close : Frame → List Instr → List Instr
  | .body before kind type, instrs => before ++ [.block kind type instrs]
  | .elseBody before type thenBody, instrs => before ++ [.ifElse type thenBody instrs]

/-- The blocks that are open, innermost first, and the instructions read in the innermost one. -/
structure PartialTree where
  frames : List Frame
  instrs : List Instr

namespace PartialTree

/-- Adds a token. An else belongs to a conditional without one, and an end to an open block. -/
def step : PartialTree → Token → Option PartialTree
  | ⟨frames, instrs⟩, .leaf x => some ⟨frames, instrs ++ [x.instr]⟩
  | ⟨frames, instrs⟩, .opening kind type => some ⟨.body instrs kind type :: frames, []⟩
  | ⟨.body before .ifThen type :: frames, instrs⟩, .otherwise =>
    some ⟨.elseBody before type instrs :: frames, []⟩
  | ⟨frame :: frames, instrs⟩, .closing => some ⟨frames, frame.close instrs⟩
  | _, _ => none

def run (tree : PartialTree) (tokens : List Token) : Option PartialTree := tokens.foldlM step tree

lemma run_cons {tree next : PartialTree} {token : Token} (h : tree.step token = some next)
    (tokens : List Token) : tree.run (token :: tokens) = next.run tokens := by
  rw [run, List.foldlM_cons, h]
  rfl

lemma run_append {tree next : PartialTree} {tokens : List Token} (h : tree.run tokens = some next)
    (tokens' : List Token) : tree.run (tokens ++ tokens') = next.run tokens' := by
  unfold run at h
  rw [run, List.foldlM_append, h]
  rfl

mutual

theorem run_tokens : (instr : Instr) → (frames : List Frame) → (before : List Instr) →
    run ⟨frames, before⟩ instr.tokens = some ⟨frames, before ++ [instr]⟩
  | .bare _, _, _ | .indexed _ _, _, _ | .brTable _ _, _, _ | .callIndirect _ _, _, _
  | .memory _ _, _, _ | .intConst _ _, _, _ | .f32Const _, _, _ | .f64Const _, _, _ => rfl
  | .block kind type body, frames, before => by
    have hbody := run_seqTokens body (.body before kind type :: frames) []
    rw [Instr.tokens, run_cons rfl, run_append hbody]
    rfl
  | .ifElse type thenBody elseBody, frames, before => by
    have hthen := run_seqTokens thenBody (.body before .ifThen type :: frames) []
    have helse := run_seqTokens elseBody (.elseBody before type thenBody :: frames) []
    rw [Instr.tokens, run_cons rfl, run_append hthen, run_cons rfl]
    exact run_append helse [.closing]

/-- The tokens of instructions add these instructions, whatever blocks are open around them. -/
theorem run_seqTokens : (instrs : List Instr) → (frames : List Frame) → (before : List Instr) →
    run ⟨frames, before⟩ (Instr.seqTokens instrs) = some ⟨frames, before ++ instrs⟩
  | [], frames, before => by
    rw [List.append_nil]
    rfl
  | instr :: instrs, frames, before => by
    have hrest := run_seqTokens instrs frames (before ++ [instr])
    rw [Instr.seqTokens, run_append (run_tokens instr frames before), hrest, List.append_assoc]
    rfl

end

end PartialTree

end WasmBinary
