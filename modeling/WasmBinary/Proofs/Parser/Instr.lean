import WasmBinary.Proofs.Parser.Types
import WasmBinary.Proofs.Token

/-!
# Parsers of instructions

Instructions are read token by token. They end with the first token that belongs to no block opened
among them, an end or an else.
-/

namespace WasmBinary

open Encoder WasmBinary.Parser

/-- Reads a word of the given width in two's complement. -/
def Parser.signedWord (width : Width) : Parser Int := do
  let v ← signed
  ofOption (if (IntKind.signed width).Contains v then some v else none)

lemma Parser.signedWord_signedValue (width : Width) (value : Int) (rest : Bytes) :
    signedWord width (Leb128.encodeSigned (width.signedValue value) ++ rest) =
      some (width.signedValue value, rest) := by
  unfold signedWord
  rw [bind_run (signed_encodeSigned _ rest), if_pos (width.contains_signedValue value)]
  rfl

lemma Reads.emitWord (width : Width) (value : Int) :
    Reads (signedWord width) (⟨.pattern width, value⟩ : Integer).emitWord
      (width.signedValue value) := by
  have hvalue : (BitVec.ofInt width.bits value).toInt = width.signedValue value :=
    BitVec.toInt_ofInt value
  change Reads _ (Leb128.writeSigned (BitVec.ofInt width.bits value)) _
  rw [Leb128.writeSigned_eq_write (seven_le_bits width), hvalue]
  exact Reads.emit (signedWord_signedValue width value)

/-- What is read after a check is read without it: a check that holds writes nothing. -/
lemma Reads.check {α : Type} {p : Parser α} {e : Encoder Unit} {a : α} (n : Integer)
    (h : Reads p e a) : Reads p (do n.check; e) a := by
  by_cases hn : n.kind.Contains n.value
  · rw [Integer.check_of_contains hn]
    exact h
  · rw [Integer.check, if_neg hn]
    exact Reads.throw _

namespace Token

def parser : Parser Token := do
  match ← (Coded.parser : Parser Opcode) with
  | .bare op => return .leaf (.bare op)
  | .opening kind => return .opening kind (← Readable.parser)
  | .otherwise => return .otherwise
  | .closing => return .closing
  | .indexed op => return .leaf (.indexed op (← Readable.parser))
  | .brTable => return .leaf (.brTable (← Readable.parser) (← Readable.parser))
  | .callIndirect => return .leaf (.callIndirect (← Readable.parser) (← Readable.parser))
  | .memory op => return .leaf (.memory op (← Readable.parser))
  | .intConst width => return .leaf (.intConst width (← signedWord width))
  | .floatConst .w32 => return .leaf (.f32Const (← Readable.parser))
  | .floatConst .w64 => return .leaf (.f64Const (← Readable.parser))

lemma reads_leaf (leaf : Leaf) : Reads parser leaf.instr.emit (.leaf leaf.norm) := by
  cases leaf with
  | bare op => exact (Coded.reads (Opcode.bare op)).last rfl
  | indexed op index => exact (Coded.reads (Opcode.indexed op)).seq ((reads index).map _)
  | brTable labels otherwise =>
    exact (Coded.reads Opcode.brTable).seq ((reads labels).seq ((reads otherwise).map _))
  | callIndirect type table =>
    exact (Coded.reads Opcode.callIndirect).seq ((reads type).seq ((reads table).map _))
  | memory op arg => exact (Coded.reads (Opcode.memory op)).seq ((reads arg).map _)
  | intConst width value =>
    exact Reads.check _ ((Coded.reads (Opcode.intConst width)).seq
      ((Reads.emitWord width value).map _))
  | f32Const value => exact (Coded.reads (Opcode.floatConst .w32)).seq ((reads value).map _)
  | f64Const value => exact (Coded.reads (Opcode.floatConst .w64)).seq ((reads value).map _)

theorem reads (token : Token) : Reads parser (encode token) token.norm := by
  cases token with
  | leaf x => exact reads_leaf x
  | opening kind type =>
    exact (Coded.reads (Opcode.opening kind)).seq ((Readable.reads type).map _)
  | otherwise => exact (Coded.reads Opcode.otherwise).last rfl
  | closing => exact (Coded.reads Opcode.closing).last rfl

instance : Checked Token where
  checks
    | .leaf x => x.instr.checks
    | .opening _ type => checks type
    | .otherwise | .closing => []
  checking
    | .leaf x => x.instr.checking
    | .opening _ type => (Checking.emitByte _).seq (checking type)
    | .otherwise | .closing => Checking.emitByte _

end Token

namespace PartialTree

/-- Reads tokens as long as they can be added. The one after them ends the instructions if no block
is open. -/
def read (tree : PartialTree) (bs : Bytes) : Option ((List Instr × Token) × Bytes) :=
  match Token.parser bs with
  | none => none
  | some (token, rest) =>
    if rest.length < bs.length then
      match tree.step token with
      | some next => next.read rest
      | none => if tree.frames.isEmpty then some ((tree.instrs, token), rest) else none
    else none
termination_by bs.length

lemma read_of_step {tree next : PartialTree} {token : Token} {bs rest : Bytes} (hne : bs ≠ [])
    (hparser : Token.parser (bs ++ rest) = some (token, rest))
    (hstep : tree.step token = some next) : tree.read (bs ++ rest) = next.read rest := by
  rw [read, hparser]
  dsimp only
  rw [if_pos (length_lt_append hne rest), hstep]

lemma read_of_last {instrs : List Instr} {last : Token} {bs rest : Bytes} (hne : bs ≠ [])
    (hparser : Token.parser (bs ++ rest) = some (last, rest))
    (hstep : step ⟨[], instrs⟩ last = none) :
    read ⟨[], instrs⟩ (bs ++ rest) = some ((instrs, last), rest) := by
  rw [read, hparser]
  dsimp only
  rw [if_pos (length_lt_append hne rest), hstep]
  rfl

lemma read_pieces {tokens : List Token} {pieces : List Bytes} (h : Pieces tokens pieces)
    {tree next : PartialTree} (hrun : tree.run (tokens.map Token.norm) = some next)
    (rest : Bytes) : tree.read (pieces.flatten ++ rest) = next.read rest := by
  induction h generalizing tree with
  | nil =>
    rw [List.map_nil, run, List.foldlM_nil] at hrun
    cases hrun
    rfl
  | @cons token piece tokens pieces hpiece _ ih =>
    rw [List.map_cons, run, List.foldlM_cons] at hrun
    obtain ⟨mid, hstep, hrun⟩ := Option.bind_eq_some_iff.mp hrun
    have hreads := Token.reads token
    have hne := hreads.ne_nil rfl hpiece
    rw [List.flatten_cons, List.append_assoc, read_of_step hne (hreads.run piece hpiece _) hstep,
      ih hrun]

/-- Instructions are read back in their normal form, with the token that ends them. -/
theorem reads_seq (instrs : List Instr) {last : Token}
    (hlast : last = .otherwise ∨ last = .closing) :
    Reads (read ⟨[], []⟩) (do Instr.emitSeq instrs; encode last) (Instr.seqNorm instrs, last) := by
  have hstep : step ⟨[], Instr.seqNorm instrs⟩ last = none := by rcases hlast with rfl | rfl <;> rfl
  have hnorm : last.norm = last := by rcases hlast with rfl | rfl <;> rfl
  have hrun : run ⟨[], []⟩ ((Instr.seqTokens instrs).map Token.norm) =
      some ⟨[], Instr.seqNorm instrs⟩ := by
    rw [← Instr.seqTokens_norm]
    exact run_seqTokens _ [] []
  have hreads := Token.reads last
  have htraced := (Instr.seq_checking instrs).traced
  rw [hnorm] at hreads
  refine ⟨htraced.seq hreads.traced, ?_⟩
  intro bs hbs rest
  obtain ⟨as, cs, has, hcs, rfl⟩ := (image_seq htraced hreads.traced).mp hbs
  rw [Instr.emitSeq_eq_emitAll] at has
  obtain ⟨pieces, hpieces, rfl⟩ := emitAll_image_iff.mp has
  rw [List.append_assoc, read_pieces hpieces hrun]
  exact read_of_last (hreads.ne_nil rfl hcs) (hreads.run cs hcs rest) hstep

end PartialTree

namespace Expr

def parser : Parser Expr := do
  match ← PartialTree.read ⟨[], []⟩ with
  | (instrs, .closing) => return ⟨instrs⟩
  | _ => ofOption none

theorem reads (expr : Expr) : Reads parser (encode expr) expr.norm :=
  (PartialTree.reads_seq expr.body (.inr rfl)).last rfl

end Expr

end WasmBinary
