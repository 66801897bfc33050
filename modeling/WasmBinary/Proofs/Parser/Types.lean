import WasmBinary.Proofs.Parser.Coded

/-!
# Parsers of types and floats
-/

namespace WasmBinary

open Encoder WasmBinary.Parser

instance : Readable ValType := ⟨Coded.parser, Coded.reads⟩

lemma ValType.byte_ne_empty (type : ValType) : Coded.byte type ≠ 0x40 := by
  cases type <;> decide

def BlockType.ofByte? (b : UInt8) : Option BlockType :=
  if b = 0x40 then some ⟨[]⟩ else (Coded.ofByte? b).map fun type => ⟨[type]⟩

lemma BlockType.ofByte?_byte (type : ValType) : ofByte? (Coded.byte type) = some ⟨[type]⟩ := by
  rw [ofByte?, if_neg type.byte_ne_empty, Coded.ofByte?_byte]
  rfl

instance : Readable BlockType where
  parser := do
    ofOption (BlockType.ofByte? (← byte))
  reads
    | ⟨[]⟩ => Reads.emit fun _ => rfl
    | ⟨[type]⟩ => by
      apply Reads.emit
      intro rest
      change (BlockType.ofByte? (Coded.byte type)).map (·, rest) = _
      rw [BlockType.ofByte?_byte]
      rfl
    | ⟨_ :: _ :: _⟩ => Reads.throw _

instance : Readable FuncType where
  parser := do
    expect [0x60]
    return ⟨← parser, ← parser⟩
  reads type := (Reads.expect _).seq ((reads type.params).seq ((reads type.results).map _))

instance : Readable Limits where
  parser := do
    match ← byte with
    | 0x00 => return ⟨← parser, none⟩
    | 0x01 => return ⟨← parser, some (← parser)⟩
    | _ => ofOption none
  reads
    | ⟨min, none⟩ => (Reads.emitByte _).seq ((reads min).map _)
    | ⟨min, some max⟩ => (Reads.emitByte _).seq ((reads min).seq ((reads max).map _))

instance : Readable MemType where
  parser := do return ⟨← parser⟩
  reads type := (reads type.limits).map _

instance : Readable TableType where
  parser := do
    expect [0x70]
    return ⟨← parser⟩
  reads type := (Reads.expect _).seq ((reads type.limits).map _)

instance : Readable GlobalType where
  parser := do
    let type ← parser
    return ⟨← Coded.parser, type⟩
  reads type := (reads type.type).seq ((Coded.reads type.mutability).map _)

instance : Readable MemArg where
  parser := do return ⟨← parser, ← parser⟩
  reads arg := (reads arg.align).seq ((reads arg.offset).map _)

/-! ### Floats -/

/-- The number of which bytes are the digits, lowest first. -/
def littleEndian (bs : Bytes) : Nat := bs.foldr (fun b n => b.toNat + 256 * n) 0

lemma littleEndian_digits {digit : Nat → UInt8} {n : Nat}
    (h : ∀ i, (digit i).toNat = n / 256 ^ i % 256) (count : Nat) :
    littleEndian ((List.range count).map digit) = n % 256 ^ count := by
  induction count generalizing digit n with
  | zero => exact (Nat.mod_one n).symm
  | succ count ih =>
    have hzero : (digit 0).toNat = n % 256 := by simpa using h 0
    have hsucc : ∀ i, (digit (i + 1)).toNat = n / 256 / 256 ^ i % 256 := by
      intro i
      rw [h, Nat.div_div_eq_div_mul, Nat.pow_succ']
    have hrest := ih hsucc
    rw [List.range_succ_eq_map, List.map_cons, List.map_map]
    change (digit 0).toNat + 256 * littleEndian ((List.range count).map fun i => digit (i + 1)) = _
    rw [hzero, hrest, Nat.pow_succ', Nat.mod_mul]

namespace FloatBits

variable {width : Width}

lemma length_bytes (x : FloatBits width) : x.bytes.length = width.bits / 8 := by
  rw [bytes, List.length_map, List.length_range]

lemma littleEndian_bytes (x : FloatBits width) : littleEndian x.bytes = x.bits.toNat := by
  have hdigit : ∀ i, (⟨x.bits.extractLsb' (8 * i) 8⟩ : UInt8).toNat =
      x.bits.toNat / 256 ^ i % 256 := by
    intro i
    change (x.bits.extractLsb' (8 * i) 8).toNat = _
    rw [BitVec.extractLsb'_toNat, Nat.shiftRight_eq_div_pow, Nat.pow_mul]
  have hbits : 256 ^ (width.bits / 8) = 2 ^ width.bits := by
    cases width <;> rfl
  rw [bytes, littleEndian_digits hdigit, hbits, Nat.mod_eq_of_lt x.bits.isLt]

end FloatBits

instance {width : Width} : Readable (FloatBits width) where
  parser := do return ⟨BitVec.ofNat _ (littleEndian (← take (width.bits / 8)))⟩
  reads x := by
    have htake := Reads.emit (take_append x.bytes)
    have hbits : BitVec.ofNat width.bits (littleEndian x.bytes) = x.bits := by
      rw [x.littleEndian_bytes, BitVec.ofNat_toNat, BitVec.setWidth_eq]
    rw [x.length_bytes] at htake
    have h := htake.map fun bs => (⟨BitVec.ofNat _ (littleEndian bs)⟩ : FloatBits width)
    rwa [hbits] at h

end WasmBinary
