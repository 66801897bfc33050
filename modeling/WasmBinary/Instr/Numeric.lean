import WasmBinary.Width

/-!
# Numeric instructions

The instructions that compute on numbers of a given width, with their opcodes. Each family of
operations has consecutive opcodes, first for one width and then for the other.
-/

namespace WasmBinary

inductive IntRel where
  | eq
  | ne
  | lt (sign : Signedness)
  | gt (sign : Signedness)
  | le (sign : Signedness)
  | ge (sign : Signedness)
  deriving DecidableEq, Repr

inductive FloatRel where
  | eq
  | ne
  | lt
  | gt
  | le
  | ge
  deriving DecidableEq, Repr

inductive IntUnary where
  | clz
  | ctz
  | popcnt
  deriving DecidableEq, Repr

inductive IntBinary where
  | add
  | sub
  | mul
  | div (sign : Signedness)
  | rem (sign : Signedness)
  | and
  | or
  | xor
  | shl
  | shr (sign : Signedness)
  | rotl
  | rotr
  deriving DecidableEq, Repr

inductive FloatUnary where
  | abs
  | neg
  | ceil
  | floor
  | trunc
  | nearest
  | sqrt
  deriving DecidableEq, Repr

inductive FloatBinary where
  | add
  | sub
  | mul
  | div
  | min
  | max
  | copysign
  deriving DecidableEq, Repr

inductive Conversion where
  /-- The lower half of a 64-bit integer. -/
  | wrap
  /-- The integer part of a float. -/
  | trunc (result operand : Width) (sign : Signedness)
  | extend (sign : Signedness)
  /-- The float next to an integer. -/
  | convert (result operand : Width) (sign : Signedness)
  | demote
  | promote
  /-- The bits of a float as an integer. -/
  | floatBits (width : Width)
  /-- The bits of an integer as a float. -/
  | intBits (width : Width)
  deriving DecidableEq, Repr

/-- Numeric instructions other than constants. -/
inductive Numeric where
  | intEqz (width : Width)
  | intRel (width : Width) (rel : IntRel)
  | floatRel (width : Width) (rel : FloatRel)
  | intUnary (width : Width) (op : IntUnary)
  | intBinary (width : Width) (op : IntBinary)
  | floatUnary (width : Width) (op : FloatUnary)
  | floatBinary (width : Width) (op : FloatBinary)
  | conversion (op : Conversion)
  deriving DecidableEq, Repr

/-- The place in its family. -/
def IntRel.offset : IntRel → UInt8
  | .eq => 0
  | .ne => 1
  | .lt .signed => 2
  | .lt .unsigned => 3
  | .gt .signed => 4
  | .gt .unsigned => 5
  | .le .signed => 6
  | .le .unsigned => 7
  | .ge .signed => 8
  | .ge .unsigned => 9

def FloatRel.offset : FloatRel → UInt8
  | .eq => 0
  | .ne => 1
  | .lt => 2
  | .gt => 3
  | .le => 4
  | .ge => 5

def IntUnary.offset : IntUnary → UInt8
  | .clz => 0
  | .ctz => 1
  | .popcnt => 2

def IntBinary.offset : IntBinary → UInt8
  | .add => 0
  | .sub => 1
  | .mul => 2
  | .div .signed => 3
  | .div .unsigned => 4
  | .rem .signed => 5
  | .rem .unsigned => 6
  | .and => 7
  | .or => 8
  | .xor => 9
  | .shl => 10
  | .shr .signed => 11
  | .shr .unsigned => 12
  | .rotl => 13
  | .rotr => 14

def FloatUnary.offset : FloatUnary → UInt8
  | .abs => 0
  | .neg => 1
  | .ceil => 2
  | .floor => 3
  | .trunc => 4
  | .nearest => 5
  | .sqrt => 6

def FloatBinary.offset : FloatBinary → UInt8
  | .add => 0
  | .sub => 1
  | .mul => 2
  | .div => 3
  | .min => 4
  | .max => 5
  | .copysign => 6

def Conversion.opcode : Conversion → UInt8
  | .wrap => 0xa7
  | .trunc .w32 .w32 .signed => 0xa8
  | .trunc .w32 .w32 .unsigned => 0xa9
  | .trunc .w32 .w64 .signed => 0xaa
  | .trunc .w32 .w64 .unsigned => 0xab
  | .extend .signed => 0xac
  | .extend .unsigned => 0xad
  | .trunc .w64 .w32 .signed => 0xae
  | .trunc .w64 .w32 .unsigned => 0xaf
  | .trunc .w64 .w64 .signed => 0xb0
  | .trunc .w64 .w64 .unsigned => 0xb1
  | .convert .w32 .w32 .signed => 0xb2
  | .convert .w32 .w32 .unsigned => 0xb3
  | .convert .w32 .w64 .signed => 0xb4
  | .convert .w32 .w64 .unsigned => 0xb5
  | .demote => 0xb6
  | .convert .w64 .w32 .signed => 0xb7
  | .convert .w64 .w32 .unsigned => 0xb8
  | .convert .w64 .w64 .signed => 0xb9
  | .convert .w64 .w64 .unsigned => 0xba
  | .promote => 0xbb
  | .floatBits .w32 => 0xbc
  | .floatBits .w64 => 0xbd
  | .intBits .w32 => 0xbe
  | .intBits .w64 => 0xbf

def Numeric.opcode : Numeric → UInt8
  | .intEqz .w32 => 0x45
  | .intRel .w32 rel => 0x46 + rel.offset
  | .intEqz .w64 => 0x50
  | .intRel .w64 rel => 0x51 + rel.offset
  | .floatRel .w32 rel => 0x5b + rel.offset
  | .floatRel .w64 rel => 0x61 + rel.offset
  | .intUnary .w32 op => 0x67 + op.offset
  | .intBinary .w32 op => 0x6a + op.offset
  | .intUnary .w64 op => 0x79 + op.offset
  | .intBinary .w64 op => 0x7c + op.offset
  | .floatUnary .w32 op => 0x8b + op.offset
  | .floatBinary .w32 op => 0x92 + op.offset
  | .floatUnary .w64 op => 0x99 + op.offset
  | .floatBinary .w64 op => 0xa0 + op.offset
  | .conversion op => op.opcode

end WasmBinary
