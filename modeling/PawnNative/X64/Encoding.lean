import PawnNative.X64.Instr

/-! # Encoding

    An encoded instruction is, in this order: an optional leading byte that
    selects an operand size or an operation, an optional extension byte with the
    fourth bits of the register numbers, the opcode, an operand byte with an
    optional index byte and displacement, and an immediate.

    The encoder takes the short form of displacements and immediates whenever the
    value fits in a byte. Two rules of the operand byte matter: base registers
    with low bits 100 need an index byte, and base registers with low bits 101
    have no form without a displacement.
-/

namespace PawnNative.X64

inductive RegMem where
  | reg (r : Reg)
  | mem (m : Mem)
  deriving DecidableEq, Repr

/-- The extension byte: operand size, then the fourth bits of the register operand, of the
    index register and of the base register. -/
def extension (wide reg index base : Bool) : Byte :=
  (0b0100#4 ++ BitVec.ofBool wide ++ BitVec.ofBool reg ++ BitVec.ofBool index ++
    BitVec.ofBool base : BitVec 8)

/-- A byte with fields of two, three and three bits. -/
def fields (high : BitVec 2) (mid low : BitVec 3) : Byte := (high ++ mid ++ low : BitVec 8)

/-- The factor of an index register in the index byte. -/
def Scale.bits : Scale → BitVec 2
  | .one => 0
  | .two => 1
  | .four => 2
  | .eight => 3

/-- The factor with these bits. -/
def Scale.ofBits (b : BitVec 2) : Scale := [Scale.one, .two, .four, .eight].getD b.toNat .one

namespace Mem

/-- How the displacement is stored: not at all, in one byte, or in four. -/
def mode (m : Mem) : BitVec 2 :=
  if m.disp = 0 ∧ m.base.low ≠ 0b101 then 0
  else if m.disp.fitsByte then 1
  else 2

def dispBytes (m : Mem) : List Byte :=
  if m.mode = 0 then [] else if m.mode = 1 then [m.disp.byte 0] else m.disp.bytes

/-- Operand byte, index byte and displacement; `reg` holds the low bits of the other operand. -/
def encode (reg : BitVec 3) (m : Mem) : List Byte :=
  (match m.index with
    | none =>
      if m.base.low = 0b100 then [fields m.mode reg 0b100, fields 0 0b100 m.base.low]
      else [fields m.mode reg m.base.low]
    | some i => [fields m.mode reg 0b100, fields i.scale.bits i.reg.low m.base.low])
  ++ m.dispBytes

/-- The fourth bit of the index register. -/
def indexHigh (m : Mem) : Bool := (m.index.map fun i => i.reg.high).getD false

end Mem

namespace RegMem

/-- Operand byte and what follows it. -/
def encode (reg : BitVec 3) : RegMem → List Byte
  | .reg r => [fields 0b11 reg r.low]
  | .mem m => m.encode reg

/-- The fourth bit of the index register. -/
def indexHigh : RegMem → Bool
  | .reg _ => false
  | .mem m => m.indexHigh

/-- The fourth bit of the base register. -/
def baseHigh : RegMem → Bool
  | .reg r => r.high
  | .mem m => m.base.high

end RegMem

/-- Whether a number names one of the registers whose low byte can only be reached with an
    extension byte. -/
def needsExtension (n : BitVec 4) : Bool := 4 ≤ n.toNat && n.toNat < 8

/-- What to encode before the immediate. -/
structure Shape where
  lead : List Byte := []
  wide : Bool := false
  /-- Whether register operands are bytes. -/
  byte : Bool := false
  opcode : List Byte

namespace Shape

/-- The extension byte, if one is needed. -/
def extensionBytes (f : Shape) (reg : BitVec 4) (rm : RegMem) : List Byte :=
  let ext := extension f.wide reg.msb rm.indexHigh rm.baseHigh
  let named := f.byte && (needsExtension reg ||
    match rm with
    | .reg r => needsExtension r.number
    | .mem _ => false)
  if ext ≠ 0x40 ∨ named then [ext] else []

/-- Everything up to the immediate; `reg` is a register number or part of the opcode. -/
def encode (f : Shape) (reg : BitVec 4) (rm : RegMem) : List Byte :=
  f.lead ++ f.extensionBytes reg rm ++ f.opcode ++ rm.encode (reg.extractLsb' 0 3)

end Shape

/-- Whether operands are 64 bits wide. -/
def Size.wide : Size → Bool
  | .d => false
  | .q => true

/-- The number of an operation in the first group of the opcode table. -/
def Alu.number : Alu → BitVec 3
  | .add => 0
  | .or => 1
  | .and => 4
  | .sub => 5
  | .xor => 6
  | .cmp => 7

def Alu.ofNumber? (n : BitVec 3) : Option Alu :=
  [Alu.add, .or, .and, .sub, .xor, .cmp].find? fun op => op.number == n

/-- The opcode of the form that stores to a register or to memory. -/
def Alu.toMem (op : Alu) : Byte := (0b00#2 ++ op.number ++ 0b001#3 : BitVec 8)

/-- The opcode of the form that reads from memory. -/
def Alu.ofMem (op : Alu) : Byte := (0b00#2 ++ op.number ++ 0b011#3 : BitVec 8)

def Shift.number : Shift → BitVec 3
  | .shl => 4
  | .shr => 5
  | .sar => 7

def Shift.ofNumber? (n : BitVec 3) : Option Shift :=
  [Shift.shl, .shr, .sar].find? fun op => op.number == n

/-- The opcode of a single-precision operation. -/
def FloatOp.opcode : FloatOp → Byte
  | .sqrt => 0x51
  | .add => 0x58
  | .mul => 0x59
  | .sub => 0x5C
  | .div => 0x5E
  | .ofCell => 0x2A

/-- The single-precision operation with this opcode. -/
def FloatOp.ofOpcode? (b : Byte) : Option FloatOp :=
  [FloatOp.sqrt, .add, .mul, .sub, .div, .ofCell].find? fun op => op.opcode == b

/-- A number of three bits in the place of a register number. -/
def group (n : BitVec 3) : BitVec 4 := n.setWidth 4

/-- An opcode whose low bits name a register. -/
def withReg (high : BitVec 5) (r : Reg) : Byte := (high ++ r.low : BitVec 8)

/-- The extension byte of an opcode that names a register. -/
def regExtension (wide : Bool) (r : Reg) : List Byte :=
  if wide || r.high then [extension wide false false r.high] else []

/-- An operation of the first group with an immediate, in its short form if that fits. -/
def aluImm (op : Alu) (s : Size) (rm : RegMem) (imm : Cell) : List Byte :=
  if imm.fitsByte then
    ({ wide := s.wide, opcode := [0x83] : Shape }).encode (group op.number) rm ++ [imm.byte 0]
  else
    ({ wide := s.wide, opcode := [0x81] : Shape }).encode (group op.number) rm ++ imm.bytes

def Instr.encode : Instr → List Byte
  | .movRR s dst src => ({ wide := s.wide, opcode := [0x89] : Shape }).encode src.number (.reg dst)
  | .movRI64 dst imm => regExtension true dst ++ [withReg 0b10111 dst] ++ imm.bytes
  | .movRI32 dst imm => regExtension false dst ++ [withReg 0b10111 dst] ++ imm.bytes
  | .load s dst src => ({ wide := s.wide, opcode := [0x8B] : Shape }).encode dst.number (.mem src)
  | .store s dst src => ({ wide := s.wide, opcode := [0x89] : Shape }).encode src.number (.mem dst)
  | .storeImm dst imm => ({ opcode := [0xC7] : Shape }).encode 0 (.mem dst) ++ imm.bytes
  | .store16 dst src =>
    ({ lead := [0x66], opcode := [0x89] : Shape }).encode src.number (.mem dst)
  | .store8 dst src => ({ byte := true, opcode := [0x88] : Shape }).encode src.number (.mem dst)
  | .loadByte dst src => ({ opcode := [0x0F, 0xB6] : Shape }).encode dst.number (.mem src)
  | .loadHalf dst src => ({ opcode := [0x0F, 0xB7] : Shape }).encode dst.number (.mem src)
  | .movzxByte dst src =>
    ({ byte := true, opcode := [0x0F, 0xB6] : Shape }).encode dst.number (.reg src)
  | .movsxByte dst src =>
    ({ byte := true, opcode := [0x0F, 0xBE] : Shape }).encode dst.number (.reg src)
  | .movsxd dst src => ({ wide := true, opcode := [0x63] : Shape }).encode dst.number (.reg src)
  | .lea s dst src => ({ wide := s.wide, opcode := [0x8D] : Shape }).encode dst.number (.mem src)
  | .xchg a b => ({ opcode := [0x87] : Shape }).encode a.number (.reg b)
  | .push r => regExtension false r ++ [withReg 0b01010 r]
  | .pop r => regExtension false r ++ [withReg 0b01011 r]
  | .aluRR op s dst src =>
    ({ wide := s.wide, opcode := [op.toMem] : Shape }).encode src.number (.reg dst)
  | .aluRI op s dst imm => aluImm op s (.reg dst) imm
  | .aluRM op dst src => ({ opcode := [op.ofMem] : Shape }).encode dst.number (.mem src)
  | .aluMI op dst imm => aluImm op .d (.mem dst) imm
  | .test s a b => ({ wide := s.wide, opcode := [0x85] : Shape }).encode b.number (.reg a)
  | .not r => ({ opcode := [0xF7] : Shape }).encode 2 (.reg r)
  | .neg r => ({ opcode := [0xF7] : Shape }).encode 3 (.reg r)
  | .incM m => ({ opcode := [0xFF] : Shape }).encode 0 (.mem m)
  | .decM m => ({ opcode := [0xFF] : Shape }).encode 1 (.mem m)
  | .imulRR dst src => ({ opcode := [0x0F, 0xAF] : Shape }).encode dst.number (.reg src)
  | .imulRRI dst src imm =>
    if imm.fitsByte then
      ({ opcode := [0x6B] : Shape }).encode dst.number (.reg src) ++ [imm.byte 0]
    else ({ opcode := [0x69] : Shape }).encode dst.number (.reg src) ++ imm.bytes
  | .cdq => [0x99]
  | .idiv r => ({ opcode := [0xF7] : Shape }).encode 7 (.reg r)
  | .div r => ({ opcode := [0xF7] : Shape }).encode 6 (.reg r)
  | .shiftCl op r => ({ opcode := [0xD3] : Shape }).encode (group op.number) (.reg r)
  | .shiftImm op r n => ({ opcode := [0xC1] : Shape }).encode (group op.number) (.reg r) ++ [n]
  | .setcc c r =>
    ({ byte := true, opcode := [0x0F, 0x9#4 ++ c.number] : Shape }).encode 0 (.reg r)
  | .cld => [0xFC]
  | .repMovsb => [0xF3, 0xA4]
  | .repStosd => [0xF3, 0xAB]
  | .repeCmpsb => [0xF3, 0xA6]
  | .jmp rel => 0xE9 :: rel.bytes
  | .jcc c rel => 0x0F :: (0x8#4 ++ c.number) :: rel.bytes
  | .call rel => 0xE8 :: rel.bytes
  | .jmpR r => ({ opcode := [0xFF] : Shape }).encode 4 (.reg r)
  | .callR r => ({ opcode := [0xFF] : Shape }).encode 2 (.reg r)
  | .ret => [0xC3]
  | .int3 => [0xCC]
  | .movdXR dst src => ({ lead := [0x66], opcode := [0x0F, 0x6E] : Shape }).encode dst (.reg src)
  | .movdRX dst src => ({ lead := [0x66], opcode := [0x0F, 0x7E] : Shape }).encode src (.reg dst)
  | .movss dst src => ({ lead := [0xF3], opcode := [0x0F, 0x10] : Shape }).encode dst (.mem src)
  | .float op dst src =>
    ({ lead := [0xF3], opcode := [0x0F, op.opcode] : Shape }).encode dst (.mem src)

end PawnNative.X64
