import PawnNative.Cell

/-! # Processor instructions

    The part of the x86-64 instruction set that compiled code uses. Forms without
    a width in their name take an operand size: `d` for the low 32 bits of the
    registers (a result in a register clears the upper half) and `q` for all 64.
    Immediates and displacements are 32 bits wide and are extended by their sign
    where an operation is wider.
-/

namespace PawnNative.X64

inductive Reg where
  | rax | rcx | rdx | rbx | rsp | rbp | rsi | rdi | r8 | r9 | r10 | r11 | r12 | r13 | r14 | r15
  deriving DecidableEq, Repr, Inhabited

namespace Reg

def all : List Reg :=
  [.rax, .rcx, .rdx, .rbx, .rsp, .rbp, .rsi, .rdi, .r8, .r9, .r10, .r11, .r12, .r13, .r14, .r15]

def number : Reg → BitVec 4
  | .rax => 0
  | .rcx => 1
  | .rdx => 2
  | .rbx => 3
  | .rsp => 4
  | .rbp => 5
  | .rsi => 6
  | .rdi => 7
  | .r8 => 8
  | .r9 => 9
  | .r10 => 10
  | .r11 => 11
  | .r12 => 12
  | .r13 => 13
  | .r14 => 14
  | .r15 => 15

def ofNumber (n : BitVec 4) : Reg := all.getD n.toNat .rax

@[simp] theorem ofNumber_number (r : Reg) : ofNumber r.number = r := by
  cases r <;> rfl

/-- The low three bits of the number, as they stand in an encoding. -/
def low (r : Reg) : BitVec 3 := r.number.extractLsb' 0 3

/-- Whether the number needs a fourth bit. -/
def high (r : Reg) : Bool := r.number.msb

def name : Reg → String
  | .rax => "rax"
  | .rcx => "rcx"
  | .rdx => "rdx"
  | .rbx => "rbx"
  | .rsp => "rsp"
  | .rbp => "rbp"
  | .rsi => "rsi"
  | .rdi => "rdi"
  | .r8 => "r8"
  | .r9 => "r9"
  | .r10 => "r10"
  | .r11 => "r11"
  | .r12 => "r12"
  | .r13 => "r13"
  | .r14 => "r14"
  | .r15 => "r15"

end Reg

/-- A vector register, by number. -/
abbrev Xmm := BitVec 4

/-- A condition on the flags. -/
inductive Cond where
  | o | no | b | ae | e | ne | be | a | s | ns | p | np | l | ge | le | g
  deriving DecidableEq, Repr, Inhabited

namespace Cond

def all : List Cond :=
  [.o, .no, .b, .ae, .e, .ne, .be, .a, .s, .ns, .p, .np, .l, .ge, .le, .g]

def number : Cond → BitVec 4
  | .o => 0
  | .no => 1
  | .b => 2
  | .ae => 3
  | .e => 4
  | .ne => 5
  | .be => 6
  | .a => 7
  | .s => 8
  | .ns => 9
  | .p => 10
  | .np => 11
  | .l => 12
  | .ge => 13
  | .le => 14
  | .g => 15

def ofNumber (n : BitVec 4) : Cond := all.getD n.toNat .o

@[simp] theorem ofNumber_number (c : Cond) : ofNumber c.number = c := by
  cases c <;> rfl

def invert : Cond → Cond
  | .o => .no
  | .no => .o
  | .b => .ae
  | .ae => .b
  | .e => .ne
  | .ne => .e
  | .be => .a
  | .a => .be
  | .s => .ns
  | .ns => .s
  | .p => .np
  | .np => .p
  | .l => .ge
  | .ge => .l
  | .le => .g
  | .g => .le

def name : Cond → String
  | .o => "o"
  | .no => "no"
  | .b => "b"
  | .ae => "ae"
  | .e => "e"
  | .ne => "ne"
  | .be => "be"
  | .a => "a"
  | .s => "s"
  | .ns => "ns"
  | .p => "p"
  | .np => "np"
  | .l => "l"
  | .ge => "ge"
  | .le => "le"
  | .g => "g"

end Cond

/-- The factor of an index register. -/
inductive Scale where
  | one | two | four | eight
  deriving DecidableEq, Repr, Inhabited

/-- The factor as a power of two. -/
def Scale.shift : Scale → Nat
  | .one => 0
  | .two => 1
  | .four => 2
  | .eight => 3

/-- An index register with its factor. The stack pointer is no index register. -/
structure Index where
  reg : Reg
  scale : Scale
  ne_rsp : reg ≠ .rsp := by decide
  deriving DecidableEq, Repr

/-- A memory operand: base, index times factor, and displacement. -/
structure Mem where
  base : Reg
  index : Option Index := none
  disp : Cell := 0
  deriving DecidableEq, Repr

inductive Size where
  | d | q
  deriving DecidableEq, Repr, Inhabited

/-- An operation of the arithmetic and logic unit with two operands. -/
inductive Alu where
  | add | or | and | sub | xor | cmp
  deriving DecidableEq, Repr, Inhabited

inductive Shift where
  | shl | shr | sar
  deriving DecidableEq, Repr, Inhabited

/-- A single-precision operation with a memory operand. -/
inductive FloatOp where
  | sqrt | add | mul | sub | div
  /-- Converts a signed cell to a float. -/
  | ofCell
  deriving DecidableEq, Repr, Inhabited

inductive Instr where
  | movRR (s : Size) (dst src : Reg)
  | movRI64 (dst : Reg) (imm : Word)
  | movRI32 (dst : Reg) (imm : Cell)
  | load (s : Size) (dst : Reg) (src : Mem)
  | store (s : Size) (dst : Mem) (src : Reg)
  | storeImm (dst : Mem) (imm : Cell)
  | store16 (dst : Mem) (src : Reg)
  | store8 (dst : Mem) (src : Reg)
  /-- Loads a byte and clears the upper bits. -/
  | loadByte (dst : Reg) (src : Mem)
  /-- Loads two bytes and clears the upper bits. -/
  | loadHalf (dst : Reg) (src : Mem)
  /-- Extends the low byte with zeros. -/
  | movzxByte (dst src : Reg)
  /-- Extends the low byte by its sign. -/
  | movsxByte (dst src : Reg)
  /-- Extends the low 32 bits by their sign. -/
  | movsxd (dst src : Reg)
  | lea (s : Size) (dst : Reg) (src : Mem)
  | xchg (a b : Reg)
  | push (r : Reg)
  | pop (r : Reg)
  | aluRR (op : Alu) (s : Size) (dst src : Reg)
  | aluRI (op : Alu) (s : Size) (dst : Reg) (imm : Cell)
  | aluRM (op : Alu) (dst : Reg) (src : Mem)
  | aluMI (op : Alu) (dst : Mem) (imm : Cell)
  | test (s : Size) (a b : Reg)
  | not (r : Reg)
  | neg (r : Reg)
  | incM (m : Mem)
  | decM (m : Mem)
  | imulRR (dst src : Reg)
  | imulRRI (dst src : Reg) (imm : Cell)
  /-- Extends `eax` by its sign into `edx`. -/
  | cdq
  | idiv (r : Reg)
  | div (r : Reg)
  /-- Shifts by the count in `cl`. -/
  | shiftCl (op : Shift) (r : Reg)
  | shiftImm (op : Shift) (r : Reg) (count : Byte)
  | setcc (c : Cond) (r : Reg)
  /-- Makes string operations run upwards. -/
  | cld
  | repMovsb
  | repStosd
  | repeCmpsb
  | jmp (rel : Cell)
  | jcc (c : Cond) (rel : Cell)
  | call (rel : Cell)
  | jmpR (r : Reg)
  | callR (r : Reg)
  | ret
  | int3
  | movdXR (dst : Xmm) (src : Reg)
  | movdRX (dst : Reg) (src : Xmm)
  | movss (dst : Xmm) (src : Mem)
  | float (op : FloatOp) (dst : Xmm) (src : Mem)
  deriving DecidableEq, Repr

end PawnNative.X64
