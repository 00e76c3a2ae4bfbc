import PawnNative.Code.Readings
import PawnNative.Machine.Host
import PawnNative.Machine.Registers
import PawnNative.Single.Basic
import PawnNative.X64.Flags

/-! # The processor

    A machine is the state of the processor in the address space of its host:
    registers, flags, the address of the next instruction, and what the host
    holds in memory. `Machine.exec` says what each instruction does.

    Execution has no result where the processor would trap or where the outcome is
    not determined: an access outside the regions, a division that overflows, a
    condition on an undefined flag, a breakpoint. The same holds for an operand
    that strays from the region its base register points into: it would reach
    memory of the host that happens to lie there, and what that is is chance.
-/

namespace PawnNative

open X64

/-- Why a machine cannot go on. -/
inductive Crash where
  /-- The bound on the number of steps was reached. -/
  | outOfFuel
  /-- There is no instruction at this address. -/
  | noInstruction (address : Word)
  /-- Nothing of the right size can be accessed at this address. -/
  | badAddress (address : Word)
  | divideError
  | undefinedFlag
  | breakpoint
  /-- A helper was called with a stack pointer that is no multiple of 16. -/
  | misalignedCall
  deriving DecidableEq, Repr

/-- The state of the processor and of the host it runs in. -/
structure Machine where
  layout : Layout
  regs : RegFile := {}
  xmm : XmmFile := {}
  flags : Flags := {}
  /-- Whether string operations run downwards. -/
  down : Bool := false
  /-- Address of the next instruction. -/
  rip : Word
  host : Host

namespace Machine

/-! ### Registers and memory -/

def reg (m : Machine) (r : Reg) : Word := m.regs.get r

/-- The low half of a register. -/
def reg32 (m : Machine) (r : Reg) : Cell := (m.regs.get r).setWidth 32

def setReg (m : Machine) (r : Reg) (v : Word) : Machine := { m with regs := m.regs.set r v }

/-- Writes the low half of a register and clears the upper half. -/
def setReg32 (m : Machine) (r : Reg) (v : Cell) : Machine := m.setReg r (v.setWidth 64)

def setFlags (m : Machine) (f : Flags) : Machine := { m with flags := f }

/-- The address of a memory operand. -/
def address (m : Machine) (o : Mem) : Word :=
  match o.index with
  | none => (m.reg o.base).plus o.disp.toWord
  | some i => ((m.reg o.base).plus (m.reg i.reg <<< i.scale.shift)).plus o.disp.toWord

/-- The region that a register points into when it is the base of an operand. -/
def pointsInto : Reg → Region
  | .rdx => .file
  | .r12 | .rsp => .stack
  | _ => .block

/-- The address of an operand that is read or written, which lies in the region that the base
    register points into. -/
def operand (m : Machine) (o : Mem) : Except Crash Word :=
  let a := m.address o
  if (m.host.place? m.layout a).map Place.region = some (pointsInto o.base) then .ok a
  else .error (.badAddress a)

def reached {α : Type} (a : Word) : Option α → Except Crash α
  | some v => .ok v
  | none => .error (.badAddress a)

def load8 (m : Machine) (a : Word) : Except Crash Byte := reached a (m.host.load8 m.layout a)

def load16 (m : Machine) (a : Word) : Except Crash Half := reached a (m.host.load16 m.layout a)

def load32 (m : Machine) (a : Word) : Except Crash Cell := reached a (m.host.load32 m.layout a)

def load64 (m : Machine) (a : Word) : Except Crash Word := reached a (m.host.load64 m.layout a)

def setHost (m : Machine) (h : Host) : Machine := { m with host := h }

def store8 (m : Machine) (a : Word) (v : Byte) : Except Crash Machine :=
  match m with
  | ⟨layout, regs, xmm, flags, down, rip, host⟩ => do
    return ⟨layout, regs, xmm, flags, down, rip, ← reached a (host.store8 layout a v)⟩

def store16 (m : Machine) (a : Word) (v : Half) : Except Crash Machine :=
  match m with
  | ⟨layout, regs, xmm, flags, down, rip, host⟩ => do
    return ⟨layout, regs, xmm, flags, down, rip, ← reached a (host.store16 layout a v)⟩

def store32 (m : Machine) (a : Word) (v : Cell) : Except Crash Machine :=
  match m with
  | ⟨layout, regs, xmm, flags, down, rip, host⟩ => do
    return ⟨layout, regs, xmm, flags, down, rip, ← reached a (host.store32 layout a v)⟩

def store64 (m : Machine) (a : Word) (v : Word) : Except Crash Machine :=
  match m with
  | ⟨layout, regs, xmm, flags, down, rip, host⟩ => do
    return ⟨layout, regs, xmm, flags, down, rip, ← reached a (host.store64 layout a v)⟩

def push (m : Machine) (v : Word) : Except Crash Machine :=
  let sp := m.reg .rsp - 8
  (m.setReg .rsp sp).store64 sp v

def pop (m : Machine) : Except Crash (Word × Machine) := do
  let sp := m.reg .rsp
  return (← m.load64 sp, m.setReg .rsp (sp + 8))

def test (m : Machine) (c : Cond) : Except Crash Bool :=
  match c.holds m.flags with
  | some b => .ok b
  | none => .error .undefinedFlag

/-! ### Groups of instructions -/

/-- An operation on two registers, or a register and an immediate, of 32 bits. -/
def alu32 (m : Machine) (op : Alu) (dst : Reg) (y : Cell) : Machine :=
  let x := m.reg32 dst
  let m := m.setFlags (op.flags x y)
  if op.stores then m.setReg32 dst (op.result x y) else m

def alu64 (m : Machine) (op : Alu) (dst : Reg) (y : Word) : Machine :=
  let x := m.reg dst
  let m := m.setFlags (op.flags x y)
  if op.stores then m.setReg dst (op.result x y) else m

/-- An operation on a cell in memory. -/
def aluMem (m : Machine) (op : Alu) (a : Word) (y : Cell) : Except Crash Machine := do
  let x ← m.load32 a
  let m := m.setFlags (op.flags x y)
  if op.stores then m.store32 a (op.result x y) else return m

/-- A shift; the count is taken modulo 32. -/
def shift (m : Machine) (op : Shift) (r : Reg) (count : Byte) : Machine :=
  let n := count.toNat % 32
  let x := m.reg32 r
  (m.setFlags (op.flags m.flags x n)).setReg32 r (op.result x n)

/-- A signed product; carry and overflow say whether it was cut. -/
def multiply (m : Machine) (dst : Reg) (x y : Cell) : Machine :=
  let cut := (x * y).toInt != x.toInt * y.toInt
  (m.setFlags { carry := some cut, overflow := some cut }).setReg32 dst (x * y)

def divide (m : Machine) (y : Cell) : Except Crash Machine :=
  let x := (m.reg32 .rdx).toNat * 0x100000000 + (m.reg32 .rax).toNat
  let q := x / y.toNat
  if y = 0 ∨ 0x100000000 ≤ q then .error .divideError
  else .ok (((m.setFlags {}).setReg32 .rax (BitVec.ofNat 32 q)).setReg32 .rdx
    (BitVec.ofNat 32 (x % y.toNat)))

/-- Signed division of `edx:eax`, towards zero. -/
def divideSigned (m : Machine) (y : Cell) : Except Crash Machine :=
  let x := (m.reg32 .rdx ++ m.reg32 .rax : BitVec 64).toInt
  let q := x.tdiv y.toInt
  if y = 0 ∨ q < -0x80000000 ∨ 0x80000000 ≤ q then .error .divideError
  else .ok (((m.setFlags {}).setReg32 .rax (BitVec.ofInt 32 q)).setReg32 .rdx
    (BitVec.ofInt 32 (x.tmod y.toInt)))

/-- Adds one to, or takes one from, a cell in memory; the carry flag stays. -/
def increment (m : Machine) (op : Alu) (a : Word) : Except Crash Machine := do
  let x ← m.load32 a
  let m := m.setFlags { op.flags x 1 with carry := m.flags.carry }
  m.store32 a (op.result x 1)

def stride (m : Machine) (n : Word) : Word := if m.down then -n else n

/-- Copies `n` bytes, one at a time. -/
def moveBytes : Nat → Machine → Except Crash Machine
  | 0, m => .ok m
  | n + 1, m => do
    let v ← m.load8 (m.reg .rsi)
    let m ← m.store8 (m.reg .rdi) v
    let m := m.setReg .rsi (m.reg .rsi + m.stride 1)
    let m := m.setReg .rdi (m.reg .rdi + m.stride 1)
    moveBytes n (m.setReg .rcx (m.reg .rcx - 1))

def storeCells : Nat → Machine → Except Crash Machine
  | 0, m => .ok m
  | n + 1, m => do
    let m ← m.store32 (← m.operand { base := .rdi }) (m.reg32 .rax)
    let m := m.setReg .rdi (m.reg .rdi + m.stride 4)
    storeCells n (m.setReg .rcx (m.reg .rcx - 1))

/-- Compares `n` bytes, as long as they are equal. -/
def compareBytes : Nat → Machine → Except Crash Machine
  | 0, m => .ok m
  | n + 1, m => do
    let x ← m.load8 (m.reg .rsi)
    let y ← m.load8 (m.reg .rdi)
    let m := m.setFlags (subFlags x y)
    let m := m.setReg .rsi (m.reg .rsi + m.stride 1)
    let m := m.setReg .rdi (m.reg .rdi + m.stride 1)
    let m := m.setReg .rcx (m.reg .rcx - 1)
    if x = y then compareBytes n m else return m

/-- A single-precision operation with the cell `y` as second operand. -/
def floatResult (op : FloatOp) (x y : Cell) : Cell :=
  match op with
  | .sqrt => Single.sqrt y
  | .add => Single.add x y
  | .mul => Single.mul x y
  | .sub => Single.sub x y
  | .div => Single.div x y
  | .ofCell => Single.ofCell y

def jump (m : Machine) (rel : Cell) : Machine := { m with rip := m.rip.plus rel.toWord }

def jumpTo (m : Machine) (a : Word) : Machine := { m with rip := a }

/-! ### Execution -/

/-- What an instruction does, when `rip` is already the address after it. -/
def exec (m : Machine) : Instr → Except Crash Machine
  | .movRR .d dst src => .ok (m.setReg32 dst (m.reg32 src))
  | .movRR .q dst src => .ok (m.setReg dst (m.reg src))
  | .movRI64 dst imm => .ok (m.setReg dst imm)
  | .movRI32 dst imm => .ok (m.setReg32 dst imm)
  | .load .d dst src => do return m.setReg32 dst (← m.load32 (← m.operand src))
  | .load .q dst src => do return m.setReg dst (← m.load64 (← m.operand src))
  | .store .d dst src => do m.store32 (← m.operand dst) (m.reg32 src)
  | .store .q dst src => do m.store64 (← m.operand dst) (m.reg src)
  | .storeImm dst imm => do m.store32 (← m.operand dst) imm
  | .store16 dst src => do m.store16 (← m.operand dst) ((m.reg src).setWidth 16)
  | .store8 dst src => do m.store8 (← m.operand dst) ((m.reg src).setWidth 8)
  | .loadByte dst src => do return m.setReg dst ((← m.load8 (← m.operand src)).setWidth 64)
  | .loadHalf dst src => do return m.setReg dst ((← m.load16 (← m.operand src)).setWidth 64)
  | .movzxByte dst src => .ok (m.setReg dst (((m.reg src).setWidth 8).setWidth 64))
  | .movsxByte dst src => .ok (m.setReg32 dst (((m.reg src).setWidth 8).signExtend 32))
  | .movsxd dst src => .ok (m.setReg dst ((m.reg32 src).signExtend 64))
  | .lea .d dst src => .ok (m.setReg32 dst ((m.address src).setWidth 32))
  | .lea .q dst src => .ok (m.setReg dst (m.address src))
  | .xchg a b =>
    let x := m.reg32 a
    let y := m.reg32 b
    .ok ((m.setReg32 a y).setReg32 b x)
  | .push r => m.push (m.reg r)
  | .pop r => do
    let (v, m) ← m.pop
    return m.setReg r v
  | .aluRR op .d dst src => .ok (m.alu32 op dst (m.reg32 src))
  | .aluRR op .q dst src => .ok (m.alu64 op dst (m.reg src))
  | .aluRI op .d dst imm => .ok (m.alu32 op dst imm)
  | .aluRI op .q dst imm => .ok (m.alu64 op dst (imm.signExtend 64))
  | .aluRM op dst src => do return m.alu32 op dst (← m.load32 (← m.operand src))
  | .aluMI op dst imm => do m.aluMem op (← m.operand dst) imm
  | .test .d a b => .ok (m.setFlags (logicFlags (m.reg32 a &&& m.reg32 b)))
  | .test .q a b => .ok (m.setFlags (logicFlags (m.reg a &&& m.reg b)))
  | .not r => .ok (m.setReg32 r (~~~ m.reg32 r))
  | .neg r =>
    let x := m.reg32 r
    .ok ((m.setFlags (subFlags 0 x)).setReg32 r (-x))
  | .incM o => do m.increment .add (← m.operand o)
  | .decM o => do m.increment .sub (← m.operand o)
  | .imulRR dst src => .ok (m.multiply dst (m.reg32 dst) (m.reg32 src))
  | .imulRRI dst src imm => .ok (m.multiply dst (m.reg32 src) imm)
  | .cdq => .ok (m.setReg32 .rdx (if (m.reg32 .rax).msb then -1 else 0))
  | .idiv r => m.divideSigned (m.reg32 r)
  | .div r => m.divide (m.reg32 r)
  | .shiftCl op r => .ok (m.shift op r ((m.reg .rcx).setWidth 8))
  | .shiftImm op r n => .ok (m.shift op r n)
  | .setcc c r => do
    let v : Byte := if ← m.test c then 1 else 0
    return m.setReg r ((m.reg r).extractLsb' 8 56 ++ v)
  | .cld => .ok { m with down := false }
  | .repMovsb => moveBytes (m.reg .rcx).toNat m
  | .repStosd => storeCells (m.reg .rcx).toNat m
  | .repeCmpsb => compareBytes (m.reg .rcx).toNat m
  | .jmp rel => .ok (m.jump rel)
  | .jcc c rel => do return if ← m.test c then m.jump rel else m
  | .call rel => do return (← m.push m.rip).jump rel
  | .jmpR r => .ok (m.jumpTo (m.reg r))
  | .callR r => do
    let target := m.reg r
    return (← m.push m.rip).jumpTo target
  | .ret => do
    let (target, m) ← m.pop
    return m.jumpTo target
  | .int3 => .error .breakpoint
  | .movdXR dst src => .ok { m with xmm := m.xmm.set dst (m.reg32 src) }
  | .movdRX dst src => .ok (m.setReg32 dst (m.xmm.get src))
  | .movss dst src => do return { m with xmm := m.xmm.set dst (← m.load32 (← m.operand src)) }
  | .float op dst src => do
    let y ← m.load32 (← m.operand src)
    return { m with xmm := m.xmm.set dst (floatResult op (m.xmm.get dst) y) }

/-- The instruction at an address, and the address after it. -/
def fetch (l : Layout) (code : Readings) (a : Word) : Except Crash (Instr × Word) :=
  match code.get? (a.above l.code) with
  | some (i, n) => .ok (i, a.plus (BitVec.ofNat 64 n))
  | none => .error (.noInstruction a)

def step (code : Readings) (m : Machine) : Except Crash Machine := do
  let (i, next) ← fetch m.layout code m.rip
  (m.jumpTo next).exec i

end Machine

end PawnNative
