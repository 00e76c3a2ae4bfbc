import PawnNative.Fault
import PawnNative.Registers
import PawnNative.X64.Instr

/-! # Conventions of compiled code

    Compiled code keeps the registers of the abstract machine in registers of the
    processor. The two computing registers are the low halves of `rax` and `rcx`;
    stack and frame are kept as addresses, so that a cell of the stack is one
    memory operand. Everything else is reached through the record of the running
    call, which lies on the native stack.

    A template is the code of one instruction: lines that are either an
    instruction of the processor, a branch to a target that is not placed yet, or
    the place of a target.
-/

namespace PawnNative

open X64

namespace Convention

/-- The primary register. -/
abbrev pri : Reg := .rax

/-- The alternate register. -/
abbrev alt : Reg := .rcx

/-- The address of the data segment. -/
abbrev data : Reg := .rbx

/-- The address of the record of the running call. -/
abbrev call : Reg := .r12

/-- The address of the top of the stack. -/
abbrev stk : Reg := .r13

/-- The address of the frame. -/
abbrev frm : Reg := .r14

/-- A register for intermediate results. -/
abbrev tmp0 : Reg := .rdx

@[inherit_doc tmp0]
abbrev tmp1 : Reg := .rsi

@[inherit_doc tmp0]
abbrev tmp2 : Reg := .rdi

/-- Where the alternate register waits while its register is used. -/
abbrev save : Reg := .r8

theorem tmp0_ne_rsp : tmp0 ≠ .rsp := by decide

theorem tmp1_ne_rsp : tmp1 ≠ .rsp := by decide

/-- The record of a running call. -/
inductive CallField where
  /-- The native stack pointer to go back to on a halt. -/
  | haltRsp
  /-- The address of the register file. -/
  | regs
  /-- The address of the data segment. -/
  | data
  | retval
  /-- The fault that a helper reported. -/
  | error
  deriving DecidableEq, Repr

/-- The offset of a field in the record. -/
def CallField.offset : CallField → Nat
  | .haltRsp => 0
  | .regs => 8
  | .data => 16
  | .retval => 32
  | .error => 36

/-- A field of the record as an operand. -/
def field (f : CallField) : Mem := { base := call, disp := BitVec.ofNat 32 f.offset }

/-- A register of the abstract machine as an operand, when `base` points at the register file. -/
def saved (base : Reg) (r : RegisterName) : Mem := { base, disp := BitVec.ofNat 32 r.offset }

/-- The helpers that compiled code calls. -/
inductive Helper where
  | callNative
  /-- Finds the code of an instruction. -/
  | findCode
  /-- The logarithm of a single-precision number. -/
  | floatLog
  deriving DecidableEq, Repr

def Helper.address : Helper → Word
  | .callNative => 1
  | .findCode => 2
  | .floatLog => 3

def Helper.ofAddress? (a : Word) : Option Helper :=
  if a = Helper.callNative.address then some .callNative
  else if a = Helper.findCode.address then some .findCode
  else if a = Helper.floatLog.address then some .floatLog
  else none

end Convention

/-- Code that is shared by all instructions of a program. -/
inductive Stub where
  /-- Leaves the program; the status is in `eax`. -/
  | leave
  /-- Unwinds the native stack and leaves; the status is in `eax`. -/
  | halt
  /-- Unwinds and leaves with the fault that a helper reported. -/
  | pending
  /-- Halts with a fault. -/
  | fault (f : Fault)
  deriving DecidableEq, Repr

/-- Where a branch leads. -/
inductive Target where
  /-- The code of the instruction at a code address. -/
  | code (address : Cell)
  /-- The dispatch of the case table at a code address. -/
  | cases (address : Cell)
  | stub (s : Stub)
  /-- A place in the same template. -/
  | mark (n : Nat)
  deriving DecidableEq, Repr

/-- A line of a template. -/
inductive Line where
  | op (i : Instr)
  | jmp (t : Target)
  | jcc (c : Cond) (t : Target)
  | call (t : Target)
  /-- The target is here. -/
  | place (t : Target)
  deriving DecidableEq, Repr

/-- The targets that a line leads to. -/
def Line.target? : Line → Option Target
  | .jmp t | .jcc _ t | .call t => some t
  | .op _ | .place _ => none

end PawnNative
