import PawnNative.Compile.Program
import PawnNative.Run.Native
import PawnNative.Single.Log

/-! # Running programs

    A call of a compiled function puts the record of the call on the native stack
    and enters the program at its start. It is over when the processor reaches the
    address where the host goes on.

    On the way the program calls helpers of the host. A helper finds its arguments
    in registers and keeps the registers that the calling convention protects; in
    the others it leaves what it likes, which is a parameter here. Helpers rely on
    an aligned stack pointer.

    `Environment.run` follows the processor for a bounded number of steps. Calls
    that a native makes are runs of their own, further down the native stack.
-/

namespace PawnNative

open X64 Convention

/-- What a helper leaves in the registers that it may change. -/
structure Residue where
  regs : RegFile := {}
  xmm : XmmFile := {}
  flags : Flags := {}

/-- The processor and the address space that programs run in. -/
structure Platform where
  layout : Layout
  /-- What a helper leaves behind, when it is called in this state. -/
  residue : Machine → Residue := fun _ => {}

def Layout.standard : Layout where
  block := 0x7F1000000000
  file := 0x7F2000000000
  code := 0x7F3000000000
  stackTop := 0x7FFD00000000
  stackSize := 0x800000
  hostReturn := 0x400000

def Platform.standard : Platform where
  layout := .standard

/-- A program on a platform. -/
structure Environment where
  platform : Platform
  program : Program

namespace Environment

def layout (env : Environment) : Layout := env.platform.layout

/-! ### Helpers -/

/-- The registers that a helper keeps. -/
def isKept : Reg → Bool
  | .rbx | .rsp | .rbp | .r12 | .r13 | .r14 | .r15 => true
  | _ => false

/-- Returns from a helper with a result in `rax`. -/
def helperReturn (env : Environment) (m : Machine) (rax : Word) : Except Crash Machine := do
  let left := env.platform.residue m
  let (rip, m) ← m.pop
  let regs := RegFile.ofFn fun r => if isKept r then m.regs.get r else left.regs.get r
  return { m with rip, regs := regs.set .rax rax, xmm := left.xmm, flags := left.flags }

/-- Returns from a helper with a cell; the upper half of `rax` is not part of the result. -/
def helperReturnCell (env : Environment) (m : Machine) (eax : Cell) : Except Crash Machine :=
  env.helperReturn m (((env.platform.residue m).regs.get .rax).extractLsb' 32 32 ++ eax)

/-- Notes a fault in the record of the call at `record`. -/
def noteFault (m : Machine) (record : Word) (f : Fault) : Except Crash Machine :=
  m.store32 (record + BitVec.ofNat 64 CallField.error.offset) f.code

/-- The argument block of a native call, from the registers of the helper. -/
def argBlock (regs : RegFile) : ArgBlock :=
  if (regs.get .rcx).setWidth 8 = (0 : Byte) then .onStack
  else .push ((regs.get .rdx).setWidth 32)

def helpNative (env : Environment) (k : Callbacks) (m : Machine) : Except Crash Machine := do
  let record := m.reg .rdi
  let (result, host) ← dispatch k (m.reg32 .rsi) (argBlock m.regs) m.host
  let m := m.setHost host
  match result with
  | .ok value => env.helperReturnCell m value
  | .error f => env.helperReturnCell (← noteFault m record f) 0

def codeAddress? (env : Environment) (address : Cell) : Option Word :=
  (env.program.offset? address).map fun o => env.layout.code + BitVec.ofNat 64 o

def helpFind (env : Environment) (m : Machine) : Except Crash Machine := do
  match env.codeAddress? (m.reg32 .rsi) with
  | some a => env.helperReturn m a
  | none => env.helperReturn (← noteFault m (m.reg .rdi) .invalidInstruction) 0

def helpLog (env : Environment) (m : Machine) : Except Crash Machine := do
  let result := Single.log (m.xmm.get 0) (m.xmm.get 1)
  let m ← env.helperReturn m ((env.platform.residue m).regs.get .rax)
  return { m with xmm := m.xmm.set 0 result }

def help (env : Environment) (k : Callbacks) (helper : Helper) (m : Machine) :
    Except Crash Machine :=
  if m.reg .rsp % 16 ≠ 8 then .error .misalignedCall
  else match helper with
    | .callNative => env.helpNative k m
    | .findCode => env.helpFind m
    | .floatLog => env.helpLog m

/-! ### Calls -/

/-- Native stack that the host uses between its caller and the record of a call. -/
def hostFrame : Word := 256

/-- Where the record of a call lies, when the host was called with this stack pointer. -/
def recordAddress (rsp : Word) : Word := (rsp - hostFrame) &&& ~~~ 15

def writeRecord (env : Environment) (h : Host) (record : Word) : Except Crash Host := do
  let l := env.layout
  let data := l.block + h.vm.header.dat.setWidth 64
  let put64 (h : Host) (f : CallField) (v : Word) : Except Crash Host :=
    let a := record + BitVec.ofNat 64 f.offset
    Machine.reached a (h.store64 l a v)
  let put32 (h : Host) (f : CallField) (v : Cell) : Except Crash Host :=
    let a := record + BitVec.ofNat 64 f.offset
    Machine.reached a (h.store32 l a v)
  let h ← put64 h .haltRsp 0
  let h ← put64 h .regs l.file
  let h ← put64 h .data data
  let h ← put32 h .retval 0
  put32 h .error 0

/-- The machine that enters a program: the record in `rdi`, the code to call in `rsi`, and on
    the native stack the address where the host goes on. -/
def entry (env : Environment) (regs : RegFile) (h : Host) (target : Word) :
    Except Crash Machine := do
  let record := recordAddress (regs.get .rsp)
  let h ← env.writeRecord h record
  let regs := ((regs.set .rsp record).set .rdi record).set .rsi target
  let m : Machine := { layout := env.layout, regs, rip := env.layout.code, host := h }
  m.push env.layout.hostReturn

/-- Runs compiled code up to its return to the host. -/
def activate (env : Environment) (run : Machine → Except Crash Machine) (regs : RegFile)
    (h : Host) (target : Word) : Except Crash (Except Fault Cell × Host) := do
  let record := recordAddress (regs.get .rsp)
  let m ← run (← env.entry regs h target)
  match Fault.ofCode (m.reg32 .rax) with
  | some f => return (.error f, m.host)
  | none => return (.ok (← m.load32 (record + BitVec.ofNat 64 CallField.retval.offset)), m.host)

/-- Runs the function at a code address with `k` arguments on the stack. -/
def invoke (env : Environment) (run : Machine → Except Crash Machine) (regs : RegFile)
    (address : Cell) (k : Nat) (h : Host) : Except Crash (Except Fault Cell × Host) :=
  match env.codeAddress? address with
  | none => .ok (.error .index, h)
  | some target =>
    match h.vm.pushCell (BitVec.ofNat 32 (k * Cell.width)) with
    | .error f => .ok (.error f, h)
    | .ok vm =>
      match vm.pushCell 0 with
      | .error f => .ok (.error f, h.setVm vm)
      | .ok vm => env.activate run regs (h.setVm vm) target

end Environment

/-- Makes a call with the arguments that wait. Afterwards the arguments are dropped, and
    heap and frame are as they were, whatever the outcome. -/
def balanced (body : Nat → Host → Except Crash (Except Fault Cell × Host)) (h : Host) :
    Except Crash (Except Fault Cell × Host) := do
  let k := h.vm.pending
  let saved := h.vm.regs
  let (result, h) ← body k { h with vm.pending := 0 }
  let regs := { h.vm.regs with
    stk := saved.stk + BitVec.ofNat 32 (k * Cell.width), hea := saved.hea, frm := saved.frm }
  return (result, { h with vm.regs := regs })

namespace Environment

/-- What natives can ask, when the host was called with these registers. -/
def callbacks (env : Environment) (run : Machine → Except Crash Machine) (regs : RegFile) :
    Callbacks where
  call address h := balanced (env.invoke run regs address) h
  isInstruction address := (env.program.offset? address).isSome

/-- Follows the processor until it reaches the host. -/
def run (env : Environment) : Nat → Machine → Except Crash Machine
  | 0, _ => .error .outOfFuel
  | n + 1, m =>
    if m.rip = env.layout.hostReturn then .ok m
    else match Helper.ofAddress? m.rip with
      | some helper => do
        run env n (← env.help (env.callbacks (run env n) m.regs) helper m)
      | none => do run env n (← m.step env.program.readings)

end Environment

end PawnNative
