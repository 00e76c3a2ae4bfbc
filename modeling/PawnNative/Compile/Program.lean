import PawnNative.Code.Readings
import PawnNative.Compile.Assembly
import PawnNative.Compile.Template

/-! # Programs

    A program is the compiled code of a whole code segment: the code that every
    program starts with, the code of the instructions one after the other, and the
    stubs of the faults. The code map says where the code of each instruction
    starts.

    Compilation stops at the first instruction that cannot be decoded or that has
    no code. Only when all instructions have code are the branches looked at: the
    lowest address that a branch leads to without being an instruction is the
    error.
-/

namespace PawnNative

/-- A code segment compiled so far. -/
structure Compilation where
  asm : Assembly
  /-- Where the code of each instruction starts, in the order of the instructions. -/
  map : Array (Cell × Nat) := #[]
  /-- How many calls of natives were replaced. -/
  inlined : Nat := 0

namespace Compilation

/-- The code that every program starts with. -/
def start : Compilation where
  asm := ({} : Assembly).lines 0 prologue

/-- Appends the code of an instruction. -/
def instruction (ctx : Context) (c : Compilation) (i : Instruction) :
    Except CompileError Compilation := do
  let ls ← template ctx i
  return {
    asm := c.asm.lines i.address (.place (.code i.address) :: ls)
    map := c.map.push (i.address, c.asm.offset)
    inlined := if isInlined ctx i then c.inlined + 1 else c.inlined }

/-- Appends an item of a decoding. -/
def item (ctx : Context) (c : Compilation) :
    Except DecodeError Instruction → Except CompileError Compilation
  | .ok i => c.instruction ctx i
  | .error e => .error (.decode e)

/-- Checks that all branches lead to instructions. -/
def checkTargets (c : Compilation) : Except CompileError Unit :=
  match c.asm.labels.unbound with
  | [] => .ok ()
  | (k, referrer) :: _ => .error (.notAnInstruction k.address (referrer.getD k.address))

/-- Appends the stubs of the faults. -/
def addStubs (c : Compilation) : Compilation :=
  { c with asm := c.asm.faults.foldl (fun a f => a.lines 0 (faultLines f)) c.asm }

/-- Translates a whole code segment; the distances of branches are not filled in yet. -/
def translate (ctx : Context) (code : Block) : Except CompileError Compilation := do
  let c ← ({ code : Cursor }).remaining.1.foldlM (item ctx) start
  c.checkTargets
  return c.addStubs

end Compilation

/-- A compiled code segment. -/
structure Program where
  memory : CodeMemory
  /-- What the machine code says at each offset. -/
  readings : Readings := memory.bytes.readings
  readings_eq : readings = memory.bytes.readings := by rfl
  /-- Where the code of each instruction starts, by ascending address. -/
  map : Array (Cell × Nat)
  /-- How many calls of natives were replaced. -/
  inlined : Nat

namespace Program

/-- The machine code. -/
def code (p : Program) : Block := p.memory.bytes

/-- Bytes of the machine code. -/
def size (p : Program) : Nat := p.memory.len

/-- Where the code of the instruction at an address starts. -/
def offset? (p : Program) (address : Cell) : Option Nat :=
  (p.map.find? fun e => e.1 == address).map (·.2)

def compile (ctx : Context) (code : Block) : Except CompileError Program := do
  let c ← Compilation.translate ctx code
  match c.asm.buffer.finalize with
  | .ok memory => return { memory, map := c.map, inlined := c.inlined }
  | .error e => throw (.code e)

/-- Compiles the code segment of an instance. -/
def ofInstance (config : Config) (vm : Instance) : Except CompileError Program :=
  compile (.ofInstance config vm) vm.code

end Program

end PawnNative
