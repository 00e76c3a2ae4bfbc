import PawnNative.Native.Float

/-! # Probing natives

    A small library of natives, one for each thing that a native can do: look at
    its arguments, read and write cells and registers, push arguments, use the
    heap, call back into compiled code, fail and abort. They serve to watch
    compiled code and its host from the inside.
-/

namespace PawnNative

open NativeProgram

/-- An argument that is a size: not negative. -/
def NativeCall.size (c : NativeCall) (n : Nat) : NativeProgram Nat := do
  let v ← c.param n
  if v.toInt < 0 then .fail .params else return v.toNat

/-- An argument that is the number of a register. -/
def NativeCall.register (c : NativeCall) (n : Nat) : NativeProgram RegisterName := do
  let v ← c.param n
  match RegisterName.ofNumber? v.toNat with
  | some r => return r
  | none => .fail .params

namespace Probe

/-- Performs an action that can fail, and goes on with its result. -/
def tryCell (p : NativeProgram (Except Fault Cell)) : NativeProgram Cell := p.bind ofExcept

/-- Performs an action that can fail. -/
def tryUnit (p : NativeProgram (Except Fault Unit)) : NativeProgram Unit := p.bind ofExcept

/-- Pushes arguments, the last one first. -/
def pushArgs : List Cell → NativeProgram Unit
  | [] => .done ()
  | v :: rest => do
    pushArgs rest
    tryUnit (perform (.push v))

def sum : Native := fun c => return (c.params.drop 1).foldl (· + ·) 0

def count : Native := fun c => c.param 0

/-- Logs the argument block; the result is the first argument. -/
def echo : Native := fun c => do
  perform (.log (.cells c.params))
  return (c.params.drop 1).headD 0

/-- Fails with the fault that the argument is the code of. -/
def failWith : Native := fun c => do
  match Fault.ofCode (← c.param 1) with
  | some f => .fail f
  | none => return 0

def explode : Native := fun _ => .abort

/-- Calls a public function with the arguments after its index. -/
def callPublic : Native := fun c => do
  let index ← c.size 1
  pushArgs (c.params.drop 2)
  tryCell (perform (.callPublic index))

/-- Calls a public function; a fault becomes its code, negated. -/
def tryPublic : Native := fun c => do
  match ← (callPublic c).attempt with
  | .ok v => return v
  | .error f => return -f.code

/-- Calls a function with the arguments after its address. -/
def callFunction : Native := fun c => do
  let address ← c.param 1
  pushArgs (c.params.drop 2)
  tryCell (perform (.call address))

def callMain : Native := fun _ => tryCell (perform .callMain)

def peek : Native := fun c => do
  let address ← c.param 1
  tryCell (perform (.cell address))

/-- Writes a cell; the result is its old value. -/
def poke : Native := fun c => do
  let address ← c.param 1
  let old ← tryCell (perform (.cell address))
  let value ← c.param 2
  tryUnit (perform (.setCell address value))
  return old

def readRegister : Native := fun c => do
  let r ← c.register 1
  let regs : Registers ← perform .registers
  return regs.get r

/-- Writes a register; the result is its old value. -/
def writeRegister : Native := fun c => do
  let value ← c.param 2
  let r ← c.register 1
  let regs : Registers ← perform .registers
  perform (.setRegister r value)
  return regs.get r

/-- The address of the argument block. -/
def blockAddress : Native := fun c => return c.address

def allot : Native := fun c => do
  let cells ← c.size 1
  tryCell (perform (.allot cells))

/-- Releases the heap down to an address; the result is its new top. -/
def release : Native := fun c => do
  perform (.release (← c.param 1))
  let regs : Registers ← perform .registers
  return regs.hea

/-- Pushes an argument for the next call; the result is the number of those that wait. -/
def pushArg : Native := fun c => do
  let value ← c.param 1
  tryUnit (perform (.push value))
  let pending : Nat ← perform .pending
  return BitVec.ofNat 32 pending

/-- Pushes a cell; the result is the new top of the stack. -/
def pushCell : Native := fun c => do
  let value ← c.param 1
  tryUnit (perform (.pushCell value))
  let regs : Registers ← perform .registers
  return regs.stk

def popCell : Native := fun _ => tryCell (perform .popCell)

/-- The text at the address in an argument. -/
def textParam (c : NativeCall) (n : Nat) : NativeProgram String := do
  let address ← c.param n
  (perform (.text address)).bind ofExcept

/-- Logs a text; the result is its length. -/
def logText : Native := fun c => do
  let s ← textParam c 1
  perform (.log (.text s))
  return BitVec.ofNat 32 s.length

/-- Copies a text to the heap and pushes its address for the next call. -/
def pushText : Native := fun c => do
  let s ← textParam c 1
  tryCell (perform (.pushText s))

def findPublic : Native := fun c => do
  let s ← textParam c 1
  let found : Option Nat ← perform (.findPublic s)
  match found with
  | some index => return BitVec.ofNat 32 index
  | none => return -1

/-- Tells whether there is an instruction at a code address. -/
def isInstruction : Native := fun c => do
  let address ← c.param 1
  let found : Bool ← perform (.isInstruction address)
  return if found then 1 else 0

def zero : Native := fun _ => return 0

def library : List (String × Native) :=
  [("sum", sum), ("count", count), ("echo", echo), ("fail", failWith), ("explode", explode),
   ("callpub", callPublic), ("trypub", tryPublic), ("callfn", callFunction),
   ("callmain", callMain), ("peek", peek), ("poke", poke), ("getreg", readRegister),
   ("setreg", writeRegister), ("paddr", blockAddress), ("allot", allot), ("release", release),
   ("hostpush", pushArg), ("vmpush", pushCell), ("vmpop", popCell), ("puts", logText),
   ("pushstr", pushText), ("findpub", findPublic), ("isinstr", isInstruction), ("zero", zero)]

end Probe

end PawnNative
