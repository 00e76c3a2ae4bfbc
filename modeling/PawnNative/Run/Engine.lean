import PawnNative.Run.Activation

/-! # Engines

    An engine compiles the code of an instance and calls its functions. Calls
    before a successful compilation end with a fault of their own, and so do calls
    of addresses that are no instruction.
-/

namespace PawnNative

/-- A compiler and runner for an instance. -/
structure Engine where
  config : Config := {}
  platform : Platform := .standard
  /-- The most steps that a call may take. -/
  fuel : Nat := 0x4000000000000000
  /-- The compiled code, after a successful compilation. -/
  program : Option Program := none

namespace Engine

/-- Compiles the code of an instance. A failure leaves the engine without code. -/
def compile (e : Engine) (vm : Instance) : Except CompileError Unit × Engine :=
  match Program.ofInstance e.config vm with
  | .ok p => (.ok (), { e with program := some p })
  | .error err => (.error err, { e with program := none })

/-- The registers of the host when it makes a call. -/
def hostRegs (e : Engine) : X64.RegFile := { rsp := e.platform.layout.stackTop - 64 }

/-- What the host can ask of the compiled code. -/
def callbacks (e : Engine) : Callbacks :=
  match e.program with
  | some program =>
    let env : Environment := { platform := e.platform, program }
    env.callbacks (env.run e.fuel) e.hostRegs
  | none =>
    { call := fun _ => balanced fun _ h => .ok (.error .initJit, h)
      isInstruction := fun _ => false }

/-- Calls the function at a code address with the arguments that wait. -/
def call (e : Engine) (address : Cell) (h : Host) : Except Crash (Except Fault Cell × Host) :=
  e.callbacks.call address h

def callPublic (e : Engine) (index : Nat) (h : Host) :
    Except Crash (Except Fault Cell × Host) :=
  e.callbacks.callPublic index h

def callMain (e : Engine) (h : Host) : Except Crash (Except Fault Cell × Host) :=
  e.callbacks.callMain h

end Engine

end PawnNative
