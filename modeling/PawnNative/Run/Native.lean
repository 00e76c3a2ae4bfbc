import PawnNative.Machine.Basic
import PawnNative.Run.CallContext

/-! # Running natives

    What the actions of a native do to the host. Calls of compiled functions are
    given by callbacks, so natives are run here without knowing how compiled code
    is run. A native that aborts ends with the fault `native`.
-/

namespace PawnNative

/-- What a native can ask of compiled code. -/
structure Callbacks where
  /-- Calls the function at a code address. -/
  call : Cell → Host → Except Crash (Except Fault Cell × Host)
  /-- Whether there is an instruction at a code address. -/
  isInstruction : Cell → Bool

namespace Host

def setVm (h : Host) (vm : Instance) : Host := { h with vm }

/-- Keeps the instance that an operation leaves; when it fails, nothing has changed. -/
def commit (h : Host) : Except Fault Instance → Except Fault Unit × Host
  | .ok vm => (.ok (), h.setVm vm)
  | .error f => (.error f, h)

/-- The same for an operation with a result. -/
def commitCell (h : Host) : Except Fault (Cell × Instance) → Except Fault Cell × Host
  | .ok (c, vm) => (.ok c, h.setVm vm)
  | .error f => (.error f, h)

end Host

namespace Callbacks

/-- Calls a public function. An index without a function leaves the waiting arguments alone. -/
def callPublic (k : Callbacks) (index : Nat) (h : Host) :
    Except Crash (Except Fault Cell × Host) :=
  match h.vm.publicAddress? index with
  | none => .ok (.error .index, h)
  | some address => k.call address h

/-- Calls the entry point. Without one the waiting arguments are forgotten. -/
def callMain (k : Callbacks) (h : Host) : Except Crash (Except Fault Cell × Host) :=
  if h.vm.header.cip.toInt < 0 then .ok (.error .index, { h with vm.pending := 0 })
  else k.call h.vm.header.cip h

def perform (k : Callbacks) : (a : Action) → Host → Except Crash (a.Answer × Host)
  | .registers, h => .ok (h.vm.regs, h)
  | .setRegister name value, h => .ok ((), { h with vm.regs := h.vm.regs.set name value })
  | .cell address, h => .ok (h.vm.cell address, h)
  | .setCell address value, h => .ok (h.commit (h.vm.setCell address value))
  | .text address, h => .ok (h.vm.text address, h)
  | .push value, h => .ok (h.commit (h.vm.push value))
  | .pushText s, h =>
    let attempt := h.vm.pushText s
    .ok (attempt.result, h.setVm attempt.vm)
  | .allot cells, h => .ok (h.commitCell (h.vm.allot cells))
  | .release address, h => .ok ((), h.setVm (h.vm.release address))
  | .pushCell value, h => .ok (h.commit (h.vm.pushCell value))
  | .popCell, h => .ok (h.commitCell h.vm.popCell)
  | .dropCells count, h => .ok (h.commit (h.vm.dropCells count))
  | .pending, h => .ok (h.vm.pending, h)
  | .findPublic name, h => .ok (h.vm.findPublic? name, h)
  | .isInstruction address, h => .ok (k.isInstruction address, h)
  | .call address, h => k.call address h
  | .callPublic index, h => k.callPublic index h
  | .callMain, h => k.callMain h
  | .log entry, h => .ok ((), { h with log := entry :: h.log })

end Callbacks

namespace NativeProgram

/-- Runs a native to its end. -/
def exec {α : Type} (k : Callbacks) : NativeProgram α → Host → Except Crash (Except Fault α × Host)
  | .done a, h => .ok (.ok a, h)
  | .fail f, h => .ok (.error f, h)
  | .abort, h => .ok (.error .native, h)
  | .act a next, h => do
    let (answer, h) ← k.perform a h
    exec k (next answer) h

end NativeProgram

/-- Calls the native with an index. -/
def dispatch (k : Callbacks) (index : Cell) (block : ArgBlock) (h : Host) :
    Except Crash (Except Fault Cell × Host) :=
  match CallContext.enter h.vm block with
  | .error f => .ok (.error f, h)
  | .ok (c, vm) =>
    let found : Except Fault (Native × List Cell) := do
      let native ← vm.nativeAt index
      return (native, ← c.params vm)
    match found with
    | .error f => .ok (.error f, h.setVm (c.leave vm))
    | .ok (native, params) => do
      let (result, h) ← (native ⟨params, c.address⟩).exec k (h.setVm vm)
      return (result, h.setVm (c.leave h.vm))

end PawnNative
