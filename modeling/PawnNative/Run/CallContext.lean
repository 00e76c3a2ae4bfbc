import PawnNative.Instance

/-! # Calls of natives

    While a native runs, its arguments are a block on the stack of the instance:
    the cell with their byte count, and the arguments above it. Either the
    bytecode pushed the count and drops the block itself, or the call pushes the
    count and drops the whole block. In both cases the stack is put back when the
    call is over, wherever the native left it.
-/

namespace PawnNative

/-- Where the byte count of the arguments comes from. -/
inductive ArgBlock where
  /-- The bytecode pushed it. -/
  | onStack
  /-- The call pushes it. -/
  | push (bytes : Cell)
  deriving DecidableEq, Repr

/-- The argument block of a native that runs. -/
structure CallContext where
  block : ArgBlock
  /-- The stack before the call. -/
  stk : Cell
  /-- Data address of the byte count. -/
  address : Cell
  deriving DecidableEq, Repr

namespace CallContext

/-- Sets up an argument block. -/
def enter (vm : Instance) (block : ArgBlock) : Except Fault (CallContext × Instance) :=
  let stk := vm.regs.stk
  match block with
  | .onStack => .ok ({ block, stk, address := stk }, vm)
  | .push bytes => do
    let vm ← vm.pushCell bytes
    return ({ block, stk, address := vm.regs.stk }, vm)

def finalStk (c : CallContext) : Cell :=
  match c.block with
  | .onStack => c.stk
  | .push bytes => c.stk + bytes

def leave (c : CallContext) (vm : Instance) : Instance := { vm with regs.stk := c.finalStk }

/-- The byte count and the arguments. -/
def params (c : CallContext) (vm : Instance) : Except Fault (List Cell) := do
  let bytes ← vm.cell c.address
  if bytes.toInt < 0 then throw .params
  vm.cells (bytes.toNat / Cell.width + 1) c.address

end CallContext

/-- The native with this index in the table of imports. -/
def Instance.nativeAt (vm : Instance) (index : Cell) : Except Fault Native :=
  if index.toInt < 0 then .error .index
  else match vm.nativeHandle? index.toNat with
    | none => .error .index
    | some handle =>
      match vm.nativeOf? handle with
      | none => .error .notFound
      | some f => .ok f

end PawnNative
