import PawnNative.Compile.Intrinsic
import PawnNative.Compile.Template.Stack

/-! # Templates: control flow and natives

    Branches of the bytecode are branches of the processor. A call pushes the
    bytecode address of the next instruction, which only fills its place in the
    frame: the address to return to is on the native stack. Computed branches ask
    a helper for the code of an address.

    A native is called through a helper, unless it is a float native that is put
    in place of the call.
-/

namespace PawnNative

open X64 Convention

namespace Template

/-- Jumps to an instruction when a register comparison gives a condition. -/
def jumpCompared (c : Cond) (target : Cell) : List Line :=
  [.op (.aluRR .cmp .d pri alt), .jcc c (.code target)]

/-- Jumps to an instruction when the primary register is, or is not, zero. -/
def jumpTested (c : Cond) (target : Cell) : List Line :=
  [.op (.test .d pri pri), .jcc c (.code target)]

/-- Calls a function. -/
def callCode (target returnTo : Cell) : List Line := pushImm returnTo ++ [.call (.code target)]

/-- Goes to the instruction at the code address in the primary register. -/
def computed (go : Reg → Instr) : List Line :=
  suspend ++ [.op (.movRR .q .rdi call), .op (.movRR .d .rsi pri)] ++ callHelper .findCode ++
  [.op (.movRR .q tmp1 .rax)] ++ resume ++
  [.op (.test .q tmp1 tmp1),
   .jcc .e (.stub .pending),
   loadFile tmp0,
   .op (.load .d pri (saved tmp0 .pri)),
   .op (go tmp1)]

/-- Jumps to the instruction at the code address in the primary register. -/
def jumpComputed : List Line := computed .jmpR

/-- Calls the function at the code address in the primary register. -/
def callComputed (returnTo : Cell) : List Line := pushImm returnTo ++ computed .callR

/-- The records of a case table, tried in order. -/
def tryCases : List (Cell × Cell) → List Line
  | [] => []
  | (value, target) :: rest =>
    .op (.aluRI .cmp .d pri value) :: .jcc .e (.code target) :: tryCases rest

/-- The dispatch of a case table. -/
def dispatchCases (address default : Cell) (cases : List (Cell × Cell)) : List Line :=
  [.place (.cases address)] ++ tryCases cases ++ [.jmp (.code default)]

/-- Halts with a code; the primary register is the result. -/
def haltWith (code : Cell) : List Line :=
  [.op (.store .d (field .retval) pri), .op (.movRI32 .rax code), .jmp (.stub .halt)]

/-- Halts when the primary register is above a limit, or negative. -/
def checkBounds (limit : Cell) : List Line :=
  [.op (.aluRI .cmp .d pri limit), .jcc .a (.stub (.fault .bounds))]

/-! ### Natives -/

/-- Where the index of a native comes from. -/
inductive NativeIndex where
  | const (index : Cell)
  /-- From the primary register. -/
  | pri
  deriving DecidableEq, Repr

/-- Where the byte count of the arguments comes from. -/
inductive ArgCount where
  /-- The bytecode pushed it. -/
  | pushed
  /-- The call pushes it, and drops it with the arguments. -/
  | const (bytes : Cell)
  deriving DecidableEq, Repr

/-- Calls a native through the helper. -/
def callNative (index : NativeIndex) (count : ArgCount) : List Line :=
  suspend ++
  ([.op (.movRR .q .rdi call),
    .op (match index with
      | .const n => .movRI32 .rsi n
      | .pri => .movRR .d .rsi Convention.pri)] : List Line) ++
  (match count with
    | .pushed => [.op (.movRI32 .rdx 0), .op (.movRI32 .rcx 0)]
    | .const bytes => [.op (.movRI32 .rdx bytes), .op (.movRI32 .rcx 1)] : List Line) ++
  callHelper .callNative ++ resume ++
  [.op (.aluMI .cmp (field .error) 0), .jcc .ne (.stub .pending)]

/-- The float native that is put in place of a call. -/
def inlined? (ctx : Context) (index : NativeIndex) (count : ArgCount) : Option FloatNative :=
  match index with
  | .pri => none
  | .const n =>
    if !ctx.config.intrinsics || decide (n.toInt < 0) then none
    else match ((ctx.natives[n.toNat]?).join).bind FloatNative.ofName? with
      | none => none
      | some f =>
        match count with
        | .pushed => some f
        | .const bytes => if bytes = BitVec.ofNat 32 (Cell.width * f.arity) then some f else none

/-- Calls a native, or does its work in place. -/
def native (ctx : Context) (index : NativeIndex) (count : ArgCount) : List Line :=
  match inlined? ctx index count with
  | none => callNative index count
  | some f =>
    match count with
    | .pushed => f.lines Cell.width
    | .const bytes => f.lines 0 ++ [.op (.aluRI .add .q stk bytes)]

end Template

end PawnNative
