import PawnNative.Compile.Template.Arithmetic
import PawnNative.Compile.Template.Flow

/-! # Templates

    The code of each instruction. `template ctx i` is a function of the facts in
    `ctx` and of the instruction alone; it fails when an operand has no meaning.
-/

namespace PawnNative

open X64 Convention Template

/-- A cell that the instruction names directly. -/
def Context.directCell (ctx : Context) (i : Instruction) : Except CompileError Mem :=
  (ctx.direct i).map dataCell

namespace Template

def readControl (ctx : Context) (i : Instruction) : Except CompileError (List Line) :=
  match i.arg.toInt with
  | 0 => .ok [.op (.movRI32 pri ctx.cod)]
  | 1 => .ok [.op (.movRI32 pri ctx.dat)]
  | 2 => .ok [loadFile tmp0, .op (.load .d pri (saved tmp0 .hea))]
  | 3 => .ok [loadFile tmp0, .op (.load .d pri (saved tmp0 .stp))]
  | 4 => .ok (relative pri stk)
  | 5 => .ok (relative pri frm)
  | 6 => .ok [.op (.movRI32 pri i.next)]
  | _ => .error (.unsupported i .unknownRegister)

def writeControl (i : Instruction) : Except CompileError (List Line) :=
  match i.arg.toInt with
  | 2 => .ok [loadFile tmp0, .op (.store .d (saved tmp0 .hea) pri)]
  | 4 => .ok (absolute stk pri)
  | 5 => .ok (absolute frm pri)
  | 6 => .ok jumpComputed
  | _ => .error (.unsupported i .readOnlyRegister)

def caseTable (ctx : Context) (i : Instruction) : Except CompileError (List Line) := do
  let default ← ctx.target i i.arg2
  let cases ← i.cases.mapM fun (value, target) => do return (value, ← ctx.target i target)
  return dispatchCases i.address default cases

/-- A native call that pushes the byte count of its arguments. -/
def nativeCounted (ctx : Context) (i : Instruction) : Except CompileError (List Line) :=
  if i.arg2.toInt < 0 ∨ i.arg2.toNat % Cell.width ≠ 0 then
    .error (.unsupported i .argumentSize)
  else .ok (native ctx (.const i.arg) (.const i.arg2))

end Template

/-- The code of an instruction. -/
def template (ctx : Context) (i : Instruction) : Except CompileError (List Line) :=
  match i.opcode with
  | .invalid => .error (.unsupported i .invalidInstruction)
  | .loadPri => do return [.op (.load .d pri (← ctx.directCell i))]
  | .loadAlt => do return [.op (.load .d alt (← ctx.directCell i))]
  | .loadSPri => .ok [.op (.load .d pri (frameCell i.arg))]
  | .loadSAlt => .ok [.op (.load .d alt (frameCell i.arg))]
  | .lrefPri => do return loadThrough ctx .pri (← ctx.directCell i)
  | .lrefAlt => do return loadThrough ctx .alt (← ctx.directCell i)
  | .lrefSPri => .ok (loadThrough ctx .pri (frameCell i.arg))
  | .lrefSAlt => .ok (loadThrough ctx .alt (frameCell i.arg))
  | .loadI => .ok (loadIndirect ctx)
  | .lodbI => do return loadPart ctx (← width i)
  | .constPri => .ok [.op (.movRI32 pri i.arg)]
  | .constAlt => .ok [.op (.movRI32 alt i.arg)]
  | .addrPri => .ok (frameAddress pri i.arg)
  | .addrAlt => .ok (frameAddress alt i.arg)
  | .storPri => do return [.op (.store .d (← ctx.directCell i) pri)]
  | .storAlt => do return [.op (.store .d (← ctx.directCell i) alt)]
  | .storSPri => .ok [.op (.store .d (frameCell i.arg) pri)]
  | .storSAlt => .ok [.op (.store .d (frameCell i.arg) alt)]
  | .srefPri => do return storeThrough ctx .pri (← ctx.directCell i)
  | .srefAlt => do return storeThrough ctx .alt (← ctx.directCell i)
  | .srefSPri => .ok (storeThrough ctx .pri (frameCell i.arg))
  | .srefSAlt => .ok (storeThrough ctx .alt (frameCell i.arg))
  | .storI => .ok (storeIndirect ctx)
  | .strbI => do return storePart ctx (← width i)
  | .lidx => .ok (elementAddress ++ loadIndirect ctx)
  | .lidxB => .ok (scaledAddress i.arg ++ loadIndirect ctx)
  | .idxaddr => .ok elementAddress
  | .idxaddrB => .ok (scaledAddress i.arg)
  | .alignPri => .ok (alignAddress pri i.arg)
  | .alignAlt => .ok (alignAddress alt i.arg)
  | .lctrl => readControl ctx i
  | .sctrl => writeControl i
  | .movePri => .ok [.op (.movRR .d pri alt)]
  | .moveAlt => .ok [.op (.movRR .d alt pri)]
  | .xchg => .ok [.op (.xchg pri alt)]
  | .pushPri => .ok (pushReg pri)
  | .pushAlt => .ok (pushReg alt)
  | .pushR => .ok (pushRepeated i.arg)
  | .pushC => .ok (pushImm i.arg)
  | .push => do return pushMem (← ctx.directCell i)
  | .pushS => .ok (pushMem (frameCell i.arg))
  | .popPri => .ok (popReg pri)
  | .popAlt => .ok (popReg alt)
  | .stack => .ok (moveStack i.arg)
  | .heap => .ok (moveHeap i.arg)
  | .proc => .ok enterFunction
  | .ret => .ok leaveFunction
  | .retn => .ok leaveDropping
  | .call => do return callCode (← ctx.target i i.arg) i.next
  | .callPri => .ok (callComputed i.next)
  | .jump => do return [.jmp (.code (← ctx.target i i.arg))]
  | .jrel => do return [.jmp (.code (← ctx.target i (i.next + i.arg)))]
  | .jzer => do return jumpTested .e (← ctx.target i i.arg)
  | .jnz => do return jumpTested .ne (← ctx.target i i.arg)
  | .jeq => do return jumpCompared .e (← ctx.target i i.arg)
  | .jneq => do return jumpCompared .ne (← ctx.target i i.arg)
  | .jless => do return jumpCompared .b (← ctx.target i i.arg)
  | .jleq => do return jumpCompared .be (← ctx.target i i.arg)
  | .jgrtr => do return jumpCompared .a (← ctx.target i i.arg)
  | .jgeq => do return jumpCompared .ae (← ctx.target i i.arg)
  | .jsless => do return jumpCompared .l (← ctx.target i i.arg)
  | .jsleq => do return jumpCompared .le (← ctx.target i i.arg)
  | .jsgrtr => do return jumpCompared .g (← ctx.target i i.arg)
  | .jsgeq => do return jumpCompared .ge (← ctx.target i i.arg)
  | .shl => .ok [.op (.shiftCl .shl pri)]
  | .shr => .ok [.op (.shiftCl .shr pri)]
  | .sshr => .ok [.op (.shiftCl .sar pri)]
  | .shlCPri => .ok (shiftConst .shl pri i.arg)
  | .shlCAlt => .ok (shiftConst .shl alt i.arg)
  | .shrCPri => .ok (shiftConst .shr pri i.arg)
  | .shrCAlt => .ok (shiftConst .shr alt i.arg)
  | .smul | .umul => .ok [.op (.imulRR pri alt)]
  | .sdiv => .ok (divideSigned false)
  | .sdivAlt => .ok (divideSigned true)
  | .udiv => .ok (divideUnsigned false)
  | .udivAlt => .ok (divideUnsigned true)
  | .add => .ok (operate .add)
  | .sub => .ok (operate .sub)
  | .subAlt => .ok ([.op (.neg pri)] ++ operate .add)
  | .and => .ok (operate .and)
  | .or => .ok (operate .or)
  | .xor => .ok (operate .xor)
  | .not => .ok isZero
  | .neg => .ok [.op (.neg pri)]
  | .invert => .ok [.op (.not pri)]
  | .addC => .ok [.op (.aluRI .add .d pri i.arg)]
  | .smulC => .ok [.op (.imulRRI pri pri i.arg)]
  | .zeroPri => .ok [.op (.aluRR .xor .d pri pri)]
  | .zeroAlt => .ok [.op (.aluRR .xor .d alt alt)]
  | .zero => do return [.op (.storeImm (← ctx.directCell i) 0)]
  | .zeroS => .ok [.op (.storeImm (frameCell i.arg) 0)]
  | .signPri => .ok [.op (.movsxByte pri pri)]
  | .signAlt => .ok [.op (.movsxByte alt alt)]
  | .eq => .ok (compareAlt .e)
  | .neq => .ok (compareAlt .ne)
  | .less => .ok (compareAlt .b)
  | .leq => .ok (compareAlt .be)
  | .grtr => .ok (compareAlt .a)
  | .geq => .ok (compareAlt .ae)
  | .sless => .ok (compareAlt .l)
  | .sleq => .ok (compareAlt .le)
  | .sgrtr => .ok (compareAlt .g)
  | .sgeq => .ok (compareAlt .ge)
  | .eqCPri => .ok (compareConst pri i.arg)
  | .eqCAlt => .ok (compareConst alt i.arg)
  | .incPri => .ok [.op (.aluRI .add .d pri 1)]
  | .incAlt => .ok [.op (.aluRI .add .d alt 1)]
  | .inc => do return [.op (.incM (← ctx.directCell i))]
  | .incS => .ok [.op (.incM (frameCell i.arg))]
  | .incI => .ok (incIndirect ctx)
  | .decPri => .ok [.op (.aluRI .sub .d pri 1)]
  | .decAlt => .ok [.op (.aluRI .sub .d alt 1)]
  | .dec => do return [.op (.decM (← ctx.directCell i))]
  | .decS => .ok [.op (.decM (frameCell i.arg))]
  | .decI => .ok (decIndirect ctx)
  | .movs => do return moveBlock ctx (← blockLength i 1)
  | .cmps => do return compareBlock ctx (← blockLength i 1)
  | .fill => do return fillBlock ctx (← blockLength i Cell.width)
  | .halt => .ok (haltWith i.arg)
  | .bounds => .ok (checkBounds i.arg)
  | .sysreqPri => .ok (native ctx .pri .pushed)
  | .sysreqC => .ok (native ctx (.const i.arg) .pushed)
  | .sysreqN => nativeCounted ctx i
  | .jumpPri => .ok jumpComputed
  | .switch => do return [.jmp (.cases (← ctx.target i i.arg))]
  | .casetbl => caseTable ctx i
  | .swapPri => .ok (swapTop pri)
  | .swapAlt => .ok (swapTop alt)
  | .pushAdr => .ok (pushFrameAddress i.arg)
  | .file | .line | .symbol | .srange | .symtag | .nop | .brk => .ok []

/-- Whether the code of an instruction does the work of a native in place. -/
def isInlined (ctx : Context) (i : Instruction) : Bool :=
  match i.opcode with
  | .sysreqC => (inlined? ctx (.const i.arg) .pushed).isSome
  | .sysreqN => (inlined? ctx (.const i.arg) (.const i.arg2)).isSome
  | _ => false

end PawnNative
