import PawnNative.Compile.Template.Memory

/-! # Templates: stack, heap and frames

    Pushing and popping is not checked. The stack is checked when a function is
    entered and when room for variables is made, the heap when it grows or
    shrinks; both keep a margin between heap and stack.
-/

namespace PawnNative

open X64 Convention

namespace Template

/-- The cell on top of the stack. -/
def top : Mem := { base := stk }

/-- The margin between heap and stack. -/
def margin : Cell := BitVec.ofNat 32 Instance.margin

def pushReg (r : Reg) : List Line := [.op (.aluRI .sub .q stk 4), .op (.store .d top r)]

def pushImm (v : Cell) : List Line := [.op (.aluRI .sub .q stk 4), .op (.storeImm top v)]

def popReg (r : Reg) : List Line := [.op (.load .d r top), .op (.aluRI .add .q stk 4)]

def pushMem (m : Mem) : List Line := [.op (.load .d tmp0 m)] ++ pushReg tmp0

/-- Pushes the primary register a number of times. -/
def pushRepeated (count : Cell) : List Line :=
  if count.toInt ≤ 0 then []
  else
    ([.op (.movRI32 tmp0 count), .place (.mark 0)] : List Line) ++ pushReg pri ++
    ([.op (.aluRI .sub .d tmp0 1), .jcc .ne (.mark 0)] : List Line)

/-- Pushes the data address of a cell of the frame. -/
def pushFrameAddress (offset : Cell) : List Line := frameAddress tmp0 offset ++ pushReg tmp0

/-- Exchanges a register with the top of the stack. -/
def swapTop (r : Reg) : List Line :=
  [.op (.load .d tmp0 top), .op (.store .d top r), .op (.movRR .d r tmp0)]

/-- Halts when the stack is nearer to the heap than the margin. -/
def checkMargin : List Line :=
  [loadFile tmp0,
   .op (.load .d tmp1 (saved tmp0 .hea)),
   .op (.aluRI .add .d tmp1 margin)] ++
  relative tmp2 stk ++
  [.op (.aluRR .cmp .d tmp1 tmp2), .jcc .g (.stub (.fault .stackError))]

/-- Moves the top of the stack; the alternate register gets the old one. -/
def moveStack (delta : Cell) : List Line :=
  relative alt stk ++
  if delta = 0 then []
  else if 0 < delta.toInt then
    [.op (.aluRI .add .q stk delta), loadFile tmp0] ++ relative tmp1 stk ++
    [.op (.aluRM .cmp tmp1 (saved tmp0 .stp)), .jcc .g (.stub (.fault .stackLow))]
  else [.op (.aluRI .add .q stk delta)] ++ checkMargin

/-- Moves the top of the heap; the alternate register gets the old one. -/
def moveHeap (delta : Cell) : List Line :=
  [loadFile tmp0,
   .op (.load .d alt (saved tmp0 .hea)),
   .op (.movRR .d tmp1 alt),
   .op (.aluRI .add .d tmp1 delta),
   .op (.store .d (saved tmp0 .hea) tmp1),
   .op (.aluRM .cmp tmp1 (saved tmp0 .hlw)),
   .jcc .l (.stub (.fault .heapLow)),
   .op (.aluRI .add .d tmp1 margin)] ++
  relative tmp2 stk ++
  [.op (.aluRR .cmp .d tmp1 tmp2), .jcc .g (.stub (.fault .stackError))]

/-- Opens a frame. -/
def enterFunction : List Line :=
  relative tmp0 frm ++ pushReg tmp0 ++ [.op (.movRR .q frm stk)] ++ checkMargin

/-- Closes the frame and drops the return address. -/
def leaveFunction : List Line :=
  [.op (.load .d tmp0 top),
   .op (.aluRI .add .q stk 8),
   .op (.lea .q frm (indirect tmp0 tmp0_ne_rsp)),
   .op .ret]

/-- Closes the frame and drops the return address and the arguments. -/
def leaveDropping : List Line :=
  [.op (.load .d tmp0 top),
   .op (.load .d tmp1 { base := stk, disp := 8 }),
   .op (.lea .q frm (indirect tmp0 tmp0_ne_rsp)),
   .op (.lea .q stk { base := stk, index := some ⟨tmp1, .one, tmp1_ne_rsp⟩, disp := 12 }),
   .op .ret]

end Template

end PawnNative
