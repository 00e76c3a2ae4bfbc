import PawnNative.Compile.Convention

/-! # Entering and leaving compiled code

    Every program starts with the same code. The entry saves the registers that
    belong to the host, loads the registers of the abstract machine and calls a
    function; when the function returns, or when a halt has unwound the native
    stack to the depth of the entry, the stack and frame are stored and the
    registers of the host restored.

    Around a call of a helper the registers of the abstract machine are stored in
    the register file and the native stack is aligned; afterwards they are loaded
    again, except the primary register, which holds what the helper returned.
-/

namespace PawnNative

open X64 Convention

/-- The registers that belong to the host. -/
def hostRegs : List Reg := [.rbp, .rbx, .r12, .r13, .r14, .r15]

/-- Loads the address of the register file. -/
def loadFile (dst : Reg) : Line := .op (.load .q dst (field .regs))

/-- `dst` becomes the data address of the place that `abs` points at. -/
def relative (dst abs : Reg) : List Line :=
  [.op (.movRR .d dst abs), .op (.aluRR .sub .d dst data)]

/-- `abs` points at the place with the data address in `rel`. -/
def absolute (abs rel : Reg) : List Line :=
  [.op (.movRR .d abs rel), .op (.aluRR .add .q abs data)]

/-- Stores an address in the register file, as a data address. -/
def storeRelative (r : RegisterName) (abs : Reg) : List Line :=
  relative .rsi abs ++ [.op (.store .d (saved .rdx r) .rsi)]

/-- Loads an address from the register file. -/
def loadAbsolute (abs : Reg) (r : RegisterName) : List Line :=
  [.op (.load .d abs (saved .rdx r)), .op (.aluRR .add .q abs data)]

/-- Saves the registers of the host and calls the function in `rsi` with the record in `rdi`. -/
def entryLines : List Line :=
  (hostRegs.map (fun r => .op (.push r)) : List Line) ++
  ([.op (.aluRI .sub .q .rsp 8),
    .op (.movRR .q call .rdi),
    .op (.store .q (field .haltRsp) .rsp),
    .op (.load .q data (field .data)),
    loadFile .rdx] : List Line) ++
  loadAbsolute stk .stk ++ loadAbsolute frm .frm ++
  ([.op (.load .d pri (saved .rdx .pri)),
    .op (.load .d alt (saved .rdx .alt)),
    .op (.callR .rsi),
    .op (.store .d (field .retval) pri),
    .op (.aluRR .xor .d .rax .rax)] : List Line)

/-- Stores stack and frame, restores the registers of the host and returns to it. -/
def leaveLines : List Line :=
  [.place (.stub .leave), loadFile .rdx] ++
  storeRelative .stk stk ++ storeRelative .frm frm ++
  [.op (.aluRI .add .q .rsp 8)] ++
  (hostRegs.reverse.map (fun r => .op (.pop r)) : List Line) ++ [.op .ret]

/-- Unwinds the native stack and leaves. -/
def haltLines : List Line :=
  [.place (.stub .pending),
   .op (.load .d .rax (field .error)),
   .place (.stub .halt),
   .op (.load .q .rsp (field .haltRsp)),
   .jmp (.stub .leave)]

/-- The code that every program starts with. -/
def prologue : List Line := entryLines ++ leaveLines ++ haltLines

/-- The stub that halts with a fault. -/
def faultLines (f : Fault) : List Line :=
  [.place (.stub (.fault f)), .op (.movRI32 .rax f.code), .jmp (.stub .halt)]

/-- Stores the registers of the abstract machine and aligns the native stack. -/
def suspend : List Line :=
  [loadFile .rdx,
   .op (.store .d (saved .rdx .pri) pri),
   .op (.store .d (saved .rdx .alt) alt)] ++
  storeRelative .stk stk ++ storeRelative .frm frm ++
  ([.op (.push .rbp), .op (.movRR .q .rbp .rsp), .op (.aluRI .and .q .rsp (-16))] : List Line)

/-- Goes back to the native stack of the program and loads the registers again. -/
def resume : List Line :=
  [.op (.movRR .q .rsp .rbp), .op (.pop .rbp), loadFile .rdx] ++
  loadAbsolute stk .stk ++ loadAbsolute frm .frm ++
  [.op (.load .d alt (saved .rdx .alt))]

def callHelper (h : Helper) : List Line :=
  [.op (.movRI64 .r11 h.address), .op (.callR .r11)]

end PawnNative
