import PawnNative.Compile.Context
import PawnNative.Compile.Stubs

/-! # Templates: memory

    Loads and stores of cells and of parts of cells, and operations on blocks. An
    address that the code computes is a data address in a register; it is compared
    with the size of the data segment, as an unsigned number, before it is used.
    Addresses that stand in the instruction are checked when it is compiled, and
    cells of the frame and the stack are used unchecked.
-/

namespace PawnNative

open X64 Convention

/-- One of the two computing registers. -/
inductive Accumulator where
  | pri | alt
  deriving DecidableEq, Repr

namespace Accumulator

/-- The processor register that holds it. -/
def reg : Accumulator → Reg
  | .pri => Convention.pri
  | .alt => Convention.alt

theorem reg_ne_rsp (a : Accumulator) : a.reg ≠ .rsp := by
  cases a <;> decide

end Accumulator

namespace Template

/-- The cell at a data address that stands in the instruction. -/
def dataCell (address : Cell) : Mem := { base := data, disp := address }

def frameCell (offset : Cell) : Mem := { base := frm, disp := offset }

/-- The place whose data address is in a register. -/
def indirect (r : Reg) (h : r ≠ .rsp := by decide) : Mem :=
  { base := data, index := some ⟨r, .one, h⟩ }

/-- The element of the array at the alternate register whose number is in the primary one. -/
def element : Mem := { base := alt, index := some ⟨pri, .four, by decide⟩ }

/-- Halts unless `len` bytes at the data address in `r` lie inside the data segment. -/
def checkRange (ctx : Context) (r : Reg) (len : Nat) : List Line :=
  if !ctx.config.memoryChecks then []
  else if ctx.dataSize < len then [.jmp (.stub (.fault .memoryAccess))]
  else
    [.op (.aluRI .cmp .d r (BitVec.ofNat 32 (ctx.dataSize - len))),
     .jcc .a (.stub (.fault .memoryAccess))]

/-- Halts unless the cell at the data address in `r` lies inside the data segment. -/
def checkCell (ctx : Context) (r : Reg) : List Line := checkRange ctx r Cell.width

/-- Loads the cell whose address is in a cell. -/
def loadThrough (ctx : Context) (a : Accumulator) (slot : Mem) : List Line :=
  [.op (.load .d a.reg slot)] ++ checkCell ctx a.reg ++
  [.op (.load .d a.reg (indirect a.reg a.reg_ne_rsp))]

/-- Stores to the cell whose address is in a cell. -/
def storeThrough (ctx : Context) (a : Accumulator) (slot : Mem) : List Line :=
  [.op (.load .d tmp0 slot)] ++ checkCell ctx
    tmp0 ++ [.op (.store .d (indirect tmp0 tmp0_ne_rsp) a.reg)]

/-- Loads the cell at the address in the primary register. -/
def loadIndirect (ctx : Context) : List Line :=
  checkCell ctx pri ++ [.op (.load .d pri (indirect pri))]

/-- Stores to the cell at the address in the alternate register. -/
def storeIndirect (ctx : Context) : List Line :=
  checkCell ctx alt ++ [.op (.store .d (indirect alt) pri)]

inductive Width where
  | byte | half | cell
  deriving DecidableEq, Repr

def Width.bytes : Width → Nat
  | .byte => 1
  | .half => 2
  | .cell => 4

/-- The width in the first operand. -/
def width (i : Instruction) : Except CompileError Width :=
  if i.arg = 1 then .ok .byte
  else if i.arg = 2 then .ok .half
  else if i.arg = 4 then .ok .cell
  else .error (.unsupported i .accessWidth)

def loadPart (ctx : Context) (w : Width) : List Line :=
  checkRange ctx pri w.bytes ++
  [.op (match w with
    | .byte => .loadByte pri (indirect pri)
    | .half => .loadHalf pri (indirect pri)
    | .cell => .load .d pri (indirect pri))]

def storePart (ctx : Context) (w : Width) : List Line :=
  checkRange ctx alt w.bytes ++
  [.op (match w with
    | .byte => .store8 (indirect alt) pri
    | .half => .store16 (indirect alt) pri
    | .cell => .store .d (indirect alt) pri)]

/-- The address of the element with the number in the primary register. -/
def elementAddress : List Line := [.op (.lea .d pri element)]

/-- The address of an element of `2 ^ shift` bytes. -/
def scaledAddress (shift : Cell) : List Line :=
  [.op (.shiftImm .shl pri (shift.setWidth 8)), .op (.aluRR .add .d pri alt)]

/-- The data address of a cell of the frame. -/
def frameAddress (dst : Reg) (offset : Cell) : List Line :=
  [.op (.lea .d dst (frameCell offset)), .op (.aluRR .sub .d dst data)]

/-- Turns the address of a part of a cell around for the other byte order. -/
def alignAddress (r : Reg) (width : Cell) : List Line :=
  if 0 ≤ width.toInt ∧ width.toInt < Cell.width then [.op (.aluRI .xor .d r (4 - width))] else []

/-- Adds one to the cell at the address in the primary register. -/
def incIndirect (ctx : Context) : List Line :=
  checkCell ctx pri ++ [.op (.incM (indirect pri))]

/-- Takes one from the cell at the address in the primary register. -/
def decIndirect (ctx : Context) : List Line :=
  checkCell ctx pri ++ [.op (.decM (indirect pri))]

/-! ### Blocks -/

/-- The number of bytes of a block: not negative and a multiple of `unit`. -/
def blockLength (i : Instruction) (unit : Nat) : Except CompileError Nat :=
  if i.arg.toInt < 0 then .error (.unsupported i .negativeLength)
  else if i.arg.toNat % unit ≠ 0 then .error (.unsupported i .unevenLength)
  else .ok i.arg.toNat

/-- Copies the block at the primary register to the block at the alternate one. -/
def moveBlock (ctx : Context) (len : Nat) : List Line :=
  checkRange ctx pri len ++ checkRange ctx alt len ++
  ([.op (.movRR .d save alt),
    .op (.lea .q tmp1 (indirect pri)),
    .op (.lea .q tmp2 (indirect alt)),
    .op (.movRI32 .rcx (BitVec.ofNat 32 len)),
    .op .repMovsb,
    .op (.movRR .d alt save)] : List Line)

/-- Compares the block at the alternate register with the block at the primary one. -/
def compareBlock (ctx : Context) (len : Nat) : List Line :=
  checkRange ctx pri len ++ checkRange ctx alt len ++
  ([.op (.movRR .d save alt),
    .op (.lea .q tmp1 (indirect alt)),
    .op (.lea .q tmp2 (indirect pri)),
    .op (.aluRR .xor .d pri pri),
    .op (.movRI32 .rcx (BitVec.ofNat 32 len)),
    .op .repeCmpsb,
    .op (.setcc .a pri),
    .op (.setcc .b tmp0),
    .op (.movzxByte tmp0 tmp0),
    .op (.aluRR .sub .d pri tmp0),
    .op (.movRR .d alt save)] : List Line)

/-- Fills the block at the alternate register with the primary register. -/
def fillBlock (ctx : Context) (len : Nat) : List Line :=
  checkRange ctx alt len ++
  ([.op (.movRR .d save alt),
    .op (.lea .q tmp2 (indirect alt)),
    .op (.movRI32 .rcx (BitVec.ofNat 32 (len / Cell.width))),
    .op .repStosd,
    .op (.movRR .d alt save)] : List Line)

end Template

end PawnNative
