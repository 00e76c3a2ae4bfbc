import PawnNative.Image.SymbolTable
import PawnNative.Native.Program
import PawnNative.Registers

/-! # Instances

    An instance is a loaded image with its registers: one block that holds
    header, tables, code, data, heap and stack, and never grows. Data address 0
    is the start of the data segment. The heap grows up from `hlw` to `hea`, the
    stack grows down from `stp` to `stk`, and the operations of the host keep a
    margin between the two.

    Accesses of the host name a data address and are checked against the data
    segment; an access outside it is a fault and changes nothing.
-/

namespace PawnNative

/-- A loaded image. -/
structure Instance where
  header : Header
  /-- The image block, `header.stp` bytes. -/
  block : Block
  regs : Registers
  /-- Arguments that the host pushed since the last call. -/
  pending : Nat
  /-- The natives that were registered; handle `n + 1` stands for the native at index `n`. -/
  natives : Array Native

namespace Instance

/-- Bytes that the host keeps free between heap and stack. -/
def margin : Nat := 64

def load (image : Block) : Except LoadError Instance := do
  let header ← Header.parse image
  let hlw := header.hea - header.dat
  let stp := header.stp - header.dat - 4
  return {
    header
    block := (image.slice 0 header.size.toNat).resize header.stp.toNat
    regs := { hlw, hea := hlw, stp, stk := stp, cip := header.cip }
    pending := 0
    natives := #[] }

def dataStart (vm : Instance) : Nat := vm.header.dat.toNat

/-- Bytes of the data segment with heap and stack. -/
def dataSize (vm : Instance) : Nat := vm.header.dataSize

def codeSize (vm : Instance) : Nat := vm.header.codeSize

def code (vm : Instance) : Block := vm.block.slice vm.header.cod.toNat vm.header.dat.toNat

def data (vm : Instance) : Block := vm.block.slice vm.dataStart vm.block.size

/-! ### Cells and texts -/

/-- Whether a cell at this data address lies inside the data segment. -/
def inData (vm : Instance) (address : Cell) : Bool :=
  decide (0 ≤ address.toInt) && decide (address.toNat + Cell.width ≤ vm.dataSize)

def cell (vm : Instance) (address : Cell) : Except Fault Cell :=
  if vm.inData address then
    match vm.block.cell? (vm.dataStart + address.toNat) with
    | some c => .ok c
    | none => .error .memoryAccess
  else .error .memoryAccess

def setCell (vm : Instance) (address value : Cell) : Except Fault Instance :=
  if vm.inData address then
    match vm.block.setCell? (vm.dataStart + address.toNat) value with
    | some block => .ok { vm with block }
    | none => .error .memoryAccess
  else .error .memoryAccess

/-- Reads cells one after the other from a data address on. -/
def cells (vm : Instance) : Nat → Cell → Except Fault (List Cell)
  | 0, _ => .ok []
  | n + 1, address => do
    let c ← vm.cell address
    return c :: (← vm.cells n (address + 4))

/-- Reads a text: one character in each cell, up to a zero cell. -/
def text (vm : Instance) (address : Cell) : Except Fault String :=
  (go (vm.dataSize / Cell.width + 1) address).map String.ofList
where
  go : Nat → Cell → Except Fault (List Char)
    | 0, _ => .error .memoryAccess
    | n + 1, a => do
      let c ← vm.cell a
      if c = 0 then return []
      return Text.character c :: (← go n (a + 4))

/-! ### Host operations -/

/-- Pushes an argument for the next call. Here and below, limits are checked on numbers, which do
    not wrap. -/
def push (vm : Instance) (value : Cell) : Except Fault Instance := do
  let stk := vm.regs.stk - 4
  if vm.regs.stk.toInt - Cell.width < vm.regs.hea.toInt + margin then throw .stackError
  let vm ← vm.setCell stk value
  return { vm with regs.stk := stk, pending := vm.pending + 1 }

/-- Reserves cells on the heap and gives their address. -/
def allot (vm : Instance) (cells : Nat) : Except Fault (Cell × Instance) :=
  let bytes := cells * Cell.width
  if 0x80000000 ≤ bytes then .error .memory
  else if vm.regs.stk.toInt - vm.regs.hea.toInt - bytes < margin then .error .memory
  else .ok (vm.regs.hea, { vm with regs.hea := vm.regs.hea + BitVec.ofNat 32 bytes })

/-- Releases the heap down to an address, but not below its bottom. -/
def release (vm : Instance) (address : Cell) : Instance :=
  if address.toInt < vm.regs.hea.toInt then
    { vm with regs.hea := if address.toInt < vm.regs.hlw.toInt then vm.regs.hlw else address }
  else vm

/-- Writes cells one after the other from a data address on. -/
def setCells (vm : Instance) (address : Cell) : List Cell → Except Fault Instance
  | [] => .ok vm
  | c :: rest => do (← vm.setCell address c).setCells (address + 4) rest

end Instance

/-- The result of an operation that can fail half-way: the instance is what it left behind. -/
structure Attempt (α : Type) where
  result : Except Fault α
  vm : Instance

namespace Instance

/-- Copies a text to the heap and pushes its address. When the push fails, the
    room on the heap stays reserved. -/
def pushText (vm : Instance) (s : String) : Attempt Cell :=
  let cells := Text.cells s
  match vm.allot cells.length with
  | .error f => ⟨.error f, vm⟩
  | .ok (address, vm) =>
    match vm.setCells address cells with
    | .error f => ⟨.error f, vm⟩
    | .ok vm =>
      match vm.push address with
      | .error f => ⟨.error f, vm⟩
      | .ok vm => ⟨.ok address, vm⟩

/-! ### The stack as compiled code uses it -/

/-- Pushes a cell; the stack may grow up to the heap. -/
def pushCell (vm : Instance) (value : Cell) : Except Fault Instance := do
  let stk := vm.regs.stk - 4
  if vm.regs.stk.toInt - Cell.width < vm.regs.hea.toInt then throw .stackError
  let vm ← vm.setCell stk value
  return { vm with regs.stk := stk }

/-- Drops cells from the stack. The distance is a cell, and so is the sum: both wrap at 2³². -/
def dropCells (vm : Instance) (count : Nat) : Except Fault Instance :=
  let stk := vm.regs.stk + BitVec.ofNat 32 (count * Cell.width)
  if vm.regs.stp.toInt < stk.toInt then .error .stackLow else .ok { vm with regs.stk := stk }

def popCell (vm : Instance) : Except Fault (Cell × Instance) := do
  let value ← vm.cell vm.regs.stk
  return (value, ← vm.dropCells 1)

/-! ### Symbols and natives -/

def publicAddress? (vm : Instance) (index : Nat) : Option Cell :=
  (vm.header.publicTable.get? vm.block index).map (·.address)

def publicName? (vm : Instance) (index : Nat) : Option String :=
  vm.header.publicTable.name? vm.block index

def publicIndex? (vm : Instance) (address : Cell) : Option Nat :=
  vm.header.publicTable.indexOf? vm.block address

def findPublic? (vm : Instance) (name : String) : Option Nat :=
  vm.header.publicTable.find? vm.block name

/-- Handle of a native, 0 while it is not registered. -/
def nativeHandle? (vm : Instance) (index : Nat) : Option Cell :=
  (vm.header.nativeTable.get? vm.block index).map (·.address)

def nativeName? (vm : Instance) (index : Nat) : Option String :=
  vm.header.nativeTable.name? vm.block index

/-- The native with this handle in the table of imports. -/
def nativeIndex? (vm : Instance) (handle : Cell) : Option Nat :=
  vm.header.nativeTable.indexOf? vm.block handle

def findNative? (vm : Instance) (name : String) : Option Nat :=
  vm.header.nativeTable.find? vm.block name

def nativeOf? (vm : Instance) (handle : Cell) : Option Native :=
  if handle.toInt ≤ 0 then none else vm.natives[handle.toNat - 1]?

/-- Binds an imported native to a function: the function gets the next handle, and the
    record of the import gets that handle. -/
def register (vm : Instance) (name : String) (native : Native) : Except Fault Instance :=
  match vm.findNative? name with
  | none => .error .notFound
  | some index =>
    match vm.header.nativeTable.recordOffset? index with
    | none => .error .index
    | some offset =>
      let natives := vm.natives.push native
      match vm.block.setCell? offset (BitVec.ofNat 32 natives.size) with
      | none => .error .index
      | some block => .ok { vm with block, natives }

/-- Binds every native of the list that the image imports; gives their number. -/
def registerAll (vm : Instance) (natives : List (String × Native)) : Nat × Instance :=
  natives.foldl (fun (count, vm) (name, native) =>
    match vm.register name native with
    | .ok vm => (count + 1, vm)
    | .error _ => (count, vm)) (0, vm)

end Instance

end PawnNative
