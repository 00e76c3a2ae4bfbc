import PawnNative.Image.Header
import PawnNative.Image.SymbolTable
import PawnNative.Opcode

/-! # Building images

    A builder collects data, imports, code and public functions, and lays them
    out as an image. Code may refer to labels that are bound later; the cells
    that hold such references are filled in when the image is built. Binding a
    label again moves it.
-/

namespace PawnNative

/-- A position in the code of an image under construction, by order of creation. -/
structure CodeLabel where
  index : Nat
  deriving DecidableEq, Repr

/-- An operand cell. -/
inductive Arg where
  | value (c : Cell)
  /-- The code address of a label. -/
  | label (l : CodeLabel)
  /-- The distance from the end of the instruction to a label. -/
  | relative (l : CodeLabel)
  deriving DecidableEq, Repr

/-- A code cell that waits for a label. -/
structure Fixup where
  /-- Index of the cell in the code. -/
  cell : Nat
  label : CodeLabel
  /-- The address that the label's address is taken relative to. -/
  base : Cell
  deriving DecidableEq, Repr

/-- Why an image cannot be built. -/
inductive BuildError where
  | unboundLabel (l : CodeLabel)
  deriving DecidableEq, Repr

def BuildError.message : BuildError → String
  | .unboundLabel l => "label " ++ Nat.repr l.index ++ " is referenced but never bound"

/-- An image under construction. -/
structure Builder where
  code : Array Cell := #[]
  data : Array Cell := #[]
  /-- The address of each label, once bound. -/
  labels : Array (Option Cell) := #[]
  fixups : Array Fixup := #[]
  publics : Array (String × CodeLabel) := #[]
  natives : Array String := #[]
  main : Option CodeLabel := none
  /-- Bytes for heap and stack together. -/
  stackSize : Nat := 4096
  deriving Repr

namespace Builder

/-- The code address of the next instruction. -/
def here (b : Builder) : Cell := BitVec.ofNat 32 (b.code.size * Cell.width)

def newLabel (b : Builder) : CodeLabel × Builder :=
  (⟨b.labels.size⟩, { b with labels := b.labels.push none })

def bind (b : Builder) (l : CodeLabel) : Builder :=
  { b with labels := b.labels.setIfInBounds l.index (some b.here) }

def cells (b : Builder) (values : List Cell) : Builder :=
  { b with code := b.code ++ values }

/-- Appends a cell that waits for a label. -/
def reference (b : Builder) (l : CodeLabel) (base : Cell) : Builder :=
  { b with code := b.code.push 0, fixups := b.fixups.push ⟨b.code.size, l, base⟩ }

/-- Appends an operand; `stop` is the end of its instruction. -/
def arg (stop : Cell) (b : Builder) : Arg → Builder
  | .value c => b.cells [c]
  | .label l => b.reference l 0
  | .relative l => b.reference l stop

/-- Appends an instruction with exactly these operands. -/
def emit (b : Builder) (op : Opcode) (args : List Arg) : Builder :=
  let stop := b.here + BitVec.ofNat 32 ((1 + args.length) * Cell.width)
  args.foldl (arg stop) { b with code := b.code.push op.code }

/-- Appends a case table with a default target and records of a value and a target. -/
def caseTable (b : Builder) (default : CodeLabel) (records : List (Cell × CodeLabel)) : Builder :=
  b.emit .casetbl (.value (BitVec.ofNat 32 records.length) :: .label default ::
    records.flatMap fun r => [.value r.1, .label r.2])

/-- The data address of the next data cell. -/
def dataHere (b : Builder) : Cell := BitVec.ofNat 32 (b.data.size * Cell.width)

def dataCells (b : Builder) (values : List Cell) : Builder :=
  { b with data := b.data ++ values }

def dataText (b : Builder) (s : String) : Builder := b.dataCells (Text.cells s)

def addPublic (b : Builder) (name : String) (entry : CodeLabel) : Builder :=
  { b with publics := b.publics.push (name, entry) }

/-- Declares an imported native. Its index is the number of natives declared before. -/
def addNative (b : Builder) (name : String) : Builder :=
  { b with natives := b.natives.push name }

def setMain (b : Builder) (entry : CodeLabel) : Builder := { b with main := some entry }

def resolve (b : Builder) (l : CodeLabel) : Except BuildError Cell :=
  match b.labels[l.index]? with
  | some (some address) => .ok address
  | _ => .error (.unboundLabel l)

/-- Fills in the cells that wait for labels. -/
def resolvedCode (b : Builder) : Except BuildError (Array Cell) :=
  b.fixups.toList.foldlM (fun code f => do
    let target ← b.resolve f.label
    return code.setIfInBounds f.cell (target - f.base)) b.code

/-- The public functions with their addresses, by address; equals stay in order of declaration. -/
def sortedPublics (b : Builder) : Except BuildError (List (String × Cell)) := do
  let ps ← b.publics.toList.mapM fun (name, l) => do return (name, ← b.resolve l)
  return ps.mergeSort fun p q => decide (p.2.toInt ≤ q.2.toInt)

/-- The address of the entry point, -1 if there is none. -/
def entry (b : Builder) : Except BuildError Cell :=
  match b.main with
  | some l => b.resolve l
  | none => .ok (-1)

/-- The offset of each name when the names are stored one after the other, each with a zero byte. -/
def nameOffsets (start : Nat) : List String → List Nat
  | [] => []
  | s :: rest => start :: nameOffsets (start + s.utf8ByteSize + 1) rest

/-- The name table: the length of the longest name, then the names. -/
def nameTable (names : List String) : List Byte :=
  Half.bytes (BitVec.ofNat 16 ((names.map String.utf8ByteSize).foldl max 0)) ++
  names.flatMap fun s => Text.utf8 s ++ [0]

/-- The least multiple of the cell width that is not below `n`. -/
def alignUp (n : Nat) : Nat := (n + 3) / 4 * 4

/-- Lays out the image. References are resolved in the order code, publics, entry point. -/
def build (b : Builder) : Except BuildError Block := do
  let code ← b.resolvedCode
  let publics ← b.sortedPublics
  let cip ← b.entry
  let natives := Header.length + publics.length * Header.symbolLength
  let names := natives + b.natives.size * Header.symbolLength
  let allNames := publics.map (·.1) ++ b.natives.toList
  let table := nameTable allNames
  let cod := alignUp (names + table.length)
  let dat := cod + code.size * Cell.width
  let hea := dat + b.data.size * Cell.width
  let at32 (n : Nat) : Cell := BitVec.ofNat 32 n
  let header : Header := {
    size := at32 hea
    magic := Header.magicNumber
    fileVersion := Header.maxFileVersion
    machineVersion := Header.maxMachineVersion
    flags := 0
    recordSize := BitVec.ofNat 16 Header.symbolLength
    cod := at32 cod
    dat := at32 dat
    hea := at32 hea
    stp := at32 (hea + b.stackSize)
    cip := cip
    publics := at32 Header.length
    natives := at32 natives
    libraries := at32 names
    pubvars := at32 names
    tags := at32 names
    nametable := at32 names }
  let addresses := publics.map (·.2) ++ b.natives.toList.map fun _ => 0
  let records := addresses.zip (nameOffsets (names + 2) allNames)
  let head := header.bytes ++ records.flatMap (fun r => r.1.bytes ++ (at32 r.2).bytes) ++ table
  let body := code.toList.flatMap Cell.bytes ++ b.data.toList.flatMap Cell.bytes
  return (head ++ List.replicate (cod - head.length) 0 ++ body).toArray

end Builder

end PawnNative
