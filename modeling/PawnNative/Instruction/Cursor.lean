import PawnNative.Block
import PawnNative.Instruction

/-! # Decoding

    A cursor walks over a code segment. Its only position is an instruction
    pointer, so decoding can start again at any instruction. An opcode is found
    either by its code or through a table of markers, the cells that an
    interpreter puts in place of the codes.

    A decoding step that fails, or that finds the end of the code, leaves the
    cursor where it was.
-/

namespace PawnNative

/-- Why an instruction cannot be decoded. -/
inductive DecodeError where
  | invalidOpcode (address value : Cell)
  /-- The instruction runs past the end of the code. -/
  | truncated (address : Cell)
  /-- The operand that counts the others is negative. -/
  | badCount (address count : Cell)
  deriving DecidableEq, Repr

namespace DecodeError

def address : DecodeError → Cell
  | .invalidOpcode a _ | .truncated a | .badCount a _ => a

def message : DecodeError → String
  | .invalidOpcode a v => "invalid opcode 0x" ++ Hex.digits v.toNat ++ " at " ++ Hex.address a
  | .truncated a => "instruction at " ++ Hex.address a ++ " runs past the end of the code segment"
  | .badCount a c => "malformed operand count " ++ c.decimal ++ " at " ++ Hex.address a

end DecodeError

/-- How opcode cells are read. -/
inductive OpcodeTable where
  | codes
  /-- By marker: entry `n` stands for the opcode with code `n`. -/
  | markers (table : List Cell)
  deriving DecidableEq, Repr

/-- The opcode that a cell stands for. Of several entries with the same marker the last counts. -/
def OpcodeTable.lookup (t : OpcodeTable) (c : Cell) : Option Opcode :=
  match t with
  | .codes => Opcode.ofCode? c
  | .markers table =>
    (((table.zip Opcode.all.toList).reverse).find? fun entry => entry.1 == c).map (·.2)

/-- A position in a code segment. -/
structure Cursor where
  code : Block
  /-- Address of the next instruction. -/
  ip : Cell := 0
  table : OpcodeTable := .codes
  /-- Whether the last item of an iteration was an error. -/
  failed : Bool := false

namespace Cursor

/-- The cell at an address of the code, on behalf of the instruction at `address`. -/
def read (c : Cursor) (address at_ : Cell) : Except DecodeError Cell :=
  if at_.toInt < 0 then .error (.truncated address)
  else match c.code.cell? at_.toNat with
    | some v => .ok v
    | none => .error (.truncated address)

/-- The number of operands of the instruction at `address`, which its first operand may tell. -/
def operandCount (c : Cursor) (address : Cell) (op : Opcode) : Except DecodeError Nat :=
  match op.arity with
  | .fixed n => .ok n
  | .caseTable => do
    let records ← c.read address (address + 4)
    if records.toInt < 0 then throw (.badCount address records)
    return 2 + 2 * records.toNat
  | .payload => do
    let bytes ← c.read address (address + 4)
    if bytes.toInt < 0 then throw (.badCount address bytes)
    return 1 + (bytes.toNat + 3) / Cell.width

/-- The cells of the code from an address on. -/
def readCells (c : Cursor) (address : Cell) : Nat → Cell → Except DecodeError (List Cell)
  | 0, _ => .ok []
  | n + 1, at_ => do
    let v ← c.read address at_
    return v :: (← readCells c address n (at_ + 4))

/-- The instruction at the pointer; none at the end of the code. Addresses wrap, and a negative
    one is outside of the code. -/
def peek (c : Cursor) : Except DecodeError (Option Instruction) :=
  if c.ip.toInt < 0 ∨ c.code.size ≤ c.ip.toNat then .ok none
  else do
    let value ← c.read c.ip c.ip
    match c.table.lookup value with
    | none => throw (.invalidOpcode c.ip value)
    | some opcode =>
      let count ← c.operandCount c.ip opcode
      if c.code.size < c.ip.toNat + (1 + count) * Cell.width then
        throw (.truncated c.ip)
      let operands ← c.readCells c.ip count (c.ip + 4)
      return some { address := c.ip, opcode, operands }

/-- Decodes the instruction at the pointer and moves past it. -/
def decode (c : Cursor) : Except DecodeError (Option (Instruction × Cursor)) := do
  match ← c.peek with
  | none => return none
  | some i => return some (i, { c with ip := i.next })

/-- Decodes into an instruction that the caller keeps. When there is none, or it cannot be decoded,
    the one that was kept stays. -/
def decodeInto (c : Cursor) (kept : Instruction) : Except DecodeError Bool × Cursor × Instruction :=
  match c.decode with
  | .ok none => (.ok false, c, kept)
  | .ok (some (i, c)) => (.ok true, c, i)
  | .error e => (.error e, c, kept)

/-- Moves the pointer; an iteration may go on from there. -/
def setIp (c : Cursor) (ip : Cell) : Cursor := { c with ip, failed := false }

/-- Reads opcode cells as markers from now on. -/
def setMarkers (c : Cursor) (table : List Cell) : Cursor := { c with table := .markers table }

/-- The next item of an iteration; an error is the last one. -/
def next (c : Cursor) : Option (Except DecodeError Instruction) × Cursor :=
  if c.failed then (none, c)
  else match c.decode with
    | .ok none => (none, c)
    | .ok (some (i, c)) => (some (.ok i), c)
    | .error e => (some (.error e), { c with failed := true })

/-- The items that are left, and the cursor after them. -/
def remaining (c : Cursor) : List (Except DecodeError Instruction) × Cursor :=
  go (c.code.size + 1) c
where
  go : Nat → Cursor → List (Except DecodeError Instruction) × Cursor
    | 0, c => ([], c)
    | n + 1, c =>
      match c.next with
      | (none, c) => ([], c)
      | (some item, c) =>
        let (items, c) := go n c
        (item :: items, c)

end Cursor

/-- All instructions of a code segment, or the first error. -/
def Block.instructions (code : Block) : Except DecodeError (List Instruction) :=
  (({ code : Cursor }).remaining.1).mapM id

end PawnNative
