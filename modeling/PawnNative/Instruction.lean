import PawnNative.Opcode
import PawnNative.Text.Hex

/-! # Instructions

    An instruction is an opcode at a code address with its operand cells. In the
    code segment it is the opcode's cell followed by the operands.
-/

namespace PawnNative

/-- An instruction of a code segment. -/
structure Instruction where
  /-- Code address of the opcode cell. -/
  address : Cell := 0
  opcode : Opcode := .invalid
  operands : List Cell := []
  deriving DecidableEq, Repr, Inhabited

namespace Instruction

def size (i : Instruction) : Nat := Cell.width * (1 + i.operands.length)

/-- Address of the instruction that follows. -/
def next (i : Instruction) : Cell := i.address + BitVec.ofNat 32 i.size

def operand? (i : Instruction) (index : Nat) : Option Cell := i.operands[index]?

/-- The first operand, zero if there is none. -/
def arg (i : Instruction) : Cell := i.operands.headD 0

/-- The second operand, zero if there is none. -/
def arg2 (i : Instruction) : Cell := (i.operands.drop 1).headD 0

def cells (i : Instruction) : List Cell := i.opcode.code :: i.operands

def bytes (i : Instruction) : List Byte := i.cells.flatMap Cell.bytes

/-- A list taken two at a time; a last odd element is dropped. -/
def pairs : List Cell → List (Cell × Cell)
  | a :: b :: rest => (a, b) :: pairs rest
  | _ => []

/-- The records of a case table: a value and the target for it. -/
def cases (i : Instruction) : List (Cell × Cell) :=
  if i.opcode = .casetbl then pairs (i.operands.drop 2) else []

/-- The operands as a listing shows them. -/
def operandText (i : Instruction) : String :=
  match i.opcode with
  | .casetbl =>
    let head := match i.operands with
      | count :: default :: _ => " " ++ count.decimal ++ " default " ++ Hex.cell default
      | _ => ""
    head ++ String.join (i.cases.map fun (value, target) =>
      " [" ++ value.decimal ++ ": " ++ Hex.cell target ++ "]")
  | .file | .symbol =>
    match i.operands with
    | len :: _ => " <" ++ len.decimal ++ " bytes>"
    | [] => ""
  | op =>
    if op.isBranch || op == .switch then String.join (i.operands.map fun c => " " ++ Hex.cell c)
    else String.join (i.operands.map fun c => " " ++ c.decimal)

def text (i : Instruction) : String :=
  Hex.cell i.address ++ "  " ++ i.opcode.mnemonic ++ i.operandText

end Instruction

end PawnNative
