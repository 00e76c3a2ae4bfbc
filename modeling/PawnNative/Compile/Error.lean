import PawnNative.Code.Buffer
import PawnNative.Instruction.Cursor

/-! # Compilation errors

    Compilation stops at the first instruction that cannot be decoded or that has
    no code. Branches to addresses that are no instruction are found at the end.
-/

namespace PawnNative

/-- Why an instruction has no code. -/
inductive Unsupported where
  | invalidInstruction
  | accessWidth
  | negativeLength
  | unevenLength
  | unknownRegister
  | readOnlyRegister
  | argumentSize
  deriving DecidableEq, Repr

def Unsupported.message : Unsupported → String
  | .invalidInstruction => "invalid instruction"
  | .accessWidth => "access width must be 1, 2 or 4"
  | .negativeLength => "negative block length"
  | .unevenLength => "block length is not a whole number of cells"
  | .unknownRegister => "unknown control register"
  | .readOnlyRegister => "control register is not writable"
  | .argumentSize => "argument size is not a whole number of cells"

/-- Why an image cannot be compiled. -/
inductive CompileError where
  | decode (e : DecodeError)
  | unsupported (i : Instruction) (reason : Unsupported)
  /-- A branch leaves the code segment. -/
  | targetOutOfRange (i : Instruction) (target : Cell)
  /-- A direct access leaves the data segment. -/
  | dataOutOfRange (i : Instruction) (address : Cell)
  /-- A branch leads between two instructions. -/
  | notAnInstruction (target referrer : Cell)
  | code (e : BufferError)
  deriving DecidableEq, Repr

namespace CompileError

def message : CompileError → String
  | .decode e => e.message
  | .unsupported i reason => i.text ++ ": " ++ reason.message
  | .targetOutOfRange i t =>
    i.text ++ ": target " ++ Hex.address t ++ " is outside the code segment"
  | .dataOutOfRange i a =>
    i.text ++ ": data address " ++ Hex.address a ++ " is outside the data segment"
  | .notAnInstruction t r =>
    Hex.address t ++ " (referenced at " ++ Hex.address r ++ ") is not an instruction boundary"
  | .code e => e.message

/-- The instruction that has no code, if that is the error. -/
def instruction? : CompileError → Option Instruction
  | .unsupported i _ | .targetOutOfRange i _ | .dataOutOfRange i _ => some i
  | .decode _ | .notAnInstruction .. | .code _ => none

/-- The code address that the error is about. -/
def address? : CompileError → Option Cell
  | .decode e => some e.address
  | .notAnInstruction _ referrer => some referrer
  | .unsupported i _ | .targetOutOfRange i _ | .dataOutOfRange i _ => some i.address
  | .code _ => none

end CompileError

end PawnNative
