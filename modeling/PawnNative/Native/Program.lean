import PawnNative.Registers
import PawnNative.Fault

/-! # Native functions

    A native is a function of the host that bytecode can call. While it runs it
    acts on the instance: it reads and writes cells and registers, pushes
    arguments, calls compiled functions again. A native is modelled as a program:
    a tree whose inner nodes are actions, whose edges are the answers to them, and
    whose leaves say how the native ended. What the actions do to an instance is
    said elsewhere, so a native is data that can be run, compared and quantified
    over.
-/

namespace PawnNative

/-- What a native leaves in the log. -/
inductive LogEntry where
  | cells (values : List Cell)
  | text (s : String)
  deriving DecidableEq, Repr

/-- One action of a native. Natives that register natives while they run are left out: the natives
    of an instance are bound before it runs. -/
inductive Action where
  /-- Reads the register file. -/
  | registers
  | setRegister (name : RegisterName) (value : Cell)
  /-- Reads the cell at a data address. -/
  | cell (address : Cell)
  | setCell (address value : Cell)
  /-- Reads the text at a data address. -/
  | text (address : Cell)
  /-- Pushes an argument for the next call. -/
  | push (value : Cell)
  /-- Copies a text to the heap and pushes its address. -/
  | pushText (s : String)
  /-- Reserves cells on the heap. -/
  | allot (cells : Nat)
  /-- Releases the heap down to an address. -/
  | release (address : Cell)
  /-- Pushes a cell that is no argument. -/
  | pushCell (value : Cell)
  | popCell
  | dropCells (count : Nat)
  /-- How many arguments wait for the next call. -/
  | pending
  | findPublic (name : String)
  /-- Whether the code map has this address. -/
  | isInstruction (address : Cell)
  /-- Calls the function at a code address. -/
  | call (address : Cell)
  | callPublic (index : Nat)
  | callMain
  | log (entry : LogEntry)
  deriving DecidableEq, Repr

def Action.Answer : Action → Type
  | .registers => Registers
  | .setRegister .. | .release _ | .log _ => Unit
  | .cell _ | .pushText _ | .allot _ | .popCell => Except Fault Cell
  | .setCell .. | .push _ | .pushCell _ | .dropCells _ => Except Fault Unit
  | .text _ => Except Fault String
  | .pending => Nat
  | .findPublic _ => Option Nat
  | .isInstruction _ => Bool
  | .call _ | .callPublic _ | .callMain => Except Fault Cell

/-- A computation of a native. -/
inductive NativeProgram (α : Type) where
  /-- Ends with a result. -/
  | done (result : α)
  /-- Ends with a fault. -/
  | fail (fault : Fault)
  /-- Ends without an answer. -/
  | abort
  /-- Acts and goes on with the answer. -/
  | act (action : Action) (next : action.Answer → NativeProgram α)

namespace NativeProgram

variable {α β : Type}

/-- Runs one computation after another. -/
def bind (p : NativeProgram α) (f : α → NativeProgram β) : NativeProgram β :=
  match p with
  | .done a => f a
  | .fail e => .fail e
  | .abort => .abort
  | .act a next => .act a fun answer => (next answer).bind f

instance : Monad NativeProgram where
  pure := .done
  bind := bind

/-- Goes on with a result, or ends with a fault. -/
def ofExcept : Except Fault α → NativeProgram α
  | .ok a => .done a
  | .error e => .fail e

/-- The result of a computation, or the fault it ended with. -/
def attempt : NativeProgram α → NativeProgram (Except Fault α)
  | .done a => .done (.ok a)
  | .fail e => .done (.error e)
  | .abort => .abort
  | .act a next => .act a fun answer => (next answer).attempt

/-- Acts and takes the answer. -/
def perform (a : Action) : NativeProgram a.Answer := .act a .done

end NativeProgram

/-- The call of a native, as the native sees it. -/
structure NativeCall where
  /-- The byte count of the arguments, then the arguments. -/
  params : List Cell
  /-- Data address of the byte count. -/
  address : Cell
  deriving DecidableEq, Repr

abbrev Native := NativeCall → NativeProgram Cell

end PawnNative
