import PawnNative.Compile.Convention
import PawnNative.Compile.Error
import PawnNative.Config
import PawnNative.Instance

/-! # What a template may depend on

    The code of an instruction depends on the instruction and on a few facts
    about the image, which are collected here: never on the contents of the data
    segment, on the registers, or on the code that was emitted before.
-/

namespace PawnNative

/-- The facts about an image that its code depends on. -/
structure Context where
  config : Config
  /-- Start of the code segment in the image. -/
  cod : Cell
  /-- Start of the data segment in the image. -/
  dat : Cell
  /-- Bytes of the code segment. -/
  codeSize : Nat
  /-- Bytes of the data segment with heap and stack. -/
  dataSize : Nat
  /-- The names of the imported natives; a record whose name cannot be read has none. -/
  natives : List (Option String)
  deriving DecidableEq, Repr

namespace Context

/-- The facts about an instance. -/
def ofInstance (config : Config) (vm : Instance) : Context where
  config
  cod := vm.header.cod
  dat := vm.header.dat
  codeSize := vm.codeSize
  dataSize := vm.dataSize
  natives := (List.range vm.header.nativeTable.len).map vm.nativeName?

/-- Whether a branch may lead to this code address. -/
def inCode (ctx : Context) (a : Cell) : Bool :=
  decide (0 ≤ a.toInt) && decide (a.toNat < ctx.codeSize) && decide (a.toNat % Cell.width = 0)

/-- Whether the cell at this data address may be named directly. -/
def inData (ctx : Context) (a : Cell) : Bool :=
  decide (0 ≤ a.toInt) && decide (a.toNat + Cell.width ≤ ctx.dataSize)

/-- Checks the target of a branch. -/
def target (ctx : Context) (i : Instruction) (a : Cell) : Except CompileError Cell :=
  if ctx.inCode a then .ok a else .error (.targetOutOfRange i a)

/-- Checks the data address in the first operand. -/
def direct (ctx : Context) (i : Instruction) : Except CompileError Cell :=
  if ctx.inData i.arg then .ok i.arg else .error (.dataOutOfRange i i.arg)

end Context

end PawnNative
