import PawnNative.Block

/-! # Code memory

    Memory for machine code is mapped in whole pages, written, and then sealed:
    from then on it can be run and no longer be written. Bytes that were never
    written are zero.
-/

namespace PawnNative

/-- Why an operation on code memory fails. -/
inductive CodeMemoryError where
  | alreadyExecutable
  | invalidSize
  deriving DecidableEq, Repr

structure CodeMemory where
  /-- Bytes that are mapped. -/
  size : Nat
  /-- The bytes up to the end of the furthest write. -/
  bytes : Block
  /-- Whether the memory can be run, and no longer be written. -/
  executable : Bool

namespace CodeMemory

/-- Maps memory for at least `size` bytes, in pages of the size that the system has. -/
def map (size : Nat) (pageSize : Nat := 4096) : Except CodeMemoryError CodeMemory :=
  if size = 0 then .error .invalidSize
  else .ok ⟨(size + pageSize - 1) / pageSize * pageSize, #[], false⟩

/-- Number of bytes up to the end of the furthest write. -/
def len (m : CodeMemory) : Nat := m.bytes.size

def write (m : CodeMemory) (offset : Nat) (bytes : List Byte) : Except CodeMemoryError CodeMemory :=
  if m.executable then .error .alreadyExecutable
  else
    let stop := offset + bytes.length
    if m.size < stop then .error .invalidSize
    else .ok { m with bytes := (m.bytes.resize (max m.len stop)).overwrite offset bytes }

/-- Seals the memory; a second time this changes nothing. -/
def makeExecutable (m : CodeMemory) : CodeMemory := { m with executable := true }

/-- Maps memory for a piece of code, writes it and seals it. -/
def ofCode (code : Block) (pageSize : Nat := 4096) : Except CodeMemoryError CodeMemory := do
  let m ← map code.size pageSize
  return (← m.write 0 code.toList).makeExecutable

end CodeMemory

end PawnNative
