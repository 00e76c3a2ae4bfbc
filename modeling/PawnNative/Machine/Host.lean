import PawnNative.Instance
import PawnNative.Machine.NativeStack

/-! # What running code can reach

    Compiled code runs in the address space of its host. Three regions of it can
    be read and written: the image block, the register file of the instance, and
    the native stack. The code itself lies in a fourth region, which can only be
    run. Addresses are 64-bit words and wrap; a region is a base address and a
    length, and a place in it is the distance from the base.

    An access outside the regions has no result. Cells of the register file and
    of the native stack are reached as whole cells, the image block by bytes.
-/

namespace PawnNative

structure Layout where
  /-- Start of the image block. -/
  block : Word
  /-- Start of the register file. -/
  file : Word
  /-- End of the native stack, which grows down from here. -/
  stackTop : Word
  /-- Bytes of the native stack. -/
  stackSize : Nat
  /-- Start of the compiled code. -/
  code : Word
  /-- Where the host goes on when compiled code returns to it. -/
  hostReturn : Word
  deriving DecidableEq, Repr

/-- A place in a region. -/
inductive Place where
  /-- Offset in the image block. -/
  | block (offset : Nat)
  /-- Offset in the register file. -/
  | file (offset : Nat)
  /-- Distance below the top of the native stack. -/
  | stack (depth : Nat)
  deriving DecidableEq, Repr

/-- A region that running code can read and write. -/
inductive Region where
  | block | file | stack
  deriving DecidableEq, Repr

def Place.region : Place → Region
  | .block _ => .block
  | .file _ => .file
  | .stack _ => .stack

/-- The place that an address names, for an image block of `size` bytes. -/
def Layout.place? (l : Layout) (size : Nat) (a : Word) : Option Place :=
  let fromBlock := a.above l.block
  if fromBlock < size then some (.block fromBlock)
  else
    let depth := l.stackTop.above a
    if 0 < depth ∧ depth ≤ l.stackSize then some (.stack depth)
    else
      let fromFile := a.above l.file
      if fromFile < 32 then some (.file fromFile) else none

/-- The state of the host that running code and natives act on. -/
structure Host where
  vm : Instance
  stack : NativeStack := {}
  /-- What natives logged, the latest entry first. -/
  log : List LogEntry := []

namespace Host

/-- The place that an address names. -/
def place? (h : Host) (l : Layout) (a : Word) : Option Place := l.place? h.vm.block.size a

def load8 (h : Host) (l : Layout) (a : Word) : Option Byte :=
  match h.place? l a with
  | some (.block o) => h.vm.block.byte? o
  | _ => none

def load16 (h : Host) (l : Layout) (a : Word) : Option Half :=
  match h.place? l a with
  | some (.block o) => h.vm.block.half? o
  | _ => none

def load32 (h : Host) (l : Layout) (a : Word) : Option Cell :=
  match h.place? l a with
  | some (.block o) => h.vm.block.cell? o
  | some (.file o) =>
    if o % 4 = 0 then (RegisterName.ofNumber? (o / 4)).map h.vm.regs.get else none
  | some (.stack d) => if d % 4 = 0 then some (h.stack.get (d / 4 - 1)) else none
  | none => none

def load64 (h : Host) (l : Layout) (a : Word) : Option Word :=
  match h.place? l a with
  | some (.stack d) =>
    if d % 4 = 0 ∧ 8 ≤ d then some (h.stack.get (d / 4 - 2) ++ h.stack.get (d / 4 - 1)) else none
  | _ => none

def store8 (h : Host) (l : Layout) (a : Word) (v : Byte) : Option Host :=
  match h with
  | ⟨⟨header, block, regs, pending, natives⟩, stack, log⟩ =>
    match l.place? block.size a with
    | some (.block o) =>
      (block.setByte? o v).map fun block => ⟨⟨header, block, regs, pending, natives⟩, stack, log⟩
    | _ => none

def store16 (h : Host) (l : Layout) (a : Word) (v : Half) : Option Host :=
  match h with
  | ⟨⟨header, block, regs, pending, natives⟩, stack, log⟩ =>
    match l.place? block.size a with
    | some (.block o) =>
      (block.setHalf? o v).map fun block => ⟨⟨header, block, regs, pending, natives⟩, stack, log⟩
    | _ => none

def store32 (h : Host) (l : Layout) (a : Word) (v : Cell) : Option Host :=
  match h with
  | ⟨⟨header, block, regs, pending, natives⟩, stack, log⟩ =>
    match l.place? block.size a with
    | some (.block o) =>
      (block.setCell? o v).map fun block => ⟨⟨header, block, regs, pending, natives⟩, stack, log⟩
    | some (.file o) =>
      if o % 4 = 0 then
        (RegisterName.ofNumber? (o / 4)).map fun r =>
          ⟨⟨header, block, regs.set r v, pending, natives⟩, stack, log⟩
      else none
    | some (.stack d) =>
      if d % 4 = 0 then
        some ⟨⟨header, block, regs, pending, natives⟩, stack.set (d / 4 - 1) v, log⟩
      else none
    | none => none

def store64 (h : Host) (l : Layout) (a : Word) (v : Word) : Option Host :=
  match h with
  | ⟨vm, stack, log⟩ =>
    match l.place? vm.block.size a with
    | some (.stack d) =>
      if d % 4 = 0 ∧ 8 ≤ d then
        let stack := stack.set (d / 4 - 2) (v.extractLsb' 32 32)
        some ⟨vm, stack.set (d / 4 - 1) (v.extractLsb' 0 32), log⟩
      else none
    | _ => none

end Host

end PawnNative
