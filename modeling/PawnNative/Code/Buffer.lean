import PawnNative.Code.Memory
import PawnNative.X64.Encoding

/-! # Code buffers

    Machine code is put together in a buffer. Branches go to labels, which may be
    bound before or after the branch; the 32-bit distance in a branch is left
    zero and filled in when the buffer is finished. A distance counts from the
    end of its four bytes. Binding a label again moves it.
-/

namespace PawnNative

open X64

/-- A position in a code buffer, by order of creation. -/
structure Label where
  index : Nat
  deriving DecidableEq, Repr

/-- The name of a label in messages. -/
def Label.text (l : Label) : String := "Label(" ++ Nat.repr l.index ++ ")"

/-- Why a buffer cannot be finished. -/
inductive BufferError where
  | unbound (l : Label)
  | outOfRange (l : Label)
  | memory (e : CodeMemoryError)
  deriving DecidableEq, Repr

def BufferError.message : BufferError → String
  | .unbound l => "label " ++ l.text ++ " is referenced but never bound"
  | .outOfRange l => "relative offset to label " ++ l.text ++ " out of range"
  | .memory .alreadyExecutable => "memory is already executable"
  | .memory .invalidSize => "invalid memory size"

/-- A place in the code that waits for the distance to a label. -/
structure Reference where
  /-- Offset of the four bytes. -/
  offset : Nat
  label : Label
  deriving DecidableEq, Repr

/-- Machine code under construction. -/
structure CodeBuffer where
  code : Block := #[]
  /-- The offset of each label, once bound. -/
  labels : Array (Option Nat) := #[]
  /-- The references, in order of emission. -/
  refs : Array Reference := #[]

namespace CodeBuffer

/-- Offset of the next byte. -/
def offset (b : CodeBuffer) : Nat := b.code.size

def emit (b : CodeBuffer) (bytes : List Byte) : CodeBuffer := { b with code := b.code ++ bytes }

def instr (b : CodeBuffer) (i : Instr) : CodeBuffer := b.emit i.encode

def newLabel (b : CodeBuffer) : Label × CodeBuffer :=
  (⟨b.labels.size⟩, { b with labels := b.labels.push none })

def bind (b : CodeBuffer) (l : Label) : CodeBuffer :=
  { b with labels := b.labels.setIfInBounds l.index (some b.offset) }

/-- The offset of a label, once bound. -/
def labelOffset? (b : CodeBuffer) (l : Label) : Option Nat := (b.labels[l.index]?).join

/-- Appends four bytes that wait for the distance to a label. -/
def reference (b : CodeBuffer) (l : Label) : CodeBuffer :=
  { b with code := b.code ++ Cell.bytes 0, refs := b.refs.push ⟨b.offset, l⟩ }

def jmp (b : CodeBuffer) (l : Label) : CodeBuffer := (b.emit [0xE9]).reference l

def jcc (b : CodeBuffer) (c : Cond) (l : Label) : CodeBuffer :=
  (b.emit [0x0F, 0x8#4 ++ c.number]).reference l

def call (b : CodeBuffer) (l : Label) : CodeBuffer := (b.emit [0xE8]).reference l

/-- Pads with breakpoints up to a multiple of `n`; there are no multiples of zero to reach. -/
def align? (b : CodeBuffer) (n : Nat) : Option CodeBuffer :=
  if n = 0 then none
  else
    let aligned := (b.offset + n - 1) / n * n
    some (b.emit (List.replicate (aligned - b.offset) 0xCC))

/-- The distance that a reference waits for. -/
def distance (b : CodeBuffer) (r : Reference) : Except BufferError Cell :=
  match b.labelOffset? r.label with
  | none => .error (.unbound r.label)
  | some target =>
    let d : Int := target - (r.offset + 4)
    if -0x80000000 ≤ d ∧ d < 0x80000000 then .ok (Cell.ofInt d) else .error (.outOfRange r.label)

def patch (b : CodeBuffer) (code : Block) (r : Reference) : Except BufferError Block := do
  return code.overwrite r.offset (← b.distance r).bytes

/-- Fills in all references, in order of emission. -/
def finish (b : CodeBuffer) : Except BufferError Block := b.refs.toList.foldlM b.patch b.code

/-- Fills in all references and moves the code to sealed memory. -/
def finalize (b : CodeBuffer) : Except BufferError CodeMemory := do
  let code ← b.finish
  match CodeMemory.ofCode code with
  | .ok m => return m
  | .error e => throw (.memory e)

end CodeBuffer

end PawnNative
