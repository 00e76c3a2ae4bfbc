import PawnNative.X64.Instr

/-! # Flags

    Operations of the arithmetic and logic unit leave five flags, which
    conditions read. Where the architecture leaves a flag undefined the flag has
    no value, and a condition that needs it has none either.
-/

namespace PawnNative.X64

/-- The status flags; a flag without a value is undefined. -/
structure Flags where
  carry : Option Bool := none
  zero : Option Bool := none
  sign : Option Bool := none
  overflow : Option Bool := none
  /-- The low byte of the result, whose ones the parity flag counts. -/
  low : Option Byte := none
  deriving DecidableEq, Repr, Inhabited

/-- Whether a byte has an even number of ones. -/
def evenParity (b : Byte) : Bool := ((List.range 8).countP fun i => b.getLsbD i) % 2 == 0

def Flags.parity (f : Flags) : Option Bool := f.low.map evenParity

/-- Whether a condition holds, if the flags it reads are defined. -/
def Cond.holds (f : Flags) : Cond → Option Bool
  | .o => f.overflow
  | .no => f.overflow.map (!·)
  | .b => f.carry
  | .ae => f.carry.map (!·)
  | .e => f.zero
  | .ne => f.zero.map (!·)
  | .be => do return (← f.carry) || (← f.zero)
  | .a => do return !((← f.carry) || (← f.zero))
  | .s => f.sign
  | .ns => f.sign.map (!·)
  | .p => f.parity
  | .np => f.parity.map (!·)
  | .l => do return (← f.sign) != (← f.overflow)
  | .ge => do return (← f.sign) == (← f.overflow)
  | .le => do return (← f.zero) || (← f.sign) != (← f.overflow)
  | .g => do return !(← f.zero) && (← f.sign) == (← f.overflow)

variable {w : Nat}

/-- The flags that only depend on a result. -/
def Flags.ofResult (r : BitVec w) : Flags :=
  { zero := some (r == 0), sign := some r.msb, low := some (r.setWidth 8) }

def addFlags (x y : BitVec w) : Flags :=
  { Flags.ofResult (x + y) with
    carry := some (decide (1 <<< w ≤ x.toNat + y.toNat))
    overflow := some (x.msb == y.msb && (x + y).msb != x.msb) }

def subFlags (x y : BitVec w) : Flags :=
  { Flags.ofResult (x - y) with
    carry := some (x.ult y)
    overflow := some (x.msb != y.msb && (x - y).msb != x.msb) }

def logicFlags (r : BitVec w) : Flags :=
  { Flags.ofResult r with carry := some false, overflow := some false }

namespace Alu

/-- The result of an operation; a comparison subtracts. -/
def result (op : Alu) (x y : BitVec w) : BitVec w :=
  match op with
  | .add => x + y
  | .or => x ||| y
  | .and => x &&& y
  | .sub | .cmp => x - y
  | .xor => x ^^^ y

def flags (op : Alu) (x y : BitVec w) : Flags :=
  match op with
  | .add => addFlags x y
  | .sub | .cmp => subFlags x y
  | .or | .and | .xor => logicFlags (op.result x y)

/-- Whether the result is stored. -/
def stores : Alu → Bool
  | .cmp => false
  | _ => true

end Alu

namespace Shift

/-- The result of a shift by `n` places. -/
def result (op : Shift) (x : Cell) (n : Nat) : Cell :=
  match op with
  | .shl => x <<< n
  | .shr => x >>> n
  | .sar => x.sshiftRight n

/-- The bit that a shift by `n` places moves out last. -/
def lastOut (op : Shift) (x : Cell) (n : Nat) : Bool :=
  match op with
  | .shl => x.getLsbD (32 - n)
  | .shr | .sar => x.getLsbD (n - 1)

/-- The overflow flag of a shift by one place. -/
def overflow (op : Shift) (x : Cell) : Bool :=
  match op with
  | .shl => x.getLsbD 31 != x.getLsbD 30
  | .shr => x.msb
  | .sar => false

/-- The flags of a shift by `n` places, for `n` below 32. A shift by no places leaves the
    flags as they were; the overflow flag is defined for one place only. -/
def flags (op : Shift) (old : Flags) (x : Cell) (n : Nat) : Flags :=
  if n = 0 then old
  else { Flags.ofResult (op.result x n) with
    carry := some (op.lastOut x n)
    overflow := if n = 1 then some (op.overflow x) else none }

end Shift

end PawnNative.X64
