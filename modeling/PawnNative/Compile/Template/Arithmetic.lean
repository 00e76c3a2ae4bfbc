import PawnNative.Compile.Template.Memory

/-! # Templates: arithmetic and comparison

    Signed division rounds to the floor and its remainder has the sign of the
    divisor. The division of the processor rounds towards zero and traps on the
    one quotient that is no cell, so the divisor -1 is a negation, and a quotient
    is lowered by one when there is a remainder of the other sign.
-/

namespace PawnNative

open X64 Convention

namespace Template

/-- An operation of the two computing registers. -/
def operate (op : Alu) : List Line := [.op (.aluRR op .d pri alt)]

/-- The primary register says whether a condition holds. -/
def setPri (c : Cond) : List Line := [.op (.setcc c pri), .op (.movzxByte pri pri)]

/-- The primary register says whether it compares so with the alternate one. -/
def compareAlt (c : Cond) : List Line := [.op (.aluRR .cmp .d pri alt)] ++ setPri c

/-- The primary register says whether a register equals a constant. -/
def compareConst (r : Reg) (v : Cell) : List Line := [.op (.aluRI .cmp .d r v)] ++ setPri .e

/-- The primary register says whether it was zero. -/
def isZero : List Line := [.op (.test .d pri pri)] ++ setPri .e

/-- Exchanges the computing registers if dividend and divisor stand the other way round. -/
def exchange (swap : Bool) : List Line := if swap then [.op (.xchg pri alt)] else []

/-- Halts when the divisor is zero. -/
def checkDivisor : List Line :=
  [.op (.test .d alt alt), .jcc .e (.stub (.fault .divide))]

/-- Signed division to the floor: quotient in the primary, remainder in the alternate register. -/
def divideSigned (swap : Bool) : List Line :=
  exchange swap ++ checkDivisor ++
  ([.op (.aluRI .cmp .d alt (-1)),
    .jcc .ne (.mark 0),
    .op (.neg pri),
    .op (.aluRR .xor .d alt alt),
    .jmp (.mark 2),
    .place (.mark 0),
    .op .cdq,
    .op (.idiv alt),
    .op (.test .d tmp0 tmp0),
    .jcc .e (.mark 1),
    .op (.movRR .d tmp1 tmp0),
    .op (.aluRR .xor .d tmp1 alt),
    .jcc .ns (.mark 1),
    .op (.aluRI .sub .d pri 1),
    .op (.aluRR .add .d tmp0 alt),
    .place (.mark 1),
    .op (.movRR .d alt tmp0),
    .place (.mark 2)] : List Line)

/-- Unsigned division: quotient in the primary, remainder in the alternate register. -/
def divideUnsigned (swap : Bool) : List Line :=
  exchange swap ++ checkDivisor ++
  [.op (.aluRR .xor .d tmp0 tmp0), .op (.div alt), .op (.movRR .d alt tmp0)]

/-- Shifts a register by a constant count. -/
def shiftConst (op : Shift) (r : Reg) (count : Cell) : List Line :=
  [.op (.shiftImm op r (count.setWidth 8))]

end Template

end PawnNative
