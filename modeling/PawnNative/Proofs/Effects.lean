import Mathlib.Tactic.Common
import PawnNative.Instance
import PawnNative.Instruction

/-! # What straight-line instructions do

    The abstract machine as its instruction set defines it, for the instructions
    that do not leave the straight line: arithmetic is that of cells, and wraps.
    Data addresses are counted exactly here. A cell of the stack or the frame is
    a distance from an address that is not negative, and such a sum does not wrap
    around to the other end of the data segment.

    An instruction has no effect when it touches a cell outside the data segment.
    `Instruction.touched` lists the cells of stack and frame that it touches.
-/

namespace PawnNative

/-! ## Section 1: Cells of the data segment -/

namespace Instance

/-- Whether the cell at a data address lies in the data segment. -/
def HasCell (vm : Instance) (a : Int) : Prop := 0 ≤ a ∧ a + Cell.width ≤ vm.dataSize

instance (vm : Instance) (a : Int) : Decidable (vm.HasCell a) :=
  inferInstanceAs (Decidable (_ ∧ _))

/-- The cell at a data address. -/
def cellAt? (vm : Instance) (a : Int) : Option Cell :=
  if vm.HasCell a then vm.block.cell? (vm.dataStart + a.toNat) else none

def setCellAt? (vm : Instance) (a : Int) (v : Cell) : Option Instance :=
  if vm.HasCell a then
    (vm.block.setCell? (vm.dataStart + a.toNat) v).map fun block => { vm with block }
  else none

def put (vm : Instance) (r : RegisterName) (v : Cell) : Instance :=
  { vm with regs := vm.regs.set r v }

/-- The data address of a cell of the frame. -/
def frameAddress (vm : Instance) (offset : Cell) : Int := vm.regs.frm.toNat + offset.toInt

/-- The data address of the cell on top of the stack. -/
def topAddress (vm : Instance) : Int := vm.regs.stk.toNat

/-- Changes the cell at a data address. -/
def modifyCell? (vm : Instance) (a : Int) (f : Cell → Cell) : Option Instance :=
  (vm.cellAt? a).bind fun v => vm.setCellAt? a (f v)

/-- Loads a register from the cell at a data address. -/
def loaded? (vm : Instance) (r : RegisterName) (a : Int) : Option Instance :=
  (vm.cellAt? a).map (vm.put r)

def pushed? (vm : Instance) (v : Cell) : Option Instance :=
  (vm.setCellAt? (vm.topAddress - Cell.width) v).map fun vm => vm.put .stk (vm.regs.stk - 4)

/-- Pushes a cell a number of times. -/
def pushedTimes? (v : Cell) : Nat → Instance → Option Instance
  | 0, vm => some vm
  | n + 1, vm => (vm.pushed? v).bind (pushedTimes? v n)

def popped? (vm : Instance) (r : RegisterName) : Option Instance :=
  (vm.loaded? r vm.topAddress).map fun vm => vm.put .stk (vm.regs.stk + 4)

/-- Exchanges a register with the cell on top of the stack. -/
def swapped? (vm : Instance) (r : RegisterName) : Option Instance :=
  (vm.loaded? r vm.topAddress).bind fun vm' => vm'.setCellAt? vm.topAddress (vm.regs.get r)

end Instance

/-! ## Section 2: Instructions -/

/-- One or zero, as comparisons give it. -/
def Cell.ofBool (b : Bool) : Cell := if b then 1 else 0

/-- The address of a part of a cell, turned around for the other byte order. -/
def Cell.aligned (c width : Cell) : Cell := if width.toNat < 4 then c ^^^ (4 - width) else c

namespace Instruction

/-- The value of a control register. -/
def control? (i : Instruction) (vm : Instance) : Option Cell :=
  match i.arg.toNat with
  | 0 => some vm.header.cod
  | 1 => some vm.header.dat
  | 2 => some vm.regs.hea
  | 3 => some vm.regs.stp
  | 4 => some vm.regs.stk
  | 5 => some vm.regs.frm
  | 6 => some i.next
  | _ => none

/-- Sets a control register, unless that is a jump. -/
def setControl? (i : Instruction) (vm : Instance) (v : Cell) : Option Instance :=
  match i.arg.toNat with
  | 2 => some (vm.put .hea v)
  | 4 => some (vm.put .stk v)
  | 5 => some (vm.put .frm v)
  | _ => none

/-- What a straight-line instruction does. -/
def effect? (i : Instruction) (vm : Instance) : Option Instance :=
  let pri := vm.regs.pri
  let alt := vm.regs.alt
  match i.opcode with
  | .loadPri => vm.loaded? .pri i.arg.toInt
  | .loadAlt => vm.loaded? .alt i.arg.toInt
  | .loadSPri => vm.loaded? .pri (vm.frameAddress i.arg)
  | .loadSAlt => vm.loaded? .alt (vm.frameAddress i.arg)
  | .constPri => some (vm.put .pri i.arg)
  | .constAlt => some (vm.put .alt i.arg)
  | .addrPri => some (vm.put .pri (vm.regs.frm + i.arg))
  | .addrAlt => some (vm.put .alt (vm.regs.frm + i.arg))
  | .storPri => vm.setCellAt? i.arg.toInt pri
  | .storAlt => vm.setCellAt? i.arg.toInt alt
  | .storSPri => vm.setCellAt? (vm.frameAddress i.arg) pri
  | .storSAlt => vm.setCellAt? (vm.frameAddress i.arg) alt
  | .idxaddr => some (vm.put .pri (alt + pri * 4))
  | .idxaddrB => some (vm.put .pri (alt + pri <<< (i.arg.toNat % 32)))
  | .alignPri => some (vm.put .pri (pri.aligned i.arg))
  | .alignAlt => some (vm.put .alt (alt.aligned i.arg))
  | .lctrl => (i.control? vm).map (vm.put .pri)
  | .sctrl => i.setControl? vm pri
  | .movePri => some (vm.put .pri alt)
  | .moveAlt => some (vm.put .alt pri)
  | .xchg => some ((vm.put .pri alt).put .alt pri)
  | .pushPri => vm.pushed? pri
  | .pushAlt => vm.pushed? alt
  | .pushR => vm.pushedTimes? pri i.arg.toInt.toNat
  | .pushC => vm.pushed? i.arg
  | .push => (vm.cellAt? i.arg.toInt).bind vm.pushed?
  | .pushS => (vm.cellAt? (vm.frameAddress i.arg)).bind vm.pushed?
  | .pushAdr => vm.pushed? (vm.regs.frm + i.arg)
  | .popPri => vm.popped? .pri
  | .popAlt => vm.popped? .alt
  | .swapPri => vm.swapped? .pri
  | .swapAlt => vm.swapped? .alt
  | .shl => some (vm.put .pri (pri <<< (alt.toNat % 32)))
  | .shr => some (vm.put .pri (pri >>> (alt.toNat % 32)))
  | .sshr => some (vm.put .pri (pri.sshiftRight (alt.toNat % 32)))
  | .shlCPri => some (vm.put .pri (pri <<< (i.arg.toNat % 32)))
  | .shlCAlt => some (vm.put .alt (alt <<< (i.arg.toNat % 32)))
  | .shrCPri => some (vm.put .pri (pri >>> (i.arg.toNat % 32)))
  | .shrCAlt => some (vm.put .alt (alt >>> (i.arg.toNat % 32)))
  | .smul | .umul => some (vm.put .pri (pri * alt))
  | .add => some (vm.put .pri (pri + alt))
  | .sub => some (vm.put .pri (pri - alt))
  | .subAlt => some (vm.put .pri (alt - pri))
  | .and => some (vm.put .pri (pri &&& alt))
  | .or => some (vm.put .pri (pri ||| alt))
  | .xor => some (vm.put .pri (pri ^^^ alt))
  | .not => some (vm.put .pri (.ofBool (pri == 0)))
  | .neg => some (vm.put .pri (-pri))
  | .invert => some (vm.put .pri (~~~pri))
  | .addC => some (vm.put .pri (pri + i.arg))
  | .smulC => some (vm.put .pri (pri * i.arg))
  | .zeroPri => some (vm.put .pri 0)
  | .zeroAlt => some (vm.put .alt 0)
  | .zero => vm.setCellAt? i.arg.toInt 0
  | .zeroS => vm.setCellAt? (vm.frameAddress i.arg) 0
  | .signPri => some (vm.put .pri ((pri.setWidth 8).signExtend 32))
  | .signAlt => some (vm.put .alt ((alt.setWidth 8).signExtend 32))
  | .eq => some (vm.put .pri (.ofBool (pri == alt)))
  | .neq => some (vm.put .pri (.ofBool (pri != alt)))
  | .less => some (vm.put .pri (.ofBool (pri.toNat < alt.toNat)))
  | .leq => some (vm.put .pri (.ofBool (pri.toNat ≤ alt.toNat)))
  | .grtr => some (vm.put .pri (.ofBool (alt.toNat < pri.toNat)))
  | .geq => some (vm.put .pri (.ofBool (alt.toNat ≤ pri.toNat)))
  | .sless => some (vm.put .pri (.ofBool (pri.toInt < alt.toInt)))
  | .sleq => some (vm.put .pri (.ofBool (pri.toInt ≤ alt.toInt)))
  | .sgrtr => some (vm.put .pri (.ofBool (alt.toInt < pri.toInt)))
  | .sgeq => some (vm.put .pri (.ofBool (alt.toInt ≤ pri.toInt)))
  | .eqCPri => some (vm.put .pri (.ofBool (pri == i.arg)))
  | .eqCAlt => some (vm.put .pri (.ofBool (alt == i.arg)))
  | .incPri => some (vm.put .pri (pri + 1))
  | .incAlt => some (vm.put .alt (alt + 1))
  | .inc => vm.modifyCell? i.arg.toInt (· + 1)
  | .incS => vm.modifyCell? (vm.frameAddress i.arg) (· + 1)
  | .decPri => some (vm.put .pri (pri - 1))
  | .decAlt => some (vm.put .alt (alt - 1))
  | .dec => vm.modifyCell? i.arg.toInt (· - 1)
  | .decS => vm.modifyCell? (vm.frameAddress i.arg) (· - 1)
  | _ => none

/-- Whether an instruction is one of those that stay on the straight line. -/
def IsStraight (i : Instruction) : Prop :=
  match i.opcode with
  | .loadPri | .loadAlt | .loadSPri | .loadSAlt | .constPri | .constAlt | .addrPri | .addrAlt
  | .storPri | .storAlt | .storSPri | .storSAlt | .idxaddr | .idxaddrB | .alignPri | .alignAlt
  | .lctrl | .movePri | .moveAlt | .xchg | .pushPri | .pushAlt | .pushR | .pushC | .push | .pushS
  | .pushAdr | .popPri | .popAlt | .swapPri | .swapAlt | .shl | .shr | .sshr | .shlCPri | .shlCAlt
  | .shrCPri | .shrCAlt | .smul | .umul | .add | .sub | .subAlt | .and | .or | .xor | .not | .neg
  | .invert | .addC | .smulC | .zeroPri | .zeroAlt | .zero | .zeroS | .signPri | .signAlt | .eq
  | .neq | .less | .leq | .grtr | .geq | .sless | .sleq | .sgrtr | .sgeq | .eqCPri | .eqCAlt
  | .incPri | .incAlt | .inc | .incS | .decPri | .decAlt | .dec | .decS => True
  | .sctrl => i.arg = 2 ∨ i.arg = 4 ∨ i.arg = 5
  | _ => False

/-- The data addresses of the cells of stack and frame that an instruction touches. -/
def touched (i : Instruction) (vm : Instance) : List Int :=
  match i.opcode with
  | .loadSPri | .loadSAlt | .storSPri | .storSAlt | .zeroS | .incS | .decS =>
    [vm.frameAddress i.arg]
  | .pushPri | .pushAlt | .pushC | .push | .pushAdr => [vm.topAddress - 4]
  | .pushS => [vm.frameAddress i.arg, vm.topAddress - 4]
  | .pushR => (List.range i.arg.toInt.toNat).map fun k : Nat => vm.topAddress - 4 * (k + 1)
  | .popPri | .popAlt | .swapPri | .swapAlt => [vm.topAddress]
  | _ => []

end Instruction

end PawnNative
