import PawnNative.Block
import PawnNative.X64.Decoding

/-! # Readings

    A piece of code can be read from any of its offsets. The reading at an offset
    is the instruction that its bytes begin with there, and how many bytes that
    takes. The readings of a whole piece are put in a table once, so that running
    code does not decode an instruction again each time it comes by.
-/

namespace PawnNative

open X64

/-- The longest encoding of an instruction. -/
def maxInstrLength : Nat := 15

/-- The reading at an offset. -/
def Block.readAt (code : Block) (o : Nat) : Option (Instr × Nat) :=
  let window := (code.extract o (o + maxInstrLength)).toList
  (decode window).map fun (i, rest) => (i, window.length - rest.length)

/-- The readings at all offsets. -/
abbrev Readings := Array (Option (Instr × Nat))

/-- The readings of a piece of code. -/
def Block.readings (code : Block) : Readings := Array.ofFn fun o : Fin code.size => code.readAt o

/-- The reading at an offset; there is none past the end. -/
def Readings.get? (r : Readings) (o : Nat) : Option (Instr × Nat) := r.getD o none

theorem Block.readAt_of_size_le {code : Block} {o : Nat} (h : code.size ≤ o) :
    code.readAt o = none := by
  have : code.extract o (o + maxInstrLength) = #[] := by
    apply Array.eq_empty_of_size_eq_zero
    simp only [Array.size_extract]
    omega
  simp [readAt, this, decode]

/-- The table holds the readings. -/
@[simp] theorem Block.get?_readings (code : Block) (o : Nat) :
    code.readings.get? o = code.readAt o := by
  unfold Readings.get? readings
  rw [Array.getD_eq_getD_getElem?, Array.getElem?_ofFn]
  split
  · rfl
  · next h => rw [readAt_of_size_le (Nat.le_of_not_lt h)]; rfl

end PawnNative
