import PawnNative.Cell

/-! # Cells as numbers

    A cell that is not negative is the same number signed and unsigned.
-/

namespace PawnNative

theorem Cell.toInt_eq_toNat {c : Cell} (h : 0 ≤ c.toInt) : c.toInt = c.toNat := by
  refine BitVec.toInt_eq_toNat_of_msb ?_
  rw [BitVec.msb_eq_toInt]
  simpa using h

end PawnNative
