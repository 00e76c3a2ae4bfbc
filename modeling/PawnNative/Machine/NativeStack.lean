import PawnNative.Cell

/-! # The native stack

    The stack of the host processor holds return addresses, saved registers and
    the records of running calls. It is a region of cells that grows down from a
    top; a cell is known by its distance from the top, and cells that were never
    written are zero.
-/

namespace PawnNative

/-- The stack of the host processor. -/
structure NativeStack where
  /-- The cell at distance `4 * (i + 1)` below the top, for each index `i`. -/
  cells : Array Cell := #[]

namespace NativeStack

/-- The cell with this index. -/
def get (s : NativeStack) (i : Nat) : Cell := s.cells.getD i 0

def set (s : NativeStack) (i : Nat) (v : Cell) : NativeStack :=
  if i < s.cells.size then ⟨s.cells.setIfInBounds i v⟩
  else ⟨(s.cells ++ Array.replicate (i - s.cells.size) 0).push v⟩

@[simp] theorem get_set_self (s : NativeStack) (i : Nat) (v : Cell) : (s.set i v).get i = v := by
  unfold set get
  split
  next h => simp [Array.getD_eq_getD_getElem?, h]
  next h =>
    simp only [Array.getD_eq_getD_getElem?, Array.getElem?_push, Array.size_append,
      Array.size_replicate]
    simp [show s.cells.size + (i - s.cells.size) = i by omega]

theorem get_set_ne (s : NativeStack) {i j : Nat} (v : Cell) (h : j ≠ i) :
    (s.set i v).get j = s.get j := by
  unfold set get
  split
  next hi => simp [Array.getD_eq_getD_getElem?, Ne.symm h]
  next hi =>
    simp only [Array.getD_eq_getD_getElem?, Array.getElem?_push, Array.size_append,
      Array.size_replicate, show s.cells.size + (i - s.cells.size) = i by omega, h, ↓reduceIte]
    by_cases hj : j < s.cells.size
    · simp [Array.getElem?_append, hj]
    · simp only [Array.getElem?_append, hj, ↓reduceIte, Array.getElem?_replicate]
      split <;> simp [Array.getElem?_eq_none (Nat.le_of_not_lt hj)]

end NativeStack

end PawnNative
