import Mathlib.Tactic.Common
import PawnNative.X64.Flags

/-! # Conditions after a comparison

    A comparison subtracts and keeps the flags. Which condition they give is what
    the two numbers say, read without or with a sign.
-/

namespace PawnNative.X64

variable (x y : Cell)

theorem sub_beq_zero : (x - y == 0) = (x == y) := by
  have hiff : x - y = 0 ↔ x = y := by
    constructor
    · intro h
      have hsum : x - y + y = 0#32 + y := congrArg (· + y) h
      rwa [BitVec.sub_add_cancel, BitVec.zero_add] at hsum
    · rintro rfl
      exact BitVec.sub_self x
  by_cases h : x = y
  · rw [beq_iff_eq.mpr h, beq_iff_eq.mpr (hiff.mpr h)]
  · rw [beq_eq_false_iff_ne.mpr h, beq_eq_false_iff_ne.mpr fun heq => h (hiff.mp heq)]

/-- Sign and overflow of a difference disagree exactly when the first number is less. -/
theorem sign_bne_overflow :
    ((x - y).msb != (x.msb != y.msb && (x - y).msb != x.msb)) = decide (x.toInt < y.toInt) := by
  have hx := x.isLt
  have hy := y.isLt
  simp only [BitVec.msb_eq_decide, BitVec.toInt_eq_toNat_cond, BitVec.toNat_sub]
  by_cases h₁ : 0x80000000 ≤ x.toNat <;> by_cases h₂ : 0x80000000 ≤ y.toNat <;>
    by_cases h₃ : 0x80000000 ≤ (0x100000000 - y.toNat + x.toNat) % 0x100000000 <;>
    simp [h₁, h₂, h₃] <;> omega

theorem holds_unsigned :
    Cond.e.holds (subFlags x y) = some (x == y) ∧
    Cond.ne.holds (subFlags x y) = some (x != y) ∧
    Cond.b.holds (subFlags x y) = some (decide (x.toNat < y.toNat)) ∧
    Cond.be.holds (subFlags x y) = some (decide (x.toNat ≤ y.toNat)) ∧
    Cond.a.holds (subFlags x y) = some (decide (y.toNat < x.toNat)) ∧
    Cond.ae.holds (subFlags x y) = some (decide (y.toNat ≤ x.toNat)) := by
  have hbe : (decide (x.toNat < y.toNat) || x == y) = decide (x.toNat ≤ y.toNat) := by
    by_cases h : x = y
    · simp [h]
    · have hne : x.toNat ≠ y.toNat := fun heq => h (BitVec.eq_of_toNat_eq heq)
      rw [beq_eq_false_iff_ne.mpr h, Bool.or_false, decide_eq_decide]
      omega
  have hzero : (Flags.ofResult (x - y)).zero = some (x == y) := by
    rw [Flags.ofResult, sub_beq_zero]
  have hcarry : x.ult y = decide (x.toNat < y.toNat) := BitVec.ult_eq_decide
  refine ⟨hzero, ?_, ?_, ?_, ?_, ?_⟩
  · show (Flags.ofResult (x - y)).zero.map (!·) = _
    rw [hzero]
    rfl
  · exact congrArg some hcarry
  · show some (x.ult y || (x - y == 0)) = _
    rw [hcarry, sub_beq_zero, hbe]
  · show some (!(x.ult y || (x - y == 0))) = _
    rw [hcarry, sub_beq_zero, hbe, ← decide_not]
    simp only [Nat.not_le]
  · show some (!x.ult y) = _
    rw [hcarry, ← decide_not]
    simp only [Nat.not_lt]

theorem holds_signed :
    Cond.l.holds (subFlags x y) = some (decide (x.toInt < y.toInt)) ∧
    Cond.le.holds (subFlags x y) = some (decide (x.toInt ≤ y.toInt)) ∧
    Cond.g.holds (subFlags x y) = some (decide (y.toInt < x.toInt)) ∧
    Cond.ge.holds (subFlags x y) = some (decide (y.toInt ≤ x.toInt)) := by
  have hless := sign_bne_overflow x y
  have hle : (x == y || decide (x.toInt < y.toInt)) = decide (x.toInt ≤ y.toInt) := by
    by_cases h : x = y
    · simp [h]
    · have hne : x.toInt ≠ y.toInt := fun heq => h (BitVec.eq_of_toInt_eq heq)
      rw [beq_eq_false_iff_ne.mpr h, Bool.false_or, decide_eq_decide]
      omega
  have hbeq : ∀ a b : Bool, (a == b) = !(a != b) := by decide
  refine ⟨congrArg some hless, ?_, ?_, ?_⟩
  · show some (x - y == 0 || ((x - y).msb != (x.msb != y.msb && (x - y).msb != x.msb))) = _
    rw [sub_beq_zero, hless, hle]
  · show some (!(x - y == 0) && ((x - y).msb == (x.msb != y.msb && (x - y).msb != x.msb))) = _
    rw [hbeq, hless, sub_beq_zero, ← Bool.not_or, hle, ← decide_not]
    simp only [Int.not_le]
  · show some ((x - y).msb == (x.msb != y.msb && (x - y).msb != x.msb)) = _
    rw [hbeq, hless, ← decide_not]
    simp only [Int.not_lt]

/-- A cell is tested for zero by a conjunction with itself. -/
theorem holds_test_zero : Cond.e.holds (logicFlags (x &&& x)) = some (x == 0) := by
  rw [BitVec.and_self]
  rfl

end PawnNative.X64
