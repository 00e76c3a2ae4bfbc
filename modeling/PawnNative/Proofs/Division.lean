import Mathlib.Tactic.Common
import PawnNative.Proofs.Sites

/-! # Division

    The processor divides towards zero and traps on two inputs: a divisor of zero,
    and the smallest number divided by minus one, whose quotient has no 32-bit form.
    The bytecode divides to the floor. The code of its divisions takes both inputs
    out before the processor sees them, and then corrects quotient and remainder when
    the remainder has the wrong sign.
-/

namespace PawnNative

open X64 Convention Template

/-! ## Section 1: Quotients and remainders -/

/-- Signed division to the floor: the quotient is cut to a cell, and the remainder is zero or has
    the sign of the divisor. -/
structure Cell.Floors (a b q r : Cell) : Prop where
  quotient : q = BitVec.ofInt 32 (a.toInt.fdiv b.toInt)
  remainder : r.toInt = a.toInt - b.toInt * a.toInt.fdiv b.toInt
  sign : r = 0 ∨ r.msb = b.msb
  small : r.toInt.natAbs < b.toInt.natAbs

/-- Unsigned division. -/
structure Cell.Divides (a b q r : Cell) : Prop where
  quotient : q.toNat = a.toNat / b.toNat
  remainder : r.toNat = a.toNat % b.toNat

namespace Cell

variable {a b q r : Cell}

theorem toInt_ofInt {x : Int} (hlow : -0x80000000 ≤ x) (hhigh : x < 0x80000000) :
    (BitVec.ofInt 32 x : Cell).toInt = x := by
  rw [BitVec.toInt_ofInt]
  exact Int.bmod_eq_of_le (by omega) (by omega)

theorem toInt_eq_zero_iff : a.toInt = 0 ↔ a = 0 := by
  constructor
  · intro h
    exact BitVec.eq_of_toInt_eq (h.trans BitVec.toInt_zero.symm)
  · rintro rfl
    rfl

/-- What decides that a quotient is the floor: it fits the remainder, which is on the side of
    zero that the divisor is on. -/
theorem floors_of_eq {x y : Int} (hb : b ≠ 0) (hq : q = BitVec.ofInt 32 x)
    (hr : r = BitVec.ofInt 32 y)
    (hsum : y + b.toInt * x = a.toInt) (hpos : 0 < b.toInt → 0 ≤ y ∧ y < b.toInt)
    (hneg : b.toInt < 0 → b.toInt < y ∧ y ≤ 0) : a.Floors b q r := by
  have hne : b.toInt ≠ 0 := fun h => hb (toInt_eq_zero_iff.mp h)
  have hlow := BitVec.le_two_mul_toInt (x := b)
  have hhigh := BitVec.two_mul_toInt_lt (x := b)
  have hfloor : a.toInt.fdiv b.toInt = x ∧ a.toInt.fmod b.toInt = y := by
    rcases Int.lt_or_gt_of_ne hne with hlt | hgt
    · exact (Int.fdiv_fmod_unique' hlt).mpr ⟨hsum, hneg hlt⟩
    · exact (Int.fdiv_fmod_unique hgt).mpr ⟨hsum, hpos hgt⟩
  have hsmall : y.natAbs < b.toInt.natAbs := by omega
  have hy : r.toInt = y := by
    rw [hr]
    apply toInt_ofInt <;> omega
  refine ⟨by rw [hfloor.1, hq], by rw [hfloor.1, hy]; omega, ?_, by rw [hy]; exact hsmall⟩
  by_cases hzero : y = 0
  · exact Or.inl (toInt_eq_zero_iff.mp (hy.trans hzero))
  · refine Or.inr ?_
    rw [BitVec.msb_eq_toInt, BitVec.msb_eq_toInt, hy, decide_eq_decide]
    omega

/-- A division by minus one negates, and leaves no remainder. -/
theorem floors_neg_one (a : Cell) : a.Floors (-1) (-a) 0 := by
  have hone : (-1 : Cell).toInt = -1 := rfl
  refine floors_of_eq (x := -a.toInt) (y := 0) (by decide) ?_ rfl ?_ ?_ ?_
  · rw [BitVec.ofInt_neg, BitVec.ofInt_toInt]
  all_goals
    rw [hone]
    omega

/-- The remainder of a division towards zero is smaller than the divisor and on
    the side of the dividend. -/
theorem tmod_bounds (x : Int) {y : Int} (hy : y ≠ 0) :
    (x.tmod y).natAbs < y.natAbs ∧ (0 ≤ x → 0 ≤ x.tmod y) ∧ (x ≤ 0 → x.tmod y ≤ 0) := by
  refine ⟨?_, Int.tmod_nonneg y, ?_⟩
  · rw [Int.natAbs_tmod]
    exact Nat.mod_lt _ (Int.natAbs_pos.mpr hy)
  · intro hx
    have hneg := Int.tmod_nonneg y (Int.neg_nonneg_of_nonpos hx)
    rw [Int.neg_tmod] at hneg
    omega

/-- A quotient towards zero is no larger than the dividend, unless the divisor is one or minus
    one. -/
theorem tdiv_bounds (x : Int) {y : Int} (hy : y ≠ 0) (hone : y ≠ -1) (hlow : -0x80000000 ≤ x)
    (hhigh : x < 0x80000000) : -0x80000000 ≤ x.tdiv y ∧ x.tdiv y < 0x80000000 := by
  have habs : (x.tdiv y).natAbs = x.natAbs / y.natAbs := Int.natAbs_tdiv x y
  have hle : x.natAbs / y.natAbs ≤ x.natAbs := Nat.div_le_self _ _
  by_cases hunit : y = 1
  · rw [hunit, Int.tdiv_one]
    exact ⟨hlow, hhigh⟩
  · have hhalf : x.natAbs / y.natAbs ≤ x.natAbs / 2 := Nat.div_le_div_left (by omega) (by decide)
    omega

end Cell

/-! ## Section 2: The code of divisions -/

/-- A division of the bytecode. -/
structure Division where
  signed : Bool
  /-- Whether the dividend is in the alternate register, and the divisor in the primary one. -/
  swapped : Bool
  deriving DecidableEq, Repr

/-- The division that an instruction makes. -/
def Opcode.division? : Opcode → Option Division
  | .sdiv => some ⟨true, false⟩
  | .sdivAlt => some ⟨true, true⟩
  | .udiv => some ⟨false, false⟩
  | .udivAlt => some ⟨false, true⟩
  | _ => none

namespace Division

variable (d : Division)

def dividend (m : Machine) : Cell := m.reg32 (if d.swapped then alt else pri)

def divisor (m : Machine) : Cell := m.reg32 (if d.swapped then pri else alt)

/-- What a quotient and a remainder have to be. -/
def Holds (a b q r : Cell) : Prop := if d.signed then a.Floors b q r else a.Divides b q r

def lines : List Line := if d.signed then divideSigned d.swapped else divideUnsigned d.swapped

theorem template_eq {ctx : Context} {i : Instruction} (h : i.opcode.division? = some d) :
    template ctx i = .ok d.lines := by
  unfold template
  cases hop : i.opcode <;> rw [hop] at h <;> cases h <;> rfl

end Division

def dividing : List Reg := [pri, alt, tmp0, tmp1]

/-- A machine has divided one cell by another one. -/
structure Machine.Divided (m : Machine) (d : Division) (a b : Cell) (m' : Machine) : Prop where
  becomes : Machine.Becomes dividing m.host m m'
  result : ∃ q r : Cell, m'.reg pri = q.setWidth 64 ∧ m'.reg alt = r.setWidth 64 ∧ d.Holds a b q r

section
variable {m : Machine} {a b : Cell}

/-- Dividend and divisor come to the registers that the rest of the code has them in. -/
theorem comes_exchange (d : Division) (m : Machine) : Comes (exchange d.swapped) m none fun m' =>
    Machine.Becomes dividing m.host m m' ∧ m'.reg32 pri = d.dividend m ∧
      m'.reg32 alt = d.divisor m := by
  obtain ⟨signed, swapped⟩ := d
  cases swapped with
  | false => exact .nil ⟨.refl _ m, rfl, rfl⟩
  | true =>
    refine .instr rfl rfl (.nil ⟨?_, ?_, ?_⟩)
    · exact ((Machine.Becomes.refl dividing m).setReg (by decide) _).setReg (by decide) _
    · exact m.reg32_setReg32_self pri (m.reg32 alt)
    · exact (m.setReg32 pri (m.reg32 alt)).reg32_setReg32_self alt (m.reg32 pri)

theorem comes_checkDivisor_zero (h : m.reg32 alt = 0) :
    Comes checkDivisor m (some (.stub (.fault .divide))) fun m' =>
    Machine.Becomes dividing m.host m m' := by
  refine .instr rfl rfl (.taken ?_ ((Machine.Becomes.refl _ m).setFlags _))
  refine (holds_test_zero (m.reg32 alt)).trans ?_
  rw [h]
  rfl

theorem comes_checkDivisor (h : m.reg32 alt ≠ 0) : Comes checkDivisor m none fun m' =>
    Machine.Becomes dividing m.host m m' ∧ m'.reg32 pri = m.reg32 pri ∧
      m'.reg32 alt = m.reg32 alt := by
  refine .instr rfl rfl (.pass ?_ (.nil ⟨(Machine.Becomes.refl _ m).setFlags _, rfl, rfl⟩))
  refine (holds_test_zero (m.reg32 alt)).trans ?_
  rw [beq_eq_false_iff_ne.mpr h]

def towardsZeroLines : List Line := [.op .cdq, .op (.idiv alt)]

/-- Compares the signs of remainder and divisor. -/
def signLines : List Line := [.op (.movRR .d tmp1 tmp0), .op (.aluRR .xor .d tmp1 alt)]

/-- Takes one from the quotient, and adds the divisor to the remainder. -/
def lowerLines : List Line := [.op (.aluRI .sub .d pri 1), .op (.aluRR .add .d tmp0 alt)]

/-- The correction of a quotient and a remainder towards zero. -/
def correctLines : List Line :=
  [.op (.test .d tmp0 tmp0), .jcc .e (.mark 1)] ++
    (signLines ++ (.jcc .ns (.mark 1) :: (lowerLines ++
    [.place (.mark 1), .op (.movRR .d alt tmp0)])))

/-- What follows the check in a signed division. -/
def floorLines : List Line :=
  .op (.aluRI .cmp .d alt (-1)) :: .jcc .ne (.mark 0) ::
    ([.op (.neg pri), .op (.aluRR .xor .d alt alt), .jmp (.mark 2)] ++ .place (.mark 0) ::
      ((towardsZeroLines ++ correctLines) ++ [.place (.mark 2)]))

/-- What follows it in an unsigned one. -/
def quotientLines : List Line :=
  [.op (.aluRR .xor .d tmp0 tmp0), .op (.div alt), .op (.movRR .d alt tmp0)]

theorem Division.lines_eq (d : Division) : d.lines = exchange d.swapped ++ (checkDivisor ++
    if d.signed then floorLines else quotientLines) := by
  obtain ⟨signed, swapped⟩ := d
  cases signed <;> cases swapped <;> rfl

theorem comes_signs (m : Machine) : Comes signLines m none fun m' =>
    Machine.Becomes [tmp1] m.host m m' ∧
      Cond.holds m'.flags .ns = some (!((m.reg32 tmp0).msb ^^ (m.reg32 alt).msb)) := by
  refine .instr rfl rfl (.instr rfl rfl (.nil ⟨?_, ?_⟩))
  · exact (((Machine.Becomes.refl [tmp1] m).setReg (by decide) _).setFlags _).setReg (by decide) _
  · have hcopy : (m.setReg32 tmp1 (m.reg32 tmp0)).reg32 tmp1 = m.reg32 tmp0 :=
      m.reg32_setReg32_self _ _
    show some (!((m.setReg32 tmp1 (m.reg32 tmp0)).reg32 tmp1 ^^^ m.reg32 alt).msb) = _
    rw [hcopy, BitVec.msb_xor]

theorem comes_lower (m : Machine) : Comes lowerLines m none fun m' =>
    Machine.Becomes dividing m.host m m' ∧ m'.reg pri = (m.reg32 pri - 1).setWidth 64 ∧
      m'.reg32 tmp0 = m.reg32 tmp0 + m.reg32 alt := by
  refine .instr rfl rfl (.instr rfl rfl (.nil ⟨?_, rfl, Machine.reg32_setReg32_self _ _ _⟩))
  exact ((((Machine.Becomes.refl dividing m).setFlags _).setReg (by decide) _).setFlags _).setReg
    (by decide) _

variable {m₀ : Machine} {q r : Cell} {swapped : Bool}

theorem comes_remainder (hm : Machine.Becomes dividing m₀.host m₀ m)
    (hq : m.reg pri = q.setWidth 64) (hr : m.reg32 tmp0 = r) (h : a.Floors b q r) :
    Comes [.op (.movRR .d alt tmp0)] m none (m₀.Divided ⟨true, swapped⟩ a b) := by
  refine .instr rfl rfl (.nil ⟨hm.setReg (by decide) _, q, r, hq, ?_, h⟩)
  rw [← hr]
  rfl

/-- Where the processor has divided towards zero, the correction makes it a division to the
    floor: the quotient is one less, and the remainder one divisor more, if the signs of
    remainder and divisor differ. -/
theorem comes_correct (hm : Machine.Becomes dividing m₀.host m₀ m) (hb : b ≠ 0)
    (hq : m.reg pri = (BitVec.ofInt 32 (a.toInt.tdiv b.toInt)).setWidth 64)
    (hr : m.reg32 tmp0 = BitVec.ofInt 32 (a.toInt.tmod b.toInt)) (halt : m.reg32 alt = b) :
    Comes correctLines m none (m₀.Divided ⟨true, swapped⟩ a b) := by
  have hne : b.toInt ≠ 0 := fun h => hb (Cell.toInt_eq_zero_iff.mp h)
  obtain ⟨hsmall, -, -⟩ := Cell.tmod_bounds a.toInt hne
  have hsum := Int.mul_tdiv_add_tmod a.toInt b.toInt
  have hrest : (m.reg32 tmp0).toInt = a.toInt.tmod b.toInt := by
    have hlow := BitVec.le_two_mul_toInt (x := b)
    have hhigh := BitVec.two_mul_toInt_lt (x := b)
    rw [hr]
    apply Cell.toInt_ofInt <;> omega
  refine .instr rfl rfl ?_
  by_cases hzero : m.reg32 tmp0 = 0
  · -- Without a remainder the quotient is the floor already.
    have hmod : a.toInt.tmod b.toInt = 0 := hrest.symm.trans (Cell.toInt_eq_zero_iff.mpr hzero)
    refine .forward_jcc (signLines ++ .jcc .ns (.mark 1) :: lowerLines)
      ((holds_test_zero _).trans ?_) ?_
    · rw [hzero]
      rfl
    · refine comes_remainder (hm.setFlags _) hq hr ?_
      exact Cell.floors_of_eq hb rfl rfl (by omega) (by omega) (by omega)
  have hmod : a.toInt.tmod b.toInt ≠ 0 := fun h => hzero (Cell.toInt_eq_zero_iff.mp (hrest.trans h))
  refine .pass ((holds_test_zero _).trans (by rw [beq_eq_false_iff_ne.mpr hzero])) ?_
  refine (comes_signs _).append ?_
  rintro m₁ ⟨hm₁, hsign⟩
  have hbecomes : Machine.Becomes dividing m₀.host m₀ m₁ :=
    (hm.setFlags _).follow (hm₁.mono (by decide))
  have hq₁ : m₁.reg pri = _ := (hm₁.regs pri (by decide)).trans hq
  have hr₁ : m₁.reg32 tmp0 = _ := (congrArg _ (hm₁.regs tmp0 (by decide))).trans hr
  have halt₁ : m₁.reg32 alt = b := (congrArg _ (hm₁.regs alt (by decide))).trans halt
  have hflags : Cond.holds m₁.flags .ns =
      some (!(decide (a.toInt.tmod b.toInt < 0) ^^ decide (b.toInt < 0))) := by
    rw [← hrest, ← halt, ← BitVec.msb_eq_toInt, ← BitVec.msb_eq_toInt]
    exact hsign
  by_cases hsame : decide (a.toInt.tmod b.toInt < 0) = decide (b.toInt < 0)
  · -- The remainder has the sign of the divisor.
    rw [hsame, Bool.xor_self] at hflags
    refine .forward_jcc lowerLines hflags (comes_remainder hbecomes hq₁ hr₁ ?_)
    rw [decide_eq_decide] at hsame
    exact Cell.floors_of_eq hb rfl rfl (by omega) (by omega) (by omega)
  · rw [Bool.eq_not.mpr hsame, Bool.not_xor_self] at hflags
    refine .pass hflags ((comes_lower _).append ?_)
    rintro m₂ ⟨hm₂, hq₂, hr₂⟩
    have hless : m₁.reg32 pri - 1 = BitVec.ofInt 32 (a.toInt.tdiv b.toInt - 1) := by
      rw [Machine.reg32_eq hq₁, BitVec.sub_eq_add_neg, Int.sub_eq_add_neg, BitVec.ofInt_add]
      rfl
    have hmore : m₁.reg32 tmp0 + m₁.reg32 alt =
        BitVec.ofInt 32 (a.toInt.tmod b.toInt + b.toInt) := by
      rw [hr₁, halt₁, BitVec.ofInt_add, BitVec.ofInt_toInt]
    refine .place (comes_remainder (hbecomes.follow hm₂) hq₂ hr₂ ?_)
    refine Cell.floors_of_eq hb hless hmore ?_ ?_ ?_
    · rw [Int.mul_sub]
      omega
    all_goals
      rw [decide_eq_decide] at hsame
      omega

theorem toInt_cdq (x : Cell) :
    ((if x.msb then -1 else 0 : Cell) ++ x : BitVec 64).toInt = x.toInt := by
  have hx := BitVec.toInt_eq_msb_cond x
  rw [BitVec.toInt_append, if_neg (by decide)]
  by_cases hneg : x.msb
  · rw [if_pos hneg] at hx ⊢
    show 2 ^ 32 * (-1 : Int) + _ = _
    omega
  · rw [if_neg hneg] at hx ⊢
    show 2 ^ 32 * (0 : Int) + _ = _
    omega

theorem Machine.divideSigned_eq {m : Machine} {y : Cell} {x : Int}
    (hx : (m.reg32 .rdx ++ m.reg32 .rax : BitVec 64).toInt = x)
    (hfits : ¬(y = 0 ∨ x.tdiv y.toInt < -0x80000000 ∨ 0x80000000 ≤ x.tdiv y.toInt)) :
    m.divideSigned y =
      .ok (((m.setFlags {}).setReg32 .rax (BitVec.ofInt 32 (x.tdiv y.toInt))).setReg32 .rdx
      (BitVec.ofInt 32 (x.tmod y.toInt))) := by
  unfold Machine.divideSigned
  simp only [hx]
  rw [if_neg hfits]

/-- **No trap.** With a divisor other than zero and minus one the quotient has a 32-bit form. -/
theorem comes_divide (hb : m.reg32 alt ≠ 0) (hone : m.reg32 alt ≠ -1) :
    Comes towardsZeroLines m none fun m' => Machine.Becomes dividing m.host m m' ∧
      m'.reg pri = (BitVec.ofInt 32 ((m.reg32 pri).toInt.tdiv (m.reg32 alt).toInt)).setWidth 64 ∧
      m'.reg32 tmp0 = BitVec.ofInt 32 ((m.reg32 pri).toInt.tmod (m.reg32 alt).toInt) ∧
      m'.reg32 alt = m.reg32 alt := by
  have hlow := BitVec.le_two_mul_toInt (x := m.reg32 pri)
  have hhigh := BitVec.two_mul_toInt_lt (x := m.reg32 pri)
  have hbounds := Cell.tdiv_bounds (m.reg32 pri).toInt
    (fun h => hb (Cell.toInt_eq_zero_iff.mp h))
    (fun h => hone (BitVec.eq_of_toInt_eq h)) (by omega) (by omega)
  obtain ⟨m₁, hm₁⟩ : ∃ m₁, m₁ = m.setReg32 .rdx (if (m.reg32 .rax).msb then -1 else 0) := ⟨_, rfl⟩
  have hextend : ∀ x, (m.jumpTo x).exec .cdq = .ok (m₁.jumpTo x) := fun x => by
    rw [hm₁]
    rfl
  have hbecomes : Machine.Becomes dividing m.host m m₁ := by
    rw [hm₁]
    exact (Machine.Becomes.refl dividing m).setReg (by decide) _
  have halt : m₁.reg32 alt = m.reg32 alt := by
    rw [hm₁]
    rfl
  have hx : (m₁.reg32 .rdx ++ m₁.reg32 .rax : BitVec 64).toInt = (m.reg32 pri).toInt := by
    rw [hm₁, Machine.reg32_setReg32_self]
    exact toInt_cdq (m.reg32 pri)
  have hfits : ¬(m.reg32 alt = 0 ∨ (m.reg32 pri).toInt.tdiv (m.reg32 alt).toInt < -0x80000000 ∨
      0x80000000 ≤ (m.reg32 pri).toInt.tdiv (m.reg32 alt).toInt) := by
    rintro (hzero | hbelow | habove)
    · exact hb hzero
    · exact absurd hbounds.1 (Int.not_le.mpr hbelow)
    · exact absurd hbounds.2 (Int.not_lt.mpr habove)
  have hdivide : ∀ x, (m₁.jumpTo x).exec (.idiv alt) =
      .ok ((((m₁.setFlags {}).setReg32 .rax (BitVec.ofInt 32
      ((m.reg32 pri).toInt.tdiv (m.reg32 alt).toInt))).setReg32 .rdx
        (BitVec.ofInt 32 ((m.reg32 pri).toInt.tmod (m.reg32 alt).toInt))).jumpTo x) := by
    intro x
    show (m₁.jumpTo x).divideSigned (m₁.reg32 alt) = _
    rw [halt]
    exact Machine.divideSigned_eq hx hfits
  refine .op hextend hbecomes.layout (.op hdivide rfl (.nil ⟨?_, rfl, ?_, halt⟩))
  · exact ((hbecomes.setFlags _).setReg (by decide) _).setReg (by decide) _
  · exact Machine.reg32_setReg32_self _ _ _

/-- The code for a divisor of minus one, which goes around the rest. -/
theorem comes_negate (m : Machine) (ls : List Line) :
    Comes (.op (.neg pri) :: .op (.aluRR .xor .d alt alt) :: .jmp
      (.mark 2) :: (ls ++ [.place (.mark 2)])) m none
      fun m' => Machine.Becomes dividing m.host m m' ∧ m'.reg pri = (-m.reg32 pri).setWidth 64 ∧
        m'.reg alt = (0 : Cell).setWidth 64 := by
  refine .instr rfl rfl (.instr rfl rfl (.forward_jmp ls (.nil ⟨?_, rfl, ?_⟩)))
  · exact ((((Machine.Becomes.refl dividing m).setFlags _).setReg (by decide) _).setFlags _).setReg
      (by decide) _
  · show (m.reg32 alt ^^^ m.reg32 alt).setWidth 64 = _
    rw [BitVec.xor_self]
    rfl

/-- A signed division to the floor, for every divisor that is not zero. -/
theorem comes_floor (hm : Machine.Becomes dividing m₀.host m₀ m) (hb : m.reg32 alt ≠ 0) :
    Comes floorLines m none (m₀.Divided ⟨true, swapped⟩ (m.reg32 pri) (m.reg32 alt)) := by
  have hflags : Cond.holds (subFlags (m.reg32 alt) (-1)) .ne = some (m.reg32 alt != -1) :=
    (holds_unsigned _ _).2.1
  refine .instr rfl rfl ?_
  by_cases hone : m.reg32 alt = -1
  · -- The smallest number would trap here, so nothing is divided.
    have hpass : Cond.holds (subFlags (m.reg32 alt) (-1)) .ne = some false := by
      rw [hflags, hone]
      rfl
    have hnegate :=
      comes_negate (m.alu32 .cmp alt (-1)) (.place (.mark 0) :: (towardsZeroLines ++ correctLines))
    refine .pass hpass (hnegate.mono ?_)
    rintro m₁ ⟨hm₁, hq, hr⟩
    refine ⟨(hm.setFlags _).follow hm₁, _, _, hq, hr, ?_⟩
    rw [hone]
    exact Cell.floors_neg_one _
  · have htaken : Cond.holds (subFlags (m.reg32 alt) (-1)) .ne = some true := by
      rw [hflags, bne_iff_ne.mpr hone]
    refine .forward_jcc _ htaken ?_
    refine .append (.append (comes_divide hb hone) ?_) fun _ h => .place (.nil h)
    rintro m₁ ⟨hm₁, hq, hr, halt⟩
    exact comes_correct ((hm.setFlags _).follow hm₁) hb hq hr halt

theorem Machine.divide_eq {m : Machine} {y : Cell} {x : Nat}
    (hx : (m.reg32 .rdx).toNat * 0x100000000 + (m.reg32 .rax).toNat = x)
    (hfits : ¬(y = 0 ∨ 0x100000000 ≤ x / y.toNat)) :
    m.divide y = .ok (((m.setFlags {}).setReg32 .rax (BitVec.ofNat 32 (x / y.toNat))).setReg32 .rdx
      (BitVec.ofNat 32 (x % y.toNat))) := by
  unfold Machine.divide
  simp only [hx]
  rw [if_neg hfits]

/-- An unsigned division, which a divisor other than zero never makes trap. -/
theorem comes_quotient (hm : Machine.Becomes dividing m₀.host m₀ m) (hb : m.reg32 alt ≠ 0) :
    Comes quotientLines m none (m₀.Divided ⟨false, swapped⟩ (m.reg32 pri) (m.reg32 alt)) := by
  obtain ⟨m₁, hm₁⟩ : ∃ m₁, m₁ = m.alu32 .xor tmp0 (m.reg32 tmp0) := ⟨_, rfl⟩
  have hclear : m.exec (.aluRR .xor .d tmp0 tmp0) = .ok m₁ := by
    rw [hm₁]
    rfl
  have hbecomes : Machine.Becomes dividing m₀.host m₀ m₁ := by
    rw [hm₁]
    exact (hm.setFlags _).setReg (by decide) _
  have halt : m₁.reg32 alt = m.reg32 alt := by
    rw [hm₁]
    rfl
  -- The upper half of the dividend is zero.
  have hx : (m₁.reg32 .rdx).toNat * 0x100000000 + (m₁.reg32 .rax).toNat = (m.reg32 pri).toNat := by
    have hzero : m₁.reg32 .rdx = 0#32 := by
      rw [hm₁]
      exact (Machine.reg32_setReg32_self _ tmp0 _).trans BitVec.xor_self
    rw [hzero, BitVec.toNat_zero, Nat.zero_mul, Nat.zero_add, hm₁]
    rfl
  have hpos : 0 < (m.reg32 alt).toNat := by
    rw [Nat.pos_iff_ne_zero]
    exact fun h => hb (BitVec.eq_of_toNat_eq h)
  have hlt := (m.reg32 pri).isLt
  have hfits : ¬(m.reg32 alt = 0 ∨ 0x100000000 ≤ (m.reg32 pri).toNat / (m.reg32 alt).toNat) := by
    rintro (hzero | habove)
    · exact hb hzero
    · have hle := Nat.div_le_self (m.reg32 pri).toNat (m.reg32 alt).toNat
      omega
  have hdivide : ∀ x, (m₁.jumpTo x).exec (.div alt) =
      .ok ((((m₁.setFlags {}).setReg32 .rax (BitVec.ofNat 32
      ((m.reg32 pri).toNat / (m.reg32 alt).toNat))).setReg32 .rdx
        (BitVec.ofNat 32 ((m.reg32 pri).toNat % (m.reg32 alt).toNat))).jumpTo x) := by
    intro x
    show (m₁.jumpTo x).divide (m₁.reg32 alt) = _
    rw [halt]
    exact Machine.divide_eq hx hfits
  have hrest : (m.reg32 pri).toNat % (m.reg32 alt).toNat < 2 ^ 32 :=
    Nat.lt_trans (Nat.mod_lt _ hpos) (m.reg32 alt).isLt
  refine .instr rfl hclear (.op hdivide rfl (.instr rfl rfl (.nil ⟨?_,
    BitVec.ofNat 32 ((m.reg32 pri).toNat / (m.reg32 alt).toNat),
    BitVec.ofNat 32 ((m.reg32 pri).toNat % (m.reg32 alt).toNat), rfl, ?_, ?_⟩)))
  · exact (((hbecomes.setFlags _).setReg (by decide) _).setReg (by decide) _).setReg (by decide) _
  · exact congrArg (BitVec.setWidth 64) (Machine.reg32_setReg32_self _ .rdx _)
  · refine ⟨?_, ?_⟩
    · rw [BitVec.toNat_ofNat]
      exact Nat.mod_eq_of_lt (Nat.lt_of_le_of_lt (Nat.div_le_self _ _) hlt)
    · rw [BitVec.toNat_ofNat]
      exact Nat.mod_eq_of_lt hrest

end

namespace Division

variable (d : Division) {m : Machine}

theorem comes_fault (h : d.divisor m = 0) :
    Comes d.lines m (some (.stub (.fault .divide))) fun m' =>
    Machine.Becomes dividing m.host m m' := by
  rw [d.lines_eq]
  refine (comes_exchange d m).append ?_
  rintro m₁ ⟨hm₁, -, halt⟩
  exact ((comes_checkDivisor_zero (halt.trans h)).mono fun _ hm₂ => hm₁.follow hm₂).branch _

theorem comes_divided (h : d.divisor m ≠ 0) :
    Comes d.lines m none (m.Divided d (d.dividend m) (d.divisor m)) := by
  rw [d.lines_eq]
  refine (comes_exchange d m).append ?_
  rintro m₁ ⟨hm₁, hpri₁, halt₁⟩
  rw [← halt₁] at h
  refine (comes_checkDivisor h).append ?_
  rintro m₂ ⟨hm₂, hpri₂, halt₂⟩
  rw [← halt₂] at h
  rw [← hpri₁, ← hpri₂, ← halt₁, ← halt₂]
  obtain ⟨signed, swapped⟩ := d
  cases signed with
  | true => exact comes_floor (hm₁.follow hm₂) h
  | false => exact comes_quotient (hm₁.follow hm₂) h

end Division

/-! ## Section 3: Divisions of a program -/

/-- **Division.** A run is at an instruction that divides, in whatever state. If the divisor is
    zero it halts with the fault for that. Otherwise it advances to the next instruction, so the
    processor has not trapped: quotient and remainder are in the primary and the alternate
    register, and no memory and no other register of the abstract machine has changed. Signed
    division is to the floor. -/
theorem division_is_floored_and_total {env : Environment} {config : Config} {vm₀ : Instance}
    {a : Activation} {rets : List Word} {i : Instruction} {after : List Instruction} {m : Machine}
    {d : Division} (h : env.AtInstruction config vm₀ a rets i after m)
    (hd : i.opcode.division? = some d) : (d.divisor m = 0 → env.Halts a .divide m) ∧
    (d.divisor m ≠ 0 → ∃ m', env.Advances after m m' ∧
      m.Divided d (d.dividend m) (d.divisor m) m') := by
  constructor
  · intro hzero
    refine h.halts (show ∀ r ∈ stk :: frm :: Instr.owned, r ∉ dividing by decide) fun ls hls => ?_
    obtain rfl : d.lines = ls := Except.ok.inj ((d.template_eq hd).symm.trans hls)
    exact d.comes_fault hzero
  · intro hne
    obtain ⟨m', x, hdivided, hadvances⟩ := h.advances (m.Divided d (d.dividend m) (d.divisor m))
      (fun ls hls => by
        obtain rfl : d.lines = ls := Except.ok.inj ((d.template_eq hd).symm.trans hls)
        exact d.comes_divided hne) fun m' hm' => hm'.becomes.layout
    obtain ⟨q, r, hq, hr, hholds⟩ := hdivided.result
    exact ⟨_, hadvances, hdivided.becomes.jumpTo x, q, r, hq, hr, hholds⟩

/-- The smallest number divided by minus one is the smallest number again, without a remainder. -/
theorem smallest_number_divided_by_minus_one :
    ∃ (p : Program) (a : Activation) (rets : List Word) (m m' : Machine),
      Environment.AtInstruction ⟨.standard, p⟩ {} siteInstance a rets ⟨0, .sdiv, []⟩
        (siteListing.drop 1) m ∧
      m.reg32 pri = 0x80000000 ∧ m.reg32 alt = -1 ∧
      Environment.Advances ⟨.standard, p⟩ (siteListing.drop 1) m m' ∧
      m'.reg32 pri = 0x80000000 ∧ m'.reg32 alt = 0 := by
  obtain ⟨p, a, rets, m, hat, hpri, halt, -⟩ := atInstruction_callAt 0x80000000 (-1) load_siteImage
    (show Decodes siteInstance.code 0 ([] ++ _ :: siteListing.drop 1) none from decodes_siteListing)
      (by decide +kernel)
    (by decide) (by decide +kernel)
  have hpri : m.reg32 pri = 0x80000000 := Machine.reg32_eq hpri
  have halt : m.reg32 alt = -1 := Machine.reg32_eq halt
  have hne : Division.divisor ⟨true, false⟩ m ≠ 0 :=
    fun hzero => absurd (halt.symm.trans hzero) (by decide)
  obtain ⟨m', hadvances, -, q, r, hq, hr, hfloors⟩ := (division_is_floored_and_total hat rfl).2 hne
  have hfloors : Cell.Floors (m.reg32 pri) (m.reg32 alt) q r := hfloors
  rw [hpri, halt] at hfloors
  refine ⟨p, a, rets, m, m', hat, hpri, halt, hadvances, ?_, ?_⟩
  · rw [Machine.reg32_eq hq, hfloors.quotient]
    decide
  · rw [Machine.reg32_eq hr]
    refine Cell.toInt_eq_zero_iff.mp (hfloors.remainder.trans ?_)
    decide

end PawnNative
