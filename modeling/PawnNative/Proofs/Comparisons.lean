import Mathlib.Tactic.Common
import PawnNative.Proofs.Limits

/-! # Comparisons and conditional jumps

    There are ten ways to compare two cells, and for each of them two instructions:
    one that puts the answer into the primary register, and one that jumps. What they
    compare are numbers, without a sign or with one. Compiled code has the answer from
    the flags of a subtraction, and the two instructions are compiled apart from each
    other; the statement is that both follow the numbers, and so agree.

    Two more jumps look at the primary register alone, and BOUNDS halts where that
    register is above a limit.
-/

namespace PawnNative

open X64 Convention Template

/-! ## Section 1: The rules -/

/-- A way to compare two cells. -/
inductive Comparison where
  | eq | neq | less | leq | grtr | geq | sless | sleq | sgrtr | sgeq
  deriving DecidableEq, Repr

namespace Comparison

/-- **Rule.** What is compared are the numbers that the cells are, without a sign or with one. -/
def Holds (x y : Cell) : Comparison → Prop
  | .eq => x.toNat = y.toNat
  | .neq => x.toNat ≠ y.toNat
  | .less => x.toNat < y.toNat
  | .leq => x.toNat ≤ y.toNat
  | .grtr => y.toNat < x.toNat
  | .geq => y.toNat ≤ x.toNat
  | .sless => x.toInt < y.toInt
  | .sleq => x.toInt ≤ y.toInt
  | .sgrtr => y.toInt < x.toInt
  | .sgeq => y.toInt ≤ x.toInt

instance (x y : Cell) : (r : Comparison) → Decidable (r.Holds x y)
  | .eq => inferInstanceAs (Decidable (_ = _))
  | .neq => inferInstanceAs (Decidable (_ ≠ _))
  | .less | .grtr | .sless | .sgrtr => inferInstanceAs (Decidable (_ < _))
  | .leq | .geq | .sleq | .sgeq => inferInstanceAs (Decidable (_ ≤ _))

/-- The cell that says whether two cells compare so. -/
def answer (r : Comparison) (x y : Cell) : Cell := .ofBool (r.Holds x y)

theorem answer_eq_one_iff (r : Comparison) (x y : Cell) : r.answer x y = 1 ↔ r.Holds x y := by
  by_cases h : r.Holds x y <;> simp [answer, Cell.ofBool, h]

def opcode : Comparison → Opcode
  | .eq => .eq
  | .neq => .neq
  | .less => .less
  | .leq => .leq
  | .grtr => .grtr
  | .geq => .geq
  | .sless => .sless
  | .sleq => .sleq
  | .sgrtr => .sgrtr
  | .sgeq => .sgeq

def jump : Comparison → Opcode
  | .eq => .jeq
  | .neq => .jneq
  | .less => .jless
  | .leq => .jleq
  | .grtr => .jgrtr
  | .geq => .jgeq
  | .sless => .jsless
  | .sleq => .jsleq
  | .sgrtr => .jsgrtr
  | .sgeq => .jsgeq

def cond : Comparison → Cond
  | .eq => .e
  | .neq => .ne
  | .less => .b
  | .leq => .be
  | .grtr => .a
  | .geq => .ae
  | .sless => .l
  | .sleq => .le
  | .sgrtr => .g
  | .sgeq => .ge

/-- After a subtraction the condition holds exactly when the numbers compare so. -/
theorem holds_cond (r : Comparison) (x y : Cell) :
    r.cond.holds (subFlags x y) = some (decide (r.Holds x y)) := by
  obtain ⟨heq, hne, hb, hbe, ha, hae⟩ := holds_unsigned x y
  obtain ⟨hl, hle, hg, hge⟩ := holds_signed x y
  have hiff : x = y ↔ x.toNat = y.toNat := BitVec.toNat_eq
  cases r with
  | eq =>
    exact heq.trans
      (congrArg some (Bool.eq_iff_iff.mpr (by rw [beq_iff_eq, decide_eq_true_iff, hiff]; rfl)))
  | neq =>
    exact hne.trans
      (congrArg some (Bool.eq_iff_iff.mpr (by rw [bne_iff_ne, decide_eq_true_iff, Ne, hiff]; rfl)))
  | less => exact hb
  | leq => exact hbe
  | grtr => exact ha
  | geq => exact hae
  | sless => exact hl
  | sleq => exact hle
  | sgrtr => exact hg
  | sgeq => exact hge

end Comparison

/-! ## Section 2: The code -/

section
variable {ctx : Context} {i : Instruction} {ls : List Line}

variable (h : template ctx i = .ok ls)
include h

theorem Comparison.template_opcode (r : Comparison) (hop : i.opcode = r.opcode) :
    ls = compareAlt r.cond := by
  unfold template at h
  rw [hop] at h
  cases r <;> exact (Except.ok.inj h).symm

theorem Comparison.template_jump (r : Comparison) (hop : i.opcode = r.jump) :
    ls = jumpCompared r.cond i.arg := by
  unfold template at h
  rw [hop] at h
  cases r <;> exact Context.eq_of_bind_target h

end

section
variable (m : Machine)

/-- A condition decides whether a machine jumps, and nothing but the flags changes. -/
theorem comes_jcc {c : Cond} {t : Target} {f : Flags} {p : Prop} [Decidable p]
    (hc : c.holds f = some (decide p)) :
    Comes [.jcc c t] (m.setFlags f) (if p then some t else none) (Machine.Becomes [] m.host m) :=
  have hbecomes := (Machine.Becomes.refl [] m).setFlags f
  .either hc hbecomes (.nil hbecomes)

theorem comes_jumpCompared (r : Comparison) (t : Cell) :
    Comes (jumpCompared r.cond t) m
      (if r.Holds (m.reg32 pri) (m.reg32 alt) then some (.code t) else none)
        (Machine.Becomes [] m.host m) :=
  .instr rfl rfl (comes_jcc m (r.holds_cond _ _))

theorem comes_jumpTested (t : Cell) :
    Comes (jumpTested .e t) m (if (m.reg32 pri).toNat = 0 then some (.code t) else none)
      (Machine.Becomes [] m.host m) ∧
    Comes (jumpTested .ne t) m (if (m.reg32 pri).toNat ≠ 0 then some (.code t) else none)
      (Machine.Becomes [] m.host m) := by
  have hiff : m.reg32 pri = 0#32 ↔ (m.reg32 pri).toNat = 0 := BitVec.toNat_eq
  have hzero : Cond.e.holds (logicFlags (m.reg32 pri &&& m.reg32 pri)) =
      some (decide ((m.reg32 pri).toNat = 0)) := by
    rw [holds_test_zero]
    simp [beq_eq_decide, hiff]
  refine ⟨.instr rfl rfl (comes_jcc m hzero), .instr rfl rfl (comes_jcc m ?_)⟩
  exact (congrArg (Option.map (!·)) hzero).trans (congrArg some decide_not.symm)

theorem comes_checkBounds (limit : Cell) :
    Comes (checkBounds limit) m
      (if limit.toNat < (m.reg32 pri).toNat then some (.stub (.fault .bounds)) else none)
      (Machine.Becomes [] m.host m) :=
  .instr rfl rfl (comes_jcc m (holds_unsigned _ _).2.2.2.2.1)

/-- The answer is all that is left of the primary register. -/
theorem comes_compareAlt (r : Comparison) : Comes (compareAlt r.cond) m none fun m' =>
    Machine.Becomes [pri] m.host m m' ∧
      m'.reg pri = (r.answer (m.reg32 pri) (m.reg32 alt)).setWidth 64 := by
  obtain ⟨m₁, hm₁⟩ : ∃ m₁, m₁ = m.setFlags (subFlags (m.reg32 pri) (m.reg32 alt)) := ⟨_, rfl⟩
  have hflags : r.cond.holds m₁.flags = some (decide (r.Holds (m.reg32 pri) (m.reg32 alt))) := by
    rw [hm₁]
    exact r.holds_cond _ _
  have hbecomes : Machine.Becomes [pri] m.host m m₁ := hm₁ ▸ (Machine.Becomes.refl _ m).setFlags _
  refine .instr rfl (congrArg Except.ok hm₁.symm)
    (.instr rfl (Machine.exec_setcc hflags pri) (.instr rfl rfl
    (.nil ⟨(hbecomes.setReg (by decide) _).setReg (by decide) _, ?_⟩)))
  refine (RegFile.get_set_self _ pri _).trans ((congrArg (BitVec.setWidth 64)
    BitVec.setWidth_append_eq_right).trans ?_)
  by_cases hholds : r.Holds (m.reg32 pri) (m.reg32 alt) <;> simp [Comparison.answer,
      Cell.ofBool, hholds]

end

/-! ## Section 3: Jumps in a run -/

namespace Environment

/-- From the code of an instruction a run comes to its target, when the jump is taken, and to what
    follows the code when it is not. Nothing but the flags changes. -/
structure Forks (env : Environment) (ctx : Context) (i : Instruction)
    (after : List Instruction) (taken : Prop) (m m' : Machine) : Prop where
  reaches : ∃ k, ∀ n, env.Reaches (n + k, m) (n, m')
  jumps : taken → env.At i.arg m'
  falls : ¬taken → ∃ ls, template ctx i = .ok ls ∧ m'.rip = m.rip + BitVec.ofNat 64 (linesSize ls)
  next : ¬taken → ∀ j ∈ after.head?, env.At j.address m'
  same : Machine.Becomes [] m.host m m'

namespace AtInstruction

variable {env : Environment} {config : Config} {vm₀ : Instance} {a : Activation} {rets : List Word}
  {i : Instruction} {after : List Instruction} {m : Machine}
  (h : env.AtInstruction config vm₀ a rets i after m)
include h

theorem forks {p : Prop} [Decidable p]
    (hls : ∀ ls, template (.ofInstance config vm₀) i = .ok ls →
      Comes ls m (if p then some (.code i.arg) else none) (Machine.Becomes [] m.host m)) :
    ∃ m', env.Forks (.ofInstance config vm₀) i after p m m' := by
  obtain ⟨is, ls, o, find, hr, hsize, htemplate, hm, hholds, -, hfind, hnext⟩ := h.exists_template
  obtain ⟨m', dest, hsame, hdest, hruns⟩ := hls ls htemplate _ _ _ hsize hholds
  rw [hm] at hruns
  have hrip : (m'.atOffset dest).rip = env.layout.code + BitVec.ofNat 64 dest := by
    rw [← h.home.layout, ← hsame.layout]
    rfl
  refine ⟨_, hr.reaches_of_runs h.home.layout hruns, fun hp => ?_, fun hp => ?_, fun hp j hj => ?_,
    hsame.jumpTo _⟩
  · rw [if_pos hp] at hdest
    exact ⟨dest, hfind _ dest (.inl hdest), hrip⟩
  · rw [if_neg hp] at hdest
    obtain rfl : o + linesSize ls = dest := Option.some_inj.mp hdest
    refine ⟨ls, htemplate, hrip.trans ?_⟩
    rw [← hm, BitVec.ofNat_add, ← BitVec.add_assoc, ← h.home.layout]
    rfl
  · rw [if_neg hp] at hdest
    obtain rfl : o + linesSize ls = dest := Option.some_inj.mp hdest
    exact ⟨_, hnext j hj, hrip⟩

theorem forks_compared (r : Comparison) (hop : i.opcode = r.jump) :
    ∃ m', env.Forks (.ofInstance config vm₀) i after (r.Holds (m.reg32 pri) (m.reg32 alt)) m m' :=
  h.forks fun _ hls => r.template_jump hls hop ▸ comes_jumpCompared m r i.arg

theorem forks_zero (hop : i.opcode = .jzer) :
    ∃ m', env.Forks (.ofInstance config vm₀) i after ((m.reg32 pri).toNat = 0) m m' := by
  refine h.forks fun ls hls => ?_
  rw [template, hop] at hls
  rw [Context.eq_of_bind_target hls]
  exact (comes_jumpTested m i.arg).1

theorem forks_nonzero (hop : i.opcode = .jnz) :
    ∃ m', env.Forks (.ofInstance config vm₀) i after ((m.reg32 pri).toNat ≠ 0) m m' := by
  refine h.forks fun ls hls => ?_
  rw [template, hop] at hls
  rw [Context.eq_of_bind_target hls]
  exact (comes_jumpTested m i.arg).2

theorem advances_compared (r : Comparison) (hop : i.opcode = r.opcode) :
    ∃ m', env.Advances after m m' ∧ Machine.Becomes [pri] m.host m m' ∧
      m'.reg pri = (r.answer (m.reg32 pri) (m.reg32 alt)).setWidth 64 := by
  obtain ⟨m', x, ⟨hbecomes, hpri⟩, hadvances⟩ := h.advances _
    (fun _ hls => r.template_opcode hls hop ▸ comes_compareAlt m r) fun m' hm' => hm'.1.layout
  exact ⟨_, hadvances, hbecomes.jumpTo x, hpri⟩

theorem bounds (hop : i.opcode = .bounds) :
    (i.arg.toNat < (m.reg32 pri).toNat → env.Halts a .bounds m) ∧
    (¬i.arg.toNat < (m.reg32 pri).toNat → ∃ m', env.Advances after m m' ∧
      Machine.Becomes [] m.host m m') := by
  have hls : ∀ ls, template (.ofInstance config vm₀) i = .ok ls → Comes ls m
      (if i.arg.toNat < (m.reg32 pri).toNat then some (.stub (.fault .bounds)) else none)
      (Machine.Becomes [] m.host m) := by
    intro ls hls
    rw [template, hop] at hls
    obtain rfl := Except.ok.inj hls
    exact comes_checkBounds m i.arg
  refine ⟨fun habove => ?_, fun hbelow => ?_⟩
  · simp only [if_pos habove] at hls
    exact h.halts (fun _ _ => List.not_mem_nil) hls
  · simp only [if_neg hbelow] at hls
    obtain ⟨m', x, hbecomes, hadvances⟩ := h.advances _ hls fun m' hm' => hm'.layout
    exact ⟨_, hadvances, hbecomes.jumpTo x⟩

end AtInstruction

end Environment

/-! ### A small program -/

/-- A jump for numbers with a sign, and two ends of the program. -/
def jumpListing : List Instruction := [⟨0, .jsless, [16]⟩, ⟨8, .halt, [0]⟩, ⟨16, .halt, [1]⟩]

def jumpImage : Block := (limitHeader.bytes ++ jumpListing.flatMap Instruction.bytes).toArray

def jumpInstance : Instance := { limitInstance with block := jumpImage ++ Array.replicate 16 0 }

theorem load_jumpImage : Instance.load jumpImage = .ok jumpInstance :=
  Instance.load_whole (by decide +kernel) rfl (by decide) rfl

theorem decodes_jumpListing : Decodes jumpInstance.code 0 jumpListing none :=
  .of_block (n := 24) rfl (by decide) rfl rfl (by decide) (by decide)

/-! ### The result -/

/-- **Main result.** A run is at an instruction, with any cells in the computing registers. A
    comparison puts one or zero into the primary register; it is one exactly when the numbers
    compare so. The jump for the same comparison is taken exactly when that answer is one, and
    the jumps that test the primary register exactly when it is zero, or is not. No jump changes
    a register or memory. BOUNDS halts exactly when the primary register is above its operand,
    as a number without a sign. -/
theorem jumps_agree_with_comparisons {env : Environment} {config : Config} {vm₀ : Instance}
    {a : Activation} {rets : List Word} {i : Instruction} {after : List Instruction} {m : Machine}
    (h : env.AtInstruction config vm₀ a rets i after m) (r : Comparison) :
    (r.answer (m.reg32 pri) (m.reg32 alt) = 1 ↔ r.Holds (m.reg32 pri) (m.reg32 alt)) ∧
    (i.opcode = r.opcode → ∃ m', env.Advances after m m' ∧ Machine.Becomes [pri] m.host m m' ∧
      m'.reg pri = (r.answer (m.reg32 pri) (m.reg32 alt)).setWidth 64) ∧
    (i.opcode = r.jump → ∃ m', env.Forks (.ofInstance config vm₀) i after
      (r.answer (m.reg32 pri) (m.reg32 alt) = 1) m m') ∧
    (i.opcode = .jzer → ∃ m', env.Forks (.ofInstance config vm₀) i after
      ((m.reg32 pri).toNat = 0) m m') ∧
    (i.opcode = .jnz → ∃ m', env.Forks (.ofInstance config vm₀) i after
      ((m.reg32 pri).toNat ≠ 0) m m') ∧
    (i.opcode = .bounds →
      (i.arg.toNat < (m.reg32 pri).toNat → env.Halts a .bounds m) ∧
      (¬i.arg.toNat < (m.reg32 pri).toNat →
        ∃ m', env.Advances after m m' ∧ Machine.Becomes [] m.host m m')) := by
  refine ⟨r.answer_eq_one_iff _ _, h.advances_compared r, fun hop => ?_, h.forks_zero,
    h.forks_nonzero, h.bounds⟩
  rw [r.answer_eq_one_iff]
  exact h.forks_compared r hop

/-- With a sign minus one is less than one, so the jump is taken. -/
theorem minus_one_jumps_below_one :
    ∃ (p : Program) (a : Activation) (rets : List Word) (m m' : Machine),
    Environment.AtInstruction ⟨.standard, p⟩ {} jumpInstance a rets ⟨0, .jsless, [16]⟩
      (jumpListing.drop 1) m ∧
    m.reg32 pri = -1 ∧ m.reg32 alt = 1 ∧
    (∃ k, ∀ n, Environment.Reaches ⟨.standard, p⟩ (n + k, m) (n, m')) ∧
    Environment.At ⟨.standard, p⟩ 16 m' := by
  obtain ⟨p, a, rets, m, hat, hpri, halt, -⟩ := atInstruction_callAt (-1) 1 load_jumpImage
    (show Decodes jumpInstance.code 0 ([] ++ _ :: jumpListing.drop 1) none from decodes_jumpListing)
    (by decide +kernel) (by decide) (by decide +kernel)
  have hpri : m.reg32 pri = -1 := Machine.reg32_eq hpri
  have halt : m.reg32 alt = 1 := Machine.reg32_eq halt
  obtain ⟨-, -, hjumps, -⟩ := jumps_agree_with_comparisons hat .sless
  obtain ⟨m', hforks⟩ := hjumps rfl
  refine ⟨p, a, rets, m, m', hat, hpri, halt, hforks.reaches, hforks.jumps ?_⟩
  rw [hpri, halt]
  decide

end PawnNative
