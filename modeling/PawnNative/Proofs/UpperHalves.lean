import Mathlib.Tactic.Common
import PawnNative.Proofs.DataAccess
import PawnNative.Proofs.Dispatch

/-! # The upper halves of the computing registers

    The computing registers are cells in the low halves of `rax` and `rcx`. The check
    of an address compares the cell, and the access that follows adds the whole
    register to the address of the data segment, so the two speak about the same
    place only when the upper half is zero.

    Templates see to that: what they write to a computing register they write as a
    cell. The result of a helper is another matter. It is a cell, and all that is
    known of the word it comes in is its low half. The alternate register is loaded
    again after a helper; the primary one holds the result, and no line clears its
    upper half.
-/

namespace PawnNative

open X64 Convention Template

namespace Machine

variable {m : Machine} {r : Reg} {hr : r ≠ .rsp}

theorem narrow_iff_upper : m.Narrow r ↔ (m.reg r).upper = 0 := by
  constructor
  · intro h
    rw [h]
    exact Word.upper_setWidth (Nat.le_refl 32) _
  · intro h
    have hlow := Word.upper_eq_zero.mp h
    refine BitVec.eq_of_toNat_eq ?_
    show _ = (((m.reg r).setWidth 32).setWidth 64).toNat
    rw [BitVec.toNat_setWidth, BitVec.toNat_setWidth]
    omega

/-- An operand adds the whole register to the address of the data segment. -/
theorem address_indirect : m.address (indirect r hr) = m.reg data + m.reg r := by
  show (m.reg data + m.reg r <<< 0) + 0#64 = _
  rw [BitVec.shiftLeft_zero, BitVec.add_zero]

/-- So it means the place that the cell names just when the upper half is zero. -/
theorem address_indirect_eq_iff :
    m.address (indirect r hr) = m.reg data + (m.reg32 r).setWidth 64 ↔ (m.reg r).upper = 0 := by
  rw [address_indirect, BitVec.add_right_inj, ← narrow_iff_upper]
  exact Iff.rfl

end Machine

namespace Environment

variable {env : Environment} {config : Config} {vm₀ : Instance} {c : Invocation} {start left : Nat}
  {i : Instruction} {after : List Instruction} {m : Machine}

theorem Executes.trim (hm : env.Executes config vm₀ c start i after left m) : env.Trim m := by
  obtain ⟨before, hlisting⟩ := hm.listing
  obtain ⟨m₀, a, rets, o, ls, rest, hl⟩ := hm.locates hlisting
  exact hl.trim

/-- **Upper halves.** Wherever a run comes to an instruction, in whatever state and however deep
    in calls, the upper half of the alternate register is zero, and the upper half of the
    primary register is zero or what a helper left there. An operand that is reached through
    such a register means the place that the cell names just when the upper half is zero. When
    the instruction calls a native and the native answers, the next instruction finds above the
    answer what the helper left, whatever that is. -/
theorem upper_halves_at_instructions (hm : env.Executes config vm₀ c start i after left m) :
    (m.reg alt).upper = 0 ∧ m.address (indirect alt) = m.reg data + (m.reg32 alt).setWidth 64 ∧
    ((m.reg pri).upper = 0 ∨ ∃ x, (m.reg pri).upper = env.stale x) ∧
    (m.address (indirect pri) = m.reg data + (m.reg32 pri).setWidth 64 ↔ (m.reg pri).upper = 0) ∧
    ((∀ x, env.stale x = 0) → (m.reg pri).upper = 0) ∧
    ∀ index count, i.nativeCall? = some (index, count) →
      inlined? (.ofInstance config vm₀) index count = none →
      8 * (m.nativeWords + 3) ≤ env.layout.stackSize →
      ∃ (next : Nat) (m₁ : Machine), m₁.host.vm = m.spilled ∧
        (∃ depth ≤ m.nativeWords + 1, m₁.reg .rsp = env.layout.slot (depth + 1)) ∧
        (∀ i' ∈ after.head?, env.program.offset? i'.address = some next) ∧
        ∀ n n' host v, left = n + 1 + callSteps index count → n = n' + settleLines.length →
          Dispatches (env.callbacks (env.run n) m₁.regs) (index.value m) count.block m₁.host
            (.value v) host →
          ∃ m' : Machine, env.Reaches (left, m) (n', m'.atOffset next) ∧ m'.reg32 pri = v ∧
            (m'.reg pri).upper = env.stale (m₁.setHost host) := by
  obtain ⟨halt, hpri⟩ := hm.trim
  refine ⟨halt, Machine.address_indirect_eq_iff.mpr halt, hpri, Machine.address_indirect_eq_iff, ?_,
    ?_⟩
  · intro hclear
    rcases hpri with hzero | ⟨x, hx⟩
    · exact hzero
    · exact hx.trans (hclear x)
  -- The helper answers in `rax` and may leave anything in its upper half.
  · intro index count hcall hgeneric hdeep
    obtain ⟨next, m₁, hvm, -, hrsp, hnext, hruns⟩ := hm.settles hcall hgeneric hdeep
    refine ⟨next, m₁, hvm, hrsp, hnext, fun n n' host v hn hn' hd => ?_⟩
    obtain ⟨hfirst, hends⟩ := hruns n hn
    obtain ⟨m', hcarries, hupper, hreaches⟩ := (hends _ host hd).1 v rfl
    exact ⟨m', hfirst.trans (hreaches n' hn'), congrArg (fun vm : Instance => vm.regs.pri)
        hcarries.spilled, hupper⟩

end Environment

/-- A helper that leaves a one above its result. -/
def staleResidue (_ : Machine) : Residue := { regs := { rax := 0x100000000 } }

/-- The native answers one, and the next instruction finds a number in the primary register that is
    no cell: an access through it would not be at the place that one names. -/
theorem importCall_leaves_stale_half : ∃ (p : Program) (left left' next : Nat) (m m' : Machine),
    Program.ofInstance {} (importInstance 0 #[]) = .ok p ∧ p.offset? 24 = some next ∧
    Environment.Reaches ⟨⟨.standard, staleResidue⟩, p⟩ (left, m) (left', m'.atOffset next) ∧
    (m.reg alt).upper = 0 ∧ m'.reg32 pri = 1 ∧ (m'.reg pri).upper = 1 ∧
    m'.address (indirect pri) ≠ m'.reg data + (m'.reg32 pri).setWidth 64 := by
  obtain ⟨p, hp⟩ := exists_importProgram
  obtain ⟨m, hexecutes, -, -, hdeep, hdispatches⟩ := executes_importCall_on staleResidue hp
  let n := importSteps + settleLines.length
  obtain ⟨halt, -, -, -, -, hnative⟩ := Environment.upper_halves_at_instructions
    (hexecutes (n + 1 + callSteps (.const 0) (.const 4)))
  obtain ⟨next, m₁, hvm, hrsp, hnext, hruns⟩ := hnative _ _ rfl inlined?_importCall hdeep
  obtain ⟨host, -, hd⟩ := hdispatches n m₁ (Nat.le_add_right _ _) hvm hrsp
  obtain ⟨m', hreaches, hvalue, hone⟩ := hruns n importSteps host 1 rfl rfl hd
  have hone : (m'.reg pri).upper = 1 := hone.trans (show Word.upper 0x100000000 = 1 by decide)
  refine ⟨p, _, _, next, m, m', hp, hnext ⟨24, .pushC, [9]⟩ rfl, hreaches, halt, hvalue, hone, ?_⟩
  rw [Ne, Machine.address_indirect_eq_iff, hone]
  decide

end PawnNative
