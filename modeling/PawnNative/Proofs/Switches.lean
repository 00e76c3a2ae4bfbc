import Mathlib.Tactic.Common
import PawnNative.Proofs.Sites

/-! # Switches

    A case table is a number of records, a default target and the records, each a
    value and a target. Its code compares the primary register with one value after
    the other and branches at the first one that is equal; a SWITCH jumps to that code,
    and so does every other way of coming to the address of the table.

    The statement is about the records as they stand in the bytecode. Between them and
    the code are the decoder, which knows the records as a list of operands, the pairs
    that are made of it, and the check of each target.
-/

namespace PawnNative

open X64 Convention Template

/-! ## Section 1: Records -/

/-- The target for a value: that of the first record with the value, or the default. -/
def caseTarget (default : Cell) (records : List (Cell × Cell)) (v : Cell) : Cell :=
  ((records.find? fun r => r.1 == v).map Prod.snd).getD default

theorem caseTarget_cons (default : Cell) (r : Cell × Cell) (records : List (Cell × Cell))
    (v : Cell) :
    caseTarget default (r :: records) v = if r.1 = v then r.2 else caseTarget default
      records v := by
  by_cases h : r.1 = v <;> simp [caseTarget, h]

/-- The operands of a case table. -/
def tableOperands (default : Cell) (records : List (Cell × Cell)) : List Cell :=
  BitVec.ofNat 32 records.length :: default :: records.flatMap fun r => [r.1, r.2]

/-- An even number of cells is a list of pairs, one after the other. -/
theorem Instruction.pairs_eq {n : Nat} {xs : List Cell} (h : xs.length = 2 * n) :
    (pairs xs).length = n ∧ (pairs xs).flatMap (fun r => [r.1, r.2]) = xs := by
  fun_induction pairs xs generalizing n with
  | case1 x y xs ih =>
    simp only [List.length_cons] at h
    obtain ⟨hlength, hflat⟩ := ih (n := n - 1) (by omega)
    refine ⟨?_, ?_⟩
    · rw [List.length_cons, hlength]
      omega
    · rw [List.flatMap_cons, hflat]
      rfl
  | case2 xs hne =>
    rcases xs with _ | ⟨x, _ | ⟨y, rest⟩⟩
    · rw [List.length_nil] at h
      exact ⟨show 0 = n by omega, rfl⟩
    · rw [List.length_singleton] at h
      omega
    · exact absurd rfl (hne x y rest)

namespace Instruction

variable {i : Instruction}

/-- A well-formed case table has as many records as it says, and they are all of its operands. -/
theorem operands_eq_tableOperands (hwell : i.WellFormed) (hop : i.opcode = .casetbl) :
    i.operands = tableOperands i.arg2 i.cases := by
  unfold WellFormed at hwell
  rw [cases, if_pos hop]
  rw [hop] at hwell
  obtain ⟨address, opcode, operands⟩ := i
  rcases operands with _ | ⟨count, _ | ⟨default, xs⟩⟩
  · cases hwell
  · cases hwell
  · obtain ⟨-, hlength⟩ := Bool.and_eq_true_iff.mp hwell
    obtain ⟨hcount, hflat⟩ := pairs_eq (beq_iff_eq.mp hlength)
    show _ = tableOperands default (pairs xs)
    rw [tableOperands, hcount, BitVec.ofNat_toNat, BitVec.setWidth_eq, hflat]

/-- The instruction leads to a case table: it is the table, or it jumps there. -/
inductive Enters (table : Instruction) : Instruction → Prop
  /-- The table itself, whichever way a run came there. -/
  | here : Enters table table
  | switch {i : Instruction} (hop : i.opcode = .switch) (harg : i.arg = table.address) :
    Enters table i
  | jump {i : Instruction} (hop : i.opcode = .jump) (harg : i.arg = table.address) : Enters table i
  | relative {i : Instruction} (hop : i.opcode = .jrel) (harg : i.next + i.arg = table.address) :
    Enters table i

end Instruction

/-! ## Section 2: The code -/

/-- **Step.** Each record is compared with the primary register, and only the flags change. -/
theorem comes_tryCases (default : Cell) (records : List (Cell × Cell)) (m : Machine) :
    Comes (tryCases records ++ [.jmp (.code default)]) m
      (some (.code (caseTarget default records (m.reg32 pri)))) (Machine.Becomes [] m.host m) := by
  induction records generalizing m with
  | nil => exact .jmp (.refl [] m)
  | cons r records ih =>
    rw [caseTarget_cons]
    have hflags : Cond.holds (subFlags (m.reg32 pri) r.1) .e = some (m.reg32 pri == r.1) :=
      (holds_unsigned _ _).1
    have hbecomes := (Machine.Becomes.refl [] m).setFlags (subFlags (m.reg32 pri) r.1)
    refine .instr rfl rfl ?_
    -- Comparing changes flags only, so the later records are tried in the same state.
    by_cases heq : r.1 = m.reg32 pri
    · rw [if_pos heq]
      refine .taken (hflags.trans ?_) hbecomes
      rw [beq_iff_eq.mpr heq.symm]
    · rw [if_neg heq]
      refine .pass (hflags.trans ?_) ((ih _).mono fun m' hm' => hbecomes.follow hm')
      rw [beq_eq_false_iff_ne.mpr (Ne.symm heq)]

/-! ## Section 3: Switches in a run -/

namespace Environment

variable {env : Environment} {config : Config} {vm₀ : Instance} {a : Activation} {rets : List Word}
  {i j : Instruction} {after after' : List Instruction} {m : Machine}

namespace AtInstruction

variable (h : env.AtInstruction config vm₀ a rets i after m)
include h

theorem wellFormed : i.WellFormed := by
  obtain ⟨before, hlisting⟩ := h.listing
  obtain ⟨hwell, -⟩ := hlisting.eq_stream
  exact hwell i (by simp)

/-- A jump within an activation comes to another instruction of the listing. -/
theorem jumped {x : Word}
    (hlisting : ∃ before, Decodes vm₀.code 0 (before ++ j :: after') none)
    (hhere : env.At j.address (m.jumpTo x)) :
      env.AtInstruction config vm₀ a rets j after' (m.jumpTo x) :=
  ⟨h.loaded, h.compiled, hlisting, h.separate, h.home.jumpTo x, hhere, h.upwards⟩

theorem jumps {t : Cell} {target : Target}
    (htarget : target = .code t ∨ target = .cases t)
    (hls : ∀ ls, template (.ofInstance config vm₀) i = .ok ls → ls = [.jmp target]) :
    ∃ x, (∃ k, ∀ n, env.Reaches (n + k, m) (n, m.jumpTo x)) ∧ env.At t (m.jumpTo x) := by
  obtain ⟨m', x, rfl, hreaches, hat⟩ := h.branches htarget (fun m' => m = m')
    (fun ls htemplate => by rw [hls ls htemplate]; exact .jmp rfl) fun m' hm' =>
    congrArg Machine.layout hm'.symm
  exact ⟨x, hreaches, hat⟩

/-- Whichever way the table is entered, the run comes to its code. -/
theorem enters {table : Instruction} (henters : table.Enters i) :
    ∃ x, (∃ k, ∀ n, env.Reaches (n + k, m) (n, m.jumpTo x)) ∧
      env.At table.address (m.jumpTo x) := by
  cases henters with
  | here => exact ⟨m.rip, ⟨0, fun n => .refl⟩, h.here⟩
  | switch hop harg =>
    refine h.jumps (.inr rfl) fun ls hls => ?_
    rw [template, hop] at hls
    rw [Context.eq_of_bind_target hls, harg]
  | jump hop harg | relative hop harg =>
    refine h.jumps (.inl rfl) fun ls hls => ?_
    rw [template, hop] at hls
    rw [Context.eq_of_bind_target hls, harg]

/-- The code of a table leads to the target for the primary register. -/
theorem dispatches (hop : i.opcode = .casetbl) :
    ∃ m', (∃ k, ∀ n, env.Reaches (n + k, m) (n, m')) ∧
      env.At (caseTarget i.arg2 i.cases (m.reg32 pri)) m' ∧ Machine.Becomes [] m.host m m' := by
  obtain ⟨m', x, hbecomes, hreaches, hat⟩ := h.branches (.inl rfl) (Machine.Becomes [] m.host m)
    (fun ls hls => by
      rw [template, hop] at hls
      rw [eq_dispatchCases hls]
      exact .place (comes_tryCases i.arg2 i.cases m))
    fun m' hm' => hm'.layout
  exact ⟨_, hreaches, hat, hbecomes.jumpTo x⟩

end AtInstruction

end Environment

/-! ### A small program -/

/-- A switch over a table that has two records for one value, and the end of the program. -/
def doubleListing : List Instruction :=
  [⟨0, .switch, [8]⟩, ⟨8, .casetbl, tableOperands 36 [(5, 0), (5, 36)]⟩, ⟨36, .halt, [0]⟩]

def doubleHeader : Header := { switchHeader with size := 100, dat := 100, hea := 100, stp := 116 }

def doubleImage : Block := (doubleHeader.bytes ++ doubleListing.flatMap Instruction.bytes).toArray

def doubleInstance : Instance :=
  { switchInstance with header := doubleHeader, block := doubleImage ++ Array.replicate 16 0 }

theorem load_doubleImage : Instance.load doubleImage = .ok doubleInstance :=
  Instance.load_whole (by decide +kernel) rfl (by decide) rfl

theorem decodes_doubleListing : Decodes doubleInstance.code 0 doubleListing none :=
  .of_block (n := 44) rfl (by decide) rfl rfl (by decide) (by decide)

/-! ### The result -/

/-- **Main result.** A run is at a case table, whichever way it came there, or at a SWITCH or a jump
    to it. From there it comes to the code of the target of the first record whose value is in the
    primary register, or of the default target when there is none. All registers, the register file
    and memory are as they were. -/
theorem switches_lead_to_first_match {env : Environment} {config : Config} {vm₀ : Instance}
    {a : Activation}
    {rets : List Word} {i table : Instruction} {before after after' : List Instruction}
    {m : Machine} (h : env.AtInstruction config vm₀ a rets i after m)
    (hlisting : Decodes vm₀.code 0 (before ++ table :: after') none)
    (htable : table.opcode = .casetbl) (henters : table.Enters i) :
    table.operands = tableOperands table.arg2 table.cases ∧
    ∃ m', (∃ k, ∀ n, env.Reaches (n + k, m) (n, m')) ∧
      env.At (caseTarget table.arg2 table.cases (m.reg32 pri)) m' ∧
      Machine.Becomes [] m.host m m' := by
  obtain ⟨x, ⟨k, hreaches⟩, hat⟩ := h.enters henters
  have htable' := h.jumped ⟨before, hlisting⟩ hat
  obtain ⟨m', ⟨k', hreaches'⟩, htarget, hbecomes⟩ := htable'.dispatches htable
  refine ⟨Instruction.operands_eq_tableOperands htable'.wellFormed htable, m',
    ⟨k' + k, fun n => ?_⟩, htarget, hbecomes.layout, hbecomes.regs, hbecomes.host⟩
  rw [← Nat.add_assoc]
  exact (hreaches _).trans (hreaches' n)

/-- With five in the primary register the first of the two records counts. -/
theorem switch_takes_first_of_two :
    ∃ (p : Program) (a : Activation) (rets : List Word) (m m' : Machine),
    Environment.AtInstruction ⟨.standard, p⟩ {} doubleInstance a rets ⟨0, .switch, [8]⟩
      (doubleListing.drop 1) m ∧
    m.reg32 pri = 5 ∧ (∃ k, ∀ n, Environment.Reaches ⟨.standard, p⟩ (n + k, m) (n, m')) ∧
    Environment.At ⟨.standard, p⟩ 0 m' ∧ m'.reg32 pri = 5 := by
  have hswitch :
      Decodes doubleInstance.code 0 ([] ++ ⟨0, .switch, [8]⟩ :: doubleListing.drop 1) none :=
    decodes_doubleListing
  have htable : Decodes doubleInstance.code 0
      ([⟨0, .switch, [8]⟩] ++ ⟨8, .casetbl, tableOperands 36 [(5, 0), (5, 36)]⟩ ::
        doubleListing.drop 2) none :=
    decodes_doubleListing
  obtain ⟨p, a, rets, m, hat, hpri, -⟩ :=
    atInstruction_callAt 5 0 load_doubleImage hswitch (by decide +kernel) (by decide)
      (by decide +kernel)
  have hpri : m.reg32 pri = 5 := Machine.reg32_eq hpri
  obtain ⟨-, m', hreaches, hfirst, hbecomes⟩ :=
    switches_lead_to_first_match hat htable rfl (.switch rfl rfl)
  rw [hpri] at hfirst
  exact ⟨p, a, rets, m, m', hat, hpri, hreaches, hfirst,
    (congrArg (BitVec.setWidth 32) (hbecomes.regs pri List.not_mem_nil)).trans hpri⟩

end PawnNative
