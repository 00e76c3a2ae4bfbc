import Mathlib.Logic.Relation
import Mathlib.Tactic.Common
import PawnNative.Machine.Basic
import PawnNative.Proofs.Layout
import PawnNative.Proofs.Memory
import PawnNative.Proofs.Outcome

/-! # Running lines of code

    A machine takes a step for each instruction that it reads in finished code.
    Instructions that do not branch leave the address of the next instruction
    alone, so what lines achieve can be said without it: `Achieves` says that
    wherever the lines stand, a machine at their start gets to their end, and in
    which state.
-/

namespace PawnNative

open X64

/-! ## Section 1: Steps -/

namespace Machine

/-- A machine gets to another state by running code. -/
def Runs (code : Block) : Machine → Machine → Prop :=
  Relation.ReflTransGen fun m m' => m.step code.readings = .ok m'

/-- The machine at an offset of the compiled code. -/
def atOffset (m : Machine) (o : Nat) : Machine := m.jumpTo (m.layout.code + BitVec.ofNat 64 o)

theorem step_at {m : Machine} {code : Block} {o n : Nat} {i : Instr}
    (hread : code.readAt o = some (i, n)) (hsize : code.size < 0x10000000000000000) :
    (m.atOffset o).step code.readings = (m.atOffset (o + n)).exec i := by
  have hin : o < code.size := by
    by_contra hout
    rw [Block.readAt_of_size_le (Nat.le_of_not_lt hout)] at hread
    cases hread
  have habove : (m.layout.code + BitVec.ofNat 64 o).above m.layout.code = o := by
    rw [Word.above_eq, BitVec.add_comm, BitVec.add_sub_cancel, BitVec.toNat_ofNat]
    exact Nat.mod_eq_of_lt (Nat.lt_trans hin hsize)
  have hfetch : fetch m.layout code.readings (m.layout.code + BitVec.ofNat 64 o) =
      .ok (i, m.layout.code + BitVec.ofNat 64 (o + n)) := by
    rw [fetch, habove, Block.get?_readings, hread, BitVec.ofNat_add, ← BitVec.add_assoc]
    rfl
  rw [step]
  show (fetch m.layout code.readings (m.layout.code + BitVec.ofNat 64 o) >>= _) = _
  rw [hfetch]
  rfl

end Machine

namespace Machine

theorem jump_atOffset (m : Machine) {o dest : Nat} {d : Cell} (hsum : (o : Int) + d.toInt = dest) :
    (m.atOffset o).jump d = m.atOffset dest := by
  have hdest : BitVec.ofNat 64 o + d.signExtend 64 = BitVec.ofNat 64 dest := by
    rw [← BitVec.ofInt_natCast, ← BitVec.ofInt_natCast, BitVec.signExtend, ← BitVec.ofInt_add,
      ← hsum]
  show m.jumpTo (m.layout.code + BitVec.ofNat 64 o + d.signExtend 64) = _
  rw [BitVec.add_assoc, hdest]
  rfl

/-- A conditional jump goes to its target or on, as the condition says. -/
theorem step_jcc {m : Machine} {code : Block} {o dest : Nat} {c : Cond} {d : Cell} {b : Bool}
    (hread : code.readAt o = some (.jcc c d, 6)) (hsum : (o + 6 : Int) + d.toInt = dest)
    (hsize : code.size < 0x10000000000000000) (hc : c.holds m.flags = some b) :
    (m.atOffset o).step code.readings = .ok (m.atOffset (if b then dest else o + 6)) := by
  have htest : (m.atOffset (o + 6)).test c = .ok b := by
    have hflags : (m.atOffset (o + 6)).flags = m.flags := rfl
    rw [test, hflags, hc]
  rw [step_at hread hsize]
  show ((m.atOffset (o + 6)).test c >>= _) = _
  rw [htest]
  cases b with
  | false => rfl
  | true => exact congrArg Except.ok (m.jump_atOffset (by exact_mod_cast hsum))

end Machine

/-! ## Section 2: Instructions that do not branch -/

/-- Whether an instruction neither branches nor repeats. -/
def X64.Instr.isPlain : Instr → Bool
  | .movRR .. | .movRI64 .. | .movRI32 .. | .load .. | .store .. | .storeImm .. | .movzxByte ..
  | .movsxByte .. | .lea .. | .xchg .. | .aluRR .. | .aluRI .. | .test .. | .not .. | .neg ..
  | .incM .. | .decM .. | .imulRR .. | .imulRRI .. | .shiftCl .. | .shiftImm .. | .setcc ..
  | .push .. | .pop .. | .aluMI .. | .movss .. | .float .. | .movdRX .. => true
  | _ => false

namespace Machine

variable (m : Machine) (a b : Word)

theorem stored_jumpTo (x : Option Host) : (reached b x >>= fun h => .ok ((m.jumpTo a).setHost h)) =
    (reached b x >>= fun h => .ok (m.setHost h)).map fun m => m.jumpTo a := by
  cases x <;> rfl

theorem store32_jumpTo (v : Cell) :
    (m.jumpTo a).store32 b v = (m.store32 b v).map fun m => m.jumpTo a :=
  m.stored_jumpTo a b _

theorem store64_jumpTo (v : Word) :
    (m.jumpTo a).store64 b v = (m.store64 b v).map fun m => m.jumpTo a :=
  m.stored_jumpTo a b _

theorem push_jumpTo (v : Word) :
    (m.jumpTo a).push v = (m.push v).map fun m => m.jumpTo a :=
  (m.setReg .rsp (m.reg .rsp - 8)).store64_jumpTo a _ v

theorem increment_jumpTo (op : Alu) :
    (m.jumpTo a).increment op b = (m.increment op b).map fun m => m.jumpTo a := by
  show (m.load32 b >>= _) = Except.map _ (m.load32 b >>= _)
  cases m.load32 b with
  | error e => rfl
  | ok x => exact store32_jumpTo (m.setFlags { op.flags x 1 with carry := m.flags.carry }) a b _

theorem bind_operand_jumpTo {o : Mem} {f g : Word → Except Crash Machine}
    (h : ∀ x, g x = (f x).map fun m => m.jumpTo a) :
    ((m.jumpTo a).operand o >>= g) = (m.operand o >>= f).map fun m => m.jumpTo a := by
  show (m.operand o >>= g) = _
  cases m.operand o with
  | error e => rfl
  | ok x => exact h x

theorem aluMem_jumpTo (op : Alu) (y : Cell) :
    (m.jumpTo a).aluMem op b y = (m.aluMem op b y).map fun m => m.jumpTo a := by
  show (m.load32 b >>= _) = Except.map _ (m.load32 b >>= _)
  cases m.load32 b with
  | error e => rfl
  | ok x =>
    show (if op.stores then ((m.setFlags (op.flags x y)).jumpTo a).store32 b _ else _) =
      Except.map _ (if op.stores then (m.setFlags (op.flags x y)).store32 b _ else _)
    split_ifs
    · exact store32_jumpTo _ a b _
    · rfl

/-- **Step.** A plain instruction does the same wherever it stands, and goes on after itself. -/
theorem exec_jumpTo {i : Instr} (hi : i.isPlain) :
    (m.jumpTo a).exec i = (m.exec i).map fun m => m.jumpTo a := by
  -- No plain instruction reads `rip`, so in each case both sides compute the same.
  cases i with
  | movRR s dst src => cases s <;> rfl
  | load s dst src =>
    cases s with
    | d =>
      refine m.bind_operand_jumpTo a fun x => ?_
      show (m.load32 x >>= _) = Except.map _ (m.load32 x >>= _)
      cases m.load32 x <;> rfl
    | q =>
      refine m.bind_operand_jumpTo a fun x => ?_
      show (m.load64 x >>= _) = Except.map _ (m.load64 x >>= _)
      cases m.load64 x <;> rfl
  | store s dst src =>
    cases s with
    | d => exact m.bind_operand_jumpTo a fun x => m.store32_jumpTo a x (m.reg32 src)
    | q => exact m.bind_operand_jumpTo a fun x => m.store64_jumpTo a x (m.reg src)
  | storeImm dst imm => exact m.bind_operand_jumpTo a fun x => m.store32_jumpTo a x imm
  | lea s dst src => cases s <;> rfl
  | aluRR op s dst src => cases s <;> cases op <;> rfl
  | aluRI op s dst imm => cases s <;> cases op <;> rfl
  | test s x y => cases s <;> rfl
  | incM o => exact m.bind_operand_jumpTo a fun x => m.increment_jumpTo a x .add
  | decM o => exact m.bind_operand_jumpTo a fun x => m.increment_jumpTo a x .sub
  | setcc c r =>
    show (m.test c >>= _) = Except.map _ (m.test c >>= _)
    cases m.test c <;> rfl
  | push r => exact m.push_jumpTo a (m.reg r)
  | pop r =>
    show (m.load64 (m.reg .rsp) >>= _) >>= _ = Except.map _ ((m.load64 (m.reg .rsp) >>= _) >>= _)
    cases m.load64 (m.reg .rsp) <;> rfl
  | aluMI op o y => exact m.bind_operand_jumpTo a fun x => m.aluMem_jumpTo a x op y
  | movss dst src | float op dst src =>
    refine m.bind_operand_jumpTo a fun x => ?_
    show (m.load32 x >>= _) = Except.map _ (m.load32 x >>= _)
    cases m.load32 x <;> rfl
  | movRI64 | movRI32 | movzxByte | movsxByte | xchg | not | neg | imulRR | imulRRI | shiftCl
  | shiftImm | movdRX => rfl
  | _ => cases hi

theorem layout_store32 {m m' : Machine} {v : Cell} (h : m.store32 b v = .ok m') :
    m'.layout = m.layout := by
  obtain ⟨host, -, rfl⟩ := store32_eq_ok.mp h
  rfl

theorem layout_store64 {m m' : Machine} {v : Word} (h : m.store64 b v = .ok m') :
    m'.layout = m.layout := by
  obtain ⟨layout, regs, xmm, flags, down, rip, host⟩ := m
  obtain ⟨host', -, heq⟩ := bind_eq_ok.mp h
  cases heq
  rfl

theorem layout_push {m m' : Machine} {v : Word} (h : m.push v = .ok m') : m'.layout = m.layout :=
  layout_store64 (m := m.setReg .rsp (m.reg .rsp - 8)) _ h

theorem layout_increment {m m' : Machine} {op : Alu} (h : m.increment op b = .ok m') :
    m'.layout = m.layout := by
  obtain ⟨x, -, hstore⟩ := bind_eq_ok.mp h
  exact layout_store32 (m := m.setFlags { op.flags x 1 with carry := m.flags.carry }) b hstore

theorem layout_exec {m m' : Machine} {i : Instr} (hi : i.isPlain) (h : m.exec i = .ok m') :
    m'.layout = m.layout := by
  cases i with
  | movRR s dst src => cases s <;> cases h <;> rfl
  | load s dst src =>
    cases s <;> obtain ⟨x, -, h⟩ := bind_eq_ok.mp h <;> obtain ⟨v, -, heq⟩ := bind_eq_ok.mp h <;>
      cases heq <;> rfl
  | store s dst src =>
    cases s <;> obtain ⟨x, -, h⟩ := bind_eq_ok.mp h
    · exact layout_store32 _ h
    · exact layout_store64 _ h
  | storeImm dst imm =>
    obtain ⟨x, -, h⟩ := bind_eq_ok.mp h
    exact layout_store32 _ h
  | lea s dst src => cases s <;> cases h <;> rfl
  | aluRR op s dst src => cases s <;> cases op <;> cases h <;> rfl
  | aluRI op s dst imm => cases s <;> cases op <;> cases h <;> rfl
  | test s x y => cases s <;> cases h <;> rfl
  | incM o | decM o =>
    obtain ⟨x, -, h⟩ := bind_eq_ok.mp h
    exact layout_increment _ h
  | setcc c r =>
    obtain ⟨v, -, heq⟩ := bind_eq_ok.mp h
    cases heq
    rfl
  | push r => exact layout_push h
  | pop r =>
    obtain ⟨⟨v, m₁⟩, hpop, heq⟩ := bind_eq_ok.mp h
    obtain ⟨w, -, heq'⟩ := bind_eq_ok.mp hpop
    cases heq'
    cases heq
    rfl
  | aluMI op o y =>
    obtain ⟨x, -, h⟩ := bind_eq_ok.mp h
    obtain ⟨v, -, h⟩ := bind_eq_ok.mp h
    by_cases hop : op.stores
    · exact layout_store32 (m := m.setFlags (op.flags v y)) _ ((if_pos hop).symm.trans h)
    · cases (if_neg hop).symm.trans h
      rfl
  | movss dst src | float op dst src =>
    obtain ⟨x, -, h⟩ := bind_eq_ok.mp h
    obtain ⟨v, -, heq⟩ := bind_eq_ok.mp h
    cases heq
    rfl
  | movRI64 | movRI32 | movzxByte | movsxByte | xchg | not | neg | imulRR | imulRRI | shiftCl
  | shiftImm | movdRX =>
    cases h
    rfl
  | _ => cases hi

end Machine

/-! ## Section 3: What lines achieve -/

/-- Wherever the lines stand, a machine at their start gets to their end, in a state with this
    property. -/
def Achieves (ls : List Line) (m : Machine) (goal : Machine → Prop) : Prop :=
  ∀ (code : Block) (find : Target → Option Nat) (o : Nat), code.size < 0x10000000000000000 →
    code.Holds find o ls →
    ∃ m', goal m' ∧ Machine.Runs code (m.atOffset o) (m'.atOffset (o + linesSize ls))

namespace Achieves

variable {ls ls' : List Line} {m m' : Machine} {goal goal' : Machine → Prop} {i : Instr}

theorem nil (h : goal m) : Achieves [] m goal := by
  intro code find o _ _
  exact ⟨m, h, .refl⟩

theorem op (hi : i.isPlain) (hexec : m.exec i = .ok m') (hrest : Achieves ls m' goal) :
    Achieves (.op i :: ls) m goal := by
  intro code find o hsize hholds
  obtain ⟨hread, hholds⟩ := hholds
  obtain ⟨m'', hgoal, hruns⟩ := hrest code find _ hsize hholds
  refine ⟨m'', hgoal, ?_⟩
  have hstep : (m.atOffset o).step code.readings = .ok (m'.atOffset (o + i.encode.length)) := by
    rw [Machine.step_at hread hsize, Machine.atOffset, Machine.exec_jumpTo _ _ hi, hexec,
      Machine.atOffset, Machine.layout_exec hi hexec]
    rfl
  have hsum : o + linesSize (.op i :: ls) = o + i.encode.length + linesSize ls := by
    show o + (i.encode.length + linesSize ls) = _
    omega
  rw [hsum]
  exact .head hstep hruns

theorem mono (h : Achieves ls m goal) (hgoal : ∀ m', goal m' → goal' m') :
    Achieves ls m goal' := by
  intro code find o hsize hholds
  obtain ⟨m', hm', hruns⟩ := h code find o hsize hholds
  exact ⟨m', hgoal m' hm', hruns⟩

theorem append (h : Achieves ls m goal) (hrest : ∀ m', goal m' → Achieves ls' m' goal') :
    Achieves (ls ++ ls') m goal' := by
  intro code find o hsize hholds
  obtain ⟨hfirst, hlast⟩ := Block.holds_append.mp hholds
  obtain ⟨m₁, hm₁, hruns₁⟩ := h code find o hsize hfirst
  obtain ⟨m₂, hm₂, hruns₂⟩ := hrest m₁ hm₁ code find _ hsize hlast
  refine ⟨m₂, hm₂, hruns₁.trans ?_⟩
  rwa [linesSize_append, ← Nat.add_assoc]

end Achieves

end PawnNative
