import Mathlib.Tactic.Common
import PawnNative.Machine.Basic
import PawnNative.Proofs.Memory
import PawnNative.Proofs.Outcome

/-! # What instructions leave alone

    An activation of compiled code owns four registers of the processor: the native
    stack pointer and the one that saves it, the address of the data segment and
    the address of the record of the call. The instructions of a template write
    none of them, and where they store, they store to the image block.

    `Instr.isLocal` says so of an instruction by its form alone, and `exec_local`
    says what that means for a machine that executes it: the regions stay where
    they are, the registers that the instruction does not name keep their values,
    and of the host only the contents of the image block change.

    The two computing registers are cells in the low halves of `rax` and `rcx`. A
    template writes them with operations on cells, so that it leaves zeros in the
    upper halves, or what was there before; `exec_narrows` says so.
-/

namespace PawnNative

open X64

/-! ## Section 1: The form of instructions -/

namespace X64.Instr

/-- The registers that an instruction writes. -/
def writes : Instr → List Reg
  | .movRR _ dst _ | .movRI64 dst _ | .movRI32 dst _ | .load _ dst _ | .loadByte dst _
  | .loadHalf dst _ | .movzxByte dst _ | .movsxByte dst _ | .movsxd dst _ | .lea _ dst _
  | .aluRR _ _ dst _ | .aluRI _ _ dst _ | .aluRM _ dst _ | .not dst | .neg dst | .imulRR dst _
  | .imulRRI dst _ _ | .shiftCl _ dst | .shiftImm _ dst _ | .setcc _ dst | .movdRX dst _ => [dst]
  | .xchg a b => [a, b]
  | .cdq => [.rdx]
  | .idiv _ | .div _ => [.rax, .rdx]
  | .repMovsb | .repeCmpsb => [.rsi, .rdi, .rcx]
  | .repStosd => [.rdi, .rcx]
  | .push _ => [.rsp]
  | .pop r => [r, .rsp]
  | .store .. | .storeImm .. | .store16 .. | .store8 .. | .aluMI .. | .test .. | .incM _ | .decM _
  | .cld | .jmp _ | .jcc .. | .call _ | .jmpR _ | .callR _ | .ret | .int3 | .movdXR .. | .movss ..
  | .float .. => []

/-- The registers whose upper halves an instruction writes with something else than zeros. -/
def widens : Instr → List Reg
  | .movRR .q dst _ | .movRI64 dst _ | .load .q dst _ | .movsxd dst _ | .lea .q dst _
  | .aluRR _ .q dst _ | .aluRI _ .q dst _ | .pop dst => [dst]
  | _ => []

/-- The register that points at what an instruction stores to. -/
def stores? : Instr → Option Reg
  | .store _ o _ | .storeImm o _ | .store16 o _ | .store8 o _ | .aluMI _ o _ | .incM o | .decM o =>
    some o.base
  | .repMovsb | .repStosd => some .rdi
  | .push _ | .call _ | .callR _ => some .rsp
  | _ => none

/-- Whether an instruction goes on with the next one. -/
def goesOn : Instr → Bool
  | .jmp _ | .jcc .. | .call _ | .jmpR _ | .callR _ | .ret | .int3 => false
  | _ => true

/-- The registers that belong to an activation. -/
def owned : List Reg := [.rsp, .rbp, .rbx, .r12]

/-- Whether an instruction goes on, writes no register of the activation, writes the computing
    registers as cells, and stores to the image block only. -/
def isLocal (i : Instr) : Bool :=
  i.goesOn && i.writes.all (fun r => !owned.contains r) &&
    i.widens.all (fun r => r != .rax && r != .rcx) && (match i.stores? with
      | none => true
      | some r => decide (Machine.pointsInto r = .block))

theorem pointsInto_of_isLocal {i : Instr} {r : Reg} (hi : i.isLocal) (hr : i.stores? = some r) :
    Machine.pointsInto r = .block := by
  unfold isLocal at hi
  rw [hr] at hi
  exact of_decide_eq_true (Bool.and_eq_true_iff.mp hi).2

theorem not_owned_of_isLocal {i : Instr} {r : Reg} (hi : i.isLocal) (hr : r ∈ owned) :
    r ∉ i.writes := by
  intro hmem
  have hparts := Bool.and_eq_true_iff.mp (Bool.and_eq_true_iff.mp hi).1
  have hfree := List.all_eq_true.mp (Bool.and_eq_true_iff.mp hparts.1).2 r hmem
  rw [List.contains_iff_mem.mpr hr] at hfree
  cases hfree

theorem ne_of_isLocal {i : Instr} {r : Reg} (hi : i.isLocal) (hr : r ∈ i.widens) :
    .rax ≠ r ∧ .rcx ≠ r := by
  have hparts := Bool.and_eq_true_iff.mp (Bool.and_eq_true_iff.mp hi).1
  have hne := List.all_eq_true.mp hparts.2 r hr
  rw [Bool.and_eq_true_iff, bne_iff_ne, bne_iff_ne] at hne
  exact ⟨hne.1.symm, hne.2.symm⟩

end X64.Instr

/-! ## Section 2: Local changes -/

/-- A machine differs from another one in flags, vector registers, these general registers and the
    contents of the image block. -/
structure Machine.Local (ws : List Reg) (m m' : Machine) : Prop where
  layout : m'.layout = m.layout
  rip : m'.rip = m.rip
  regs : ∀ r, r ∉ ws → m'.reg r = m.reg r
  host : ∃ block : Block, block.size = m.host.vm.block.size ∧
    m'.host = { m.host with vm := { m.host.vm with block } }

namespace Machine

variable {ws : List Reg} {m m' m'' : Machine} {r : Reg}

namespace Local

theorem refl (ws : List Reg) (m : Machine) : Local ws m m :=
  ⟨rfl, rfl, fun _ _ => rfl, m.host.vm.block, rfl, rfl⟩

theorem trans (h : Local ws m m') (h' : Local ws m' m'') : Local ws m m'' := by
  obtain ⟨block, hsize, hhost⟩ := h.host
  obtain ⟨block', hsize', hhost'⟩ := h'.host
  refine ⟨h'.layout.trans h.layout, h'.rip.trans h.rip, ?_, block', ?_, ?_⟩
  · intro r hr
    rw [h'.regs r hr, h.regs r hr]
  · rw [hsize', hhost]
    exact hsize
  · rw [hhost', hhost]

theorem ofBlock {block : Block} (hsize : block.size = m.host.vm.block.size) :
    Local ws m (m.setHost { m.host with vm := { m.host.vm with block } }) :=
  ⟨rfl, rfl, fun _ _ => rfl, block, hsize, rfl⟩

variable (h : Local ws m m')
include h

theorem setReg (hr : r ∈ ws) (v : Word) : Local ws m (m'.setReg r v) := by
  refine ⟨h.layout, h.rip, ?_, h.host⟩
  intro s hs
  have hne : s ≠ r := fun heq => hs (heq ▸ hr)
  rw [← h.regs s hs]
  exact RegFile.get_set_ne _ _ hne

theorem setReg32 (hr : r ∈ ws) (v : Cell) : Local ws m (m'.setReg32 r v) :=
  h.setReg hr _

theorem setFlags (f : Flags) : Local ws m (m'.setFlags f) :=
  ⟨h.layout, h.rip, h.regs, h.host⟩

theorem alu32 (hr : r ∈ ws) (op : Alu) (y : Cell) :
    Local ws m (m'.alu32 op r y) := by
  cases op with
  | cmp => exact h.setFlags _
  | _ => exact (h.setFlags _).setReg32 hr _

theorem alu64 (hr : r ∈ ws) (op : Alu) (y : Word) :
    Local ws m (m'.alu64 op r y) := by
  cases op with
  | cmp => exact h.setFlags _
  | _ => exact (h.setFlags _).setReg hr _

end Local

/-! ### Stores to the image block -/

variable {a : Word}

theorem local_store8 {v : Byte} (h : m.store8 a v = .ok m') : Local ws m m' := by
  obtain ⟨host, hhost, rfl⟩ := store8_eq_ok.mp h
  obtain ⟨o, block, -, hblock, rfl⟩ := Host.store8_eq_some.mp hhost
  exact .ofBlock (Block.size_setByte? hblock)

theorem local_store16 {v : Half} (h : m.store16 a v = .ok m') : Local ws m m' := by
  obtain ⟨host, hhost, rfl⟩ := store16_eq_ok.mp h
  obtain ⟨o, block, -, hblock, rfl⟩ := Host.store16_eq_some.mp hhost
  exact .ofBlock (Block.size_setHalf? hblock)

theorem place?_of_operand {o : Mem} (h : m.operand o = .ok a) (hbase : pointsInto o.base = .block) :
    ∃ x, m.host.place? m.layout a = some (.block x) := by
  obtain ⟨-, p, hplace, hregion⟩ := operand_eq_ok.mp h
  rw [hbase] at hregion
  cases p with
  | block x => exact ⟨x, hplace⟩
  | file x => cases hregion
  | stack d => cases hregion

theorem local_store32 {v : Cell} {x : Nat} (hplace : m.host.place? m.layout a = some (.block x))
    (h : m.store32 a v = .ok m') : Local ws m m' := by
  obtain ⟨host, hhost, rfl⟩ := store32_eq_ok.mp h
  obtain ⟨layout, regs, xmm, flags, down, rip,
      ⟨⟨header, block, rs, pending, natives⟩, stack, log⟩⟩ := m
  have hplace : layout.place? block.size a = some (.block x) := hplace
  have hhost : Host.store32 ⟨⟨header, block, rs, pending, natives⟩, stack, log⟩ layout a v =
    some host := hhost
  rw [Host.store32, hplace] at hhost
  obtain ⟨block', hblock, rfl⟩ := Option.map_eq_some_iff.mp hhost
  exact Local.ofBlock (Block.size_setCell? hblock)

theorem local_increment {op : Alu} (hplace : ∃ x, m.host.place? m.layout a = some (.block x))
    (h : m.increment op a = .ok m') : Local ws m m' := by
  obtain ⟨x, hplace⟩ := hplace
  obtain ⟨v, -, h⟩ := bind_eq_ok.mp h
  have hflags := (Local.refl ws m).setFlags { op.flags v 1 with carry := m.flags.carry }
  exact hflags.trans (local_store32 hplace h)

/-! ### String operations -/

/-- One round of a string operation, which counts down. -/
structure Round (ws : List Reg) (m m' : Machine) : Prop extends Local ws m m' where
  count : m'.reg .rcx = m.reg .rcx - 1
  down : m'.down = m.down

/-- At most this many rounds, one after the other. -/
inductive Rounds (ws : List Reg) : Nat → Machine → Machine → Prop where
  | stop (n : Nat) (m : Machine) : Rounds ws n m m
  | round {n : Nat} {m m₁ m' : Machine} (h : Round ws m m₁) (hrest : Rounds ws n m₁ m') :
    Rounds ws (n + 1) m m'

theorem Rounds.isLocal {n : Nat} (h : Rounds ws n m m') : Local ws m m' := by
  induction h with
  | stop => exact .refl _ _
  | round h _ ih => exact h.toLocal.trans ih

theorem rounds_moveBytes (n : Nat) (h : moveBytes n m = .ok m') :
    Rounds [.rsi, .rdi, .rcx] n m m' := by
  induction n generalizing m with
  | zero =>
    cases h
    exact .stop 0 _
  | succ n ih =>
    obtain ⟨v, -, h⟩ := bind_eq_ok.mp h
    obtain ⟨m₁, hstore, h⟩ := bind_eq_ok.mp h
    refine .round ⟨?_, ?_, ?_⟩ (ih h)
    · exact (((local_store8 hstore).setReg (by simp) _).setReg (by simp) _).setReg (by simp) _
    all_goals
      obtain ⟨host, -, rfl⟩ := store8_eq_ok.mp hstore
      rfl

theorem rounds_storeCells (n : Nat) (h : storeCells n m = .ok m') : Rounds [.rdi, .rcx] n m m' := by
  induction n generalizing m with
  | zero =>
    cases h
    exact .stop 0 _
  | succ n ih =>
    obtain ⟨a, ha, h⟩ := bind_eq_ok.mp h
    obtain ⟨m₁, hstore, h⟩ := bind_eq_ok.mp h
    obtain ⟨x, hplace⟩ := place?_of_operand ha rfl
    refine .round ⟨?_, ?_, ?_⟩ (ih h)
    · exact ((local_store32 hplace hstore).setReg (by simp) _).setReg (by simp) _
    all_goals
      obtain ⟨host, -, rfl⟩ := store32_eq_ok.mp hstore
      rfl

theorem rounds_compareBytes (n : Nat) (h : compareBytes n m = .ok m') :
    Rounds [.rsi, .rdi, .rcx] n m m' := by
  induction n generalizing m with
  | zero =>
    cases h
    exact .stop 0 _
  | succ n ih =>
    obtain ⟨x, -, h⟩ := bind_eq_ok.mp h
    obtain ⟨y, -, h⟩ := bind_eq_ok.mp h
    have hlocal := ((((Local.refl [.rsi, .rdi, .rcx] m).setFlags (subFlags x y)).setReg
      (r := .rsi) (by simp) (m.reg .rsi + m.stride 1)).setReg (r := .rdi) (by simp)
      (m.reg .rdi + m.stride 1)).setReg (r := .rcx) (by simp) (m.reg .rcx - 1)
    split_ifs at h with heq
    · exact .round ⟨hlocal, rfl, rfl⟩ (ih h)
    · cases h
      exact .round ⟨hlocal, rfl, rfl⟩ (.stop n _)

/-! ## Section 3: Execution -/

/-- **Step.** A local instruction changes what its form says. -/
theorem exec_local {i : Instr} (hi : i.isLocal) (h : m.exec i = .ok m') :
    Local i.writes m m' := by
  have hbase : ∀ {r}, i.stores? = some r → pointsInto r = .block := Instr.pointsInto_of_isLocal hi
  have hsame := Local.refl i.writes m
  have hdst : ∀ r : Reg, r ∈ [r] := List.mem_singleton_self
  cases i with
  -- Results in a register, from registers and immediates.
  | movRR s dst src | lea s dst src =>
    cases s <;> cases h <;> exact hsame.setReg (hdst _) _
  | movRI64 | movRI32 | movzxByte | movsxByte | movsxd | movdRX =>
    cases h
    exact hsame.setReg (hdst _) _
  | not r =>
    cases h
    exact hsame.setReg (hdst _) _
  | xchg a b =>
    cases h
    exact (hsame.setReg32 (by simp [Instr.writes]) _).setReg32 (by simp [Instr.writes]) _
  | aluRR op s dst src =>
    cases s <;> cases h
    · exact hsame.alu32 (hdst _) _ _
    · exact hsame.alu64 (hdst _) _ _
  | aluRI op s dst imm =>
    cases s <;> cases h
    · exact hsame.alu32 (hdst _) _ _
    · exact hsame.alu64 (hdst _) _ _
  | neg | imulRR | imulRRI | shiftCl | shiftImm =>
    cases h
    exact (hsame.setFlags _).setReg32 (hdst _) _
  | cdq =>
    cases h
    exact hsame.setReg32 (hdst _) _
  | idiv r =>
    obtain ⟨-, h⟩ := ite_error_eq_ok.mp h
    cases h
    exact ((hsame.setFlags _).setReg32 (by simp [Instr.writes]) _).setReg32
      (by simp [Instr.writes]) _
  | div r =>
    obtain ⟨-, h⟩ := ite_error_eq_ok.mp h
    cases h
    exact ((hsame.setFlags _).setReg32 (by simp [Instr.writes]) _).setReg32
      (by simp [Instr.writes]) _
  | setcc c r =>
    obtain ⟨b, -, h⟩ := bind_eq_ok.mp h
    cases h
    exact hsame.setReg (hdst _) _
  -- Loads.
  | load s dst src =>
    cases s <;> obtain ⟨a, -, h⟩ := bind_eq_ok.mp h <;> obtain ⟨v, -, h⟩ := bind_eq_ok.mp h <;>
      cases h <;> exact hsame.setReg (hdst _) _
  | loadByte | loadHalf =>
    obtain ⟨a, -, h⟩ := bind_eq_ok.mp h
    obtain ⟨v, -, h⟩ := bind_eq_ok.mp h
    cases h
    exact hsame.setReg (hdst _) _
  | aluRM op dst src =>
    obtain ⟨a, -, h⟩ := bind_eq_ok.mp h
    obtain ⟨v, -, h⟩ := bind_eq_ok.mp h
    cases h
    exact hsame.alu32 (hdst _) _ _
  | movss | float =>
    obtain ⟨a, -, h⟩ := bind_eq_ok.mp h
    obtain ⟨v, -, h⟩ := bind_eq_ok.mp h
    cases h
    exact ⟨rfl, rfl, fun _ _ => rfl, hsame.host⟩
  -- Nothing but flags, vector registers and the direction.
  | test s a b => cases s <;> cases h <;> exact hsame.setFlags _
  | cld | movdXR =>
    cases h
    exact ⟨rfl, rfl, fun _ _ => rfl, hsame.host⟩
  -- Stores.
  | store s o src =>
    cases s with
    | d =>
      obtain ⟨a, ha, h⟩ := bind_eq_ok.mp h
      obtain ⟨x, hplace⟩ := place?_of_operand ha (hbase rfl)
      exact local_store32 hplace h
    | q =>
      obtain ⟨a, ha, h⟩ := bind_eq_ok.mp h
      obtain ⟨x, hplace⟩ := place?_of_operand ha (hbase rfl)
      -- Words are stored to the native stack only.
      obtain ⟨host, hhost, -⟩ := store64_eq_ok.mp h
      obtain ⟨d, hstack⟩ := Host.place?_of_store64 hhost
      rw [hplace] at hstack
      cases hstack
  | storeImm o imm =>
    obtain ⟨a, ha, h⟩ := bind_eq_ok.mp h
    obtain ⟨x, hplace⟩ := place?_of_operand ha (hbase rfl)
    exact local_store32 hplace h
  | store16 o src =>
    obtain ⟨a, -, h⟩ := bind_eq_ok.mp h
    exact local_store16 h
  | store8 o src =>
    obtain ⟨a, -, h⟩ := bind_eq_ok.mp h
    exact local_store8 h
  | aluMI op o imm =>
    obtain ⟨a, ha, h⟩ := bind_eq_ok.mp h
    obtain ⟨x, hplace⟩ := place?_of_operand ha (hbase rfl)
    obtain ⟨v, -, h⟩ := bind_eq_ok.mp h
    have hflags := hsame.setFlags (op.flags v imm)
    by_cases hop : op.stores
    · exact hflags.trans (local_store32 hplace ((if_pos hop).symm.trans h))
    · cases (if_neg hop).symm.trans h
      exact hflags
  | incM o =>
    obtain ⟨a, ha, h⟩ := bind_eq_ok.mp h
    exact local_increment (place?_of_operand ha (hbase rfl)) h
  | decM o =>
    obtain ⟨a, ha, h⟩ := bind_eq_ok.mp h
    exact local_increment (place?_of_operand ha (hbase rfl)) h
  | repMovsb => exact (rounds_moveBytes _ h).isLocal
  | repStosd => exact (rounds_storeCells _ h).isLocal
  | repeCmpsb => exact (rounds_compareBytes _ h).isLocal
  -- The rest is not local.
  | push r => cases hi
  | pop r =>
    have hfree := Instr.not_owned_of_isLocal hi (r := .rsp) (by decide)
    exact absurd (List.mem_cons_of_mem r (List.mem_singleton_self _)) hfree
  | jmp | jcc | call | jmpR | callR | ret | int3 => cases hi

end Machine

/-! ## Section 4: Upper halves of the computing registers -/

namespace Word

def upper (w : Word) : Cell := w.extractLsb' 32 32

theorem upper_eq_zero {w : Word} : w.upper = 0 ↔ w.toNat < 0x100000000 := by
  have hw := w.isLt
  rw [upper, ← BitVec.toNat_inj, BitVec.extractLsb'_toNat, Nat.shiftRight_eq_div_pow]
  simp only [BitVec.ofNat_eq_ofNat, BitVec.toNat_ofNat]
  omega

theorem upper_setWidth {k : Nat} (hk : k ≤ 32) (v : BitVec k) : upper (v.setWidth 64) = 0 := by
  have hpow : 2 ^ k ≤ 2 ^ 32 := Nat.pow_le_pow_right (by decide) hk
  have hv := v.isLt
  rw [upper_eq_zero, BitVec.toNat_setWidth]
  omega

@[simp] theorem upper_append (u v : Cell) : upper (u ++ v) = u := by
  apply BitVec.eq_of_getLsbD_eq
  intro i hi
  simp only [upper, BitVec.getLsbD_extractLsb', BitVec.getLsbD_append]
  grind

theorem upper_setByte (w : Word) (v : Byte) : upper (w.extractLsb' 8 56 ++ v) = w.upper := by
  apply BitVec.eq_of_getLsbD_eq
  intro i hi
  simp only [upper, BitVec.getLsbD_extractLsb', BitVec.getLsbD_append]
  grind

/-- A count that is not zero and has nothing above a cell is counted down to such a count. -/
theorem upper_sub_one {w : Word} {n : Nat} (hw : w.upper = 0) (hn : n + 1 ≤ w.toNat) :
    upper (w - 1) = 0 ∧ n ≤ (w - 1).toNat := by
  rw [upper_eq_zero] at hw ⊢
  have hsub : (w - 1).toNat = w.toNat - 1 := by
    rw [BitVec.toNat_sub]
    have hone : (1 : Word).toNat = 1 := rfl
    omega
  omega

end Word

namespace Machine

/-- Above the cell in the alternate register there are zeros if there were, and above the one in the
    primary register there are zeros or what was there. -/
structure Narrows (m m' : Machine) : Prop where
  alt : (m.reg .rcx).upper = 0 → (m'.reg .rcx).upper = 0
  pri : (m'.reg .rax).upper = 0 ∨ (m'.reg .rax).upper = (m.reg .rax).upper

variable {m m' : Machine} {r : Reg}

theorem reg_setReg_ne {s : Reg} (m : Machine) (v : Word) (hs : s ≠ r) :
    (m.setReg r v).reg s = m.reg s :=
  RegFile.get_set_ne _ _ hs

namespace Narrows

theorem of_regs (hpri : m'.reg .rax = m.reg .rax) (halt : m'.reg .rcx = m.reg .rcx) :
    Narrows m m' := by
  refine ⟨fun h => ?_, Or.inr ?_⟩
  · rw [halt, h]
  · rw [hpri]

theorem of_local {ws : List Reg} (h : Local ws m m') (hpri : .rax ∉ ws) (halt : .rcx ∉ ws) :
    Narrows m m' :=
  of_regs (h.regs _ hpri) (h.regs _ halt)

theorem setReg (h : Narrows m m') {v : Word} (hv : v.upper = 0) : Narrows m (m'.setReg r v) := by
  constructor
  case alt =>
    intro hm
    by_cases hr : .rcx = r
    · subst hr
      exact hv
    · rw [reg_setReg_ne _ _ hr]
      exact h.alt hm
  case pri =>
    by_cases hr : .rax = r
    · subst hr
      exact Or.inl hv
    · rw [reg_setReg_ne _ _ hr]
      exact h.pri

theorem setReg32 (h : Narrows m m') (v : Cell) : Narrows m (m'.setReg32 r v) :=
  h.setReg (Word.upper_setWidth (Nat.le_refl 32) v)

theorem setReg_upper {v : Word} (hv : v.upper = (m.reg r).upper) : Narrows m (m.setReg r v) := by
  constructor
  case alt =>
    intro hm
    by_cases hr : .rcx = r
    · subst hr
      exact hv.trans hm
    · rw [reg_setReg_ne _ _ hr]
      exact hm
  case pri =>
    refine Or.inr ?_
    by_cases hr : .rax = r
    · subst hr
      exact hv
    · rw [reg_setReg_ne _ _ hr]

theorem setReg_ne (hr : .rax ≠ r ∧ .rcx ≠ r) (v : Word) : Narrows m (m.setReg r v) :=
  of_regs (reg_setReg_ne _ _ hr.1) (reg_setReg_ne _ _ hr.2)

theorem setFlags (h : Narrows m m') (f : Flags) : Narrows m (m'.setFlags f) := ⟨h.alt, h.pri⟩

theorem alu32 (m : Machine) (op : Alu) (r : Reg) (y : Cell) : Narrows m (m.alu32 op r y) := by
  have hflags : Narrows m (m.setFlags (op.flags (m.reg32 r) y)) := of_regs rfl rfl
  cases op with
  | cmp => exact hflags
  | _ => exact hflags.setReg32 _

theorem alu64 (hr : .rax ≠ r ∧ .rcx ≠ r) (op : Alu) (y : Word) : Narrows m (m.alu64 op r y) := by
  have hflags : Narrows m (m.setFlags (op.flags (m.reg r) y)) := of_regs rfl rfl
  cases op with
  | cmp => exact hflags
  | _ => exact of_regs (reg_setReg_ne _ _ hr.1) (reg_setReg_ne _ _ hr.2)

end Narrows

/-! ### Counts of string operations -/

theorem Rounds.upper_count {n : Nat} (h : Rounds ws n m m') (hm : (m.reg .rcx).upper = 0)
    (hn : n ≤ (m.reg .rcx).toNat) : (m'.reg .rcx).upper = 0 := by
  induction h with
  | stop => exact hm
  | round h _ ih =>
    obtain ⟨hupper, hle⟩ := Word.upper_sub_one hm hn
    rw [← h.count] at hupper hle
    exact ih hupper hle

/-- **Step.** A local instruction writes the computing registers as cells. -/
theorem exec_narrows {i : Instr} (hi : i.isLocal) (h : m.exec i = .ok m') : Narrows m m' := by
  have hlocal := exec_local hi h
  have hwide : ∀ {r}, r ∈ i.widens → .rax ≠ r ∧ .rcx ≠ r := Instr.ne_of_isLocal hi
  have hsame : Narrows m m := .of_regs rfl rfl
  have hdst : ∀ r : Reg, r ∈ [r] := List.mem_singleton_self
  cases i with
  -- Results in a register, of one width or the other.
  | movRR s dst src | lea s dst src =>
    cases s <;> cases h
    · exact hsame.setReg32 _
    · exact .setReg_ne (hwide (hdst _)) _
  | aluRR op s dst src | aluRI op s dst src =>
    cases s <;> cases h
    · exact .alu32 _ _ _ _
    · exact .alu64 (hwide (hdst _)) _ _
  | load s dst src =>
    cases s <;> obtain ⟨a, -, h⟩ := bind_eq_ok.mp h <;> obtain ⟨v, -, h⟩ :=
      bind_eq_ok.mp h <;> cases h
    · exact hsame.setReg32 _
    · exact .setReg_ne (hwide (hdst _)) _
  | movRI64 | movsxd =>
    cases h
    exact .setReg_ne (hwide (hdst _)) _
  | movRI32 | movsxByte | movdRX | not | cdq =>
    cases h
    exact hsame.setReg32 _
  | movzxByte dst src =>
    cases h
    exact hsame.setReg (Word.upper_setWidth (by decide) _)
  | loadByte | loadHalf =>
    obtain ⟨a, -, h⟩ := bind_eq_ok.mp h
    obtain ⟨v, -, h⟩ := bind_eq_ok.mp h
    cases h
    exact hsame.setReg (Word.upper_setWidth (by decide) _)
  | neg | imulRR | imulRRI | shiftCl | shiftImm =>
    cases h
    exact (hsame.setFlags _).setReg32 _
  | xchg a b =>
    cases h
    exact (hsame.setReg32 _).setReg32 _
  | idiv r | div r =>
    obtain ⟨-, h⟩ := ite_error_eq_ok.mp h
    cases h
    exact ((hsame.setFlags _).setReg32 _).setReg32 _
  | aluRM op dst src =>
    obtain ⟨a, -, h⟩ := bind_eq_ok.mp h
    obtain ⟨v, -, h⟩ := bind_eq_ok.mp h
    cases h
    exact .alu32 _ _ _ _
  | setcc c r =>
    obtain ⟨b, -, h⟩ := bind_eq_ok.mp h
    cases h
    exact .setReg_upper (Word.upper_setByte _ _)
  -- The count of a string operation goes down.
  | repMovsb =>
    exact ⟨fun hm => (rounds_moveBytes _ h).upper_count hm (Nat.le_refl _),
      Or.inr (congrArg _ (hlocal.regs _ (by decide)))⟩
  | repStosd =>
    exact ⟨fun hm => (rounds_storeCells _ h).upper_count hm (Nat.le_refl _),
      Or.inr (congrArg _ (hlocal.regs _ (by decide)))⟩
  | repeCmpsb =>
    exact ⟨fun hm => (rounds_compareBytes _ h).upper_count hm (Nat.le_refl _),
      Or.inr (congrArg _ (hlocal.regs _ (by decide)))⟩
  -- Nothing is written to a general register, or the instruction is not local.
  | push => cases hi
  | pop r =>
    exact absurd (List.mem_cons_of_mem r (hdst _))
      (Instr.not_owned_of_isLocal hi (r := .rsp) (by decide))
  | _ => exact .of_local hlocal List.not_mem_nil List.not_mem_nil

end Machine

end PawnNative
