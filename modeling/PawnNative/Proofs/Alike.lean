import Mathlib.Tactic.Common
import PawnNative.Proofs.Sites

/-! # Machines that agree

    Two machines that run the same instructions need not be equal to stay in step. It
    is enough that they agree on what the instructions read. `Known` says what two
    machines agree on besides their instances: some general registers, some vector
    registers, and perhaps the flags. What an instruction reads can be told from its
    form, and so can what is known when it has been executed.

    The native stacks of the two machines are left out, because return addresses
    stand there. So the instructions here are those that do not reach the native
    stack.
-/

namespace PawnNative

open X64 Convention

/-! ## Section 1: What instructions read -/

def X64.Mem.regs (o : Mem) : List Reg := o.base :: (o.index.map Index.reg).toList

namespace X64.Instr

/-- The registers that an instruction reads. -/
def reads : Instr → List Reg
  | .movRR _ _ src | .movzxByte _ src | .movsxByte _ src | .movsxd _ src | .imulRRI _ src _
  | .movdXR _ src => [src]
  | .load _ _ o | .loadByte _ o | .loadHalf _ o | .lea _ _ o | .storeImm o _ |
    .aluMI _ o _ | .incM o
  | .decM o | .movss _ o | .float _ _ o => o.regs
  | .store _ o src | .store16 o src | .store8 o src | .aluRM _ src o => src :: o.regs
  | .xchg a b | .aluRR _ _ a b | .test _ a b | .imulRR a b => [a, b]
  | .aluRI _ _ r _ | .not r | .neg r | .shiftImm _ r _ | .setcc _ r | .push r => [r]
  | .cdq => [.rax]
  | .idiv r | .div r => [.rax, .rdx, r]
  | .shiftCl _ r => [.rcx, r]
  | .repMovsb | .repeCmpsb => [.rsi, .rdi, .rcx]
  | .repStosd => [.rax, .rdi, .rcx]
  | .jmpR r | .callR r => [r]
  | .movRI64 .. | .movRI32 .. | .pop _ | .cld | .jmp _ | .jcc .. | .call _ | .ret | .int3 |
    .movdRX .. => []

/-- The operand in memory that an instruction accesses. -/
def operand? : Instr → Option Mem
  | .load _ _ o | .store _ o _ | .storeImm o _ | .store16 o _ | .store8 o _ |
    .loadByte _ o | .loadHalf _ o
  | .aluRM _ _ o | .aluMI _ o _ | .incM o | .decM o | .movss _ o | .float _ _ o => some o
  | _ => none

/-- The vector registers that an instruction reads. -/
def vectors : Instr → List Xmm
  | .movdRX _ x => [x]
  | .float .sqrt _ _ | .float .ofCell _ _ => []
  | .float _ x _ => [x]
  | _ => []

/-- The vector registers that an instruction writes. -/
def fills : Instr → List Xmm
  | .movdXR x _ | .movss x _ | .float _ x _ => [x]
  | _ => []

/-- Whether an instruction depends on flags. -/
def tests : Instr → Bool
  | .setcc .. | .jcc .. => true
  | _ => false

/-- Whether an instruction sets all flags, whatever they were. -/
def setsFlags : Instr → Bool
  | .aluRR .. | .aluRI .. | .aluRM .. | .test .. | .neg _ | .imulRR .. | .imulRRI .. |
    .idiv _ | .div _ => true
  | _ => false

end X64.Instr

/-- What two machines agree on. -/
structure Known where
  regs : List Reg
  vectors : List Xmm := []
  flags : Bool := false
  deriving DecidableEq, Repr

namespace Known

/-- Whether an instruction reads nothing else, and does not reach the native stack. -/
def covers (kn : Known) (i : Instr) : Bool :=
  i.reads.all (fun r => kn.regs.contains r) && i.vectors.all (fun x => kn.vectors.contains x) &&
    (!i.tests || kn.flags) &&
    (match i.operand? with
      | none => true
      | some o => decide (Machine.pointsInto o.base ≠ .stack))

/-- What is known after an instruction. -/
def after (kn : Known) (i : Instr) : Known where
  regs := i.writes ++ kn.regs
  vectors := i.fills ++ kn.vectors
  flags := i.setsFlags || kn.flags

variable {kn : Known} {i : Instr}

theorem reads_of_covers (h : kn.covers i) : ∀ r ∈ i.reads, r ∈ kn.regs := by
  intro r hr
  simp only [covers, Bool.and_eq_true_iff] at h
  exact List.contains_iff_mem.mp (List.all_eq_true.mp h.1.1.1 r hr)

theorem vectors_of_covers (h : kn.covers i) : ∀ x ∈ i.vectors, x ∈ kn.vectors := by
  intro x hx
  simp only [covers, Bool.and_eq_true_iff] at h
  exact List.contains_iff_mem.mp (List.all_eq_true.mp h.1.1.2 x hx)

theorem flags_of_covers (h : kn.covers i) (hi : i.tests) : kn.flags := by
  simp only [covers, Bool.and_eq_true_iff, hi] at h
  exact h.1.2

theorem pointsInto_of_covers (h : kn.covers i) {o : Mem} (ho : i.operand? = some o) :
    Machine.pointsInto o.base ≠ .stack := by
  simp only [covers, Bool.and_eq_true_iff, ho] at h
  exact of_decide_eq_true h.2

end Known

/-! ## Section 2: Agreement -/

/-- Two machines have the same instance and agree on what is known. String
    operations run upwards on both. -/
structure Machine.Alike (kn : Known) (m m' : Machine) : Prop where
  layout : m'.layout = m.layout
  regs : ∀ r ∈ kn.regs, m'.reg r = m.reg r
  vectors : ∀ x ∈ kn.vectors, m'.xmm.get x = m.xmm.get x
  flags : kn.flags → m'.flags = m.flags
  vm : m'.host.vm = m.host.vm
  up : m.down = false
  up' : m'.down = false

namespace Host

variable {h h' x : Host} {l : Layout} {a : Word}

theorem place?_of_vm (hvm : h'.vm = h.vm) : h'.place? l a = h.place? l a := by
  rw [place?, place?, hvm]

/-- Bytes are stored to the image block alone, so what is stored depends on the instance. -/
theorem store8_of_vm {v : Byte} (hvm : h'.vm = h.vm) (hx : h.store8 l a v = some x) :
    ∃ x', h'.store8 l a v = some x' ∧ x'.vm = x.vm := by
  obtain ⟨o, block, hplace, hblock, rfl⟩ := store8_eq_some.mp hx
  rw [← place?_of_vm hvm] at hplace
  rw [← hvm] at hblock ⊢
  exact ⟨_, store8_eq_some.mpr ⟨o, block, hplace, hblock, rfl⟩, rfl⟩

theorem store16_of_vm {v : Half} (hvm : h'.vm = h.vm) (hx : h.store16 l a v = some x) :
    ∃ x', h'.store16 l a v = some x' ∧ x'.vm = x.vm := by
  obtain ⟨o, block, hplace, hblock, rfl⟩ := store16_eq_some.mp hx
  rw [← place?_of_vm hvm] at hplace
  rw [← hvm] at hblock ⊢
  exact ⟨_, store16_eq_some.mpr ⟨o, block, hplace, hblock, rfl⟩, rfl⟩

theorem store32_of_vm {v : Cell} (hvm : h'.vm = h.vm) (hstack : ∀ d, h.place? l a ≠ some (.stack d))
    (hx : h.store32 l a v = some x) : ∃ x', h'.store32 l a v = some x' ∧ x'.vm = x.vm := by
  obtain ⟨vm, stack, log⟩ := h
  obtain ⟨vm', stack', log'⟩ := h'
  obtain rfl : vm' = vm := hvm
  obtain ⟨header, block, regs, pending, natives⟩ := vm'
  simp only [place?] at hstack
  simp only [store32] at hx ⊢
  split at hx
  · obtain ⟨block', hblock, rfl⟩ := Option.map_eq_some_iff.mp hx
    rw [hblock]
    exact ⟨_, rfl, rfl⟩
  · split_ifs at hx ⊢
    obtain ⟨r, hr, rfl⟩ := Option.map_eq_some_iff.mp hx
    rw [hr]
    exact ⟨_, rfl, rfl⟩
  · next d hplace => exact absurd hplace (hstack d)
  · cases hx

theorem load32_of_vm (hvm : h'.vm = h.vm) (hstack : ∀ d, h.place? l a ≠ some (.stack d)) :
    h'.load32 l a = h.load32 l a := by
  rw [load32, load32, place?_of_vm hvm, hvm]
  split
  · rfl
  · rfl
  · next d hd => exact absurd hd (hstack d)
  · rfl

end Host

namespace Machine

/-- When the one computation succeeds, so does the other one, with machines that agree. -/
def Follows (kn : Known) (x x' : Except Crash Machine) : Prop :=
  ∀ m, x = .ok m → ∃ m', x' = .ok m' ∧ m.Alike kn m'

variable {kn kn' : Known} {m m' : Machine} {r : Reg} {o : Mem}

theorem operand_not_stack {a : Word} (ho : m.operand o = .ok a) (hbase : pointsInto o.base ≠ .stack)
    (d : Nat) : m.host.place? m.layout a ≠ some (.stack d) := by
  intro hplace
  obtain ⟨-, p, hp, hregion⟩ := operand_eq_ok.mp ho
  rw [hplace, Option.some_inj] at hp
  rw [← hp] at hregion
  exact hbase hregion.symm

theorem Alike.ok (h : m.Alike kn m') : Follows kn (.ok m) (.ok m') := by
  intro x hx
  cases hx
  exact ⟨m', rfl, h⟩

theorem Follows.bind {x x' : Except Crash Machine} {f f' : Machine → Except Crash Machine}
    (h : Follows kn x x') (hf : ∀ m m', m.Alike kn m' → Follows kn' (f m) (f' m')) :
    Follows kn' (x >>= f) (x' >>= f') := by
  intro y hy
  obtain ⟨m, hm, hy⟩ := bind_eq_ok.mp hy
  obtain ⟨m', rfl, halike⟩ := h m hm
  exact hf m m' halike y hy

theorem Alike.mono (h : m.Alike kn m') (hregs : ∀ r ∈ kn'.regs, r ∈ kn.regs)
    (hvectors : ∀ x ∈ kn'.vectors, x ∈ kn.vectors)
    (hflags : kn'.flags → kn.flags) : m.Alike kn' m' :=
  ⟨h.layout, fun r hr => h.regs r (hregs r hr), fun x hx => h.vectors x (hvectors x hx),
    fun hf => h.flags (hflags hf), h.vm, h.up, h.up'⟩

theorem Follows.mono {x x' : Except Crash Machine} (h : Follows kn x x')
    (hregs : ∀ r ∈ kn'.regs, r ∈ kn.regs)
    (hvectors : ∀ x ∈ kn'.vectors, x ∈ kn.vectors) (hflags : kn'.flags → kn.flags) :
      Follows kn' x x' := by
  intro m hm
  obtain ⟨m', hm', halike⟩ := h m hm
  exact ⟨m', hm', halike.mono hregs hvectors hflags⟩

namespace Alike

variable (h : m.Alike kn m')
include h

theorem reg32 (hr : r ∈ kn.regs) : m'.reg32 r = m.reg32 r := by
  have hreg : m'.regs.get r = m.regs.get r := h.regs r hr
  rw [Machine.reg32, Machine.reg32, hreg]

theorem setReg (r : Reg) (v : Word) :
    (m.setReg r v).Alike { kn with regs := r :: kn.regs } (m'.setReg r v) := by
  refine ⟨h.layout, ?_, h.vectors, h.flags, h.vm, h.up, h.up'⟩
  intro s hs
  by_cases hsr : s = r
  · subst hsr
    exact (RegFile.get_set_self _ _ _).trans (RegFile.get_set_self _ _ _).symm
  · have hmem : s ∈ kn.regs := (List.mem_cons.mp hs).resolve_left hsr
    exact (RegFile.get_set_ne _ _ hsr).trans
      ((h.regs s hmem).trans (RegFile.get_set_ne _ _ hsr).symm)

theorem setReg32 (r : Reg) (v : Cell) :
    (m.setReg32 r v).Alike { kn with regs := r :: kn.regs } (m'.setReg32 r v) := h.setReg r _

theorem toReg (r : Reg) {v v' : Word} (hv : v' = v) :
    Follows { kn with regs := r :: kn.regs } (.ok (m.setReg r v)) (.ok (m'.setReg r v')) := by
  rw [hv]
  exact (h.setReg r v).ok

theorem toReg32 (r : Reg) {v v' : Cell} (hv : v' = v) :
    Follows { kn with regs := r :: kn.regs } (.ok (m.setReg32 r v)) (.ok (m'.setReg32 r v')) :=
  h.toReg r (congrArg _ hv)

theorem setFlags (f : Flags) : (m.setFlags f).Alike { kn with flags := true } (m'.setFlags f) :=
  ⟨h.layout, h.regs, h.vectors, fun _ => rfl, h.vm, h.up, h.up'⟩

/-- New flags that depend on the old ones are known if these were. -/
theorem changeFlags {f f' : Flags} (hf : kn.flags → f' = f) :
    (m.setFlags f).Alike kn (m'.setFlags f') :=
  ⟨h.layout, h.regs, h.vectors, hf, h.vm, h.up, h.up'⟩

theorem keepFlags (f : Flags) : (m.setFlags f).Alike kn (m'.setFlags f) :=
  h.changeFlags fun _ => rfl

theorem setXmm (x : Xmm) (v : Cell) : ({ m with xmm := m.xmm.set x v } : Machine).Alike
    { kn with vectors := x :: kn.vectors } { m' with xmm := m'.xmm.set x v } := by
  refine ⟨h.layout, h.regs, ?_, h.flags, h.vm, h.up, h.up'⟩
  intro y hy
  by_cases hyx : y = x
  · subst hyx
    exact (XmmFile.get_set_self _ _ _).trans (XmmFile.get_set_self _ _ _).symm
  · have hmem : y ∈ kn.vectors := (List.mem_cons.mp hy).resolve_left hyx
    exact (XmmFile.get_set_ne _ _ hyx).trans
      ((h.vectors y hmem).trans (XmmFile.get_set_ne _ _ hyx).symm)

theorem setHost {x x' : Host} (hvm : x'.vm = x.vm) : (m.setHost x).Alike kn (m'.setHost x') :=
  ⟨h.layout, h.regs, h.vectors, h.flags, hvm, h.up, h.up'⟩

/-! ### Memory -/

theorem address (hregs : ∀ r ∈ o.regs, r ∈ kn.regs) : m'.address o = m.address o := by
  have hbase := h.regs o.base (hregs _ List.mem_cons_self)
  unfold Machine.address
  cases hindex : o.index with
  | none => simp only [hbase]
  | some i =>
    have hmem : i.reg ∈ o.regs := by simp [Mem.regs, hindex]
    simp only [hbase, h.regs i.reg (hregs _ hmem)]

theorem place? (a : Word) : m'.host.place? m'.layout a = m.host.place? m.layout a := by
  rw [Host.place?, Host.place?, h.vm, h.layout]

theorem operand (hregs : ∀ r ∈ o.regs, r ∈ kn.regs) : m'.operand o = m.operand o := by
  simp only [Machine.operand, h.address hregs, h.place?]

theorem load8 (a : Word) : m'.load8 a = m.load8 a := by
  rw [Machine.load8, Machine.load8, Host.load8, Host.load8, h.place?, h.vm]

theorem load16 (a : Word) : m'.load16 a = m.load16 a := by
  rw [Machine.load16, Machine.load16, Host.load16, Host.load16, h.place?, h.vm]

theorem store8 (a : Word) (v : Byte) : Follows kn (m.store8 a v) (m'.store8 a v) := by
  intro x hx
  obtain ⟨host, hhost, rfl⟩ := store8_eq_ok.mp hx
  obtain ⟨host', hhost', hvm⟩ := Host.store8_of_vm h.vm hhost
  rw [← h.layout] at hhost'
  exact ⟨_, store8_eq_ok.mpr ⟨host', hhost', rfl⟩, h.setHost hvm⟩

theorem store16 (a : Word) (v : Half) : Follows kn (m.store16 a v) (m'.store16 a v) := by
  intro x hx
  obtain ⟨host, hhost, rfl⟩ := store16_eq_ok.mp hx
  obtain ⟨host', hhost', hvm⟩ := Host.store16_of_vm h.vm hhost
  rw [← h.layout] at hhost'
  exact ⟨_, store16_eq_ok.mpr ⟨host', hhost', rfl⟩, h.setHost hvm⟩

theorem store32 {a : Word} (hstack : ∀ d, m.host.place? m.layout a ≠ some (.stack d)) (v : Cell) :
    Follows kn (m.store32 a v) (m'.store32 a v) := by
  intro x hx
  obtain ⟨host, hhost, rfl⟩ := store32_eq_ok.mp hx
  obtain ⟨host', hhost', hvm⟩ := Host.store32_of_vm h.vm hstack hhost
  rw [← h.layout] at hhost'
  exact ⟨_, store32_eq_ok.mpr ⟨host', hhost', rfl⟩, h.setHost hvm⟩

theorem load32 {a : Word} (hstack : ∀ d, m.host.place? m.layout a ≠ some (.stack d)) :
    m'.load32 a = m.load32 a := by
  rw [Machine.load32, Machine.load32, h.layout, Host.load32_of_vm h.vm hstack]

/-! ### Operands -/

section
variable (hregs : ∀ r ∈ o.regs, r ∈ kn.regs) (hbase : pointsInto o.base ≠ .stack)
include hregs

theorem bindOperand {f f' : Word → Except Crash Machine}
    (hf : ∀ a, m.operand o = .ok a → Follows kn' (f a) (f' a)) :
    Follows kn' (m.operand o >>= f) (m'.operand o >>= f') := by
  intro x hx
  obtain ⟨a, ha, hx⟩ := bind_eq_ok.mp hx
  rw [h.operand hregs, ha]
  exact hf a ha x hx

theorem bindByte {f f' : Byte → Except Crash Machine} (hf : ∀ v, Follows kn' (f v) (f' v)) :
    Follows kn' (m.operand o >>= fun a => m.load8 a >>= f)
      (m'.operand o >>= fun a => m'.load8 a >>= f') := by
  refine h.bindOperand hregs fun a _ x hx => ?_
  obtain ⟨v, hv, hx⟩ := bind_eq_ok.mp hx
  rw [h.load8, hv]
  exact hf v x hx

theorem bindHalf {f f' : Half → Except Crash Machine} (hf : ∀ v, Follows kn' (f v) (f' v)) :
    Follows kn' (m.operand o >>= fun a => m.load16 a >>= f)
      (m'.operand o >>= fun a => m'.load16 a >>= f') := by
  refine h.bindOperand hregs fun a _ x hx => ?_
  obtain ⟨v, hv, hx⟩ := bind_eq_ok.mp hx
  rw [h.load16, hv]
  exact hf v x hx

include hbase

theorem bindCell {f f' : Word → Cell → Except Crash Machine}
    (hf : ∀ a v, (∀ d, m.host.place? m.layout a ≠ some (.stack d)) → Follows kn' (f a v) (f' a v)) :
    Follows kn' (m.operand o >>= fun a => m.load32 a >>= f a)
      (m'.operand o >>= fun a => m'.load32 a >>= f' a) := by
  refine h.bindOperand hregs fun a ha x hx => ?_
  obtain ⟨v, hv, hx⟩ := bind_eq_ok.mp hx
  have hstack := operand_not_stack ha hbase
  rw [h.load32 hstack, hv]
  exact hf a v hstack x hx

theorem storeCell (v : Cell) :
    Follows kn (m.operand o >>= fun a => m.store32 a v)
      (m'.operand o >>= fun a => m'.store32 a v) :=
  h.bindOperand hregs fun _ ha => h.store32 (operand_not_stack ha hbase) v

theorem increment (op : Alu) :
    Follows kn (m.operand o >>= m.increment op) (m'.operand o >>= m'.increment op) := by
  have hflags : ∀ v : Cell, kn.flags → ({ op.flags v 1 with carry := m'.flags.carry } : Flags) =
      { op.flags v 1 with carry := m.flags.carry } := by
    intro v hf
    rw [h.flags hf]
  exact h.bindCell hregs hbase fun a v hstack => (h.changeFlags (hflags v)).store32 hstack _

theorem bindWord {f f' : Word → Except Crash Machine} :
    Follows kn' (m.operand o >>= fun a => m.load64 a >>= f)
    (m'.operand o >>= fun a => m'.load64 a >>= f') := by
  refine h.bindOperand hregs fun a ha x hx => ?_
  obtain ⟨v, hv, -⟩ := bind_eq_ok.mp hx
  obtain ⟨d, hplace⟩ := Host.place?_of_load64 (reached_eq_ok.mp hv)
  exact absurd hplace (operand_not_stack ha hbase d)

theorem storeWord {v v' : Word} : Follows kn' (m.operand o >>= fun a => m.store64 a v)
    (m'.operand o >>= fun a => m'.store64 a v') := by
  refine h.bindOperand hregs fun a ha x hx => ?_
  obtain ⟨host, hhost, -⟩ := store64_eq_ok.mp hx
  obtain ⟨d, hplace⟩ := Host.place?_of_store64 hhost
  exact absurd hplace (operand_not_stack ha hbase d)

end

/-! ### Groups of instructions -/

theorem alu32 (op : Alu) (hr : r ∈ kn.regs) (y : Cell) :
    (m.alu32 op r y).Alike { kn with regs := r :: kn.regs, flags := true } (m'.alu32 op r y) := by
  have hflags := h.setFlags (op.flags (m.reg32 r) y)
  unfold Machine.alu32
  rw [h.reg32 hr]
  cases op with
  | cmp => exact hflags.mono (by simp [hr]) (fun _ => id) id
  | _ => exact hflags.setReg32 r _

theorem alu64 (op : Alu) (hr : r ∈ kn.regs) (y : Word) :
    (m.alu64 op r y).Alike { kn with regs := r :: kn.regs, flags := true } (m'.alu64 op r y) := by
  have hflags := h.setFlags (op.flags (m.reg r) y)
  unfold Machine.alu64
  rw [h.regs r hr]
  cases op with
  | cmp => exact hflags.mono (by simp [hr]) (fun _ => id) id
  | _ => exact hflags.setReg r _

/-- A division that both machines make, or that both of them refuse. -/
theorem quotients {bad : Prop} [Decidable bad] (q r : Cell) :
    Follows { kn with regs := .rax :: .rdx :: kn.regs, flags := true }
      (if bad then .error .divideError else .ok (((m.setFlags {}).setReg32 .rax q).setReg32 .rdx r))
      (if bad then .error .divideError else .ok
        (((m'.setFlags {}).setReg32 .rax q).setReg32 .rdx r)) := by
  intro x hx
  obtain ⟨hfits, hx⟩ := ite_error_eq_ok.mp hx
  cases hx
  exact ⟨_, if_neg hfits, .mono (((h.setFlags {}).setReg32 .rax _).setReg32 .rdx _)
    (fun r hr => (List.Perm.swap _ _ _).mem_iff.mp hr) (fun _ => id) id⟩

/-! ### String operations -/

theorem keepReg (r : Reg) (v : Word) : (m.setReg r v).Alike kn (m'.setReg r v) :=
  (h.setReg r v).mono (fun _ hs => List.mem_cons_of_mem _ hs) (fun _ => id) id

theorem advance (hr : r ∈ kn.regs) (n : Word) :
    (m.setReg r (m.reg r + m.stride n)).Alike kn (m'.setReg r (m'.reg r + m'.stride n)) := by
  rw [h.regs r hr, Machine.stride, Machine.stride, h.up, h.up']
  exact h.keepReg r _

theorem countDown (hr : r ∈ kn.regs) :
    (m.setReg r (m.reg r - 1)).Alike kn (m'.setReg r (m'.reg r - 1)) := by
  rw [h.regs r hr]
  exact h.keepReg r _

omit h in
theorem moveBytes (n : Nat) (hrsi : .rsi ∈ kn.regs) (hrdi : .rdi ∈ kn.regs) (hrcx : .rcx ∈ kn.regs)
    (h : m.Alike kn m') : Follows kn (moveBytes n m) (moveBytes n m') := by
  induction n generalizing m m' with
  | zero => exact h.ok
  | succ n ih =>
    intro x hx
    obtain ⟨v, hv, hx⟩ := bind_eq_ok.mp hx
    rw [Machine.moveBytes, h.regs _ hrsi, h.regs _ hrdi, h.load8, hv]
    refine (h.store8 (m.reg .rdi) v).bind (fun y y' hy => ?_) x hx
    exact ih (((hy.advance hrsi 1).advance hrdi 1).countDown hrcx)

omit h in
theorem storeCells (n : Nat) (hrax : .rax ∈ kn.regs) (hrdi : .rdi ∈ kn.regs) (hrcx : .rcx ∈ kn.regs)
    (h : m.Alike kn m') : Follows kn (storeCells n m) (storeCells n m') := by
  induction n generalizing m m' with
  | zero => exact h.ok
  | succ n ih =>
    refine h.bindOperand (o := { base := .rdi }) (by simpa [Mem.regs] using hrdi) fun a ha => ?_
    rw [h.reg32 hrax]
    refine (h.store32 (operand_not_stack ha (by decide)) _).bind fun y y' hy => ?_
    exact ih ((hy.advance hrdi 4).countDown hrcx)

omit h in
theorem compareBytes (n : Nat) (hrsi : .rsi ∈ kn.regs) (hrdi : .rdi ∈ kn.regs)
    (hrcx : .rcx ∈ kn.regs)
    (h : m.Alike kn m') : Follows kn (compareBytes n m) (compareBytes n m') := by
  induction n generalizing m m' with
  | zero => exact h.ok
  | succ n ih =>
    intro z hz
    obtain ⟨x, hx, hz⟩ := bind_eq_ok.mp hz
    obtain ⟨y, hy, hz⟩ := bind_eq_ok.mp hz
    rw [Machine.compareBytes, h.regs _ hrsi, h.regs _ hrdi, h.load8, hx, h.load8,
      ok_bind, hy, ok_bind]
    have hround := (((h.keepFlags (subFlags x y)).advance hrsi 1).advance hrdi 1).countDown hrcx
    by_cases hxy : x = y
    · rw [if_pos hxy] at hz
      rw [if_pos hxy]
      exact ih hround z hz
    · rw [if_neg hxy] at hz
      rw [if_neg hxy]
      exact hround.ok z hz

end Alike

/-! ## Section 3: Execution -/

/-- **Step.** An instruction that reads what is known does the same on both machines. -/
theorem Alike.exec (h : m.Alike kn m') {i : Instr} (hgoes : i.goesOn) (hrsp : .rsp ∉ i.writes)
    (hi : kn.covers i) : Follows (kn.after i) (m.exec i) (m'.exec i) := by
  have hreads := Known.reads_of_covers hi
  have hbase : ∀ o, i.operand? = some o → pointsInto o.base ≠ .stack := fun o ho =>
    Known.pointsInto_of_covers hi ho
  have hback : (∀ r ∈ i.writes, r ∈ i.reads) → ∀ r ∈ i.writes ++ kn.regs, r ∈ kn.regs := by
    intro hwrites r hr
    rcases List.mem_append.mp hr with hr | hr
    · exact hreads r (hwrites r hr)
    · exact hr
  have hword : ∀ r ∈ i.reads, m'.reg r = m.reg r := fun r hr => h.regs r (hreads r hr)
  have hcell : ∀ r ∈ i.reads, m'.reg32 r = m.reg32 r := fun r hr => h.reg32 (hreads r hr)
  cases i with
  -- Results in a register, from registers and immediates.
  | movRR s dst src =>
    cases s
    · exact h.toReg32 dst (hcell src List.mem_cons_self)
    · exact h.toReg dst (hword src List.mem_cons_self)
  | movRI64 dst imm => exact h.toReg dst rfl
  | movRI32 dst imm => exact h.toReg32 dst rfl
  | movzxByte dst src => exact h.toReg dst (by rw [hword src List.mem_cons_self])
  | movsxByte dst src => exact h.toReg32 dst (by rw [hword src List.mem_cons_self])
  | movsxd dst src => exact h.toReg dst (by rw [hcell src List.mem_cons_self])
  | lea s dst src =>
    cases s
    · exact h.toReg32 dst (by rw [h.address hreads])
    · exact h.toReg dst (h.address hreads)
  | xchg a b =>
    refine Alike.ok ?_
    rw [hcell a (by simp [Instr.reads]), hcell b (by simp [Instr.reads])]
    refine ((h.setReg32 a _).setReg32 b _).mono ?_ (fun _ => id) id
    intro r hr
    simp only [Known.after, Instr.writes, List.mem_append, List.mem_cons, List.not_mem_nil,
      or_false] at hr ⊢
    tauto
  | not r => exact h.toReg32 r (by rw [hcell r List.mem_cons_self])
  | cdq => exact h.toReg32 .rdx (by rw [hcell .rax List.mem_cons_self])
  | movdRX dst x =>
    exact h.toReg32 dst (h.vectors x (Known.vectors_of_covers hi x List.mem_cons_self))
  | movdXR x src =>
    refine Alike.ok ?_
    rw [hcell src List.mem_cons_self]
    exact h.setXmm x _
  -- Results in a register and in the flags.
  | aluRR op s dst src =>
    have hdst : dst ∈ kn.regs := hreads dst (by simp [Instr.reads])
    cases s
    · refine Alike.ok ?_
      rw [hcell src (by simp [Instr.reads])]
      exact h.alu32 op hdst _
    · refine Alike.ok ?_
      rw [hword src (by simp [Instr.reads])]
      exact h.alu64 op hdst _
  | aluRI op s dst imm =>
    have hdst : dst ∈ kn.regs := hreads dst List.mem_cons_self
    cases s
    · exact (h.alu32 op hdst imm).ok
    · exact (h.alu64 op hdst _).ok
  | test s a b =>
    cases s
    · refine Alike.ok ?_
      rw [hcell a (by simp [Instr.reads]), hcell b (by simp [Instr.reads])]
      exact h.setFlags _
    · refine Alike.ok ?_
      rw [hword a (by simp [Instr.reads]), hword b (by simp [Instr.reads])]
      exact h.setFlags _
  | neg r =>
    refine Alike.ok ?_
    rw [hcell r List.mem_cons_self]
    exact (h.setFlags _).setReg32 r _
  | imulRR dst src =>
    refine Alike.ok ?_
    rw [hcell dst (by simp [Instr.reads]), hcell src (by simp [Instr.reads])]
    exact (h.setFlags _).setReg32 dst _
  | imulRRI dst src imm =>
    refine Alike.ok ?_
    rw [hcell src List.mem_cons_self]
    exact (h.setFlags _).setReg32 dst _
  | idiv r =>
    rw [Machine.exec, Machine.exec, Machine.divideSigned, Machine.divideSigned,
      hcell r (by simp [Instr.reads]),
      hcell .rax (by simp [Instr.reads]), hcell .rdx (by simp [Instr.reads])]
    exact h.quotients _ _
  | div r =>
    rw [Machine.exec, Machine.exec, Machine.divide, Machine.divide, hcell r (by simp [Instr.reads]),
      hcell .rax (by simp [Instr.reads]), hcell .rdx (by simp [Instr.reads])]
    exact h.quotients _ _
  | shiftCl op r =>
    refine Alike.ok ?_
    rw [hword .rcx (by simp [Instr.reads]), shift, shift, hcell r (by simp [Instr.reads])]
    exact (h.changeFlags fun hf => by rw [h.flags hf]).setReg32 r _
  | shiftImm op r n =>
    refine Alike.ok ?_
    rw [shift, shift, hcell r List.mem_cons_self]
    exact (h.changeFlags fun hf => by rw [h.flags hf]).setReg32 r _
  | setcc c r =>
    have hflags : m'.test c = m.test c := by
      rw [Machine.test, Machine.test, h.flags (Known.flags_of_covers hi rfl)]
    intro x hx
    obtain ⟨b, hb, hx⟩ := bind_eq_ok.mp hx
    rw [Machine.exec, hflags, hb, hword r List.mem_cons_self]
    exact (h.setReg r _).ok x hx
  -- Loads.
  | load s dst src =>
    cases s
    · exact h.bindCell hreads (hbase src rfl) fun _ v _ => (h.setReg32 dst v).ok
    · exact h.bindWord hreads (hbase src rfl)
  | loadByte dst src => exact h.bindByte hreads fun v => (h.setReg dst _).ok
  | loadHalf dst src => exact h.bindHalf hreads fun v => (h.setReg dst _).ok
  | aluRM op dst src =>
    refine h.bindCell (fun r hr => hreads r (List.mem_cons_of_mem _ hr)) (hbase src rfl)
      fun _ v _ => ?_
    exact (h.alu32 op (hreads dst List.mem_cons_self) v).ok
  | movss x src => exact h.bindCell hreads (hbase src rfl) fun _ v _ => (h.setXmm x v).ok
  | float op x src =>
    refine h.bindCell hreads (hbase src rfl) fun _ v _ => Alike.ok ?_
    have hresult : floatResult op (m'.xmm.get x) v = floatResult op (m.xmm.get x) v := by
      cases op with
      | sqrt | ofCell => rfl
      | _ => rw [h.vectors x (Known.vectors_of_covers hi x (List.mem_singleton_self _))]
    rw [hresult]
    exact h.setXmm x _
  -- Stores.
  | store s dst src =>
    have hdst : ∀ r ∈ dst.regs, r ∈ kn.regs := fun r hr => hreads r (List.mem_cons_of_mem _ hr)
    cases s
    · rw [Machine.exec, Machine.exec, hcell src List.mem_cons_self]
      exact h.storeCell hdst (hbase dst rfl) _
    · exact h.storeWord hdst (hbase dst rfl)
  | storeImm dst imm => exact h.storeCell hreads (hbase dst rfl) imm
  | store16 dst src =>
    rw [Machine.exec, Machine.exec, hword src List.mem_cons_self]
    exact h.bindOperand (fun r hr => hreads r (List.mem_cons_of_mem _ hr)) fun a _ => h.store16 a _
  | store8 dst src =>
    rw [Machine.exec, Machine.exec, hword src List.mem_cons_self]
    exact h.bindOperand (fun r hr => hreads r (List.mem_cons_of_mem _ hr)) fun a _ => h.store8 a _
  | aluMI op dst imm =>
    refine h.bindCell hreads (hbase dst rfl) fun a v hstack => ?_
    have hflags := h.keepFlags (op.flags v imm)
    cases op with
    | cmp => exact hflags.ok
    | _ => exact hflags.store32 hstack _
  | incM dst | decM dst =>
    exact h.increment hreads (hbase dst rfl) _
  | cld => exact Alike.ok ⟨h.layout, h.regs, h.vectors, h.flags, h.vm, rfl, rfl⟩
  | repMovsb =>
    rw [Machine.exec, Machine.exec, hword .rcx (by decide)]
    exact .mono (h.moveBytes _ (hreads _ (by decide)) (hreads _ (by decide)) (hreads _ (by decide)))
      (hback (by decide)) (fun _ => id) id
  | repStosd =>
    rw [Machine.exec, Machine.exec, hword .rcx (by decide)]
    exact .mono (h.storeCells _ (hreads _ (by decide)) (hreads _ (by decide))
        (hreads _ (by decide))) (hback (by decide))
      (fun _ => id) id
  | repeCmpsb =>
    rw [Machine.exec, Machine.exec, hword .rcx (by decide)]
    exact .mono (h.compareBytes _ (hreads _ (by decide)) (hreads _ (by decide))
        (hreads _ (by decide)))
      (hback (by decide)) (fun _ => id) id
  | push r | pop r => simp [Instr.writes] at hrsp
  | jmp | jcc | call | jmpR | callR | ret | int3 => cases hgoes

end Machine

end PawnNative
