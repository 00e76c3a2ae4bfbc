import Mathlib.Tactic.Common
import PawnNative.Proofs.Effects
import PawnNative.Proofs.Footprint
import PawnNative.Proofs.Layout
import PawnNative.Proofs.NativeStack
import PawnNative.Run.Activation

/-! # Activations on the native stack

    An activation of compiled code keeps a part of the native stack. Words are
    numbered from the top, and from the first word of the activation on they are

      0       the result and the fault of the call
      2       the address of the data segment
      3       the address of the register file
      4       the stack pointer to go back to on a halt; the record is here
      5       where the host goes on
      6 … 11  the registers of the host
      12      nothing
      13      where the entry goes on
      14 …    where the functions that were called since go on

    `Machine.Inside` says that a machine is inside an activation: the words are
    there, everything above them is as it was at the entry, and the instance has
    only changed in ways that are allowed. What is allowed is a relation, `Steady`
    says which relations can be used, and what natives do has to be allowed too.
-/

namespace PawnNative

open X64 Convention

/-! ## Section 1: Instructions that reach the native stack and the register file -/

namespace Machine

variable {m : Machine} {l : Layout} {code j k : Nat} {f : CallField} (hm : m.layout = l)
  (hs : l.Separate m.host.vm.block.size code)
include hm hs

theorem push_slot (hrsp : m.reg .rsp = l.slot j) (hroom : 8 * (j + 2) ≤ l.stackSize) (v : Word) :
    m.push v = .ok ((m.setReg .rsp (l.slot (j + 1))).setHost
      { m.host with stack := m.host.stack.setWord (j + 1) v }) := by
  subst hm
  have hsp : m.reg .rsp - 8 = m.layout.slot (j + 1) := by rw [hrsp, Layout.slot_sub]
  show (m.setReg .rsp (m.reg .rsp - 8)).store64 (m.reg .rsp - 8) v = _
  rw [hsp]
  exact store64_eq_ok.mpr ⟨_, Host.store64_slot hs hroom v, rfl⟩

omit hs in
theorem push_full (hrsp : m.reg .rsp = l.slot j) (hj : 8 * (j + 2) < 0x10000000000000000)
    (hfull : l.stackSize < 8 * (j + 2)) (v : Word) :
    m.push v = .error (.badAddress (l.slot (j + 1))) := by
  have hsp : m.reg .rsp - 8 = l.slot (j + 1) := by rw [hrsp, Layout.slot_sub]
  have hnone : m.host.store64 l (l.slot (j + 1)) v = none :=
    Host.store64_slot_eq_none hfull hj v
  show (m.setReg .rsp (m.reg .rsp - 8)).store64 (m.reg .rsp - 8) v = _
  rw [hsp]
  obtain ⟨layout, regs, xmm, flags, down, rip, host⟩ := m
  subst hm
  show (reached _ (host.store64 layout (layout.slot (j + 1)) v) >>= _) = _
  rw [show host.store64 layout (layout.slot (j + 1)) v = none from hnone]
  rfl

theorem pop_slot (hrsp : m.reg .rsp = l.slot (j + 1)) (hroom : 8 * (j + 2) ≤ l.stackSize) :
    m.pop = .ok (m.host.stack.word (j + 1), m.setReg .rsp (l.slot j)) := by
  subst hm
  have hload : m.load64 (m.layout.slot (j + 1)) = .ok (m.host.stack.word (j + 1)) :=
    reached_eq_ok.mpr (Host.load64_slot hs hroom)
  have hsp : m.layout.slot (j + 1) + 8 = m.layout.slot j := m.layout.slot_add j 1
  rw [pop, hrsp, hload, hsp]
  rfl

omit hm hs in
theorem address_field (m : Machine) (f : CallField) :
    m.address (field f) = m.reg call + BitVec.ofNat 64 f.offset := by
  cases f <;> rfl

omit hm hs in
theorem operand_field {d : Nat}
    (hplace : m.host.place? m.layout (m.address (field f)) = some (.stack d)) :
    m.operand (field f) = .ok (m.address (field f)) :=
  operand_eq_ok.mpr ⟨rfl, .stack d, hplace, rfl⟩

theorem operand_wordField (hcall : m.reg call = l.slot (j + k)) (hf : f.offset = 8 * k)
    (hroom : 8 * (j + 1) ≤ l.stackSize) : m.operand (field f) = .ok (l.slot j) := by
  subst hm
  have haddress : m.address (field f) = m.layout.slot j := by
    rw [address_field, hcall, hf, Layout.slot_add]
  have hplace : m.host.place? m.layout (m.layout.slot j) = some (.stack (8 * (j + 1))) :=
    hs.place?_slot hroom
  rw [← haddress] at hplace ⊢
  exact operand_field hplace

theorem exec_loadField (f : CallField) (hcall : m.reg call = l.slot (j + k))
    (hf : f.offset = 8 * k) (hroom : 8 * (j + 1) ≤ l.stackSize) (dst : Reg) :
    m.exec (.load .q dst (field f)) = .ok (m.setReg dst (m.host.stack.word j)) := by
  have hload : m.load64 (l.slot j) = .ok (m.host.stack.word j) := by
    subst hm
    exact reached_eq_ok.mpr (Host.load64_slot hs hroom)
  show (m.operand (field f) >>= fun a => m.load64 a >>= _) = _
  rw [operand_wordField hm hs hcall hf hroom, ok_bind, hload]
  rfl

theorem exec_storeHalt (hcall : m.reg call = l.slot j) (hroom : 8 * (j + 1) ≤ l.stackSize)
    (src : Reg) :
    m.exec (.store .q (field .haltRsp) src) =
      .ok (m.setHost { m.host with stack := m.host.stack.setWord j (m.reg src) }) := by
  show (m.operand (field .haltRsp) >>= fun a => m.store64 a (m.reg src)) = _
  rw [operand_wordField (k := 0) hm hs hcall rfl hroom]
  subst hm
  exact store64_eq_ok.mpr ⟨_, Host.store64_slot hs hroom _, rfl⟩

theorem exec_storeResult (hcall : m.reg call = l.slot (j + 4)) (hroom : 8 * (j + 1) ≤ l.stackSize)
    (src : Reg) :
    m.exec (.store .d (field .retval) src) =
      .ok (m.setHost { m.host with stack := m.host.stack.set (2 * j + 1) (m.reg32 src) }) := by
  show (m.operand (field .retval) >>= fun a => m.store32 a (m.reg32 src)) = _
  rw [operand_wordField (k := 4) hm hs hcall rfl hroom]
  subst hm
  exact store32_eq_ok.mpr ⟨_, Host.store32_slot hs hroom _, rfl⟩

theorem operand_fault (hcall : m.reg call = l.slot (j + 4)) (hroom : 8 * (j + 1) ≤ l.stackSize) :
    m.operand (field .error) = .ok (l.slot j + 4) := by
  subst hm
  have haddress : m.address (field .error) = m.layout.slot j + 4 := by
    rw [address_field, hcall, ← m.layout.slot_add j 4, BitVec.add_assoc]
    rfl
  have hplace : m.host.place? m.layout (m.layout.slot j + 4) = some (.stack (8 * j + 4)) :=
    hs.place?_slot_high hroom
  rw [← haddress] at hplace ⊢
  exact operand_field hplace

theorem load32_fault (hroom : 8 * (j + 1) ≤ l.stackSize) :
    m.load32 (l.slot j + 4) = .ok (m.host.stack.get (2 * j)) := by
  subst hm
  exact reached_eq_ok.mpr (Host.load32_slot_high hs hroom)

/-- A field of the record at an address that is a cell. -/
def recordCell (m : Machine) (record : Word) (f : CallField) : Except Crash Cell :=
  m.load32 (record + BitVec.ofNat 64 f.offset)

theorem recordCell_retval (hroom : 8 * (j + 1) ≤ l.stackSize) :
    m.recordCell (l.slot (j + 4)) .retval = .ok (m.host.stack.get (2 * j + 1)) := by
  have haddress : l.slot (j + 4) + BitVec.ofNat 64 CallField.retval.offset = l.slot j :=
    l.slot_add j 4
  rw [recordCell, haddress]
  subst hm
  exact reached_eq_ok.mpr (Host.load32_slot hs hroom)

theorem recordCell_error (hroom : 8 * (j + 1) ≤ l.stackSize) :
    m.recordCell (l.slot (j + 4)) .error = .ok (m.host.stack.get (2 * j)) := by
  have haddress : l.slot (j + 4) + BitVec.ofNat 64 CallField.error.offset = l.slot j + 4 := by
    rw [← l.slot_add j 4, BitVec.add_assoc]
    rfl
  rw [recordCell, haddress]
  exact load32_fault hm hs hroom

section
variable (hfile : m.reg .rdx = l.file) (r : RegisterName)
include hfile

theorem operand_file :
    m.operand (saved .rdx r) = .ok (l.file + BitVec.ofNat 64 r.offset) := by
  subst hm
  refine operand_eq_ok.mpr ⟨?_, .file r.offset, hs.place?_file r, rfl⟩
  rw [← hfile]
  cases r <;> rfl

theorem exec_storeSaved (src : Reg) :
    m.exec (.store .d (saved .rdx r) src) =
      .ok (m.setHost { m.host with vm := m.host.vm.put r (m.reg32 src) }) := by
  show (m.operand (saved .rdx r) >>= fun a => m.store32 a (m.reg32 src)) = _
  rw [operand_file hm hs hfile]
  subst hm
  exact store32_eq_ok.mpr ⟨_, Host.store32_file (hs.place?_file r), rfl⟩

theorem exec_loadSaved (dst : Reg) :
    m.exec (.load .d dst (saved .rdx r)) = .ok (m.setReg32 dst (m.host.vm.regs.get r)) := by
  have hload : m.load32 (l.file + BitVec.ofNat 64 r.offset) = .ok (m.host.vm.regs.get r) := by
    subst hm
    exact reached_eq_ok.mpr (Host.load32_file (hs.place?_file r))
  show (m.operand (saved .rdx r) >>= fun a => m.load32 a >>= _) = _
  rw [operand_file hm hs hfile, ok_bind, hload]
  rfl

end

end Machine

/-! ## Section 2: What may change of an instance -/

/-- What no running code changes: the header, the natives and the size of the block. -/
structure Instance.Fixed (vm vm' : Instance) : Prop where
  header : vm'.header = vm.header
  natives : vm'.natives = vm.natives
  size : vm'.block.size = vm.block.size

namespace Instance.Fixed

variable {u v w : Instance}

theorem refl (vm : Instance) : vm.Fixed vm := ⟨rfl, rfl, rfl⟩

theorem trans (h : u.Fixed v) (h' : v.Fixed w) : u.Fixed w :=
  ⟨h'.header.trans h.header, h'.natives.trans h.natives, h'.size.trans h.size⟩

theorem symm (h : u.Fixed v) : v.Fixed u := ⟨h.header.symm, h.natives.symm, h.size.symm⟩

end Instance.Fixed

/-- The registers that compiled code changes in the register file. -/
def changeable : List RegisterName := [.pri, .alt, .frm, .stk, .hea]

/-- A relation between instances that holds over every change compiled code makes by itself. -/
structure Steady (K : Instance → Instance → Prop) : Prop where
  refl : ∀ vm, K vm vm
  trans : ∀ {u v w}, K u v → K v w → K u w
  fixed : ∀ {v w}, K v w → v.Fixed w
  block : ∀ vm {block : Block}, block.size = vm.block.size → K vm { vm with block }
  register : ∀ vm {r : RegisterName} (v : Cell), r ∈ changeable → K vm (vm.put r v)
  settle : ∀ vm, K vm { vm with pending := 0 }

/-! ## Section 3: Activations -/

/-- An activation of compiled code: where its part of the native stack starts, and the registers
    and the host when it was entered. -/
structure Activation where
  base : Nat
  regs : RegFile
  host : Host

namespace Activation

variable (a : Activation) (l : Layout)

def data : Word := l.block + a.host.vm.header.dat.setWidth 64

/-- The words from the third one on, up to the registers of the host. -/
def words : List Word :=
  [a.data l, l.file, l.slot (a.base + 12), l.hostReturn] ++ hostRegs.map a.regs.get

@[simp] theorem length_words : (a.words l).length = 10 := rfl

end Activation

/-- Where the entry goes on when the function that it called returns. -/
def Environment.back (env : Environment) : Word :=
  env.layout.code + BitVec.ofNat 64 (linesSize (entryLines.take 18))

/-- Where the code for a fault is that a helper has noted. -/
def Environment.pending (env : Environment) : Word :=
  env.layout.code + BitVec.ofNat 64 (linesSize (entryLines ++ leaveLines))

/-- A machine inside an activation, with these functions called since. -/
structure Machine.Inside (m : Machine) (env : Environment) (K : Instance → Instance → Prop)
    (a : Activation) (rets : List Word) : Prop where
  layout : m.layout = env.layout
  steady : K a.host.vm m.host.vm
  record : m.reg call = env.layout.slot (a.base + 4)
  data : m.reg Convention.data = a.data env.layout
  words : m.host.stack.Holds (a.base + 2) (a.words env.layout)
  returns : m.host.stack.Holds (a.base + 13) (env.back :: rets)
  room : 8 * (a.base + 14 + rets.length) ≤ env.layout.stackSize
  outer : a.host.stack.Agrees a.base m.host.stack

/-- A machine that runs code of an activation: the stack pointer is at the last return address,
    and no fault was reported. -/
structure Machine.Home (m : Machine) (env : Environment) (K : Instance → Instance → Prop)
    (a : Activation) (rets : List Word) : Prop extends m.Inside env K a rets where
  rsp : m.reg .rsp = env.layout.slot (a.base + 13 + rets.length)
  fault : m.host.stack.get (2 * a.base) = 0

namespace Machine

variable {m m' : Machine} {env : Environment} {K : Instance → Instance → Prop} {a : Activation}
  {rets : List Word} (hK : Steady K)

namespace Inside

/-- The first word of an activation may change, and so may everything below its last one. -/
theorem change (hK : Steady K) (h : m.Inside env K a rets) (hlayout : m'.layout = m.layout)
    (hcall : m'.reg call = m.reg call) (hdata : m'.reg Convention.data = m.reg Convention.data)
    (hvm : K m.host.vm m'.host.vm)
    (hstack : ∀ i, i < 2 * (a.base + 14 + rets.length) → i / 2 ≠ a.base →
      m'.host.stack.get i = m.host.stack.get i) : m'.Inside env K a rets := by
  have hword : ∀ j, j < a.base + 14 + rets.length → j ≠ a.base →
      m'.host.stack.word j = m.host.stack.word j := by
    intro j hj hne
    rw [NativeStack.word, hstack _ (by omega) (by omega), hstack _ (by omega) (by omega)]
    rfl
  refine ⟨hlayout.trans h.layout, hK.trans h.steady hvm, hcall.trans h.record, hdata.trans h.data,
    ?_, ?_, h.room, ?_⟩
  · intro i hi
    have hlt : i < 10 := hi
    rw [hword _ (by omega) (by omega)]
    exact h.words i hi
  · intro i hi
    have hlt : i < rets.length + 1 := hi
    rw [hword _ (by omega) (by omega)]
    exact h.returns i hi
  · intro i hi
    rw [hstack i (by omega) (by omega)]
    exact h.outer i hi

theorem setReg (h : m.Inside env K a rets) {r : Reg} (hr : r ≠ call ∧ r ≠ Convention.data)
    (v : Word) : (m.setReg r v).Inside env K a rets := by
  have hget : ∀ s, s ≠ r → (m.setReg r v).reg s = m.reg s := fun s hs => RegFile.get_set_ne _ _ hs
  exact ⟨h.layout, h.steady, (hget _ (Ne.symm hr.1)).trans h.record,
    (hget _ (Ne.symm hr.2)).trans h.data, h.words, h.returns, h.room, h.outer⟩

theorem jumpTo (h : m.Inside env K a rets) (x : Word) : (m.jumpTo x).Inside env K a rets :=
  ⟨h.layout, h.steady, h.record, h.data, h.words, h.returns, h.room, h.outer⟩

theorem size (hK : Steady K) (h : m.Inside env K a rets) :
    m.host.vm.block.size = a.host.vm.block.size := (hK.fixed h.steady).size

end Inside

namespace Home

theorem jumpTo (h : m.Home env K a rets) (x : Word) : (m.jumpTo x).Home env K a rets :=
  ⟨h.toInside.jumpTo x, h.rsp, h.fault⟩

theorem ofLocal (hK : Steady K) (h : m.Home env K a rets) {ws : List Reg} (hlocal : Local ws m m')
    (hws : ∀ r ∈ Instr.owned, r ∉ ws) : m'.Home env K a rets := by
  obtain ⟨block, hsize, hhost⟩ := hlocal.host
  have hstack : m'.host.stack = m.host.stack := by rw [hhost]
  refine ⟨h.toInside.change hK hlocal.layout (hlocal.regs _ (hws _ (by decide)))
    (hlocal.regs _ (hws _ (by decide))) ?_ ?_, ?_, ?_⟩
  · rw [hhost]
    exact hK.block _ hsize
  · intro i _ _
    rw [hstack]
  · rw [hlocal.regs _ (hws _ (by decide)), h.rsp]
  · rw [hstack, h.fault]

end Home

end Machine

end PawnNative
