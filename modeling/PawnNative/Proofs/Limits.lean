import Mathlib.Tactic.Common
import PawnNative.Proofs.Sites

/-! # Limits of heap and stack

    Heap and stack grow towards each other, and a margin between the two is kept
    free. An instruction that moves one of them is refused when it would pass a
    limit; the rule is a rule about numbers.

    Compiled code decides it with cells. It adds first and compares afterwards, so a
    sum that is too large for a cell is taken for a negative number. That is harmless
    where the comparison asks for the lower limit: the heap is refused all the same,
    only for the wrong reason. It is not harmless for the upper limits, which a
    negative number never passes.
-/

namespace PawnNative

open X64 Convention Template

/-! ## Section 1: The rules -/

namespace Registers

variable (r : Registers) (n : Cell)

/-- Heap and stack are in order, below the addresses where a cell has no room for the margin. -/
structure Apart : Prop where
  heap : 0 ≤ r.hea.toInt
  apart : r.hea.toInt ≤ r.stk.toInt
  bottom : r.stk.toInt ≤ r.stp.toInt
  room : r.stp.toInt < 0x7fffffc0

/-- The heap does not start below its bottom either. -/
structure Ordered : Prop extends r.Apart where
  low : 0 ≤ r.hlw.toInt
  above : r.hlw.toInt ≤ r.hea.toInt

def heapEnd : Int := r.hea.toInt + n.toInt

def stackEnd : Int := r.stk.toInt + n.toInt

/-- **Rule.** Why a move of the heap is refused. -/
def heapFault? : Option Fault :=
  if r.heapEnd n < r.hlw.toInt then some .heapLow
  else if r.stk.toInt < r.heapEnd n + Instance.margin then some .stackError
  else none

/-- **Rule.** Why a move of the stack is refused. Only the limit that it moves towards counts. -/
def stackFault? : Option Fault :=
  if 0 < n.toInt ∧ r.stp.toInt < r.stackEnd n then some .stackLow
  else if n.toInt < 0 ∧ r.stackEnd n < r.hea.toInt + Instance.margin then some .stackError
  else none

def heapMoved : Registers := { r with hea := r.hea + n, alt := r.hea }

def stackMoved : Registers := { r with stk := r.stk + n, alt := r.stk }

/-- What compiled code makes of the rule for the heap. -/
def heapVerdict : Option Fault :=
  if (r.hea + n).toInt < r.hlw.toInt then some .heapLow
  else if r.stk.toInt < (r.hea + n + margin).toInt then some .stackError
  else none

/-- What compiled code makes of the rule for the stack. -/
def stackVerdict : Option Fault :=
  if 0 < n.toInt ∧ r.stp.toInt < (r.stk + n).toInt then some .stackLow
  else if n.toInt < 0 ∧ (r.stk + n).toInt < (r.hea + margin).toInt then some .stackError
  else none

end Registers

/-! ### Sums of cells -/

namespace Cell

variable {x : Cell}

/-- A sum is the sum of the numbers as long as a cell has room for it, and
    falls below them otherwise. -/
theorem toInt_add_cases (hx : 0 ≤ x.toInt) (y : Cell) :
    (x.toInt + y.toInt < 0x80000000 → (x + y).toInt = x.toInt + y.toInt) ∧
    (0x80000000 ≤ x.toInt + y.toInt → (x + y).toInt < 0 ∧
      (x + y).toInt = x.toInt + y.toInt - 0x100000000) := by
  have hlow := BitVec.le_two_mul_toInt (x := y)
  have hhighx := BitVec.two_mul_toInt_lt (x := x)
  have hhighy := BitVec.two_mul_toInt_lt (x := y)
  rw [BitVec.toInt_add, Int.bmod_def]
  omega

theorem toInt_margin : margin.toInt = Instance.margin := by decide

end Cell

namespace Registers

variable {r : Registers} {n : Cell}

/-- As long as there is room for the margin, code for the heap decides as the rule does. Where the
    sum is just below the largest number, the margin turns it negative and nothing is refused; above
    that the sum itself is negative, and below the bottom of the heap. -/
theorem heapVerdict_eq (h : r.Ordered) :
    (r.heapEnd n < 0x7fffffc0 → r.heapVerdict n = r.heapFault? n) ∧
    (0x7fffffc0 ≤ r.heapEnd n → r.heapEnd n < 0x80000000 → r.heapVerdict n = none) ∧
    (0x80000000 ≤ r.heapEnd n → r.heapVerdict n = some .heapLow) := by
  obtain ⟨⟨hheap, hapart, hbottom, hroom⟩, hlow, habove⟩ := h
  obtain ⟨hfits, hwraps⟩ := Cell.toInt_add_cases hheap n
  have hmargin : margin.toInt = 64 := Cell.toInt_margin
  unfold heapVerdict heapFault? heapEnd
  refine ⟨fun hend => ?_, fun hfrom hend => ?_, fun hfrom => ?_⟩
  · -- Below the bottom the two agree at once, and above it the second sum has room too.
    rw [hfits (by omega)]
    by_cases hless : r.hea.toInt + n.toInt < r.hlw.toInt
    · rw [if_pos hless, if_pos hless]
    · have htop := (Cell.toInt_add_cases (x := r.hea + n) (by omega) margin).1 (by omega)
      rw [if_neg hless, if_neg hless, htop, hfits (by omega), hmargin]
      rfl
  · have htop := (Cell.toInt_add_cases (x := r.hea + n) (by omega) margin).2 (by omega)
    rw [if_neg (by omega), if_neg (by omega)]
  · rw [if_pos (by omega)]

/-- Code for the stack decides as the rule does, except where the stack would leave the numbers of a
    cell. -/
theorem stackVerdict_eq (h : r.Apart) :
    (r.stackEnd n < 0x80000000 → r.stackVerdict n = r.stackFault? n) ∧
    (0x80000000 ≤ r.stackEnd n → r.stackVerdict n = none ∧ r.stackFault? n = some .stackLow) := by
  obtain ⟨hheap, hapart, hbottom, hroom⟩ := h
  obtain ⟨hfits, hwraps⟩ := Cell.toInt_add_cases (Int.le_trans hheap hapart) n
  have hmargin : margin.toInt = 64 := Cell.toInt_margin
  have hkept := (Cell.toInt_add_cases hheap margin).1 (by omega)
  unfold stackVerdict stackFault? stackEnd
  refine ⟨fun hend => ?_, fun hfrom => ⟨?_, if_pos (by omega)⟩⟩
  · rw [hfits hend, hkept, hmargin]
    rfl
  · rw [if_neg (by omega), if_neg (by omega)]

theorem heap_limits_of_none (h : r.Ordered) (hnone : r.heapFault? n = none) :
    (r.heapMoved n).hlw.toInt ≤ (r.heapMoved n).hea.toInt ∧
    (r.heapMoved n).hea.toInt + Instance.margin ≤ (r.heapMoved n).stk.toInt := by
  obtain ⟨⟨hheap, hapart, hbottom, hroom⟩, hlow, habove⟩ := h
  unfold heapFault? heapEnd at hnone
  have hsame : ((Instance.margin : Nat) : Int) = 64 := rfl
  split_ifs at hnone with hbelow hnear
  have hfits := (Cell.toInt_add_cases hheap n).1 (by omega)
  show r.hlw.toInt ≤ (r.hea + n).toInt ∧ (r.hea + n).toInt + _ ≤ r.stk.toInt
  omega

/-- Where nothing is refused, the stack does not come above its bottom, and it keeps
    the margin when it grows. -/
theorem stack_limits_of_none (h : r.Apart) (hnone : r.stackFault? n = none) :
    (r.stackMoved n).stk.toInt ≤ (r.stackMoved n).stp.toInt ∧
    (n.toInt < 0 → (r.stackMoved n).hea.toInt + Instance.margin ≤ (r.stackMoved n).stk.toInt) := by
  obtain ⟨hheap, hapart, hbottom, hroom⟩ := h
  unfold stackFault? stackEnd at hnone
  split_ifs at hnone with hbelow hnear
  have hfits := (Cell.toInt_add_cases (Int.le_trans hheap hapart) n).1 (by omega)
  show (r.stk + n).toInt ≤ r.stp.toInt ∧ (_ → r.hea.toInt + _ ≤ (r.stk + n).toInt)
  omega

end Registers

/-! ## Section 2: The code -/

/-- The registers that the code of a move writes, the top of the stack apart. -/
def moving : List Reg := [alt, tmp0, tmp1, tmp2]

/-- Compares the end of the heap, which is in a register, with the end of the stack. -/
def collideLines : List Line :=
  [.op (.aluRI .add .d tmp1 margin)] ++ relative tmp2 stk ++
  [.op (.aluRR .cmp .d tmp1 tmp2), .jcc .g (.stub (.fault .stackError))]

def loadHeap : List Line := [loadFile tmp0, .op (.load .d alt (saved tmp0 .hea))]

def addHeap (n : Cell) : List Line := [.op (.movRR .d tmp1 alt), .op (.aluRI .add .d tmp1 n)]

def storeHeap : List Line :=
  [.op (.store .d (saved tmp0 .hea) tmp1), .op (.aluRM .cmp tmp1 (saved tmp0 .hlw))]

/-- Halts when the stack is above its bottom. -/
def checkBottom : List Line :=
  [loadFile tmp0] ++ relative tmp1 stk ++
  [.op (.aluRM .cmp tmp1 (saved tmp0 .stp)), .jcc .g (.stub (.fault .stackLow))]

theorem moveHeap_eq (n : Cell) : moveHeap n =
    loadHeap ++ (addHeap n ++ (storeHeap ++ (.jcc .l (.stub (.fault .heapLow)) :: collideLines))) :=
    rfl

theorem moveStack_eq (n : Cell) : moveStack n = relative alt stk ++
    if n = 0 then [] else if 0 < n.toInt then .op (.aluRI .add .q stk n) :: checkBottom
    else .op (.aluRI .add .q stk n) :: checkMargin := rfl

/-- Where code goes that found this fault, or none. -/
def exitFor (f? : Option Fault) : Option Target := f?.map fun f => .stub (.fault f)

namespace Machine

variable {m m' : Machine} {n : Cell}

def stackAddress (m : Machine) : Cell := m.reg32 stk - m.reg32 data

/-- What the code of a move of the heap has done when it is left. -/
structure MovesHeap (n : Cell) (m m' : Machine) : Prop where
  becomes : Becomes moving { m.host with vm := m.host.vm.put .hea (m.host.vm.regs.hea + n) } m m'
  alt : m'.reg32 alt = m.host.vm.regs.hea

/-- What the code of a move of the stack has done when it is left. -/
structure MovesStack (n : Cell) (m m' : Machine) : Prop where
  becomes : Becomes (stk :: moving) m.host m m'
  stack : m'.reg stk = m.reg stk + n.signExtend 64
  alt : m'.reg32 alt = m.stackAddress

theorem stackAddress_eq (hstk : m'.reg stk = m.reg stk + n.signExtend 64)
    (hdata : m'.reg data = m.reg data) : m'.stackAddress = m.stackAddress + n := by
  have hnarrow : (n.signExtend 64).setWidth 32 = n := by
    ext i hi
    rw [BitVec.getElem_setWidth, BitVec.getLsbD_signExtend, if_pos hi, BitVec.getLsbD_eq_getElem hi]
    exact decide_eq_true (show i < 64 by omega) ▸ Bool.true_and _
  show (m'.reg stk).setWidth 32 - (m'.reg data).setWidth 32 = m.reg32 stk - m.reg32 data + n
  rw [hstk, hdata, BitVec.setWidth_add _ _ (by decide), hnarrow]
  exact BitVec.add_sub_comm

theorem Becomes.stackAddress {ws : List Reg} {h : Host} (hm : Becomes ws h m m') (hstk : stk ∉ ws)
    (hdata : data ∉ ws) : m'.stackAddress = m.stackAddress := by
  show (m'.reg stk).setWidth 32 - (m'.reg data).setWidth 32 = _
  rw [hm.regs stk hstk, hm.regs data hdata]
  rfl

theorem MovesStack.stackAddress (h : m.MovesStack n m') : m'.stackAddress = m.stackAddress + n :=
  stackAddress_eq h.stack (h.becomes.regs data (by decide))

theorem MovesStack.trans {m'' : Machine} (h : m.MovesStack n m')
    (hm : Becomes [tmp0, tmp1, tmp2] m'.host m' m'') : m.MovesStack n m'' :=
  ⟨h.becomes.follow (hm.mono (by decide)), (hm.regs stk (by decide)).trans h.stack,
    (congrArg (BitVec.setWidth 32) (hm.regs Convention.alt (by decide))).trans h.alt⟩

theorem exitFor_heapVerdict (m : Machine) (n : Cell) : exitFor (m.spilled.regs.heapVerdict n) =
    if (m.host.vm.regs.hea + n).toInt < m.host.vm.regs.hlw.toInt then some (.stub (.fault .heapLow))
    else if m.stackAddress.toInt < (m.host.vm.regs.hea + n + margin).toInt then some
      (.stub (.fault .stackError))
    else none := by
  show Option.map _ (if (m.host.vm.regs.hea + n).toInt < m.host.vm.regs.hlw.toInt then _ else
    if m.stackAddress.toInt < (m.host.vm.regs.hea + n + margin).toInt then _ else _) = _
  split_ifs <;> rfl

theorem exitFor_stackVerdict (m : Machine) (n : Cell) : exitFor (m.spilled.regs.stackVerdict n) =
    if 0 < n.toInt ∧ m.host.vm.regs.stp.toInt < (m.stackAddress + n).toInt then some
      (.stub (.fault .stackLow))
    else if n.toInt < 0 ∧ (m.stackAddress + n).toInt < (m.host.vm.regs.hea + margin).toInt then
      some (.stub (.fault .stackError))
    else none := by
  show Option.map _ (if 0 < n.toInt ∧
      m.host.vm.regs.stp.toInt < (m.stackAddress + n).toInt then _ else
    if n.toInt < 0 ∧ (m.stackAddress + n).toInt <
      (m.host.vm.regs.hea + margin).toInt then _ else _) = _
  split_ifs <;> rfl

theorem Home.put {env : Environment} {K : Instance → Instance → Prop} {a : Activation}
    {rets : List Word}
    (hK : Steady K) (h : m.Home env K a rets) {x : RegisterName} {v : Cell} (hx : x ∈ changeable)
    {ws : List Reg}
    (hm : Becomes ws { m.host with vm := m.host.vm.put x v } m m')
    (hws : ∀ r ∈ Instr.owned, r ∉ ws) : m'.Home env K a rets := by
  refine ⟨h.toInside.change hK hm.layout (hm.regs _ (hws _ (by decide)))
      (hm.regs _ (hws _ (by decide))) ?_ ?_, ?_, ?_⟩
  · rw [hm.host]
    exact hK.register _ v hx
  · intro i _ _
    rw [hm.host]
  · rw [hm.regs _ (hws _ (by decide)), h.rsp]
  · rw [hm.host]
    exact h.fault

theorem exec_cmpSaved {l : Layout} {code : Nat} (hm : m.layout = l)
    (hs : l.Separate m.host.vm.block.size code) (hfile : m.reg .rdx = l.file)
    (x : RegisterName) (r : Reg) : m.exec (.aluRM .cmp r (saved .rdx x)) =
      .ok (m.setFlags (subFlags (m.reg32 r) (m.host.vm.regs.get x))) := by
  have hload : m.load32 (l.file + BitVec.ofNat 64 x.offset) = .ok (m.host.vm.regs.get x) := by
    subst hm
    exact reached_eq_ok.mpr (Host.load32_file (hs.place?_file x))
  show (m.operand (saved .rdx x) >>= fun a => m.load32 a >>= _) = _
  rw [operand_file hm hs hfile, ok_bind, hload]
  rfl

end Machine

theorem comes_collide (m : Machine) : Comes collideLines m
    (if m.stackAddress.toInt < (m.reg32 tmp1 + margin).toInt then some
      (.stub (.fault .stackError)) else none)
    (Machine.Becomes [tmp1, tmp2] m.host m) := by
  obtain ⟨m₁, hm₁⟩ : ∃ m₁, m₁ = m.alu32 .add tmp1 margin := ⟨_, rfl⟩
  have hadd : m.exec (.aluRI .add .d tmp1 margin) = .ok m₁ := by
    rw [hm₁]
    rfl
  have hsum : m₁.reg32 tmp1 = m.reg32 tmp1 + margin := by
    rw [hm₁]
    exact Machine.reg32_setReg32_self _ _ _
  have hbecomes : Machine.Becomes [tmp1, tmp2] m.host m m₁ := by
    rw [hm₁]
    exact ((Machine.Becomes.refl _ m).setFlags _).setReg (by decide) _
  obtain ⟨m₂, hrelative, hm₂, hstack⟩ := Machine.execLines_relative tmp2 stk (by decide) m₁
  have hend : m₂.reg32 tmp1 = m.reg32 tmp1 + margin :=
    (congrArg (BitVec.setWidth 32) (hm₂.regs tmp1 (by decide))).trans hsum
  have hstack : m₂.reg32 tmp2 = m.stackAddress := by
    rw [Machine.reg32_eq hstack, hm₁]
    rfl
  have hgoal := (hbecomes.follow (hm₂.mono (by decide))).setFlags
    (subFlags (m₂.reg32 tmp1) (m₂.reg32 tmp2))
  refine .instr rfl hadd (.lines rfl hrelative (.instr rfl rfl (.either ?_ hgoal (.nil hgoal))))
  rw [← hend, ← hstack]
  exact (holds_signed (m₂.reg32 tmp1) (m₂.reg32 tmp2)).2.2.1

section
variable {env : Environment} {ctx : Context} {is : List Instruction} {a : Activation}
  {rets : List Word} {m m' : Machine} {n : Cell} (hr : env.Ready ctx is a.host.vm.block.size)
include hr

theorem comes_checkMargin (h : m.Inside env Instance.Fixed a rets) : Comes checkMargin m
    (if m.stackAddress.toInt < (m.host.vm.regs.hea + margin).toInt then some
      (.stub (.fault .stackError)) else none)
    (Machine.Becomes [tmp0, tmp1, tmp2] m.host m) := by
  have hs := hr.separate_of_inside Instance.steady_fixed rfl h
  have hfile := hr.exec_loadFile Instance.steady_fixed rfl h tmp0
  have hload := Machine.exec_loadSaved (m := m.setReg tmp0 env.layout.file) h.layout
    hs rfl .hea tmp1
  obtain ⟨m₁, hm₁⟩ : ∃ m₁, m₁ = (m.setReg tmp0 env.layout.file).setReg32 tmp1 m.host.vm.regs.hea :=
    ⟨_, rfl⟩
  have hbecomes : Machine.Becomes [tmp0, tmp1, tmp2] m.host m m₁ := by
    rw [hm₁]
    exact ((Machine.Becomes.refl _ m).setReg (by decide) _).setReg (by decide) _
  have hheap : m₁.reg32 tmp1 = m.host.vm.regs.hea := by
    rw [hm₁]
    exact Machine.reg32_setReg32_self _ _ _
  have hstack : m₁.stackAddress = m.stackAddress := by
    rw [hm₁]
    rfl
  refine .instr rfl hfile (.instr rfl (hload.trans (congrArg _ hm₁.symm)) ?_)
  rw [← hheap, ← hstack]
  exact (comes_collide m₁).mono fun m' hm' => hbecomes.follow (hm'.mono (by decide))

theorem comes_checkBottom (h : m.Inside env Instance.Fixed a rets) : Comes checkBottom m
    (if m.host.vm.regs.stp.toInt < m.stackAddress.toInt then some
      (.stub (.fault .stackLow)) else none)
    (Machine.Becomes [tmp0, tmp1, tmp2] m.host m) := by
  have hs := hr.separate_of_inside Instance.steady_fixed rfl h
  have hfile := hr.exec_loadFile Instance.steady_fixed rfl h tmp0
  obtain ⟨m₁, hrelative, hm₁, hstack⟩ := Machine.execLines_relative tmp1 stk (by decide)
    (m.setReg tmp0 env.layout.file)
  have hbecomes : Machine.Becomes [tmp0, tmp1, tmp2] m.host m m₁ :=
    ((Machine.Becomes.refl _ m).setReg (by decide) _).follow (hm₁.mono (by decide))
  have hstack : m₁.reg32 tmp1 = m.stackAddress := Machine.reg32_eq hstack
  have hcompare := Machine.exec_cmpSaved (hbecomes.layout.trans h.layout)
    (by rw [hbecomes.host]; exact hs) (hm₁.regs tmp0 (by decide)) .stp tmp1
  have hgoal := hbecomes.setFlags (subFlags (m₁.reg32 tmp1) (m₁.host.vm.regs.get .stp))
  refine .instr rfl hfile
    (.lines rfl hrelative (.instr rfl hcompare (.either ?_ hgoal (.nil hgoal))))
  rw [← hstack, hbecomes.host]
  exact (holds_signed _ _).2.2.1

theorem comes_loadHeap (h : m.Inside env Instance.Fixed a rets) : Comes loadHeap m none fun m' =>
    Machine.Becomes [alt, tmp0] m.host m m' ∧ m'.reg tmp0 = env.layout.file ∧
      m'.reg32 alt = m.host.vm.regs.hea := by
  have hs := hr.separate_of_inside Instance.steady_fixed rfl h
  have hfile := hr.exec_loadFile Instance.steady_fixed rfl h tmp0
  have hload := Machine.exec_loadSaved (m := m.setReg tmp0 env.layout.file) h.layout hs rfl .hea alt
  refine .instr rfl hfile (.instr rfl hload (.nil ⟨?_, rfl, Machine.reg32_setReg32_self _ _ _⟩))
  exact ((Machine.Becomes.refl _ m).setReg (by decide) _).setReg (by decide) _

omit hr in
theorem comes_addHeap (m : Machine) (n : Cell) : Comes (addHeap n) m none fun m' =>
    Machine.Becomes [tmp1] m.host m m' ∧ m'.reg32 tmp1 = m.reg32 alt + n := by
  have hcopy : (m.setReg32 tmp1 (m.reg32 alt)).reg32 tmp1 = m.reg32 alt :=
    Machine.reg32_setReg32_self _ _ _
  refine .instr rfl rfl (.instr rfl rfl (.nil ⟨?_, ?_⟩))
  · exact (((Machine.Becomes.refl _ m).setReg (by decide) _).setFlags _).setReg (by decide) _
  · refine (Machine.reg32_setReg32_self _ tmp1 _).trans ?_
    exact congrArg (· + n) hcopy

theorem comes_storeHeap (h : m.Inside env Instance.Fixed a rets)
    (hfile : m.reg tmp0 = env.layout.file) : Comes storeHeap m none fun m' =>
      Machine.Becomes [] { m.host with vm := m.host.vm.put .hea (m.reg32 tmp1) } m m' ∧
      m'.flags = subFlags (m.reg32 tmp1) m.host.vm.regs.hlw := by
  have hs := hr.separate_of_inside Instance.steady_fixed rfl h
  have hstore := Machine.exec_storeSaved h.layout hs hfile .hea tmp1
  have hcompare := Machine.exec_cmpSaved
    (m := m.setHost { m.host with vm := m.host.vm.put .hea (m.reg32 tmp1) }) h.layout hs
      hfile .hlw tmp1
  exact .instr rfl hstore
    (.instr rfl hcompare (.nil ⟨((Machine.Becomes.refl [] m).setHost _).setFlags _, rfl⟩))

/-- The heap is moved before anything is compared, and then both of its limits are looked at. -/
theorem comes_moveHeap (h : m.Home env Instance.Fixed a rets) (n : Cell) :
    Comes (moveHeap n) m (exitFor (m.spilled.regs.heapVerdict n)) (m.MovesHeap n) := by
  rw [moveHeap_eq, Machine.exitFor_heapVerdict]
  refine (comes_loadHeap hr h.toInside).append fun m₁ hm₁ => ?_
  obtain ⟨hm₁, hfile, halt⟩ := hm₁
  refine (comes_addHeap m₁ n).append fun m₂ hm₂ => ?_
  obtain ⟨hm₂, hsum⟩ := hm₂
  have hfile : m₂.reg tmp0 = env.layout.file := (hm₂.regs tmp0 (by decide)).trans hfile
  have halt₂ : m₂.reg32 alt = m₁.reg32 alt :=
    congrArg (BitVec.setWidth 32) (hm₂.regs alt (by decide))
  have hbecomes : Machine.Becomes moving m.host m m₂ :=
    (hm₁.mono (by decide)).follow (hm₂.mono (by decide))
  have hhome : m₂.Home env Instance.Fixed a rets :=
    h.becomes Instance.steady_fixed hbecomes (by decide)
  refine (comes_storeHeap hr hhome.toInside hfile).append fun m₃ hm₃ => ?_
  obtain ⟨hm₃, hflags⟩ := hm₃
  rw [hsum, halt, hbecomes.host] at hm₃ hflags
  have hsame : ∀ r, m₃.reg32 r = m₂.reg32 r := fun r =>
    congrArg (BitVec.setWidth 32) (hm₃.regs r List.not_mem_nil)
  have hmoves : m.MovesHeap n m₃ :=
    ⟨hbecomes.trans (hm₃.mono (by decide)), (hsame alt).trans (halt₂.trans halt)⟩
  refine .either ?_ hmoves ?_
  · rw [hflags]
    exact (holds_signed _ _).1
  · have hcollide := comes_collide m₃
    rw [hmoves.becomes.stackAddress (by decide) (by decide), hsame, hsum, halt] at hcollide
    refine hcollide.mono fun m' hm' => ?_
    exact ⟨hmoves.becomes.trans (hmoves.becomes.host ▸ hm'.mono (by decide)),
      (congrArg (BitVec.setWidth 32) (hm'.regs alt (by decide))).trans hmoves.alt⟩

/-- The stack is moved before anything is compared, and then the limit is looked
    at that it moved towards. -/
theorem comes_moveStack (h : m.Home env Instance.Fixed a rets) (n : Cell) :
    Comes (moveStack n) m (exitFor (m.spilled.regs.stackVerdict n)) (m.MovesStack n) := by
  rw [moveStack_eq, Machine.exitFor_stackVerdict]
  obtain ⟨m₁, hrelative, hm₁, halt⟩ := Machine.execLines_relative alt stk (by decide) m
  have halt : m₁.reg32 alt = m.stackAddress := Machine.reg32_eq halt
  refine .lines rfl hrelative ?_
  by_cases hzero : n = 0
  · subst hzero
    rw [if_pos rfl, if_neg fun h => absurd h.1 (by decide), if_neg fun h => absurd h.1 (by decide)]
    refine .nil ⟨hm₁.mono (by decide), ?_, halt⟩
    rw [hm₁.regs stk (by decide)]
    exact (BitVec.add_zero _).symm
  rw [if_neg hzero]
  have hmoves : m.MovesStack n (m₁.alu64 .add stk (n.signExtend 64)) := by
    refine ⟨((hm₁.mono (by decide)).setFlags _).setReg (by decide) _, ?_, halt⟩
    show m₁.reg stk + _ = _
    rw [hm₁.regs stk (by decide)]
  have hhome := h.becomes Instance.steady_fixed hmoves.becomes (by decide)
  have hvm := congrArg Host.vm hmoves.becomes.host
  by_cases hpos : 0 < n.toInt
  · have hcheck := comes_checkBottom hr hhome.toInside
    rw [hmoves.stackAddress, hvm] at hcheck
    rw [if_pos hpos]
    simp only [hpos, true_and, Int.not_lt.mpr (Int.le_of_lt hpos), false_and, if_false]
    exact .instr rfl rfl (hcheck.mono fun m' hm' => hmoves.trans hm')
  · have hneg : n.toInt < 0 := by
      have hne : n.toInt ≠ 0 := fun h => hzero (BitVec.eq_of_toInt_eq (h.trans rfl))
      omega
    have hcheck := comes_checkMargin hr hhome.toInside
    rw [hmoves.stackAddress, hvm] at hcheck
    rw [if_neg hpos]
    simp only [hpos, hneg, true_and, false_and, if_false]
    exact .instr rfl rfl (hcheck.mono fun m' hm' => hmoves.trans hm')

end

/-! ## Section 3: Moves in a run -/

namespace Machine

variable {m m' : Machine} {n : Cell}

theorem spilled_eq {ws : List Reg} {vm : Instance} (hm : Becomes ws { m.host with vm } m m')
    (hws : ∀ r ∈ [pri, frm, data], r ∉ ws) : m'.spilled =
      (((vm.put .pri (m.reg32 pri)).put .alt (m'.reg32 alt)).put .stk m'.stackAddress).put .frm
        (m.reg32 frm - m.reg32 data) := by
  have hsame : ∀ r ∈ [pri, frm, data], m'.reg32 r = m.reg32 r := fun r hr =>
    congrArg (BitVec.setWidth 32) (hm.regs r (hws r hr))
  have hvm : m'.host.vm = vm := congrArg Host.vm hm.host
  show (((m'.host.vm.put .pri (m'.reg32 pri)).put .alt (m'.reg32 alt)).put .stk
    m'.stackAddress).put .frm (m'.reg32 frm - m'.reg32 data) = _
  rw [hvm, hsame pri (by decide), hsame frm (by decide), hsame data (by decide)]

theorem MovesHeap.spilled (h : m.MovesHeap n m') :
    m'.spilled = { m.spilled with regs := m.spilled.regs.heapMoved n } := by
  rw [spilled_eq h.becomes (by decide), h.alt, h.becomes.stackAddress (by decide) (by decide)]
  rfl

theorem MovesStack.spilled (h : m.MovesStack n m') :
    m'.spilled = { m.spilled with regs := m.spilled.regs.stackMoved n } := by
  rw [spilled_eq h.becomes (by decide), h.alt, h.stackAddress]
  rfl

end Machine

namespace Environment

variable {env : Environment} {config : Config} {vm₀ : Instance} {a : Activation} {rets : List Word}
  {i : Instruction} {after : List Instruction} {m m' : Machine}

/-- From the machine `m'` a run advances to the next instruction, or halts with
    the fault that was found. -/
def Ends (env : Environment) (a : Activation) (after : List Instruction) (m m' : Machine) :
    Option Fault → Prop
  | none => env.Advances after m m'
  | some f => env.HaltsFrom a f m m'

/-- Code that is left by the way for a fault, or by its end, ends in a run in the same way. -/
theorem AtInstruction.ends (h : env.AtInstruction config vm₀ a rets i after m) {f? : Option Fault}
    (goal : Machine → Prop)
    (hls : ∀ ls, template (.ofInstance config vm₀) i = .ok ls → Comes ls m (exitFor f?) goal)
    (hhome : ∀ m', goal m' → m'.Home env Instance.Fixed a rets) :
    ∃ m' x, goal m' ∧ env.Ends a after m (m'.jumpTo x) f? := by
  cases f? with
  | none => exact h.advances goal hls fun m' hm' => (hhome m' hm').layout.trans h.home.layout.symm
  | some f => exact h.haltsFrom goal hls hhome

/-- A move of the heap in a run: it ends as the code has decided. -/
theorem AtInstruction.moves_heap (h : env.AtInstruction config vm₀ a rets i after m)
    (hop : i.opcode = .heap) :
    ∃ m', m.MovesHeap i.arg m' ∧ env.Ends a after m m' (m.spilled.regs.heapVerdict i.arg) := by
  obtain ⟨is, -, -, -, hr, -⟩ := h.exists_template
  obtain ⟨m', x, hmoves, hends⟩ := h.ends (m.MovesHeap i.arg) (fun ls hls => by
      unfold template at hls
      rw [hop] at hls
      obtain rfl := Except.ok.inj hls
      exact comes_moveHeap hr h.home i.arg)
    fun m' hm' => h.home.put Instance.steady_fixed (by decide) hm'.becomes (by decide)
  exact ⟨_, ⟨hmoves.becomes.jumpTo x, hmoves.alt⟩, hends⟩

theorem AtInstruction.moves_stack (h : env.AtInstruction config vm₀ a rets i after m)
    (hop : i.opcode = .stack) :
    ∃ m', m.MovesStack i.arg m' ∧ env.Ends a after m m' (m.spilled.regs.stackVerdict i.arg) := by
  obtain ⟨is, -, -, -, hr, -⟩ := h.exists_template
  obtain ⟨m', x, hmoves, hends⟩ := h.ends (m.MovesStack i.arg) (fun ls hls => by
      unfold template at hls
      rw [hop] at hls
      obtain rfl := Except.ok.inj hls
      exact comes_moveStack hr h.home i.arg)
    fun m' hm' => h.home.becomes Instance.steady_fixed hm'.becomes (by decide)
  exact ⟨_, ⟨hmoves.becomes.jumpTo x, hmoves.stack, hmoves.alt⟩, hends⟩

end Environment

/-! ### A small program -/

/-- A heap and a stack instruction with large operands, and the end of the program. -/
def limitListing : List Instruction :=
  [⟨0, .heap, [0x7fffffc0]⟩, ⟨8, .stack, [0x7fffffff]⟩, ⟨16, .halt, [0]⟩]

def limitHeader : Header := { pushHeader with size := 80, dat := 80, hea := 80, stp := 96 }

def limitImage : Block := (limitHeader.bytes ++ limitListing.flatMap Instruction.bytes).toArray

def limitInstance : Instance :=
  { pushInstance with header := limitHeader, block := limitImage ++ Array.replicate 16 0 }

theorem load_limitImage : Instance.load limitImage = .ok limitInstance :=
  Instance.load_whole (by decide +kernel) rfl (by decide) rfl

theorem decodes_limitListing : Decodes limitInstance.code 0 limitListing none :=
  .of_block (n := 24) rfl (by decide) rfl rfl (by decide) (by decide)

/-- The registers of the program at any of its instructions, when a call starts there. -/
def limitRegisters : Registers := { stk := 4, stp := 12, cip := -1 }

theorem ordered_limitRegisters : limitRegisters.Ordered := by
  refine ⟨⟨?_, ?_, ?_, ?_⟩, ?_, ?_⟩ <;> decide

theorem atInstruction_limit (before : List Instruction) (i : Instruction) (after : List Instruction)
    (hlisting : limitListing = before ++ i :: after) :
    ∃ (p : Program) (a : Activation) (rets : List Word) (m : Machine),
      Environment.AtInstruction ⟨.standard, p⟩ {} limitInstance a rets i after m ∧
      m.spilled.regs = limitRegisters := by
  have hdecodes := decodes_limitListing
  rw [hlisting] at hdecodes
  obtain ⟨p, a, rets, m, hat, -, -, hstart, -⟩ :=
    atInstruction_callAt 0 0 load_limitImage hdecodes (by decide +kernel) (hlisting ▸ by decide)
      (by decide +kernel)
  have hregs : (limitInstance.started 0 0).map Instance.regs = .ok limitRegisters := by
    decide +kernel
  rw [hstart] at hregs
  exact ⟨p, a, rets, m, hat, Except.ok.inj hregs⟩

/-! ### The results -/

/-- **Main result.** A HEAP instruction moves the heap by its operand and puts the old end into
    ALT. As long as the new end leaves room for the margin in a cell, it goes on or halts
    exactly as the rule about numbers says, and then the heap keeps its limits. From there up to
    the largest number it goes on, whatever the stack is; and above that it halts, but as if the
    heap were below its bottom. -/
theorem heap_moves_within_limits {env : Environment} {config : Config} {vm₀ : Instance}
    {a : Activation} {rets : List Word} {i : Instruction} {after : List Instruction} {m : Machine}
    (h : env.AtInstruction config vm₀ a rets i after m) (hop : i.opcode = .heap)
    (hordered : m.spilled.regs.Ordered) :
    ∃ m', m'.spilled = { m.spilled with regs := m.spilled.regs.heapMoved i.arg } ∧
      m'.reg stk = m.reg stk ∧ (m.spilled.regs.heapEnd i.arg < 0x7fffffc0 →
        env.Ends a after m m' (m.spilled.regs.heapFault? i.arg) ∧
        (m.spilled.regs.heapFault? i.arg = none →
          m'.spilled.regs.hlw.toInt ≤ m'.spilled.regs.hea.toInt ∧
          m'.spilled.regs.hea.toInt + Instance.margin ≤ m'.spilled.regs.stk.toInt)) ∧
      (0x7fffffc0 ≤ m.spilled.regs.heapEnd i.arg → m.spilled.regs.heapEnd i.arg < 0x80000000 →
        env.Advances after m m') ∧
      (0x80000000 ≤ m.spilled.regs.heapEnd i.arg → env.HaltsFrom a .heapLow m m') := by
  obtain ⟨m', hmoves, hends⟩ := h.moves_heap hop
  obtain ⟨hexact, hnone, hlow⟩ := Registers.heapVerdict_eq (n := i.arg) hordered
  refine ⟨m', hmoves.spilled, hmoves.becomes.regs stk (by decide),
    fun hend => ⟨?_, fun hfree => ?_⟩, fun hfrom hend => ?_, fun hfrom => ?_⟩
  · rwa [hexact hend] at hends
  · rw [hmoves.spilled]
    exact Registers.heap_limits_of_none hordered hfree
  · rwa [hnone hfrom hend] at hends
  · rwa [hlow hfrom] at hends

/-- With the stack at 4, the heap is moved to 0x7fffffc0. -/
theorem heap_moves_past_stack :
    ∃ (p : Program) (a : Activation) (rets : List Word) (m m' : Machine),
    Environment.AtInstruction ⟨.standard, p⟩ {} limitInstance a rets ⟨0, .heap, [0x7fffffc0]⟩
      (limitListing.drop 1) m ∧
    m.spilled.regs.Ordered ∧ m.spilled.regs.heapFault? 0x7fffffc0 = some .stackError ∧
    Environment.Advances ⟨.standard, p⟩ (limitListing.drop 1) m m' ∧
    m'.spilled.regs.hea = 0x7fffffc0 ∧ m'.spilled.regs.stk = 4 := by
  obtain ⟨p, a, rets, m, hat, hregs⟩ := atInstruction_limit [] _ _ rfl
  have hordered : m.spilled.regs.Ordered := hregs ▸ ordered_limitRegisters
  obtain ⟨m', hspilled, -, -, hadvances, -⟩ := heap_moves_within_limits hat rfl hordered
  rw [hregs] at hadvances hspilled
  refine ⟨p, a, rets, m, m', hat, hordered, ?_, hadvances (by decide) (by decide), ?_, ?_⟩
  · rw [hregs]
    decide
  · rw [hspilled]
    rfl
  · rw [hspilled]
    rfl

/-- **Main result.** A STACK instruction moves the stack by its operand and puts the old top
    into ALT. As long as the new top is a number of a cell, it goes on or halts exactly as the
    rule about numbers says, and then the stack keeps its limits. Otherwise it goes on, far
    above the bottom of the stack. -/
theorem stack_moves_within_limits {env : Environment} {config : Config} {vm₀ : Instance}
    {a : Activation} {rets : List Word} {i : Instruction} {after : List Instruction} {m : Machine}
    (h : env.AtInstruction config vm₀ a rets i after m) (hop : i.opcode = .stack)
    (happart : m.spilled.regs.Apart) :
    ∃ m', m'.spilled = { m.spilled with regs := m.spilled.regs.stackMoved i.arg } ∧
      m'.reg stk = m.reg stk + i.arg.signExtend 64 ∧
      (m.spilled.regs.stackEnd i.arg < 0x80000000 →
        env.Ends a after m m' (m.spilled.regs.stackFault? i.arg) ∧
        (m.spilled.regs.stackFault? i.arg = none →
          m'.spilled.regs.stk.toInt ≤ m'.spilled.regs.stp.toInt ∧
          (i.arg.toInt < 0 →
            m'.spilled.regs.hea.toInt + Instance.margin ≤ m'.spilled.regs.stk.toInt))) ∧
      (0x80000000 ≤ m.spilled.regs.stackEnd i.arg →
        m.spilled.regs.stackFault? i.arg = some .stackLow ∧ env.Advances after m m') := by
  obtain ⟨m', hmoves, hends⟩ := h.moves_stack hop
  obtain ⟨hexact, hpast⟩ := Registers.stackVerdict_eq (n := i.arg) happart
  refine ⟨m', hmoves.spilled, hmoves.stack, fun hend => ⟨?_, fun hfree => ?_⟩, fun hfrom =>
    ⟨(hpast hfrom).2, ?_⟩⟩
  · rwa [hexact hend] at hends
  · rw [hmoves.spilled]
    exact Registers.stack_limits_of_none happart hfree
  · rwa [(hpast hfrom).1] at hends

/-- With the bottom of the stack at 12, the stack is moved from 4 by 0x7fffffff. -/
theorem stack_moves_past_bottom :
    ∃ (p : Program) (a : Activation) (rets : List Word) (m m' : Machine),
    Environment.AtInstruction ⟨.standard, p⟩ {} limitInstance a rets ⟨8, .stack, [0x7fffffff]⟩
      (limitListing.drop 2) m ∧
    m.spilled.regs.Apart ∧ m.spilled.regs.stackFault? 0x7fffffff = some .stackLow ∧
    Environment.Advances ⟨.standard, p⟩ (limitListing.drop 2) m m' ∧
    m'.reg stk = m.reg stk + 0x7fffffff := by
  obtain ⟨p, a, rets, m, hat, hregs⟩ := atInstruction_limit [⟨0, .heap, [0x7fffffc0]⟩] _ _ rfl
  have happart : m.spilled.regs.Apart := hregs ▸ ordered_limitRegisters.toApart
  obtain ⟨m', -, hstack, -, hadvances⟩ := stack_moves_within_limits hat rfl happart
  have hend : 0x80000000 ≤ m.spilled.regs.stackEnd 0x7fffffff := by
    rw [hregs]
    decide
  obtain ⟨hfault, hadvances⟩ := hadvances hend
  exact ⟨p, a, rets, m, m', hat, happart, hfault, hadvances, hstack⟩

end PawnNative
