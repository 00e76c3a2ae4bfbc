import Mathlib.Tactic.Common
import PawnNative.Compile.Template.Stack
import PawnNative.Proofs.Effects
import PawnNative.Proofs.Execution
import PawnNative.Proofs.Loading

/-! # Machines that represent instances

    While compiled code runs, the registers of the abstract machine are in
    registers of the processor: the computing registers as cells, stack and frame
    as addresses. The rest of the instance is in memory. `Machine.Represents` says
    so; it also names everything that the code of an instruction is to leave
    alone, so that two machines with the same surroundings differ only by what
    their instances differ in, the flags and one register for intermediate
    results.

    Each way to change a machine is followed by what it does to the instance.
-/

namespace PawnNative

open X64 Convention

/-! ## Section 1: The relation -/

/-- What straight-line code leaves alone. -/
structure Surroundings where
  layout : Layout
  /-- The registers that no straight-line code writes. -/
  regs : RegFile
  xmm : XmmFile
  down : Bool
  /-- The register file in memory, where the registers that the processor holds are out of date. -/
  file : Registers
  stack : NativeStack
  log : List LogEntry

/-- The instance as memory has it while the processor holds four of its registers. -/
def Instance.inMemory (vm : Instance) (file : Registers) : Instance :=
  { vm with regs := { vm.regs with
      pri := file.pri, alt := file.alt, frm := file.frm, stk := file.stk } }

/-- The block of an instance is as large as its header says. -/
structure Instance.Sized (vm : Instance) : Prop where
  total : vm.dataStart + vm.dataSize = vm.block.size
  bounded : vm.block.size < 0x80000000

/-- The registers that straight-line code may write. -/
def movable : List Reg := [pri, alt, stk, frm, tmp0]

/-- A machine represents an instance. -/
structure Machine.Represents (m : Machine) (s : Surroundings) (vm : Instance) : Prop where
  sized : vm.Sized
  layout : m.layout = s.layout
  pri : m.reg pri = vm.regs.pri.setWidth 64
  alt : m.reg alt = vm.regs.alt.setWidth 64
  data : m.reg data = s.layout.block + vm.header.dat.setWidth 64
  stk : m.reg stk = m.reg Convention.data + vm.regs.stk.setWidth 64
  frm : m.reg frm = m.reg Convention.data + vm.regs.frm.setWidth 64
  others : ∀ r, r ∉ movable → m.reg r = s.regs.get r
  xmm : m.xmm = s.xmm
  down : m.down = s.down
  host : m.host = ⟨vm.inMemory s.file, s.stack, s.log⟩
  /-- The record of the call knows where the register file is. -/
  record : m.host.load64 s.layout (m.reg call + BitVec.ofNat 64 CallField.regs.offset) =
    some s.layout.file
  /-- No other region covers the register file. -/
  file : ∀ r : RegisterName, s.layout.place? vm.block.size
    (s.layout.file + BitVec.ofNat 64 r.offset) = some (.file r.offset)

/-! ## Section 2: Sizes and cells -/

namespace Instance

variable {image : Block} {vm vm' : Instance} {a : Int} {v : Cell}

theorem sized_of_load (h : load image = .ok vm) : vm.Sized := by
  obtain ⟨⟨hcod, hdat, hhea, hstp, -⟩, hblock⟩ := load_ok h
  have hlength : (Header.length : Int) = 56 := rfl
  have hbound := BitVec.toInt_lt (x := vm.header.stp)
  have hdat' := Cell.toInt_eq_toNat (c := vm.header.dat) (by omega)
  have hstp' := Cell.toInt_eq_toNat (c := vm.header.stp) (by omega)
  constructor
  · rw [hblock, dataStart, dataSize, Header.dataSize]
    omega
  · rw [hblock]
    omega

/-- A cell of the data segment is a cell of the block. -/
theorem Sized.cell_le (h : vm.Sized) (ha : vm.HasCell a) :
    vm.dataStart + a.toNat + 4 ≤ vm.block.size := by
  obtain ⟨hpos, hle⟩ := ha
  have htotal := h.total
  rw [Cell.width] at hle
  omega

theorem Sized.exists_cellAt (h : vm.Sized) (ha : vm.HasCell a) : ∃ v, vm.cellAt? a = some v := by
  rw [cellAt?, if_pos ha, Block.cell?, if_pos (h.cell_le ha)]
  exact ⟨_, rfl⟩

theorem Sized.exists_setCellAt (h : vm.Sized) (ha : vm.HasCell a) (v : Cell) :
    ∃ vm', vm.setCellAt? a v = some vm' := by
  rw [setCellAt?, if_pos ha, Block.setCell?, if_pos (h.cell_le ha)]
  exact ⟨_, rfl⟩

theorem hasCell_of_cellAt (h : vm.cellAt? a = some v) : vm.HasCell a := by
  by_contra hnot
  rw [cellAt?, if_neg hnot] at h
  cases h

theorem setCellAt_eq_some (h : vm.setCellAt? a v = some vm') :
    vm.HasCell a ∧ ∃ block, vm.block.setCell? (vm.dataStart + a.toNat) v = some block ∧
      vm' = { vm with block } := by
  unfold setCellAt? at h
  split_ifs at h with ha
  obtain ⟨block, hblock, rfl⟩ := Option.map_eq_some_iff.mp h
  exact ⟨ha, block, hblock, rfl⟩

theorem Sized.setCellAt (h : vm.Sized) (hset : vm.setCellAt? a v = some vm') : vm'.Sized := by
  obtain ⟨-, block, hblock, rfl⟩ := setCellAt_eq_some hset
  have hsize := Block.size_setCell? hblock
  exact ⟨h.total.trans hsize.symm, by rw [hsize]; exact h.bounded⟩

theorem Sized.put (h : vm.Sized) (r : RegisterName) (v : Cell) : (vm.put r v).Sized :=
  ⟨h.total, h.bounded⟩

end Instance

/-! ## Section 3: Registers -/

namespace Machine

@[simp] theorem reg32_setReg32_self (m : Machine) (r : Reg) (v : Cell) :
    (m.setReg32 r v).reg32 r = v := by
  rw [reg32, setReg32, setReg, RegFile.get_set_self]
  simp

theorem reg32_eq {m : Machine} {r : Reg} {v : Cell} (h : m.reg r = v.setWidth 64) :
    m.reg32 r = v := by
  show (m.reg r).setWidth 32 = v
  rw [h]
  simp

namespace Represents

variable {m : Machine} {s : Surroundings} {vm : Instance} (h : m.Represents s vm)
include h

theorem setFlags (f : Flags) : (m.setFlags f).Represents s vm :=
  ⟨h.sized, h.layout, h.pri, h.alt, h.data, h.stk, h.frm, h.others, h.xmm, h.down, h.host, h.record,
    h.file⟩

theorem others_setReg {r : Reg} (hr : r ∈ movable) (v : Word) :
    ∀ r', r' ∉ movable → (m.setReg r v).reg r' = s.regs.get r' := by
  intro r' hr'
  have hne : r' ≠ r := fun heq => hr' (heq ▸ hr)
  rw [reg, setReg, RegFile.get_set_ne _ _ hne]
  exact h.others r' hr'

theorem setPri {v w : Cell} (hv : v = w) :
    (m.setReg32 Convention.pri v).Represents s (vm.put .pri w) := by
  subst hv
  exact ⟨h.sized.put .., h.layout, rfl, h.alt, h.data, h.stk, h.frm, h.others_setReg (by decide) _,
    h.xmm, h.down, h.host, h.record, h.file⟩

theorem setAlt {v w : Cell} (hv : v = w) :
    (m.setReg32 Convention.alt v).Represents s (vm.put .alt w) := by
  subst hv
  exact ⟨h.sized.put .., h.layout, h.pri, rfl, h.data, h.stk, h.frm, h.others_setReg (by decide) _,
    h.xmm, h.down, h.host, h.record, h.file⟩

theorem setTmp (v : Word) : (m.setReg tmp0 v).Represents s vm :=
  ⟨h.sized, h.layout, h.pri, h.alt, h.data, h.stk, h.frm, h.others_setReg (by decide) _, h.xmm,
    h.down, h.host, h.record, h.file⟩

theorem setStk {x : Word} {v : Cell}
    (hx : x = m.reg Convention.data + v.setWidth 64) :
    (m.setReg Convention.stk x).Represents s (vm.put .stk v) := by
  subst hx
  exact ⟨h.sized.put .., h.layout, h.pri, h.alt, h.data, rfl, h.frm, h.others_setReg (by decide) _,
    h.xmm, h.down, h.host, h.record, h.file⟩

theorem setFrm {x : Word} {v : Cell}
    (hx : x = m.reg Convention.data + v.setWidth 64) :
    (m.setReg Convention.frm x).Represents s (vm.put .frm v) := by
  subst hx
  exact ⟨h.sized.put .., h.layout, h.pri, h.alt, h.data, h.stk, rfl, h.others_setReg (by decide) _,
    h.xmm, h.down, h.host, h.record, h.file⟩

theorem reg32_pri : m.reg32 Convention.pri = vm.regs.pri := reg32_eq h.pri

theorem reg32_alt : m.reg32 Convention.alt = vm.regs.alt := reg32_eq h.alt

omit h in
/-- The data address of a place is the difference of two registers. -/
theorem setWidth_sub_data (m : Machine) (c : Cell) :
    (m.reg Convention.data + c.setWidth 64).setWidth 32 - m.reg32 Convention.data = c := by
  show _ - (m.reg Convention.data).setWidth 32 = c
  rw [BitVec.setWidth_add _ _ (by decide), BitVec.add_comm, BitVec.add_sub_cancel]
  simp

theorem reg32_stk :
    m.reg32 Convention.stk - m.reg32 Convention.data = vm.regs.stk := by
  have hdifference := setWidth_sub_data m vm.regs.stk
  rwa [← h.stk] at hdifference

theorem reg32_frm :
    m.reg32 Convention.frm - m.reg32 Convention.data = vm.regs.frm := by
  have hdifference := setWidth_sub_data m vm.regs.frm
  rwa [← h.frm] at hdifference

end Represents

end Machine

/-! ## Section 4: Memory -/

def Surroundings.address (s : Surroundings) (vm : Instance) (a : Int) : Word :=
  s.layout.block + vm.header.dat.setWidth 64 + BitVec.ofInt 64 a

/-- A cell of the data segment lies in the block, wherever the block lies. -/
theorem Surroundings.place_address (s : Surroundings) {vm : Instance} {a : Int} (h : vm.Sized)
    (ha : vm.HasCell a) :
    s.layout.place? vm.block.size (s.address vm a) = some (.block (vm.dataStart + a.toNat)) := by
  have hle := h.cell_le ha
  have hbounded := h.bounded
  have hcast : a = (a.toNat : Int) := (Int.toNat_of_nonneg ha.1).symm
  have habove : (s.address vm a).above s.layout.block = vm.dataStart + a.toNat := by
    rw [Word.above_eq, address, BitVec.add_assoc, BitVec.add_comm, BitVec.add_sub_cancel, hcast,
      BitVec.ofInt_natCast, BitVec.toNat_add, BitVec.toNat_setWidth, BitVec.toNat_ofNat,
      Int.toNat_natCast]
    show _ = vm.header.dat.toNat + _
    rw [Instance.dataStart] at hle
    omega
  rw [Layout.place?, habove, if_pos (by omega)]

/-- An operand names the cell at a data address. -/
structure Machine.Names (m : Machine) (s : Surroundings) (vm : Instance) (o : Mem) (a : Int) :
    Prop where
  address : m.address o = s.address vm a
  base : pointsInto o.base = .block

namespace Machine.Represents

variable {m : Machine} {s : Surroundings} {vm vm' : Instance} {a : Int} {x : Word} {v : Cell}
  (h : m.Represents s vm)
include h

theorem operand {o : Mem} (hnames : m.Names s vm o a)
    (ha : vm.HasCell a) : m.operand o = .ok (s.address vm a) := by
  refine operand_eq_ok.mpr ⟨hnames.address, .block (vm.dataStart + a.toNat), ?_,
    hnames.base.symm⟩
  have hplace := s.place_address h.sized ha
  rw [h.layout, h.host]
  exact hplace

theorem load32 (hcell : vm.cellAt? a = some v) (hx : x = s.address vm a) :
    m.load32 x = .ok v := by
  have ha := Instance.hasCell_of_cellAt hcell
  rw [Instance.cellAt?, if_pos ha] at hcell
  have hplace := s.place_address h.sized ha
  rw [hx, Machine.load32, reached_eq_ok, h.layout, h.host]
  exact (Host.load32_block (h := ⟨vm.inMemory s.file, s.stack, s.log⟩) hplace).trans hcell

theorem store32 (hset : vm.setCellAt? a v = some vm')
    (hx : x = s.address vm a) :
    ∃ host, m.store32 x v = .ok (m.setHost host) ∧ (m.setHost host).Represents s vm' := by
  have hsized := h.sized.setCellAt hset
  obtain ⟨ha, block, hblock, rfl⟩ := Instance.setCellAt_eq_some hset
  have hplace := s.place_address h.sized ha
  have hsize := Block.size_setCell? hblock
  refine ⟨⟨{ vm with block }.inMemory s.file, s.stack, s.log⟩, ?_, ?_⟩
  · refine store32_eq_ok.mpr ⟨_, ?_, rfl⟩
    rw [hx, h.layout, h.host]
    exact Host.store32_block hplace hblock
  · refine ⟨hsized, h.layout, h.pri, h.alt, h.data, h.stk, h.frm, h.others, h.xmm,
      h.down, rfl, ?_, ?_⟩
    · rw [← h.record]
      refine Host.load64_congr ?_ ?_
      · rw [h.host]
        exact hsize
      · rw [h.host]
        rfl
    · intro r
      rw [← h.file r]
      show s.layout.place? block.size _ = _
      rw [hsize]

theorem exec_loadFile :
    m.exec (.load .q tmp0 (field .regs)) = .ok (m.setReg tmp0 s.layout.file) := by
  have hload : m.load64 (m.address (field .regs)) = .ok s.layout.file := by
    rw [Machine.load64, reached_eq_ok, h.layout]
    exact h.record
  obtain ⟨d, hplace⟩ := Host.place?_of_load64 (reached_eq_ok.mp hload)
  show (m.operand (field .regs) >>= fun x => m.load64 x >>= _) = _
  rw [operand_eq_ok.mpr ⟨rfl, .stack d, hplace, rfl⟩]
  show (m.load64 (m.address (field .regs)) >>= _) = _
  rw [hload]
  rfl

theorem operand_saved (htmp : m.reg tmp0 = s.layout.file)
    (r : RegisterName) :
    m.operand (saved tmp0 r) = .ok (s.layout.file + BitVec.ofNat 64 r.offset) := by
  refine operand_eq_ok.mpr ⟨?_, .file r.offset, ?_, rfl⟩
  · rw [← htmp]
    cases r <;> rfl
  · rw [h.layout, h.host]
    exact h.file r

theorem load32_register {r : RegisterName} (hr : r = .hea ∨ r = .stp) :
    m.load32 (s.layout.file + BitVec.ofNat 64 r.offset) = .ok (vm.regs.get r) := by
  rw [Machine.load32, reached_eq_ok, h.layout, h.host]
  refine (Host.load32_file (h := ⟨vm.inMemory s.file, s.stack, s.log⟩) (h.file r)).trans ?_
  rcases hr with rfl | rfl <;> rfl

theorem store32_hea (v : Cell) :
    ∃ host, m.store32 (s.layout.file + BitVec.ofNat 64 RegisterName.hea.offset) v =
        .ok (m.setHost host) ∧ (m.setHost host).Represents s (vm.put .hea v) := by
  refine ⟨⟨(vm.put .hea v).inMemory s.file, s.stack, s.log⟩, ?_, ?_⟩
  · refine store32_eq_ok.mpr ⟨_, ?_, rfl⟩
    rw [h.layout, h.host]
    exact Host.store32_file (h := ⟨vm.inMemory s.file, s.stack, s.log⟩) (h.file .hea)
  · refine ⟨h.sized.put .., h.layout, h.pri, h.alt, h.data, h.stk, h.frm, h.others, h.xmm, h.down,
      rfl, ?_, h.file⟩
    rw [← h.record]
    refine Host.load64_congr ?_ ?_
    · rw [h.host]
      rfl
    · rw [h.host]
      rfl

/-! ### Operands -/

theorem names_dataCell (c : Cell) :
    m.Names s vm (Template.dataCell c) c.toInt := by
  refine ⟨?_, rfl⟩
  show m.reg Convention.data + c.signExtend 64 = _
  rw [h.data]
  rfl

theorem names_frameCell (c : Cell) :
    m.Names s vm (Template.frameCell c) (vm.frameAddress c) := by
  refine ⟨?_, rfl⟩
  show m.reg Convention.frm + c.signExtend 64 = _
  rw [h.frm, h.data, Surroundings.address, Instance.frameAddress, BitVec.ofInt_add,
    BitVec.ofInt_natCast, BitVec.ofNat_toNat, BitVec.add_assoc]
  rfl

theorem names_top :
    m.Names s vm Template.top vm.topAddress := by
  refine ⟨?_, rfl⟩
  show m.reg Convention.stk + (0 : Cell).signExtend 64 = _
  rw [h.stk, h.data, Surroundings.address, Instance.topAddress, BitVec.ofInt_natCast,
    BitVec.ofNat_toNat]
  exact BitVec.add_zero _

/-! ### The stack -/

theorem growStack (hroom : 4 ≤ vm.regs.stk.toNat) :
    (m.alu64 .sub Convention.stk ((4 : Cell).signExtend 64)).Represents s
      (vm.put .stk (vm.regs.stk - 4)) := by
  refine (h.setFlags _).setStk ?_
  show m.reg Convention.stk - 4 = m.reg Convention.data + _
  rw [h.stk]
  generalize m.reg Convention.data = d
  generalize vm.regs.stk = c at hroom
  bv_omega

theorem shrinkStack (hroom : vm.regs.stk.toNat + 4 < 0x100000000) :
    (m.alu64 .add Convention.stk ((4 : Cell).signExtend 64)).Represents s
      (vm.put .stk (vm.regs.stk + 4)) := by
  refine (h.setFlags _).setStk ?_
  show m.reg Convention.stk + 4 = m.reg Convention.data + _
  rw [h.stk]
  generalize m.reg Convention.data = d
  generalize vm.regs.stk = c at hroom
  bv_omega

end Machine.Represents

end PawnNative
