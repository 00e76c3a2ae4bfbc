import Mathlib.Tactic.Common
import PawnNative.Proofs.Sites

/-! # Accesses of the data segment

    A register holds the start of the data segment, and an operand adds the address
    in another register to it. Where that address lies inside the data segment, the
    access succeeds, whatever its width, and what it does is said here in bytes of the
    block: loads, stores, and the string operations of the processor, which go through
    a block one byte or one cell at a time.
-/

namespace PawnNative

open X64 Convention Template

/-! ## Section 1: Parts of a block -/

namespace Block

variable {b : Block} {o : Nat}

/-- The bytes at an offset, followed by zeros, as a cell. -/
def part (b : Block) (o : Nat) : Width → Cell
  | .byte => Cell.ofBytes (b.getD o 0) 0 0 0
  | .half => Cell.ofBytes (b.getD o 0) (b.getD (o + 1) 0) 0 0
  | .cell => Cell.ofBytes (b.getD o 0) (b.getD (o + 1) 0) (b.getD (o + 2) 0) (b.getD (o + 3) 0)

theorem bytes_ofBytes (b₀ b₁ b₂ b₃ : Byte) :
    (Cell.ofBytes b₀ b₁ b₂ b₃).bytes = [b₀, b₁, b₂, b₃] := by
  simp only [Cell.bytes, Cell.byte, Cell.ofBytes, List.cons.injEq, and_true]
  refine ⟨?_, ?_, ?_, ?_⟩
  all_goals
    apply BitVec.eq_of_getLsbD_eq
    intro i hi
    simp only [BitVec.getLsbD_append, BitVec.getLsbD_extractLsb']
    grind

theorem ofBytes_of_byte (b₀ : Byte) : Cell.ofBytes b₀ 0 0 0 = b₀.setWidth 32 := by
  apply BitVec.eq_of_getLsbD_eq
  intro i hi
  simp only [Cell.ofBytes, BitVec.getLsbD_append, BitVec.getLsbD_setWidth]
  grind

theorem ofBytes_of_half (b₀ b₁ : Byte) :
    Cell.ofBytes b₀ b₁ 0 0 = (Half.ofBytes b₀ b₁).setWidth 32 := by
  apply BitVec.eq_of_getLsbD_eq
  intro i hi
  simp only [Cell.ofBytes, Half.ofBytes, BitVec.getLsbD_append, BitVec.getLsbD_setWidth]
  grind

theorem toList_slice {n : Nat} (h : o + n ≤ b.size) :
    (b.slice o (o + n)).toList = (List.range n).map fun k => b.getD (o + k) 0 := by
  apply List.ext_getElem
  · simp [slice]
    omega
  · intro k hk _
    have hk : k < n := by
      simp [slice] at hk
      omega
    simp [slice, Array.getD_eq_getD_getElem?, show o + k < b.size by omega]

theorem bytes_part {w : Width} (h : o + w.bytes ≤ b.size) :
    (b.part o w).bytes = (b.slice o (o + w.bytes)).toList ++ List.replicate
      (Cell.width - w.bytes) 0 := by
  rw [toList_slice h]
  cases w <;> exact bytes_ofBytes _ _ _ _

theorem overwrite_append (b : Block) (o : Nat) (vs ws : List Byte) :
    (b.overwrite o vs).overwrite (o + vs.length) ws = b.overwrite o (vs ++ ws) := by
  induction vs generalizing b o with
  | nil => rfl
  | cons v vs ih =>
    rw [List.length_cons, show o + (vs.length + 1) = o + 1 + vs.length by omega]
    exact ih _ _

/-- Copies bytes one at a time, from the lowest address up. -/
def copyUp (b : Block) (src dst n : Nat) : Block :=
  (List.range n).foldl (fun b k => b.overwrite (dst + k) [b.getD (src + k) 0]) b

theorem copyUp_succ (b : Block) (src dst n : Nat) :
    b.copyUp src dst (n + 1) = (b.overwrite dst [b.getD src 0]).copyUp (src + 1) (dst + 1) n := by
  rw [copyUp, List.range_succ_eq_map, List.foldl_cons, List.foldl_map]
  simp only [copyUp, Nat.add_zero, Nat.add_succ, Nat.succ_add]

/-- Copying writes where it copies to, and nowhere else. -/
theorem exists_copyUp (b : Block) (src dst n : Nat) :
    ∃ bytes : List Byte, bytes.length = n ∧ b.copyUp src dst n = b.overwrite dst bytes := by
  induction n generalizing b src dst with
  | zero => exact ⟨[], rfl, rfl⟩
  | succ n ih =>
    obtain ⟨bytes, hlength, hcopy⟩ := ih (b.overwrite dst [b.getD src 0]) (src + 1) (dst + 1)
    refine ⟨b.getD src 0 :: bytes, congrArg Nat.succ hlength, ?_⟩
    rw [copyUp_succ, hcopy]
    exact overwrite_append b dst [b.getD src 0] bytes

theorem setByte?_eq (h : o + 1 ≤ b.size) (v : Byte) : b.setByte? o v = some (b.overwrite o [v]) :=
  if_pos h

theorem setHalf?_eq (h : o + 2 ≤ b.size) (v : Half) :
    b.setHalf? o v = some (b.overwrite o v.bytes) :=
  if_pos h

theorem setCell?_eq (h : o + 4 ≤ b.size) (v : Cell) :
    b.setCell? o v = some (b.overwrite o v.bytes) :=
  if_pos h

end Block

/-! ## Section 2: Accesses of the data segment -/

/-- The bytes at a data address. -/
def Instance.bytesAt (vm : Instance) (a n : Nat) : List Byte :=
  (vm.block.slice (vm.dataStart + a) (vm.dataStart + a + n)).toList

def Host.write (h : Host) (a : Nat) (bytes : List Byte) : Host :=
  { h with vm := { h.vm with block := h.vm.block.overwrite (h.vm.dataStart + a) bytes } }

/-- The host after bytes were copied from one data address to another. -/
def Host.copyUp (h : Host) (x y n : Nat) : Host :=
  { h with vm := { h.vm with
    block := h.vm.block.copyUp (h.vm.dataStart + x) (h.vm.dataStart + y) n } }

namespace Host

theorem dataSize_write (h : Host) (a : Nat) (bytes : List Byte) :
    (h.write a bytes).vm.dataSize = h.vm.dataSize := rfl

theorem write_append (h : Host) (a : Nat) (vs ws : List Byte) :
    (h.write a vs).write (a + vs.length) ws = h.write a (vs ++ ws) := by
  unfold write
  rw [← Block.overwrite_append, Nat.add_assoc]
  rfl

theorem copyUp_succ (h : Host) (x y n : Nat) : h.copyUp x y (n + 1) =
    (h.write y [h.vm.block.getD (h.vm.dataStart + x) 0]).copyUp (x + 1) (y + 1) n := by
  unfold copyUp
  rw [Block.copyUp_succ]
  rfl

theorem exists_copyUp (h : Host) (x y n : Nat) :
    ∃ bytes : List Byte, bytes.length = n ∧ h.copyUp x y n = h.write y bytes := by
  obtain ⟨bytes, hlength, hcopy⟩ := Block.exists_copyUp h.vm.block (h.vm.dataStart + x)
    (h.vm.dataStart + y) n
  exact ⟨bytes, hlength, by rw [copyUp, hcopy]; rfl⟩

end Host

theorem Instance.bytesAt_succ {vm : Instance} (hsized : vm.Sized) {x n : Nat}
    (h : x + (n + 1) ≤ vm.dataSize) :
    vm.bytesAt x (n + 1) = vm.block.getD (vm.dataStart + x) 0 :: vm.bytesAt (x + 1) n := by
  have htotal := hsized.total
  rw [bytesAt, bytesAt, Block.toList_slice (by omega), Block.toList_slice (by omega),
    List.range_succ_eq_map, List.map_cons, List.map_map]
  simp only [Function.comp_def, Nat.add_zero, Nat.add_succ, Nat.succ_add]

/-- The flags say in which order two numbers without a sign are. -/
structure X64.Flags.Orders (f : Flags) (o : Ordering) : Prop where
  above : Cond.a.holds f = some (o == .gt)
  below : Cond.b.holds f = some (o == .lt)

theorem X64.orders_subFlags (v w : Byte) : (subFlags v w).Orders (compare v.toNat w.toNat) := by
  have hcarry : v.ult w = decide (v.toNat < w.toNat) := BitVec.ult_eq_decide
  have hzero : (v - w == 0) = decide (v.toNat = w.toNat) := by
    have hsub : v - w = 0 ↔ v.toNat = w.toNat := by
      have hv := v.isLt
      have hw := w.isLt
      rw [← BitVec.toNat_inj, BitVec.toNat_sub]
      show _ = 0 ↔ _
      omega
    rw [Bool.eq_iff_iff, beq_iff_eq, decide_eq_true_iff]
    exact hsub
  constructor
  · show some (!(v.ult w || v - w == 0)) = _
    rw [hcarry, hzero]
    rcases Nat.lt_trichotomy v.toNat w.toNat with h | h | h
    · simp [Nat.compare_eq_lt.mpr h, h]
    · simp [h]
    · simp [Nat.compare_eq_gt.mpr h, Nat.lt_asymm h, Nat.ne_of_gt h]
  · show some (v.ult w) = _
    rw [hcarry]
    rcases Nat.lt_trichotomy v.toNat w.toNat with h | h | h
    · simp [Nat.compare_eq_lt.mpr h, h]
    · simp [h]
    · simp [Nat.compare_eq_gt.mpr h, Nat.lt_asymm h]

/-- The order of lists of bytes without a sign, by the first bytes that differ. -/
def lexOrder (vs ws : List Byte) : Ordering := compare (vs.map BitVec.toNat) (ws.map BitVec.toNat)

theorem lexOrder_cons (v w : Byte) (vs ws : List Byte) :
    lexOrder (v :: vs) (w :: ws) = (compare v.toNat w.toNat).then (lexOrder vs ws) :=
    List.compare_cons_cons

/-- The upper half of a register is zero. -/
def Machine.Narrow (m : Machine) (r : Reg) : Prop := m.reg r = (m.reg32 r).setWidth 64

/-- A register holds the address of the data segment, and the block is as large as its header
    says. -/
structure Machine.HasData (m : Machine) : Prop where
  sized : m.host.vm.Sized
  data : m.reg data = m.layout.block + m.host.vm.header.dat.setWidth 64

namespace Machine

variable {m m' : Machine} {ws : List Reg} {a : Cell} {r : Reg} {hr : r ≠ .rsp} {x n : Nat}

theorem reg_setReg32 (m : Machine) (r : Reg) (v : Cell) : (m.setReg32 r v).reg r = v.setWidth 64 :=
  RegFile.get_set_self _ _ _

theorem narrow_of_eq (h : m.reg r = a.setWidth 64) : m.Narrow r := by
  rw [Narrow, reg32_eq h, h]

namespace HasData

theorem becomes (h : m.HasData) (hm : Becomes ws m.host m m') (hdata : Convention.data ∉ ws) :
    m'.HasData := by
  obtain ⟨sized, data⟩ := h
  rw [← hm.host] at sized data
  exact ⟨sized, by rw [hm.regs _ hdata, hm.layout, data]⟩

theorem write (h : m.HasData) (a : Nat) (bytes : List Byte) :
    (m.setHost (m.host.write a bytes)).HasData := by
  have hsize : (m.host.vm.block.overwrite (m.host.vm.dataStart + a) bytes).size =
      m.host.vm.block.size :=
    Block.size_overwrite _ _ _
  exact ⟨⟨h.sized.total.trans hsize.symm, hsize ▸ h.sized.bounded⟩, h.data⟩

variable (h : m.HasData)
include h

theorem place (hx : x < m.host.vm.dataSize) :
    m.host.place? m.layout (m.reg Convention.data + BitVec.ofNat 64 x) =
      some (.block (m.host.vm.dataStart + x)) := by
  have htotal := h.sized.total
  have hbounded := h.sized.bounded
  have habove : (m.reg Convention.data + BitVec.ofNat 64 x).above m.layout.block =
      m.host.vm.dataStart + x := by
    rw [Word.above_eq, h.data, BitVec.add_assoc, BitVec.add_comm, BitVec.add_sub_cancel,
      BitVec.toNat_add, BitVec.toNat_setWidth, BitVec.toNat_ofNat]
    show _ = m.host.vm.header.dat.toNat + _
    rw [Instance.dataStart] at htotal
    omega
  rw [Host.place?, Layout.place?, habove, if_pos (by omega)]

omit h in
theorem address (ha : m.reg r = a.setWidth 64) :
    m.address (indirect r hr) = m.reg Convention.data + BitVec.ofNat 64 a.toNat := by
  show m.reg Convention.data + m.reg r <<< 0 + 0#64 = _
  rw [BitVec.shiftLeft_zero, BitVec.add_zero, ha, BitVec.ofNat_toNat]

theorem operand (hr : r ≠ .rsp) (ha : m.reg r = a.setWidth 64)
    (hlt : a.toNat < m.host.vm.dataSize) :
    m.operand (indirect r hr) = .ok (m.reg Convention.data + BitVec.ofNat 64 a.toNat) :=
  operand_eq_ok.mpr ⟨address ha, _, h.place hlt, rfl⟩

theorem load8 (hx : x + 1 ≤ m.host.vm.dataSize) :
    m.load8 (m.reg Convention.data + BitVec.ofNat 64 x) =
      .ok (m.host.vm.block.getD (m.host.vm.dataStart + x) 0) := by
  have htotal := h.sized.total
  rw [Machine.load8, reached_eq_ok, Host.load8, h.place hx, Array.getD_eq_getD_getElem?]
  show m.host.vm.block[_]? = _
  rw [Array.getElem?_eq_getElem (by omega)]
  rfl

theorem store8 (hx : x + 1 ≤ m.host.vm.dataSize) (v : Byte) :
    m.store8 (m.reg Convention.data + BitVec.ofNat 64 x) v =
      .ok (m.setHost (m.host.write x [v])) := by
  have htotal := h.sized.total
  have hplace := h.place hx
  refine store8_eq_ok.mpr ⟨_, Host.store8_eq_some.mpr ⟨_, _, hplace, ?_, rfl⟩, rfl⟩
  exact Block.setByte?_eq (by omega) v

theorem store16 (hx : x + 2 ≤ m.host.vm.dataSize) (v : Half) :
    m.store16 (m.reg Convention.data + BitVec.ofNat 64 x) v =
      .ok (m.setHost (m.host.write x v.bytes)) := by
  have htotal := h.sized.total
  have hplace := h.place (x := x) (by omega)
  refine store16_eq_ok.mpr ⟨_, Host.store16_eq_some.mpr ⟨_, _, hplace, ?_, rfl⟩, rfl⟩
  exact Block.setHalf?_eq (by omega) v

theorem store32 (hx : x + 4 ≤ m.host.vm.dataSize) (v : Cell) :
    m.store32 (m.reg Convention.data + BitVec.ofNat 64 x) v =
      .ok (m.setHost (m.host.write x v.bytes)) := by
  have htotal := h.sized.total
  have hplace := h.place (x := x) (by omega)
  refine store32_eq_ok.mpr ⟨_, Host.store32_block hplace ?_, rfl⟩
  exact Block.setCell?_eq (by omega) v

theorem load32 (hx : x + 4 ≤ m.host.vm.dataSize) :
    m.load32 (m.reg Convention.data + BitVec.ofNat 64 x) =
      .ok (m.host.vm.block.part (m.host.vm.dataStart + x) .cell) := by
  have htotal := h.sized.total
  have hplace := h.place (x := x) (by omega)
  rw [Machine.load32, reached_eq_ok, Host.load32_block hplace, Block.cell?, if_pos (by omega)]
  rfl

theorem increment (hx : x + 4 ≤ m.host.vm.dataSize) (op : Alu) {v : Cell}
    (hv : v = m.host.vm.block.part (m.host.vm.dataStart + x) .cell) :
    m.increment op (m.reg Convention.data + BitVec.ofNat 64 x) =
      .ok ((m.setFlags { op.flags v 1 with carry := m.flags.carry }).setHost
        (m.host.write x (Cell.bytes (op.result v 1)))) := by
  have hflags : (m.setFlags { op.flags v 1 with carry := m.flags.carry }).HasData :=
    ⟨h.sized, h.data⟩
  rw [Machine.increment, h.load32 hx, ok_bind, ← hv]
  exact hflags.store32 hx _

theorem load16 (hx : x + 2 ≤ m.host.vm.dataSize) :
    m.load16 (m.reg Convention.data + BitVec.ofNat 64 x) =
      .ok (Half.ofBytes (m.host.vm.block.getD (m.host.vm.dataStart + x) 0)
        (m.host.vm.block.getD (m.host.vm.dataStart + x + 1) 0)) := by
  have htotal := h.sized.total
  have hplace := h.place (x := x) (by omega)
  rw [Machine.load16, reached_eq_ok, Host.load16, hplace]
  exact if_pos (by omega)

end HasData

end Machine

/-! ## Section 3: Loads and stores of every width -/

namespace Template.Width

/-- The instruction that loads the part of a cell at the address in a register. -/
def load (w : Width) (dst r : Reg) (h : r ≠ .rsp := by decide) : Instr :=
  match w with
  | .byte => .loadByte dst (indirect r h)
  | .half => .loadHalf dst (indirect r h)
  | .cell => .load .d dst (indirect r h)

/-- The instruction that stores part of a register at the address in another one. -/
def store (w : Width) (r src : Reg) (h : r ≠ .rsp := by decide) : Instr :=
  match w with
  | .byte => .store8 (indirect r h) src
  | .half => .store16 (indirect r h) src
  | .cell => .store .d (indirect r h) src

theorem bytes_pos (w : Width) : 0 < w.bytes := by
  cases w <;> decide

variable (w : Width) {m : Machine} {a : Cell} {r : Reg} (hr : r ≠ .rsp) (h : m.HasData)
  (ha : m.reg r = a.setWidth 64) (hfit : a.toNat + w.bytes ≤ m.host.vm.dataSize)
include h ha hfit

theorem exec_load (dst : Reg) : m.exec (w.load dst r hr) =
    .ok (m.setReg32 dst (m.host.vm.block.part (m.host.vm.dataStart + a.toNat) w)) := by
  have hoperand := h.operand hr ha (Nat.lt_of_lt_of_le (Nat.lt_add_of_pos_right w.bytes_pos) hfit)
  cases w with
  | byte =>
    show (m.operand _ >>= fun x => m.load8 x >>= _) = _
    rw [hoperand, ok_bind, h.load8 hfit, Machine.setReg32, Block.part, Block.ofBytes_of_byte,
      BitVec.setWidth_setWidth (by decide)]
    rfl
  | half =>
    show (m.operand _ >>= fun x => m.load16 x >>= _) = _
    rw [hoperand, ok_bind, h.load16 hfit, Machine.setReg32, Block.part, Block.ofBytes_of_half,
      BitVec.setWidth_setWidth (by decide)]
    rfl
  | cell =>
    show (m.operand _ >>= fun x => m.load32 x >>= _) = _
    rw [hoperand, ok_bind, h.load32 hfit]
    rfl

theorem exec_store (src : Reg) : m.exec (w.store r src hr) =
    .ok (m.setHost (m.host.write a.toNat ((m.reg32 src).bytes.take w.bytes))) := by
  have hoperand := h.operand hr ha (Nat.lt_of_lt_of_le (Nat.lt_add_of_pos_right w.bytes_pos) hfit)
  cases w with
  | byte =>
    have hbyte : [(m.reg src).setWidth 8] = (m.reg32 src).bytes.take 1 := by
      show _ = [((m.reg src).setWidth 32).extractLsb' 0 8]
      rw [BitVec.extractLsb'_setWidth_of_le (by decide)]
      rfl
    show (m.operand _ >>= fun x => m.store8 x _) = _
    rw [hoperand, ok_bind, h.store8 hfit, hbyte]
    rfl
  | half =>
    have hhalf : Half.bytes ((m.reg src).setWidth 16) = (m.reg32 src).bytes.take 2 := by
      show _ = [((m.reg src).setWidth 32).extractLsb' 0 8,
          ((m.reg src).setWidth 32).extractLsb' 8 8]
      rw [Half.bytes, BitVec.extractLsb'_setWidth_of_le (by decide),
        BitVec.extractLsb'_setWidth_of_le (by decide),
        BitVec.extractLsb'_setWidth_of_le (by decide),
        BitVec.extractLsb'_setWidth_of_le (by decide)]
    show (m.operand _ >>= fun x => m.store16 x _) = _
    rw [hoperand, ok_bind, h.store16 hfit, hhalf]
    rfl
  | cell =>
    show (m.operand _ >>= fun x => m.store32 x _) = _
    rw [hoperand, ok_bind, h.store32 hfit]
    rfl

end Template.Width

/-! ## Section 4: String operations -/

namespace Machine

theorem stride_up {m : Machine} (hup : m.down = false) (k : Word) : m.stride k = k := by
  rw [stride, hup]
  rfl

/-- Both registers of a string operation move on by a byte. -/
def moveOn (m : Machine) : Machine :=
  let m := m.setReg .rsi (m.reg .rsi + m.stride 1)
  let m := m.setReg .rdi (m.reg .rdi + m.stride 1)
  m.setReg .rcx (m.reg .rcx - 1)

/-- The register of a string operation that stores cells moves on by a cell. -/
def moveOnCell (m : Machine) : Machine :=
  let m := m.setReg .rdi (m.reg .rdi + m.stride 4)
  m.setReg .rcx (m.reg .rcx - 1)

theorem reg_setHost (m : Machine) (h : Host) (r : Reg) : (m.setHost h).reg r = m.reg r := rfl

theorem becomes_moveOn (m : Machine) : Becomes [.rsi, .rdi, .rcx] m.host m m.moveOn :=
  (((Becomes.refl _ m).setReg (by decide) _).setReg (by decide) _).setReg (by decide) _

theorem reg_moveOn_rsi {m : Machine} (hup : m.down = false) :
    m.moveOn.reg .rsi = m.reg .rsi + BitVec.ofNat 64 1 := by
  show m.reg .rsi + m.stride 1 = _
  rw [stride_up hup]
  rfl

theorem reg_moveOn_rdi {m : Machine} (hup : m.down = false) :
    m.moveOn.reg .rdi = m.reg .rdi + BitVec.ofNat 64 1 := by
  show m.reg .rdi + m.stride 1 = _
  rw [stride_up hup]
  rfl

theorem becomes_moveOnCell (m : Machine) : Becomes [.rdi, .rcx] m.host m m.moveOnCell :=
  ((Becomes.refl _ m).setReg (by decide) _).setReg (by decide) _

theorem reg_moveOnCell {m : Machine} (hup : m.down = false) :
    m.moveOnCell.reg .rdi = m.reg .rdi + BitVec.ofNat 64 4 := by
  show m.reg .rdi + m.stride 4 = _
  rw [stride_up hup]
  rfl

variable {m : Machine} {x y n : Nat}

theorem reg_moved {m' : Machine} {r : Reg} {k : Nat} (hr : m.reg r = m.reg data + BitVec.ofNat 64 x)
    (hdata : m'.reg data = m.reg data) (hmoved : m'.reg r = m.reg r + BitVec.ofNat 64 k) :
    m'.reg r = m'.reg data + BitVec.ofNat 64 (x + k) := by
  rw [hmoved, hr, hdata, BitVec.add_assoc, ← BitVec.ofNat_add]

/-- **Run.** A move copies its bytes from the lowest address up. -/
theorem exists_moveBytes (h : m.HasData) (hup : m.down = false) (hx : x + n ≤ m.host.vm.dataSize)
    (hy : y + n ≤ m.host.vm.dataSize) (hrsi : m.reg .rsi = m.reg data + BitVec.ofNat 64 x)
    (hrdi : m.reg .rdi = m.reg data + BitVec.ofNat 64 y) :
    ∃ m', moveBytes n m = .ok m' ∧ Becomes [.rsi, .rdi, .rcx] (m.host.copyUp x y n) m m' := by
  induction n generalizing m x y with
  | zero => exact ⟨m, rfl, .refl _ _⟩
  | succ n ih =>
    obtain ⟨v, hbyte⟩ : ∃ v, v = m.host.vm.block.getD (m.host.vm.dataStart + x) 0 := ⟨_, rfl⟩
    have hv : m.load8 (m.reg .rsi) = .ok v := by
      rw [hrsi, hbyte]
      exact h.load8 (by omega)
    have hstore := h.store8 (x := y) (by omega) v
    rw [← hrdi] at hstore
    obtain ⟨m₀, hm₀⟩ : ∃ m₀, m₀ = m.setHost (m.host.write y [v]) := ⟨_, rfl⟩
    rw [← hm₀] at hstore
    -- One byte is moved and the pointers go on; the rest starts in the memory that
    -- this byte has changed.
    have hstep : moveBytes (n + 1) m = moveBytes n m₀.moveOn := by
      rw [moveBytes, hv, ok_bind, hstore]
      rfl
    have hmoved := becomes_moveOn m₀
    have hbecomes : Becomes [.rsi, .rdi, .rcx] (m.host.write y [v]) m m₀ := by
      rw [hm₀]
      exact (Becomes.refl _ m).setHost _
    rw [hbecomes.host] at hmoved
    have hnext : Becomes [.rsi, .rdi, .rcx] (m.host.write y [v]) m m₀.moveOn :=
      hbecomes.trans hmoved
    have hdata : m₀.moveOn.HasData := by
      rw [hm₀]
      exact (h.write y [v]).becomes (becomes_moveOn _) (by decide)
    have hup₀ : m₀.down = false := by simp only [hm₀, setHost, hup]
    have hrsi₁ := reg_moved (k := 1) hrsi (hnext.regs data (by decide))
      (by rw [reg_moveOn_rsi hup₀, hm₀]; rfl)
    have hrdi₁ := reg_moved (k := 1) hrdi (hnext.regs data (by decide))
      (by rw [reg_moveOn_rdi hup₀, hm₀]; rfl)
    have hsize : m₀.moveOn.host.vm.dataSize = m.host.vm.dataSize := by
      rw [hnext.host, Host.dataSize_write]
    obtain ⟨m', hmove, hrest⟩ := ih hdata hup₀ (by omega) (by omega) hrsi₁ hrdi₁
    rw [hnext.host, hbyte, ← Host.copyUp_succ] at hrest
    exact ⟨m', hstep.trans hmove, hnext.trans hrest⟩

theorem exists_storeCells (h : m.HasData) (hup : m.down = false)
    (hy : y + 4 * n ≤ m.host.vm.dataSize) (hrdi : m.reg .rdi = m.reg data + BitVec.ofNat 64 y) :
    ∃ m', storeCells n m = .ok m' ∧
      Becomes [.rdi, .rcx]
        (m.host.write y (List.replicate n (m.reg32 .rax).bytes).flatten) m m' := by
  induction n generalizing m y with
  | zero => exact ⟨m, rfl, .refl _ _⟩
  | succ n ih =>
    obtain ⟨v, hv⟩ : ∃ v, v = m.reg32 .rax := ⟨_, rfl⟩
    have hstore := h.store32 (x := y) (by omega) v
    have hoperand : m.operand { base := .rdi } = .ok (m.reg data + BitVec.ofNat 64 y) := by
      refine operand_eq_ok.mpr ⟨?_, _, h.place (by omega), rfl⟩
      rw [← hrdi]
      exact BitVec.add_zero _
    obtain ⟨m₀, hm₀⟩ : ∃ m₀, m₀ = m.setHost (m.host.write y v.bytes) := ⟨_, rfl⟩
    rw [← hm₀] at hstore
    have hstep : storeCells (n + 1) m = storeCells n m₀.moveOnCell := by
      rw [storeCells, hoperand, ok_bind, ← hv, hstore]
      rfl
    have hmoved := becomes_moveOnCell m₀
    have hbecomes : Becomes [.rdi, .rcx] (m.host.write y v.bytes) m m₀ := by
      rw [hm₀]
      exact (Becomes.refl _ m).setHost _
    rw [hbecomes.host] at hmoved
    have hnext : Becomes [.rdi, .rcx] (m.host.write y v.bytes) m m₀.moveOnCell :=
      hbecomes.trans hmoved
    have hdata : m₀.moveOnCell.HasData := by
      rw [hm₀]
      exact (h.write y v.bytes).becomes (becomes_moveOnCell _) (by decide)
    have hup₀ : m₀.down = false := by simp only [hm₀, setHost, hup]
    have hrdi₁ := reg_moved (k := 4) hrdi (hnext.regs data (by decide)) (by
      rw [reg_moveOnCell hup₀, hm₀, reg_setHost])
    have hsize : m₀.moveOnCell.host.vm.dataSize = m.host.vm.dataSize := by
      rw [hnext.host, Host.dataSize_write]
    obtain ⟨m', hstores, hrest⟩ := ih hdata hup₀ (by omega) hrdi₁
    -- The cell that is stored stays in its register.
    have hrax : m₀.moveOnCell.reg32 .rax = v := by
      rw [hv]
      exact congrArg (BitVec.setWidth 32) (hnext.regs .rax (by decide))
    rw [hnext.host, hrax, show y + 4 = y + v.bytes.length from rfl, Host.write_append] at hrest
    rw [← hv]
    exact ⟨m', hstep.trans hstores, hnext.trans hrest⟩

/-- **Run.** A comparison leaves the order of its blocks in the flags, if they said
    that no bytes differ so far. -/
theorem exists_compareBytes (h : m.HasData) (hup : m.down = false) (hx : x + n ≤ m.host.vm.dataSize)
    (hy : y + n ≤ m.host.vm.dataSize) (hrsi : m.reg .rsi = m.reg data + BitVec.ofNat 64 x)
    (hrdi : m.reg .rdi = m.reg data + BitVec.ofNat 64 y) (hequal : m.flags.Orders .eq) :
    ∃ m', compareBytes n m = .ok m' ∧ Becomes [.rsi, .rdi, .rcx] m.host m m' ∧
      m'.flags.Orders (lexOrder (m.host.vm.bytesAt x n) (m.host.vm.bytesAt y n)) := by
  induction n generalizing m x y with
  | zero =>
    have hnone : ∀ a, m.host.vm.bytesAt a 0 = [] := fun a => by simp [Instance.bytesAt, Block.slice]
    rw [hnone, hnone]
    exact ⟨m, rfl, .refl _ _, hequal⟩
  | succ n ih =>
    rw [Instance.bytesAt_succ h.sized hx, Instance.bytesAt_succ h.sized hy, lexOrder_cons]
    obtain ⟨v, hv⟩ : ∃ v, v = m.host.vm.block.getD (m.host.vm.dataStart + x) 0 := ⟨_, rfl⟩
    obtain ⟨w, hw⟩ : ∃ w, w = m.host.vm.block.getD (m.host.vm.dataStart + y) 0 := ⟨_, rfl⟩
    have hloadv : m.load8 (m.reg .rsi) = .ok v := by rw [hrsi, hv]; exact h.load8 (by omega)
    have hloadw : m.load8 (m.reg .rdi) = .ok w := by rw [hrdi, hw]; exact h.load8 (by omega)
    rw [← hv, ← hw]
    obtain ⟨m₀, hm₀⟩ : ∃ m₀, m₀ = m.setFlags (subFlags v w) := ⟨_, rfl⟩
    have hstep : compareBytes (n + 1) m =
        if v = w then compareBytes n m₀.moveOn else .ok m₀.moveOn := by
      rw [compareBytes, hloadv, ok_bind, hloadw, ok_bind, ← hm₀]
      rfl
    have hnext : Becomes [.rsi, .rdi, .rcx] m.host m m₀.moveOn := by
      have hfirst : Becomes [.rsi, .rdi, .rcx] m.host m m₀ := hm₀ ▸ (Becomes.refl _ m).setFlags _
      exact hfirst.follow (becomes_moveOn m₀)
    have hflags : m₀.moveOn.flags.Orders (compare v.toNat w.toNat) := by
      rw [hm₀]
      exact orders_subFlags v w
    rw [hstep]
    by_cases heq : v = w
    · have horder : compare v.toNat w.toNat = .eq := Nat.compare_eq_eq.mpr (congrArg _ heq)
      rw [horder] at hflags ⊢
      have hup₀ : m₀.down = false := by simp only [hm₀, setFlags, hup]
      have hrsi₁ := reg_moved (k := 1) hrsi (hnext.regs data (by decide))
        (by rw [reg_moveOn_rsi hup₀, hm₀]; rfl)
      have hrdi₁ := reg_moved (k := 1) hrdi (hnext.regs data (by decide))
        (by rw [reg_moveOn_rdi hup₀, hm₀]; rfl)
      have hsize : m₀.moveOn.host.vm.dataSize = m.host.vm.dataSize := by rw [hnext.host]
      obtain ⟨m', hcompare, hbecomes, hlast⟩ :=
        ih (h.becomes hnext (by decide)) hup₀ (by omega) (by omega) hrsi₁ hrdi₁ hflags
      rw [hnext.host] at hlast
      rw [if_pos heq]
      exact ⟨m', hcompare, hnext.follow hbecomes, hlast⟩
    · -- The first bytes that differ decide.
      have horder : compare v.toNat w.toNat ≠ .eq :=
        fun h => heq (BitVec.eq_of_toNat_eq (Nat.compare_eq_eq.mp h))
      have hthen : ∀ o, (compare v.toNat w.toNat).then o = compare v.toNat w.toNat := by
        cases hc : compare v.toNat w.toNat with
        | eq => exact absurd hc horder
        | lt => exact fun _ => rfl
        | gt => exact fun _ => rfl
      rw [if_neg heq, hthen]
      exact ⟨m₀.moveOn, rfl, hnext, hflags⟩

end Machine

end PawnNative
