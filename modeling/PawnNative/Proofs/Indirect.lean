import Mathlib.Tactic.Common
import PawnNative.Proofs.DataAccess
import PawnNative.Proofs.FloatNatives

/-! # Indirect accesses

    An instruction that computes the data address of what it reads or writes compares
    the address with the size of the data segment before it uses it. The comparison
    is of 32-bit numbers without a sign, while the operand of the processor adds the
    whole of a 64-bit register to the start of the data segment. Where the upper half
    of that register is zero the two speak of the same place, and then the check is
    exact: it fails for the accesses that leave the data segment, and for no others.
-/

namespace PawnNative

open X64 Convention Template

/-! ## Section 1: The check -/

/-- The fault of an access outside the data segment. -/
abbrev outside : Target := .stub (.fault .memoryAccess)

section
variable {ctx : Context} {r : Reg} {a : Cell} {len : Nat} {m : Machine} {ls : List Line}
  (hchecks : ctx.config.memoryChecks = true) (hsize : ctx.dataSize < 0x100000000)
  (ha : m.reg32 r = a)
include hchecks hsize ha

omit ha in
theorem checkRange_eq (r : Reg) (a : Cell) (hlen : ¬ctx.dataSize < len) : checkRange ctx r len =
    [.op (.aluRI .cmp .d r (BitVec.ofNat 32 (ctx.dataSize - len))), .jcc .a outside] ∧
    Cond.holds (subFlags a (BitVec.ofNat 32 (ctx.dataSize - len))) .a =
      some (decide (ctx.dataSize < a.toNat + len)) := by
  constructor
  · rw [checkRange, hchecks, if_neg (by decide), if_neg hlen]
  · obtain ⟨-, -, -, -, habove, -⟩ := holds_unsigned a (BitVec.ofNat 32 (ctx.dataSize - len))
    have hnat : (BitVec.ofNat 32 (ctx.dataSize - len)).toNat = ctx.dataSize - len := by
      rw [BitVec.toNat_ofNat]
      omega
    rw [habove, hnat, Option.some_inj, decide_eq_decide]
    omega

/-- A range outside the data segment fails the check. -/
theorem comes_checkRange_fault (hout : ctx.dataSize < a.toNat + len) :
    Comes (checkRange ctx r len ++ ls) m (some outside) fun m' => ∃ f, m' = m.setFlags f := by
  by_cases hlen : ctx.dataSize < len
  · have heq : checkRange ctx r len = [.jmp outside] := by
      rw [checkRange, hchecks, if_neg (by decide), if_pos hlen]
    rw [heq]
    exact .jmp ⟨m.flags, rfl⟩
  · obtain ⟨heq, hflags⟩ := checkRange_eq hchecks hsize r a hlen
    rw [decide_eq_true hout] at hflags
    rw [heq]
    refine .instr rfl rfl (.taken ?_ ⟨_, rfl⟩)
    rw [← hflags, ← ha]
    rfl

omit hchecks in
/-- A range inside the data segment passes it, and where there is no check there is nothing to
    pass. -/
theorem comes_checkRange {exit : Option Target} {goal : Machine → Prop}
    (hin : a.toNat + len ≤ ctx.dataSize)
    (hrest : ∀ f, Comes ls (m.setFlags f) exit goal) :
      Comes (checkRange ctx r len ++ ls) m exit goal := by
  by_cases hchecks : ctx.config.memoryChecks = true
  · obtain ⟨heq, hflags⟩ := checkRange_eq hchecks hsize r a (show ¬ctx.dataSize < len by omega)
    rw [decide_eq_false (Nat.not_lt.mpr hin)] at hflags
    rw [heq]
    refine .instr rfl rfl (.pass ?_ (hrest _))
    rw [← hflags, ← ha]
    rfl
  · rw [checkRange, if_pos (by simp [hchecks])]
    exact hrest m.flags

omit hchecks ha in
theorem comes_checkTwo {y : Cell} {goal : Machine → Prop} (hpri : m.reg32 pri = a)
    (halt : m.reg32 alt = y)
    (hfirst : a.toNat + len ≤ ctx.dataSize) (hlast : y.toNat + len ≤ ctx.dataSize)
    (hrest : ∀ f, Comes ls (m.setFlags f) none goal) :
    Comes (checkRange ctx pri len ++ checkRange ctx alt len ++ ls) m none goal := by
  rw [List.append_assoc]
  refine comes_checkRange hsize hpri hfirst fun f => ?_
  exact comes_checkRange (m := m.setFlags f) hsize halt hlast fun f' => hrest f'

end

/-! ## Section 2: The accesses of the bytecode -/

/-- An access at data addresses that the code computes. -/
inductive Indirect where
  | load (dst : Accumulator) (address : Cell) (w : Width)
  | store (src : Accumulator) (address : Cell) (w : Width)
  /-- Adds one to a cell, or takes one from it. -/
  | count (op : Alu) (address : Cell)
  | move (src dst : Cell) (len : Nat)
  | compare (x y : Cell) (len : Nat)
  | fill (dst : Cell) (len : Nat)

namespace Indirect

/-- The ranges that an access reaches, as addresses and lengths. -/
def ranges : Indirect → List (Cell × Nat)
  | load _ a w | store _ a w => [(a, w.bytes)]
  | count _ a => [(a, Cell.width)]
  | move x y len | compare x y len => [(x, len), (y, len)]
  | fill a len => [(a, len)]

/-- Every range lies inside a data segment of this size. -/
def Fits (x : Indirect) (size : Nat) : Prop := ∀ r ∈ x.ranges, r.1.toNat + r.2 ≤ size

instance (x : Indirect) (size : Nat) : Decidable (x.Fits size) :=
  inferInstanceAs (Decidable (∀ r ∈ _, _))

/-- What an access does. Nothing is said about scratch registers, and of a
    move only where it writes. -/
def Performs (x : Indirect) (m m' : Machine) : Prop :=
  match x with
  | load dst a w => Machine.Becomes [dst.reg] m.host m m' ∧ ∃ v :
    Cell, m'.reg dst.reg = v.setWidth 64 ∧
      v.bytes = m.host.vm.bytesAt a.toNat w.bytes ++ List.replicate (Cell.width - w.bytes) 0
  | store src a w =>
    Machine.Becomes [tmp0] (m.host.write a.toNat ((m.reg32 src.reg).bytes.take w.bytes)) m m'
  | count op a => ∃ v : Cell, v.bytes = m.host.vm.bytesAt a.toNat Cell.width ∧
      Machine.Becomes [] (m.host.write a.toNat (Cell.bytes (op.result v 1))) m m'
  | move _ y len => ∃ bytes : List Byte, bytes.length = len ∧
      Machine.Becomes [save, tmp1, tmp2] (m.host.write y.toNat bytes) m m'
  | compare _ _ _ => Machine.Becomes [pri, save, tmp0, tmp1, tmp2] m.host m m'
  | fill y len => Machine.Becomes [save, tmp2]
      (m.host.write y.toNat (List.replicate (len / Cell.width) (m.reg32 pri).bytes).flatten) m m'

theorem Performs.layout {x : Indirect} {m m' : Machine} (h : x.Performs m m') :
    m'.layout = m.layout := by
  cases x with
  | load dst a w => exact h.1.layout
  | store src a w => exact Machine.Becomes.layout h
  | count op a =>
    obtain ⟨v, -, h⟩ := h
    exact h.layout
  | move src dst len =>
    obtain ⟨bytes, -, h⟩ := h
    exact h.layout
  | compare x y len => exact Machine.Becomes.layout h
  | fill dst len => exact Machine.Becomes.layout h

theorem Performs.jumpTo {x : Indirect} {m m' : Machine} (h : x.Performs m m') (b : Word) :
    x.Performs m (m'.jumpTo b) := by
  cases x with
  | load dst a w => exact ⟨h.1.jumpTo b, h.2⟩
  | store src a w => exact Machine.Becomes.jumpTo h b
  | count op a =>
    obtain ⟨v, hv, h⟩ := h
    exact ⟨v, hv, h.jumpTo b⟩
  | move src dst len =>
    obtain ⟨bytes, hlength, h⟩ := h
    exact ⟨bytes, hlength, h.jumpTo b⟩
  | compare x y len => exact Machine.Becomes.jumpTo h b
  | fill dst len => exact Machine.Becomes.jumpTo h b

/-- At these lines, which a machine comes to from a state that differs in registers only, an access
    that does not fit faults before anything is stored, and one that does is made. -/
structure Checked (x : Indirect) (size : Nat) (ls : List Line) (m₀ m : Machine) : Prop where
  faults : ¬x.Fits size → Comes ls m (some outside) fun m' =>
    Machine.Becomes [pri, alt, tmp0] m₀.host m₀ m'
  performs : x.Fits size → Comes ls m none (x.Performs m₀)

variable {size : Nat} {ls : List Line} {m₀ m : Machine} {a y : Cell} {len : Nat}

theorem fits_one : (∀ r ∈ [(a, len)], r.1.toNat + r.2 ≤ size) ↔ a.toNat + len ≤ size := by simp

theorem fits_two : (∀ r ∈ [(a, len), (y, len)], r.1.toNat + r.2 ≤ size) ↔
    a.toNat + len ≤ size ∧ y.toNat + len ≤ size := by simp

theorem Checked.after {x : Indirect} {m₁ : Machine} {i : Instr} (hi : i.goesOn)
    (hexec : m.exec i = .ok m₁) (h : x.Checked size ls m₀ m₁) : x.Checked size (.op i :: ls) m₀ m :=
  ⟨fun hout => .instr hi hexec (h.faults hout), fun hfits => .instr hi hexec (h.performs hfits)⟩

variable {ctx : Context} (hchecks : ctx.config.memoryChecks = true) (hdata : m₀.HasData)
  (hsize : m₀.host.vm.dataSize = ctx.dataSize)
include hchecks hdata hsize

omit hchecks in
theorem size_lt : ctx.dataSize < 0x100000000 := by
  have htotal := hdata.sized.total
  have hbounded := hdata.sized.bounded
  omega

theorem checked_one {x : Indirect} {r : Reg} (hx : x.ranges = [(a, len)]) (ha : m.reg32 r = a)
    (hm : Machine.Becomes [pri, alt, tmp0] m₀.host m₀ m)
    (hrest : a.toNat + len ≤ ctx.dataSize → ∀ f, Comes ls (m.setFlags f) none (x.Performs m₀)) :
    x.Checked ctx.dataSize (checkRange ctx r len ++ ls) m₀ m := by
  have hlt := size_lt hdata hsize
  have hfits : x.Fits ctx.dataSize ↔ a.toNat + len ≤ ctx.dataSize := by
    rw [Fits, hx]
    exact fits_one
  constructor
  · intro hout
    refine (comes_checkRange_fault hchecks hlt ha (Nat.not_le.mp (mt hfits.mpr hout))).mono ?_
    rintro m' ⟨f, rfl⟩
    exact hm.setFlags f
  · intro hin
    exact comes_checkRange hlt ha (hfits.mp hin) (hrest (hfits.mp hin))

section
variable {r : Reg} {hr : r ≠ .rsp} (ha : m.reg r = a.setWidth 64)
include ha

theorem checked_load {dst : Accumulator} {w : Width} (hm : Machine.Becomes [dst.reg] m₀.host m₀ m) :
    (load dst a w).Checked ctx.dataSize
      (checkRange ctx r w.bytes ++ [.op (w.load dst.reg r hr)]) m₀ m := by
  refine checked_one hchecks hdata hsize rfl (Machine.reg32_eq ha)
    (hm.mono (by cases dst <;> decide)) fun hfits f => ?_
  have hmf := hm.setFlags f
  have hdataf := hdata.becomes hmf (by cases dst <;> decide)
  have hhost : (m.setFlags f).host = m₀.host := hmf.host
  have hload :=
    w.exec_load (m := m.setFlags f) hr hdataf ha (by rw [hhost, hsize]; exact hfits) dst.reg
  rw [hhost] at hload
  refine .instr (by cases w <;> rfl) hload
    (.nil ⟨?_, _, RegFile.get_set_self _ _ _, Block.bytes_part ?_⟩)
  · exact hmf.setReg (List.mem_singleton_self _) _
  · have htotal := hdata.sized.total
    omega

theorem checked_store {src : Accumulator} {w : Width} (hm : Machine.Becomes [tmp0] m₀.host m₀ m) :
    (store src a w).Checked ctx.dataSize
      (checkRange ctx r w.bytes ++ [.op (w.store r src.reg hr)]) m₀ m := by
  refine checked_one hchecks hdata hsize rfl (Machine.reg32_eq ha) (hm.mono (by decide))
    fun hfits f => ?_
  have hmf := hm.setFlags f
  have hdataf := hdata.becomes hmf (by decide)
  have hhost : (m.setFlags f).host = m₀.host := hmf.host
  have hsrc : (m.setFlags f).reg32 src.reg = m₀.reg32 src.reg :=
    congrArg (BitVec.setWidth 32) (hm.regs src.reg (by cases src <;> decide))
  have hstore :=
    w.exec_store (m := m.setFlags f) hr hdataf ha (by rw [hhost, hsize]; exact hfits) src.reg
  rw [hhost, hsrc] at hstore
  exact .instr (by cases w <;> rfl) hstore (.nil (hmf.setHost _))

end

/-- The cell is read, changed and stored by one instruction. -/
theorem checked_count {op : Alu} {i : Instr} (hi : i.goesOn)
    (hexec : ∀ m : Machine, m.exec i = (m.operand (indirect pri) >>= m.increment op))
    (ha : m₀.reg pri = a.setWidth 64) :
    (count op a).Checked ctx.dataSize (checkRange ctx pri Cell.width ++ [.op i]) m₀ m₀ := by
  refine checked_one hchecks hdata hsize rfl (Machine.reg32_eq ha) (.refl _ m₀) fun hfits f => ?_
  have hfits : a.toNat + 4 ≤ m₀.host.vm.dataSize := hsize.symm ▸ hfits
  obtain ⟨v, hv⟩ : ∃ v, v = m₀.host.vm.block.part (m₀.host.vm.dataStart + a.toNat) .cell := ⟨_, rfl⟩
  have hdataf : (m₀.setFlags f).HasData := ⟨hdata.sized, hdata.data⟩
  have hcount := hexec (m₀.setFlags f)
  rw [hdataf.operand (by decide) ha (show _ < m₀.host.vm.dataSize by omega), ok_bind,
    hdataf.increment hfits op hv] at hcount
  refine .instr hi hcount (.nil ⟨v, ?_, ?_⟩)
  · rw [hv, Block.bytes_part (by have htotal := hdata.sized.total; show _ + 4 ≤ _; omega)]
    exact List.append_nil _
  · exact (((Machine.Becomes.refl [] m₀).setFlags f).setFlags _).setHost _

theorem checked_two {x : Indirect} (hx : x.ranges = [(a, len), (y, len)]) (ha : m₀.reg32 pri = a)
    (hy : m₀.reg32 alt = y)
    (hrest : a.toNat + len ≤ ctx.dataSize → y.toNat + len ≤ ctx.dataSize →
      ∀ f, Comes ls (m₀.setFlags f) none (x.Performs m₀)) :
    x.Checked ctx.dataSize (checkRange ctx pri len ++ checkRange ctx alt len ++ ls) m₀ m₀ := by
  have hlt := size_lt hdata hsize
  have hfits : x.Fits ctx.dataSize ↔ a.toNat + len ≤ ctx.dataSize ∧
      y.toNat + len ≤ ctx.dataSize := by
    rw [Fits, hx]
    exact fits_two
  constructor
  · intro hout
    rw [List.append_assoc]
    by_cases hfirst : a.toNat + len ≤ ctx.dataSize
    · have hlast : ¬y.toNat + len ≤ ctx.dataSize := fun hlast => hout (hfits.mpr ⟨hfirst, hlast⟩)
      refine comes_checkRange hlt ha hfirst fun f => ?_
      refine (comes_checkRange_fault (m := m₀.setFlags f) hchecks hlt hy (Nat.not_le.mp hlast)).mono
        ?_
      rintro m' ⟨f', rfl⟩
      exact ((Machine.Becomes.refl _ m₀).setFlags f).setFlags f'
    · refine (comes_checkRange_fault hchecks hlt ha (Nat.not_le.mp hfirst)).mono ?_
      rintro m' ⟨f, rfl⟩
      exact (Machine.Becomes.refl _ m₀).setFlags f
  · intro hin
    obtain ⟨hfirst, hlast⟩ := hfits.mp hin
    exact comes_checkTwo hlt ha hy hfirst hlast (hrest hfirst hlast)

end Indirect

/-! ## Section 3: Blocks -/

namespace Machine

theorem Becomes.restore {r : Reg} {ws : List Reg} {h : Host} {m m' : Machine}
    (hm : Becomes (r :: ws) h m m') (hr : m'.reg r = m.reg r) : Becomes ws h m m' := by
  refine ⟨hm.layout, fun s hs => ?_, hm.host⟩
  by_cases heq : s = r
  · rw [heq, hr]
  · exact hm.regs s (by simp [heq, hs])

end Machine

/-- A string operation is about to run: the alternate register is saved, and counts. -/
structure Machine.Counting (ws : List Reg) (count : Nat) (m m₁ : Machine) : Prop where
  becomes : Machine.Becomes (alt :: ws) m.host m m₁
  saved : m₁.reg32 save = m.reg32 alt
  count : (m₁.reg .rcx).toNat = count
  upwards : m₁.down = false

theorem toNat_count {n : Nat} (hn : n < 0x100000000) :
    ((BitVec.ofNat 32 n).setWidth 64).toNat = n := by
  rw [BitVec.toNat_setWidth, BitVec.toNat_ofNat]
  omega

theorem comes_restore {m m₁ : Machine} {host : Host} {ws : List Reg}
    (hm : Machine.Becomes (alt :: ws) host m m₁)
    (hsaved : m₁.reg32 save = m.reg32 alt) (halt : m.Narrow alt) :
    Comes [.op (.movRR .d alt save)] m₁ none fun m' =>
      Machine.Becomes ws host m m' ∧ m'.reg pri = m₁.reg pri := by
  refine .instr rfl rfl (.nil ⟨(hm.setReg (by simp) _).restore ?_, rfl⟩)
  rw [hsaved, halt]
  exact RegFile.get_set_self m₁.regs alt _

def movePointers (len : Nat) : List Line :=
  [.op (.movRR .d save alt), .op (.lea .q tmp1 (indirect pri Accumulator.pri.reg_ne_rsp)),
   .op (.lea .q tmp2 (indirect alt Accumulator.alt.reg_ne_rsp)),
   .op (.movRI32 .rcx (BitVec.ofNat 32 len))]

def comparePointers (len : Nat) : List Line :=
  [.op (.movRR .d save alt), .op (.lea .q tmp1 (indirect alt Accumulator.alt.reg_ne_rsp)),
   .op (.lea .q tmp2 (indirect pri Accumulator.pri.reg_ne_rsp)), .op (.aluRR .xor .d pri pri),
   .op (.movRI32 .rcx (BitVec.ofNat 32 len))]

def fillPointers (len : Nat) : List Line :=
  [.op (.movRR .d save alt), .op (.lea .q tmp2 (indirect alt Accumulator.alt.reg_ne_rsp)),
   .op (.movRI32 .rcx (BitVec.ofNat 32 (len / Cell.width)))]

section
variable {m : Machine} {x y : Cell} {len : Nat} (hup : m.down = false) (hlen : len < 0x100000000)
include hup hlen

theorem comes_movePointers : Comes (movePointers len) m none fun m₁ =>
    m.Counting [save, tmp1, tmp2] len m₁ ∧ m₁.reg .rsi = m.address (indirect pri) ∧
      m₁.reg .rdi = m.address (indirect alt) := by
  refine .instr rfl rfl (.instr rfl rfl
      (.instr rfl rfl (.instr rfl rfl (.nil ⟨⟨?_, ?_, toNat_count hlen, hup⟩, rfl, rfl⟩))))
  · exact ((((Machine.Becomes.refl _ m).setReg (by decide) _).setReg (by decide) _).setReg
        (by decide) _).setReg
      (by decide) _
  · exact Machine.reg32_eq rfl

theorem comes_comparePointers : Comes (comparePointers len) m none fun m₁ =>
    m.Counting [pri, save, tmp1, tmp2] len m₁ ∧ m₁.reg .rsi = m.address (indirect alt) ∧
      m₁.reg .rdi = m.address (indirect pri) ∧ m₁.reg pri = 0 ∧ m₁.flags.Orders .eq := by
  have hzero : m.reg32 pri ^^^ m.reg32 pri = 0 := BitVec.xor_self
  refine .instr rfl rfl (.instr rfl rfl (.instr rfl rfl (.instr rfl rfl (.instr rfl rfl
    (.nil ⟨⟨?_, ?_, toNat_count hlen, hup⟩, rfl, rfl, ?_, ?_⟩)))))
  · exact ((((((Machine.Becomes.refl _ m).setReg (by decide) _).setReg (by decide) _).setReg
        (by decide) _).setFlags
      _).setReg (by decide) _).setReg (by decide) _
  · exact Machine.reg32_eq rfl
  · exact congrArg (BitVec.setWidth 64) hzero
  · show (logicFlags (m.reg32 pri ^^^ m.reg32 pri)).Orders .eq
    rw [hzero]
    exact ⟨rfl, rfl⟩

theorem comes_fillPointers : Comes (fillPointers len) m none fun m₁ =>
    m.Counting [save, tmp2] (len / Cell.width) m₁ ∧ m₁.reg .rdi = m.address (indirect alt) := by
  have hcount : len / Cell.width < 0x100000000 := Nat.lt_of_le_of_lt (Nat.div_le_self _ _) hlen
  refine .instr rfl rfl
    (.instr rfl rfl (.instr rfl rfl (.nil ⟨⟨?_, ?_, toNat_count hcount, hup⟩, rfl⟩)))
  · exact (((Machine.Becomes.refl _ m).setReg (by decide) _).setReg (by decide) _).setReg
      (by decide) _
  · exact Machine.reg32_eq rfl

end

/-- The lines after a comparison: one, zero or minus one, by the order of the
    first bytes that differ. -/
def compareResult : List Line :=
  [.op (.setcc .a pri), .op (.setcc .b tmp0), .op (.movzxByte tmp0 tmp0),
    .op (.aluRR .sub .d pri tmp0)]

/-- The cell that a comparison gives. -/
def orderCell : Ordering → Cell
  | .lt => -1
  | .eq => 0
  | .gt => 1

theorem comes_compareResult {m : Machine} {o : Ordering} (hpri : m.reg pri = 0)
    (hflags : m.flags.Orders o) :
    Comes compareResult m none fun m' => Machine.Becomes [pri, tmp0] m.host m m' ∧
    m'.reg32 pri = orderCell o := by
  have hbelow : ∀ v, Cond.holds (m.setReg pri v).flags .b = some (o == .lt) := fun _ => hflags.below
  refine .instr rfl (Machine.exec_setcc hflags.above pri)
    (.instr rfl (Machine.exec_setcc (hbelow _) tmp0)
    (.instr rfl rfl (.instr rfl rfl (.nil ⟨?_, ?_⟩))))
  · exact (((((Machine.Becomes.refl _ m).setReg (by decide) _).setReg (by decide) _).setReg
      (by decide) _).setFlags _).setReg (by decide) _
  · refine (Machine.reg32_setReg32_self _ pri _).trans ?_
    show (((m.reg pri).extractLsb' 8 56 ++
        (if (o == .gt) then 1 else 0 : Byte) : Word).setWidth 32 -
      ((((m.reg tmp0).extractLsb' 8 56 ++
        (if (o == .lt) then 1 else 0 : Byte) : Word).setWidth 8).setWidth 64).setWidth 32 : Cell) =
      _
    rw [hpri, BitVec.setWidth_append_eq_right]
    cases o <;> decide

/-! ### The code after the checks -/

section
variable {m : Machine} {x y : Cell} {len : Nat} (hdata : m.HasData) (hup : m.down = false)
  (halt : m.reg alt = y.setWidth 64) (hy : y.toNat + len ≤ m.host.vm.dataSize) (f : Flags)
include hdata hup halt hy

omit hup halt in
theorem blockLength_lt : len < 0x100000000 := by
  have htotal := hdata.sized.total
  have hbounded := hdata.sized.bounded
  omega

section
variable (hpri : m.reg pri = x.setWidth 64) (hx : x.toNat + len ≤ m.host.vm.dataSize)
include hpri hx

theorem comes_move :
    Comes (movePointers len ++ [.op .repMovsb, .op (.movRR .d alt save)]) (m.setFlags f) none
    fun m' => Machine.Becomes [save, tmp1, tmp2] (m.host.copyUp x.toNat y.toNat len) m m' := by
  refine (comes_movePointers (m := m.setFlags f) hup (blockLength_lt hdata hy)).append ?_
  rintro m₁ ⟨hm₁, hrsi, hrdi⟩
  have hbecomes : Machine.Becomes [alt, save, tmp1, tmp2] m.host m m₁ :=
    ((Machine.Becomes.refl _ m).setFlags f).trans hm₁.becomes
  have hreg : m₁.reg data = m.reg data := hbecomes.regs data (by decide)
  rw [Machine.HasData.address (m := m.setFlags f) hpri] at hrsi
  rw [Machine.HasData.address (m := m.setFlags f) halt] at hrdi
  obtain ⟨m₂, hmove, hm₂⟩ := Machine.exists_moveBytes (n := len)
    (hdata.becomes hbecomes (by decide)) hm₁.upwards (by rw [hbecomes.host]; exact hx)
    (by rw [hbecomes.host]; exact hy) (by rw [hreg]; exact hrsi) (by rw [hreg]; exact hrdi)
  rw [hbecomes.host] at hm₂
  refine .instr rfl (show Machine.moveBytes (m₁.reg .rcx).toNat m₁ =
      _ by rw [hm₁.count]; exact hmove) ?_
  have hsaved : m₂.reg32 save = m.reg32 alt :=
    (congrArg _ (hm₂.regs save (by decide))).trans hm₁.saved
  exact (comes_restore (hbecomes.trans (hm₂.mono (by decide))) hsaved
      (Machine.narrow_of_eq halt)).mono fun _ h => h.1

theorem comes_compare :
    Comes (comparePointers len ++ .op .repeCmpsb :: (compareResult ++ [.op (.movRR .d alt save)]))
    (m.setFlags f) none fun m' => Machine.Becomes [pri, save, tmp0, tmp1, tmp2] m.host m m' ∧
      m'.reg32 pri =
        orderCell (lexOrder (m.host.vm.bytesAt y.toNat len) (m.host.vm.bytesAt x.toNat len)) := by
  refine (comes_comparePointers (m := m.setFlags f) hup (blockLength_lt hdata hy)).append ?_
  rintro m₁ ⟨hm₁, hrsi, hrdi, hzero, hequal⟩
  have hbecomes : Machine.Becomes [alt, pri, save, tmp1, tmp2] m.host m m₁ :=
    ((Machine.Becomes.refl _ m).setFlags f).trans hm₁.becomes
  have hreg : m₁.reg data = m.reg data := hbecomes.regs data (by decide)
  rw [Machine.HasData.address (m := m.setFlags f) halt] at hrsi
  rw [Machine.HasData.address (m := m.setFlags f) hpri] at hrdi
  obtain ⟨m₂, hcompare, hm₂, horders⟩ := Machine.exists_compareBytes (n := len)
    (hdata.becomes hbecomes (by decide)) hm₁.upwards (by rw [hbecomes.host]; exact hy)
    (by rw [hbecomes.host]; exact hx) (by rw [hreg]; exact hrsi) (by rw [hreg]; exact hrdi) hequal
  rw [hbecomes.host] at horders
  refine .instr rfl (show Machine.compareBytes (m₁.reg .rcx).toNat m₁ =
      _ by rw [hm₁.count]; exact hcompare) ?_
  refine (comes_compareResult ((hm₂.regs pri (by decide)).trans hzero) horders).append fun m₃ hm₃ =>
    ?_
  obtain ⟨hm₃, hresult⟩ := hm₃
  have hbecomes₂ : Machine.Becomes [alt, pri, save, tmp0, tmp1, tmp2] m.host m m₂ :=
    (hbecomes.mono (by decide)).follow (hm₂.mono (by decide))
  have hsave : m₃.reg save = m₁.reg save :=
    (hm₃.regs save (by decide)).trans (hm₂.regs save (by decide))
  refine (comes_restore (hbecomes₂.follow (hm₃.mono (by decide)))
      ((congrArg _ hsave).trans hm₁.saved)
    (Machine.narrow_of_eq halt)).mono fun m' hm' => ⟨hm'.1, ?_⟩
  exact (congrArg (BitVec.setWidth 32) hm'.2).trans hresult

end

theorem comes_fill (hlen : len % Cell.width = 0) :
    Comes (fillPointers len ++ [.op .repStosd, .op (.movRR .d alt save)]) (m.setFlags f) none
      fun m' => Machine.Becomes [save, tmp2] (m.host.write y.toNat
        (List.replicate (len / Cell.width) (m.reg32 pri).bytes).flatten) m m' := by
  refine (comes_fillPointers (m := m.setFlags f) hup (blockLength_lt hdata hy)).append ?_
  rintro m₁ ⟨hm₁, hrdi⟩
  have hbecomes : Machine.Becomes [alt, save, tmp2] m.host m m₁ :=
    ((Machine.Becomes.refl _ m).setFlags f).trans hm₁.becomes
  have hreg : m₁.reg data = m.reg data := hbecomes.regs data (by decide)
  have hpri : m₁.reg32 .rax = m.reg32 pri := congrArg _ (hbecomes.regs pri (by decide))
  rw [Machine.HasData.address (m := m.setFlags f) halt] at hrdi
  have hcells : 4 * (len / Cell.width) = len := by
    rw [Cell.width] at hlen ⊢
    omega
  obtain ⟨m₂, hstore, hm₂⟩ := Machine.exists_storeCells (n := len / Cell.width)
    (hdata.becomes hbecomes (by decide)) hm₁.upwards (by rw [hbecomes.host, hcells]; exact hy)
    (by rw [hreg]; exact hrdi)
  rw [hbecomes.host, hpri] at hm₂
  refine .instr rfl (show Machine.storeCells (m₁.reg .rcx).toNat m₁ =
      _ by rw [hm₁.count]; exact hstore) ?_
  have hsaved : m₂.reg32 save = m.reg32 alt :=
    (congrArg _ (hm₂.regs save (by decide))).trans hm₁.saved
  exact (comes_restore (hbecomes.trans (hm₂.mono (by decide))) hsaved
      (Machine.narrow_of_eq halt)).mono fun _ h => h.1

end

namespace Indirect

variable {ctx : Context} {m : Machine} {x y : Cell} {len : Nat}
  (hchecks : ctx.config.memoryChecks = true)
  (hdata : m.HasData) (hsize : m.host.vm.dataSize = ctx.dataSize) (hup : m.down = false)
  (halt : m.reg alt = y.setWidth 64)
include hchecks hdata hsize hup halt

theorem checked_move (hpri : m.reg pri = x.setWidth 64) :
    (move x y len).Checked ctx.dataSize (moveBlock ctx len) m m := by
  refine checked_two hchecks hdata hsize rfl (Machine.reg32_eq hpri) (Machine.reg32_eq halt)
    fun hx hy f => ?_
  rw [← hsize] at hx hy
  refine (comes_move hdata hup halt hy f hpri hx).mono fun m' hm' => ?_
  obtain ⟨bytes, hlength, hcopy⟩ := m.host.exists_copyUp x.toNat y.toNat len
  exact ⟨bytes, hlength, hcopy ▸ hm'⟩

theorem checked_compare (hpri : m.reg pri = x.setWidth 64) :
    (compare x y len).Checked ctx.dataSize (compareBlock ctx len) m m := by
  refine checked_two hchecks hdata hsize rfl (Machine.reg32_eq hpri) (Machine.reg32_eq halt)
    fun hx hy f => ?_
  rw [← hsize] at hx hy
  exact (comes_compare hdata hup halt hy f hpri hx).mono fun m' hm' => hm'.1

theorem checked_fill (hlen : len % Cell.width = 0) :
    (fill y len).Checked ctx.dataSize (fillBlock ctx len) m m := by
  exact checked_one hchecks hdata hsize rfl (Machine.reg32_eq halt) (.refl _ m) fun hfits f =>
    comes_fill hdata hup halt (hsize ▸ hfits) f hlen

end Indirect

/-! ## Section 4: Indirect accesses of a program -/

/-- The cell that an operand names, where it names one. -/
def Machine.cell? (m : Machine) (o : Mem) : Option Cell := (m.operand o >>= m.load32).toOption

/-- The cell with the address, for instructions that go through one. -/
def Instruction.slot? (i : Instruction) : Option Mem :=
  match i.opcode with
  | .lrefPri | .lrefAlt | .srefPri | .srefAlt => some (dataCell i.arg)
  | .lrefSPri | .lrefSAlt | .srefSPri | .srefSAlt => some (frameCell i.arg)
  | _ => none

/-- The access of an instruction that computes an address. -/
def Instruction.indirect? (i : Instruction) (m : Machine) : Option Indirect :=
  match i.opcode with
  | .lrefPri | .lrefSPri => do return .load .pri (← m.cell? (← i.slot?)) .cell
  | .lrefAlt | .lrefSAlt => do return .load .alt (← m.cell? (← i.slot?)) .cell
  | .srefPri | .srefSPri => do return .store .pri (← m.cell? (← i.slot?)) .cell
  | .srefAlt | .srefSAlt => do return .store .alt (← m.cell? (← i.slot?)) .cell
  | .loadI => some (.load .pri (m.reg32 pri) .cell)
  | .lodbI => do return .load .pri (m.reg32 pri) (← (width i).toOption)
  | .storI => some (.store .pri (m.reg32 alt) .cell)
  | .strbI => do return .store .pri (m.reg32 alt) (← (width i).toOption)
  | .lidx => some (.load .pri (m.reg32 alt + 4 * m.reg32 pri) .cell)
  | .lidxB => some (.load .pri (m.reg32 alt + m.reg32 pri <<< (i.arg.toNat % 32)) .cell)
  | .incI => some (.count .add (m.reg32 pri))
  | .decI => some (.count .sub (m.reg32 pri))
  | .movs => some (.move (m.reg32 pri) (m.reg32 alt) i.arg.toNat)
  | .cmps => some (.compare (m.reg32 pri) (m.reg32 alt) i.arg.toNat)
  | .fill => some (.fill (m.reg32 alt) i.arg.toNat)
  | _ => none

/-- The instructions that compute an address. -/
def Opcode.indirect : List Opcode :=
  [.lrefPri, .lrefAlt, .lrefSPri, .lrefSAlt, .srefPri, .srefAlt, .srefSPri, .srefSAlt, .loadI,
    .lodbI, .storI, .strbI,
   .lidx, .lidxB, .incI, .decI, .movs, .cmps, .fill]

theorem Machine.HasData.exists_cell {m : Machine} (h : m.HasData) {ctx : Context} {c : Cell}
    (hsize : m.host.vm.dataSize = ctx.dataSize) (hin : ctx.inData c = true) :
    ∃ v, m.cell? (dataCell c) = some v := by
  obtain ⟨hpos, hle⟩ := Bool.and_eq_true_iff.mp hin
  have hle : c.toNat + 4 ≤ m.host.vm.dataSize := hsize.symm ▸ of_decide_eq_true hle
  have haddress : m.address (dataCell c) = m.reg Convention.data + BitVec.ofNat 64 c.toNat := by
    show m.reg Convention.data + c.signExtend 64 = _
    rw [BitVec.signExtend, Cell.toInt_eq_toNat (of_decide_eq_true hpos), BitVec.ofInt_natCast]
  have hoperand := operand_eq_ok.mpr ⟨haddress, _, h.place (show c.toNat < _ by omega), rfl⟩
  exact ⟨m.host.vm.block.part (m.host.vm.dataStart + c.toNat)
      .cell, by rw [cell?, hoperand, ok_bind, h.load32 hle]; rfl⟩

theorem Machine.reads_of_cell? {m : Machine} {o : Mem} {v : Cell} (h : m.cell? o = some v) :
    m.Reads o v := by
  unfold cell? at h
  unfold Reads
  cases hload : (m.operand o >>= m.load32) with
  | ok w =>
    rw [hload] at h
    exact congrArg Except.ok (Option.some_inj.mp h)
  | error e =>
    rw [hload] at h
    cases h

theorem Context.directCell_eq_ok {ctx : Context} {i : Instruction} {o : Mem}
    (h : ctx.directCell i = .ok o) : o = dataCell i.arg ∧ ctx.inData i.arg = true := by
  unfold directCell direct at h
  split_ifs at h with hin
  · cases h
    exact ⟨rfl, hin⟩
  · cases h

theorem loadPart_eq (ctx : Context) (w : Width) :
    loadPart ctx w = checkRange ctx pri w.bytes ++ [.op (w.load pri pri)] := by
  cases w <;> rfl

theorem storePart_eq (ctx : Context) (w : Width) :
    storePart ctx w = checkRange ctx alt w.bytes ++ [.op (w.store alt pri)] := by
  cases w <;> rfl

theorem eq_of_blockLength {i : Instruction} {unit : Nat} {f : Nat → List Line} {ls : List Line}
    (h : (blockLength i unit >>= fun len => pure (f len)) = .ok ls) :
    ls = f i.arg.toNat ∧ i.arg.toNat % unit = 0 := by
  obtain ⟨len, hlen, h⟩ := bind_eq_ok.mp h
  obtain ⟨-, hlen⟩ := ite_error_eq_ok.mp hlen
  obtain ⟨heven, hlen⟩ := ite_error_eq_ok.mp hlen
  cases hlen
  exact ⟨(Except.ok.inj h).symm, not_ne_iff.mp heven⟩

theorem Machine.setWidth_element (m : Machine) :
    (m.address element).setWidth 32 = m.reg32 alt + 4 * m.reg32 pri := by
  show (m.reg alt + m.reg pri <<< 2 + 0#64).setWidth 32 =
      (m.reg alt).setWidth 32 + 4#32 * (m.reg pri).setWidth 32
  apply BitVec.eq_of_toNat_eq
  simp only [BitVec.toNat_setWidth, BitVec.toNat_add, BitVec.toNat_mul, BitVec.toNat_shiftLeft,
    Nat.shiftLeft_eq, BitVec.toNat_ofNat]
  omega

theorem Machine.reg32_shift (m : Machine) (op : Shift) (r : Reg) (n : Byte) :
    (m.shift op r n).reg32 r = op.result (m.reg32 r) (n.toNat % 32) :=
  Machine.reg32_setReg32_self _ _ _

theorem toNat_shiftCount (c : Cell) : (c.setWidth 8).toNat % 32 = c.toNat % 32 := by
  rw [BitVec.toNat_setWidth]
  omega

section
variable {ctx : Context} {i : Instruction} {m : Machine} {x : Indirect} {ls : List Line}
  (hchecks : ctx.config.memoryChecks = true) (hdata : m.HasData)
  (hsize : m.host.vm.dataSize = ctx.dataSize)

theorem checked_through {f : Cell → Indirect} {r : Reg} {o : Mem}
    (hx : ((m.cell? o).bind fun v => some (f v)) = some x)
    (hf : ∀ v, (f v).Checked ctx.dataSize ls m (m.setReg32 r v)) :
    x.Checked ctx.dataSize (.op (.load .d r o) :: ls) m m := by
  obtain ⟨v, hv, hx⟩ := Option.bind_eq_some_iff.mp hx
  cases hx
  exact Indirect.Checked.after rfl ((Machine.reads_of_cell? hv).bind _) (hf v)

include hchecks hdata hsize

theorem checked_loadThrough {a : Accumulator} {o : Mem}
    (hx : ((m.cell? o).bind fun v => some (Indirect.load a v .cell)) = some x) :
    x.Checked ctx.dataSize (loadThrough ctx a o) m m :=
  checked_through hx fun _ => Indirect.checked_load (w := .cell) hchecks hdata hsize
    (m.reg_setReg32 _ _) ((Machine.Becomes.refl _ m).setReg (List.mem_singleton_self _) _)

theorem checked_storeThrough {a : Accumulator} {o : Mem}
    (hx : ((m.cell? o).bind fun v => some (Indirect.store a v .cell)) = some x) :
    x.Checked ctx.dataSize (storeThrough ctx a o) m m :=
  checked_through hx fun _ => Indirect.checked_store (w := .cell) hchecks hdata hsize
    (m.reg_setReg32 _ _) ((Machine.Becomes.refl _ m).setReg (List.mem_singleton_self _) _)

variable (hup : m.down = false) (hpri : m.Narrow pri) (halt : m.Narrow alt)
include hup hpri halt

/-- The code of every such instruction makes the access that it stands for, after its check. -/
theorem checked_template (hx : i.indirect? m = some x) (hls : template ctx i = .ok ls) :
    x.Checked ctx.dataSize ls m m := by
  have hbecomes : ∀ ws, Machine.Becomes ws m.host m m := fun ws => .refl ws m
  obtain ⟨address, opcode, operands⟩ := i
  cases opcode with
  -- The address is in a cell.
  | lrefPri | lrefAlt =>
    obtain ⟨o, ho, hls⟩ := bind_eq_ok.mp hls
    obtain ⟨rfl, -⟩ := Context.directCell_eq_ok ho
    cases hls
    exact checked_loadThrough hchecks hdata hsize hx
  | srefPri | srefAlt =>
    obtain ⟨o, ho, hls⟩ := bind_eq_ok.mp hls
    obtain ⟨rfl, -⟩ := Context.directCell_eq_ok ho
    cases hls
    exact checked_storeThrough hchecks hdata hsize hx
  | lrefSPri | lrefSAlt =>
    cases hls
    exact checked_loadThrough hchecks hdata hsize hx
  | srefSPri | srefSAlt =>
    cases hls
    exact checked_storeThrough hchecks hdata hsize hx
  -- The address is in a register.
  | loadI =>
    cases hx
    cases hls
    exact Indirect.checked_load (w := .cell) hchecks hdata hsize hpri (hbecomes _)
  | storI =>
    cases hx
    cases hls
    exact Indirect.checked_store (w := .cell) hchecks hdata hsize halt (hbecomes _)
  | lodbI =>
    obtain ⟨w, hw, hls⟩ := bind_eq_ok.mp hls
    cases hls
    have hx : ((width _).toOption.bind _) = some x := hx
    rw [hw] at hx
    cases hx
    rw [loadPart_eq]
    exact Indirect.checked_load hchecks hdata hsize hpri (hbecomes _)
  | strbI =>
    obtain ⟨w, hw, hls⟩ := bind_eq_ok.mp hls
    cases hls
    have hx : ((width _).toOption.bind _) = some x := hx
    rw [hw] at hx
    cases hx
    rw [storePart_eq]
    exact Indirect.checked_store hchecks hdata hsize halt (hbecomes _)
  | incI | decI =>
    cases hx
    cases hls
    exact Indirect.checked_count hchecks hdata hsize rfl (fun _ => rfl) hpri
  -- The address is computed.
  | lidx =>
    cases hx
    cases hls
    refine Indirect.Checked.after (i := .lea .d pri element) rfl rfl ?_
    rw [m.setWidth_element]
    exact Indirect.checked_load (w := .cell) hchecks hdata hsize (m.reg_setReg32 _ _)
      ((hbecomes [pri]).setReg (by decide) _)
  | lidxB =>
    cases hx
    cases hls
    refine Indirect.Checked.after (i := .shiftImm .shl pri _) rfl rfl ?_
    refine Indirect.Checked.after (i := .aluRR .add .d pri alt) rfl rfl ?_
    refine Indirect.checked_load (w := .cell) hchecks hdata hsize ?_ ?_
    · show ((m.shift .shl pri _).reg32 pri + m.reg32 alt).setWidth 64 = _
      rw [Machine.reg32_shift, toNat_shiftCount, BitVec.add_comm]
      rfl
    · exact ((((hbecomes [pri]).setFlags _).setReg (by decide) _).setFlags _).setReg (by decide) _
  -- Blocks.
  | movs =>
    cases hx
    obtain ⟨rfl, -⟩ := eq_of_blockLength hls
    exact Indirect.checked_move hchecks hdata hsize hup halt hpri
  | cmps =>
    cases hx
    obtain ⟨rfl, -⟩ := eq_of_blockLength hls
    exact Indirect.checked_compare hchecks hdata hsize hup halt hpri
  | fill =>
    cases hx
    obtain ⟨rfl, heven⟩ := eq_of_blockLength hls
    exact Indirect.checked_fill hchecks hdata hsize hup halt heven
  | _ => cases hx

end

namespace Environment.AtInstruction

variable {env : Environment} {config : Config} {vm₀ : Instance} {a : Activation} {rets : List Word}
  {i : Instruction} {after : List Instruction} {m : Machine}
  (h : env.AtInstruction config vm₀ a rets i after m) (himage : vm₀.SameImage m.host.vm)
include h himage

theorem hasData : m.HasData := by
  obtain ⟨image, hload⟩ := h.loaded
  refine ⟨himage.sized hload, ?_⟩
  rw [h.home.data, h.home.layout, Activation.data,
    (Instance.steady_fixed.fixed h.home.steady).header]

/-- Every instruction that computes an address has its access, if the cell of the frame that it goes
    through can be read. -/
theorem exists_indirect (hi : i.opcode ∈ Opcode.indirect)
    (hframe : i.slot? = some (frameCell i.arg) → (m.cell? (frameCell i.arg)).isSome) :
    ∃ x, i.indirect? m = some x := by
  have hdata := h.hasData himage
  have hsize := himage.dataSize_eq
  obtain ⟨is, ls, o, find, -, -, hls, -⟩ := h.exists_template
  have hdirect : ∀ {o} {k : Mem → List Line},
      (Context.directCell (.ofInstance config vm₀) i >>= fun o => pure (k o)) = .ok o →
      ∃ v, m.cell? (dataCell i.arg) = some v := by
    intro o k hk
    obtain ⟨o, ho, -⟩ := bind_eq_ok.mp hk
    obtain ⟨-, hin⟩ := Context.directCell_eq_ok ho
    exact hdata.exists_cell hsize hin
  obtain ⟨address, opcode, operands⟩ := i
  have hi : opcode ∈ Opcode.indirect := hi
  cases opcode with
  | lrefPri | lrefAlt | srefPri | srefAlt =>
    obtain ⟨v, hv⟩ := hdirect hls
    exact ⟨_, congrArg (Option.bind · _) hv⟩
  | lrefSPri | lrefSAlt | srefSPri | srefSAlt =>
    obtain ⟨v, hv⟩ := Option.isSome_iff_exists.mp (hframe rfl)
    exact ⟨_, congrArg (Option.bind · _) hv⟩
  | lodbI | strbI =>
    obtain ⟨w, hw, -⟩ := bind_eq_ok.mp hls
    exact ⟨_, congrArg (fun r => Option.bind (Except.toOption r) _) hw⟩
  | loadI | storI | lidx | lidxB | incI | decI | movs | cmps | fill => exact ⟨_, rfl⟩
  | _ => exact absurd hi (by decide)

end Environment.AtInstruction

/-- The small program comes to its load with an address in the primary register. -/
theorem atInstruction_load {x : Cell} (hx : (siteInstance.started x 0).toOption.isSome) :
    ∃ (p : Program) (a : Activation) (rets : List Word) (m : Machine),
      Environment.AtInstruction ⟨.standard, p⟩ {} siteInstance a rets ⟨4, .loadI, []⟩
        (siteListing.drop 2) m ∧
      m.reg32 pri = x ∧ siteInstance.SameImage m.host.vm ∧ m.Narrow pri ∧ m.Narrow alt := by
  obtain ⟨p, a, rets, m, hat, hpri, halt, -, hfixed⟩ := atInstruction_callAt x 0 load_siteImage
    (show Decodes siteInstance.code 0 ([⟨0, .sdiv, []⟩] ++ _ :: siteListing.drop 2)
      none from decodes_siteListing)
    (by decide +kernel) (by decide) hx
  exact ⟨p, a, rets, m, hat, Machine.reg32_eq hpri, ⟨hfixed.header, hfixed.size⟩,
    Machine.narrow_of_eq hpri, Machine.narrow_of_eq halt⟩

/-- **Indirect accesses.** A run is at an instruction that computes an address, with range checks
    compiled in and zeros in the upper halves of the two computing registers; what is on the stack
    and in memory is arbitrary, but for the cell of the frame that some of the instructions go
    through, which has to be there. If a range that the instruction accesses leaves the data
    segment, the run halts with the fault for that, and no byte of the block has changed. Otherwise
    it advances and has made the access: a load has read exactly the bytes of its width, followed by
    zeros, a store has written exactly the bytes of its width. -/
theorem indirect_accesses_are_checked_exactly {env : Environment} {config : Config} {vm₀ : Instance}
    {a : Activation} {rets : List Word} {i : Instruction} {after : List Instruction} {m : Machine}
    (h : env.AtInstruction config vm₀ a rets i after m) (himage : vm₀.SameImage m.host.vm)
    (hchecks : config.memoryChecks = true) (hpri : m.Narrow pri) (halt : m.Narrow alt)
    (hi : i.opcode ∈ Opcode.indirect)
    (hframe : i.slot? = some (frameCell i.arg) → (m.cell? (frameCell i.arg)).isSome) :
    ∃ x, i.indirect? m = some x ∧ (¬x.Fits vm₀.dataSize → env.Halts a .memoryAccess m) ∧
      (x.Fits vm₀.dataSize → ∃ m', env.Advances after m m' ∧ x.Performs m m') := by
  have hdata := h.hasData himage
  have hsize := himage.dataSize_eq
  obtain ⟨x, hx⟩ := h.exists_indirect himage hi hframe
  have hchecked : ∀ ls, template (.ofInstance config vm₀) i = .ok ls →
      x.Checked vm₀.dataSize ls m m :=
    fun ls hls => checked_template hchecks hdata hsize h.upwards hpri halt hx hls
  refine ⟨x, hx, fun hout => ?_, fun hfits => ?_⟩
  · exact h.halts (show ∀ r ∈ stk :: frm :: Instr.owned, r ∉ [pri, alt, tmp0] by decide)
      fun ls hls => (hchecked ls hls).faults hout
  · obtain ⟨m', dest, hperforms, hadvances⟩ :=
      h.advances (x.Performs m) (fun ls hls => (hchecked ls hls).performs hfits)
      fun m' hm' => hm'.layout
    exact ⟨_, hadvances, hperforms.jumpTo dest⟩

/-- Of the sixteen bytes of a data segment, the cell at address 12 can be loaded, and the four bytes
    from address 13 on cannot. -/
theorem last_cell_can_be_loaded :
    (∃ (p : Program) (a : Activation) (rets : List Word) (m m' : Machine),
      Environment.AtInstruction ⟨.standard, p⟩ {} siteInstance a rets ⟨4, .loadI, []⟩
        (siteListing.drop 2) m ∧
      m.reg32 pri = 12 ∧ Environment.Advances ⟨.standard, p⟩ (siteListing.drop 2) m m' ∧
      ∃ v : Cell, m'.reg pri = v.setWidth 64 ∧ v.bytes = m.host.vm.bytesAt 12 4) ∧
    ∃ (p : Program) (a : Activation) (rets : List Word) (m : Machine),
      Environment.AtInstruction ⟨.standard, p⟩ {} siteInstance a rets ⟨4, .loadI, []⟩
        (siteListing.drop 2) m ∧
      m.reg32 pri = 13 ∧ Environment.Halts ⟨.standard, p⟩ a .memoryAccess m := by
  constructor
  · obtain ⟨p, a, rets, m, hat, hx, himage, hpri, halt⟩ :=
      atInstruction_load (x := 12) (by decide +kernel)
    obtain ⟨x, hind, -, hfits⟩ := indirect_accesses_are_checked_exactly hat himage rfl hpri
      halt (by decide) (by intro h; cases h)
    obtain rfl : Indirect.load .pri 12 .cell = x := Option.some_inj.mp (hx ▸ hind)
    obtain ⟨m', hadvances, -, v, hv, hbytes⟩ := hfits (by decide)
    exact ⟨p, a, rets, m, m', hat, hx, hadvances, v, hv, hbytes.trans (List.append_nil _)⟩
  · obtain ⟨p, a, rets, m, hat, hx, himage, hpri, halt⟩ :=
      atInstruction_load (x := 13) (by decide +kernel)
    obtain ⟨x, hind, hhalts, -⟩ := indirect_accesses_are_checked_exactly hat himage rfl hpri
      halt (by decide) (by intro h; cases h)
    obtain rfl : Indirect.load .pri 13 .cell = x := Option.some_inj.mp (hx ▸ hind)
    exact ⟨p, a, rets, m, hat, hx, hhalts (by decide)⟩

end PawnNative
