import PawnNative.Compile.Template
import PawnNative.Proofs.Conditions
import PawnNative.Proofs.Representation

/-! # The code of straight-line instructions

    The template of a straight-line instruction does to a machine what the
    instruction does to the instance that the machine represents. The templates
    come in families: results of the computing registers, comparisons, loads and
    stores, the stack, control registers. For each family there is one statement,
    and the instructions are its members.
-/

namespace PawnNative

open X64 Convention Template

/-- A machine that runs the lines represents this instance, in these surroundings. -/
def Yields (ls : List Line) (m : Machine) (s : Surroundings) (vm : Instance) : Prop :=
  Achieves ls m fun m' => m'.Represents s vm

/-- Lines carry out an effect: it takes place, and a machine that runs the lines represents its
    result. -/
def Carries (ls : List Line) (m : Machine) (s : Surroundings) (effect : Option Instance) : Prop :=
  ∃ vm, effect = some vm ∧ Yields ls m s vm

theorem Yields.append {ls ls' : List Line} {m : Machine} {s : Surroundings} {vm vm' : Instance}
    (hfirst : Yields ls m s vm) (hlast : ∀ m', m'.Represents s vm → Yields ls' m' s vm') :
    Yields (ls ++ ls') m s vm' :=
  Achieves.append hfirst hlast

theorem Yields.carries {ls : List Line} {m : Machine} {s : Surroundings} {vm : Instance}
    (h : Yields ls m s vm) : Carries ls m s (some vm) :=
  ⟨vm, rfl, h⟩

/-- The register of the abstract machine that a computing register is. -/
def Accumulator.name : Accumulator → RegisterName
  | .pri => .pri
  | .alt => .alt

theorem Instance.put_put (vm : Instance) (r : RegisterName) (v w : Cell) :
    (vm.put r v).put r w = vm.put r w := by
  cases r <;> rfl

namespace Machine.Represents

variable {m : Machine} {s : Surroundings} {vm : Instance}

theorem setAcc (h : m.Represents s vm) (a : Accumulator) {v w : Cell} (hv : v = w) :
    (m.setReg32 a.reg v).Represents s (vm.put a.name w) := by
  cases a with
  | pri => exact h.setPri hv
  | alt => exact h.setAlt hv

theorem reg32_acc (h : m.Represents s vm) (a : Accumulator) :
    m.reg32 a.reg = vm.regs.get a.name := by
  cases a with
  | pri => exact h.reg32_pri
  | alt => exact h.reg32_alt

end Machine.Represents

section
variable {m : Machine} {s : Surroundings} {vm : Instance} (h : m.Represents s vm)
include h

/-! ## Section 1: Results in a computing register -/

theorem yields_nil : Yields [] m s vm := .nil h

theorem yields_result (a : Accumulator) {i : Instr} {v w : Cell} (hi : i.isPlain)
    (hexec : m.exec i = .ok (m.setReg32 a.reg v)) (hv : v = w) :
    Yields [.op i] m s (vm.put a.name w) :=
  .op hi hexec (.nil (h.setAcc a hv))

theorem yields_flagged (a : Accumulator) {i : Instr} (f : Flags) {v w : Cell} (hi : i.isPlain)
    (hexec : m.exec i = .ok ((m.setFlags f).setReg32 a.reg v)) (hv : v = w) :
    Yields [.op i] m s (vm.put a.name w) :=
  .op hi hexec (.nil ((h.setFlags f).setAcc a hv))

theorem yields_operate (op : Alu) (hop : op.stores) :
    Yields (operate op) m s (vm.put .pri (op.result vm.regs.pri vm.regs.alt)) := by
  refine yields_flagged h .pri (op.flags (m.reg32 pri) (m.reg32 alt)) rfl
    (v := op.result (m.reg32 pri) (m.reg32 alt)) ?_ ?_
  · show Except.ok (m.alu32 op pri (m.reg32 alt)) = _
    rw [Machine.alu32, if_pos hop]
    rfl
  · rw [h.reg32_pri, h.reg32_alt]

theorem yields_constant (a : Accumulator) (op : Alu) (hop : op.stores) (c : Cell) :
    Yields [.op (.aluRI op .d a.reg c)] m s
      (vm.put a.name (op.result (vm.regs.get a.name) c)) := by
  refine yields_flagged h a (op.flags (m.reg32 a.reg) c) rfl (v := op.result (m.reg32 a.reg) c) ?_
    ?_
  · show Except.ok (m.alu32 op a.reg c) = _
    rw [Machine.alu32, if_pos hop]
  · rw [h.reg32_acc a]

theorem yields_shift (a : Accumulator) (op : Shift) {i : Instr} {n : Byte} {c : Cell}
    (hi : i.isPlain) (hexec : m.exec i = .ok (m.shift op a.reg n)) (hn : n = c.setWidth 8) :
    Yields [.op i] m s (vm.put a.name (op.result (vm.regs.get a.name) (c.toNat % 32))) := by
  have hcount : n.toNat % 32 = c.toNat % 32 := by
    rw [hn, BitVec.toNat_setWidth]
    omega
  refine yields_flagged h a _ hi hexec ?_
  rw [h.reg32_acc a, hcount]

theorem yields_shiftCl (op : Shift) :
    Yields [.op (.shiftCl op pri)] m s
      (vm.put .pri (op.result vm.regs.pri (vm.regs.alt.toNat % 32))) := by
  refine yields_shift h .pri op rfl rfl ?_
  rw [h.alt]
  simp

theorem yields_shiftConst (a : Accumulator) (op : Shift) (c : Cell) :
    Yields (shiftConst op a.reg c) m s
      (vm.put a.name (op.result (vm.regs.get a.name) (c.toNat % 32))) :=
  yields_shift h a op rfl rfl rfl

theorem yields_scaledAddress (c : Cell) :
    Yields (scaledAddress c) m s
      (vm.put .pri (vm.regs.alt + vm.regs.pri <<< (c.toNat % 32))) := by
  refine (yields_shiftConst h .pri .shl c).append fun m' h' => ?_
  have hsum := yields_operate h' .add rfl
  rw [Accumulator.name, Instance.put_put] at hsum
  rwa [BitVec.add_comm]

theorem yields_elementAddress :
    Yields elementAddress m s (vm.put .pri (vm.regs.alt + vm.regs.pri * 4)) := by
  refine yields_result h .pri rfl rfl ?_
  show (m.reg alt + m.reg pri <<< 2 + (0 : Cell).signExtend 64).setWidth 32 = _
  rw [h.alt, h.pri]
  apply BitVec.eq_of_toNat_eq
  generalize vm.regs.alt = x
  generalize vm.regs.pri = y
  simp only [BitVec.toNat_setWidth, BitVec.toNat_add, BitVec.toNat_shiftLeft, BitVec.toNat_mul,
    Nat.shiftLeft_eq]
  have hzero : ((0 : Cell).signExtend 64).toNat = 0 := rfl
  have hfour : (4 : Cell).toNat = 4 := rfl
  rw [hzero, hfour]
  omega

theorem yields_alignAddress (a : Accumulator) (c : Cell) :
    Yields (alignAddress a.reg c) m s
      (vm.put a.name ((vm.regs.get a.name).aligned c)) := by
  have hiff : (0 ≤ c.toInt ∧ c.toInt < Cell.width) ↔ c.toNat < 4 := by
    have hlt := c.isLt
    rw [BitVec.toInt_eq_toNat_cond, Cell.width]
    split_ifs <;> omega
  unfold alignAddress Cell.aligned
  simp only [hiff]
  split_ifs with hc
  · exact yields_constant h a .xor rfl (4 - c)
  · have hsame : vm.put a.name (vm.regs.get a.name) = vm := by cases a <;> rfl
    rw [hsame]
    exact yields_nil h

theorem yields_xchg :
    Yields [.op (.xchg pri alt)] m s ((vm.put .pri vm.regs.alt).put .alt vm.regs.pri) :=
  .op rfl rfl (.nil ((h.setPri h.reg32_alt).setAlt h.reg32_pri))

theorem yields_neg : Yields [.op (.neg pri)] m s (vm.put .pri (-vm.regs.pri)) :=
  yields_flagged h .pri _ rfl rfl (congrArg (-·) h.reg32_pri)

theorem yields_subAlt :
    Yields ([.op (.neg pri)] ++ operate .add) m s (vm.put .pri (vm.regs.alt - vm.regs.pri)) := by
  refine (yields_neg h).append fun m' h' => ?_
  have hsum := yields_operate h' .add rfl
  rw [Instance.put_put] at hsum
  have hvalue : vm.regs.alt - vm.regs.pri = -vm.regs.pri + vm.regs.alt := by
    rw [BitVec.sub_eq_add_neg, BitVec.add_comm]
  rwa [hvalue]

theorem yields_multiply :
    Yields [.op (.imulRR pri alt)] m s (vm.put .pri (vm.regs.pri * vm.regs.alt)) :=
  yields_flagged h .pri _ rfl rfl (by rw [h.reg32_pri, h.reg32_alt])

theorem yields_multiplyConst (c : Cell) :
    Yields [.op (.imulRRI pri pri c)] m s (vm.put .pri (vm.regs.pri * c)) :=
  yields_flagged h .pri _ rfl rfl (by rw [h.reg32_pri])

theorem yields_zero (a : Accumulator) :
    Yields [.op (.aluRR .xor .d a.reg a.reg)] m s (vm.put a.name 0) := by
  refine yields_flagged h a _ rfl rfl ?_
  exact BitVec.xor_self

theorem yields_sign (a : Accumulator) :
    Yields [.op (.movsxByte a.reg a.reg)] m s
      (vm.put a.name (((vm.regs.get a.name).setWidth 8).signExtend 32)) := by
  refine yields_result h a rfl rfl ?_
  rw [← h.reg32_acc a, Machine.reg32, BitVec.setWidth_setWidth_of_le _ (by decide)]
  rfl

theorem frame_value (c : Cell) :
    (m.address (frameCell c)).setWidth 32 - m.reg32 data = vm.regs.frm + c := by
  have hlow : (c.signExtend 64).setWidth 32 = c := by
    apply BitVec.eq_of_getLsbD_eq
    intro k hk
    simp only [BitVec.getLsbD_setWidth, BitVec.getLsbD_signExtend, hk, if_true, decide_true,
      Bool.true_and, show k < 64 by omega]
  rw [← h.reg32_frm]
  show (m.reg frm + c.signExtend 64).setWidth 32 - _ = _
  rw [BitVec.setWidth_add _ _ (by decide), hlow]
  show m.reg32 frm + c - m.reg32 data = m.reg32 frm - m.reg32 data + c
  generalize m.reg32 frm = x
  generalize m.reg32 data = y
  bv_omega

theorem yields_difference (a : Accumulator) {i : Instr} {x w : Cell} (hi : i.isPlain)
    (hexec : m.exec i = .ok (m.setReg32 a.reg x)) (hw : x - m.reg32 data = w) :
    Yields [.op i, .op (.aluRR .sub .d a.reg data)] m s (vm.put a.name w) := by
  have hfinal := ((h.setAcc a (rfl : x = x)).setFlags (subFlags x (m.reg32 data))).setAcc a hw
  rw [Instance.put_put] at hfinal
  refine .op hi hexec (.op rfl ?_ (.nil hfinal))
  have hdata : (m.setReg32 a.reg x).reg32 data = m.reg32 data := by cases a <;> rfl
  show Except.ok ((m.setReg32 a.reg x).alu32 .sub a.reg ((m.setReg32 a.reg x).reg32 data)) = _
  rw [hdata, Machine.alu32, Machine.reg32_setReg32_self]
  rfl

theorem yields_frameAddress (a : Accumulator) (c : Cell) :
    Yields (frameAddress a.reg c) m s (vm.put a.name (vm.regs.frm + c)) :=
  yields_difference h a rfl rfl (frame_value h c)

/-! ## Section 2: Comparisons -/

omit h in
theorem Machine.exec_setcc {c : Cond} {b : Bool} (hc : c.holds m.flags = some b) (r : Reg) :
    m.exec (.setcc c r) =
      .ok (m.setReg r ((m.reg r).extractLsb' 8 56 ++ (if b then 1 else 0 : Byte))) := by
  have htest : m.test c = .ok b := by rw [Machine.test, hc]
  show (m.test c >>= _) = _
  rw [htest]
  rfl

theorem yields_setPri {c : Cond} {b : Bool} (hc : c.holds m.flags = some b) :
    Yields (setPri c) m s (vm.put .pri (.ofBool b)) := by
  refine .op rfl (Machine.exec_setcc hc pri) (.op rfl ?_ (.nil (h.setPri rfl)))
  -- The byte is all that is left of the register, and the rest of it is cleared.
  have hbyte : (((m.reg pri).extractLsb' 8 56 ++ (if b then 1 else 0 : Byte)).setWidth 8).setWidth
      64 = (Cell.ofBool b).setWidth 64 := by
    rw [BitVec.setWidth_append_eq_right]
    cases b <;> rfl
  exact congrArg (fun v => Except.ok (m.setReg pri v)) hbyte

theorem yields_compareAlt {c : Cond} {b : Bool}
    (hc : c.holds (subFlags vm.regs.pri vm.regs.alt) = some b) :
    Yields (compareAlt c) m s (vm.put .pri (.ofBool b)) := by
  rw [← h.reg32_pri, ← h.reg32_alt] at hc
  exact .op rfl rfl (yields_setPri (h.setFlags _) hc)

theorem yields_compareConst (a : Accumulator) (c : Cell) :
    Yields (compareConst a.reg c) m s (vm.put .pri (.ofBool (vm.regs.get a.name == c))) := by
  have hc := (holds_unsigned (vm.regs.get a.name) c).1
  rw [← h.reg32_acc a] at hc ⊢
  exact .op rfl rfl (yields_setPri (h.setFlags _) hc)

theorem yields_isZero : Yields isZero m s (vm.put .pri (.ofBool (vm.regs.pri == 0))) := by
  refine .op rfl rfl (yields_setPri (h.setFlags _) ?_)
  show some (m.reg32 pri &&& m.reg32 pri == 0) = _
  rw [BitVec.and_self, h.reg32_pri]

/-! ## Section 3: Loads and stores -/

theorem exec_load (r : Reg) {o : Mem} {x : Int} {v : Cell} (hnames : m.Names s vm o x)
    (hv : vm.cellAt? x = some v) : m.exec (.load .d r o) = .ok (m.setReg32 r v) := by
  show (m.operand o >>= fun x => m.load32 x >>= _) = _
  rw [h.operand hnames (Instance.hasCell_of_cellAt hv)]
  show (m.load32 (s.address vm x) >>= _) = _
  rw [h.load32 hv rfl]
  rfl

theorem carries_load (a : Accumulator) {o : Mem} {x : Int} (hnames : m.Names s vm o x)
    (hx : vm.HasCell x) : Carries [.op (.load .d a.reg o)] m s (vm.loaded? a.name x) := by
  obtain ⟨v, hv⟩ := h.sized.exists_cellAt hx
  refine ⟨vm.put a.name v, by rw [Instance.loaded?, hv]; rfl, ?_⟩
  exact yields_result h a rfl (exec_load h a.reg hnames hv) rfl

theorem carries_set {i : Instr} {o : Mem} {x : Int} {v w : Cell} (hi : i.isPlain)
    (hexec : m.exec i = m.operand o >>= fun a => m.store32 a v) (hnames : m.Names s vm o x)
    (hv : v = w) (hx : vm.HasCell x) : Carries [.op i] m s (vm.setCellAt? x w) := by
  subst hv
  obtain ⟨vm', hset⟩ := h.sized.exists_setCellAt hx v
  obtain ⟨host, hstore, hfinal⟩ := h.store32 hset rfl
  refine ⟨vm', hset, .op hi ?_ (.nil hfinal)⟩
  rw [hexec, h.operand hnames hx]
  exact hstore

theorem carries_store (a : Accumulator) {o : Mem} {x : Int} (hnames : m.Names s vm o x)
    (hx : vm.HasCell x) :
    Carries [.op (.store .d o a.reg)] m s (vm.setCellAt? x (vm.regs.get a.name)) :=
  carries_set h rfl rfl hnames (h.reg32_acc a) hx

theorem carries_storeImm {o : Mem} {x : Int} (c : Cell) (hnames : m.Names s vm o x)
    (hx : vm.HasCell x) : Carries [.op (.storeImm o c)] m s (vm.setCellAt? x c) :=
  carries_set h rfl rfl hnames rfl hx

theorem carries_increment (op : Alu) {i : Instr} {o : Mem} {x : Int} (hi : i.isPlain)
    (hexec : m.exec i = m.operand o >>= m.increment op) (hnames : m.Names s vm o x)
    (hx : vm.HasCell x) : Carries [.op i] m s (vm.modifyCell? x fun v => op.result v 1) := by
  obtain ⟨v, hv⟩ := h.sized.exists_cellAt hx
  obtain ⟨vm', hset⟩ := h.sized.exists_setCellAt hx (op.result v 1)
  have hflags := h.setFlags { op.flags v 1 with carry := m.flags.carry }
  obtain ⟨host, hstore, hfinal⟩ := hflags.store32 hset rfl
  refine ⟨vm', by rw [Instance.modifyCell?, hv]; exact hset, .op hi ?_ (.nil hfinal)⟩
  rw [hexec, h.operand hnames hx, ← hstore]
  show (m.load32 (s.address vm x) >>= _) = _
  rw [h.load32 hv rfl]
  rfl

/-! ## Section 4: The stack -/

omit h in
theorem setCellAt_put (vm : Instance) (r : RegisterName) (w : Cell) (x : Int) (v : Cell) :
    (vm.put r w).setCellAt? x v = (vm.setCellAt? x v).map fun vm => vm.put r w := by
  unfold Instance.setCellAt?
  show (if vm.HasCell x then _ else _) = Option.map _ (if vm.HasCell x then _ else _)
  split_ifs
  · rw [Option.map_map]
    rfl
  · rfl

omit h in
/-- Pushing moves the stack first, which changes no cell. -/
theorem pushed_eq (vm : Instance) (v : Cell) :
    vm.pushed? v = (vm.put .stk (vm.regs.stk - 4)).setCellAt? (vm.topAddress - Cell.width) v := by
  rw [setCellAt_put, Instance.pushed?]
  cases hset : vm.setCellAt? (vm.topAddress - Cell.width) v with
  | none => rfl
  | some vm' =>
    obtain ⟨-, block, -, rfl⟩ := Instance.setCellAt_eq_some hset
    rfl

omit h in
theorem topAddress_pushed {vm : Instance} (hroom : 4 ≤ vm.regs.stk.toNat) :
    (vm.put .stk (vm.regs.stk - 4)).topAddress = vm.topAddress - Cell.width := by
  show ((vm.regs.stk - 4).toNat : Int) = (vm.regs.stk.toNat : Int) - 4
  generalize vm.regs.stk = c at hroom
  bv_omega

/-- Moving the stack and storing a cell on its top; the register for intermediate results keeps
    its value. -/
theorem achieves_push {i : Instr} {v : Cell} (hi : i.isPlain)
    (hexec : ∀ m' : Machine, (∀ r, r ≠ stk → m'.reg r = m.reg r) →
      m'.exec i = m'.operand top >>= fun a => m'.store32 a v)
    (hx : vm.HasCell (vm.topAddress - 4)) :
    ∃ vm', vm.pushed? v = some vm' ∧ Achieves [.op (.aluRI .sub .q stk 4), .op i] m fun m' =>
      m'.Represents s vm' ∧ m'.reg tmp0 = m.reg tmp0 := by
  have hroom : 4 ≤ vm.regs.stk.toNat := by
    have hpos := hx.1
    rw [Instance.topAddress] at hpos
    omega
  have hgrown := h.growStack hroom
  have hnames := hgrown.names_top
  rw [topAddress_pushed hroom] at hnames
  obtain ⟨vm', hset⟩ := hgrown.sized.exists_setCellAt (a := vm.topAddress - Cell.width) hx v
  obtain ⟨host, hstore, hfinal⟩ := hgrown.store32 hset rfl
  refine ⟨vm', by rw [pushed_eq]; exact hset, .op rfl rfl (.op hi ?_ (.nil ⟨hfinal, rfl⟩))⟩
  rw [hexec, ← hstore]
  · show ((m.alu64 .sub stk ((4 : Cell).signExtend 64)).operand top >>= _) = _
    rw [hgrown.operand hnames hx]
    rfl
  · intro r hr
    exact RegFile.get_set_ne _ _ hr

theorem achieves_pushReg {r : Reg} {v : Cell} (hr : r ≠ stk) (hv : m.reg32 r = v)
    (hx : vm.HasCell (vm.topAddress - 4)) :
    ∃ vm', vm.pushed? v = some vm' ∧ Achieves (pushReg r) m fun m' =>
      m'.Represents s vm' ∧ m'.reg tmp0 = m.reg tmp0 := by
  refine achieves_push h rfl (fun m' hm' => ?_) hx
  have hsame : m'.reg32 r = v := by
    rw [← hv]
    exact congrArg (BitVec.setWidth 32) (hm' r hr)
  rw [← hsame]
  rfl

theorem carries_pushReg {r : Reg} {v : Cell} (hr : r ≠ stk) (hv : m.reg32 r = v)
    (hx : vm.HasCell (vm.topAddress - 4)) : Carries (pushReg r) m s (vm.pushed? v) := by
  obtain ⟨vm', hpushed, hachieves⟩ := achieves_pushReg h hr hv hx
  exact ⟨vm', hpushed, hachieves.mono fun m' hm' => hm'.1⟩

theorem carries_pushImm (c : Cell) (hx : vm.HasCell (vm.topAddress - 4)) :
    Carries (pushImm c) m s (vm.pushed? c) := by
  obtain ⟨vm', hpushed, hachieves⟩ := achieves_push h (i := .storeImm top c) rfl (fun _ _ => rfl) hx
  exact ⟨vm', hpushed, hachieves.mono fun m' hm' => hm'.1⟩

omit h in
theorem Carries.op {i : Instr} {ls : List Line} {m' : Machine} {effect : Option Instance}
    (hi : i.isPlain) (hexec : m.exec i = .ok m') (hrest : Carries ls m' s effect) :
    Carries (.op i :: ls) m s effect := by
  obtain ⟨vm', heffect, hyields⟩ := hrest
  exact ⟨vm', heffect, Achieves.op hi hexec hyields⟩

theorem carries_pushMem {o : Mem} {x : Int} (hnames : m.Names s vm o x)
    (hx : vm.HasCell x) (htop : vm.HasCell (vm.topAddress - 4)) :
    Carries (pushMem o) m s ((vm.cellAt? x).bind vm.pushed?) := by
  obtain ⟨v, hv⟩ := h.sized.exists_cellAt hx
  rw [hv]
  exact .op rfl (exec_load h tmp0 hnames hv)
    (carries_pushReg (h.setTmp _) (by decide) (Machine.reg32_setReg32_self ..) htop)

theorem carries_pushFrameAddress (c : Cell) (htop : vm.HasCell (vm.topAddress - 4)) :
    Carries (pushFrameAddress c) m s (vm.pushed? (vm.regs.frm + c)) := by
  have hvalue := frame_value h c
  refine .op rfl rfl (.op rfl rfl ?_)
  refine carries_pushReg (((h.setTmp _).setFlags _).setTmp _) (by decide) ?_ htop
  refine (Machine.reg32_setReg32_self ..).trans ?_
  rw [← hvalue]
  show (m.setReg32 tmp0 _).reg32 tmp0 - _ = _
  rw [Machine.reg32_setReg32_self]
  rfl

theorem carries_popReg (a : Accumulator) (hx : vm.HasCell vm.topAddress) :
    Carries (popReg a.reg) m s (vm.popped? a.name) := by
  obtain ⟨v, hv⟩ := h.sized.exists_cellAt hx
  have hload := exec_load h a.reg h.names_top hv
  have hstk : (vm.put a.name v).regs.stk = vm.regs.stk := by cases a <;> rfl
  have hroom : (vm.put a.name v).regs.stk.toNat + 4 < 0x100000000 := by
    have hle := h.sized.cell_le hx
    have hbounded := h.sized.bounded
    rw [Instance.topAddress, Int.toNat_natCast] at hle
    rw [hstk]
    omega
  refine ⟨_, ?_, .op rfl hload (.op rfl rfl (.nil ((h.setAcc a rfl).shrinkStack hroom)))⟩
  rw [Instance.popped?, Instance.loaded?, hv]
  rfl

theorem carries_swapTop (a : Accumulator) (hx : vm.HasCell vm.topAddress) :
    Carries (swapTop a.reg) m s (vm.swapped? a.name) := by
  obtain ⟨v, hv⟩ := h.sized.exists_cellAt hx
  obtain ⟨vm', hset⟩ := h.sized.exists_setCellAt hx (vm.regs.get a.name)
  have htmp := h.setTmp (v.setWidth 64)
  obtain ⟨host, hstore, hstored⟩ := htmp.store32 hset rfl
  have hfinal := hstored.setAcc a (Machine.reg32_setReg32_self m tmp0 v)
  have hold : (m.setReg32 tmp0 v).reg32 a.reg = vm.regs.get a.name := htmp.reg32_acc a
  refine ⟨vm'.put a.name v, ?_, .op rfl (exec_load h tmp0 h.names_top hv) (.op rfl ?_
    (.op rfl rfl (.nil hfinal)))⟩
  · rw [Instance.swapped?, Instance.loaded?, hv]
    show (vm.put a.name v).setCellAt? vm.topAddress _ = _
    rw [setCellAt_put, hset]
    rfl
  · show ((m.setReg tmp0 (v.setWidth 64)).operand top >>= fun x =>
      (m.setReg tmp0 (v.setWidth 64)).store32 x ((m.setReg32 tmp0 v).reg32 a.reg)) = _
    rw [htmp.operand htmp.names_top hx, hold]
    exact hstore

/-! ## Section 5: Control registers -/

theorem yields_loadControl {r : RegisterName} (hr : r = .hea ∨ r = .stp) :
    Yields [loadFile tmp0, .op (.load .d pri (saved tmp0 r))] m s
      (vm.put .pri (vm.regs.get r)) := by
  have htmp := h.setTmp s.layout.file
  have hvalue : (m.setReg tmp0 s.layout.file).exec (.load .d pri (saved tmp0 r)) =
      .ok ((m.setReg tmp0 s.layout.file).setReg32 pri (vm.regs.get r)) := by
    show ((m.setReg tmp0 s.layout.file).operand (saved tmp0 r) >>= fun x => _) = _
    rw [htmp.operand_saved rfl r]
    show ((m.setReg tmp0 s.layout.file).load32 _ >>= _) = _
    rw [htmp.load32_register hr]
    rfl
  exact .op rfl h.exec_loadFile (.op rfl hvalue (.nil (htmp.setPri rfl)))

theorem carries_readControl {ctx : Context} {i : Instruction} {ls : List Line}
    (hcod : ctx.cod = vm.header.cod) (hdat : ctx.dat = vm.header.dat)
    (hls : readControl ctx i = .ok ls) : Carries ls m s ((i.control? vm).map (vm.put .pri)) := by
  have hnumber : ∀ k : Nat, i.arg.toInt = k → i.arg.toNat = k := by
    intro k hk
    have heq := Cell.toInt_eq_toNat (c := i.arg) (by omega)
    omega
  -- Register numbers are compared as signed numbers when compiling and as indices here.
  unfold readControl at hls
  unfold Instruction.control?
  split at hls
  · next hk =>
    cases hls
    rw [hnumber 0 hk, ← hcod]
    exact (yields_result h .pri rfl rfl rfl).carries
  · next hk =>
    cases hls
    rw [hnumber 1 hk, ← hdat]
    exact (yields_result h .pri rfl rfl rfl).carries
  · next hk =>
    cases hls
    rw [hnumber 2 hk]
    exact (yields_loadControl h (Or.inl rfl)).carries
  · next hk =>
    cases hls
    rw [hnumber 3 hk]
    exact (yields_loadControl h (Or.inr rfl)).carries
  · next hk =>
    cases hls
    rw [hnumber 4 hk]
    exact (yields_difference h .pri rfl rfl h.reg32_stk).carries
  · next hk =>
    cases hls
    rw [hnumber 5 hk]
    exact (yields_difference h .pri rfl rfl h.reg32_frm).carries
  · next hk =>
    cases hls
    rw [hnumber 6 hk]
    exact (yields_result h .pri rfl rfl rfl).carries
  · cases hls

theorem carries_storeControl :
    Carries [loadFile tmp0, .op (.store .d (saved tmp0 .hea) pri)] m s
      (some (vm.put .hea vm.regs.pri)) := by
  have htmp := h.setTmp s.layout.file
  obtain ⟨host, hstore, hfinal⟩ := htmp.store32_hea vm.regs.pri
  refine ⟨_, rfl, .op rfl h.exec_loadFile (.op rfl ?_ (.nil hfinal))⟩
  show ((m.setReg tmp0 s.layout.file).operand (saved tmp0 .hea) >>= fun x => _) = _
  rw [← hstore, ← htmp.reg32_pri, htmp.operand_saved rfl .hea]
  rfl

theorem absolute_pri :
    (m.reg32 pri).setWidth 64 + m.reg data = m.reg data + vm.regs.pri.setWidth 64 := by
  rw [h.reg32_pri, BitVec.add_comm]

theorem yields_absoluteStk : Yields (absolute stk pri) m s (vm.put .stk vm.regs.pri) := by
  have hflags := h.setFlags (addFlags ((m.reg32 pri).setWidth 64) (m.reg data))
  exact .op rfl rfl (.op rfl rfl (.nil (hflags.setStk (absolute_pri h))))

theorem yields_absoluteFrm : Yields (absolute frm pri) m s (vm.put .frm vm.regs.pri) := by
  have hflags := h.setFlags (addFlags ((m.reg32 pri).setWidth 64) (m.reg data))
  exact .op rfl rfl (.op rfl rfl (.nil (hflags.setFrm (absolute_pri h))))

theorem carries_writeControl {i : Instruction} {ls : List Line}
    (hi : i.arg = 2 ∨ i.arg = 4 ∨ i.arg = 5) (hls : writeControl i = .ok ls) :
    Carries ls m s (i.setControl? vm vm.regs.pri) := by
  unfold writeControl at hls
  unfold Instruction.setControl?
  rcases hi with harg | harg | harg
  · rw [harg] at hls ⊢
    cases hls
    exact carries_storeControl h
  · rw [harg] at hls ⊢
    cases hls
    exact (yields_absoluteStk h).carries
  · rw [harg] at hls ⊢
    cases hls
    exact (yields_absoluteFrm h).carries

end

/-! ## Section 6: Pushing repeatedly -/

/-- A round of the loop, up to the jump. -/
def pushRound : List Line := pushReg pri ++ [.op (.aluRI .sub .d tmp0 1)]

/-- The loop that pushes the primary register. -/
def pushLoop : List Line := .place (.mark 0) :: (pushRound ++ [.jcc .ne (.mark 0)])

theorem pushed_keeps {vm vm' : Instance} {v : Cell} (h : vm.pushed? v = some vm') :
    vm.HasCell (vm.topAddress - 4) ∧ vm'.regs.pri = vm.regs.pri ∧ vm'.dataSize = vm.dataSize ∧
      vm'.topAddress = vm.topAddress - 4 := by
  obtain ⟨vm₁, hset, rfl⟩ := Option.map_eq_some_iff.mp h
  obtain ⟨hx, block, -, rfl⟩ := Instance.setCellAt_eq_some hset
  have hroom : 4 ≤ vm.regs.stk.toNat := by
    have hpos := hx.1
    rw [Instance.topAddress, Cell.width] at hpos
    omega
  exact ⟨hx, rfl, rfl, topAddress_pushed hroom⟩

/-- Pushing a number of times takes place when all the cells are there. -/
theorem exists_pushedTimes (v : Cell) (n : Nat) {vm : Instance} (h : vm.Sized)
    (hx : ∀ k : Nat, k < n → vm.HasCell (vm.topAddress - 4 * (k + 1))) :
    ∃ vm', vm.pushedTimes? v n = some vm' := by
  induction n generalizing vm with
  | zero => exact ⟨vm, rfl⟩
  | succ n ih =>
    have hfirst : vm.HasCell (vm.topAddress - Cell.width) := hx 0 (Nat.succ_pos n)
    obtain ⟨vm₁, hset⟩ := h.exists_setCellAt hfirst v
    have hpushed : vm.pushed? v = some (vm₁.put .stk (vm₁.regs.stk - 4)) := by
      rw [Instance.pushed?, hset]
      rfl
    obtain ⟨-, -, hsize, htop⟩ := pushed_keeps hpushed
    obtain ⟨vm', hvm'⟩ := ih ((h.setCellAt hset).put ..) fun k hk => by
      have hcell := hx (k + 1) (Nat.succ_lt_succ hk)
      rw [Instance.HasCell] at hcell ⊢
      rw [hsize, htop]
      push_cast at hcell
      omega
    exact ⟨vm', by rw [Instance.pushedTimes?, hpushed]; exact hvm'⟩

/-- **Step.** A round pushes once and counts down; the loop goes on until the count is zero. -/
theorem runs_pushRound {n : Nat} {m : Machine} {s : Surroundings} {vm vm' : Instance}
    (h : m.Represents s vm) (hn : m.reg32 tmp0 = BitVec.ofNat 32 (n + 1))
    (hbound : n + 1 < 0x80000000) (hpushed : vm.pushed? vm.regs.pri = some vm') {code : Block}
    {find : Target → Option Nat} {o : Nat} (hsize : code.size < 0x10000000000000000)
    (hholds : code.Holds find o pushLoop) :
    ∃ m' : Machine, m'.Represents s vm' ∧ m'.reg32 tmp0 = BitVec.ofNat 32 n ∧
      Machine.Runs code (m.atOffset o)
        (m'.atOffset (if n = 0 then o + linesSize pushLoop else o)) := by
  obtain ⟨vm₁, hpushed₁, hpush⟩ :=
    achieves_pushReg h (by decide) h.reg32_pri (pushed_keeps hpushed).1
  obtain rfl : vm₁ = vm' := Option.some_inj.mp (hpushed₁.symm.trans hpushed)
  have hround : Achieves pushRound m fun m' => m'.Represents s vm₁ ∧
      m'.reg32 tmp0 = BitVec.ofNat 32 n ∧ m'.flags = subFlags (BitVec.ofNat 32 (n + 1)) 1 := by
    refine hpush.append fun m₁ hm₁ => .op rfl rfl (.nil ⟨(hm₁.1.setFlags _).setTmp _, ?_, ?_⟩)
    · have htmp : m₁.reg32 tmp0 = BitVec.ofNat 32 (n + 1) :=
        (congrArg (BitVec.setWidth 32) hm₁.2).trans hn
      refine (Machine.reg32_setReg32_self ..).trans ?_
      show m₁.reg32 tmp0 - 1 = _
      rw [htmp, BitVec.ofNat_add]
      exact BitVec.add_sub_cancel _ _
    · have htmp : m₁.reg32 tmp0 = BitVec.ofNat 32 (n + 1) :=
        (congrArg (BitVec.setWidth 32) hm₁.2).trans hn
      exact congrArg (fun x => subFlags x 1) htmp
  obtain ⟨hmark, hholds⟩ := hholds
  obtain ⟨hlines, ⟨d, dest, hread, hdest, hsum⟩, -⟩ := Block.holds_append.mp hholds
  obtain ⟨m', ⟨hrep, htmp, hflags⟩, hruns⟩ := hround code find _ hsize hlines
  refine ⟨m', hrep, htmp, hruns.tail ?_⟩
  have hc : Cond.ne.holds m'.flags = some (BitVec.ofNat 32 (n + 1) != 1) := by
    rw [hflags]
    exact (holds_unsigned _ _).2.1
  rw [Machine.step_jcc hread hsum hsize hc]
  -- The jump leads back to the mark, and after it the loop ends.
  have hback : dest = o := Option.some_inj.mp (hdest.symm.trans hmark)
  by_cases hzero : n = 0
  · have hlast : (BitVec.ofNat 32 (n + 1) != 1) = false := by
      rw [hzero]
      rfl
    rw [hlast, if_pos hzero]
    rfl
  · have hmore : (BitVec.ofNat 32 (n + 1) != 1) = true := by
      rw [bne_iff_ne, ne_eq, ← BitVec.toNat_inj, BitVec.toNat_ofNat]
      show ¬_ = 1
      omega
    rw [hmore, if_pos rfl, if_neg hzero, hback]

/-- **Run.** The loop pushes as often as the register for intermediate results says. The induction
    is on that number, which each round lowers by one. -/
theorem yields_pushLoop (n : Nat) {m : Machine} {s : Surroundings} {vm vm' : Instance}
    (h : m.Represents s vm) (hn : m.reg32 tmp0 = BitVec.ofNat 32 (n + 1))
    (hbound : n + 1 < 0x80000000)
    (heffect : vm.pushedTimes? vm.regs.pri (n + 1) = some vm') : Yields pushLoop m s vm' := by
  intro code find o hsize hholds
  induction n generalizing m vm with
  | zero =>
    obtain ⟨vm₁, hpushed, heffect⟩ := Option.bind_eq_some_iff.mp heffect
    cases heffect
    obtain ⟨m', hrep, -, hruns⟩ := runs_pushRound h hn hbound hpushed hsize hholds
    exact ⟨m', hrep, hruns⟩
  | succ n ih =>
    obtain ⟨vm₁, hpushed, heffect⟩ := Option.bind_eq_some_iff.mp heffect
    obtain ⟨m₁, hrep, htmp, hruns₁⟩ := runs_pushRound h hn hbound hpushed hsize hholds
    obtain ⟨-, hpri, -⟩ := pushed_keeps hpushed
    rw [← hpri] at heffect
    obtain ⟨m', hm', hruns⟩ := ih hrep htmp (by omega) heffect
    exact ⟨m', hm', hruns₁.trans hruns⟩

/-- A count that is not positive pushes nothing, and any other is the number of rounds. -/
theorem carries_pushRepeated {m : Machine} {s : Surroundings} {vm : Instance}
    (h : m.Represents s vm) (count : Cell)
    (hx : ∀ k : Nat, k < count.toInt.toNat → vm.HasCell (vm.topAddress - 4 * (k + 1))) :
    Carries (pushRepeated count) m s (vm.pushedTimes? vm.regs.pri count.toInt.toNat) := by
  obtain ⟨vm', heffect⟩ := exists_pushedTimes vm.regs.pri _ h.sized hx
  refine ⟨vm', heffect, ?_⟩
  unfold pushRepeated
  split_ifs with hcount
  · rw [Int.toNat_of_nonpos hcount] at heffect
    cases heffect
    exact .nil h
  · obtain ⟨n, hn⟩ : ∃ n, count.toInt.toNat = n + 1 := Nat.exists_eq_succ_of_ne_zero (by omega)
    have hlt := BitVec.toInt_lt (x := count)
    have hbound : n + 1 < 0x80000000 := by omega
    have hvalue : count = BitVec.ofNat 32 (n + 1) := by
      have hnat := Cell.toInt_eq_toNat (c := count) (by omega)
      rw [← hn, hnat, Int.toNat_natCast, BitVec.ofNat_toNat, BitVec.setWidth_eq]
    rw [hn] at heffect
    refine .op rfl rfl (yields_pushLoop n (h.setTmp _) ?_ hbound heffect)
    exact (Machine.reg32_setReg32_self ..).trans hvalue

end PawnNative
