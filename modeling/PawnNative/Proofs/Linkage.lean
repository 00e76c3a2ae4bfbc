import Mathlib.Tactic.Common
import PawnNative.Proofs.Invocations

/-! # Frames on the stack of an instance

    The stack of an instance grows down. The arguments of a function are pushed from
    the last to the first, then their size in bytes; the call pushes where the caller
    goes on, and the function itself the frame of its caller. From the new frame on
    the cells are

      0       the frame of the caller
      4       where the caller goes on
      8       the size of the arguments
      12 …    the arguments

    `Instance.Stacks` says what pushes do, whoever makes them. The code that opens a
    frame, closes it and reads it is followed here without regard to what the
    computing registers hold.
-/

namespace PawnNative

open X64 Convention Template

/-! ## Section 1: Cells in a row -/

theorem Block.cell?_setCell?_of_apart {b b' : Block} {o q : Nat} {v : Cell}
    (h : b.setCell? o v = some b') (hapart : q + 4 ≤ o ∨ o + 4 ≤ q) : b'.cell? q = b.cell? q := by
  have hsize := Block.size_setCell? h
  unfold Block.setCell? at h
  split_ifs at h with hin
  have hbytes : ∀ i, i < 4 → b'.getD (q + i) 0 = b.getD (q + i) 0 := by
    intro i hi
    rw [← Option.some_inj.mp h]
    simp only [Array.getD_eq_getD_getElem?, Array.getElem?_setIfInBounds]
    rw [if_neg (by omega), if_neg (by omega), if_neg (by omega), if_neg (by omega)]
  have h₀ := hbytes 0 (by decide)
  have h₁ := hbytes 1 (by decide)
  have h₂ := hbytes 2 (by decide)
  have h₃ := hbytes 3 (by decide)
  rw [Nat.add_zero] at h₀
  rw [Block.cell?, Block.cell?, hsize, h₀, h₁, h₂, h₃]

namespace Instance

variable {vm vm' vm₁ vm₂ : Instance} {a b : Int} {v : Cell} {vs ws : List Cell}

theorem cellAt?_setCellAt? (h : vm.setCellAt? a v = some vm') : vm'.cellAt? a = some v := by
  obtain ⟨ha, block, hblock, rfl⟩ := setCellAt_eq_some h
  exact (if_pos ha).trans (Block.cell?_setCell? hblock)

theorem cellAt?_setCellAt?_of_apart (h : vm.setCellAt? a v = some vm')
    (hapart : b + 4 ≤ a ∨ a + 4 ≤ b) : vm'.cellAt? b = vm.cellAt? b := by
  obtain ⟨ha, block, hblock, rfl⟩ := setCellAt_eq_some h
  by_cases hb : vm.HasCell b
  · obtain ⟨ha, -⟩ := ha
    have hcell := Block.cell?_setCell?_of_apart (q := vm.dataStart + b.toNat) hblock (by
      obtain ⟨hb, -⟩ := hb
      omega)
    exact (if_pos hb).trans (hcell.trans (if_pos hb).symm)
  · exact (if_neg hb).trans (if_neg hb).symm

/-- These cells lie at a data address and above it. -/
def Holds (vm : Instance) (a : Int) (vs : List Cell) : Prop :=
  ∀ (k : Nat) (v : Cell), vs[k]? = some v → vm.cellAt? (a + 4 * k) = some v

theorem Holds.left (h : vm.Holds a (vs ++ ws)) : vm.Holds a vs := by
  intro k v hv
  obtain ⟨hk, -⟩ := List.getElem?_eq_some_iff.mp hv
  exact h k v (by rw [List.getElem?_append_left hk, hv])

theorem Holds.append (h : vm.Holds a vs) (h' : vm.Holds (a + 4 * vs.length) ws) :
    vm.Holds a (vs ++ ws) := by
  intro k v hv
  by_cases hk : k < vs.length
  · rw [List.getElem?_append_left hk] at hv
    exact h k v hv
  · rw [List.getElem?_append_right (by omega)] at hv
    have hcell := h' _ v hv
    rwa [show a + 4 * (vs.length : Int) + 4 * ((k - vs.length : Nat) : Int) =
        a + 4 * k by omega] at hcell

/-- Cells were pushed, the last of them first: they lie on top of the stack, and what was on the
    stack before is above them. -/
structure Stacks (vm : Instance) (vs : List Cell) (vm' : Instance) : Prop where
  header : vm'.header = vm.header
  size : vm'.block.size = vm.block.size
  hea : vm'.regs.hea = vm.regs.hea
  stk : vm'.regs.stk.toNat + 4 * vs.length = vm.regs.stk.toNat
  cells : vm'.Holds vm'.topAddress vs
  above : ∀ b, vm.topAddress ≤ b → vm'.cellAt? b = vm.cellAt? b

theorem Stacks.refl (vm : Instance) : vm.Stacks [] vm :=
  ⟨rfl, rfl, rfl, rfl, nofun, fun _ _ => rfl⟩

theorem Stacks.trans (h : vm.Stacks vs vm₁) (h' : vm₁.Stacks ws vm₂) :
    vm.Stacks (ws ++ vs) vm₂ := by
  have hfirst := h.stk
  have hlast := h'.stk
  refine ⟨h'.header.trans h.header, h'.size.trans h.size, h'.hea.trans h.hea, ?_, ?_, ?_⟩
  · rw [List.length_append]
    omega
  · refine h'.cells.append fun k v hv => ?_
    have htop : vm₂.topAddress + 4 * ws.length = vm₁.topAddress := by
      unfold topAddress
      omega
    rw [htop, h'.above _ (by omega)]
    exact h.cells k v hv
  · intro b hb
    have htop : vm₁.topAddress ≤ vm.topAddress := by
      unfold topAddress
      omega
    rw [h'.above b (by omega), h.above b hb]

/-- **Step.** A cell is stored below the top of the stack, and the stack moves there. -/
theorem stacks_of_set (regs : Registers) (pending : Nat) {stk : Cell}
    (hset : vm.setCellAt? stk.toNat v = some vm₁) (hstk : stk.toNat + 4 = vm.regs.stk.toNat)
    (hregs : regs.stk = stk ∧ regs.hea = vm.regs.hea) :
    vm.Stacks [v] { vm₁ with regs, pending } := by
  obtain ⟨hstk', hhea⟩ := hregs
  have hself := cellAt?_setCellAt? hset
  have habove : ∀ b, vm.topAddress ≤ b → vm₁.cellAt? b = vm.cellAt? b := by
    intro b hb
    unfold topAddress at hb
    exact cellAt?_setCellAt?_of_apart hset (by omega)
  obtain ⟨-, block, hblock, rfl⟩ := setCellAt_eq_some hset
  refine ⟨rfl, Block.size_setCell? hblock, hhea, ?_, ?_, habove⟩
  · show regs.stk.toNat + 4 * 1 = _
    rw [hstk', ← hstk]
  · intro k w hw
    obtain ⟨rfl, rfl⟩ : k = 0 ∧ v = w := by
      cases k with
      | zero => exact ⟨rfl, Option.some_inj.mp hw⟩
      | succ k => simp at hw
    show cellAt? _ ((regs.stk.toNat : Int) + 4 * ((0 : Nat) : Int)) = _
    rw [hstk', Int.natCast_zero, Int.mul_zero, Int.add_zero]
    exact hself

/-- **Run.** So do pushes one after the other. -/
theorem stacks_foldlM {M : Type → Type} [Monad M] {push : Instance → Cell → M Instance}
    (hpure : ∀ {x y : Instance}, (pure x : M Instance) = pure y → x = y)
    (hbind : ∀ {x : M Instance} {f : Instance → M Instance} {y : Instance}, x >>= f = pure y →
      ∃ z, x = pure z ∧ f z = pure y)
    (hpush : ∀ {vm v vm'}, push vm v = pure vm' → vm.Stacks [v] vm')
    (h : vs.foldlM push vm = pure vm') : vm.Stacks vs.reverse vm' := by
  induction vs generalizing vm with
  | nil =>
    obtain rfl := hpure h
    exact .refl vm
  | cons v vs ih =>
    rw [List.foldlM_cons] at h
    obtain ⟨vm₁, hfirst, hrest⟩ := hbind h
    rw [List.reverse_cons]
    exact (hpush hfirst).trans (ih hrest)

/-! ## Section 2: Pushes -/

theorem toNat_sub_four {s : Cell} (h : 4 ≤ s.toNat) : (s - 4).toNat + 4 = s.toNat := by
  bv_omega

theorem stacks_pushed (h : vm.pushed? v = some vm') : vm.Stacks [v] vm' := by
  obtain ⟨vm₁, hset, rfl⟩ := Option.map_eq_some_iff.mp h
  obtain ⟨⟨hlow, -⟩, block, -, hvm₁⟩ := setCellAt_eq_some hset
  have hroom : 4 ≤ vm.regs.stk.toNat := by
    rw [topAddress, show Cell.width = 4 from rfl] at hlow
    omega
  have hstk := toNat_sub_four hroom
  have haddress : vm.topAddress - Cell.width = ((vm.regs.stk - 4).toNat : Int) := by
    rw [topAddress, show Cell.width = 4 from rfl]
    omega
  rw [haddress] at hset
  refine stacks_of_set _ vm₁.pending hset hstk ?_
  rw [hvm₁]
  exact ⟨rfl, rfl⟩

theorem setCellAt?_of_setCell {address : Cell} (h : vm.setCell address v = .ok vm') :
    vm.setCellAt? address.toNat v = some vm' ∧ address.toNat < 0x80000000 := by
  unfold setCell at h
  split_ifs at h with hin
  rw [inData, Bool.and_eq_true_iff, decide_eq_true_eq, decide_eq_true_eq] at hin
  obtain ⟨hpos, hle⟩ := hin
  have hcell : vm.HasCell address.toNat := ⟨Int.natCast_nonneg _, by omega⟩
  have hsmall := Cell.toInt_eq_toNat hpos
  have hbound := BitVec.toInt_lt (x := address)
  refine ⟨?_, by omega⟩
  rw [setCellAt?, if_pos hcell, Int.toNat_natCast]
  split at h
  · next block hblock =>
    rw [hblock, ← Except.ok.inj h]
    rfl
  · cases h

theorem stacks_of_setCell (regs : Registers) (pending : Nat)
    (hset : vm.setCell (vm.regs.stk - 4) v = .ok vm₁)
    (hregs : regs.stk = vm.regs.stk - 4 ∧ regs.hea = vm.regs.hea) :
    vm.Stacks [v] { vm₁ with regs, pending } := by
  obtain ⟨hset, hsmall⟩ := setCellAt?_of_setCell hset
  refine stacks_of_set regs pending hset (toNat_sub_four ?_) hregs
  -- Below the first cell the address would wrap around, out of the data segment.
  bv_omega

theorem stacks_push (h : vm.push v = .ok vm') : vm.Stacks [v] vm' := by
  obtain ⟨-, vm₁, hset, rfl⟩ := push_eq_ok.mp h
  obtain ⟨block, -, rfl⟩ := setCell_eq_ok hset
  have hstacks := stacks_of_setCell (vm.regs.set .stk (vm.regs.stk - 4)) (vm.pending + 1)
    hset ⟨rfl, rfl⟩
  exact hstacks

/-- When the host pushes a cell, that is a push of the instruction set. -/
theorem pushed?_of_pushCell (h : vm.pushCell v = .ok vm') : vm.pushed? v = some vm' := by
  obtain ⟨-, vm₁, hset, rfl⟩ := pushCell_eq_ok.mp h
  obtain ⟨block, -, hvm₁⟩ := setCell_eq_ok hset
  obtain ⟨hset, hsmall⟩ := setCellAt?_of_setCell hset
  have haddress : vm.topAddress - Cell.width = ((vm.regs.stk - 4).toNat : Int) := by
    have hstk : 4 ≤ vm.regs.stk.toNat := by bv_omega
    have hstk := toNat_sub_four hstk
    rw [topAddress, show Cell.width = 4 from rfl]
    omega
  rw [pushed?, haddress, hset, hvm₁]
  rfl

theorem stacks_pushCell (h : vm.pushCell v = .ok vm') : vm.Stacks [v] vm' :=
  stacks_pushed (pushed?_of_pushCell h)

theorem pending_pushes (h : vs.foldlM Instance.push vm = .ok vm') :
    vm'.pending = vm.pending + vs.length := by
  induction vs generalizing vm with
  | nil =>
    cases h
    rfl
  | cons v vs ih =>
    rw [List.foldlM_cons] at h
    obtain ⟨vm₁, hfirst, hrest⟩ := bind_eq_ok.mp h
    obtain ⟨-, vm₂, hset, rfl⟩ := push_eq_ok.mp hfirst
    obtain ⟨block, -, rfl⟩ := setCell_eq_ok hset
    rw [ih hrest, List.length_cons]
    show vm.pending + 1 + vs.length = _
    omega

theorem Sized.inData_of_hasCell (hsized : vm.Sized) {c : Cell} (h : vm.HasCell c.toNat) :
    vm.inData c = true := by
  have htotal := hsized.total
  have hbounded := hsized.bounded
  have hle := h.2
  rw [show Cell.width = 4 from rfl] at hle
  rw [inData, Bool.and_eq_true_iff, decide_eq_true_eq, decide_eq_true_eq]
  refine ⟨?_, by exact_mod_cast h.2⟩
  rw [BitVec.toInt_eq_toNat_cond, if_pos (by omega)]
  exact Int.natCast_nonneg _

theorem Sized.exists_setCell (hsized : vm.Sized) {c : Cell} (h : vm.HasCell c.toNat) (v : Cell) :
    ∃ vm', vm.setCell c v = .ok vm' := by
  have hle := hsized.cell_le h
  rw [Int.toNat_natCast] at hle
  rw [setCell, if_pos (hsized.inData_of_hasCell h), Block.setCell?, if_pos hle]
  exact ⟨_, rfl⟩

/-- There is room for a number of cells on the stack, and the margin to the heap stays free. -/
structure Room (vm : Instance) (n : Nat) : Prop where
  heap : 0 ≤ vm.regs.hea.toInt
  margin : vm.regs.hea.toInt + Instance.margin + 4 * n ≤ vm.regs.stk.toInt
  top : vm.regs.stk.toInt ≤ vm.dataSize

theorem Room.mono {k n : Nat} (h : vm.Room n) (hk : k ≤ n) : vm.Room k := by
  obtain ⟨hheap, hmargin, htop⟩ := h
  exact ⟨hheap, by omega, htop⟩

section
variable {n : Nat} (hroom : vm.Room (n + 1))
include hroom

theorem Room.toNat_stk : (vm.regs.stk.toNat : Int) = vm.regs.stk.toInt :=
  (Cell.toInt_eq_toNat (by
    obtain ⟨hheap, hmargin, -⟩ := hroom
    omega)).symm

theorem Room.four_le : 4 ≤ vm.regs.stk.toNat := by
  have hstk := hroom.toNat_stk
  obtain ⟨hheap, hmargin, -⟩ := hroom
  omega

theorem Room.hasCell : vm.HasCell (vm.regs.stk - 4).toNat := by
  have hstk := toNat_sub_four hroom.four_le
  have hstk' := hroom.toNat_stk
  have htop := hroom.top
  refine ⟨Int.natCast_nonneg _, ?_⟩
  rw [show Cell.width = 4 from rfl]
  omega

theorem Room.stacks (h : vm.Stacks [v] vm') : vm'.Room n := by
  have hstk := h.stk
  have hstk' := hroom.toNat_stk
  have hbound := BitVec.toInt_lt (x := vm.regs.stk)
  have hsmall : vm'.regs.stk.toInt = vm'.regs.stk.toNat := by
    rw [BitVec.toInt_eq_toNat_cond, if_pos (by rw [List.length_singleton] at hstk; omega)]
  obtain ⟨hheap, hmargin, htop⟩ := hroom
  rw [List.length_singleton] at hstk
  have hsize : vm'.dataSize = vm.dataSize := by
    unfold dataSize
    rw [h.header]
  constructor
  · rw [h.hea]
    exact hheap
  · rw [h.hea]
    omega
  · rw [hsize]
    omega

theorem exists_pushCell (hsized : vm.Sized) (v : Cell) : ∃ vm', vm.pushCell v = .ok vm' := by
  obtain ⟨vm₁, hset⟩ := hsized.exists_setCell hroom.hasCell v
  have hmargin := hroom.margin
  exact ⟨_, pushCell_eq_ok.mpr ⟨by rw [show Cell.width = 4 from rfl]; omega, vm₁, hset, rfl⟩⟩

end

theorem Fixed.sized (h : vm.Fixed vm') (hsized : vm.Sized) : vm'.Sized := by
  have hstart : vm'.dataStart = vm.dataStart := by rw [dataStart, dataStart, h.header]
  have hlength : vm'.dataSize = vm.dataSize := by rw [dataSize, dataSize, h.header]
  exact ⟨by rw [hstart, hlength, h.size]; exact hsized.total, by rw [h.size]; exact hsized.bounded⟩

/-- For a call the host pushes the size of the arguments and a cell where a return address would
    be. -/
theorem exists_linked {n : Nat} (hroom : vm.Room (n + 2)) (hsized : vm.Sized) (count : Cell) :
    ∃ vm₁ vm₂, pushCell { vm with pending := 0 } count = .ok vm₁ ∧ vm₁.pushCell 0 = .ok vm₂ ∧
      vm.Stacks [0, count] vm₂ ∧ vm₂.Room n ∧ vm₂.regs.frm = vm.regs.frm ∧
      vm₂.regs.alt = vm.regs.alt := by
  have hroom₀ : Room { vm with pending := 0 } (n + 1 + 1) := ⟨hroom.heap, hroom.margin, hroom.top⟩
  have hsized₀ : Sized { vm with pending := 0 } := ⟨hsized.total, hsized.bounded⟩
  obtain ⟨vm₁, hpush₁⟩ := exists_pushCell hroom₀ hsized₀ count
  have hstacks₁ := stacks_pushCell hpush₁
  have hroom₁ := hroom₀.stacks hstacks₁
  have hoperated₁ := operated_pushCell hpush₁
  obtain ⟨vm₂, hpush₂⟩ := exists_pushCell hroom₁ (hoperated₁.toFixed.sized hsized₀) 0
  have hstacks₂ := stacks_pushCell hpush₂
  have hall := hstacks₁.trans hstacks₂
  have hoperated₂ := operated_pushCell hpush₂
  refine ⟨vm₁, vm₂, hpush₁, hpush₂, ?_, hroom₁.stacks hstacks₂, hoperated₂.frm.trans hoperated₁.frm,
    hoperated₂.alt.trans hoperated₁.alt⟩
  exact ⟨hall.header, hall.size, hall.hea, hall.stk, hall.cells, hall.above⟩

end Instance

/-! ## Section 3: Cells that a machine reaches -/

namespace Machine

def HasStk (m : Machine) (s : Cell) : Prop := m.reg stk = m.reg data + s.setWidth 64

def HasFrm (m : Machine) (f : Cell) : Prop := m.reg frm = m.reg data + f.setWidth 64

variable {m m' : Machine} {env : Environment} {K : Instance → Instance → Prop} {a : Activation}
  {rets : List Word} {s f v : Cell} {x : Int} {n : Nat}

theorem Loaded.hasStk {d : Word} {r : Registers} (h : m.Loaded d r) : m.HasStk r.stk := by
  rw [HasStk, h.data]
  exact h.stk

theorem HasStk.spilled (h : m.HasStk s) : m.spilled.regs.stk = s := reg32_sub_reg32 h rfl

theorem HasFrm.spilled (h : m.HasFrm f) : m.spilled.regs.frm = f := reg32_sub_reg32 h rfl

theorem HasStk.becomes {ws : List Reg} {h : Host} (hstk : m.HasStk s) (hm : Becomes ws h m m')
    (hws : stk ∉ ws ∧ data ∉ ws) : m'.HasStk s := by
  rw [HasStk, hm.regs _ hws.1, hm.regs _ hws.2]
  exact hstk

theorem HasFrm.becomes {ws : List Reg} {h : Host} (hfrm : m.HasFrm f) (hm : Becomes ws h m m')
    (hws : frm ∉ ws ∧ data ∉ ws) : m'.HasFrm f := by
  rw [HasFrm, hm.regs _ hws.1, hm.regs _ hws.2]
  exact hfrm

/-- Whether a line is an instruction that leaves the native stack alone. -/
def Line.isLocal : Line → Bool
  | .op i => i.isLocal
  | _ => false

/-- **Run.** Local instructions one after the other stay inside the activation. -/
theorem Home.execLines (hK : Steady K) (h : m.Home env K a rets) {xs : List Line}
    (hxs : xs.all Line.isLocal) (hexec : Machine.execLines xs m = .ok m') :
      m'.Home env K a rets := by
  induction xs generalizing m with
  | nil =>
    cases hexec
    exact h
  | cons l xs ih =>
    rw [List.all_cons, Bool.and_eq_true_iff] at hxs
    obtain ⟨hl, hxs⟩ := hxs
    cases l with
    | jmp t | jcc c t | call t | place t => cases hl
    | op i =>
      obtain ⟨m₁, hfirst, hrest⟩ := bind_eq_ok.mp hexec
      have hhome := h.ofLocal hK (exec_local hl hfirst) fun r hr => Instr.not_owned_of_isLocal hl hr
      exact ih hhome hxs hrest

/-- An operand of a machine is a cell with this value. -/
def Reads (m : Machine) (o : Mem) (v : Cell) : Prop := (m.operand o >>= m.load32) = .ok v

theorem Reads.bind {α : Type} {o : Mem} (h : m.Reads o v) (next : Cell → Except Crash α) :
    (m.operand o >>= fun a => m.load32 a >>= next) = next v := by
  obtain ⟨a, hoperand, hload⟩ := bind_eq_ok.mp h
  rw [hoperand, ok_bind, hload]
  rfl

section
variable (hK : Steady K) (h : m.Inside env K a rets) (hsized : m.host.vm.Sized)
include hK h hsized

theorem Inside.place_cell (hx : m.host.vm.HasCell x) :
    m.host.place? m.layout (m.reg Convention.data + BitVec.ofInt 64 x) =
      some (.block (m.host.vm.dataStart + x.toNat)) := by
  let s : Surroundings :=
    ⟨m.layout, m.regs, m.xmm, m.down, m.host.vm.regs, m.host.stack, m.host.log⟩
  have hdata : m.reg Convention.data = m.layout.block + m.host.vm.header.dat.setWidth 64 := by
    rw [h.data, h.layout, Activation.data, ← (hK.fixed h.steady).header]
  have hplace := s.place_address hsized hx
  rw [Surroundings.address, ← hdata] at hplace
  exact hplace

section
variable {o : Mem} (haddress : m.address o = m.reg Convention.data + BitVec.ofInt 64 x)
  (hbase : pointsInto o.base = .block) (hcell : m.host.vm.cellAt? x = some v)
include haddress hbase hcell

theorem Inside.reads_cell : m.Reads o v := by
  have hx := Instance.hasCell_of_cellAt hcell
  rw [Instance.cellAt?, if_pos hx] at hcell
  have hplace := h.place_cell hK hsized hx
  rw [Reads, operand_eq_ok.mpr ⟨haddress, _, hplace, hbase.symm⟩, ok_bind]
  exact reached_eq_ok.mpr ((Host.load32_block hplace).trans hcell)

theorem Inside.exec_loadCell (dst : Reg) : m.exec (.load .d dst o) = .ok (m.setReg32 dst v) :=
  (h.reads_cell hK hsized haddress hbase hcell).bind _

end

section
variable {i : Instr}
  (hexec : ∀ m' : Machine, (∀ r, r ≠ stk → m'.reg r = m.reg r) →
    m'.exec i = m'.operand top >>= fun a => m'.store32 a v) (hstk : m.HasStk s)
include hexec hstk

/-- A push of the code is a push of the instance. The register file is not involved. -/
theorem Inside.execLines_pushed (hfour : 4 ≤ s.toNat) (hcell : m.host.vm.HasCell (s - 4).toNat) :
    ∃ m', execLines [.op (.aluRI .sub .q stk 4), .op i] m = .ok m' ∧ Becomes [stk] m'.host m m' ∧
      m'.HasStk (s - 4) ∧ m.spilled.pushed? v = some m'.spilled ∧
      m'.host.vm.regs = m.host.vm.regs := by
  let m₁ := m.alu64 .sub stk ((4 : Cell).signExtend 64)
  have hm₁ : Becomes [stk] m.host m m₁ := ((Becomes.refl _ m).setFlags _).setReg (by decide) _
  have hstk₁ : m₁.HasStk (s - 4) := by
    show m.reg stk - 4 = m.reg Convention.data + (s - 4).setWidth 64
    rw [hstk]
    generalize m.reg Convention.data = d
    bv_omega
  have hinside : m₁.Inside env K a rets :=
    h.change hK rfl rfl rfl (hK.refl _) fun _ _ _ => rfl
  have hhost₁ : m₁.host = m.host := rfl
  have haddress : m₁.address top = m₁.reg Convention.data + BitVec.ofInt 64 (s - 4).toNat := by
    show m₁.reg stk + (0 : Cell).signExtend 64 = _
    rw [hstk₁, BitVec.ofInt_natCast, BitVec.ofNat_toNat]
    exact BitVec.add_zero _
  -- The code stores through the address space and the instance by index; both
  -- change the same block.
  obtain ⟨vm₁, hset⟩ := hsized.exists_setCellAt hcell v
  obtain ⟨-, block, hblock, -⟩ := Instance.setCellAt_eq_some hset
  have hplace := hinside.place_cell hK (by rw [hhost₁]; exact hsized) (by rw [hhost₁]; exact hcell)
  let m₂ := m₁.setHost { m.host with vm := { m.host.vm with block } }
  have hstore : m₁.exec i = .ok m₂ := by
    rw [hexec m₁ fun r hr => RegFile.get_set_ne _ _ hr,
      operand_eq_ok.mpr ⟨haddress, _, hplace, rfl⟩]
    exact store32_eq_ok.mpr ⟨_, Host.store32_block hplace hblock, rfl⟩
  have hsub : m.exec (.aluRI .sub .q stk 4) = .ok m₁ := rfl
  have hlines : execLines [.op (.aluRI .sub .q stk 4), .op i] m = .ok m₂ := by
    rw [execLines_cons hsub, execLines_cons hstore, Machine.execLines]
  refine ⟨m₂, hlines, hm₁.setHost _, hstk₁, ?_, rfl⟩
  have hset : m.spilled.setCellAt? (s - 4).toNat v = some { m.spilled with block } := by
    rw [Instance.setCellAt?, if_pos (show m.spilled.HasCell _ from hcell), Option.map_eq_some_iff]
    exact ⟨block, hblock, rfl⟩
  have htop : m.spilled.topAddress - Cell.width = ((s - 4).toNat : Int) := by
    have hnext := Instance.toNat_sub_four hfour
    rw [Instance.topAddress, hstk.spilled, show Cell.width = 4 from rfl]
    omega
  have hstk₂ : m₂.spilled.regs.stk = s - 4 := HasStk.spilled (m := m₂) hstk₁
  rw [Instance.pushed?, htop, hset, Option.map_some, Option.some_inj]
  show Instance.put { m.spilled with block } .stk (m.spilled.regs.stk - 4) = m₂.spilled
  rw [hstk.spilled, ← hstk₂]
  rfl

/-- There is a place for the cell when there is room below the top. -/
theorem Inside.execLines_push (hroom : m.spilled.Room (n + 1)) :
    ∃ m', execLines [.op (.aluRI .sub .q stk 4), .op i] m = .ok m' ∧ Becomes [stk] m'.host m m' ∧
      m'.HasStk (s - 4) ∧ m.spilled.pushed? v = some m'.spilled ∧
      m'.host.vm.regs = m.host.vm.regs := by
  have hfour := hroom.four_le
  have hcell : m.host.vm.HasCell (m.spilled.regs.stk - 4).toNat := hroom.hasCell
  rw [hstk.spilled] at hfour hcell
  exact h.execLines_pushed hK hsized hexec hstk hfour hcell

end

variable (hstk : m.HasStk s) (hroom : m.spilled.Room (n + 1))
include hstk hroom

theorem Inside.execLines_pushImm (v : Cell) :
    ∃ m', execLines (pushImm v) m = .ok m' ∧ Becomes [stk] m'.host m m' ∧ m'.HasStk (s - 4) ∧
      m.spilled.pushed? v = some m'.spilled ∧ m'.host.vm.regs = m.host.vm.regs :=
  h.execLines_push hK hsized (fun _ _ => rfl) hstk hroom

theorem Inside.execLines_pushReg {r : Reg} (hr : r ≠ stk) :
    ∃ m', execLines (pushReg r) m = .ok m' ∧ Becomes [stk] m'.host m m' ∧ m'.HasStk (s - 4) ∧
      m.spilled.pushed? (m.reg32 r) = some m'.spilled ∧ m'.host.vm.regs = m.host.vm.regs := by
  refine h.execLines_push hK hsized (fun m' hm' => ?_) hstk hroom
  show (m'.operand top >>= fun a => m'.store32 a (m'.reg32 r)) = _
  rw [show m'.reg32 r = m.reg32 r from congrArg (BitVec.setWidth 32) (hm' r hr)]

end

end Machine

/-! ## Section 4: Opening and closing a frame -/

/-- The registers that hold part of an instance. -/
def held : List Reg := [pri, alt, stk, frm, data]

theorem Machine.spilled_congr {m m' : Machine} (hvm : m'.host.vm = m.host.vm)
    (hregs : ∀ r ∈ held, m'.reg r = m.reg r) : m'.spilled = m.spilled := by
  have hreg : ∀ r ∈ held, m'.reg32 r = m.reg32 r :=
    fun r hr => congrArg (BitVec.setWidth 32) (hregs r hr)
  rw [Machine.spilled, Machine.spilled, hvm, hreg pri (by decide), hreg alt (by decide),
    hreg stk (by decide), hreg frm (by decide), hreg data (by decide)]

theorem Machine.Becomes.spilled {ws : List Reg} {m m' : Machine}
    (hm : Machine.Becomes ws m.host m m') (hws : ∀ r ∈ held, r ∉ ws) : m'.spilled = m.spilled :=
  Machine.spilled_congr (by rw [hm.host]) fun r hr => hm.regs r (hws r hr)

/-- Compares the heap and its margin with the stack. -/
def marginLines : List Line :=
  [loadFile tmp0, .op (.load .d tmp1 (saved tmp0 .hea)), .op (.aluRI .add .d tmp1 margin)] ++
  relative tmp2 stk ++ [.op (.aluRR .cmp .d tmp1 tmp2)]

/-- Opens a frame, up to the branch that depends on the comparison. -/
def openLines : List Line :=
  relative tmp0 frm ++ (pushReg tmp0 ++ (.op (.movRR .q frm stk) :: marginLines))

theorem enterFunction_eq : enterFunction = openLines ++ [.jcc .g (.stub (.fault .stackError))] :=
  rfl

/-- Closes a frame, up to the return. -/
def closeLines : List Line :=
  [.op (.load .d tmp0 top), .op (.load .d tmp1 { base := stk, disp := 8 }),
   .op (.lea .q frm (indirect tmp0 tmp0_ne_rsp)),
   .op (.lea .q stk { base := stk, index := some ⟨tmp1, .one, tmp1_ne_rsp⟩, disp := 12 })]

theorem leaveDropping_eq : leaveDropping = closeLines ++ [.op .ret] := rfl

namespace Environment.Ready

variable {env : Environment} {ctx : Context} {is : List Instruction} {size : Nat}
  (hr : env.Ready ctx is size) {K : Instance → Instance → Prop} (hK : Steady K) {m : Machine}
  {a : Activation} {rets : List Word} (hsize : a.host.vm.block.size = size)
  {s f p c : Cell} {n : Nat}
include hr hK hsize

theorem execLines_margin (h : m.Inside env K a rets) (hstk : m.HasStk s) :
    ∃ m', Machine.execLines marginLines m = .ok m' ∧
      Machine.Becomes [tmp0, tmp1, tmp2] m.host m m' ∧
      m'.flags = subFlags (m.spilled.regs.hea + margin) s := by
  have hload := hr.exec_loadFile hK hsize h tmp0
  let m₁ := m.setReg tmp0 env.layout.file
  have hm₁ : Machine.Becomes [tmp0, tmp1, tmp2] m.host m m₁ :=
    (Machine.Becomes.refl _ m).setReg (by decide) _
  have hs := hr.separate_of_inside hK hsize h
  have hheap := Machine.exec_loadSaved (m := m₁) h.layout hs rfl .hea tmp1
  let m₂ := (m₁.setReg32 tmp1 (m₁.host.vm.regs.get .hea)).alu32 .add tmp1 margin
  have hadd : (m₁.setReg32 tmp1 (m₁.host.vm.regs.get .hea)).exec (.aluRI .add .d tmp1 margin) =
      .ok m₂ := rfl
  have hm₂ : Machine.Becomes [tmp0, tmp1, tmp2] m.host m m₂ :=
    ((hm₁.setReg (by decide) _).setFlags _).setReg (by decide) _
  have htmp₂ : m₂.reg32 tmp1 = m.spilled.regs.hea + margin := by
    refine (Machine.reg32_setReg32_self _ tmp1 _).trans ?_
    show (m₁.setReg32 tmp1 _).reg32 tmp1 + margin = _
    rw [Machine.reg32_setReg32_self]
    rfl
  obtain ⟨m₃, hrelative, hm₃, htmp₃⟩ := Machine.execLines_relative tmp2 stk (by decide) m₂
  have hstk₃ : m₃.reg32 tmp2 = s := by
    rw [Machine.reg32_eq htmp₃]
    exact Machine.reg32_sub_reg32 (hstk.becomes hm₂ (by decide)) rfl
  let m₄ := m₃.setFlags (subFlags (m₃.reg32 tmp1) (m₃.reg32 tmp2))
  have hcmp : m₃.exec (.aluRR .cmp .d tmp1 tmp2) = .ok m₄ := rfl
  refine ⟨m₄, ?_, ?_, ?_⟩
  · rw [marginLines, List.append_assoc, List.cons_append, List.cons_append,
      List.cons_append, loadFile,
      Machine.execLines_cons hload, Machine.execLines_cons hheap, Machine.execLines_cons hadd,
      List.nil_append, Machine.execLines_append_ok hrelative, Machine.execLines_cons hcmp,
      Machine.execLines]
  · exact (hm₂.trans (hm₃.mono (by decide))).setFlags _
  · show subFlags (m₃.reg32 tmp1) (m₃.reg32 tmp2) = _
    rw [hstk₃, ← htmp₂]
    exact congrArg (subFlags · s) (congrArg (BitVec.setWidth 32) (hm₃.regs _ (by decide)))

/-- A frame is opened: the frame of the caller is pushed, and the new one is where the stack is. -/
theorem execLines_open (h : m.Home env K a rets) (hsized : m.host.vm.Sized) (hstk : m.HasStk s)
    (hfrm : m.HasFrm f) (hroom : m.spilled.Room (n + 1)) :
    ∃ m', Machine.execLines openLines m = .ok m' ∧ m'.HasStk (s - 4) ∧ m'.HasFrm (s - 4) ∧
      m.spilled.Stacks [f] m'.spilled ∧ m'.flags = subFlags (m.spilled.regs.hea + margin) (s - 4) ∧
      m'.host.vm.regs = m.host.vm.regs := by
  obtain ⟨m₁, hrelative, hm₁, htmp₁⟩ := Machine.execLines_relative tmp0 frm (by decide) m
  have hspilled₁ : m₁.spilled = m.spilled := hm₁.spilled (by decide)
  have hframe : m₁.reg32 tmp0 = f := by
    rw [Machine.reg32_eq htmp₁]
    exact Machine.reg32_sub_reg32 hfrm rfl
  have hhome₁ := h.becomes hK hm₁ (by decide)
  obtain ⟨m₂, hpush, hm₂, hstk₂, hpushed, hregs₂⟩ := hhome₁.toInside.execLines_pushReg hK
    (by rw [hm₁.host]; exact hsized) (hstk.becomes hm₁ (by decide)) (by rw [hspilled₁]; exact hroom)
    (r := tmp0) (by decide)
  rw [hspilled₁, hframe] at hpushed
  have hstacks := Instance.stacks_pushed hpushed
  let m₃ := m₂.setReg frm (m₂.reg stk)
  have hmove : m₂.exec (.movRR .q frm stk) = .ok m₃ := rfl
  have hinside₂ : m₂.Inside env K a rets := (hhome₁.execLines hK rfl hpush).toInside
  have hstk₃ : m₃.HasStk (s - 4) := hstk₂
  obtain ⟨m₄, hmargin, hm₄, hflags⟩ := hr.execLines_margin hK hsize
    (hinside₂.setReg (r := frm) (by decide) (m₂.reg stk)) hstk₃
  have hspilled₄ : m₄.spilled = m₃.spilled := hm₄.spilled (by decide)
  have hhea : m₃.spilled.regs.hea = m.spilled.regs.hea := hstacks.hea
  refine ⟨m₄, ?_, hstk₃.becomes hm₄ (by decide), ?_, ?_, ?_, ?_⟩
  · rw [openLines, Machine.execLines_append_ok hrelative, Machine.execLines_append_ok hpush,
      Machine.execLines_cons hmove, hmargin]
  · exact Machine.HasFrm.becomes (m := m₃) hstk₂ hm₄ (by decide)
  · rw [hspilled₄]
    exact ⟨hstacks.header, hstacks.size, hstacks.hea, hstacks.stk, hstacks.cells, hstacks.above⟩
  · rw [hflags, ← hhea]
  · rw [hm₄.host, ← hm₁.host]
    exact hregs₂

omit hr hsize in
/-- A frame is closed: the frame of the caller is back, and the stack is above the arguments. -/
theorem execLines_close (h : m.Inside env K a rets) (hsized : m.host.vm.Sized) (hstk : m.HasStk p)
    (hframe : m.host.vm.cellAt? p.toNat = some f)
    (hcount : m.host.vm.cellAt? (p.toNat + 8) = some c) (hs : p.toNat + 12 + c.toNat = s.toNat) :
    ∃ m', Machine.execLines closeLines m = .ok m' ∧
      Machine.Becomes [tmp0, tmp1, frm, stk] m.host m m' ∧ m'.HasStk s ∧ m'.HasFrm f := by
  have haddress : ∀ d : Cell, m.reg stk + d.signExtend 64 =
      m.reg data + BitVec.ofInt 64 (p.toNat + d.toInt) := by
    intro d
    rw [hstk, BitVec.ofInt_add, BitVec.ofInt_natCast, BitVec.ofNat_toNat, BitVec.add_assoc]
    rfl
  have hload₁ := h.exec_loadCell hK hsized (o := top) (haddress 0) rfl
    (by rw [show (0 : Cell).toInt = 0 from rfl, Int.add_zero]; exact hframe) tmp0
  let m₁ := m.setReg32 tmp0 f
  have hinside₁ : m₁.Inside env K a rets := h.setReg (by decide) _
  have hload₂ := hinside₁.exec_loadCell hK hsized
    (o := { base := stk, disp := 8 }) (haddress 8) rfl hcount tmp1
  let m₂ := m₁.setReg32 tmp1 c
  let m₃ := m₂.setReg frm (m₂.address (indirect tmp0 tmp0_ne_rsp))
  let m₄ := m₃.setReg stk
    (m₃.address { base := stk, index := some ⟨tmp1, .one, tmp1_ne_rsp⟩, disp := 12 })
  have hm₄ : Machine.Becomes [tmp0, tmp1, frm, stk] m.host m m₄ :=
    ((((Machine.Becomes.refl _ m).setReg (by decide) _).setReg (by decide) _).setReg (by decide)
      _).setReg (by decide) _
  have hlea₃ : m₂.exec (.lea .q frm (indirect tmp0 tmp0_ne_rsp)) = .ok m₃ := rfl
  have hlea₄ : m₃.exec
      (.lea .q stk { base := stk, index := some ⟨tmp1, .one, tmp1_ne_rsp⟩, disp := 12 }) = .ok m₄ :=
      rfl
  refine ⟨m₄, ?_, hm₄, ?_, ?_⟩
  · rw [closeLines, Machine.execLines_cons hload₁, Machine.execLines_cons hload₂,
      Machine.execLines_cons hlea₃, Machine.execLines_cons hlea₄, Machine.execLines]
  · show m.reg stk + c.setWidth 64 <<< 0 + (12 : Cell).signExtend 64 = m.reg data + s.setWidth 64
    rw [hstk, BitVec.shiftLeft_zero, show (12 : Cell).signExtend 64 = 12 from rfl]
    generalize m.reg data = d
    bv_omega
  · show m.reg data + f.setWidth 64 <<< 0 + (0 : Cell).signExtend 64 = m.reg data + f.setWidth 64
    rw [BitVec.shiftLeft_zero]
    exact BitVec.add_zero _

end Environment.Ready

end PawnNative
