import Mathlib.Tactic.Common
import PawnNative.Proofs.Dispatch
import PawnNative.Proofs.Linkage

/-! # Float natives

    A float native takes one or two cells and makes no calls, so what a call of it
    comes to depends on the instance alone. The same work can be done in place of the
    call, by code that reads the arguments where the native would find them and
    leaves the result in the primary register.

    `FloatNative.dispatches` says how the call of a float native ends, and
    `Environment.Ready.reaches_inPlace` what the code in its place does.
-/

namespace PawnNative

open X64 Convention Template

/-! ## Section 1: Arguments on the stack -/

namespace Instance

variable {vm vm₁ : Instance} {a : Int} {c v : Cell} {vs : List Cell} {n : Nat}

/-- The cell at a data address, or zero outside of the data segment. -/
def cellD (vm : Instance) (a : Int) : Cell := (vm.cellAt? a).getD 0

theorem Holds.tail (h : vm.Holds a (v :: vs)) : vm.Holds (a + 4) vs := by
  intro k w hw
  have hcell := h (k + 1) w hw
  rwa [show a + 4 * ((k + 1 : Nat) : Int) = a + 4 + 4 * k by omega] at hcell

theorem Holds.getD_eq (h : vm.Holds a vs) {k : Nat} (hk : k < vs.length) :
    vs.getD k 0 = vm.cellD (a + 4 * k) := by
  have hcell := h k _ (List.getElem?_eq_getElem hk)
  rw [cellD, hcell, List.getD_eq_getElem?_getD, List.getElem?_eq_getElem hk]

section
variable (hsized : vm.Sized)
include hsized

theorem Sized.exists_holds (hlow : 0 ≤ a) (hhigh : a + 4 * n ≤ vm.dataSize) :
    ∃ vs, vs.length = n ∧ vm.Holds a vs := by
  refine ⟨(List.range n).map fun k : Nat => vm.cellD (a + 4 * k), by simp, ?_⟩
  intro k v hv
  obtain ⟨hk, rfl⟩ := List.getElem?_eq_some_iff.mp hv
  rw [List.length_map, List.length_range] at hk
  have hcell : vm.HasCell (a + 4 * k) := ⟨by omega, by rw [show Cell.width = 4 from rfl]; omega⟩
  obtain ⟨w, hw⟩ := hsized.exists_cellAt hcell
  simp [cellD, hw]

theorem Sized.cell_eq_ok (h : vm.cellAt? c.toNat = some v) : vm.cell c = .ok v := by
  have hcell := hasCell_of_cellAt h
  rw [cellAt?, if_pos hcell, Int.toNat_natCast] at h
  rw [cell, if_pos (hsized.inData_of_hasCell hcell), h]

/-- **Run.** The host reads cells in a row. -/
theorem Sized.cells_eq_ok (h : vm.Holds c.toNat vs) : vm.cells vs.length c = .ok vs := by
  induction vs generalizing c with
  | nil => rfl
  | cons v vs ih =>
    have hfirst := h 0 v rfl
    rw [show (c.toNat : Int) + 4 * ((0 : Nat) : Int) = c.toNat by omega] at hfirst
    have hle := (hasCell_of_cellAt hfirst).2
    have htotal := hsized.total
    have hbounded := hsized.bounded
    rw [show Cell.width = 4 from rfl] at hle
    have hnext : ((c + 4).toNat : Int) = c.toNat + 4 := by
      have hsum : (c + 4).toNat = c.toNat + 4 := by bv_omega
      omega
    have hrest := ih (c := c + 4) (by rw [hnext]; exact h.tail)
    rw [List.length_cons, cells, hsized.cell_eq_ok hfirst, ok_bind, hrest]
    rfl

/-- **Run.** Cells in a row that lead out of the data segment are not read. -/
theorem Sized.cells_eq_error (hlow : c.toNat ≤ vm.dataSize)
    (hhigh : vm.dataSize < c.toNat + 4 * n) : vm.cells n c = .error .memoryAccess := by
  induction n generalizing c with
  | zero => omega
  | succ n ih =>
    by_cases hc : c.toNat + 4 ≤ vm.dataSize
    · have hcell : vm.HasCell c.toNat := ⟨Int.natCast_nonneg _, by exact_mod_cast hc⟩
      obtain ⟨v, hv⟩ := hsized.exists_cellAt hcell
      have htotal := hsized.total
      have hbounded := hsized.bounded
      have hnext : (c + 4).toNat = c.toNat + 4 := by bv_omega
      rw [cells, hsized.cell_eq_ok hv, ok_bind, ih (by omega) (by omega)]
      rfl
    · have hout : vm.cell c = .error .memoryAccess := by
        rw [cell, if_neg]
        rw [inData, Bool.and_eq_true_iff, decide_eq_true_eq, decide_eq_true_eq]
        rintro ⟨-, hle⟩
        exact hc hle
      rw [cells, hout]
      rfl

end

theorem setCell_put {r : RegisterName} {w : Cell} (h : vm.setCell c v = .ok vm₁) :
    (vm.put r w).setCell c v = .ok (vm₁.put r w) := by
  have hsame : (vm.put r w).block.setCell? ((vm.put r w).dataStart + c.toNat) v =
    vm.block.setCell? (vm.dataStart + c.toNat) v := rfl
  unfold setCell at h ⊢
  split_ifs at h with hin
  rw [if_pos (show (vm.put r w).inData c = true from hin), hsame]
  cases hblock : vm.block.setCell? (vm.dataStart + c.toNat) v with
  | none =>
    rw [hblock] at h
    cases h
  | some block =>
    rw [hblock] at h
    cases h
    rfl

theorem nonneg_of_nativeAt {index : Cell} {native : Native} (h : vm.nativeAt index = .ok native) :
    0 ≤ index.toInt := by
  unfold nativeAt at h
  split_ifs at h with hneg
  exact Int.not_lt.mp hneg

/-- Instances of one image, in whatever state. -/
structure SameImage (vm₀ vm : Instance) : Prop where
  header : vm.header = vm₀.header
  size : vm.block.size = vm₀.block.size

/-- The records of natives end before the data segment. -/
def TablesApart (vm : Instance) : Prop := ∀ index o,
  vm.header.nativeTable.recordOffset? index = some o → o + Header.symbolLength ≤ vm.dataStart

theorem tablesApart_of_load {image : Block} (h : load image = .ok vm) : vm.TablesApart := by
  intro index o ho
  obtain ⟨header, hparse, heq⟩ := bind_eq_ok.mp h
  obtain ⟨-, -, hvalid⟩ := Header.parse_eq_ok_iff.mp hparse
  obtain ⟨hrange, -⟩ := hvalid.segments
  cases heq
  have hle := SymbolTable.recordOffset?_le ho
  have hend := hvalid.table_end (t := header.nativeTable) (by simp)
  show o + _ ≤ header.dat.toNat
  dsimp only at hle
  omega

section
variable {image : Block} {vm₀ : Instance} (himage : vm₀.SameImage vm) (hload : load image = .ok vm₀)
include himage

theorem SameImage.dataStart_eq : vm.dataStart = vm₀.dataStart := by
  rw [dataStart, dataStart, himage.header]

theorem SameImage.dataSize_eq : vm.dataSize = vm₀.dataSize := by
  rw [dataSize, dataSize, himage.header]

include hload

theorem SameImage.sized : vm.Sized := by
  have hsized := sized_of_load hload
  constructor
  · rw [himage.dataStart_eq, himage.dataSize_eq, himage.size]
    exact hsized.total
  · rw [himage.size]
    exact hsized.bounded

theorem SameImage.tablesApart : vm.TablesApart := by
  have hapart := tablesApart_of_load hload
  unfold TablesApart dataStart at hapart ⊢
  rw [himage.header]
  exact hapart

end

theorem TablesApart.nativeAt_setCell (hapart : vm.TablesApart) (h : vm.setCell c v = .ok vm₁)
    (index : Cell) : vm₁.nativeAt index = vm.nativeAt index := by
  obtain ⟨hset, -⟩ := setCellAt?_of_setCell h
  obtain ⟨-, block, hblock, rfl⟩ := setCellAt_eq_some hset
  have hhandle : nativeHandle? { vm with block } index.toNat = vm.nativeHandle? index.toNat := by
    unfold nativeHandle? SymbolTable.get?
    cases ho : vm.header.nativeTable.recordOffset? index.toNat with
    | none => rfl
    | some o =>
      have hend := hapart _ o ho
      rw [show Header.symbolLength = 8 from rfl] at hend
      have hfirst := Block.cell?_setCell?_of_apart (q := o) hblock (by omega)
      have hlast := Block.cell?_setCell?_of_apart (q := o + Cell.width) hblock
        (by rw [show Cell.width = 4 from rfl]; omega)
      simp only [Option.bind_eq_bind, Option.bind_some, hfirst, hlast]
  unfold nativeAt
  rw [hhandle]
  rfl

end Instance

/-! ## Section 2: What float natives compute -/

namespace FloatNative

/-- What a float native computes; one with a single argument ignores the second. -/
def apply : FloatNative → Cell → Cell → Cell
  | .float, x, _ => Single.ofCell x
  | .floatabs, x, _ => Single.abs x
  | .floatadd, x, y => Single.add x y
  | .floatsub, x, y => Single.sub x y
  | .floatmul, x, y => Single.mul x y
  | .floatdiv, x, y => Single.div x y
  | .floatsqroot, x, _ => Single.sqrt x
  | .floatlog, x, y => Single.log x y

theorem apply_congr (f : FloatNative) {x y y' : Cell} (h : f.arity = 2 → y = y') :
    f.apply x y = f.apply x y' := by
  cases f with
  | float | floatabs | floatsqroot => rfl
  | floatadd | floatsub | floatmul | floatdiv | floatlog => rw [h rfl]

theorem native_eq (f : FloatNative) (params : List Cell) (address : Cell) :
    f.native ⟨params, address⟩ = if f.arity < params.length then
      .done (f.apply (params.getD 1 0) (params.getD 2 0)) else .fail .params := by
  rcases params with _ | ⟨count, _ | ⟨x, _ | ⟨y, rest⟩⟩⟩
  · cases f <;> rfl
  · cases f <;> rfl
  · cases f <;> rfl
  · have hmany : f.arity < (count :: x :: y :: rest).length := by
      simp only [List.length_cons]
      cases f <;> simp only [arity] <;> omega
    rw [if_pos hmany]
    cases f <;> rfl

/-- Why a float native refuses its arguments, when their byte count lies at a data address. -/
def refusal? (f : FloatNative) (vm : Instance) (address : Nat) (count : Cell) : Option Fault :=
  if count.toInt < 0 then some .params
  else if vm.dataSize < address + Cell.width + count.toNat / Cell.width * Cell.width then
    some .memoryAccess
  else if count.toNat / Cell.width < f.arity then some .params
  else none

/-- What a float native computes from the arguments that start at a data address. -/
def value (f : FloatNative) (vm : Instance) (address : Int) : Cell :=
  f.apply (vm.cellD address) (vm.cellD (address + 4))

/-- How the call of a float native ends. -/
def ending (f : FloatNative) (vm : Instance) (address : Nat) (count : Cell) : Ending Cell :=
  match f.refusal? vm address count with
  | some fault => .fault fault
  | none => .value (f.value vm (address + 4))

/-- A float native makes no calls, so what it comes to depends on the instance alone. -/
theorem dispatches {f : FloatNative} {vm vm₁ : Instance} {block : ArgBlock} {c : CallContext}
    {index count : Cell} (henter : CallContext.enter vm block = .ok (c, vm₁))
    (hnative : vm₁.nativeAt index = .ok f.native) (hsized : vm₁.Sized)
    (hcount : vm₁.cellAt? c.address.toNat = some count) (k : Callbacks) {h : Host}
    (hh : h.vm = vm) :
    Dispatches k index block h (f.ending vm₁ c.address.toNat count) (h.setVm (c.leave vm₁)) := by
  subst hh
  have hle := (Instance.hasCell_of_cellAt hcount).2
  rw [show Cell.width = 4 from rfl] at hle
  have hparams : c.params vm₁ = if count.toInt < 0 then .error .params else
      vm₁.cells (count.toNat / Cell.width + 1) c.address := by
    rw [CallContext.params, hsized.cell_eq_ok hcount, ok_bind]
    split_ifs <;> rfl
  -- The refusals in the order in which the call looks for them: sign, extent
  -- and number of arguments.
  unfold ending refusal?
  by_cases hneg : count.toInt < 0
  · rw [if_pos hneg] at hparams ⊢
    exact .unread henter hnative hparams
  rw [if_neg hneg] at hparams ⊢
  by_cases hout :
      vm₁.dataSize < c.address.toNat + Cell.width + count.toNat / Cell.width * Cell.width
  · rw [if_pos hout]
    rw [show Cell.width = 4 from rfl] at hout
    rw [hsized.cells_eq_error (by omega) (by rw [show Cell.width = 4 from rfl]; omega)] at hparams
    exact .unread henter hnative hparams
  rw [if_neg hout]
  rw [show Cell.width = 4 from rfl] at hout
  obtain ⟨vs, hlength, hvs⟩ := hsized.exists_holds (a := c.address.toNat)
    (n := count.toNat / Cell.width + 1) (Int.natCast_nonneg _)
      (by rw [show Cell.width = 4 from rfl]; omega)
  rw [← hlength, hsized.cells_eq_ok hvs] at hparams
  have hrun := f.native_eq vs c.address
  by_cases hfew : count.toNat / Cell.width < f.arity
  · rw [if_pos hfew]
    rw [if_neg (by omega)] at hrun
    have hends : (f.native ⟨vs, c.address⟩).RunsTo k (h.setVm vm₁) (.fault .params)
        (h.setVm vm₁) := by
      rw [hrun]
      exact .fail
    exact Dispatches.ran henter hnative hparams hends
  · rw [if_neg hfew]
    rw [if_pos (by omega)] at hrun
    have hvalue : f.apply (vs.getD 1 0) (vs.getD 2 0) = f.value vm₁ (c.address.toNat + 4) := by
      have harity : 1 ≤ f.arity := by cases f <;> decide
      have hfirst := hvs.getD_eq (k := 1) (by omega)
      rw [hfirst, value]
      apply f.apply_congr
      intro htwo
      rw [hvs.getD_eq (k := 2) (by omega)]
      congr 1
    have hends : (f.native ⟨vs, c.address⟩).RunsTo k (h.setVm vm₁)
        (.value (f.value vm₁ (c.address.toNat + 4))) (h.setVm vm₁) := by
      rw [hrun, hvalue]
      exact .done
    exact Dispatches.ran henter hnative hparams hends

end FloatNative

/-! ## Section 3: The code in place of a call -/

/-- A machine that has gone on from another one of the same activation and now holds the instance
    `vm`. -/
structure Machine.Proceeds (m m' : Machine) (vm : Instance) : Prop where
  spilled : m'.spilled = vm
  kept : ∀ r ∈ [.rsp, .rbp, call, data], m'.reg r = m.reg r
  stack : m.host.stack.Agrees m.nativeWords m'.host.stack

namespace Machine

variable {m m' : Machine} {first : Nat} {f : FloatNative} {x y : Cell}

theorem Becomes.proceeds (hm : Becomes [pri] m.host m m') :
    m.Proceeds m' (m.spilled.put .pri (m'.reg32 pri)) := by
  have hreg : ∀ r, r ≠ pri → m'.reg32 r = m.reg32 r := fun r hr =>
    congrArg (BitVec.setWidth 32) (hm.regs r (by simpa using hr))
  refine ⟨?_, ?_, ?_⟩
  · rw [Machine.spilled, hm.host, hreg alt (by decide), hreg stk (by decide), hreg frm (by decide),
      hreg data (by decide)]
    rfl
  · intro r hr
    apply hm.regs
    revert r
    decide
  · rw [hm.host]
    exact .refl _ _

/-- The work of a float native in place of a call, unless it takes a logarithm. -/
theorem execLines_inPlace (hf : f ≠ .floatlog) (hx : m.Reads (FloatNative.argument first 0) x)
    (hy : f.arity = 2 → m.Reads (FloatNative.argument first 1) y) :
    ∃ m', execLines (f.lines first) m = .ok m' ∧ Becomes [pri] m.host m m' ∧
      m'.reg32 pri = f.apply x y := by
  -- An operation with its operand in memory leaves its result in a lane.
  have hfloat : ∀ {m : Machine} {o : Mem} {v : Cell} (op : FloatOp), m.Reads o v →
      m.exec (.float op 0 o) = .ok { m with xmm := m.xmm.set 0 (floatResult op (m.xmm.get 0) v) } :=
    fun op h => h.bind _
  -- From there it goes to the primary register.
  have hmove : ∀ (xmm : XmmFile) (v : Cell), ∃ m', execLines [.op (.movdRX pri 0)]
      { m with xmm := xmm.set 0 v } = .ok m' ∧ Becomes [pri] m.host m m' ∧ m'.reg32 pri = v := by
    intro xmm v
    refine ⟨_, rfl, ⟨rfl, fun r hr => RegFile.get_set_ne _ _ (by simpa using hr), rfl⟩, ?_⟩
    rw [reg32_setReg32_self]
    exact XmmFile.get_set_self ..
  have hunary : ∀ op : FloatOp, ∃ m', execLines [.op (.float op 0 (FloatNative.argument first 0)),
      .op (.movdRX pri 0)] m = .ok m' ∧ Becomes [pri] m.host m m' ∧
        m'.reg32 pri = floatResult op (m.xmm.get 0) x := by
    intro op
    rw [execLines_cons (hfloat op hx)]
    exact hmove _ _
  have hbinary : ∀ op : FloatOp, f.arity = 2 →
      ∃ m', execLines (FloatNative.binaryLines op first) m = .ok m' ∧
      Becomes [pri] m.host m m' ∧ m'.reg32 pri = floatResult op x y := by
    intro op htwo
    let m₁ : Machine := { m with xmm := m.xmm.set 0 x }
    have hload : m.exec (.movss 0 (FloatNative.argument first 0)) = .ok m₁ := hx.bind _
    have hy₁ : m₁.Reads (FloatNative.argument first 1) y := hy htwo
    have hlane : m₁.xmm.get 0 = x := XmmFile.get_set_self ..
    rw [FloatNative.binaryLines, execLines_cons hload, execLines_cons (hfloat op hy₁), hlane]
    exact hmove _ _
  cases f with
  | float => exact hunary .ofCell
  | floatsqroot => exact hunary .sqrt
  | floatadd => exact hbinary .add rfl
  | floatsub => exact hbinary .sub rfl
  | floatmul => exact hbinary .mul rfl
  | floatdiv => exact hbinary .div rfl
  | floatlog => exact absurd rfl hf
  | floatabs =>
    have hload : m.exec (.load .d pri (FloatNative.argument first 0)) = .ok (m.setReg32 pri x) :=
      hx.bind _
    rw [FloatNative.lines, execLines_cons hload]
    refine ⟨_, rfl, ?_, ?_⟩
    · exact (((Becomes.refl _ m).setReg (by decide) _).setFlags _).setReg (by decide) _
    · show ((m.setReg32 pri x).alu32 .and pri 0x7FFFFFFF).reg32 pri = _
      rw [alu32, if_pos (show Alu.and.stores = true from rfl), reg32_setReg32_self,
        reg32_setReg32_self]
      rfl

/-- A cell of the block is read by every machine with the same block and the same base register. -/
theorem Reads.congr {o : Mem} {v : Cell} (h : m.Reads o v) (hplain : o.index = none)
    (hbase : pointsInto o.base = .block) (hlayout : m'.layout = m.layout)
    (hreg : m'.reg o.base = m.reg o.base) (hblock : m'.host.vm.block = m.host.vm.block) :
      m'.Reads o v := by
  obtain ⟨w, hoperand, hload⟩ := bind_eq_ok.mp h
  obtain ⟨haddress, place, hplace, hregion⟩ := operand_eq_ok.mp hoperand
  obtain ⟨d, rfl⟩ : ∃ d, place = .block d := by
    rw [hbase] at hregion
    cases place with
    | block d => exact ⟨d, rfl⟩
    | file d | stack d => cases hregion
  have haddress' : m'.address o = w := by
    rw [← haddress, address, address, hplain, hreg]
  have hplace' : m'.host.place? m'.layout w = some (.block d) := by
    rw [← hplace, Host.place?, Host.place?, hblock, hlayout]
  have hload := reached_eq_ok.mp hload
  rw [Host.load32_block hplace, ← hblock, ← Host.load32_block hplace'] at hload
  rw [Reads, operand_eq_ok.mpr ⟨haddress', _, hplace', hregion⟩, ok_bind]
  exact reached_eq_ok.mpr hload

theorem execLines_logArgs (hx : m.Reads (FloatNative.argument first 0) x)
    (hy : m.Reads (FloatNative.argument first 1) y) :
    ∃ m', execLines (logArgs first) m = .ok m' ∧ m'.xmm.get 0 = x ∧ m'.xmm.get 1 = y := by
  let m₁ : Machine := { m with xmm := m.xmm.set 0 x }
  have hfirst : m.exec (.movss 0 (FloatNative.argument first 0)) = .ok m₁ := hx.bind _
  have hy₁ : m₁.Reads (FloatNative.argument first 1) y := hy
  have hlast : m₁.exec (.movss 1 (FloatNative.argument first 1)) =
    .ok { m₁ with xmm := m₁.xmm.set 1 y } := hy₁.bind _
  refine ⟨_, (execLines_cons hfirst).trans (execLines_cons hlast), ?_, XmmFile.get_set_self ..⟩
  exact (XmmFile.get_set_ne _ _ (by decide)).trans (XmmFile.get_set_self ..)

theorem Inside.reads_argument {env : Environment} {K : Instance → Instance → Prop} {a : Activation}
    {rets : List Word} {s v : Cell} {n : Nat} (hK : Steady K) (h : m.Inside env K a rets)
    (hsized : m.host.vm.Sized) (hstk : m.HasStk s) (hsmall : first + 4 * n < 0x80000000)
    (hcell : m.host.vm.cellAt? (s.toNat + first + 4 * n) = some v) :
    m.Reads (FloatNative.argument first n) v := by
  refine h.reads_cell hK hsized ?_ rfl hcell
  have hdisp : (BitVec.ofNat 32 (first + 4 * n)).toInt = first + 4 * n := by
    rw [BitVec.toInt_eq_toNat_of_lt, BitVec.toNat_ofNat]
    · omega
    · rw [BitVec.toNat_ofNat]
      omega
  have hwide : s.setWidth 64 = BitVec.ofInt 64 s.toNat := by
    rw [BitVec.ofInt_natCast, BitVec.ofNat_toNat]
  show m.reg stk + (BitVec.ofNat 32 (first + 4 * n)).signExtend 64 = _
  rw [hstk, BitVec.signExtend, hdisp, hwide, BitVec.add_assoc, ← BitVec.ofInt_add, Int.add_assoc]

end Machine

namespace Environment

variable {env : Environment} {ctx : Context} {is : List Instruction} {size : Nat}
  {K : Instance → Instance → Prop} {m : Machine} {a : Activation} {rets : List Word} {first o : Nat}
  {ls : List Line} {f : FloatNative} {x y : Cell}

/-- A bound on the steps that the code of an instruction takes that calls a float native. -/
def siteSteps : Nat := 64

/-- **Run.** With room on the native stack the logarithm is taken. -/
theorem Ready.reaches_log (hr : env.Ready ctx is size) (hK : Steady K)
    (hsize : a.host.vm.block.size = size)
    (hat : LinesFrom ctx is o (FloatNative.lines .floatlog first ++ ls)) (h : m.Home env K a rets)
    (hroom : 8 * (a.top rets + 4) ≤ env.layout.stackSize)
    (hx : m.Reads (FloatNative.argument first 0) x)
    (hy : m.Reads (FloatNative.argument first 1) y) :
    ∃ m', (∀ n, env.Reaches (n + ((FloatNative.lines .floatlog first).length + 1), m.atOffset o)
        (n, m'.atOffset (o + linesSize (FloatNative.lines .floatlog first)))) ∧
      m.Carries m' (a.top rets + 1) (m.spilled.put .pri (Single.log x y)) ∧
      m'.layout = env.layout := by
  rw [logLines_eq] at hat ⊢
  rw [List.append_assoc] at hat
  -- The arguments are read after the registers were stored, from the same block.
  have hargs : ∀ {m₁ : Machine} {s : NativeStack},
      Machine.Becomes [.rdx, .rsi, .rbp, .rsp] { m.host with vm := m.spilled, stack := s } m m₁ →
      ∃ m₂, Machine.execLines (logArgs first) m₁ = .ok m₂ ∧ m₂.xmm.get 0 = x ∧
        m₂.xmm.get 1 = y := by
    intro m₁ s hm₁
    have hblock : m₁.host.vm.block = m.host.vm.block := by
      rw [hm₁.host]
      rfl
    have hstk : m₁.reg stk = m.reg stk := hm₁.regs _ (by decide)
    exact Machine.execLines_logArgs (hx.congr rfl rfl hm₁.layout hstk hblock)
      (hy.congr rfl rfl hm₁.layout hstk hblock)
  rcases hr.goes_helper hK hsize .floatLog (setsArguments_log first) hat h with
    ⟨m₁, hgoes, hrip, hcalls⟩ | ⟨⟨j, -, hnear, -, hfull⟩ | ⟨m₁, s, e, hm₁, he⟩, -⟩
  case inr.inl => omega
  case inr.inr =>
    obtain ⟨m₂, hm₂, -⟩ := hargs hm₁
    rw [hm₂] at he
    cases he
  obtain ⟨j, hdoor⟩ := hcalls.door
  obtain ⟨m₂, m₃, s, hexec, hm₂, -, hxmm⟩ := hcalls.arguments
  obtain ⟨m₃', hexec', hfirst, hlast⟩ := hargs hm₂
  obtain rfl := Except.ok.inj (hexec.symm.trans hexec')
  obtain ⟨m₄, hhelp, hback, hhost, hlog⟩ :=
    hr.help_log (k := env.callbacks (env.run 0) m₁.regs) hK hsize hdoor
  rw [hxmm, hfirst, hlast] at hlog
  -- Back from the helper the result goes to the primary register.
  obtain ⟨m₆, hend, hm₆⟩ := hr.goes_logged hK hsize hat.drop hback.toFramed
  let m₅ := m₄.setReg32 pri (m₄.xmm.get 0)
  rw [hback.atOffset, Nat.add_assoc, ← linesSize_append] at hend
  refine ⟨m₆, fun n => ?_, ?_, hm₆.inside.layout⟩
  · obtain ⟨k, hk⟩ : ∃ k, k = (.op (.movdRX pri 0) :: resume : List Line).length := ⟨_, rfl⟩
    have hhelp : env.help (env.callbacks (env.run (n + k)) m₁.regs) .floatLog m₁ = .ok m₄ := hhelp
    have hstep : env.Step (n + k + 1, m₁) (n + k, m₄) :=
      .helper (hr.between_helper hrip hdoor.toAligned).host (by rw [hrip]; rfl) hhelp
    rw [← hk] at hend
    have hwhole := (hgoes.reaches _).trans (.head hstep (hend.reaches n))
    rw [List.length_append, ← hk, Nat.add_right_comm _ k, ← Nat.add_assoc n]
    rwa [show n + k + 1 + (suspend ++ logArgs first ++ callHelper .floatLog).length =
      n + ((suspend ++ logArgs first ++ callHelper .floatLog).length + 1) + k by omega] at hwhole
  · have hvm : m₅.host.vm.put .pri (m₅.reg32 pri) = m.spilled.put .pri (Single.log x y) := by
      rw [show m₅.reg32 pri = m₄.xmm.get 0 from Machine.reg32_setReg32_self .., hlog,
        ← hcalls.vm, ← hhost]
      rfl
    have hstack : m.host.stack.Agrees (a.top rets + 1) m₅.host.stack := by
      show m.host.stack.Agrees _ m₄.host.stack
      rw [hhost]
      exact hcalls.stack
    rw [← hvm]
    exact hm₆.carries h hstack

/-- **Run.** The code in place of a call leaves what the native computes in the primary register. -/
theorem Ready.reaches_inPlace (hr : env.Ready ctx is size) (hK : Steady K)
    (hsize : a.host.vm.block.size = size) (hat : LinesFrom ctx is o (f.lines first ++ ls))
    (h : m.Home env K a rets) (hroom : 8 * (a.top rets + 4) ≤ env.layout.stackSize) {s : Cell}
    (hstk : m.HasStk s) (hx : m.Reads (FloatNative.argument first 0) x)
    (hy : f.arity = 2 → m.Reads (FloatNative.argument first 1) y) :
    ∃ k m', k < siteSteps ∧
      (∀ n, env.Reaches (n + k, m.atOffset o) (n, m'.atOffset (o + linesSize (f.lines first)))) ∧
      m.Proceeds m' (m.spilled.put .pri (f.apply x y)) ∧ m'.HasStk s ∧ m'.layout = env.layout := by
  have hwords : m.nativeWords = a.top rets + 1 := by
    rw [h.nativeWords hr.separate.bounded, Activation.top]
    omega
  -- Only the logarithm needs a helper; the other natives are straight lines of code.
  by_cases hf : f = .floatlog
  · subst hf
    obtain ⟨m', hreaches, hm', hlayout⟩ := hr.reaches_log hK hsize hat h hroom hx (hy rfl)
    have hstack := hm'.stack
    rw [← hwords] at hstack
    have hstk' : m'.HasStk s := by
      have hkept : m'.reg data = m.reg data := hm'.kept data (by decide)
      have htop : (m.spilled.put .pri (Single.log x y)).regs.stk = s := hstk.spilled
      rw [Machine.HasStk, hm'.stk, htop, hkept]
    refine ⟨_, m', ?_, hreaches, ⟨hm'.spilled, hm'.kept, hstack⟩, hstk', hlayout⟩
    show (FloatNative.lines .floatlog 0).length + 1 < siteSteps
    decide
  · obtain ⟨m', hexec, hm', hpri⟩ := Machine.execLines_inPlace hf hx hy
    have hlength : (f.lines first).length < siteSteps ∧ (f.lines first).all Line.isStep ∧
        f.lines first ≠ [] := by
      cases f with
      | floatlog => exact absurd rfl hf
      | float | floatabs | floatadd | floatsub | floatmul | floatdiv | floatsqroot =>
        exact ⟨by show _ < 64; simp [FloatNative.lines, FloatNative.binaryLines], rfl,
          List.cons_ne_nil _ _⟩
    obtain ⟨hlength, hsteps, hne⟩ := hlength
    have hlines := hr.goes_lines _ hne hsteps hat h.layout hexec
    refine ⟨_, m', hlength, hlines.reaches, ?_, hstk.becomes hm' (by decide),
      hm'.layout.trans h.layout⟩
    rw [← hpri]
    exact hm'.proceeds

end Environment

end PawnNative
