import Mathlib.Tactic.Common
import PawnNative.Proofs.Representation
import PawnNative.Proofs.Walk

/-! # Leaving an activation

    An activation is left in one of four ways: the function that the entry called
    returns, the program halts, an instruction finds a fault, or a helper has noted
    one in the record of the call. All of them come to the same code, which stores
    stack and frame in the register file, restores the registers of the host and
    returns to it. Nothing of this can fail inside an activation.
-/

namespace PawnNative

open X64 Convention

/-! ## Section 1: Changes of registers and host -/

/-- One machine has become another one with this host; registers other than these are the same. -/
structure Machine.Becomes (ws : List Reg) (h : Host) (m m' : Machine) : Prop where
  layout : m'.layout = m.layout
  regs : ∀ r, r ∉ ws → m'.reg r = m.reg r
  host : m'.host = h

/-- The host with stack and frame in the register file. -/
def Machine.leftHost (m : Machine) : Host :=
  let vm := m.host.vm.put .stk (m.reg32 stk - m.reg32 data)
  { m.host with vm := vm.put .frm (m.reg32 frm - m.reg32 data) }

namespace Machine

variable {m m' m'' : Machine} {ws : List Reg} {h h' : Host}

namespace Becomes

theorem refl (ws : List Reg) (m : Machine) : Becomes ws m.host m m := ⟨rfl, fun _ _ => rfl, rfl⟩

theorem trans (hfirst : Becomes ws h m m') (hlast : Becomes ws h' m' m'') : Becomes ws h' m m'' :=
  ⟨hlast.layout.trans hfirst.layout, fun r hr => (hlast.regs r hr).trans (hfirst.regs r hr),
    hlast.host⟩

theorem mono {ws' : List Reg} (hm : Becomes ws h m m') (hws : ∀ r ∈ ws, r ∈ ws') :
    Becomes ws' h m m' :=
  ⟨hm.layout, fun r hr => hm.regs r fun hmem => hr (hws r hmem), hm.host⟩

variable (hm : Becomes ws h m m')
include hm

theorem setReg {r : Reg} (hr : r ∈ ws) (v : Word) :
    Becomes ws h m (m'.setReg r v) := by
  refine ⟨hm.layout, ?_, hm.host⟩
  intro s hs
  have hne : s ≠ r := fun heq => hs (heq ▸ hr)
  rw [← hm.regs s hs]
  exact RegFile.get_set_ne _ _ hne

theorem setFlags (f : Flags) : Becomes ws h m (m'.setFlags f) :=
  ⟨hm.layout, hm.regs, hm.host⟩

theorem setHost (h' : Host) : Becomes ws h' m (m'.setHost h') :=
  ⟨hm.layout, hm.regs, rfl⟩

end Becomes

/-- A register becomes the data address of the place that another one points at. -/
theorem execLines_relative (dst abs : Reg) (hdst : dst ≠ Convention.data) (m : Machine) :
    ∃ m', execLines (relative dst abs) m = .ok m' ∧ Becomes [dst] m.host m m' ∧
      m'.reg dst = (m.reg32 abs - m.reg32 Convention.data).setWidth 64 := by
  have hdata : (m.setReg32 dst (m.reg32 abs)).reg32 Convention.data = m.reg32 Convention.data :=
    congrArg (BitVec.setWidth 32) (RegFile.get_set_ne _ _ (Ne.symm hdst))
  have hmem : dst ∈ [dst] := List.mem_singleton_self dst
  refine ⟨(m.setReg32 dst (m.reg32 abs)).alu32 .sub dst (m.reg32 Convention.data), ?_, ?_, ?_⟩
  · rw [relative, execLines_cons rfl]
    refine (execLines_cons ?_).trans rfl
    show Except.ok (alu32 _ .sub dst ((m.setReg32 dst (m.reg32 abs)).reg32 Convention.data)) = _
    rw [hdata]
  · exact (((Becomes.refl [dst] m).setReg hmem _).setFlags _).setReg hmem _
  · show ((setFlags _ _).setReg32 dst _).reg dst = _
    rw [reg32_setReg32_self]
    exact RegFile.get_set_self ..

variable {l : Layout} {code : Nat} (hm : m.layout = l) (hs : l.Separate m.host.vm.block.size code)
  (hfile : m.reg .rdx = l.file)
include hm hs hfile

/-- The register file gets the data address of the place that a register points at. -/
theorem execLines_storeRelative (r : RegisterName) (abs : Reg) :
    ∃ m', execLines (storeRelative r abs) m = .ok m' ∧ Becomes [.rsi]
      { m.host with vm := m.host.vm.put r (m.reg32 abs - m.reg32 Convention.data) } m m' := by
  obtain ⟨m₁, hrelative, hm₁, hrsi⟩ := execLines_relative .rsi abs (by decide) m
  have hs₁ : l.Separate m₁.host.vm.block.size code := by
    rw [hm₁.host]
    exact hs
  have hstore := exec_storeSaved (hm₁.layout.trans hm) hs₁
    (by rw [hm₁.regs _ (by decide), hfile]) r .rsi
  refine ⟨_, (execLines_append_ok hrelative).trans (execLines_cons hstore), ?_⟩
  rw [hm₁.host, reg32_eq hrsi]
  exact hm₁.setHost _

/-- A register points at the place whose data address is in the register file. -/
theorem execLines_loadAbsolute (abs : Reg)
    (habs : abs ≠ Convention.data) (r : RegisterName) :
    ∃ m', execLines (loadAbsolute abs r) m = .ok m' ∧ Becomes [abs] m.host m m' ∧
      m'.reg abs = m.reg Convention.data + (m.host.vm.regs.get r).setWidth 64 := by
  have hmem : abs ∈ [abs] := List.mem_singleton_self abs
  have hload := exec_loadSaved hm hs hfile r abs
  refine ⟨_, (execLines_cons hload).trans (execLines_cons rfl), ?_, ?_⟩
  · exact (((Becomes.refl [abs] m).setReg hmem _).setFlags _).setReg hmem _
  · refine (RegFile.get_set_self ..).trans ?_
    show (m.setReg32 abs _).reg abs + (m.setReg32 abs _).reg Convention.data = _
    rw [BitVec.add_comm]
    refine congr (congrArg _ (RegFile.get_set_ne _ _ (Ne.symm habs))) ?_
    exact RegFile.get_set_self ..

theorem execLines_storeFrames :
    ∃ m', execLines (storeRelative .stk stk ++ storeRelative .frm frm) m = .ok m' ∧
      Becomes [.rsi] m.leftHost m m' := by
  obtain ⟨m₁, hstk, hm₁⟩ := execLines_storeRelative hm hs hfile .stk stk
  have hs₁ : l.Separate m₁.host.vm.block.size code := by
    rw [hm₁.host]
    exact hs
  obtain ⟨m₂, hfrm, hm₂⟩ := execLines_storeRelative (hm₁.layout.trans hm) hs₁
    (by rw [hm₁.regs _ (by decide), hfile]) .frm frm
  refine ⟨m₂, (execLines_append_ok hstk).trans hfrm, ?_⟩
  have hsame : ∀ r, r ∉ [Reg.rsi] → m₁.reg32 r = m.reg32 r :=
    fun r hr => congrArg (BitVec.setWidth 32) (hm₁.regs r hr)
  rw [hm₁.host, hsame frm (by decide), hsame data (by decide)] at hm₂
  exact hm₁.trans hm₂

theorem execLines_loadFrames :
    ∃ m', execLines (loadAbsolute stk .stk ++ loadAbsolute frm .frm) m = .ok m' ∧
      Becomes [stk, frm] m.host m m' ∧
      m'.reg stk = m.reg data + m.host.vm.regs.stk.setWidth 64 ∧
      m'.reg frm = m.reg data + m.host.vm.regs.frm.setWidth 64 := by
  obtain ⟨m₁, hstk, hm₁, hreg₁⟩ := execLines_loadAbsolute hm hs hfile stk (by decide) .stk
  have hs₁ : l.Separate m₁.host.vm.block.size code := by
    rw [hm₁.host]
    exact hs
  obtain ⟨m₂, hfrm, hm₂, hreg₂⟩ := execLines_loadAbsolute (hm₁.layout.trans hm) hs₁
    (by rw [hm₁.regs _ (by decide), hfile]) frm (by decide) .frm
  rw [hm₁.host] at hm₂ hreg₂
  refine ⟨m₂, (execLines_append_ok hstk).trans hfrm, ?_, ?_, ?_⟩
  · exact (hm₁.mono (by decide)).trans (hm₂.mono (by decide))
  · rw [hm₂.regs _ (by decide), hreg₁]
    rfl
  · rw [hreg₂, hm₁.regs _ (by decide)]
    rfl

omit hfile in
theorem execLines_pops {j : Nat} {f : Reg → Word} (rs : List Reg) (hnodup : rs.Nodup)
    (hrs : Reg.rsp ∉ rs) (hrsp : m.reg .rsp = l.slot (j + rs.length))
    (hroom : 8 * (j + rs.length + 1) ≤ l.stackSize)
    (hholds : m.host.stack.Holds (j + 1) (rs.reverse.map f)) :
    ∃ m', execLines (rs.map fun r => .op (.pop r)) m = .ok m' ∧ Becomes (.rsp :: rs) m.host m m' ∧
      m'.reg .rsp = l.slot j ∧ ∀ r ∈ rs, m'.reg r = f r := by
  induction rs generalizing m with
  | nil => exact ⟨m, rfl, .refl _ m, hrsp, by simp⟩
  | cons r rs ih =>
    rw [List.nodup_cons] at hnodup
    rw [List.mem_cons, not_or] at hrs
    rw [List.length_cons] at hrsp hroom
    rw [List.reverse_cons, List.map_append] at hholds
    have hlast : m.host.stack.word (j + rs.length + 1) = f r := by
      have hlast := hholds.last
      rw [List.length_map, List.length_reverse] at hlast
      rwa [show j + 1 + rs.length = j + rs.length + 1 by omega] at hlast
    -- The last word is the one of the first register.
    let m₁ := (m.setReg .rsp (l.slot (j + rs.length))).setReg r (f r)
    have hpop : m.exec (.pop r) = .ok m₁ := by
      show (m.pop >>= _) = _
      rw [pop_slot (j := j + rs.length) hm hs hrsp (by omega), hlast]
      rfl
    have hrsp₁ : m₁.reg .rsp = l.slot (j + rs.length) := RegFile.get_set_ne _ _ hrs.1
    obtain ⟨m', hexec, hm', hrsp', hregs⟩ := ih (m := m₁) hm hs hnodup.2 hrs.2 hrsp₁ (by omega)
      hholds.init
    refine ⟨m', (execLines_cons hpop).trans hexec, ?_, hrsp', ?_⟩
    · have hfirst : Becomes (.rsp :: r :: rs) m.host m m₁ :=
        ((Becomes.refl _ m).setReg (by simp) _).setReg (by simp) _
      refine hfirst.trans (hm'.mono ?_)
      intro s hs
      rcases List.mem_cons.mp hs with rfl | hs
      · exact List.mem_cons_self
      · exact List.mem_cons_of_mem _ (List.mem_cons_of_mem _ hs)
    · intro s hs
      rcases List.mem_cons.mp hs with rfl | hs
      · rw [hm'.regs s (by simp [Ne.symm hrs.1, hnodup.1])]
        exact RegFile.get_set_self ..
      · exact hregs s hs

end Machine

/-! ## Section 2: The code for leaving -/

section
variable (ctx : Context) (is : List Instruction)

/-- Stores stack and frame and restores the registers of the host. -/
def restoreLines : List Line :=
  loadFile .rdx :: ((storeRelative .stk stk ++ storeRelative .frm frm) ++
    .op (.aluRI .add .q .rsp 8) :: hostRegs.reverse.map (fun r => .op (.pop r)))

/-- The steps from the code for leaving to the host. -/
def leaveSteps : Nat := 1 + restoreLines.length

theorem leaveLines_eq : leaveLines = .place (.stub .leave) :: (restoreLines ++ [.op .ret]) := rfl

theorem linesFrom_leave :
    ∃ rest, LinesFrom ctx is (linesSize entryLines) (leaveLines ++ haltLines ++ rest) := by
  obtain ⟨rest, hat⟩ := linesFrom_prologue ctx is
  rw [prologue, List.append_assoc, List.append_assoc, ← List.append_assoc leaveLines] at hat
  have hdrop := hat.drop
  rw [Nat.zero_add] at hdrop
  exact ⟨rest, hdrop⟩

theorem linesFrom_halt :
    ∃ rest, LinesFrom ctx is (linesSize entryLines + linesSize leaveLines) (haltLines ++ rest) := by
  obtain ⟨rest, hat⟩ := linesFrom_leave ctx is
  rw [List.append_assoc] at hat
  exact ⟨rest, hat.drop⟩

theorem linesFrom_back :
    ∃ rest, LinesFrom ctx is (linesSize (entryLines.take 18)) (entryLines.drop 18 ++ rest) := by
  obtain ⟨rest, hat⟩ := linesFrom_prologue ctx is
  rw [prologue, ← List.take_append_drop 18 entryLines, List.append_assoc, List.append_assoc,
    List.append_assoc] at hat
  have hdrop := hat.drop
  rw [Nat.zero_add] at hdrop
  exact ⟨_, hdrop⟩

end

/-- A machine that is back at the host after an activation. -/
structure Machine.Returned (m : Machine) (env : Environment) (K : Instance → Instance → Prop)
    (a : Activation) : Prop where
  layout : m.layout = env.layout
  rip : m.rip = env.layout.hostReturn
  steady : K a.host.vm m.host.vm
  rsp : m.reg .rsp = env.layout.slot (a.base + 4)
  regs : ∀ r ∈ hostRegs, m.reg r = a.regs.get r
  outer : a.host.stack.Agrees a.base m.host.stack

/-- The ways out of an activation. -/
inductive Way where
  /-- The function that the entry called returns. -/
  | back
  /-- The program halts. -/
  | halt (code : Cell)
  /-- An instruction finds a fault. -/
  | fault (f : Fault)
  /-- A helper has noted a fault in the record of the call. -/
  | pending
  deriving DecidableEq, Repr

/-- The status that the host gets from a machine that leaves the activation of a record. -/
def Way.status (x : Machine) (record : Word) : Way → Except Crash Cell
  | .back => .ok 0
  | .halt code => .ok code
  | .fault f => .ok f.code
  | .pending => x.recordCell record .error

/-- Whether the host finds a result in the record. -/
def Way.hasResult : Way → Bool
  | .back | .halt _ => true
  | .fault _ | .pending => false

/-- A machine at the start of a way out. -/
inductive Environment.AtExit (env : Environment) (ctx : Context) (is : List Instruction)
    (x : Machine) : Way → Prop where
  | back (hrip : x.rip = env.back) : AtExit env ctx is x .back
  | halt {t code : Cell} {o : Nat} {ls : List Line}
      (hat : LinesFrom ctx is o (.place (.code t) :: (Template.haltWith code ++ ls)))
      (hrip : x.rip = env.layout.code + BitVec.ofNat 64 o) : AtExit env ctx is x (.halt code)
  | fault {f : Fault} {o : Nat} {ls : List Line} (hat : LinesFrom ctx is o (faultLines f ++ ls))
      (hrip : x.rip = env.layout.code + BitVec.ofNat 64 o) : AtExit env ctx is x (.fault f)
  | pending (hrip : x.rip = env.pending) : AtExit env ctx is x .pending

/-- A machine `x` takes a way out of the activation of a record, and the host finds `r`. -/
structure Environment.Exit (env : Environment) (ctx : Context) (is : List Instruction)
    (record : Word) (way : Way) (x r : Machine) : Prop where
  start : env.AtExit ctx is x way
  vm : r.host.vm = x.leftHost.vm
  status : way.status x record = .ok (r.reg32 .rax)
  result : way.hasResult → r.recordCell record .retval = .ok (x.reg32 pri)
  noted : way = .pending → ∃ f : Fault, r.reg32 .rax = f.code

/-- A machine `x` leaves an activation and comes back to the host as `r`. -/
structure Environment.Leaves (env : Environment) (ctx : Context) (is : List Instruction)
    (K : Instance → Instance → Prop) (a : Activation) (way : Way) (x r : Machine) : Prop where
  returned : r.Returned env K a
  exit : env.Exit ctx is (env.layout.slot (a.base + 4)) way x r

/-- A machine leaves an activation in `k` steps, however many it may take. -/
structure Environment.Departs (env : Environment) (ctx : Context) (is : List Instruction)
    (K : Instance → Instance → Prop) (a : Activation) (way : Way) (k : Nat) (x r : Machine) : Prop
    extends env.Leaves ctx is K a way x r where
  goes : env.Goes (env.Between ctx is) k x r

namespace Environment.Ready

variable {env : Environment} {ctx : Context} {is : List Instruction} {size : Nat}
  (hr : env.Ready ctx is size) {K : Instance → Instance → Prop} (hK : Steady K) {m : Machine}
  {a : Activation} {rets : List Word} (hsize : a.host.vm.block.size = size)
  (h : m.Inside env K a rets) {o : Nat} {ls : List Line}
include hr hK hsize h

theorem separate_of_inside :
    env.layout.Separate m.host.vm.block.size env.program.code.size := by
  rw [h.size hK, hsize]
  exact hr.separate

theorem exec_loadFile (dst : Reg) :
    m.exec (.load .q dst (field .regs)) = .ok (m.setReg dst env.layout.file) := by
  have hroom := h.room
  have hfile : m.host.stack.word (a.base + 3) = env.layout.file := h.words.tail.head
  rw [← hfile]
  exact Machine.exec_loadField (k := 1) h.layout (hr.separate_of_inside hK hsize h)
    .regs h.record rfl (by omega) dst

omit hK hsize h in
theorem placed_leave :
    (Plan.ofProgram ctx is).placed (.stub .leave) = some (linesSize entryLines) := by
  obtain ⟨rest, hat⟩ := linesFrom_leave ctx is
  obtain ⟨k, hplace⟩ := hr.finishes.stands hat
  exact hplace

theorem execLines_restore (hrsp : m.reg .rsp = env.layout.slot (a.base + 12)) :
    ∃ m', Machine.execLines restoreLines m = .ok m' ∧ m'.layout = env.layout ∧
      m'.host = m.leftHost ∧ m'.reg .rsp = env.layout.slot (a.base + 5) ∧
      (∀ r ∈ hostRegs, m'.reg r = a.regs.get r) ∧ m'.reg .rax = m.reg .rax := by
  have hs := hr.separate_of_inside hK hsize h
  have hroom := h.room
  have hload := hr.exec_loadFile hK hsize h .rdx
  obtain ⟨m₁, hstore, hm₁⟩ := Machine.execLines_storeFrames (m := m.setReg .rdx env.layout.file)
    h.layout hs rfl
  -- The stack pointer goes to the last register of the host.
  let m₂ := m₁.alu64 .add .rsp ((8 : Cell).signExtend 64)
  have hm₂ : Machine.Becomes [.rdx, .rsi, .rsp] m.leftHost m m₂ := by
    have hfirst := (Machine.Becomes.refl [.rdx, .rsi, .rsp] m).setReg (r := .rdx) (by decide)
      env.layout.file
    exact ((hfirst.trans (hm₁.mono (by decide))).setFlags _).setReg (by decide) _
  have hrsp₂ : m₂.reg .rsp = env.layout.slot (a.base + 5 + 6) := by
    show m₁.reg .rsp + 8 = _
    rw [hm₁.regs _ (by decide)]
    show m.reg .rsp + 8 = _
    rw [hrsp]
    exact env.layout.slot_add (a.base + 11) 1
  have hregs : m₂.host.stack.Holds (a.base + 5 + 1) (hostRegs.reverse.reverse.map a.regs.get) := by
    rw [hm₂.host]
    exact h.words.drop
  have hs₂ : env.layout.Separate m₂.host.vm.block.size env.program.code.size := by
    rw [hm₂.host]
    exact hs
  obtain ⟨m₃, hpops, hm₃, hrsp₃, hregs₃⟩ := Machine.execLines_pops (hm₂.layout.trans h.layout) hs₂
    hostRegs.reverse (by decide) (by decide) hrsp₂ (by show 8 * (a.base + 5 + 6 + 1) ≤ _; omega)
      hregs
  refine ⟨m₃, ?_, hm₃.layout.trans (hm₂.layout.trans h.layout), hm₃.host.trans hm₂.host, hrsp₃, ?_,
    ?_⟩
  · exact (Machine.execLines_cons hload).trans ((Machine.execLines_append_ok hstore).trans
      ((Machine.execLines_cons rfl).trans hpops))
  · intro r hmem
    exact hregs₃ r (List.mem_reverse.mpr hmem)
  · rw [hm₃.regs _ (by decide), hm₂.regs _ (by decide)]

/-- **Leaving.** From the code for leaving a machine comes back to the host. -/
theorem goes_leave (hrsp : m.reg .rsp = env.layout.slot (a.base + 12)) :
    ∃ m', env.Goes (env.Between ctx is) leaveSteps (m.atOffset (linesSize entryLines)) m' ∧
      m'.Returned env K a ∧ m'.host = m.leftHost ∧ m'.reg .rax = m.reg .rax := by
  obtain ⟨rest, hat⟩ := linesFrom_leave ctx is
  have hat : LinesFrom ctx is (linesSize entryLines)
      (restoreLines ++ (.op .ret :: (haltLines ++ rest))) := by
    rw [leaveLines_eq, List.append_assoc, List.cons_append, List.append_assoc] at hat
    exact hat.tail
  obtain ⟨m₁, hexec, hlayout, hhost, hrsp₁, hregs, hrax⟩ := hr.execLines_restore hK hsize h hrsp
  -- The return leads to the host.
  have hs : env.layout.Separate m₁.host.vm.block.size env.program.code.size := by
    rw [hhost]
    exact hr.separate_of_inside hK hsize h
  have hroom := h.room
  have hback : m₁.host.stack.word (a.base + 5) = env.layout.hostReturn := by
    rw [hhost]
    exact h.words.tail.tail.tail.head
  obtain ⟨k, hread⟩ := hr.finishes.stands hat.drop
  have hret : (m₁.atOffset (linesSize entryLines + linesSize restoreLines + 1)).exec .ret =
      .ok ((m₁.setReg .rsp (env.layout.slot (a.base + 4))).jumpTo env.layout.hostReturn) := by
    have hpop := Machine.pop_slot (j := a.base + 4)
      (m := m₁.atOffset (linesSize entryLines + linesSize restoreLines + 1))
      hlayout hs hrsp₁ (by omega)
    show (Machine.pop _ >>= _) = _
    rw [hpop]
    show Except.ok (Machine.jumpTo _ (m₁.host.stack.word (a.base + 5))) = _
    rw [hback]
    rfl
  refine ⟨_, hr.goes_then _ [.op .ret] (List.cons_ne_nil _ _) rfl (.op _) hat h.layout hexec hlayout
    (hr.goes_read hread hlayout hret), ?_, hhost, hrax⟩
  · refine ⟨hlayout, rfl, ?_, rfl, ?_, ?_⟩
    · show K a.host.vm m₁.host.vm
      rw [hhost]
      exact hK.trans h.steady (hK.trans (hK.register _ _ (by decide)) (hK.register _ _ (by decide)))
    · intro r hmem
      rw [← hregs r hmem]
      refine RegFile.get_set_ne _ _ ?_
      rintro rfl
      revert hmem
      decide
    · show a.host.stack.Agrees a.base m₁.host.stack
      rw [hhost]
      exact h.outer

/-- **Leaving.** From the code for a halt a machine comes back to the host, wherever its stack
    pointer is. -/
theorem goes_halt :
    ∃ dest m', (Plan.ofProgram ctx is).placed (.stub .halt) = some dest ∧
      env.Between ctx is (m.atOffset dest) ∧
      env.Goes (env.Between ctx is) (leaveSteps + 2) (m.atOffset dest) m' ∧
      m'.Returned env K a ∧ m'.host = m.leftHost ∧ m'.reg .rax = m.reg .rax := by
  obtain ⟨rest, hat⟩ := linesFrom_halt ctx is
  have hat := hat.tail.tail
  obtain ⟨k₀, hplace⟩ := hr.finishes.stands hat
  have hat := hat.tail
  have hroom := h.room
  have hsp : m.host.stack.word (a.base + 4) = env.layout.slot (a.base + 12) :=
    h.words.tail.tail.head
  have hload := Machine.exec_loadField (k := 0) h.layout (hr.separate_of_inside hK hsize h) .haltRsp
    h.record rfl (by omega) .rsp
  rw [hsp] at hload
  -- The jump leads to the code for leaving.
  obtain ⟨k, dest, hdest, hjump⟩ := hr.goes_jmp (m := m.setReg .rsp (env.layout.slot (a.base + 12)))
    hat.tail h.layout
  obtain rfl : dest = linesSize entryLines :=
    Option.some_inj.mp (hdest.symm.trans hr.placed_leave)
  obtain ⟨m', hleave, hreturned, hhost, hrax⟩ := hr.goes_leave hK hsize
    (h.setReg (r := .rsp) (by decide) (env.layout.slot (a.base + 12))) rfl
  have hbetween : ∀ {m : Machine} {o : Nat}, m.layout = env.layout →
      o ∈ [linesSize entryLines, linesSize entryLines + linesSize leaveLines + 5] →
      env.Between ctx is (m.atOffset o) := by
    intro m o hm ho
    simp only [List.mem_cons, List.not_mem_nil, or_false] at ho
    rcases ho with rfl | rfl <;> exact hr.between_prologue (by decide) (by decide) (by decide) hm
  have hgoes := hr.goes_then [.op (.load .q .rsp (field .haltRsp))] [.jmp (.stub .leave)]
    (List.cons_ne_nil _ _) rfl
    (by simp [Placeless]) hat h.layout (Machine.execLines_cons hload) h.layout
    (hjump.trans (hbetween h.layout List.mem_cons_self) hleave)
  exact ⟨_, m', hplace, hbetween h.layout (List.mem_cons_of_mem _ List.mem_cons_self), hgoes,
    hreturned, hhost, hrax⟩

/-- **Leaving.** A fault that a helper reported is the status that a machine comes back with. -/
theorem goes_pending :
    ∃ dest m', (Plan.ofProgram ctx is).placed (.stub .pending) = some dest ∧
      (m.atOffset dest).rip = env.pending ∧
      env.Goes (env.Between ctx is) (leaveSteps + 3) (m.atOffset dest) m' ∧
      m'.Returned env K a ∧ m'.host = m.leftHost ∧
      m'.reg32 .rax = m.host.stack.get (2 * a.base) := by
  obtain ⟨rest, hat⟩ := linesFrom_halt ctx is
  obtain ⟨k₀, hplace⟩ := hr.finishes.stands hat
  have hat := hat.tail
  have hroom := h.room
  have hs := hr.separate_of_inside hK hsize h
  have hload : m.exec (.load .d .rax (field .error)) =
      .ok (m.setReg32 .rax (m.host.stack.get (2 * a.base))) := by
    show (m.operand (field .error) >>= fun x => m.load32 x >>= _) = _
    rw [Machine.operand_fault h.layout hs h.record (by omega), ok_bind,
      Machine.load32_fault h.layout hs (by omega)]
    rfl
  have hgoes := hr.goes_lines [.op (.load .d .rax (field .error))] (by simp) rfl hat h.layout
    (Machine.execLines_cons hload)
  -- The code for a halt comes next.
  obtain ⟨dest, m', hdest, hbetween, hhalt, hreturned, hhost, hrax⟩ := hr.goes_halt hK hsize
    (h.setReg (r := .rax) (by decide) ((m.host.stack.get (2 * a.base)).setWidth 64))
  obtain ⟨k₁, hplace₁⟩ := hr.finishes.stands hat.tail
  obtain rfl := Option.some_inj.mp (hdest.symm.trans hplace₁)
  refine ⟨_, m', hplace, ?_, hgoes.trans hbetween hhalt, hreturned, hhost, ?_⟩
  · rw [pending, linesSize_append, ← h.layout]
    rfl
  · exact (congrArg (BitVec.setWidth 32) hrax).trans (Machine.reg32_setReg32_self m .rax _)

/-- **Leaving.** When the function that the entry called has returned, its result is in the record
    and the status is zero. -/
theorem goes_back (hrsp : m.reg .rsp = env.layout.slot (a.base + 12)) :
    ∃ m', env.Goes (env.Between ctx is) (leaveSteps + 2) (m.jumpTo env.back) m' ∧
      m'.Returned env K a ∧ m'.reg32 .rax = 0 ∧
      m'.host.vm = m.leftHost.vm ∧ m'.host.stack.get (2 * a.base + 1) = m.reg32 pri := by
  obtain ⟨rest, hat⟩ := linesFrom_back ctx is
  have hroom := h.room
  have hs := hr.separate_of_inside hK hsize h
  have hstore := Machine.exec_storeResult h.layout hs h.record (by omega) pri
  let m₁ := m.setHost { m.host with stack := m.host.stack.set (2 * a.base + 1) (m.reg32 pri) }
  let m₂ := m₁.alu32 .xor .rax (m₁.reg32 .rax)
  have hexec : Machine.execLines (entryLines.drop 18) m = .ok m₂ :=
    (Machine.execLines_cons hstore).trans (Machine.execLines_cons rfl)
  -- The result is outside of the words that the activation has to keep.
  have hinside : m₂.Inside env K a rets := by
    refine h.change hK rfl rfl rfl (hK.refl _) ?_
    intro i _ hi
    exact NativeStack.get_set_ne _ _ (by omega)
  have hne : entryLines.drop 18 ≠ [] := List.cons_ne_nil _ _
  have hgoes := hr.goes_lines _ hne rfl hat h.layout hexec
  rw [← linesSize_append, List.take_append_drop] at hgoes
  obtain ⟨m', hleave, hreturned, hhost, hrax⟩ := hr.goes_leave hK hsize hinside hrsp
  have hstart : m.jumpTo env.back = m.atOffset (linesSize (entryLines.take 18)) := by
    rw [Machine.atOffset, h.layout]
    rfl
  rw [hstart]
  refine ⟨m', hgoes.trans ?_ hleave, hreturned, ?_, ?_, ?_⟩
  · refine hr.between_prologue ?_ ?_ ?_ hinside.layout
    all_goals decide
  · refine (congrArg (BitVec.setWidth 32) hrax).trans
      ((Machine.reg32_setReg32_self _ .rax _).trans ?_)
    exact BitVec.xor_self
  · rw [hhost]
    rfl
  · rw [hhost]
    exact NativeStack.get_set_self ..

/-! ### The ways out -/

theorem departs_back (hrsp : m.reg .rsp = env.layout.slot (a.base + 12)) :
    ∃ r, env.Departs ctx is K a .back (leaveSteps + 2) (m.jumpTo env.back) r := by
  obtain ⟨r, hgoes, hreturned, hrax, hvm, hresult⟩ := hr.goes_back hK hsize h hrsp
  have hroom := h.room
  have hs : env.layout.Separate r.host.vm.block.size env.program.code.size := by
    rw [(hK.fixed hreturned.steady).size, hsize]
    exact hr.separate
  refine ⟨r, ⟨⟨hreturned, .back rfl, hvm, ?_, ?_, ?_⟩, hgoes⟩⟩
  · rw [hrax]
    rfl
  · intro _
    rw [Machine.recordCell_retval hreturned.layout hs (by omega), hresult]
    rfl
  · intro hway
    cases hway

theorem departs_pending {f : Fault} (hfault : m.host.stack.get (2 * a.base) = f.code) :
    ∃ dest r, (Plan.ofProgram ctx is).placed (.stub .pending) = some dest ∧
      env.Departs ctx is K a .pending (leaveSteps + 3) (m.atOffset dest) r ∧ r.host = m.leftHost ∧
      r.reg32 .rax = f.code := by
  obtain ⟨dest, r, hplace, hrip, hgoes, hreturned, hhost, hrax⟩ := hr.goes_pending hK hsize h
  have hroom := h.room
  have hs := hr.separate_of_inside hK hsize h
  have hnoted := Machine.recordCell_error (m := m.atOffset dest) h.layout hs
    (j := a.base) (by omega)
  have hvm : r.host.vm = (m.atOffset dest).leftHost.vm := by
    rw [hhost]
    rfl
  refine ⟨dest, r, hplace, ⟨⟨hreturned, .pending hrip, hvm, ?_, ?_, ?_⟩, hgoes⟩, hhost, ?_⟩
  · rw [hrax]
    exact hnoted
  · intro hresult
    cases hresult
  · exact fun _ => ⟨f, hrax.trans hfault⟩
  · exact hrax.trans hfault

theorem goes_status (hat : LinesFrom ctx is o (.jmp (.stub .halt) :: ls)) :
    ∃ r, env.Goes (env.Between ctx is) (leaveSteps + 3) (m.atOffset o) r ∧ r.Returned env K a ∧
      r.host = m.leftHost ∧ r.reg .rax = m.reg .rax := by
  obtain ⟨k, dest, hdest, hjump⟩ := hr.goes_jmp hat h.layout
  obtain ⟨dest', r, hplace, hbetween, hgoes, hreturned, hhost, hrax⟩ := hr.goes_halt hK hsize h
  obtain rfl := Option.some_inj.mp (hdest.symm.trans hplace)
  exact ⟨r, hjump.trans hbetween hgoes, hreturned, hhost, hrax⟩

/-- The program halts with a code, which goes to the host with the primary register. -/
theorem goes_haltWith {code : Cell} (hat : LinesFrom ctx is o (Template.haltWith code ++ ls)) :
    ∃ r, env.Goes (env.Between ctx is) (leaveSteps + 5) (m.atOffset o) r ∧ r.Returned env K a ∧
      r.host.vm = m.leftHost.vm ∧ r.reg32 .rax = code ∧
      r.recordCell (env.layout.slot (a.base + 4)) .retval = .ok (m.reg32 pri) := by
  have hroom := h.room
  have hs := hr.separate_of_inside hK hsize h
  have hstore := Machine.exec_storeResult h.layout hs h.record (by omega) pri
  let m₁ := m.setHost { m.host with stack := m.host.stack.set (2 * a.base + 1) (m.reg32 pri) }
  have hinside : (m₁.setReg32 .rax code).Inside env K a rets := by
    refine h.change hK rfl rfl rfl (hK.refl _) ?_
    intro i _ hi
    exact NativeStack.get_set_ne _ _ (by omega)
  have hat' : LinesFrom ctx is o
      ([.op (.store .d (field .retval) pri), .op (.movRI32 .rax code)] ++
        ([.jmp (.stub .halt)] ++ ls)) := hat
  obtain ⟨r, hleave, hreturned, hhost, hrax⟩ := hr.goes_status hK hsize hinside hat'.drop
  have hgoes := hr.goes_then _ _ (List.cons_ne_nil _ _) rfl (by simp [Placeless]) hat' h.layout
    ((Machine.execLines_cons hstore).trans (Machine.execLines_cons rfl)) hinside.layout hleave
  have hsr : env.layout.Separate r.host.vm.block.size env.program.code.size := by
    rw [(hK.fixed hreturned.steady).size, hsize]
    exact hr.separate
  refine ⟨r, hgoes, hreturned, ?_, ?_, ?_⟩
  · rw [hhost]
    rfl
  · exact (congrArg (BitVec.setWidth 32) hrax).trans (Machine.reg32_setReg32_self m₁ .rax code)
  · rw [Machine.recordCell_retval hreturned.layout hsr (by omega), hhost]
    exact congrArg Except.ok (NativeStack.get_set_self ..)

theorem departs_halt {t code : Cell}
    (hat : LinesFrom ctx is o (.place (.code t) :: (Template.haltWith code ++ ls))) :
    ∃ r, env.Departs ctx is K a (.halt code) (leaveSteps + 5) (m.atOffset o) r := by
  obtain ⟨r, hgoes, hreturned, hvm, hcode, hresult⟩ := hr.goes_haltWith hK hsize h hat.tail
  have hrip := Machine.rip_atOffset h.layout o
  refine ⟨r, ⟨⟨hreturned, .halt hat hrip, hvm, ?_, fun _ => hresult, ?_⟩, hgoes⟩⟩
  · rw [hcode]
    rfl
  · intro hway
    cases hway

theorem departs_fault {f : Fault} (hat : LinesFrom ctx is o (faultLines f ++ ls)) :
    ∃ r, env.Departs ctx is K a (.fault f) (leaveSteps + 4) (m.atOffset o) r := by
  have hat' : LinesFrom ctx is o ([.op (.movRI32 .rax f.code)] ++ ([.jmp (.stub .halt)] ++ ls)) :=
    hat.tail
  have hinside : (m.setReg32 .rax f.code).Inside env K a rets := h.setReg (by decide) _
  obtain ⟨r, hleave, hreturned, hhost, hrax⟩ := hr.goes_status hK hsize hinside hat'.drop
  have hgoes := hr.goes_then _ _ (List.cons_ne_nil _ _) rfl (by simp [Placeless]) hat' h.layout
    (Machine.execLines_cons rfl) hinside.layout hleave
  have hrip := Machine.rip_atOffset h.layout o
  have hvm : r.host.vm = (m.atOffset o).leftHost.vm := by
    rw [hhost]
    rfl
  refine ⟨r, ⟨⟨hreturned, .fault hat hrip, hvm, ?_, ?_, ?_⟩, hgoes⟩⟩
  · have hcode : r.reg32 .rax = f.code :=
      (congrArg (BitVec.setWidth 32) hrax).trans (Machine.reg32_setReg32_self m .rax f.code)
    rw [hcode]
    rfl
  · intro hresult
    cases hresult
  · intro hway
    cases hway

end Environment.Ready

end PawnNative
