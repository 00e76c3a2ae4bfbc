import Mathlib.Tactic.Common
import PawnNative.Proofs.Entering

/-! # Calls of helpers

    Before it calls a helper, the code of an instruction stores the registers of the
    abstract machine in the register file, saves a register on the native stack and
    aligns the stack pointer. The saved register then remembers where the native
    stack was, so that everything can be put back whatever the helper did further
    down.

    `Machine.Framed` says that a machine is in such a state. It is kept by the
    instructions that set up the arguments, by the call, and by helpers.
-/

namespace PawnNative

open X64 Convention

/-! ## Section 1: Suspending -/

/-- The instance with the registers that the processor holds. -/
def Machine.spilled (m : Machine) : Instance :=
  let vm := (m.host.vm.put .pri (m.reg32 pri)).put .alt (m.reg32 alt)
  (vm.put .stk (m.reg32 stk - m.reg32 data)).put .frm (m.reg32 frm - m.reg32 data)

/-- The number of the word on top of an activation. -/
def Activation.top (a : Activation) (rets : List Word) : Nat := a.base + 13 + rets.length

/-- A machine that has saved `rbp` on the native stack and remembers where. -/
structure Machine.Framed (m : Machine) (env : Environment) (K : Instance → Instance → Prop)
    (a : Activation) (rets : List Word) (rbp : Word) : Prop extends m.Inside env K a rets where
  frame : m.reg .rbp = env.layout.slot (a.top rets + 1)
  saved : m.host.stack.word (a.top rets + 1) = rbp
  fits : 8 * (a.top rets + 2) ≤ env.layout.stackSize

def spillLines : List Line :=
  loadFile .rdx :: .op (.store .d (saved .rdx .pri) pri) :: .op (.store .d (saved .rdx .alt) alt) ::
  (storeRelative .stk stk ++ storeRelative .frm frm)

theorem suspend_eq : suspend = spillLines ++
    [.op (.push .rbp), .op (.movRR .q .rbp .rsp), .op (.aluRI .and .q .rsp (-16))] := rfl

namespace Environment.Ready

variable {env : Environment} {ctx : Context} {is : List Instruction} {size : Nat}
  (hr : env.Ready ctx is size) {K : Instance → Instance → Prop} (hK : Steady K) {m m' : Machine}
  {a : Activation} {rets : List Word} (hsize : a.host.vm.block.size = size)
include hr hK hsize

theorem execLines_spill (h : m.Inside env K a rets) :
    ∃ m', Machine.execLines spillLines m = .ok m' ∧
      Machine.Becomes [.rdx, .rsi] { m.host with vm := m.spilled } m m' := by
  have hs := hr.separate_of_inside hK hsize h
  have hload := hr.exec_loadFile hK hsize h .rdx
  have hpri := Machine.exec_storeSaved (m := m.setReg .rdx env.layout.file) h.layout hs rfl .pri pri
  let m₁ := (m.setReg .rdx env.layout.file).setHost
    { m.host with vm := m.host.vm.put .pri (m.reg32 pri) }
  have halt := Machine.exec_storeSaved (m := m₁) h.layout hs rfl .alt alt
  let m₂ := m₁.setHost
    { m.host with vm := (m.host.vm.put .pri (m.reg32 pri)).put .alt (m.reg32 alt) }
  obtain ⟨m₃, hframes, hm₃⟩ := Machine.execLines_storeFrames (m := m₂) h.layout hs rfl
  refine ⟨m₃, (Machine.execLines_cons hload).trans ((Machine.execLines_cons hpri).trans
    ((Machine.execLines_cons halt).trans hframes)), ?_⟩
  have hm₂ := ((Machine.Becomes.refl [.rdx, .rsi] m).setReg (r := .rdx) (by decide)
    env.layout.file).setHost m₂.host
  exact hm₂.trans (hm₃.mono (by decide))

omit hr hsize in
theorem steady_spilled (m : Machine) : K m.host.vm m.spilled :=
  hK.trans (hK.trans (hK.register _ _ (by decide)) (hK.register _ _ (by decide)))
    (hK.trans (hK.register _ _ (by decide)) (hK.register _ _ (by decide)))

theorem execLines_suspend (h : m.Home env K a rets)
    (hroom : 8 * (a.top rets + 2) ≤ env.layout.stackSize) :
    ∃ m' s j, Machine.execLines suspend m = .ok m' ∧ m'.Framed env K a rets (m.reg .rbp) ∧
      Machine.Becomes [.rdx, .rsi, .rbp, .rsp] { m.host with vm := m.spilled, stack := s } m m' ∧
      m.host.stack.Agrees (a.top rets + 1) s ∧ m'.reg .rsp = env.layout.slot j ∧
      a.top rets + 1 ≤ j ∧ j ≤ a.top rets + 2 ∧ env.layout.slot j % 16 = 0 := by
  obtain ⟨m₁, hspill, hm₁⟩ := hr.execLines_spill hK hsize h.toInside
  have hs : env.layout.Separate m₁.host.vm.block.size env.program.code.size := by
    rw [hm₁.host]
    exact hr.separate_of_inside hK hsize h.toInside
  have hrsp : m₁.reg .rsp = env.layout.slot (a.top rets) := by
    rw [hm₁.regs _ (by decide), h.rsp]
    rfl
  have hrbp : m₁.reg .rbp = m.reg .rbp := hm₁.regs _ (by decide)
  have hpush : m₁.exec (.push .rbp) = .ok _ :=
    Machine.push_slot (hm₁.layout.trans h.layout) hs hrsp hroom (m₁.reg .rbp)
  rw [hrbp, hm₁.host] at hpush
  dsimp only at hpush
  obtain ⟨s, hstack⟩ : ∃ s, s = m.host.stack.setWord (a.top rets + 1) (m.reg .rbp) := ⟨_, rfl⟩
  rw [← hstack] at hpush
  have hagrees : m.host.stack.Agrees (a.top rets + 1) s := by
    rw [hstack]
    exact NativeStack.agrees_setWord _ _ (Nat.le_refl _)
  -- Aligning leaves out one word at most.
  obtain ⟨j, hlow, hhigh, halign, hmod⟩ := hr.separate.slot_align (a.top rets + 1)
  let m₂ := (m₁.setReg .rsp (env.layout.slot (a.top rets + 1))).setHost
    ⟨m.spilled, s, m.host.log⟩
  let m₃ := m₂.setReg .rbp (env.layout.slot (a.top rets + 1))
  let m₄ := m₃.alu64 .and .rsp ((-16 : Cell).signExtend 64)
  have hm₄ : Machine.Becomes [.rdx, .rsi, .rbp, .rsp] ⟨m.spilled, s, m.host.log⟩ m m₄ := by
    have hwide : Machine.Becomes [.rdx, .rsi, .rbp, .rsp] { m.host with vm := m.spilled } m m₁ :=
      hm₁.mono (by decide)
    have hfirst := (hwide.setReg (r := .rsp) (by decide)
      (env.layout.slot (a.top rets + 1))).setHost ⟨m.spilled, s, m.host.log⟩
    exact ((hfirst.setReg (by decide) _).setFlags _).setReg (by decide) _
  refine ⟨m₄, s, j, ?_, ?_, hm₄, hagrees, halign, hlow, hhigh, hmod⟩
  · rw [suspend_eq]
    exact (Machine.execLines_append_ok hspill).trans ((Machine.execLines_cons hpush).trans
      ((Machine.execLines_cons rfl).trans (Machine.execLines_cons rfl)))
  · refine ⟨h.toInside.change hK hm₄.layout (hm₄.regs _ (by decide)) (hm₄.regs _ (by decide)) ?_ ?_,
      rfl, ?_, hroom⟩
    · exact steady_spilled hK m
    · intro i hi _
      exact hagrees i (by unfold Activation.top; omega)
    · show s.word _ = _
      rw [hstack, NativeStack.word_setWord_self]

theorem execLines_suspend_full (h : m.Home env K a rets)
    (hfull : env.layout.stackSize < 8 * (a.top rets + 2)) :
    ∃ e, Machine.execLines suspend m = .error e := by
  obtain ⟨m₁, hspill, hm₁⟩ := hr.execLines_spill hK hsize h.toInside
  have hbounded := hr.separate.bounded
  have hroom := h.room
  have hrsp : m₁.reg .rsp = env.layout.slot (a.top rets) := by
    rw [hm₁.regs _ (by decide), h.rsp]
    rfl
  have hpush : m₁.exec (.push .rbp) = .error _ :=
    Machine.push_full (hm₁.layout.trans h.layout) hrsp (by unfold Activation.top; omega)
      hfull (m₁.reg .rbp)
  refine ⟨.badAddress (env.layout.slot (a.top rets + 1)), ?_⟩
  rw [suspend_eq, Machine.execLines_append_ok hspill, Machine.execLines, hpush]
  rfl

end Environment.Ready

/-! ## Section 2: At the door of a helper -/

def framing : List Reg := [.rbp, call, data]

/-- A machine that has called a helper, which is to go back to an offset of the code. -/
structure Machine.AtDoor (m : Machine) (env : Environment) (K : Instance → Instance → Prop)
    (a : Activation) (rets : List Word) (rbp : Word) (j o : Nat) : Prop
    extends m.Framed env K a rets rbp where
  rsp : m.reg .rsp = env.layout.slot (j + 1)
  below : a.top rets + 1 ≤ j
  near : j ≤ a.top rets + 2
  back : m.host.stack.word (j + 1) = env.layout.code + BitVec.ofNat 64 o
  aligned : env.layout.slot j % 16 = 0
  deep : 8 * (j + 2) ≤ env.layout.stackSize

namespace Machine

variable {m m' : Machine} {env : Environment} {K : Instance → Instance → Prop} {a : Activation}
  {rets : List Word} {rbp : Word} {j o : Nat}

theorem Framed.change (hK : Steady K) (h : m.Framed env K a rets rbp)
    (hlayout : m'.layout = m.layout) (hregs : ∀ r ∈ framing, m'.reg r = m.reg r)
    (hvm : K m.host.vm m'.host.vm)
    (hstack : ∀ i, i < 2 * (a.top rets + 2) → i / 2 ≠ a.base →
      m'.host.stack.get i = m.host.stack.get i) : m'.Framed env K a rets rbp := by
  have hword : m'.host.stack.word (a.top rets + 1) = m.host.stack.word (a.top rets + 1) := by
    have hne : a.top rets + 1 ≠ a.base := by
      unfold Activation.top
      omega
    rw [NativeStack.word, hstack _ (by omega) (by omega), hstack _ (by omega) (by omega)]
    rfl
  refine ⟨h.toInside.change hK hlayout (hregs _ (by decide)) (hregs _ (by decide)) hvm ?_,
    ?_, ?_, h.fits⟩
  · intro i hi
    exact hstack i (by unfold Activation.top; omega)
  · rw [hregs _ (by decide), h.frame]
  · rw [hword, h.saved]

theorem Framed.becomes (hK : Steady K) (h : m.Framed env K a rets rbp) {ws : List Reg}
    (hm : Becomes ws m.host m m') (hws : ∀ r ∈ framing, r ∉ ws) : m'.Framed env K a rets rbp := by
  refine h.change hK hm.layout (fun r hr => hm.regs r (hws r hr)) ?_ ?_
  · rw [hm.host]
    exact hK.refl _
  · intro i _ _
    rw [hm.host]

theorem AtDoor.toAligned (h : m.AtDoor env K a rets rbp j o) : m.Aligned env.layout :=
  ⟨j, h.rsp, h.aligned, h.deep⟩

theorem Aligned.rsp_mod {l : Layout} (h : m.Aligned l) : m.reg .rsp % 16 = 8 := by
  obtain ⟨j, hrsp, haligned, -⟩ := h
  have hslot := congrArg BitVec.toNat haligned
  rw [BitVec.toNat_umod] at hslot
  have hslot : (l.slot j).toNat % 16 = 0 := hslot
  rw [hrsp, ← l.slot_sub]
  apply BitVec.eq_of_toNat_eq
  rw [BitVec.toNat_umod, BitVec.toNat_sub]
  show (2 ^ 64 - 8 + (l.slot j).toNat) % 2 ^ 64 % 16 = 8
  omega

end Machine

/-- A machine that has gone back to the native stack of its activation: the registers of the
    abstract machine are those of the register file, the primary one apart. -/
structure Machine.Resumes (m m' : Machine) (env : Environment) (K : Instance → Instance → Prop)
    (a : Activation) (rets : List Word) (rbp : Word) : Prop where
  becomes : Becomes [.rsp, .rbp, .rdx, Convention.stk, Convention.frm, Convention.alt] m.host m m'
  inside : m'.Inside env K a rets
  rsp : m'.reg .rsp = env.layout.slot (a.top rets)
  rbp : m'.reg .rbp = rbp
  stk : m'.reg Convention.stk = a.data env.layout + m.host.vm.regs.stk.setWidth 64
  frm : m'.reg Convention.frm = a.data env.layout + m.host.vm.regs.frm.setWidth 64
  alt : m'.reg Convention.alt = m.host.vm.regs.alt.setWidth 64
  file : m'.reg .rdx = env.layout.file

namespace Environment.Ready

variable {env : Environment} {ctx : Context} {is : List Instruction} {size : Nat}
  (hr : env.Ready ctx is size) {K : Instance → Instance → Prop} (hK : Steady K) {m m' : Machine}
  {a : Activation} {rets : List Word} (hsize : a.host.vm.block.size = size) {rbp : Word} {j o : Nat}
include hr hK hsize

section
variable {ls : List Line} (hat : LinesFrom ctx is o (.op (.callR .r11) :: ls))
  (h : m.Framed env K a rets rbp) (hrsp : m.reg .rsp = env.layout.slot j)
include hat h hrsp

theorem goes_door {helper : Helper} (hr11 : m.reg .r11 = helper.address) (hlow : a.top rets + 1 ≤ j)
    (hhigh : j ≤ a.top rets + 2)
    (haligned : env.layout.slot j % 16 = 0) (hroom : 8 * (j + 2) ≤ env.layout.stackSize) :
    ∃ m' s, env.Goes (env.Between ctx is) 1 (m.atOffset o) m' ∧ m'.rip = helper.address ∧
      m'.AtDoor env K a rets rbp j (o + 3) ∧ m'.xmm = m.xmm ∧
      Machine.Becomes [.rsp] { m.host with stack := s } m m' ∧ m.host.stack.Agrees (j + 1) s := by
  obtain ⟨k, hread⟩ := hr.finishes.stands hat
  have hs := hr.separate_of_inside hK hsize h.toInside
  obtain ⟨s, hstack⟩ : ∃ s, s = m.host.stack.setWord (j + 1)
    (env.layout.code + BitVec.ofNat 64 (o + 3)) := ⟨_, rfl⟩
  have hagrees : m.host.stack.Agrees (j + 1) s := by
    rw [hstack]
    exact NativeStack.agrees_setWord _ _ (Nat.le_refl _)
  let m₁ := ((m.setReg .rsp (env.layout.slot (j + 1))).setHost { m.host with stack := s }).jumpTo
    helper.address
  have hm₁ : Machine.Becomes [.rsp] { m.host with stack := s } m m₁ :=
    ⟨rfl, ((Machine.Becomes.refl [.rsp] m).setReg (by decide) _).regs, rfl⟩
  have hcall : (m.atOffset (o + 3)).exec (.callR .r11) = .ok m₁ := by
    have hback := Machine.rip_atOffset h.layout (o + 3)
    have hpush := Machine.push_slot (m := m.atOffset (o + 3)) h.layout hs hrsp hroom
      (env.layout.code + BitVec.ofNat 64 (o + 3))
    show (Machine.push _ (m.atOffset (o + 3)).rip >>= _) = _
    rw [hback, hpush]
    show Except.ok (Machine.jumpTo _ (m.reg .r11)) = _
    rw [hr11]
    dsimp only [m₁]
    rw [hstack]
    rfl
  refine ⟨m₁, s, hr.goes_read hread h.layout hcall, rfl, ?_, rfl, hm₁, hagrees⟩
  refine ⟨h.change hK rfl ?_ (hK.refl _) ?_, rfl, hlow, hhigh, ?_, haligned, hroom⟩
  · intro r hmem
    refine hm₁.regs r ?_
    revert r
    decide
  · intro i hi _
    exact hagrees i (by omega)
  · show s.word (j + 1) = _
    rw [hstack, NativeStack.word_setWord_self]

omit hK hsize in
theorem stuck_door (hj : j ≤ a.top rets + 2) (hfull : env.layout.stackSize < 8 * (j + 2)) (n : Nat)
    (c : Nat × Machine) : ¬env.Step (n, m.atOffset o) c := by
  have hbounded := hr.separate.bounded
  have hfits := h.fits
  obtain ⟨k, hread⟩ := hr.finishes.stands hat
  have hpush := Machine.push_full (m := m.atOffset (o + 3)) h.layout hrsp (by omega) hfull
    (m.atOffset (o + 3)).rip
  refine hr.stuck_read (e := .badAddress (env.layout.slot (j + 1))) hread h.layout ?_ n c
  show (Machine.push (m.atOffset (o + 3)) (m.atOffset (o + 3)).rip >>= _) = _
  rw [hpush]
  rfl

end

theorem helperReturn_door (h : m.AtDoor env K a rets rbp j o) (v : Word) :
    ∃ m', env.helperReturn m v = .ok m' ∧ m'.rip = env.layout.code + BitVec.ofNat 64 o ∧
      m'.Framed env K a rets rbp ∧ m'.host = m.host ∧ m'.reg .rax = v := by
  have hs := hr.separate_of_inside hK hsize h.toInside
  have hpop := Machine.pop_slot h.layout hs h.rsp h.deep
  have hreturn : ∃ m', env.helperReturn m v = .ok m' := by
    rw [helperReturn, hpop]
    exact ⟨_, rfl⟩
  obtain ⟨m', hm'⟩ := hreturn
  refine ⟨m', hm', ?_⟩
  rw [helperReturn, hpop] at hm'
  cases hm'
  refine ⟨h.back, h.toFramed.change hK rfl ?_ (hK.refl _) (fun _ _ _ => rfl), rfl, rfl⟩
  intro r hmem
  simp only [framing, List.mem_cons, List.not_mem_nil, or_false] at hmem
  rcases hmem with rfl | rfl | rfl <;> rfl

/-- Everything is put back as it was before the helper was called. -/
theorem execLines_resume (h : m.Framed env K a rets rbp) :
    ∃ m', Machine.execLines resume m = .ok m' ∧ m.Resumes m' env K a rets rbp := by
  have hs := hr.separate_of_inside hK hsize h.toInside
  -- The frame register knows where the native stack was, whatever the helper left in `rsp`.
  have hpop : (m.setReg .rsp (m.reg .rbp)).exec (.pop .rbp) =
      .ok (((m.setReg .rsp (m.reg .rbp)).setReg .rsp
        (env.layout.slot (a.top rets))).setReg .rbp rbp) := by
    have hpop := Machine.pop_slot (m := m.setReg .rsp (m.reg .rbp)) h.layout hs h.frame h.fits
    show (Machine.pop _ >>= _) = _
    rw [hpop]
    show Except.ok (Machine.setReg _ .rbp (m.host.stack.word (a.top rets + 1))) = _
    rw [h.saved]
  let m₁ := ((m.setReg .rsp (m.reg .rbp)).setReg .rsp
    (env.layout.slot (a.top rets))).setReg .rbp rbp
  have hinside₁ : m₁.Inside env K a rets :=
    ((h.toInside.setReg (by decide) _).setReg (by decide) _).setReg (by decide) _
  have hload := hr.exec_loadFile hK hsize hinside₁ .rdx
  let m₂ := m₁.setReg .rdx env.layout.file
  obtain ⟨m₃, hframes, hm₃, hstk, hfrm⟩ := Machine.execLines_loadFrames (m := m₂) h.layout hs rfl
  have hs₃ : env.layout.Separate m₃.host.vm.block.size env.program.code.size := by
    rw [hm₃.host]
    exact hs
  have halt := Machine.exec_loadSaved (hm₃.layout.trans h.layout) hs₃
    (hm₃.regs .rdx (by decide)) .alt alt
  let m₄ := m₃.setReg32 alt (m₃.host.vm.regs.get .alt)
  have hm₄ : Machine.Becomes [.rsp, .rbp, .rdx, stk, frm, alt] m.host m m₄ := by
    have hm₂ : Machine.Becomes [.rsp, .rbp, .rdx, stk, frm, alt] m.host m m₂ :=
      ((((Machine.Becomes.refl _ m).setReg (by decide) _).setReg (by decide) _).setReg (by decide)
        _).setReg (by decide) _
    exact (hm₂.trans (hm₃.mono (by decide))).setReg (by decide) _
  refine ⟨m₄, ?_, hm₄, ?_, hm₃.regs .rsp (by decide), hm₃.regs .rbp (by decide), ?_, ?_, ?_,
    hm₃.regs .rdx (by decide)⟩
  · exact (Machine.execLines_cons rfl).trans ((Machine.execLines_cons hpop).trans
      ((Machine.execLines_cons hload).trans ((Machine.execLines_append_ok hframes).trans
        (Machine.execLines_cons halt))))
  · refine h.toInside.change hK hm₄.layout (hm₄.regs _ (by decide)) (hm₄.regs _ (by decide)) ?_ ?_
    · rw [hm₄.host]
      exact hK.refl _
    · intro i _ _
      rw [hm₄.host]
  · rw [← h.data]
    exact hstk
  · rw [← h.data]
    exact hfrm
  · show (m₃.host.vm.regs.get .alt).setWidth 64 = _
    rw [hm₃.host]
    rfl

end Environment.Ready

/-! ## Section 3: On the way to a helper -/

def argumentRegs : List Reg := [.rdi, .rsi, .rdx, .rcx]

/-- Lines that do no more than to set up the arguments of a helper. -/
structure SetsArguments (args : List Line) : Prop where
  steps : args.all Line.isStep
  becomes : ∀ {m m'}, Machine.execLines args m = .ok m' → Machine.Becomes argumentRegs m.host m m'

/-- How a machine got from the code of an instruction to the door of a helper. -/
structure Machine.Calls (m m' : Machine) (env : Environment) (K : Instance → Instance → Prop)
    (a : Activation) (rets : List Word) (args : List Line) (o : Nat) : Prop where
  door : ∃ j, m'.AtDoor env K a rets (m.reg .rbp) j o
  /-- The arguments were set up after the registers had been stored. -/
  arguments : ∃ m₁ m₂ s, Machine.execLines args m₁ = .ok m₂ ∧
    Becomes [.rdx, .rsi, .rbp, .rsp] { m.host with vm := m.spilled, stack := s } m m₁ ∧
    (∀ r, r ∉ [.r11, .rsp] → m'.reg r = m₂.reg r) ∧ m'.xmm = m₂.xmm
  vm : m'.host.vm = m.spilled
  stack : m.host.stack.Agrees (a.top rets + 1) m'.host.stack

namespace Environment.Ready

variable {env : Environment} {ctx : Context} {is : List Instruction} {size : Nat}
  (hr : env.Ready ctx is size) {K : Instance → Instance → Prop} (hK : Steady K) {m m' : Machine}
  {a : Activation} {rets : List Word} (hsize : a.host.vm.block.size = size) {rbp : Word} {o : Nat}
include hr hK hsize

/-- **Run.** The code of an instruction that calls a helper leads to its door, or nowhere: when the
    native stack has no room, or the arguments cannot be set up. -/
theorem goes_helper (helper : Helper) {args ls : List Line} (hargs : SetsArguments args)
    (hat : LinesFrom ctx is o (suspend ++ args ++ callHelper helper ++ ls))
    (h : m.Home env K a rets) :
    (∃ m', env.Goes (env.Between ctx is) (suspend ++ args ++ callHelper helper).length
      (m.atOffset o) m' ∧
      m'.rip = helper.address ∧
      m.Calls m' env K a rets args (o + linesSize (suspend ++ args ++ callHelper helper))) ∨
    ((∃ j, a.top rets + 1 ≤ j ∧ j ≤ a.top rets + 2 ∧ env.layout.slot j % 16 = 0 ∧
        env.layout.stackSize < 8 * (j + 2)) ∨
      ∃ m₁ s e, Machine.Becomes [.rdx, .rsi, .rbp, .rsp]
          { m.host with vm := m.spilled, stack := s } m m₁ ∧
        Machine.execLines args m₁ = .error e) ∧
    ∀ Q n, env.Leads (env.Between ctx is) Q (n, m.atOffset o) := by
  have hstart : LinesFrom ctx is o (suspend ++ (args ++ (callHelper helper ++ ls))) := by
    simpa only [List.append_assoc] using hat
  by_cases hroom : 8 * (a.top rets + 2) ≤ env.layout.stackSize
  swap
  · obtain ⟨e, he⟩ := hr.execLines_suspend_full hK hsize h (by omega)
    obtain ⟨j, hlow, hhigh, -, hmod⟩ := hr.separate.slot_align (a.top rets + 1)
    exact Or.inr ⟨Or.inl ⟨j, hlow, hhigh, hmod, by omega⟩,
      fun Q n => hr.leads_crash rfl hstart h.layout he n⟩
  obtain ⟨m₁, s₁, j, hsuspend, hframed₁, hm₁, hagrees₁, hrsp₁, hlow, hhigh, haligned⟩ :=
    hr.execLines_suspend hK hsize h hroom
  cases hexec : Machine.execLines args m₁ with
  | error e =>
    refine Or.inr ⟨Or.inr ⟨m₁, s₁, e, hm₁, hexec⟩, fun Q n => ?_⟩
    have hall : Machine.execLines (suspend ++ args) m = .error e :=
      (Machine.execLines_append_ok hsuspend).trans hexec
    refine hr.leads_crash ?_ (by simpa only [List.append_assoc] using hat) h.layout hall n
    rw [List.all_append, hargs.steps]
    rfl
  | ok m₂ =>
    have hm₂ := hargs.becomes hexec
    obtain ⟨m₃, hm₃⟩ : ∃ m₃, m₃ = m₂.setReg .r11 helper.address := ⟨_, rfl⟩
    have hbecomes : Machine.Becomes (.r11 :: argumentRegs) m₁.host m₁ m₃ := by
      rw [hm₃]
      exact (hm₂.mono fun r hr => List.mem_cons_of_mem _ hr).setReg List.mem_cons_self _
    have hframed₃ := hframed₁.becomes hK hbecomes (by decide)
    have hrsp₃ : m₃.reg .rsp = env.layout.slot j := by rw [hbecomes.regs _ (by decide), hrsp₁]
    have hr11 : m₃.reg .r11 = helper.address := by
      rw [hm₃]
      rfl
    -- Up to the call everything is executed.
    obtain ⟨front, hfront⟩ :
        ∃ front, front = suspend ++ args ++ [.op (.movRI64 .r11 helper.address)] :=
      ⟨_, rfl⟩
    have hall : Machine.execLines front m = .ok m₃ := by
      rw [hfront, List.append_assoc, Machine.execLines_append_ok hsuspend,
        Machine.execLines_append_ok hexec, hm₃]
      exact Machine.execLines_cons rfl
    have hlines : LinesFrom ctx is o (front ++ ([.op (.callR .r11)] ++ ls)) := by
      simpa only [hfront, callHelper, List.append_assoc, List.cons_append,
        List.nil_append] using hat
    have hsteps : front.all Line.isStep := by
      rw [hfront, List.all_append, List.all_append, hargs.steps]
      rfl
    have hne : front ≠ [] := by
      rw [hfront]
      exact List.cons_ne_nil _ _
    have hbetween : env.Between ctx is (m₃.atOffset (o + linesSize front)) :=
      hr.between_steps _ _ hlines hne hsteps (.op _) hframed₃.layout
    have hgoes := hr.goes_lines _ hne hsteps hlines h.layout hall
    by_cases hdeep : 8 * (j + 2) ≤ env.layout.stackSize
    · obtain ⟨m₄, s₄, hcall, hrip, hdoor, hxmm, hm₄, hagrees₄⟩ :=
        hr.goes_door hK hsize hlines.drop hframed₃ hrsp₃ hr11 hlow hhigh haligned hdeep
      have hsplit : suspend ++ args ++ callHelper helper = front ++ [.op (.callR .r11)] := by
        rw [hfront, List.append_assoc (suspend ++ args)]
        rfl
      have hend : o + linesSize (suspend ++ args ++ callHelper helper) =
          o + linesSize front + 3 := by
        rw [hsplit, linesSize_append]
        rfl
      have hlength : (suspend ++ args ++ callHelper helper).length = 1 + front.length := by
        rw [hsplit, List.length_append, Nat.add_comm]
        rfl
      rw [hend, hlength]
      refine Or.inl ⟨m₄, hgoes.trans hbetween hcall, hrip, ⟨j, hdoor⟩,
        ⟨m₁, m₂, s₁, hexec, hm₁, ?_, ?_⟩, ?_, ?_⟩
      · intro r hmem
        rw [List.mem_cons, List.mem_singleton, not_or] at hmem
        rw [hm₄.regs r (by simp [hmem.2]), hm₃]
        exact RegFile.get_set_ne _ _ hmem.1
      · rw [hxmm, hm₃]
        rfl
      · rw [hm₄.host, hbecomes.host, hm₁.host]
      · rw [hm₄.host]
        rw [hbecomes.host, hm₁.host] at hagrees₄
        exact hagrees₁.trans (hagrees₄.mono (by omega))
    · refine Or.inr ⟨Or.inl ⟨j, hlow, hhigh, haligned, by omega⟩, fun Q n =>
        hgoes.leads fun n _ => .inr ⟨hbetween, .stuck ?_⟩⟩
      exact hr.stuck_door hlines.drop hframed₃ hrsp₃ hhigh (by omega) n

end Environment.Ready

end PawnNative
