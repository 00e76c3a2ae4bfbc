import Mathlib.Tactic.Common
import PawnNative.Proofs.Conditions
import PawnNative.Proofs.Helping
import PawnNative.Proofs.Natives

/-! # Answers of helpers

    A helper goes back to the line after its call. Whether it could do what it was
    asked for is told in two ways: the helper that calls a native notes the fault in
    the record of the call, and the helper that finds code answers zero as well. The
    code looks at that and leaves the activation with the fault, or goes on.
-/

namespace PawnNative

open X64 Convention Template

/-! ## Section 1: Between the door and the return -/

/-- A machine that a helper came back to. -/
structure Machine.CameBack (m : Machine) (env : Environment) (K : Instance → Instance → Prop)
    (a : Activation) (rets : List Word) (rbp : Word) (o : Nat) : Prop
    extends m.Framed env K a rets rbp where
  rip : m.rip = env.layout.code + BitVec.ofNat 64 o

namespace Machine

variable {m m' : Machine} {env : Environment} {K : Instance → Instance → Prop} {a : Activation}
  {rets : List Word} {rbp : Word} {j o : Nat}

theorem atOffset_eq (hlayout : m.layout = env.layout)
    (hrip : m.rip = env.layout.code + BitVec.ofNat 64 o) : m.atOffset o = m := by
  rw [atOffset, hlayout, ← hrip]
  rfl

theorem CameBack.atOffset (h : m.CameBack env K a rets rbp o) : m.atOffset o = m :=
  atOffset_eq h.layout h.rip

theorem AtDoor.change (hK : Steady K) (h : m.AtDoor env K a rets rbp j o)
    (hlayout : m'.layout = m.layout) (hregs : ∀ r, m'.reg r = m.reg r)
    (hvm : K m.host.vm m'.host.vm)
    (hstack : ∀ i, i < 2 * (j + 2) → i / 2 ≠ a.base →
      m'.host.stack.get i = m.host.stack.get i) : m'.AtDoor env K a rets rbp j o := by
  have hbelow := h.below
  have hne : j + 1 ≠ a.base := by
    unfold Activation.top at hbelow
    omega
  refine ⟨h.toFramed.change hK hlayout (fun r _ => hregs r) hvm ?_, (hregs _).trans h.rsp,
    hbelow, h.near, ?_, h.aligned, h.deep⟩
  · intro i hi
    exact hstack i (by omega)
  · rw [NativeStack.word, hstack _ (by omega) (by omega), hstack _ (by omega) (by omega)]
    exact h.back

end Machine

namespace Environment.Ready

variable {env : Environment} {ctx : Context} {is : List Instruction} {size : Nat}
  (hr : env.Ready ctx is size) {K : Instance → Instance → Prop} (hK : Steady K) {m m' : Machine}
  {a : Activation} {rets : List Word} (hsize : a.host.vm.block.size = size) {rbp : Word} {j o : Nat}
  {k : Callbacks} (h : m.AtDoor env K a rets rbp j o)
include hr hK hsize h

theorem noteFault_door (f : Fault) :
    ∃ m', noteFault m (env.layout.slot (a.base + 4)) f = .ok m' ∧ m'.AtDoor env K a rets rbp j o ∧
      m'.host.log = m.host.log ∧ m'.host.vm = m.host.vm ∧
      m'.host.stack.get (2 * a.base) = f.code := by
  have hs := hr.separate_of_inside hK hsize h.toInside
  have hroom := h.room
  have haddress : env.layout.slot (a.base + 4) + BitVec.ofNat 64 CallField.error.offset =
      env.layout.slot a.base + 4 := by
    rw [← env.layout.slot_add a.base 4, BitVec.add_assoc]
    rfl
  obtain ⟨s, hstack⟩ : ∃ s, s = m.host.stack.set (2 * a.base) f.code := ⟨_, rfl⟩
  have hstore : noteFault m (env.layout.slot (a.base + 4)) f =
      .ok (m.setHost { m.host with stack := s }) := by
    rw [noteFault, haddress, hstack, ← h.layout]
    rw [← h.layout] at hs
    exact Machine.store32_eq_ok.mpr ⟨_, Host.store32_slot_high hs (by rw [h.layout]; omega) _, rfl⟩
  refine ⟨_, hstore, h.change hK rfl (fun _ => rfl) (hK.refl _) ?_, rfl, rfl, ?_⟩
  · intro i _ hi
    show s.get i = _
    rw [hstack, NativeStack.get_set_ne _ _ (by omega)]
  · show s.get _ = _
    rw [hstack, NativeStack.get_set_self]

theorem helperReturnCell_door (v : Cell) :
    ∃ m', env.helperReturnCell m v = .ok m' ∧ m'.CameBack env K a rets rbp o ∧ m'.host = m.host ∧
      m'.reg32 .rax = v ∧
      m'.reg .rax = ((env.platform.residue m).regs.get .rax).extractLsb' 32 32 ++ v := by
  obtain ⟨m', hreturn, hrip, hframed, hhost, hrax⟩ := hr.helperReturn_door hK hsize h
    (((env.platform.residue m).regs.get .rax).extractLsb' 32 32 ++ v)
  refine ⟨m', hreturn, ⟨hframed, hrip⟩, hhost, ?_, hrax⟩
  show (m'.reg .rax).setWidth 32 = v
  rw [hrax]
  exact BitVec.setWidth_append_eq_right

/-- The helper that takes a logarithm answers with it, and leaves the host alone. -/
theorem help_log :
    ∃ m', env.help k .floatLog m = .ok m' ∧ m'.CameBack env K a rets rbp o ∧ m'.host = m.host ∧
      m'.xmm.get 0 = Single.log (m.xmm.get 0) (m.xmm.get 1) := by
  obtain ⟨m₁, hreturn, hrip, hframed, hhost, -⟩ := hr.helperReturn_door hK hsize h
    ((env.platform.residue m).regs.get .rax)
  let m₂ : Machine := { m₁ with xmm := m₁.xmm.set 0 (Single.log (m.xmm.get 0) (m.xmm.get 1)) }
  have hframed₂ : m₂.Framed env K a rets rbp :=
    hframed.becomes hK ⟨rfl, fun _ (_ : _ ∉ []) => rfl, rfl⟩ (by decide)
  refine ⟨m₂, ?_, ⟨hframed₂, hrip⟩, hhost, XmmFile.get_set_self ..⟩
  rw [help, if_neg (not_not_intro h.toAligned.rsp_mod)]
  show env.helpLog m = _
  rw [helpLog, hreturn]
  rfl

/-- The helper that finds code answers with its address, or zero and a fault. -/
theorem help_find (hrdi : m.reg .rdi = env.layout.slot (a.base + 4)) :
    ∃ m', env.help k .findCode m = .ok m' ∧ m'.CameBack env K a rets rbp o ∧
      m'.host.vm = m.host.vm ∧
      (∀ x, env.codeAddress? (m.reg32 .rsi) = some x → m'.host = m.host ∧ m'.reg .rax = x) ∧
      (env.codeAddress? (m.reg32 .rsi) = none →
        m'.reg .rax = 0 ∧ m'.host.stack.get (2 * a.base) = Fault.invalidInstruction.code) := by
  rw [help, if_neg (not_not_intro h.toAligned.rsp_mod)]
  show ∃ m', env.helpFind m = _ ∧ _
  unfold helpFind
  cases env.codeAddress? (m.reg32 .rsi) with
  | some x =>
    obtain ⟨m₁, hreturn, hrip, hframed, hhost, hrax⟩ := hr.helperReturn_door hK hsize h x
    refine ⟨m₁, hreturn, ⟨hframed, hrip⟩, by rw [hhost], ?_, nofun⟩
    intro y hy
    rw [← Option.some_inj.mp hy]
    exact ⟨hhost, hrax⟩
  | none =>
    obtain ⟨m₁, hnote, hdoor, -, hvm, hnoted⟩ := hr.noteFault_door hK hsize h .invalidInstruction
    obtain ⟨m₂, hreturn, hrip, hframed, hhost, hrax⟩ := hr.helperReturn_door hK hsize hdoor 0
    refine ⟨m₂, ?_, ⟨hframed, hrip⟩, by rw [hhost, hvm], nofun, fun _ => ⟨hrax, ?_⟩⟩
    · rw [hrdi]
      show (noteFault m _ _ >>= _) = _
      rw [hnote]
      exact hreturn
    · rw [hhost, hnoted]

omit hr hK hsize in
/-- The helper that calls a native comes back only when the native does. -/
theorem exists_dispatch (hhelp : env.help k .callNative m = .ok m') : ∃ r host,
      dispatch k (m.reg32 .rsi) (argBlock m.regs) m.host = .ok (r, host) := by
  rw [help, if_neg (not_not_intro h.toAligned.rsp_mod)] at hhelp
  obtain ⟨⟨r, host⟩, hdispatch, -⟩ := bind_eq_ok.mp hhelp
  exact ⟨r, host, hdispatch⟩

/-- The helper that calls a native answers with its result, or notes its fault. -/
theorem help_native (hrdi : m.reg .rdi = env.layout.slot (a.base + 4))
    (hnatives : a.host.vm.NativesKeep K)
    (hk : k.Keep K (j + 2) a.host.vm) {r : Except Fault Cell} {host : Host}
    (hdispatch : dispatch k (m.reg32 .rsi) (argBlock m.regs) m.host = .ok (r, host)) :
    ∃ m', env.help k .callNative m = .ok m' ∧ m'.CameBack env K a rets rbp o ∧
      m'.host.vm = host.vm ∧ m'.host.log = host.log ∧
      (∀ v, r = .ok v → m'.reg32 .rax = v ∧ m.host.stack.Agrees (j + 2) m'.host.stack ∧
        m'.reg .rax =
        ((env.platform.residue (m.setHost host)).regs.get .rax).extractLsb' 32 32 ++ v) ∧
      (∀ f, r = .error f → m'.host.stack.get (2 * a.base) = f.code) := by
  have hfixed := hK.fixed h.steady
  have hkeep : m.host.vm.NativesKeep K := by
    intro native hmem
    rw [hfixed.natives] at hmem
    exact hnatives native hmem
  obtain ⟨hvm, hagrees⟩ := keep_dispatch hK hkeep (hk.mono (Nat.le_refl _) hfixed) hdispatch
  have hdoor : (m.setHost host).AtDoor env K a rets rbp j o := by
    refine h.change hK rfl (fun _ => rfl) hvm ?_
    intro i hi _
    exact hagrees i hi
  rw [help, if_neg (not_not_intro h.toAligned.rsp_mod)]
  show ∃ m', env.helpNative k m = _ ∧ _
  unfold helpNative
  rw [hdispatch, hrdi]
  -- A fault is noted in the record of the call before the helper returns; a value
  -- leaves the stack alone.
  cases r with
  | ok v =>
    obtain ⟨m₁, hreturn, hback, hhost, hrax, hwhole⟩ := hr.helperReturnCell_door hK hsize hdoor v
    refine ⟨m₁, hreturn, hback, by rw [hhost]; rfl, by rw [hhost]; rfl, ?_, nofun⟩
    intro v' hv
    obtain rfl := Except.ok.inj hv
    refine ⟨hrax, ?_, hwhole⟩
    rw [hhost]
    exact hagrees
  | error f =>
    obtain ⟨m₁, hnote, hdoor₁, hlog₁, hvm₁, hfault⟩ := hr.noteFault_door hK hsize hdoor f
    obtain ⟨m₂, hreturn, hback, hhost, -⟩ := hr.helperReturnCell_door hK hsize hdoor₁ 0
    refine ⟨m₂, ?_, hback, by rw [hhost, hvm₁]; rfl, by rw [hhost, hlog₁]; rfl, nofun, ?_⟩
    · show (noteFault (m.setHost host) _ _ >>= _) = _
      rw [hnote]
      exact hreturn
    · intro f' hf
      obtain rfl := Except.error.inj hf
      rw [hhost, hfault]

end Environment.Ready

/-! ## Section 2: Going on, or leaving with a fault -/

namespace Machine

variable {m m' : Machine} {env : Environment} {K : Instance → Instance → Prop} {a : Activation}
  {rets : List Word} {rbp : Word}

/-- What a register that points into the data segment leaves in the register file. -/
theorem reg32_sub_reg32 {r s : Reg} {d : Word} {x : Cell} (hr : m.reg r = d + x.setWidth 64)
    (hs : m.reg s = d) : m.reg32 r - m.reg32 s = x := by
  have hsum : m.reg32 r = m.reg32 s + x := by
    show (m.reg r).setWidth 32 = (m.reg s).setWidth 32 + x
    rw [hr, hs, BitVec.setWidth_add _ _ (by decide), BitVec.setWidth_setWidth_of_le _ (by decide),
      BitVec.setWidth_eq]
  rw [hsum, BitVec.add_comm, BitVec.add_sub_cancel]

theorem leftHost_eq (hstk : m.reg stk = m.reg data + m.host.vm.regs.stk.setWidth 64)
    (hfrm : m.reg frm = m.reg data + m.host.vm.regs.frm.setWidth 64) : m.leftHost = m.host := by
  rw [leftHost, reg32_sub_reg32 hstk rfl, reg32_sub_reg32 hfrm rfl]
  rfl

theorem Resumes.leftHost (h : m.Resumes m' env K a rets rbp) : m'.leftHost = m.host := by
  have hhost := h.becomes.host
  rw [← hhost]
  refine leftHost_eq ?_ ?_
  · rw [h.stk, h.inside.data, hhost]
  · rw [h.frm, h.inside.data, hhost]

theorem Resumes.home (h : m.Resumes m' env K a rets rbp)
    (hfault : m.host.stack.get (2 * a.base) = 0) : m'.Home env K a rets := by
  refine ⟨h.inside, h.rsp, ?_⟩
  rw [h.becomes.host, hfault]

theorem Home.becomes (hK : Steady K) (h : m.Home env K a rets) {ws : List Reg}
    (hm : Becomes ws m.host m m') (hws : ∀ r ∈ Instr.owned, r ∉ ws) : m'.Home env K a rets := by
  refine ⟨h.toInside.change hK hm.layout (hm.regs _ (hws _ (by decide)))
    (hm.regs _ (hws _ (by decide))) ?_ ?_, ?_, ?_⟩
  · rw [hm.host]
    exact hK.refl _
  · intro i _ _
    rw [hm.host]
  · rw [hm.regs _ (hws _ (by decide)), h.rsp]
  · rw [hm.host, h.fault]

theorem Resumes.setFlags (h : m.Resumes m' env K a rets rbp) (f : Flags) :
    m.Resumes (m'.setFlags f) env K a rets rbp :=
  ⟨h.becomes.setFlags f, ⟨h.inside.layout, h.inside.steady, h.inside.record, h.inside.data,
    h.inside.words, h.inside.returns, h.inside.room, h.inside.outer⟩, h.rsp, h.rbp, h.stk,
    h.frm, h.alt, h.file⟩

end Machine

/-- What follows the call of a native: the registers are loaded and the fault is looked at. -/
def settleLines : List Line :=
  resume ++ [.op (.aluMI .cmp (field .error) 0), .jcc .ne (.stub .pending)]

/-- What follows the search for code, up to the branch: the answer is kept in `rsi`. -/
def foundLines : List Line :=
  [.op (.movRR .q tmp1 .rax)] ++ resume ++
  [.op (.test .q tmp1 tmp1), .jcc .e (.stub .pending), loadFile tmp0,
   .op (.load .d pri (saved tmp0 .pri))]

theorem Fault.code_ne_zero (f : Fault) : f.code ≠ 0 := by
  cases f <;> decide

theorem holds_test (x : Word) : Cond.e.holds (logicFlags (x &&& x)) = some (x == 0) := by
  rw [BitVec.and_self]
  rfl

namespace Environment.Ready

variable {env : Environment} {ctx : Context} {is : List Instruction} {size : Nat}
  (hr : env.Ready ctx is size) {K : Instance → Instance → Prop} (hK : Steady K) {m m' : Machine}
  {a : Activation} {rets : List Word} (hsize : a.host.vm.block.size = size) {rbp : Word} {o : Nat}
  {ls : List Line}
include hr hK hsize

theorem exec_cmpFault (h : m.Inside env K a rets) : m.exec (.aluMI .cmp (field .error) 0) =
    .ok (m.setFlags (subFlags (m.host.stack.get (2 * a.base)) 0)) := by
  have hs := hr.separate_of_inside hK hsize h
  have hroom := h.room
  show (m.operand (field .error) >>= fun x => m.aluMem .cmp x 0) = _
  rw [Machine.operand_fault h.layout hs h.record (by omega), ok_bind, Machine.aluMem,
    Machine.load32_fault h.layout hs (by omega)]
  rfl

/-- **Run.** Instructions and a branch to the code for a fault that a helper has noted: when the
    branch is taken, the machine leaves the activation, and otherwise it goes on to the next
    line. -/
theorem goes_check {front : List Line} {cond : Cond} {b : Bool} (hne : front ≠ [])
    (hsteps : front.all Line.isStep)
    (hat : LinesFrom ctx is o (front ++ .jcc cond (.stub .pending) :: ls))
    (hm : m.layout = env.layout)
    (hexec : Machine.execLines front m = .ok m') (h : m'.Inside env K a rets)
    (hb : cond.holds m'.flags = some b) :
    (b = true → ∀ f : Fault, m'.host.stack.get (2 * a.base) = f.code → ∃ x r,
      env.Goes (env.Between ctx is) (1 + front.length) (m.atOffset o) x ∧
      env.Departs ctx is K a .pending (leaveSteps + 3) x r ∧ r.host = m'.leftHost ∧
      r.reg32 .rax = f.code) ∧
    (b = false → env.Goes (env.Between ctx is) (1 + front.length) (m.atOffset o)
      (m'.atOffset (o + linesSize front + 6))) := by
  have hgoes : ∀ {r}, env.Goes (env.Between ctx is) 1 (m'.atOffset (o + linesSize front)) r → _ :=
    hr.goes_then _ [.jcc cond (.stub .pending)] hne hsteps (by simp [Placeless]) hat
      hm hexec h.layout
  obtain ⟨k, dest, hdest, hjump⟩ := hr.goes_jcc hat.drop h.layout hb
  constructor
  · rintro rfl f hfault
    obtain ⟨dest', r, hplace, hdeparts, hhost, hrax⟩ := hr.departs_pending hK hsize h hfault
    obtain rfl := Option.some_inj.mp (hdest.symm.trans hplace)
    exact ⟨_, r, hgoes hjump, hdeparts, hhost, hrax⟩
  · rintro rfl
    exact hgoes hjump

/-- **Run.** After the call of a native a machine leaves with the fault that is in the record, or
    goes on when there is none. -/
theorem goes_settle (hat : LinesFrom ctx is o (settleLines ++ ls)) (h : m.Framed env K a rets rbp) :
    (∀ f : Fault, m.host.stack.get (2 * a.base) = f.code → ∃ x r,
      env.Goes (env.Between ctx is) settleLines.length (m.atOffset o) x ∧
      env.Departs ctx is K a .pending (leaveSteps + 3) x r ∧ r.host = m.host ∧
      r.reg32 .rax = f.code) ∧
    (m.host.stack.get (2 * a.base) = 0 → ∃ m', env.Goes (env.Between ctx is) settleLines.length
      (m.atOffset o) (m'.atOffset (o + linesSize settleLines)) ∧
      m.Resumes m' env K a rets rbp) := by
  obtain ⟨m₁, hresume, hm₁⟩ := hr.execLines_resume hK hsize h
  have hcmp := hr.exec_cmpFault hK hsize hm₁.inside
  rw [hm₁.becomes.host] at hcmp
  have hm₂ := hm₁.setFlags (subFlags (m.host.stack.get (2 * a.base)) 0)
  have hlines : LinesFrom ctx is o
      ((resume ++ [.op (.aluMI .cmp (field .error) 0)]) ++ .jcc .ne (.stub .pending) :: ls) := by
    simpa only [settleLines, List.append_assoc, List.cons_append, List.nil_append] using hat
  obtain ⟨htaken, hpassed⟩ := hr.goes_check hK hsize (List.cons_ne_nil _ _) rfl hlines h.layout
    ((Machine.execLines_append_ok hresume).trans (Machine.execLines_cons hcmp)) hm₂.inside
      (holds_unsigned _ _).2.1
  rw [hm₂.leftHost, hm₂.becomes.host] at htaken
  constructor
  · intro f hfault
    refine htaken ?_ f hfault
    rw [hfault]
    exact bne_iff_ne.mpr f.code_ne_zero
  · intro hfault
    exact ⟨_, hpassed (by rw [hfault]; rfl), hm₂⟩

/-- **Run.** After the search for code a machine leaves when there is none, and otherwise comes to
    the branch with the address in `rsi`. -/
theorem goes_found {i : Instr} (hat : LinesFrom ctx is o (foundLines ++ .op i :: ls))
    (h : m.Framed env K a rets rbp) :
    (m.reg .rax = 0 → ∀ f : Fault, m.host.stack.get (2 * a.base) = f.code → ∃ x r,
      env.Goes (env.Between ctx is) (resume.length + 3) (m.atOffset o) x ∧
      env.Departs ctx is K a .pending (leaveSteps + 3) x r ∧ r.host = m.host ∧
      r.reg32 .rax = f.code) ∧
    (m.reg .rax ≠ 0 → m.host.stack.get (2 * a.base) = 0 → ∃ m' : Machine,
      env.Goes (env.Between ctx is) foundLines.length (m.atOffset o)
        (m'.atOffset (o + linesSize foundLines)) ∧
      env.Between ctx is (m'.atOffset (o + linesSize foundLines)) ∧ m'.Home env K a rets ∧
      m'.reg tmp1 = m.reg .rax ∧ m'.host = m.host ∧ m'.Loaded (a.data env.layout) m.host.vm.regs ∧
      m'.reg tmp0 = env.layout.file) := by
  -- The answer moves to `rsi` first, for resuming loads all other registers anew.
  have hm₀ : Machine.Becomes [tmp1] m.host m (m.setReg tmp1 (m.reg .rax)) :=
    (Machine.Becomes.refl _ m).setReg (by decide) _
  obtain ⟨m₁, hresume, hm₁⟩ := hr.execLines_resume hK hsize (h.becomes hK hm₀ (by decide))
  have hrsi : m₁.reg tmp1 = m.reg .rax := hm₁.becomes.regs _ (by decide)
  have hm₂ := hm₁.setFlags (logicFlags (m₁.reg tmp1 &&& m₁.reg tmp1))
  have hflags := holds_test (m₁.reg tmp1)
  rw [hrsi] at hflags hm₂
  obtain ⟨m₂, hdef⟩ : ∃ m₂, m₂ = m₁.setFlags (logicFlags (m.reg .rax &&& m.reg .rax)) := ⟨_, rfl⟩
  have hfront : Machine.execLines
      ([.op (.movRR .q tmp1 .rax)] ++ resume ++ [.op (.test .q tmp1 tmp1)]) m = .ok m₂ := by
    refine (Machine.execLines_cons rfl).trans ((Machine.execLines_append_ok hresume).trans ?_)
    rw [hdef, ← hrsi]
    rfl
  rw [← hdef] at hm₂
  have hlines :
      LinesFrom ctx is o (([.op (.movRR .q tmp1 .rax)] ++ resume ++ [.op (.test .q tmp1 tmp1)]) ++
        .jcc .e (.stub .pending) ::
          ([loadFile tmp0, .op (.load .d pri (saved tmp0 .pri))] ++ .op i :: ls)) := by
    simpa only [foundLines, List.append_assoc, List.cons_append, List.nil_append] using hat
  obtain ⟨htaken, hpassed⟩ := hr.goes_check hK hsize (List.cons_ne_nil _ _) rfl hlines h.layout
    hfront hm₂.inside (by rw [hdef]; exact hflags)
  rw [hm₂.leftHost, hm₂.becomes.host] at htaken
  refine ⟨fun hzero => htaken (beq_iff_eq.mpr hzero), fun hzero hfault => ?_⟩
  -- There is code: the primary register is loaded once more, behind the check.
  have hlayout : m₂.layout = env.layout := hm₂.inside.layout
  have hs := hr.separate_of_inside hK hsize hm₂.inside
  have hload := hr.exec_loadFile hK hsize hm₂.inside tmp0
  have hpri := Machine.exec_loadSaved (m := m₂.setReg tmp0 env.layout.file) hlayout hs rfl .pri pri
  obtain ⟨m₃, hm₃⟩ : ∃ m₃, m₃ = (m₂.setReg tmp0 env.layout.file).setReg32 pri
    (m₂.host.vm.regs.get .pri) := ⟨_, rfl⟩
  obtain ⟨rest, hrest⟩ : ∃ rest :
      List Line, rest = [loadFile tmp0, .op (.load .d pri (saved tmp0 .pri))] :=
    ⟨_, rfl⟩
  have hlast : Machine.execLines rest m₂ = .ok m₃ := by
    rw [hrest, hm₃]
    exact (Machine.execLines_cons hload).trans (Machine.execLines_cons hpri)
  have hne : rest ≠ [] := hrest ▸ List.cons_ne_nil _ _
  have hsteps : rest.all Line.isStep := hrest ▸ rfl
  have hbecomes : Machine.Becomes [tmp0, pri] m₂.host m₂ m₃ := by
    rw [hm₃]
    exact ((Machine.Becomes.refl _ m₂).setReg (by decide) _).setReg (by decide) _
  rw [← hrest] at hlines
  have hbetween : env.Between ctx is (m₂.atOffset _) :=
    hr.between_lines [.jcc .e (.stub .pending)] rest hlines.drop (by simp [Placeless]) (by simp)
      (.of_isStep hne hsteps) hlayout
  have hgoes := (hpassed (beq_eq_false_iff_ne.mpr hzero)).trans hbetween
    (hr.goes_lines _ hne hsteps hlines.drop.tail hlayout hlast)
  have hbetween₃ := hr.between_steps rest [.op i] hlines.drop.tail hne hsteps (.op _)
    (hbecomes.layout.trans hlayout)
  have hhome : m₃.Home env K a rets := (hm₂.home hfault).becomes hK hbecomes (by decide)
  rw [hrest] at hgoes hbetween₃
  refine ⟨m₃, hgoes, hbetween₃, hhome, ?_, hbecomes.host.trans hm₂.becomes.host,
    ⟨?_, ?_, ?_, ?_, ?_⟩, ?_⟩
  · rw [hbecomes.regs _ (by decide), hm₂.becomes.regs _ (by decide)]
    rfl
  · rw [hbecomes.regs _ (by decide), hm₂.inside.data]
  · rw [hbecomes.regs _ (by decide), hm₂.stk]
    rfl
  · rw [hbecomes.regs _ (by decide), hm₂.frm]
    rfl
  · rw [hm₃, hm₂.becomes.host]
    rfl
  · rw [hbecomes.regs _ (by decide), hm₂.alt]
    rfl
  · rw [hm₃]
    rfl

/-- **Run.** After a logarithm a machine goes on, with the result in the primary register. -/
theorem goes_logged (hat : LinesFrom ctx is o (.op (.movdRX pri 0) :: (resume ++ ls)))
    (h : m.Framed env K a rets rbp) :
    ∃ m' : Machine, env.Goes (env.Between ctx is) (.op (.movdRX pri 0) :: resume : List Line).length
      (m.atOffset o) (m'.atOffset (o + linesSize (.op (.movdRX pri 0) :: resume))) ∧
      (m.setReg32 pri (m.xmm.get 0)).Resumes m' env K a rets rbp := by
  let m₀ := m.setReg32 pri (m.xmm.get 0)
  have hm₀ : Machine.Becomes [pri] m.host m m₀ := (Machine.Becomes.refl _ m).setReg (by decide) _
  obtain ⟨m₁, hresume, hm₁⟩ := hr.execLines_resume hK hsize (h.becomes hK hm₀ (by decide))
  have hall : Machine.execLines (.op (.movdRX pri 0) :: resume) m = .ok m₁ :=
    (Machine.execLines_cons rfl).trans hresume
  have hne : (.op (.movdRX pri 0) :: resume : List Line) ≠ [] := List.cons_ne_nil _ _
  exact ⟨m₁, hr.goes_lines _ hne rfl hat h.layout hall, hm₁⟩

end Environment.Ready

/-! ## Section 3: What helpers are asked for -/

def Template.NativeIndex.value (m : Machine) : NativeIndex → Cell
  | .const n => n
  | .pri => m.reg32 Convention.pri

def Template.ArgCount.block : ArgCount → ArgBlock
  | .pushed => .onStack
  | .const bytes => .push bytes

def nativeArgs (index : NativeIndex) (count : ArgCount) : List Line :=
  [.op (.movRR .q .rdi call),
   .op (match index with
     | .const n => .movRI32 .rsi n
     | .pri => .movRR .d .rsi Convention.pri)] ++
  (match count with
    | .pushed => [.op (.movRI32 .rdx 0), .op (.movRI32 .rcx 0)]
    | .const bytes => [.op (.movRI32 .rdx bytes), .op (.movRI32 .rcx 1)])

def findArgs : List Line := [.op (.movRR .q .rdi call), .op (.movRR .d .rsi pri)]

def logArgs (first : Nat) : List Line :=
  [.op (.movss 0 (FloatNative.argument first 0)), .op (.movss 1 (FloatNative.argument first 1))]

theorem callNative_eq (index : NativeIndex) (count : ArgCount) : callNative index count =
    suspend ++ nativeArgs index count ++ callHelper .callNative ++ settleLines := by
  cases count <;> rfl

theorem computed_eq (go : Reg → Instr) : computed go =
    suspend ++ findArgs ++ callHelper .findCode ++ (foundLines ++ [.op (go tmp1)]) := by
  simp only [computed, findArgs, foundLines, List.append_assoc]
  rfl

/-- The code of a computed branch up to the branch itself. -/
def searchLines : List Line := suspend ++ findArgs ++ callHelper .findCode ++ foundLines

theorem computed_search (go : Reg → Instr) : computed go = searchLines ++ [.op (go tmp1)] := by
  rw [computed_eq, searchLines]
  simp only [List.append_assoc]

theorem logLines_eq (first : Nat) : FloatNative.lines .floatlog first =
    suspend ++ logArgs first ++ callHelper .floatLog ++ .op (.movdRX pri 0) :: resume := by
  simp only [FloatNative.lines, logArgs, List.append_assoc, List.cons_append, List.nil_append]

section
variable {m m' : Machine} {index : NativeIndex} {count : ArgCount}

theorem setsArguments_native : SetsArguments (nativeArgs index count) := by
  refine ⟨by cases index <;> cases count <;> rfl, ?_⟩
  intro m m' h
  cases index <;> cases count <;> cases h <;>
    exact ((((Machine.Becomes.refl argumentRegs _).setReg (by decide) _).setReg
      (by decide) _).setReg (by decide) _).setReg (by decide) _

theorem setsArguments_find : SetsArguments findArgs := by
  refine ⟨rfl, ?_⟩
  intro m m' h
  cases h
  exact ((Machine.Becomes.refl argumentRegs m).setReg (by decide) _).setReg (by decide) _

theorem setsArguments_log (first : Nat) : SetsArguments (logArgs first) := by
  refine ⟨rfl, ?_⟩
  intro m m' h
  have hmovss : ∀ {m m' : Machine} {dst : Xmm} {o : Mem}, m.exec (.movss dst o) = .ok m' →
      Machine.Becomes argumentRegs m.host m m' := by
    intro m m' dst o h
    obtain ⟨x, -, h⟩ := bind_eq_ok.mp h
    obtain ⟨v, -, h⟩ := bind_eq_ok.mp h
    cases h
    exact ⟨rfl, fun _ _ => rfl, rfl⟩
  obtain ⟨m₁, hfirst, h⟩ := bind_eq_ok.mp h
  obtain ⟨m₂, hlast, h⟩ := bind_eq_ok.mp h
  cases h
  have hm₁ := hmovss hfirst
  have hm₂ := hmovss hlast
  rw [hm₁.host] at hm₂
  exact hm₁.trans hm₂

theorem execLines_nativeArgs (h : Machine.execLines (nativeArgs index count) m = .ok m') :
    m'.reg .rdi = m.reg call ∧ m'.reg32 .rsi = index.value m ∧
      Environment.argBlock m'.regs = count.block := by
  have hcell : ∀ x : Cell, (x.setWidth 64).setWidth 32 = x := by
    intro x
    rw [BitVec.setWidth_setWidth_of_le _ (by decide), BitVec.setWidth_eq]
  cases index <;> cases count <;> cases h
  case const.pushed n => exact ⟨rfl, hcell n, rfl⟩
  case const.const n bytes => exact ⟨rfl, hcell n, congrArg ArgBlock.push (hcell bytes)⟩
  case pri.pushed => exact ⟨rfl, hcell _, rfl⟩
  case pri.const bytes => exact ⟨rfl, hcell _, congrArg ArgBlock.push (hcell bytes)⟩

theorem Machine.Calls.native {env : Environment} {K : Instance → Instance → Prop} {a : Activation}
    {rets : List Word} {o : Nat} (h : m.Calls m' env K a rets (nativeArgs index count) o) :
    m'.reg .rdi = m.reg call ∧ m'.reg32 .rsi = index.value m ∧
      Environment.argBlock m'.regs = count.block := by
  obtain ⟨m₁, m₂, s, hexec, hm₁, hm₂, -⟩ := h.arguments
  have hm₁ := hm₁.regs
  obtain ⟨hrdi, hrsi, hblock⟩ := execLines_nativeArgs hexec
  have hsame : ∀ r, r ∉ [Reg.r11, .rsp] → m'.regs.get r = m₂.regs.get r := hm₂
  refine ⟨?_, ?_, ?_⟩
  · rw [hm₂ _ (by decide), hrdi, hm₁ _ (by decide)]
  · rw [Machine.reg32, hsame _ (by decide)]
    refine hrsi.trans ?_
    cases index with
    | const n => rfl
    | pri => exact congrArg (BitVec.setWidth 32) (hm₁ pri (by decide))
  · rw [Environment.argBlock, hsame _ (by decide), hsame _ (by decide)]
    exact hblock

theorem execLines_findArgs (h : Machine.execLines findArgs m = .ok m') :
    m'.reg .rdi = m.reg call := by
  cases h
  rfl

end

end PawnNative
