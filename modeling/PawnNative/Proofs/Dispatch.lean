import Mathlib.Tactic.Common
import PawnNative.Proofs.Calling

/-! # Calls of natives are balanced

    A native may push, pop, use the heap and call compiled functions, which call
    natives again, and it may end with a value, with a fault or by aborting. None of
    this reaches the code that called it but for the value or the fault: the frame is
    the same, the stack is where the instruction says, and every activation of
    compiled code that was there is still there. A value goes to the primary register
    and the next instruction follows; a fault ends the innermost activation, and no
    other one.

    `Dispatches` says how a call of a native can end, one way of ending at a time, and
    `dispatch_eq_ok_iff` that these are all the answers there are.
-/

namespace PawnNative

open X64 Convention Template

/-! ## Section 1: How natives end -/

/-- How a native ends. -/
inductive Ending (α : Type) where
  | value (a : α)
  | fault (f : Fault)
  | aborted

/-- What the code that called a native learns of its end. -/
def Ending.result {α : Type} : Ending α → Except Fault α
  | .value a => .ok a
  | .fault f => .error f
  | .aborted => .error .native

/-- A native acts on a host until it comes to an end. -/
inductive NativeProgram.RunsTo {α : Type} (k : Callbacks) :
    NativeProgram α → Host → Ending α → Host → Prop where
  | done {a : α} {h : Host} : RunsTo k (.done a) h (.value a) h
  | fail {f : Fault} {h : Host} : RunsTo k (.fail f) h (.fault f) h
  | abort {h : Host} : RunsTo k .abort h .aborted h
  | act {a : Action} {next : a.Answer → NativeProgram α} {answer : a.Answer} {h h₁ h' : Host}
      {ending : Ending α} (hact : k.perform a h = .ok (answer, h₁))
      (hnext : RunsTo k (next answer) h₁ ending h') : RunsTo k (.act a next) h ending h'

/-- A run of a native answers with how it ends. -/
theorem NativeProgram.exec_eq_ok_iff {α : Type} {k : Callbacks} {p : NativeProgram α} {h h' : Host}
    {r : Except Fault α} :
    p.exec k h = .ok (r, h') ↔ ∃ ending, p.RunsTo k h ending h' ∧ ending.result = r := by
  constructor
  · intro hexec
    induction p generalizing h with
    | done a =>
      cases hexec
      exact ⟨_, .done, rfl⟩
    | fail f =>
      cases hexec
      exact ⟨_, .fail, rfl⟩
    | abort =>
      cases hexec
      exact ⟨_, .abort, rfl⟩
    | act a next ih =>
      obtain ⟨⟨answer, h₁⟩, hact, hexec⟩ := bind_eq_ok.mp hexec
      obtain ⟨ending, hruns, hresult⟩ := ih answer hexec
      exact ⟨ending, .act hact hruns, hresult⟩
  · rintro ⟨ending, hruns, rfl⟩
    induction hruns with
    | done => rfl
    | fail => rfl
    | abort => rfl
    | act hact _ ih => exact bind_eq_ok.mpr ⟨_, hact, ih⟩

/-- The ways in which the call of a native comes to an end. -/
inductive Dispatches (k : Callbacks) (index : Cell) (block : ArgBlock) (h : Host) :
    Ending Cell → Host → Prop where
  /-- The byte count of the arguments cannot be pushed. -/
  | full {f : Fault} (hfull : CallContext.enter h.vm block = .error f) :
      Dispatches k index block h (.fault f) h
  /-- There is no such native. -/
  | unbound {c : CallContext} {vm : Instance} {f : Fault}
      (henter : CallContext.enter h.vm block = .ok (c, vm))
      (hnative : vm.nativeAt index = .error f) :
      Dispatches k index block h (.fault f) (h.setVm (c.leave vm))
  /-- The arguments cannot be read. -/
  | unread {c : CallContext} {vm : Instance} {native : Native} {f : Fault}
      (henter : CallContext.enter h.vm block = .ok (c, vm))
      (hnative : vm.nativeAt index = .ok native) (hparams : c.params vm = .error f) :
      Dispatches k index block h (.fault f) (h.setVm (c.leave vm))
  /-- The native runs. -/
  | ran {c : CallContext} {vm : Instance} {native : Native} {params : List Cell} {h' : Host}
      {ending : Ending Cell} (henter : CallContext.enter h.vm block = .ok (c, vm))
      (hnative : vm.nativeAt index = .ok native) (hparams : c.params vm = .ok params)
      (hruns : (native ⟨params, c.address⟩).RunsTo k (h.setVm vm) ending h') :
      Dispatches k index block h ending (h'.setVm (c.leave h'.vm))

/-- A dispatch answers with how the call ends. -/
theorem dispatch_eq_ok_iff {k : Callbacks} {index : Cell} {block : ArgBlock} {h h' : Host}
    {r : Except Fault Cell} : dispatch k index block h = .ok (r, h') ↔
      ∃ ending, Dispatches k index block h ending h' ∧ ending.result = r := by
  constructor
  · intro hdispatch
    unfold dispatch at hdispatch
    split at hdispatch
    · next f hfull =>
      cases hdispatch
      exact ⟨_, .full hfull, rfl⟩
    · next c vm henter =>
      dsimp only at hdispatch
      split at hdispatch
      · next f hfound =>
        cases hdispatch
        rcases bind_eq_error.mp hfound with hnative | ⟨native, hnative, hfound⟩
        · exact ⟨_, .unbound henter hnative, rfl⟩
        · rcases bind_eq_error.mp hfound with hparams | ⟨params, -, hfound⟩
          · exact ⟨_, .unread henter hnative hparams, rfl⟩
          · cases hfound
      · next native params hfound =>
        obtain ⟨native', hnative, hfound⟩ := bind_eq_ok.mp hfound
        obtain ⟨params', hparams, hfound⟩ := bind_eq_ok.mp hfound
        obtain ⟨rfl, rfl⟩ := Prod.mk.inj (Except.ok.inj hfound)
        obtain ⟨⟨r', h₁⟩, hexec, hdispatch⟩ := bind_eq_ok.mp hdispatch
        cases hdispatch
        obtain ⟨ending, hruns, hresult⟩ := NativeProgram.exec_eq_ok_iff.mp hexec
        exact ⟨ending, .ran henter hnative hparams hruns, hresult⟩
  · rintro ⟨ending, hdispatches, rfl⟩
    unfold dispatch
    cases hdispatches with
    | full hfull =>
      rw [hfull]
      rfl
    | unbound henter hnative =>
      rw [henter]
      dsimp only
      rw [hnative]
      rfl
    | unread henter hnative hparams =>
      rw [henter]
      dsimp only
      rw [hnative, ok_bind, hparams]
      rfl
    | ran henter hnative hparams hruns =>
      rw [henter]
      dsimp only
      rw [hnative, ok_bind, hparams, ok_bind]
      exact bind_eq_ok.mpr ⟨_, NativeProgram.exec_eq_ok_iff.mpr ⟨_, hruns, rfl⟩, rfl⟩

/-! ## Section 2: Stack and frame -/

/-- An action that does not write this register by itself. -/
def Action.Spares (r : RegisterName) (a : Action) : Prop := ∀ v, a ≠ .setRegister r v

section
variable {k : Callbacks} {h h' : Host}

/-- **Step.** Calls of compiled functions put the frame back. -/
theorem Callbacks.frm_perform (hk : k.Balanced) {a : Action} (ha : a.Spares .frm)
    {answer : a.Answer}
    (hperform : k.perform a h = .ok (answer, h')) : h'.vm.regs.frm = h.vm.regs.frm := by
  rcases k.perform_cases a hperform with ⟨-, address, r, hcall⟩ | ⟨name, value, rfl, rfl⟩ | ⟨hvm, -⟩
  · obtain ⟨body, hbody⟩ := hk address
    rw [hbody] at hcall
    obtain ⟨h₁, -, rfl⟩ := balanced_eq_ok.mp hcall
    rfl
  · cases name with
    | frm => exact absurd rfl (ha value)
    | pri | alt | stk | hea | hlw | stp | cip => rfl
  · exact hvm.frm

/-- **Run.** A native that does not write the frame by itself leaves it as it was. -/
theorem NativeProgram.frm_runsTo {α : Type} (hk : k.Balanced) {p : NativeProgram α}
    (hp : p.Only (Action.Spares .frm)) {ending : Ending α} (hruns : p.RunsTo k h ending h') :
    h'.vm.regs.frm = h.vm.regs.frm := by
  refine NativeProgram.exec_rel (R := fun h h' => h'.vm.regs.frm = h.vm.regs.frm) (fun _ => rfl)
    (fun hfirst hlast => hlast.trans hfirst) ?_ hp (exec_eq_ok_iff.mpr ⟨ending, hruns, rfl⟩)
  intro a h answer h' ha hperform
  exact Callbacks.frm_perform hk ha hperform

/-- Where a call leaves the stack: as it was, or above the arguments that are dropped, unless the
    byte count could not be pushed. -/
def ArgBlock.finalStk (vm : Instance) : ArgBlock → Cell
  | .onStack => vm.regs.stk
  | .push bytes =>
    match vm.pushCell bytes with
    | .ok _ => vm.regs.stk + bytes
    | .error _ => vm.regs.stk

theorem CallContext.enter_eq_ok {vm vm' : Instance} {block : ArgBlock} {c : CallContext}
    (henter : enter vm block = .ok (c, vm')) :
    vm.Operated vm' ∧ c.finalStk = block.finalStk vm := by
  cases block with
  | onStack =>
    cases henter
    exact ⟨.refl _, rfl⟩
  | push bytes =>
    obtain ⟨vm₁, hpush, henter⟩ := bind_eq_ok.mp henter
    cases henter
    refine ⟨Instance.operated_pushCell hpush, ?_⟩
    show vm.regs.stk + bytes = _
    rw [ArgBlock.finalStk, hpush]

/-- The call of a native leaves the frame as it was, and the stack where it belongs. -/
theorem Dispatches.frm_stk (hk : k.Balanced) {index : Cell} {block : ArgBlock}
    {ending : Ending Cell}
    (hnatives : ∀ native ∈ h.vm.natives, ∀ call, (native call).Only (Action.Spares .frm))
    (hd : Dispatches k index block h ending h') :
    h'.vm.regs.frm = h.vm.regs.frm ∧ h'.vm.regs.stk = block.finalStk h.vm := by
  cases hd with
  | full hfull =>
    refine ⟨rfl, ?_⟩
    cases block with
    | onStack => cases hfull
    | push bytes =>
      rcases bind_eq_error.mp hfull with hpush | ⟨vm', -, hdone⟩
      · rw [ArgBlock.finalStk, hpush]
      · cases hdone
  | unbound henter _ | unread henter _ _ =>
    obtain ⟨hvm, hstk⟩ := CallContext.enter_eq_ok henter
    exact ⟨hvm.frm, hstk⟩
  | @ran c vm native params h₁ _ henter hnative hparams hruns =>
    obtain ⟨hvm, hstk⟩ := CallContext.enter_eq_ok henter
    have hmem : native ∈ h.vm.natives := by
      rw [← hvm.natives]
      exact Instance.mem_natives_of_nativeAt hnative
    have hfrm := NativeProgram.frm_runsTo hk (hnatives native hmem _) hruns
    exact ⟨hfrm.trans hvm.frm, hstk⟩

/-- An action that leaves the alternate register of the register file as it is: it does not write
    it, and when it calls compiled code, such calls leave it as it is. -/
def Callbacks.SparesAlt (k : Callbacks) (a : Action) : Prop :=
  a.Spares .alt ∧ (a.isCall = true →
    ∀ address h r h', k.call address h = .ok (r, h') → h'.vm.regs.alt = h.vm.regs.alt)

/-- **Step.** No other action changes the alternate register. -/
theorem Callbacks.alt_perform {a : Action} (ha : k.SparesAlt a) {answer : a.Answer}
    (hperform : k.perform a h = .ok (answer, h')) : h'.vm.regs.alt = h.vm.regs.alt := by
  rcases k.perform_cases a hperform with ⟨hcall, address, r, hcalled⟩ |
    ⟨name, value, rfl, rfl⟩ | ⟨hvm, -⟩
  · exact ha.2 hcall address h r h' hcalled
  · cases name with
    | alt => exact absurd rfl (ha.1 value)
    | pri | frm | stk | hea | hlw | stp | cip => rfl
  · exact hvm.alt

/-- **Run.** The call of a native whose actions leave the alternate register as it is does so
    too. -/
theorem Dispatches.alt {index : Cell} {block : ArgBlock} {ending : Ending Cell}
    (hnatives : ∀ native ∈ h.vm.natives, ∀ call, (native call).Only k.SparesAlt)
    (hd : Dispatches k index block h ending h') : h'.vm.regs.alt = h.vm.regs.alt := by
  cases hd with
  | full _ => rfl
  | unbound henter _ | unread henter _ _ => exact (CallContext.enter_eq_ok henter).1.alt
  | @ran c vm native params h₁ _ henter hnative hparams hruns =>
    have hvm := (CallContext.enter_eq_ok henter).1
    have hmem : native ∈ h.vm.natives := by
      rw [← hvm.natives]
      exact Instance.mem_natives_of_nativeAt hnative
    refine .trans ?_ hvm.alt
    exact NativeProgram.exec_rel (R := fun h h' => h'.vm.regs.alt = h.vm.regs.alt) (fun _ => rfl)
      (fun hfirst hlast => hlast.trans hfirst)
      (fun _ _ _ _ ha hperform => Callbacks.alt_perform ha hperform) (hnatives native hmem _)
      (NativeProgram.exec_eq_ok_iff.mpr ⟨_, hruns, rfl⟩)

end

/-! ## Section 3: The code of a call -/

/-- A machine that has gone on from another one of the same activation and now holds the instance
    `vm`: the registers of the activation are the same, and so are the first `t` words of the native
    stack. -/
structure Machine.Carries (m m' : Machine) (t : Nat) (vm : Instance) : Prop where
  spilled : m'.spilled = vm
  stk : m'.reg Convention.stk = m.reg data + vm.regs.stk.setWidth 64
  frm : m'.reg Convention.frm = m.reg data + vm.regs.frm.setWidth 64
  kept : ∀ r ∈ [.rsp, .rbp, call, data], m'.reg r = m.reg r
  stack : m.host.stack.Agrees t m'.host.stack

theorem Machine.spilled_of_loaded {m : Machine}
    (halt : m.reg alt = m.host.vm.regs.alt.setWidth 64)
    (hstk : m.reg stk = m.reg data + m.host.vm.regs.stk.setWidth 64)
    (hfrm : m.reg frm = m.reg data + m.host.vm.regs.frm.setWidth 64) :
    m.spilled = m.host.vm.put .pri (m.reg32 pri) := by
  have halt : m.reg32 alt = m.host.vm.regs.alt := by
    show (m.reg alt).setWidth 32 = _
    rw [halt, BitVec.setWidth_setWidth_of_le _ (by decide), BitVec.setWidth_eq]
  rw [spilled, halt, reg32_sub_reg32 hstk rfl, reg32_sub_reg32 hfrm rfl]
  rfl

/-- After a helper the machine holds what the helper left of the instance, and the primary
    register. -/
theorem Machine.Resumes.carries {m m₁ m₂ : Machine} {env : Environment}
    {K : Instance → Instance → Prop}
    {a : Activation} {rets : List Word} (hm₂ : m₁.Resumes m₂ env K a rets (m.reg .rbp))
    (h : m.Home env K a rets) (hstack : m.host.stack.Agrees (a.top rets + 1) m₁.host.stack) :
    m.Carries m₂ (a.top rets + 1) (m₁.host.vm.put .pri (m₁.reg32 pri)) := by
  have hhost := hm₂.becomes.host
  have hpri : m₂.reg32 pri = m₁.reg32 pri :=
    congrArg (BitVec.setWidth 32) (hm₂.becomes.regs pri (by decide))
  have hdata := hm₂.inside.data
  constructor
  case spilled =>
    rw [Machine.spilled_of_loaded, hpri, hhost]
    · rw [hm₂.alt, hhost]
    · rw [hm₂.stk, hdata, hhost]
    · rw [hm₂.frm, hdata, hhost]
  case stk =>
    rw [h.data]
    exact hm₂.stk
  case frm =>
    rw [h.data]
    exact hm₂.frm
  case kept =>
    simp only [List.mem_cons, List.not_mem_nil, or_false]
    rintro r (rfl | rfl | rfl | rfl)
    · exact hm₂.rsp.trans h.rsp.symm
    · exact hm₂.rbp
    · exact hm₂.inside.record.trans h.record.symm
    · exact hdata.trans h.data.symm
  case stack =>
    rw [hhost]
    exact hstack

/-- How many steps it takes to come to the helper. -/
def callSteps (index : NativeIndex) (count : ArgCount) : Nat :=
  (suspend ++ nativeArgs index count ++ callHelper .callNative).length

namespace Environment

variable {env : Environment} {ctx : Context} {is : List Instruction}
  {K : Instance → Instance → Prop} {a : Activation} {m m₁ : Machine} {rets : List Word}
  {index : NativeIndex} {count : ArgCount} {o n : Nat} {ls : List Line}

theorem Ready.goes_native {size : Nat} (hr : env.Ready ctx is size) (hK : Steady K)
    (hsize : a.host.vm.block.size = size) (hat : LinesFrom ctx is o (callNative index count ++ ls))
    (h : m.Home env K a rets) (hroom : 8 * (a.top rets + 4) ≤ env.layout.stackSize) :
    ∃ m₁, env.Goes (env.Between ctx is) (callSteps index count) (m.atOffset o) m₁ ∧
      m₁.rip = Helper.callNative.address ∧
      m.Calls m₁ env K a rets (nativeArgs index count)
        (o + linesSize (suspend ++ nativeArgs index count ++ callHelper .callNative)) := by
  rw [callNative_eq, List.append_assoc] at hat
  rcases hr.goes_helper hK hsize .callNative setsArguments_native hat h with hcalls | ⟨hfail, -⟩
  · exact hcalls
  · rcases hfail with ⟨j, -, hnear, -, hfull⟩ | ⟨m₁, s, e, -, hargs⟩
    · omega
    · -- The arguments are constants and registers.
      cases index <;> cases count <;> cases hargs

/-- **Step.** However the call of a native ends, the machine goes on with the value or is back at
    the host with the fault. -/
theorem Backs.settles (hb : env.Backs ctx is K a (n + 1))
    (hat : LinesFrom ctx is o (callNative index count ++ ls)) (h : m.Home env K a rets)
    (hrip : m₁.rip = Helper.callNative.address)
    (hcalls : m.Calls m₁ env K a rets (nativeArgs index count)
      (o + linesSize (suspend ++ nativeArgs index count ++ callHelper .callNative)))
    {ending : Ending Cell} {host : Host} (hd : Dispatches (env.callbacks (env.run n) m₁.regs)
      (index.value m) count.block m₁.host ending host) :
    (∀ v, ending.result = .ok v → ∃ m' : Machine, (∀ n', n = n' + settleLines.length →
      env.Reaches (n + 1, m₁) (n', m'.atOffset (o + linesSize (callNative index count)))) ∧
      m.Carries m' (a.top rets + 1) (host.vm.put .pri v) ∧
      (m'.reg pri).upper = env.stale (m₁.setHost host)) ∧
    (∀ f, ending.result = .error f → ∃ m' : Machine,
      (∀ n', n = n' + (settleLines.length + leaveSteps + 3) → env.Reaches (n + 1, m₁) (n', m')) ∧
      m'.Returned env K a ∧ m'.host.vm = host.vm ∧ m'.reg32 .rax = f.code) := by
  obtain ⟨j, hdoor⟩ := hcalls.door
  obtain ⟨hrdi, hrsi, hblock⟩ := hcalls.native
  have hdispatch := dispatch_eq_ok_iff.mpr ⟨ending, hd, rfl⟩
  rw [← hrsi, ← hblock] at hdispatch
  obtain ⟨m₂, hhelp, hback, hvm, -, hvalue, hfault⟩ := hb.ready.help_native hb.steady rfl hdoor
    (hrdi.trans h.record) hb.natives
    (hb.calls n (Nat.lt_succ_self n) m₁.regs j hdoor.rsp hdoor.deep) hdispatch
  have hstep : env.Step (n + 1, m₁) (n, m₂) :=
    .helper (hb.ready.between_helper hrip hdoor.toAligned).host (by rw [hrip]; rfl) hhelp
  have hlines := hat
  rw [callNative_eq, List.append_assoc] at hlines
  obtain ⟨hleave, hresume⟩ := hb.ready.goes_settle hb.steady rfl hlines.drop hback.toFramed
  rw [hback.atOffset] at hleave hresume
  constructor
  · intro v hv
    obtain ⟨hrax, hagrees, hword⟩ := hvalue v hv
    have hbelow := hdoor.below
    -- The word for faults was zero before the call, and natives leave that part of the stack alone.
    have hclear : m₂.host.stack.get (2 * a.base) = 0 := by
      have htop : a.base < a.top rets := by
        unfold Activation.top
        omega
      rw [hagrees _ (by omega), hcalls.stack _ (by omega), h.fault]
    obtain ⟨m₃, hgoes, hm₃⟩ := hresume hclear
    rw [Nat.add_assoc, ← linesSize_append, ← callNative_eq] at hgoes
    refine ⟨m₃, ?_, ?_, ?_⟩
    · rintro n' rfl
      exact .head hstep (hgoes.reaches n')
    · rw [← hvm, ← hrax]
      exact hm₃.carries h (hcalls.stack.trans (hagrees.mono (by omega)))
    · rw [hm₃.becomes.regs pri (by decide), hword]
      exact Word.upper_append _ v
  · intro f hf
    obtain ⟨x, r, hgoes, hdeparts, hhost, hrax⟩ := hleave f (hfault f hf)
    refine ⟨r, ?_, hdeparts.returned, by rw [hhost, hvm], hrax⟩
    intro n' hn'
    have hsum : n = n' + (leaveSteps + 3) + settleLines.length := by omega
    have hout := (hgoes.reaches _).trans (hdeparts.goes.reaches n')
    rw [← hsum] at hout
    exact .head hstep hout

end Environment

/-! ## Section 4: Instructions that call natives -/

/-- Unless its work is done in place, a native is called. -/
theorem template_nativeCall {ctx : Context} {i : Instruction} {ls : List Line} {index : NativeIndex}
    {count : ArgCount} (hls : template ctx i = .ok ls) (hcall : i.nativeCall? = some (index, count))
    (hgeneric : inlined? ctx index count = none) : ls = callNative index count := by
  rw [template_native hls hcall, native, hgeneric]

namespace Environment

/-- After the call of a native the run goes on with the next instruction: the machine holds the
    instance `vm`, in the same activation. -/
def Continues (env : Environment) (m m₁ : Machine) (n next : Nat) (vm : Instance) : Prop :=
  ∃ m' : Machine, m.Carries m' m.nativeWords vm ∧
    ∀ n', n = n' + settleLines.length → env.Reaches (n + 1, m₁) (n', m'.atOffset next)

/-- After the call of a native the call that the run belongs to is over, with a fault. What its
    caller has on the native stack and in registers is as it was. -/
def EndsWith (env : Environment) (c : Invocation) (start : Nat) (m₁ : Machine) (n : Nat) (f : Fault)
    (vm : Instance) : Prop :=
  ∃ m' : Machine, m'.host.vm = vm ∧ c.host.stack.Agrees (c.depth + 2) m'.host.stack ∧
    (∀ r ∈ hostRegs, m'.reg r = c.regs.get r) ∧
    ∀ n', n = n' + 1 + (settleLines.length + leaveSteps + 3) →
      env.Reaches (n + 1, m₁) (n' + 1, m') ∧
      env.answer start c = .ok (.error f, c.host.putBack m'.host)

variable {env : Environment} {config : Config} {vm₀ : Instance} {c : Invocation} {start left : Nat}
  {i : Instruction} {after : List Instruction} {m : Machine} {index : NativeIndex}
  {count : ArgCount}

/-- A run that has come to the call of a native comes to the helper, and from there on it depends on
    how the native ends. -/
theorem Executes.settles (hm : env.Executes config vm₀ c start i after left m)
    (hcall : i.nativeCall? = some (index, count))
    (hgeneric : inlined? (.ofInstance config vm₀) index count = none)
    (hdeep : 8 * (m.nativeWords + 3) ≤ env.layout.stackSize) :
    ∃ (next : Nat) (m₁ : Machine), m₁.host.vm = m.spilled ∧ m₁.host.vm.natives = c.host.vm.natives ∧
      (∃ depth ≤ m.nativeWords + 1, m₁.reg .rsp = env.layout.slot (depth + 1)) ∧
      (∀ i' ∈ after.head?, env.program.offset? i'.address = some next) ∧
      ∀ n, left = n + 1 + callSteps index count → env.Reaches (left, m) (n + 1, m₁) ∧ ∀ ending host,
        Dispatches (env.callbacks (env.run n) m₁.regs) (index.value m) count.block
          m₁.host ending host →
        (∀ v, ending.result = .ok v →
          ∃ m' : Machine, m.Carries m' m.nativeWords (host.vm.put .pri v) ∧
          (m'.reg pri).upper = env.stale (m₁.setHost host) ∧
          ∀ n', n = n' + settleLines.length → env.Reaches (n + 1, m₁) (n', m'.atOffset next)) ∧
        (∀ f, ending.result = .error f → env.EndsWith c start m₁ n f host.vm) := by
  obtain ⟨before, hlisting⟩ := hm.listing
  obtain ⟨m₀, a, rets, o, ls, rest, hl⟩ := hm.locates hlisting
  have hat := hl.lines
  have hnext := hl.offset_next
  obtain rfl := template_nativeCall hl.template hcall hgeneric
  have hwords := hl.nativeWords
  obtain ⟨m₁, hgoes, hrip₁, hcalls⟩ := hl.ready.goes_native Instance.steady_fixed rfl hat hl.home
    (by unfold Activation.top; omega)
  rw [hl.atOffset] at hgoes
  obtain ⟨j, hdoor⟩ := hcalls.door
  have hdepth : j ≤ m.nativeWords + 1 := by
    have hnear := hdoor.near
    unfold Activation.top at hnear
    omega
  refine ⟨_, m₁, hcalls.vm, hdoor.steady.natives.trans hl.opens.starts.fixed.natives,
    ⟨j, hdepth, hdoor.rsp⟩, hnext, ?_⟩
  rintro n rfl
  refine ⟨hgoes.reaches (n + 1), fun ending host hd => ?_⟩
  obtain ⟨hvalue, hfault⟩ := (hl.backs (n + 1)).settles hat hl.home hrip₁ hcalls hd
  constructor
  · intro v hv
    obtain ⟨m', hreaches, hcarries, hupper⟩ := hvalue v hv
    refine ⟨m', ?_, hupper, hreaches⟩
    rw [hwords, show a.base + 14 + rets.length = a.top rets + 1 by unfold Activation.top; omega]
    exact hcarries
  · intro f hf
    obtain ⟨m', hreaches, hreturned, hvm, hrax⟩ := hfault f hf
    have houter := hreturned.outer.mono hl.opens.base
    have hregs := hreturned.regs
    rw [hl.opens.outer] at houter
    rw [hl.opens.regs] at hregs
    refine ⟨m', hvm, houter, hregs, ?_⟩
    rintro n' rfl
    have hlast := hreaches (n' + 1) rfl
    have hwhole := hl.reaches.trans ((hgoes.reaches _).trans hlast)
    exact ⟨hlast, hl.opens.answer_fault
      ((run_eq_of_reaches hwhole).trans (run_of_host hreturned.rip)) hrax⟩

end Environment

/-! ### The call of a native -/

/-- A call of the host that starts at the instruction that calls the native, which calls a
    function. -/
def importCall : Invocation where
  regs := { rsp := Layout.standard.stackTop - 64 }
  depth := 6
  address := 12
  host := { vm := { importInstance 1 #[passOn] with
    regs := { alt := 9, stp := 124, stk := 124, cip := -1 } } }

theorem inlined?_importCall :
    inlined? (.ofInstance {} (importInstance 0 #[])) (.const 0) (.const 4) = none := by
      decide +kernel

/-- A helper calls the native that calls the function. The native answers the argument that it has
    pushed, and the alternate register is what it was before the native. -/
theorem dispatches_passOn (residue : Machine → Residue) {p : Program} {m : Machine} {n depth : Nat}
    {index : Cell} {block : ArgBlock} {call : CallContext} {vm vm' : Instance} {params : List Cell}
    (hp : Program.ofInstance {} (importInstance 0 #[]) = .ok p)
    (henter : CallContext.enter m.host.vm block = .ok (call, vm))
    (hnative : vm.nativeAt index = .ok passOn) (hparams : call.params vm = .ok params)
    (hpush : vm.push 1 = .ok vm') (hsized : vm.Sized) (hsize : vm.block.size = 272)
    (hpending : vm.pending = 0) (hroom : vm.Room 4)
    (hrsp : m.reg .rsp = Layout.standard.slot (depth + 1)) (hdepth : depth ≤ 1000)
    (hn : importSteps ≤ n) :
    ∃ host : Host, host.vm.regs.alt = vm.regs.alt ∧
      let env : Environment := ⟨⟨.standard, residue⟩, p⟩
      Dispatches (env.callbacks (env.run n) m.regs) index block m.host (.value 1) host := by
  -- The call of the function starts on the native stack right below the helper.
  have hlast := (Instance.operated_push hpush).toFixed
  obtain ⟨host, hanswer, halt⟩ := answer_importEntry residue
    (c := ⟨m.regs, depth, 52, m.host.setVm vm'⟩) hp rfl (hlast.sized hsized)
    (hlast.size.trans hsize) hpending hpush hroom hrsp hdepth hn
  have hexec := exec_passOn (h := m.host.setVm vm) ⟨params, call.address⟩ hpush hanswer
  obtain ⟨ending, hruns, hresult⟩ := NativeProgram.exec_eq_ok_iff.mp hexec
  obtain rfl : ending = .value 1 := by
    cases ending with
    | value a => exact congrArg Ending.value (Except.ok.inj hresult)
    | fault f => cases hresult
    | aborted => cases hresult
  exact ⟨host.setVm (call.leave host.vm), halt, .ran henter hnative hparams hruns⟩

/-- Whatever helpers leave behind, the run of the call comes to the instruction. The native answers
    what the function answers that it calls. -/
theorem executes_importCall_on (residue : Machine → Residue) {p : Program}
    (hp : Program.ofInstance {} (importInstance 0 #[]) = .ok p) :
    ∃ m : Machine, (∀ left, Environment.Executes ⟨⟨.standard, residue⟩, p⟩ {} (importInstance 0 #[])
        importCall (left + entrySteps) ⟨12, .sysreqN, [0, 4]⟩ (importListing.drop 3) left m) ∧
      m.reg32 alt = 9 ∧ ArgBlock.finalStk m.spilled (.push 4) = 120 ∧
      8 * (m.nativeWords + 3) ≤ Layout.standard.stackSize ∧
      ∀ (n : Nat) (m₁ : Machine), importSteps ≤ n → m₁.host.vm = m.spilled →
        (∃ depth ≤ m.nativeWords + 1, m₁.reg .rsp = Layout.standard.slot (depth + 1)) →
        ∃ host : Host, host.vm.regs.alt = 9 ∧
          let env : Environment := ⟨⟨.standard, residue⟩, p⟩
          Dispatches (env.callbacks (env.run n) m₁.regs) 0 (.push 4) m₁.host (.value 1) host := by
  -- What the host does before and inside of the call, all on the same instance.
  have hhost : (do
      let vm₁ ← Instance.pushCell { importCall.host.vm with pending := 0 } 0
      let vm ← vm₁.pushCell 0
      let (c, vm₂) ← CallContext.enter vm (.push 4)
      let _ ← vm₂.nativeAt 0
      let _ ← c.params vm₂
      let _ ← vm₂.push 1
      return (vm.regs.alt, c.finalStk, vm₂.regs.stk, vm₂.regs.hea, vm₂.pending) :
        Except Fault (Cell × Cell × Cell × Cell × Nat)) = .ok (9, 120, 112, 0, 0) := by
    decide +kernel
  obtain ⟨vm₁, hpush₁, hhost⟩ := bind_eq_ok.mp hhost
  obtain ⟨vm, hpush₂, hhost⟩ := bind_eq_ok.mp hhost
  obtain ⟨⟨call, vm₂⟩, henter, hhost⟩ := bind_eq_ok.mp hhost
  obtain ⟨native, hnative, hhost⟩ := bind_eq_ok.mp hhost
  obtain ⟨params, hparams, hhost⟩ := bind_eq_ok.mp hhost
  obtain ⟨vm₃, hpush₃, hhost⟩ := bind_eq_ok.mp hhost
  obtain ⟨halt, hhost⟩ := Prod.mk.inj (Except.ok.inj hhost)
  obtain ⟨hfinal, hhost⟩ := Prod.mk.inj hhost
  obtain ⟨hstk, hhost⟩ := Prod.mk.inj hhost
  obtain ⟨hhea, hpending⟩ := Prod.mk.inj hhost
  have hsize : importCall.host.vm.block.size = 272 := size_importInstance 1 #[passOn]
  obtain ⟨d, m, hexecutes, hloaded, hm, hwords, hdeep⟩ := Environment.exists_executes_on
    (c := importCall) residue (importListing.take 2) ⟨12, .sysreqN, [0, 4]⟩ (importListing.drop 3)
    load_importImage hp decodes_importListing (by omega) rfl (by decide) rfl hpush₁ hpush₂
  have hspilled := Environment.spilled_of_loaded hloaded hm
  have hoperated := (CallContext.enter_eq_ok henter).1
  have hfixed : importCall.host.vm.Fixed vm₂ := by
    have hpushed := (Instance.operated_pushCell hpush₁).toFixed.trans
      ((Instance.operated_pushCell hpush₂).toFixed.trans hoperated.toFixed)
    exact ⟨hpushed.header, hpushed.natives, hpushed.size⟩
  refine ⟨m, hexecutes, ?_, ?_, hdeep, ?_⟩
  · rw [← halt, ← hspilled]
    rfl
  · rw [← hfinal, (CallContext.enter_eq_ok henter).2, ← hspilled]
  · rintro n m₁ hn hm₁ ⟨depth, hdepth, hrsp⟩
    obtain rfl : native = passOn := by
      have hmem : native ∈ vm₂.natives := Instance.mem_natives_of_nativeAt hnative
      rw [hfixed.natives] at hmem
      exact Array.mem_singleton.mp hmem
    have hsized : importCall.host.vm.Sized := ⟨by rw [hsize]; decide, by rw [hsize]; decide⟩
    have hroom : vm₂.Room 4 := by
      refine ⟨by rw [hhea]; decide, by rw [hhea, hstk]; decide, ?_⟩
      rw [hstk, Instance.dataSize, hfixed.header]
      decide
    have henter₁ : CallContext.enter m₁.host.vm (.push 4) = .ok (call, vm₂) := by
      rw [hm₁, hspilled]
      exact henter
    obtain ⟨host, halt', hdispatches⟩ := dispatches_passOn residue hp henter₁ hnative hparams hpush₃
      (hfixed.sized hsized) (hfixed.size.trans hsize) hpending hroom hrsp
      (show depth ≤ 1000 by have : importCall.depth = 6 := rfl; omega) hn
    refine ⟨host, ?_, hdispatches⟩
    rw [halt', hoperated.alt, halt]

/-! ## Section 5: Balance -/

section
variable {env : Environment} {config : Config} {vm₀ : Instance} {c : Invocation} {start left : Nat}
  {i : Instruction} {after : List Instruction} {m : Machine} {index : NativeIndex}
  {count : ArgCount}

/-- **Balance.** A run comes to an instruction that calls a native, in whatever state and however
    deep in calls. However the native ends, the frame is what it was, and the stack is what it was
    or, when the instruction drops the arguments, above them. A value goes to the primary register,
    and the run goes on with the next instruction. A fault, or the one that stands for an abort,
    ends the call that the run belongs to, and no other one. -/
theorem native_calls_are_balanced (hm : env.Executes config vm₀ c start i after left m)
    (hcall : i.nativeCall? = some (index, count))
    (hgeneric : inlined? (.ofInstance config vm₀) index count = none)
    (hnatives : ∀ native ∈ c.host.vm.natives, ∀ call, (native call).Only (Action.Spares .frm))
    (hdeep : 8 * (m.nativeWords + 3) ≤ env.layout.stackSize) :
    ∃ (next : Nat) (m₁ : Machine), m₁.host.vm = m.spilled ∧
      (∃ depth ≤ m.nativeWords + 1, m₁.reg .rsp = env.layout.slot (depth + 1)) ∧
      (∀ i' ∈ after.head?, env.program.offset? i'.address = some next) ∧
      ∀ n, left = n + 1 + callSteps index count → env.Reaches (left, m) (n + 1, m₁) ∧ ∀ ending host,
        Dispatches (env.callbacks (env.run n) m₁.regs) (index.value m) count.block
          m₁.host ending host →
        host.vm.regs.frm = m.spilled.regs.frm ∧ host.vm.regs.stk = count.block.finalStk m.spilled ∧
        (∀ v, ending.result = .ok v → env.Continues m m₁ n next (host.vm.put .pri v)) ∧
        (∀ f, ending.result = .error f → env.EndsWith c start m₁ n f host.vm) := by
  obtain ⟨next, m₁, hvm, hsame, hrsp, hnext, hruns⟩ := hm.settles hcall hgeneric hdeep
  refine ⟨next, m₁, hvm, hrsp, hnext, fun n hn => ⟨(hruns n hn).1, fun ending host hd => ?_⟩⟩
  obtain ⟨hfrm, hstk⟩ := hd.frm_stk (env.balanced_callbacks _ _) (by rw [hsame]; exact hnatives)
  rw [hvm] at hfrm hstk
  obtain ⟨hvalue, hfault⟩ := (hruns n hn).2 ending host hd
  refine ⟨hfrm, hstk, fun v hv => ?_, hfault⟩
  obtain ⟨m', hcarries, -, hreaches⟩ := hvalue v hv
  exact ⟨m', hcarries, hreaches⟩

/-- The native calls a function and answers what it answers, and its own argument is dropped. -/
theorem importCall_is_balanced : ∃ (p : Program) (n next : Nat) (m m₁ : Machine) (host : Host),
    Program.ofInstance {} (importInstance 0 #[]) = .ok p ∧ settleLines.length ≤ n ∧
    host.vm.regs.frm = m.spilled.regs.frm ∧ host.vm.regs.stk = 120 ∧
    Environment.Continues ⟨.standard, p⟩ m m₁ n next (host.vm.put .pri 1) := by
  obtain ⟨p, hp⟩ := exists_importProgram
  obtain ⟨m, hexecutes, -, hfinal, hdeep, hdispatches⟩ := executes_importCall_on (fun _ => {}) hp
  let n := importSteps + settleLines.length
  obtain ⟨next, m₁, hvm, hrsp, -, hruns⟩ := native_calls_are_balanced
    (hexecutes (n + 1 + callSteps (.const 0) (.const 4))) rfl inlined?_importCall
    (by
      intro native hmem call
      rw [Array.mem_singleton.mp hmem]
      refine ⟨by rintro _ ⟨⟩, fun _ => ⟨by rintro _ ⟨⟩, fun answer => ?_⟩⟩
      cases answer <;> trivial) hdeep
  obtain ⟨host, -, hd⟩ := hdispatches n m₁ (Nat.le_add_right _ _) hvm hrsp
  obtain ⟨hfrm, hstk, hvalue, -⟩ := (hruns n rfl).2 _ host hd
  exact ⟨p, n, next, m, m₁, host, hp, Nat.le_add_left _ _, hfrm, hstk.trans hfinal, hvalue 1 rfl⟩

/-- **The alternate register.** After the call of a native the next instruction sees in the
    alternate register what the register file has by then. That is what the register was before
    when every action of the native leaves the register file alone in this respect; calls of
    compiled code need not do so, for the code that they run stores its own alternate register
    whenever it calls a helper. -/
theorem alternate_register_after_native (hm : env.Executes config vm₀ c start i after left m)
    (hcall : i.nativeCall? = some (index, count))
    (hgeneric : inlined? (.ofInstance config vm₀) index count = none)
    (hdeep : 8 * (m.nativeWords + 3) ≤ env.layout.stackSize) :
    ∃ (next : Nat) (m₁ : Machine), m₁.host.vm = m.spilled ∧
      (∃ depth ≤ m.nativeWords + 1, m₁.reg .rsp = env.layout.slot (depth + 1)) ∧
      (∀ i' ∈ after.head?, env.program.offset? i'.address = some next) ∧
      ∀ n, left = n + 1 + callSteps index count → env.Reaches (left, m) (n + 1, m₁) ∧
        ∀ ending host v, Dispatches (env.callbacks (env.run n) m₁.regs) (index.value m) count.block
            m₁.host ending host → ending.result = .ok v →
          ∃ m' : Machine, m'.reg32 alt = host.vm.regs.alt ∧
            ((∀ native ∈ c.host.vm.natives, ∀ call,
              (native call).Only (env.callbacks (env.run n) m₁.regs).SparesAlt) →
                m'.reg32 alt = m.reg32 alt) ∧
            ∀ n', n = n' + settleLines.length →
              env.Reaches (left, m) (n', m'.atOffset next) := by
  obtain ⟨next, m₁, hvm, hsame, hrsp, hnext, hruns⟩ := hm.settles hcall hgeneric hdeep
  refine ⟨next, m₁, hvm, hrsp, hnext, fun n hn => ⟨(hruns n hn).1, fun ending host v hd hv => ?_⟩⟩
  obtain ⟨m', hcarries, -, hreaches⟩ := ((hruns n hn).2 ending host hd).1 v hv
  have halt : m'.reg32 alt = host.vm.regs.alt :=
    congrArg (fun vm : Instance => vm.regs.alt) hcarries.spilled
  refine ⟨m', halt, fun hspares => ?_, fun n' hn' => (hruns n hn).1.trans (hreaches n' hn')⟩
  rw [halt, hd.alt (by rw [hsame]; exact hspares), hvm]
  rfl

/-- The function that the native calls makes no calls, and the alternate register is what it was. -/
theorem importCall_keeps_alternate : ∃ (p : Program) (left left' next : Nat) (m m' : Machine),
    Program.ofInstance {} (importInstance 0 #[]) = .ok p ∧ p.offset? 24 = some next ∧
    m.reg32 alt = 9 ∧ m'.reg32 alt = 9 ∧
    Environment.Reaches ⟨.standard, p⟩ (left, m) (left', m'.atOffset next) := by
  obtain ⟨p, hp⟩ := exists_importProgram
  obtain ⟨m, hexecutes, halt, -, hdeep, hdispatches⟩ := executes_importCall_on (fun _ => {}) hp
  let n := importSteps + settleLines.length
  obtain ⟨next, m₁, hvm, hrsp, hnext, hruns⟩ := alternate_register_after_native
    (hexecutes (n + 1 + callSteps (.const 0) (.const 4))) rfl inlined?_importCall hdeep
  obtain ⟨host, hnine, hd⟩ := hdispatches n m₁ (Nat.le_add_right _ _) hvm hrsp
  obtain ⟨m', hfile, -, hreaches⟩ := (hruns n rfl).2 _ host 1 hd rfl
  exact ⟨p, _, _, next, m, m', hp, hnext ⟨24, .pushC, [9]⟩ rfl, halt, hfile.trans hnine,
    hreaches importSteps rfl⟩

end

end PawnNative
