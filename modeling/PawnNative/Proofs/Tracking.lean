import Mathlib.Tactic.Common
import PawnNative.Proofs.Abreast
import PawnNative.Proofs.FloatNatives

/-! # Runs side by side

    Where two programs go side by side, so do their runs, however deep they are in
    calls of functions, natives and compiled functions again. `Twins.tracks` says so
    for runs with any number of steps. The induction is on that number: a helper that
    calls a native takes one step, and the calls that the native makes are runs with
    fewer steps. `Callbacks.Agree` says what that gives for natives: whatever a native
    does, it comes to the same in both runs.
-/

namespace PawnNative

open X64 Convention Template

/-! ## Section 1: Natives side by side -/

/-- Two ways to make the calls of natives agree: on hosts with the same instance they come to the
    same, as long as all that happens in the calls of the first one are calls of natives. -/
structure Callbacks.Agree (k k' : Callbacks) (calls calls' : Cell → Host → List Event)
    (vm : Instance) : Prop where
  isInstruction : ∀ address, k'.isInstruction address = k.isInstruction address
  call : ∀ {address : Cell} {h h' x : Host} {r : Except Fault Cell}, vm.Fixed h.vm → h'.vm = h.vm →
    k.call address h = .ok (r, x) → (∀ e ∈ calls address h, e.isCall) →
    ∃ x', k'.call address h' = .ok (r, x') ∧ x'.vm = x.vm ∧ calls' address h' = calls address h

theorem Host.commit_of_vm {h h' x : Host} (hvm : h'.vm = h.vm) {y : Except Fault Instance}
    {answer : Except Fault Unit} (hy : h.commit y = (answer, x)) :
    ∃ x', h'.commit y = (answer, x') ∧ x'.vm = x.vm := by
  cases y with
  | ok vm =>
    cases hy
    exact ⟨_, rfl, rfl⟩
  | error f =>
    cases hy
    exact ⟨_, rfl, hvm⟩

theorem Host.commitCell_of_vm {h h' x : Host} (hvm : h'.vm = h.vm)
    {y : Except Fault (Cell × Instance)}
    {answer : Except Fault Cell} (hy : h.commitCell y = (answer, x)) :
    ∃ x', h'.commitCell y = (answer, x') ∧ x'.vm = x.vm := by
  cases y with
  | ok vm =>
    cases hy
    exact ⟨_, rfl, rfl⟩
  | error f =>
    cases hy
    exact ⟨_, rfl, hvm⟩

theorem CallContext.fixed_enter {vm vm₁ : Instance} {block : ArgBlock} {c : CallContext}
    (h : CallContext.enter vm block = .ok (c, vm₁)) : vm.Fixed vm₁ := by
  cases block with
  | onStack =>
    cases h
    exact .refl _
  | push bytes =>
    obtain ⟨vm₂, hpush, h⟩ := bind_eq_ok.mp h
    cases h
    exact Instance.steady_pushCell Instance.steady_fixed hpush

namespace Callbacks.Agree

variable {k k' : Callbacks} {calls calls' : Cell → Host → List Event} {vm : Instance}
  {h h' x : Host} (hagree : k.Agree k' calls calls' vm)
include hagree

theorem perform_quiet (a : Action) (ha : a.isCall = false) {answer : a.Answer} (heq : h'.vm = h.vm)
    (hperform : k.perform a h = .ok (answer, x)) : ∃ x', k'.perform a h' = .ok (answer, x') ∧
    x'.vm = x.vm := by
  cases a with
  | call | callPublic | callMain => cases ha
  | registers | cell | text | pending | findPublic =>
    cases hperform
    exact ⟨h', by rw [perform, heq], heq⟩
  | isInstruction address =>
    cases hperform
    exact ⟨h', by rw [perform, hagree.isInstruction], heq⟩
  | log entry =>
    cases hperform
    exact ⟨_, rfl, heq⟩
  | setRegister | release =>
    cases hperform
    refine ⟨_, rfl, ?_⟩
    simp only [Host.setVm, heq]
  | pushText s =>
    cases hperform
    refine ⟨h'.setVm (h'.vm.pushText s).vm, by simp only [perform, heq], ?_⟩
    simp only [Host.setVm, heq]
  | setCell | push | pushCell | dropCells =>
    obtain ⟨x', hx', hvm⟩ := Host.commit_of_vm heq (Except.ok.inj hperform)
    exact ⟨x', by rw [perform, heq, hx']; rfl, hvm⟩
  | allot | popCell =>
    obtain ⟨x', hx', hvm⟩ := Host.commitCell_of_vm heq (Except.ok.inj hperform)
    exact ⟨x', by rw [perform, heq, hx']; rfl, hvm⟩

/-- An action that calls a function comes to what the call comes to. -/
theorem of_target {a : Action} {address : Cell} {r : Except Fault Cell} (hvm : vm.Fixed h.vm)
    (heq : h'.vm = h.vm)
    (htarget : a.target? h.vm = some address) (hcall : k.call address h = .ok (r, x))
    (hcalls : ∀ e ∈ a.events calls h, e.isCall) :
    ∃ x', k'.call address h' = .ok (r, x') ∧ x'.vm = x.vm ∧
      a.events calls' h' = a.events calls h := by
  rw [Action.events, htarget] at hcalls
  rw [Action.events, Action.events, heq, htarget]
  exact hagree.call hvm heq hcall hcalls

theorem callPublic {index : Nat} {r : Except Fault Cell} (hvm : vm.Fixed h.vm) (heq : h'.vm = h.vm)
    (hcall : k.callPublic index h = .ok (r, x))
    (hcalls : ∀ e ∈ (Action.callPublic index).events calls h, e.isCall) :
    ∃ x', k'.callPublic index h' = .ok (r, x') ∧ x'.vm = x.vm ∧
      (Action.callPublic index).events calls' h' = (Action.callPublic index).events calls h := by
  unfold Callbacks.callPublic at hcall ⊢
  rw [heq]
  cases htarget : h.vm.publicAddress? index with
  | none =>
    rw [htarget] at hcall
    obtain ⟨rfl, rfl⟩ := Prod.mk.inj (Except.ok.inj hcall)
    have hnone : (Action.callPublic index).target? h.vm = none := htarget
    refine ⟨h', rfl, heq, ?_⟩
    rw [Action.events, Action.events, heq, hnone]
  | some address =>
    rw [htarget] at hcall
    exact hagree.of_target (a := .callPublic index) hvm heq htarget hcall hcalls

theorem callMain {r : Except Fault Cell} (hvm : vm.Fixed h.vm) (heq : h'.vm = h.vm)
    (hcall : k.callMain h = .ok (r, x)) (hcalls : ∀ e ∈ Action.callMain.events calls h, e.isCall) :
    ∃ x', k'.callMain h' = .ok (r, x') ∧ x'.vm = x.vm ∧
      Action.callMain.events calls' h' = Action.callMain.events calls h := by
  unfold Callbacks.callMain at hcall ⊢
  rw [heq]
  by_cases hcip : h.vm.header.cip.toInt < 0
  · rw [if_pos hcip] at hcall
    rw [if_pos hcip]
    obtain ⟨rfl, rfl⟩ := Prod.mk.inj (Except.ok.inj hcall)
    have hnone : Action.callMain.target? h.vm = none := if_pos hcip
    refine ⟨_, rfl, rfl, ?_⟩
    rw [Action.events, Action.events, heq, hnone]
  · rw [if_neg hcip] at hcall
    rw [if_neg hcip]
    exact hagree.of_target (a := .callMain) hvm heq (if_neg hcip) hcall hcalls

theorem perform (a : Action) {answer : a.Answer} (hvm : vm.Fixed h.vm) (heq : h'.vm = h.vm)
    (hperform : k.perform a h = .ok (answer, x)) (hcalls : ∀ e ∈ a.events calls h, e.isCall) :
    ∃ x', k'.perform a h' = .ok (answer, x') ∧ x'.vm = x.vm ∧
      a.events calls' h' = a.events calls h := by
  cases a with
  | call address =>
    have hcall : k.call address h = .ok (answer, x) := hperform
    obtain ⟨x', hx', hvm', hevents⟩ := hagree.call hvm heq hcall hcalls
    exact ⟨x', hx', hvm', hevents⟩
  | callPublic index =>
    have hcall : k.callPublic index h = .ok (answer, x) := hperform
    obtain ⟨x', hx', hvm', hevents⟩ := hagree.callPublic hvm heq hcall hcalls
    exact ⟨x', hx', hvm', hevents⟩
  | callMain =>
    have hcall : k.callMain h = .ok (answer, x) := hperform
    obtain ⟨x', hx', hvm', hevents⟩ := hagree.callMain hvm heq hcall hcalls
    exact ⟨x', hx', hvm', hevents⟩
  | _ =>
    obtain ⟨x', hx', hvm'⟩ := hagree.perform_quiet _ rfl heq hperform
    exact ⟨x', hx', hvm', rfl⟩

/-- **Run.** A whole native. The induction is on its actions. -/
theorem exec {n : Nat} (hkeep : k.Keep Instance.Fixed n vm) {α : Type} {p : NativeProgram α}
    {r : Except Fault α}
    (hvm : vm.Fixed h.vm) (heq : h'.vm = h.vm) (hexec : p.exec k h = .ok (r, x))
    (hcalls : ∀ e ∈ p.events k calls h, e.isCall) :
    ∃ x', p.exec k' h' = .ok (r, x') ∧ x'.vm = x.vm ∧
      p.events k' calls' h' = p.events k calls h := by
  induction p generalizing h h' with
  | done | fail | abort =>
    cases hexec
    exact ⟨h', rfl, heq, rfl⟩
  | act a next ih =>
    obtain ⟨⟨answer, h₁⟩, hperform, hexec⟩ := bind_eq_ok.mp hexec
    simp only [NativeProgram.events, hperform] at hcalls
    obtain ⟨h₁', hperform', heq₁, hevents⟩ := hagree.perform a hvm heq hperform
      fun e he => hcalls e (List.mem_append_left _ he)
    obtain ⟨hfixed, -⟩ := Callbacks.fixed_perform Instance.steady_fixed hkeep a hvm hperform
    obtain ⟨x', hexec', hx', hrest⟩ := ih answer (hvm.trans hfixed) heq₁ hexec
      fun e he => hcalls e (List.mem_append_right _ he)
    refine ⟨x', ?_, hx', ?_⟩
    · rw [NativeProgram.exec, hperform']
      exact hexec'
    · simp only [NativeProgram.events, hperform, hperform', hevents, hrest]

/-- **Run.** The calls of a native with argument blocks that were set up in two
    ways, with the same outcome. -/
theorem dispatch_entered {n : Nat} (hkeep : k.Keep Instance.Fixed n vm) {index : Cell}
    {block block' : ArgBlock}
    {c c' : CallContext} {vm₁ : Instance} {r : Except Fault Cell} (hvm : vm.Fixed vm₁)
    (henter : CallContext.enter h.vm block = .ok (c, vm₁))
    (henter' : CallContext.enter h'.vm block' = .ok (c', vm₁))
    (haddress : c'.address = c.address) (hdispatch : dispatch k index block h = .ok (r, x))
    (hcalls : ∀ e ∈ dispatchEvents k calls index block h, e.isCall) :
    ∃ x' vm₂, PawnNative.dispatch k' index block' h' = .ok (r, x') ∧ x.vm = c.leave vm₂ ∧
      x'.vm = c'.leave vm₂ ∧
      dispatchEvents k' calls' index block' h' = dispatchEvents k calls index block h := by
  have hsame : c'.params vm₁ = c.params vm₁ := by
    rw [CallContext.params, CallContext.params, haddress]
  unfold PawnNative.dispatch at hdispatch ⊢
  unfold dispatchEvents at hcalls ⊢
  simp only [henter] at hdispatch hcalls
  simp only [henter, henter', hsame, haddress]
  -- Once the arguments are set up nothing depends on how that was done.
  cases hnative : vm₁.nativeAt index with
  | error f =>
    rw [hnative] at hdispatch
    cases hdispatch
    exact ⟨_, vm₁, rfl, rfl, rfl, rfl⟩
  | ok native =>
    cases hparams : c.params vm₁ with
    | error f =>
      rw [hnative, hparams] at hdispatch
      cases hdispatch
      exact ⟨_, vm₁, rfl, rfl, rfl, rfl⟩
    | ok params =>
      simp only [hnative, hparams] at hdispatch hcalls ⊢
      obtain ⟨⟨result, h₁⟩, hexec, hdispatch⟩ := bind_eq_ok.mp hdispatch
      cases hdispatch
      have hentered : (h'.setVm vm₁).vm = (h.setVm vm₁).vm := rfl
      obtain ⟨h₁', hexec', heq₁, hevents⟩ := hagree.exec hkeep hvm hentered hexec
        fun e he => hcalls e (List.mem_cons_of_mem _ he)
      refine ⟨h₁'.setVm (c'.leave h₁'.vm), h₁.vm, ?_, rfl, ?_, congrArg _ hevents⟩
      · show (_ >>= _) = _
        rw [hexec']
        rfl
      · show c'.leave h₁'.vm = c'.leave h₁.vm
        rw [heq₁]

theorem dispatch {n : Nat} (hkeep : k.Keep Instance.Fixed n vm) {index : Cell} {block : ArgBlock}
    {r : Except Fault Cell} (hvm : vm.Fixed h.vm) (heq : h'.vm = h.vm)
    (hdispatch : dispatch k index block h = .ok (r, x))
    (hcalls : ∀ e ∈ dispatchEvents k calls index block h, e.isCall) :
    ∃ x', PawnNative.dispatch k' index block h' = .ok (r, x') ∧ x'.vm = x.vm ∧
      dispatchEvents k' calls' index block h' = dispatchEvents k calls index block h := by
  cases henter : CallContext.enter h.vm block with
  | error f =>
    unfold PawnNative.dispatch at hdispatch ⊢
    unfold dispatchEvents
    rw [heq, henter]
    rw [henter] at hdispatch
    cases hdispatch
    exact ⟨h', rfl, heq, rfl⟩
  | ok entered =>
    obtain ⟨c, vm₁⟩ := entered
    obtain ⟨x', vm₂, hdispatch', hx, hx', hevents⟩ := hagree.dispatch_entered hkeep
      (hvm.trans (CallContext.fixed_enter henter)) henter (heq ▸ henter) rfl hdispatch hcalls
    exact ⟨x', hdispatch', hx'.trans hx.symm, hevents⟩

end Callbacks.Agree

/-! ## Section 2: Calls side by side -/

theorem Environment.down_entry {env : Environment} {regs : RegFile} {h : Host}
    {target : Word} {m : Machine} (hentry : env.entry regs h target = .ok m) : m.down = false := by
  obtain ⟨h₁, -, hpush⟩ := bind_eq_ok.mp hentry
  exact (Machine.upright_push hpush).down rfl

namespace Twins

variable {t : Twins} {n n' j : Nat} {regs regs' : RegFile} {address : Cell} {h h' x : Host}
  {vm : Instance} {r : Except Fault Cell}

theorem offset_isSome (address : Cell) :
    (t.follower.program.offset? address).isSome = (t.leader.program.offset? address).isSome := by
  rw [Bool.eq_iff_iff, t.ready.finishes.offset_isSome_iff, t.ready'.finishes.offset_isSome_iff]

/-- The code of an instruction is at places side by side. -/
theorem beside_of_offset {o : Nat} (ho : t.leader.program.offset? address = some o) :
    ∃ o', t.follower.program.offset? address = some o' ∧
      ∀ kn, Beside t.erasing t.ctx t.is kn o o' := by
  rw [t.ready.finishes.offset] at ho
  rw [t.ready'.finishes.offset]
  exact Beside.of_placed (t := .code address) (k := 0) t.ready.finishes t.ready'.finishes rfl
    (fun _ => by simp [refusal]) ho

/-- **Entering.** Machines that enter the programs for the same function go side by side. -/
theorem shadows_entry {a a' : Activation} {m m' : Machine} {o o' : Nat} (ih : ∀ n₁ < n, t.Tracks n₁)
    (hsize : a.host.vm.block.size = t.size) (hbase : a'.base = a.base)
    (hvm : a'.host.vm = a.host.vm)
    (h : m.Entered t.leader a (t.leader.layout.code + BitVec.ofNat 64 o)) (hup : m.down = false)
    (h' : m'.Entered t.follower a' (t.follower.layout.code + BitVec.ofNat 64 o'))
    (hup' : m'.down = false) (hbeside : Beside t.erasing t.ctx t.is .held o o') :
    t.Shadows (t.leader.layout.slot (a.base + 4)) n m m' := by
  by_cases hroom : 8 * (a.base + 14) ≤ t.leader.layout.stackSize
  · obtain ⟨m₁, hgoes, hhome, hloaded, hvm₁, hfile⟩ :=
      t.ready.goes_entry hsize Instance.steady_fixed h hroom
    obtain ⟨m₁', hgoes', hhome', hloaded', hvm₁', hfile'⟩ :=
      t.ready'.goes_entry (by rw [hvm, hsize])
      Instance.steady_fixed h' (by rw [hbase, layout_eq]; exact hroom)
    rw [Machine.jumpTo_code hhome.layout] at hgoes
    rw [Machine.jumpTo_code hhome'.layout] at hgoes'
    rw [hvm, Activation.data, hvm, layout_eq] at hloaded'
    have h₁ := abreast_of_loaded hsize hbase hhome hhome' .nil (by rw [hvm₁, hvm₁', hvm])
      (hgoes.down_atOffset hup) (hgoes'.down_atOffset hup') hloaded hloaded' hfile hfile'
    exact h₁.shadows hbeside ih hgoes hgoes'
  · intro r hclean
    have hhost : m.rip ≠ t.leader.layout.hostReturn := by
      rw [h.rip]
      simpa using t.ready.code_ne_host (Nat.zero_le _)
    have hleads := t.ready.leads_entry_full (Q := fun _ => False) hsize h (by omega) n
    exact absurd hclean.run (hleads.run_ne (fun m hm => hm.host) hhost r)

section
variable (ih : ∀ n₁ < n, t.Tracks n₁) (hn : n ≤ n')
  (hrsp : regs.get .rsp = t.leader.layout.slot (j + 1)) (hrsp' : regs'.get .rsp = regs.get .rsp)
  (hroom : 8 * (j + 2) ≤ t.leader.layout.stackSize)
include ih hn hrsp hrsp' hroom

/-- **Run.** Two runs of a function, with the same instance and at the same
    depth of the native stack. -/
theorem activate {o o' : Nat} {m : Machine} (hvm : h'.vm = h.vm) (hsize : h.vm.block.size = t.size)
    (hbeside : Beside t.erasing t.ctx t.is .held o o')
    (hentry : t.leader.entry regs h (t.leader.layout.code + BitVec.ofNat 64 o) = .ok m)
    (hactivate : t.leader.activate (t.leader.run n) regs h
      (t.leader.layout.code + BitVec.ofNat 64 o) = .ok (r, x))
    (hcalls : ∀ e ∈ t.leader.trace t.stub n m, e.isCall) :
    ∃ m' x', t.follower.entry regs' h' (t.follower.layout.code + BitVec.ofNat 64 o') = .ok m' ∧
      t.follower.activate (t.follower.run n') regs' h'
        (t.follower.layout.code + BitVec.ofNat 64 o') = .ok (r, x') ∧
      x'.vm = x.vm ∧ t.follower.trace none n' m' = t.leader.trace t.stub n m := by
  obtain ⟨base, -, hrecord, hentered⟩ :=
    Environment.exists_activation (by rw [hsize]; exact t.ready) hrsp hroom hentry
  -- The follower enters at the same depth, so that it has room as well.
  have hseparate : t.follower.layout.Separate h'.vm.block.size t.follower.program.code.size := by
    rw [hvm, hsize]
    exact t.ready'.separate
  obtain ⟨m', hentry', hentered'⟩ : ∃ m',
      t.follower.entry regs' h' (t.follower.layout.code + BitVec.ofNat 64 o') = .ok m' ∧
      m'.Entered t.follower ⟨base, regs', h'⟩ (t.follower.layout.code + BitVec.ofNat 64 o') :=
    Environment.exists_entry hseparate (by rw [hrsp', layout_eq]; exact hrecord)
      (by rw [layout_eq]; exact hentered.room)
  have hbase : (⟨base, regs', h'⟩ : Activation).base = (⟨base, regs, h⟩ : Activation).base := rfl
  -- Inside of the activation the runs go side by side; status and result are
  -- read from what they tell.
  rw [Environment.activate, hentry, ok_bind] at hactivate
  obtain ⟨y, hrun, hactivate⟩ := bind_eq_ok.mp hactivate
  obtain ⟨y', hrun', htrace, htell⟩ := t.shadows_entry ih hsize hbase hvm
    hentered (Environment.down_entry hentry) hentered' (Environment.down_entry hentry') hbeside y
      ⟨hrun, hcalls⟩ n' hn
  refine ⟨m', y'.host, hentry', ?_, ?_, htrace⟩
  · rw [Environment.activate, hentry', ok_bind, hrun', ok_bind, htell.status, hrsp']
    cases hcode : Fault.ofCode (y.reg32 .rax) with
    | some f =>
      rw [hcode] at hactivate
      cases hactivate
      rfl
    | none =>
      rw [hcode] at hactivate
      obtain ⟨v, hload, hactivate⟩ := bind_eq_ok.mp hactivate
      cases hactivate
      have hzero := Fault.ofCode_eq_none_iff.mp hcode
      have hload' := htell.result hzero
      rw [hrecord] at hload ⊢
      exact bind_eq_ok.mpr ⟨v, hload'.trans hload, rfl⟩
  · rw [htell.vm]
    split at hactivate
    · cases hactivate
      rfl
    · obtain ⟨v, -, hactivate⟩ := bind_eq_ok.mp hactivate
      cases hactivate
      rfl

/-- **Run.** The calls that natives make agree, when the runs with fewer steps go side by side. -/
theorem agree_callbacks (hsize : vm.block.size = t.size) :
    (t.leader.callbacks (t.leader.run n) regs).Agree
      (t.follower.callbacks (t.follower.run n') regs')
      (t.leader.callEvents (t.leader.trace t.stub n) regs)
      (t.follower.callEvents (t.follower.trace none n') regs') vm := by
  refine ⟨offset_isSome, ?_⟩
  intro address h h' x r hfixed hvm hcall hcalls
  obtain ⟨h₁, hinvoke, rfl⟩ := balanced_eq_ok.mp hcall
  -- What is left to show about the two calls, before stack, heap and frame are put back.
  suffices hsuffices : ∃ h₁', t.follower.invoke (t.follower.run n') regs' address h'.vm.pending
        (h'.setVm { h'.vm with pending := 0 }) = .ok (r, h₁') ∧ h₁'.vm = h₁.vm ∧
      t.follower.callEvents (t.follower.trace none n') regs' address h' =
        t.leader.callEvents (t.leader.trace t.stub n) regs address h by
    obtain ⟨h₁', hinvoke', hvm₁, hevents⟩ := hsuffices
    refine ⟨h'.putBack h₁', balanced_eq_ok.mpr ⟨h₁', hinvoke', rfl⟩, ?_, hevents⟩
    simp only [Host.putBack, Host.setVm, hvm, hvm₁]
  unfold Environment.callEvents Environment.entering? at hcalls ⊢
  unfold Environment.invoke at hinvoke ⊢
  unfold Environment.codeAddress? at hcalls hinvoke ⊢
  rw [hvm]
  cases ho : t.leader.program.offset? address with
  | none =>
    have ho' : t.follower.program.offset? address = none :=
      Option.not_isSome_iff_eq_none.mp (by rw [offset_isSome, ho]; exact Bool.false_ne_true)
    rw [ho] at hinvoke
    rw [ho']
    cases hinvoke
    exact ⟨_, rfl, rfl, rfl⟩
  | some o =>
    obtain ⟨o', ho', hbeside⟩ := t.beside_of_offset ho
    rw [ho, Option.map_some] at hcalls hinvoke
    rw [ho', Option.map_some]
    cases hpush₁ :
      Instance.pushCell { h.vm with pending := 0 }
        (BitVec.ofNat 32 (h.vm.pending * Cell.width)) with
    | error f =>
      simp only [Host.setVm, hpush₁] at hinvoke ⊢
      cases hinvoke
      exact ⟨_, rfl, rfl, rfl⟩
    | ok vm₁ =>
      simp only [Host.setVm, hpush₁] at hcalls hinvoke ⊢
      cases hpush₂ : vm₁.pushCell 0 with
      | error f =>
        simp only [hpush₂] at hinvoke ⊢
        cases hinvoke
        exact ⟨_, rfl, rfl, rfl⟩
      | ok vm₂ =>
        simp only [hpush₂] at hcalls hinvoke ⊢
        have hfixed₁ := Instance.steady_pushCell Instance.steady_fixed hpush₁
        have hfixed₂ := hfixed₁.trans (Instance.steady_pushCell Instance.steady_fixed hpush₂)
        have hsize₂ : vm₂.block.size = t.size := by
          rw [hfixed₂.size, ← hsize]
          exact hfixed.size
        obtain ⟨m, hentry, -⟩ := bind_eq_ok.mp hinvoke
        rw [hentry] at hcalls
        obtain ⟨m', x', hentry', hactivate', hvm', htrace⟩ := t.activate ih hn hrsp hrsp' hroom
          (show (h'.setVm vm₂).vm = (h.setVm vm₂).vm from rfl) hsize₂ (hbeside .held) hentry hinvoke
          hcalls
        refine ⟨x', hactivate', hvm', ?_⟩
        simp only [Host.setVm] at hentry'
        simp only [Option.map_some, hentry, hentry']
        exact htrace

end

end Twins

/-! ## Section 3: Helpers side by side -/

theorem Layout.eq_of_aligned {l : Layout} {i j k : Nat} (hi : l.slot i % 16 = 0)
    (hj : l.slot j % 16 = 0)
    (hlow : k ≤ i) (hhigh : i ≤ k + 1) (hlow' : k ≤ j) (hhigh' : j ≤ k + 1) : j = i := by
  have hnext : ∀ i, l.slot i % 16 = 0 → l.slot (i + 1) % 16 ≠ 0 := by
    intro i hi hnext
    have hi : (l.slot i).toNat % 16 = 0 := congrArg BitVec.toNat hi
    have hnext : (l.slot (i + 1)).toNat % 16 = 0 := congrArg BitVec.toNat hnext
    rw [← Layout.slot_sub, BitVec.toNat_sub] at hnext
    have height : (8 : Word).toNat = 8 := rfl
    omega
  rcases Nat.lt_trichotomy i j with hlt | heq | hlt
  · obtain rfl : j = i + 1 := by omega
    exact absurd hj (hnext i hi)
  · exact heq.symm
  · obtain rfl : i = j + 1 := by omega
    exact absurd hi (hnext j hj)

/-- No fault is noted while the words of the activation are as they were. -/
theorem Machine.Calls.fault {m x y : Machine} {env : Environment} {K : Instance → Instance → Prop}
    {a : Activation}
    {rets : List Word} {args : List Line} {o : Nat} (hcalls : m.Calls x env K a rets args o)
    (h : m.Home env K a rets)
    (hy : x.host.stack.Agrees (a.top rets + 1) y.host.stack) :
      y.host.stack.get (2 * a.base) = 0 := by
  have htop : a.base < a.top rets := by
    unfold Activation.top
    omega
  rw [hy _ (by omega), hcalls.stack _ (by omega), h.fault]

theorem Machine.Calls.find {m x : Machine} {env : Environment} {K : Instance → Instance → Prop}
    {a : Activation} {rets : List Word} {o : Nat} (hcalls : m.Calls x env K a rets findArgs o) :
    x.reg .rdi = m.reg call ∧ x.reg32 .rsi = m.reg32 pri := by
  obtain ⟨m₁, m₂, s, hexec, hm₁, hm₂, -⟩ := hcalls.arguments
  cases hexec
  have hrsi : x.reg .rsi = (m₁.reg32 pri).setWidth 64 := hm₂ _ (by decide)
  refine ⟨(hm₂ .rdi (by decide)).trans (hm₁.regs call (by decide)), ?_⟩
  show (x.reg .rsi).setWidth 32 = (m.reg pri).setWidth 32
  rw [hrsi, BitVec.setWidth_setWidth_of_le _ (by decide), BitVec.setWidth_eq]
  exact congrArg (BitVec.setWidth 32) (hm₁.regs pri (by decide))

theorem Environment.Ready.code_ne_zero {env : Environment} {ctx : Context}
    {is : List Instruction} {size o : Nat}
    {address : Cell} (hr : env.Ready ctx is size) (ho : env.program.offset? address = some o) :
    env.layout.code + BitVec.ofNat 64 o ≠ 0 := by
  intro hzero
  have hcode := hr.toNat_code (hr.offset?_le ho)
  have hlow := hr.separate.code_low
  rw [hzero] at hcode
  have : (0 : Word).toNat = 0 := rfl
  omega

namespace Twins

variable {t : Twins} {n : Nat} {a a' : Activation} {rets rets' : List Word} {kn : Known}
  {m m' : Machine} {o o' j : Nat} {xs ys : List (Nat × Line)}

/-- The registers were stored and the native stack was aligned before a helper was called. -/
abbrev Suspended (m x : Machine) : Prop :=
  ∃ s, Machine.Becomes [.rdx, .rsi, .rbp, .rsp] { m.host with vm := m.spilled, stack := s } m x

/-- Two machines at the doors of a helper, equally deep. -/
structure Doors (t : Twins) (a a' : Activation) (rets rets' : List Word)
    (args : List Line) (o o' : Nat) (m m' x x' : Machine) : Prop where
  calls : m.Calls x t.leader Instance.Fixed a rets args o
  calls' : m'.Calls x' t.follower Instance.Fixed a' rets' args o'
  deep : ∃ j, x.AtDoor t.leader Instance.Fixed a rets (m.reg .rbp) j o ∧
    x'.AtDoor t.follower Instance.Fixed a' rets' (m'.reg .rbp) j o'
  vm : x'.host.vm = x.host.vm
  up : x.down = false
  up' : x'.down = false

/-- Two machines leave with the fault that a helper has noted. -/
theorem Shadows.noted {ctx ctx' : Context} {is is' : List Instruction}
    {K : Instance → Instance → Prop} {k : Nat}
    {record : Word} {r r' : Machine} {f : Fault} (h : t.leader.Departs ctx is K a .pending k m r)
    (h' : t.follower.Departs ctx' is' K a' .pending k m' r') (hvm : r'.host.vm = r.host.vm)
    (hrax : r.reg32 .rax = f.code) (hrax' : r'.reg32 .rax = f.code) : t.Shadows record n m m' :=
  .finish h.goes h'.goes (Nat.le_refl k) h.returned.rip h'.returned.rip
    ⟨hvm, hrax'.trans hrax.symm, fun hzero => absurd (hrax.symm.trans hzero) f.code_ne_zero⟩

theorem execLines_nativeArgs_ok {index : NativeIndex} {count : ArgCount} (x : Machine) :
    ∃ y, Machine.execLines (nativeArgs index count) x = .ok y := by
  cases index <;> cases count <;> exact ⟨_, rfl⟩

theorem exists_reads_of_logArgs {first : Nat} {x y : Machine}
    (h : Machine.execLines (logArgs first) x = .ok y) :
    ∃ u v, x.Reads (FloatNative.argument first 0) u ∧ x.Reads (FloatNative.argument first 1) v := by
  have hreads : ∀ {x y : Machine} {lane : Xmm} {o : Mem}, x.exec (.movss lane o) = .ok y →
      ∃ u, x.Reads o u ∧ y = { x with xmm := x.xmm.set lane u } := by
    intro x y lane o h
    obtain ⟨w, hw, h⟩ := bind_eq_ok.mp h
    obtain ⟨u, hu, h⟩ := bind_eq_ok.mp h
    cases h
    exact ⟨u, bind_eq_ok.mpr ⟨w, hw, hu⟩, rfl⟩
  obtain ⟨x₁, hfirst, h⟩ := bind_eq_ok.mp h
  obtain ⟨x₂, hlast, -⟩ := bind_eq_ok.mp h
  obtain ⟨u, hu, rfl⟩ := hreads hfirst
  obtain ⟨v, hv, -⟩ := hreads hlast
  exact ⟨u, v, hu, hv⟩

namespace Abreast

variable (h : t.Abreast a a' rets rets' kn m m')
include h

/-- **Step.** Code that calls a helper. What is left to show is that the
    helpers come back side by side. -/
theorem shadows_helper (helper : Helper) {args ls ls' : List Line}
    (hargs : SetsArguments args)
    (hsame : ∀ x x' y, Suspended m x → Suspended m' x' → Machine.execLines args x = .ok y →
      ∃ y', Machine.execLines args x' = .ok y')
    (hat : LinesFrom t.ctx t.is o (suspend ++ args ++ callHelper helper ++ ls))
    (hat' : LinesFrom (t.ctx.erased t.erasing) t.is o'
      (suspend ++ args ++ callHelper helper ++ ls'))
    (hrest : ∀ n₁ n₁' x x', n₁ < n → n₁ ≤ n₁' →
      t.Doors a a' rets rets' args (o + linesSize (suspend ++ args ++ callHelper helper))
        (o' + linesSize (suspend ++ args ++ callHelper helper)) m m' x x' →
      t.HelpsAlike (t.leader.layout.slot (a.base + 4)) n₁ n₁' helper x x') :
    t.ShadowsFrom a n m m' o o' := by
  have htop : a'.top rets' = a.top rets := by
    rw [Activation.top, Activation.top, h.base, h.length_eq]
  rcases t.ready.goes_helper Instance.steady_fixed h.size helper hargs hat h.home with
    ⟨x, hgoes, hrip, hcalls⟩ | ⟨-, hstuck⟩
  swap
  · exact .of_leads (t.ready.linesFrom_le hat) h.layout (hstuck _ n)
  obtain ⟨j, hdoor⟩ := hcalls.door
  -- How deep the native stack is at the door follows from the activation, because of alignment.
  have hdepth : ∀ {j'}, t.follower.layout.slot j' % 16 = 0 → a'.top rets' + 1 ≤ j' →
      j' ≤ a'.top rets' + 2 → j' = j := by
    intro j' haligned hlow hhigh
    rw [layout_eq] at haligned
    rw [htop] at hlow hhigh
    exact Layout.eq_of_aligned hdoor.aligned haligned hdoor.below hdoor.near hlow hhigh
  rcases t.ready'.goes_helper Instance.steady_fixed h.size' helper hargs hat' h.home' with
    ⟨x', hgoes', hrip', hcalls'⟩ | ⟨⟨j', hlow, hhigh, haligned, hfull⟩ | ⟨x', s', e, hx', he⟩, -⟩
  · obtain ⟨j', hdoor'⟩ := hcalls'.door
    obtain rfl : j' = j := hdepth hdoor'.aligned hdoor'.below hdoor'.near
    have hhost := (t.ready.between_helper hrip hdoor.toAligned).host
    have hhost' := (t.ready'.between_helper hrip' hdoor'.toAligned).host
    refine .goes hgoes hgoes' (Nat.le_refl _) fun n₁ hn₁ _ => ?_
    refine .help hhost hrip hhost' hrip' fun n₂ n₂' hn₂ hle => ?_
    refine hrest n₂ n₂' x x' (by omega) hle ⟨hcalls, hcalls', ⟨_, hdoor, hdoor'⟩, ?_,
      (hgoes.reaches 0).down h.alike.up, (hgoes'.reaches 0).down h.alike.up'⟩
    rw [hcalls.vm, hcalls'.vm, h.forget.alike.spilled]
  · obtain rfl := hdepth haligned hlow hhigh
    have hroom := hdoor.deep
    rw [layout_eq] at hfull
    omega
  · obtain ⟨x, y, s, hexec, hx, -⟩ := hcalls.arguments
    obtain ⟨y', hy'⟩ := hsame x x' y ⟨s, hx⟩ ⟨s', hx'⟩ hexec
    cases hy'.symm.trans he

/-- Machines that have resumed after the same answer of a helper are side by side again. -/
theorem resumed {y y' z z' : Machine} {rbp rbp' : Word}
    (hz : y.Resumes z t.leader Instance.Fixed a rets rbp)
    (hz' : y'.Resumes z' t.follower Instance.Fixed a' rets' rbp')
    (hfault : y.host.stack.get (2 * a.base) = 0) (hfault' : y'.host.stack.get (2 * a'.base) = 0)
    (hvm : y'.host.vm = y.host.vm) (hpri : y'.reg pri = y.reg pri) (hup : z.down = false)
    (hup' : z'.down = false) : t.Abreast a a' rets rets' .held z z' := by
  have hdata : a'.data t.follower.layout = a.data t.leader.layout := by
    rw [← h.home'.data, ← h.home.data]
    exact h.reg (by decide)
  have hhost : z'.host.vm = z.host.vm := by rw [hz.becomes.host, hz'.becomes.host, hvm]
  refine abreast_of_home h.size h.base (hz.home hfault) (hz'.home hfault') h.returns
    hhost hup hup' ?_
  simp only [List.forall_mem_cons, List.not_mem_nil, IsEmpty.forall_iff, implies_true, and_true]
  refine ⟨?_, by rw [hz.alt, hz'.alt, hvm], by rw [hz.file, ← layout_eq]; exact hz'.file,
    by rw [hz.stk, hz'.stk, hvm, hdata], by rw [hz.frm, hz'.frm, hvm, hdata]⟩
  rw [hz.becomes.regs _ (by decide), hz'.becomes.regs _ (by decide), hpri]

/-- **Run.** A computed branch. What is left to show is where the branch itself leads,
    once its target is known. -/
theorem shadows_computed {go : Reg → Instr}
    (hat : t.Leader o ((computed go).map (Prod.mk j) ++ xs))
    (hat' : t.Follower o' ((computed go).map (Prod.mk j) ++ ys))
    (hrest : ∀ n₁ z z' p p' d d', n₁ < n → t.Abreast a a' rets rets' .held z z' →
      t.Leader p ((j, .op (go tmp1)) :: xs) →
      t.Follower p' ((j, .op (go tmp1)) :: ys) →
      z.reg tmp1 = t.leader.layout.code + BitVec.ofNat 64 d →
      z'.reg tmp1 = t.leader.layout.code + BitVec.ofNat 64 d' →
      (∀ kn, Beside t.erasing t.ctx t.is kn d d') →
      t.Shadows (t.leader.layout.slot (a.base + 4)) n₁ (z.atOffset p) (z'.atOffset p')) :
    t.ShadowsFrom a n m m' o o' := by
  rw [computed_search, List.map_append, List.append_assoc] at hat hat'
  have hlines := hat.lines_append
  have hlines' := hat'.lines_append
  rw [searchLines, List.append_assoc] at hlines hlines'
  refine h.shadows_helper .findCode setsArguments_find (fun _ _ _ _ _ _ => ⟨_, rfl⟩)
    hlines hlines' ?_
  intro n₁ n₁' x x' hn₁ hle hdoors y hhelp _
  obtain ⟨e, hdoor, hdoor'⟩ := hdoors.deep
  obtain ⟨hrdi, hrsi⟩ := hdoors.calls.find
  obtain ⟨hrdi', hrsi'⟩ := hdoors.calls'.find
  have hasked : x'.reg32 .rsi = x.reg32 .rsi := by
    rw [hrsi', hrsi, h.forget.alike.reg32 (by decide)]
  obtain ⟨y₁, hhelp₁, hback, hvm, hsome, hnone⟩ :=
    t.ready.help_find Instance.steady_fixed h.size hdoor (hrdi.trans h.home.record)
  obtain rfl := Except.ok.inj (hhelp.symm.trans hhelp₁)
  obtain ⟨y', hhelp', hback', hvm', hsome', hnone'⟩ :=
    t.ready'.help_find Instance.steady_fixed h.size' hdoor' (hrdi'.trans h.home'.record)
  refine ⟨y', hhelp', rfl, ?_⟩
  replace hvm : y'.host.vm = y.host.vm := by rw [hvm, hvm', hdoors.vm]
  obtain ⟨hleave, hgoOn⟩ :=
    t.ready.goes_found Instance.steady_fixed h.size hlines.drop hback.toFramed
  obtain ⟨hleave', hgoOn'⟩ := t.ready'.goes_found Instance.steady_fixed h.size' hlines'.drop
    hback'.toFramed
  rw [hback.atOffset] at hleave hgoOn
  rw [hback'.atOffset] at hleave' hgoOn'
  rw [hasked] at hsome' hnone'
  -- The code maps have the same addresses, so both searches fail or both succeed.
  cases ho : t.leader.program.offset? (x.reg32 .rsi) with
  | none =>
    have ho' : t.follower.program.offset? (x.reg32 .rsi) = none :=
      Option.not_isSome_iff_eq_none.mp (by rw [offset_isSome, ho]; exact Bool.false_ne_true)
    obtain ⟨hzero, hnoted⟩ := hnone (congrArg (Option.map _) ho)
    obtain ⟨hzero', hnoted'⟩ := hnone' (congrArg (Option.map _) ho')
    obtain ⟨z, w, hgoes, hdeparts, hleft, hrax⟩ := hleave hzero _ hnoted
    obtain ⟨z', w', hgoes', hdeparts', hleft', hrax'⟩ := hleave' hzero' _ hnoted'
    exact .goes hgoes hgoes' (Nat.le_refl _) fun n₂ _ _ =>
      .noted hdeparts hdeparts' (by rw [hleft, hleft', hvm]) hrax hrax'
  | some d =>
    obtain ⟨d', ho', hbeside⟩ := t.beside_of_offset ho
    obtain ⟨hhost, hrax⟩ := hsome _ (congrArg (Option.map _) ho)
    obtain ⟨hhost', hrax'⟩ := hsome' _ (congrArg (Option.map _) ho')
    have hfault := hdoors.calls.fault h.home (y := y) (by rw [hhost]; exact .refl _ _)
    have hfault' := hdoors.calls'.fault h.home' (y := y') (by rw [hhost']; exact .refl _ _)
    obtain ⟨z, hgoes, -, hhome, hz, hzhost, hloaded, hfile⟩ :=
      hgoOn (by rw [hrax]; exact t.ready.code_ne_zero ho) hfault
    obtain ⟨z', hgoes', -, hhome', hz', hzhost', hloaded', hfile'⟩ :=
      hgoOn' (by rw [hrax']; exact t.ready'.code_ne_zero ho') hfault'
    have hup := hgoes.down_atOffset (Environment.down_help hhelp hdoors.up)
    have hup' := hgoes'.down_atOffset (Environment.down_help hhelp' hdoors.up')
    have hdata : a'.data t.follower.layout = a.data t.leader.layout := by
      rw [← h.home'.data, ← h.home.data]
      exact h.reg (by decide)
    rw [hvm, hdata] at hloaded'
    have h₁ := abreast_of_loaded h.size h.base hhome hhome' h.returns (by rw [hzhost, hzhost', hvm])
      hup hup' hloaded hloaded' hfile hfile'
    have hnext := hat.drop
    have hnext' := hat'.drop
    rw [searchLines, linesSize_append, ← Nat.add_assoc] at hnext hnext'
    rw [layout_eq] at hrax'
    exact .goes hgoes hgoes' (Nat.le_refl _) fun n₂ hn₂ _ =>
      hrest n₂ z z' _ _ d d' (by omega) h₁ hnext hnext' (hz.trans hrax) (hz'.trans hrax') hbeside

variable (ih : ∀ n₁ < n, t.Tracks n₁)
include ih

theorem shadows_native {index : NativeIndex} {count : ArgCount}
    (hat : t.Leader o ((callNative index count).map (Prod.mk j) ++ xs))
    (hat' : t.Follower o' ((callNative index count).map (Prod.mk j) ++ ys))
    (herases : Erases t.erasing .held xs ys) :
    t.ShadowsFrom a n m m' o o' := by
  have hlines := hat.lines_append
  have hlines' := hat'.lines_append
  rw [callNative_eq, List.append_assoc] at hlines hlines'
  refine h.shadows_helper .callNative setsArguments_native
    (fun _ x' _ _ _ _ => execLines_nativeArgs_ok x') hlines hlines' ?_
  intro n₁ n₁' x x' hn₁ hle hdoors y hhelp hevents
  obtain ⟨d, hdoor, hdoor'⟩ := hdoors.deep
  obtain ⟨hrdi, hindex, hblock⟩ := hdoors.calls.native
  obtain ⟨hrdi', hindex', hblock'⟩ := hdoors.calls'.native
  have hvalue : index.value m' = index.value m := by
    cases index with
    | const => rfl
    | pri => exact congrArg (BitVec.setWidth 32) (h.reg (r := pri) (by decide))
  replace hindex : x'.reg32 .rsi = x.reg32 .rsi := by rw [hindex', hindex, hvalue]
  replace hblock : Environment.argBlock x'.regs = Environment.argBlock x.regs :=
    hblock'.trans hblock.symm
  have hrsp : x'.regs.get .rsp = x.regs.get .rsp := by
    refine hdoor'.rsp.trans ?_
    rw [layout_eq]
    exact hdoor.rsp.symm
  -- Both natives come to the same end.
  have hb := h.backs (n := n)
  have hkeep := hb.calls n₁ hn₁ x.regs d hdoor.rsp hdoor.deep
  have hagree : (t.leader.callbacks (t.leader.run n₁) x.regs).Agree
      (t.follower.callbacks (t.follower.run n₁') x'.regs)
      (t.leader.callEvents (t.leader.trace t.stub n₁) x.regs)
      (t.follower.callEvents (t.follower.trace none n₁') x'.regs) a.host.vm :=
    agree_callbacks (fun n₂ hn₂ => ih n₂ (by omega)) hle hdoor.rsp hrsp hdoor.deep h.size
  obtain ⟨r, host, hdispatch⟩ := Environment.Ready.exists_dispatch hdoor hhelp
  obtain ⟨host', hdispatch', hhost, hevents'⟩ :=
    hagree.dispatch hkeep hdoor.steady hdoors.vm hdispatch hevents
  rw [← hindex, ← hblock] at hdispatch'
  obtain ⟨y₁, hhelp₁, hback, hvm, -, hvalue, hnoted⟩ :=
    t.ready.help_native Instance.steady_fixed h.size hdoor
    (hrdi.trans h.home.record) hb.natives hkeep hdispatch
  obtain rfl := Except.ok.inj (hhelp.symm.trans hhelp₁)
  have hb' := h.backs' (n := n₁' + 1)
  obtain ⟨y', hhelp', hback', hvm', -, hvalue', hnoted'⟩ :=
    t.ready'.help_native Instance.steady_fixed h.size' hdoor'
    (hrdi'.trans h.home'.record) hb'.natives
      (hb'.calls n₁' (Nat.lt_succ_self _) x'.regs d hdoor'.rsp hdoor'.deep)
    hdispatch'
  refine ⟨y', hhelp', ?_, ?_⟩
  · rw [Environment.helpEvents, hindex, hblock]
    exact hevents'
  replace hvm : y'.host.vm = y.host.vm := by rw [hvm, hvm', hhost]
  obtain ⟨hfaulted, hsettled⟩ :=
    t.ready.goes_settle Instance.steady_fixed h.size hlines.drop hback.toFramed
  obtain ⟨hfaulted', hsettled'⟩ := t.ready'.goes_settle Instance.steady_fixed h.size' hlines'.drop
    hback'.toFramed
  rw [hback.atOffset] at hfaulted hsettled
  rw [hback'.atOffset] at hfaulted' hsettled'
  cases r with
  | error f =>
    obtain ⟨z, w, hgoes, hdeparts, hleft, hrax⟩ := hfaulted f (hnoted f rfl)
    obtain ⟨z', w', hgoes', hdeparts', hleft', hrax'⟩ := hfaulted' f (hnoted' f rfl)
    exact .goes hgoes hgoes' (Nat.le_refl _) fun n₂ _ _ =>
      .noted hdeparts hdeparts' (by rw [hleft, hleft', hvm]) hrax hrax'
  | ok v =>
    obtain ⟨-, hagrees, hrax⟩ := hvalue v rfl
    obtain ⟨-, hagrees', hrax'⟩ := hvalue' v rfl
    have hbelow := hdoor.below
    have hbelow' := hdoor'.below
    have hfault := hdoors.calls.fault h.home (hagrees.mono (by omega))
    have hfault' := hdoors.calls'.fault h.home' (hagrees'.mono (by omega))
    obtain ⟨z, hgoes, hresumes⟩ := hsettled hfault
    obtain ⟨z', hgoes', hresumes'⟩ := hsettled' hfault'
    have hup := hgoes.down_atOffset (Environment.down_help hhelp hdoors.up)
    have hup' := hgoes'.down_atOffset (Environment.down_help hhelp' hdoors.up')
    have hstale := t.stale (show (x'.setHost host').host.vm = (x.setHost host).host.vm from hhost)
    have hpri : y'.reg pri = y.reg pri := by
      rw [t.platform] at hrax'
      exact hrax'.trans ((congrArg (· ++ v) hstale).trans hrax.symm)
    have h₁ := h.resumed hresumes hresumes' hfault hfault' hvm hpri hup hup'
    have hnext := hat.drop
    have hnext' := hat'.drop
    rw [callNative_eq, linesSize_append, ← Nat.add_assoc] at hnext hnext'
    exact h₁.shadows ⟨_, _, hnext, hnext', herases⟩ (fun n₂ hn₂ => ih n₂ (by omega)) hgoes hgoes'

theorem shadows_jump (hat : t.Leader o ((computed .jmpR).map (Prod.mk j) ++ xs))
    (hat' : t.Follower o' ((computed .jmpR).map (Prod.mk j) ++ ys)) :
    t.ShadowsFrom a n m m' o o' := by
  refine h.shadows_computed hat hat' ?_
  intro n₁ z z' p p' d d' hn₁ h₁ hlast hlast' hz hz' hbeside
  have hjump : ∀ {w : Machine} {d p : Nat}, w.reg tmp1 = w.layout.code + BitVec.ofNat 64 d →
      (w.atOffset (p + (Instr.jmpR tmp1).encode.length)).exec (.jmpR tmp1) =
        .ok (w.atOffset d) := by
    intro w d p hw
    show Except.ok ((w.atOffset _).jumpTo (w.reg tmp1)) = _
    rw [hw]
    rfl
  have hgoes := t.ready.goes_read (hlast.stands t.ready.finishes) h₁.layout
    (hjump (by rw [h₁.layout]; exact hz))
  have hgoes' := t.ready'.goes_read (hlast'.stands t.ready'.finishes) h₁.layout'
    (hjump (by rw [h₁.layout', layout_eq]; exact hz'))
  exact h₁.shadows (hbeside .held) (fun n₂ hn₂ => ih n₂ (by omega)) hgoes hgoes'

theorem shadows_invoke (hat : t.Leader o ((computed .callR).map (Prod.mk j) ++ xs))
    (hat' : t.Follower o' ((computed .callR).map (Prod.mk j) ++ ys))
    (herases : Erases t.erasing .held xs ys) :
    t.ShadowsFrom a n m m' o o' := by
  refine h.shadows_computed hat hat' ?_
  intro n₁ z z' p p' d d' hn₁ h₁ hlast hlast' hz hz' hbeside
  -- Both native stacks are as deep, so both pushes succeed or the leader is stuck.
  by_cases hroom : 8 * (a.base + 15 + rets.length) ≤ t.leader.layout.stackSize
  · obtain ⟨w, w', hpush, hpush', h₂⟩ := h₁.exists_push hroom
      ⟨p + 2, p' + 2, rfl, rfl, _, _, hlast.tail, hlast'.tail, herases⟩
    have hcall : ∀ {z w : Machine} {d p : Nat}, z.reg tmp1 = z.layout.code + BitVec.ofNat 64 d →
        z.push (z.layout.code + BitVec.ofNat 64 (p + 2)) = .ok w →
        (z.atOffset (p + (Instr.callR tmp1).encode.length)).exec (.callR tmp1) =
          .ok (w.atOffset d) := by
      intro z w d p hz hw
      show (Machine.push (z.jumpTo _) (z.layout.code + BitVec.ofNat 64 (p + 2)) >>= _) = _
      rw [Machine.push_jumpTo, hw]
      show Except.ok (w.jumpTo (z.reg tmp1)) = _
      rw [hz, Machine.atOffset, Machine.layout_push hw]
    have hgoes := t.ready.goes_read (hlast.stands t.ready.finishes) h₁.layout
      (hcall (by rw [h₁.layout]; exact hz) (by rw [h₁.layout]; exact hpush))
    have hgoes' := t.ready'.goes_read (hlast'.stands t.ready'.finishes) h₁.layout'
      (hcall (by rw [h₁.layout', layout_eq]; exact hz')
        (by rw [h₁.layout', layout_eq]; exact hpush'))
    exact h₂.shadows (hbeside .held) (fun n₂ hn₂ => ih n₂ (by omega)) hgoes hgoes'
  · have hbounded := t.ready.separate.bounded
    have hin := h₁.home.room
    have hpush := Machine.push_full (m := z.atOffset (p + 2)) h₁.layout h₁.home.rsp
      (by omega) (by omega) (z.atOffset (p + 2)).rip
    refine h₁.stuck hlast
      (t.ready.stuck_read (e := .badAddress (t.leader.layout.slot (a.base + 13 + rets.length + 1)))
      (hlast.stands t.ready.finishes) h₁.layout ?_ n₁)
    show (Machine.push (z.atOffset (p + 2)) (z.atOffset (p + 2)).rip >>= _) = _
    rw [hpush]
    rfl

theorem shadows_log {first : Nat}
    (hat : t.Leader o ((FloatNative.lines .floatlog first).map (Prod.mk j) ++ xs))
    (hat' : t.Follower o' ((FloatNative.lines .floatlog first).map (Prod.mk j) ++ ys))
    (herases : Erases t.erasing .held xs ys) :
    t.ShadowsFrom a n m m' o o' := by
  have hlines := hat.lines_append
  have hlines' := hat'.lines_append
  rw [logLines_eq, List.append_assoc] at hlines hlines'
  -- The arguments are read after the registers were stored, from the same block.
  have hsame : ∀ x x' y, Suspended m x → Suspended m' x' →
      Machine.execLines (logArgs first) x = .ok y →
      ∃ y', Machine.execLines (logArgs first) x' = .ok y' ∧ y'.xmm.get 0 = y.xmm.get 0 ∧
        y'.xmm.get 1 = y.xmm.get 1 := by
    rintro x x' y ⟨s, hx⟩ ⟨s', hx'⟩ hy
    obtain ⟨u, v, hu, hv⟩ := exists_reads_of_logArgs hy
    obtain ⟨y₁, hy₁, hfirst, hlast⟩ := Machine.execLines_logArgs hu hv
    obtain rfl := Except.ok.inj (hy.symm.trans hy₁)
    have hlayout : x'.layout = x.layout := by rw [hx.layout, hx'.layout, h.alike.layout]
    have hstk : x'.reg stk = x.reg stk := by
      rw [hx.regs _ (by decide), hx'.regs _ (by decide)]
      exact h.reg (by decide)
    have hblock : x'.host.vm.block = x.host.vm.block := by
      rw [hx.host, hx'.host]
      exact congrArg Instance.block h.forget.alike.spilled
    obtain ⟨y', hy', hfirst', hlast'⟩ :=
      Machine.execLines_logArgs (hu.congr rfl rfl hlayout hstk hblock)
      (hv.congr rfl rfl hlayout hstk hblock)
    exact ⟨y', hy', hfirst'.trans hfirst.symm, hlast'.trans hlast.symm⟩
  refine h.shadows_helper .floatLog (setsArguments_log first)
    (fun x x' y hx hx' hy => (hsame x x' y hx hx' hy).imp fun _ h => h.1) hlines hlines' ?_
  intro n₁ n₁' x x' hn₁ hle hdoors y hhelp _
  obtain ⟨e, hdoor, hdoor'⟩ := hdoors.deep
  obtain ⟨x₁, x₂, s, hexec, hx₁, -, hxmm⟩ := hdoors.calls.arguments
  obtain ⟨x₁', x₂', s', hexec', hx₁', -, hxmm'⟩ := hdoors.calls'.arguments
  obtain ⟨x₃, hx₃, hfirst, hlast⟩ := hsame x₁ x₁' x₂ ⟨s, hx₁⟩ ⟨s', hx₁'⟩ hexec
  obtain rfl := Except.ok.inj (hexec'.symm.trans hx₃)
  obtain ⟨y₁, hhelp₁, hback, hhost, hlog⟩ := t.ready.help_log Instance.steady_fixed h.size hdoor
  obtain rfl := Except.ok.inj (hhelp.symm.trans hhelp₁)
  obtain ⟨y', hhelp', hback', hhost', hlog'⟩ :=
    t.ready'.help_log Instance.steady_fixed h.size' hdoor'
  refine ⟨y', hhelp', rfl, ?_⟩
  have hresult : y'.xmm.get 0 = y.xmm.get 0 := by rw [hlog, hlog', hxmm, hxmm', hfirst, hlast]
  obtain ⟨z, hgoes, hresumes⟩ :=
    t.ready.goes_logged Instance.steady_fixed h.size hlines.drop hback.toFramed
  obtain ⟨z', hgoes', hresumes'⟩ := t.ready'.goes_logged Instance.steady_fixed h.size' hlines'.drop
    hback'.toFramed
  rw [hback.atOffset] at hgoes
  rw [hback'.atOffset] at hgoes'
  have hfault := hdoors.calls.fault h.home (y := y) (by rw [hhost]; exact .refl _ _)
  have hfault' := hdoors.calls'.fault h.home' (y := y') (by rw [hhost']; exact .refl _ _)
  have hvm : y'.host.vm = y.host.vm := by rw [hhost, hhost', hdoors.vm]
  have hup := hgoes.down_atOffset (Environment.down_help hhelp hdoors.up)
  have hup' := hgoes'.down_atOffset (Environment.down_help hhelp' hdoors.up')
  have hpri : (y'.setReg32 pri (y'.xmm.get 0)).reg pri =
      (y.setReg32 pri (y.xmm.get 0)).reg pri := by
    rw [hresult]
    rfl
  have h₁ := h.resumed hresumes hresumes' hfault hfault' hvm hpri hup hup'
  have hnext := hat.drop
  have hnext' := hat'.drop
  rw [logLines_eq, linesSize_append, ← Nat.add_assoc] at hnext hnext'
  exact h₁.shadows ⟨_, _, hnext, hnext', herases⟩ (fun n₂ hn₂ => ih n₂ (by omega)) hgoes hgoes'

/-- **Step.** One line. -/
theorem shadows_line {kn' : Known} {l : Line}
    (hl : kn.pass t.erasing l = some kn') (hplace : l.placed? = none)
    (hat : t.Leader o ((j, l) :: xs))
    (hat' : t.Follower o' ((j, l) :: ys)) (herases : Erases t.erasing kn' xs ys) :
    t.ShadowsFrom a n m m' o o' := by
  cases l with
  | op i =>
    by_cases hret : i = .ret
    · subst hret
      exact h.shadows_ret ih hat hat'
    rw [Known.pass_op _ _ hret] at hl
    split_ifs at hl with hfile hknown
    · obtain rfl := Option.some_inj.mp hl
      rw [hfile] at hat hat'
      exact h.shadows_loadFile ih hat hat' herases
    · obtain rfl := Option.some_inj.mp hl
      obtain ⟨hi, hcovers⟩ := Bool.and_eq_true_iff.mp hknown
      exact h.shadows_op ih hi hcovers hat hat' herases
  | jmp target =>
    obtain ⟨⟨hopen, hne⟩, -⟩ := Known.pass_jmp hl
    exact h.shadows_jmp ih hopen hne hat hat'
  | jcc c target =>
    obtain ⟨hflags, ⟨hopen, hne⟩, rfl⟩ := Known.pass_jcc hl
    exact h.shadows_jcc ih hflags hopen hne hat hat' herases
  | call target =>
    cases target with
    | code c =>
      obtain rfl := Option.some_inj.mp hl
      exact h.shadows_call ih hat hat' herases
    | _ => cases hl
  | place => cases hplace

end Abreast

/-- **Run.** Wherever the programs go side by side, so do their runs. The induction is on the number
    of steps; what stands at the positions decides how both machines go on, and there is one case
    for each rule of `Erases`. Places take no step, so inside there is an induction on the lines. -/
theorem tracks (t : Twins) (n : Nat) : t.Tracks n := by
  induction n using Nat.strongRecOn with
  | ind n ih =>
    intro a a' rets rets' kn m m' o o' h hbeside havoids
    obtain ⟨xs, ys, hat, hat', herases⟩ := hbeside
    induction herases generalizing o o' with
    | nil => exact h.stuck hat (t.ready.stuck_end hat.lines h.layout n)
    | @line kn kn' k l xs ys hl herases hrest =>
      cases hplaced : l.placed? with
      | none => exact h.shadows_line ih hl hplaced hat hat' herases
      | some target =>
        obtain rfl : l = .place target := by
          cases l with
          | place => exact congrArg Line.place (Option.some_inj.mp hplaced)
          | _ => cases hplaced
        obtain rfl := Option.some_inj.mp hl
        exact hrest h.forget havoids hat.tail hat'.tail
    | piece hls herases =>
      cases hls with
      | halt code => exact h.shadows_halt hat hat'
      | native index count => exact h.shadows_native ih hat hat' herases
      | jump => exact h.shadows_jump ih hat hat'
      | invoke => exact h.shadows_invoke ih hat hat' herases
      | log first => exact h.shadows_log ih hat hat' herases
    | fault hf herases => exact h.shadows_fault hat hat'
    | check herasing herases => exact h.shadows_check ih herasing hat hat' herases
    | refuse herasing herases => exact h.shadows_refuse herasing hat
    | stub herasing herases =>
      have hplaced : t.stub = some o := (if_pos herasing).trans (hat.stands t.ready.finishes)
      exact absurd (congrArg (Layout.code · + _) h.layout) (havoids o hplaced)

end Twins

end PawnNative
