import Mathlib.Tactic.Common
import PawnNative.Proofs.Calling
import PawnNative.Run.Engine

/-! # The accounts of the host

    The host pushes arguments and makes calls. Every push takes a cell of the stack
    and is noted as an argument that waits, and a call drops the arguments that
    wait. So the stack, with the arguments taken back, is the same before and after,
    whatever a call comes to: a result, a fault of the code or a call that was never
    made. Heap, frame and the bounds of heap and stack are the same as well.

    Two things can upset the accounts. A call of an entry point that is not there
    forgets the arguments but leaves them on the stack. And a native that pushes
    arguments for a call that it never makes leaves them to the next call.
-/

namespace PawnNative

open X64 Convention

/-! ## Section 1: What natives have to keep -/

namespace Instance

/-- The stack with the arguments that wait taken back. -/
def account (vm : Instance) : Cell := vm.regs.stk + BitVec.ofNat 32 (vm.pending * Cell.width)

/-- The accounts of the host are the same. -/
structure SameAccounts (vm vm' : Instance) : Prop where
  account : vm'.account = vm.account
  hea : vm'.regs.hea = vm.regs.hea
  frm : vm'.regs.frm = vm.regs.frm
  hlw : vm'.regs.hlw = vm.regs.hlw
  stp : vm'.regs.stp = vm.regs.stp

/-- When no argument waited, none waits now. -/
structure Clears (vm vm' : Instance) : Prop extends vm.Fixed vm' where
  pending : vm.pending = 0 → vm'.pending = 0

/-- The same, and the bounds of heap and stack have not moved. -/
structure Settles (vm vm' : Instance) : Prop extends vm.Clears vm' where
  hlw : vm'.regs.hlw = vm.regs.hlw
  stp : vm'.regs.stp = vm.regs.stp

theorem SameAccounts.refl (vm : Instance) : vm.SameAccounts vm := ⟨rfl, rfl, rfl, rfl, rfl⟩

theorem SameAccounts.trans {u v w : Instance} (h : u.SameAccounts v) (h' : v.SameAccounts w) :
    u.SameAccounts w :=
  ⟨h'.account.trans h.account, h'.hea.trans h.hea, h'.frm.trans h.frm, h'.hlw.trans h.hlw,
    h'.stp.trans h.stp⟩

theorem steady_clears : Steady Clears where
  refl vm := ⟨.refl vm, id⟩
  trans h h' := ⟨h.toFixed.trans h'.toFixed, fun hz => h'.pending (h.pending hz)⟩
  fixed h := h.toFixed
  block _ _ hsize := ⟨⟨rfl, rfl, hsize⟩, id⟩
  register _ _ _ _ := ⟨⟨rfl, rfl, rfl⟩, id⟩
  settle _ := ⟨⟨rfl, rfl, rfl⟩, fun _ => rfl⟩

theorem steady_settles : Steady Settles where
  refl vm := ⟨steady_clears.refl vm, rfl, rfl⟩
  trans h h' := ⟨steady_clears.trans h.toClears h'.toClears, h'.hlw.trans h.hlw, h'.stp.trans h.stp⟩
  fixed h := h.toFixed
  block vm _ hsize := ⟨steady_clears.block vm hsize, rfl, rfl⟩
  register vm r v hr := by
    refine ⟨steady_clears.register vm v hr, ?_, ?_⟩
    · cases r with
      | hlw => exact absurd hr (by decide)
      | pri | alt | frm | stk | hea | stp | cip => rfl
    · cases r with
      | stp => exact absurd hr (by decide)
      | pri | alt | frm | stk | hea | hlw | cip => rfl
  settle vm := ⟨steady_clears.settle vm, rfl, rfl⟩

/-- A push takes a cell and notes an argument. -/
theorem sameAccounts_push {vm vm' : Instance} {value : Cell} (h : vm.push value = .ok vm') :
    vm.SameAccounts vm' := by
  obtain ⟨-, vm₁, hset, rfl⟩ := push_eq_ok.mp h
  obtain ⟨block, -, rfl⟩ := setCell_eq_ok hset
  refine ⟨?_, rfl, rfl, rfl, rfl⟩
  show vm.regs.stk - 4 + BitVec.ofNat 32 ((vm.pending + 1) * 4) =
    vm.regs.stk + BitVec.ofNat 32 (vm.pending * 4)
  rw [Nat.succ_mul, BitVec.ofNat_add]
  show vm.regs.stk - 4 + (BitVec.ofNat 32 (vm.pending * 4) + 4) = _
  bv_omega

end Instance

/-! ## Section 2: Calls -/

namespace Callbacks

variable {k : Callbacks} {h h' : Host} {r : Except Fault Cell} (hk : k.Balanced)
  (hkeep : k.Keep Instance.Settles 0 h.vm)
include hk hkeep

theorem sameAccounts_call {address : Cell}
    (hcall : k.call address h = .ok (r, h')) : h.vm.SameAccounts h'.vm := by
  obtain ⟨hsettles, -⟩ := hkeep address h r h' (.refl _) hcall
  obtain ⟨body, hbody⟩ := hk address
  rw [hbody] at hcall
  obtain ⟨h₁, -, rfl⟩ := balanced_eq_ok.mp hcall
  refine ⟨?_, rfl, rfl, hsettles.hlw, hsettles.stp⟩
  rw [Instance.account, hsettles.pending rfl, Nat.zero_mul]
  exact BitVec.add_zero _

theorem sameAccounts_callPublic {index : Nat} (hcall : k.callPublic index h = .ok (r, h')) :
    h.vm.SameAccounts h'.vm := by
  unfold callPublic at hcall
  split at hcall
  · cases hcall
    exact .refl _
  · exact sameAccounts_call hk hkeep hcall

/-- Without an entry point the arguments are forgotten, but the stack keeps them. -/
theorem sameAccounts_callMain_iff (hcall : k.callMain h = .ok (r, h')) : h.vm.SameAccounts h'.vm ↔
      0 ≤ h.vm.header.cip.toInt ∨ BitVec.ofNat 32 (h.vm.pending * Cell.width) = 0 := by
  unfold callMain at hcall
  split_ifs at hcall with hcip
  · cases hcall
    have haccount : Instance.account { h.vm with pending := 0 } = h.vm.regs.stk := BitVec.add_zero _
    constructor
    · intro hsame
      right
      have hsum := haccount.symm.trans hsame.account
      unfold Instance.account at hsum
      bv_omega
    · rintro (hentry | hzero)
      · omega
      · refine ⟨?_, rfl, rfl, rfl, rfl⟩
        rw [haccount, Instance.account, hzero]
        exact (BitVec.add_zero _).symm
  · simp only [sameAccounts_call hk hkeep hcall, true_iff]
    left
    omega

end Callbacks

/-- An action of a host that only pushes arguments and makes calls; the entry point is only called
    when there is one. -/
def Action.IsHostAction (vm : Instance) : Action → Prop
  | .push _ | .call _ | .callPublic _ => True
  | .callMain => 0 ≤ vm.header.cip.toInt
  | _ => False

namespace Callbacks

variable {k : Callbacks} {vm : Instance}

/-- **Step.** One push or call keeps the accounts. -/
theorem sameAccounts_perform (hk : k.Balanced) (hkeep : k.Keep Instance.Settles 0 vm) {a : Action}
    (ha : a.IsHostAction vm) {h h' : Host} {answer : a.Answer} (hvm : vm.Fixed h.vm)
    (hperform : k.perform a h = .ok (answer, h')) : h.vm.SameAccounts h'.vm := by
  have hkeep := hkeep.mono (Nat.le_refl 0) hvm
  cases a with
  | push value =>
    have hcommit : h.commit (h.vm.push value) = (answer, h') := Except.ok.inj hperform
    cases hpush : h.vm.push value with
    | error f =>
      rw [hpush] at hcommit
      cases hcommit
      exact .refl _
    | ok vm' =>
      rw [hpush] at hcommit
      cases hcommit
      exact Instance.sameAccounts_push hpush
  | call address => exact sameAccounts_call hk hkeep hperform
  | callPublic index => exact sameAccounts_callPublic hk hkeep hperform
  | callMain =>
    refine (sameAccounts_callMain_iff hk hkeep hperform).mpr (Or.inl ?_)
    rw [hvm.header]
    exact ha
  | _ => exact ha.elim

/-- **Run.** Pushes and calls one after the other keep the accounts. -/
theorem sameAccounts_exec (hk : k.Balanced) (hkeep : k.Keep Instance.Settles 0 vm) {α : Type}
    {p : NativeProgram α} (hp : p.Only (Action.IsHostAction vm)) {h h' : Host} {r : Except Fault α}
    (hvm : vm.Fixed h.vm) (hexec : p.exec k h = .ok (r, h')) : h.vm.SameAccounts h'.vm := by
  refine (NativeProgram.exec_rel
    (R := fun h h' => vm.Fixed h.vm → vm.Fixed h'.vm ∧ h.vm.SameAccounts h'.vm)
    (fun h hvm => ⟨hvm, .refl _⟩) ?_ ?_ hp hexec hvm).2
  · intro h₁ h₂ h₃ hfirst hlast hvm
    obtain ⟨hvm₂, hsame⟩ := hfirst hvm
    obtain ⟨hvm₃, hsame'⟩ := hlast hvm₂
    exact ⟨hvm₃, hsame.trans hsame'⟩
  · intro a h answer h' ha hperform hvm
    obtain ⟨hfixed, -⟩ := fixed_perform Instance.steady_settles hkeep a hvm hperform
    exact ⟨hvm.trans hfixed, sameAccounts_perform hk hkeep ha hvm hperform⟩

end Callbacks

/-! ## Section 3: Engines -/

/-- An engine that is not compiled, or whose program was compiled from a loaded image and lies
    apart from the block of the instance. -/
def Engine.Fits (e : Engine) (vm : Instance) : Prop :=
  ∀ p, e.program = some p →
    Environment.Serves ⟨e.platform, p⟩ vm ∧ 64 ≤ e.platform.layout.stackSize

namespace Engine

variable {e : Engine} {vm : Instance} {K : Instance → Instance → Prop}

theorem balanced_callbacks (e : Engine) : e.callbacks.Balanced := by
  intro address
  unfold callbacks
  split
  · exact ⟨_, rfl⟩
  · exact ⟨fun _ h => .ok (.error .initJit, h), rfl⟩

/-- Calls of an engine keep what natives keep. -/
theorem keep_callbacks (hfits : e.Fits vm) (hK : Steady K) (hnatives : vm.NativesKeep K) :
    e.callbacks.Keep K 0 vm := by
  unfold callbacks
  split
  · next program hprogram =>
    obtain ⟨hserves, hroom⟩ := hfits program hprogram
    obtain ⟨ctx, is, hr⟩ := hserves.ready
    have hkeep := Environment.keep_callbacks hr hK hnatives e.fuel e.hostRegs 6 rfl hroom
    exact hkeep.mono (Nat.zero_le _) (.refl _)
  · intro address h r h' _ hcall
    cases hcall
    have hput := hK.trans (hK.trans
      (hK.register { h.vm with pending := 0 } (r := .stk) h.vm.account (by decide))
      (hK.register _ (r := .hea) h.vm.regs.hea (by decide)))
      (hK.register _ (r := .frm) h.vm.regs.frm (by decide))
    exact ⟨hput, fun i hi => by omega⟩

end Engine

/-! ## Section 4: What calls leave behind -/

/-- **Accounts.** Whatever a call comes to, the accounts of the host are the same afterwards: with
    or without compiled code, for any address and any index. The one exception is the call of an
    entry point that is not there, which keeps them only when no argument waited. So pushes and
    calls, one after the other, keep them too. -/
theorem calls_keep_accounts {e : Engine} {h : Host} (hfits : e.Fits h.vm)
    (hnatives : h.vm.NativesKeep Instance.Settles) :
    (∀ address r h', e.call address h = .ok (r, h') → h.vm.SameAccounts h'.vm) ∧
    (∀ index r h', e.callPublic index h = .ok (r, h') → h.vm.SameAccounts h'.vm) ∧
    (∀ r h', e.callMain h = .ok (r, h') → (h.vm.SameAccounts h'.vm ↔
      0 ≤ h.vm.header.cip.toInt ∨ BitVec.ofNat 32 (h.vm.pending * Cell.width) = 0)) ∧
    ∀ (α : Type) (p : NativeProgram α), p.Only (Action.IsHostAction h.vm) →
      ∀ r h', p.exec e.callbacks h = .ok (r, h') → h.vm.SameAccounts h'.vm := by
  have hk := e.balanced_callbacks
  have hkeep := Engine.keep_callbacks hfits Instance.steady_settles hnatives
  exact ⟨fun _ _ _ hcall => Callbacks.sameAccounts_call hk hkeep hcall,
    fun _ _ _ hcall => Callbacks.sameAccounts_callPublic hk hkeep hcall,
    fun _ _ hcall => Callbacks.sameAccounts_callMain_iff hk hkeep hcall,
    fun _ _ hp _ _ hexec => Callbacks.sameAccounts_exec hk hkeep hp (.refl _) hexec⟩

/-- **Arguments.** A call drops the arguments that waited and puts heap and frame back,
    whatever the natives do that run meanwhile. When these natives push no arguments but for
    calls that they make, no argument waits afterwards: the next call is made without
    arguments and leaves the stack where it is. -/
theorem calls_drop_arguments {e : Engine} {h h' : Host} {address : Cell} {r : Except Fault Cell}
    (hfits : e.Fits h.vm) (hcall : e.call address h = .ok (r, h')) :
    h'.vm.regs.stk = h.vm.regs.stk + BitVec.ofNat 32 (h.vm.pending * Cell.width) ∧
    h'.vm.regs.hea = h.vm.regs.hea ∧ h'.vm.regs.frm = h.vm.regs.frm ∧
    (h.vm.NativesKeep Instance.Clears → h'.vm.pending = 0 ∧
      ∀ address' body, e.callbacks.call address' = balanced body →
        e.call address' h' = balanced (fun _ => body 0) h' ∧
        ∀ r' h'', e.call address' h' = .ok (r', h'') →
          h''.vm.regs.stk = h'.vm.regs.stk ∧ h''.vm.pending = 0) := by
  obtain ⟨body, hbody⟩ := e.balanced_callbacks address
  have hbalanced : balanced body h = .ok (r, h') := by
    rw [← hbody]
    exact hcall
  obtain ⟨h₁, -, hput⟩ := balanced_eq_ok.mp hbalanced
  refine ⟨by rw [hput]; rfl, by rw [hput]; rfl, by rw [hput]; rfl, fun hnatives => ?_⟩
  -- What natives do to the count of waiting arguments is all that the second part depends on.
  have hkeep := Engine.keep_callbacks hfits Instance.steady_clears hnatives
  obtain ⟨hclears, -⟩ := hkeep address h r h' (.refl _) hcall
  have hpending : h'.vm.pending = 0 := hclears.pending rfl
  refine ⟨hpending, fun address' body' hbody' => ⟨?_, fun r' h'' hcall' => ?_⟩⟩
  · show e.callbacks.call address' h' = _
    rw [hbody']
    unfold balanced
    rw [hpending]
  · obtain ⟨hclears', -⟩ := hkeep address' h' r' h''
      ⟨hclears.header, hclears.natives, hclears.size⟩ hcall'
    refine ⟨?_, hclears'.pending rfl⟩
    have hbalanced' : balanced body' h' = .ok (r', h'') := by
      rw [← hbody']
      exact hcall'
    obtain ⟨h₂, -, rfl⟩ := balanced_eq_ok.mp hbalanced'
    show h'.vm.regs.stk + BitVec.ofNat 32 (h'.vm.pending * Cell.width) = _
    rw [hpending, Nat.zero_mul]
    exact BitVec.add_zero _

/-! ### A native that passes an argument on -/

/-- The argument is dropped by the call, whatever the call comes to. -/
theorem keeps_passOn {K : Instance → Instance → Prop} (hK : Steady K) : passOn.Keeps K := by
  intro k call h hk r h' hexec
  obtain ⟨⟨pushed, h₁⟩, hpush, hexec⟩ := bind_eq_ok.mp hexec
  obtain ⟨⟨answer, h₂⟩, hcall, hexec⟩ := bind_eq_ok.mp hexec
  have hend : h' = h₂ := by
    cases answer <;> (cases hexec; rfl)
  have hvm : K h.vm { h₁.vm with pending := 0 } := by
    have hcommit : h.commit (h.vm.push 1) = (pushed, h₁) := Except.ok.inj hpush
    cases hp : h.vm.push 1 with
    | error f =>
      rw [hp] at hcommit
      cases hcommit
      exact hK.settle _
    | ok vm =>
      rw [hp] at hcommit
      cases hcommit
      obtain ⟨-, vm₁, hset, rfl⟩ := Instance.push_eq_ok.mp hp
      exact hK.trans
        (hK.trans (Instance.steady_setCell hK hset) (hK.register vm₁ (r := .stk) _ (by decide)))
        (hK.settle _)
  have hfixed := hK.fixed hvm
  obtain ⟨hkeep, -⟩ := hk 52 h₁ answer h₂ ⟨hfixed.header, hfixed.natives, hfixed.size⟩ hcall
  rw [hend]
  exact hK.trans hvm hkeep

/-- An engine that has compiled the image, on the default platform. -/
theorem fits_importEngine {p : Program} (hp : Program.ofInstance {} (importInstance 0 #[]) = .ok p)
    {vm : Instance} (hsize : vm.block.size = 272) : ({ program := some p } : Engine).Fits vm := by
  rintro _ ⟨⟩
  exact ⟨serves_importInstance hp hsize, show 64 ≤ Layout.standard.stackSize by decide⟩

/-- The host pushes an argument and calls the function, which answers it, as the native would. The
    accounts are what they were. -/
theorem passOn_keeps_accounts : ∃ (p : Program) (h' : Host),
    Program.ofInstance {} (importInstance 0 #[]) = .ok p ∧
    (passOn ⟨[], 0⟩).exec ({ program := some p } : Engine).callbacks
      { vm := importInstance 1 #[passOn] } = .ok (.ok 1, h') ∧
    h'.vm.account = 124 ∧ h'.vm.regs.hea = 0 ∧ h'.vm.regs.frm = 0 := by
  obtain ⟨p, hp⟩ := exists_importProgram
  have hsize := size_importInstance 1 #[passOn]
  obtain ⟨vm, hpush⟩ : ∃ vm, (importInstance 1 #[passOn]).push 1 = .ok vm :=
    exists_ok_of_isSome
      (show ((importInstance 1 #[passOn]).push 1).toOption.isSome by decide +kernel)
  have hfixed := (Instance.operated_push hpush).toFixed
  have hsized : (importInstance 1 #[passOn]).Sized := ⟨by rw [hsize]; decide, by rw [hsize]; decide⟩
  have hroom : (importInstance 1 #[passOn]).Room 4 := ⟨by decide, by decide, by decide⟩
  obtain ⟨h', hanswer, -⟩ := answer_importEntry (fun _ => {}) (c := importEntry 52 vm) hp rfl
    (hfixed.sized hsized) (hfixed.size.trans hsize) rfl hpush hroom rfl (show 6 ≤ 1000 by decide)
    (show importSteps ≤ 0x4000000000000000 by decide)
  have hexec := exec_passOn (k := ({ program := some p } : Engine).callbacks)
    (h := { vm := importInstance 1 #[passOn] }) ⟨[], 0⟩ hpush hanswer
  have hnatives : (importInstance 1 #[passOn]).NativesKeep Instance.Settles := by
    intro native hmem
    rw [Array.mem_singleton.mp hmem]
    exact keeps_passOn Instance.steady_settles
  obtain ⟨-, -, -, hpasses⟩ := calls_keep_accounts (h := { vm := importInstance 1 #[passOn] })
    (fits_importEngine hp hsize) hnatives
  have hsame := hpasses _ (passOn ⟨[], 0⟩) ⟨trivial, fun _ => ⟨trivial, fun answer => ?_⟩⟩ _ _ hexec
  · exact ⟨p, h', hp, hexec, hsame.account, hsame.hea, hsame.frm⟩
  · cases answer <;> trivial

/-- An argument that waits when the entry point is called and there is none. -/
theorem callMain_forgets_argument : ∃ h h' : Host,
    h.vm = { importInstance 0 #[] with pending := 1 } ∧
    ({} : Engine).callMain h = .ok (.error .index, h') ∧ ¬h.vm.SameAccounts h'.vm := by
  refine ⟨{ vm := { importInstance 0 #[] with pending := 1 } }, _,
    rfl, rfl, fun hsame => ?_⟩
  exact absurd hsame.account (by decide)

/-- The call of an address without an instruction drops the argument that waited. -/
theorem failed_call_drops_argument : ∃ (e : Engine) (h h' : Host),
    h.vm.regs.stk = 120 ∧ h.vm.pending = 1 ∧ e.call 2 h = .ok (.error .index, h') ∧
    h'.vm.regs.stk = 124 ∧ h'.vm.pending = 0 := by
  obtain ⟨p, hp⟩ := exists_importProgram
  have hfinishes := Program.finishes_of_listing hp decodes_importListing
  have hnone : p.offset? 2 = none := by
    rw [← Option.not_isSome_iff_eq_none, hfinishes.offset_isSome_iff]
    decide
  let vm : Instance := { importInstance 1 #[passOn] with
    pending := 1, regs := { stp := 124, stk := 120, cip := -1 } }
  have hcall : ({ program := some p } : Engine).call 2 { vm } =
      .ok (.error .index, Host.putBack { vm } { vm := { vm with pending := 0 } }) := by
    refine balanced_eq_ok.mpr ⟨_, ?_, rfl⟩
    rw [Environment.invoke, Environment.codeAddress?, hnone]
    rfl
  have hfits : ({ program := some p } : Engine).Fits vm :=
    fits_importEngine hp (size_importInstance 1 #[passOn])
  obtain ⟨hstk, -, -, hlast⟩ := calls_drop_arguments hfits hcall
  obtain ⟨hpending, -⟩ := hlast fun native hmem => by
    rw [Array.mem_singleton.mp hmem]
    exact keeps_passOn Instance.steady_clears
  exact ⟨_, _, _, rfl, rfl, hcall, hstk, hpending⟩

end PawnNative
