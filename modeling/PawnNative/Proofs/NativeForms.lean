import Mathlib.Tactic.Common
import PawnNative.Proofs.Limits
import PawnNative.Proofs.Transparency

/-! # Two forms of a call of a native

    A native finds its arguments on the stack, and below them the count of their
    bytes. With one instruction the host pushes the count and drops the arguments when
    the native is done; with another one the bytecode does both, by instructions
    around the call. `native_call_forms_agree` says that this makes no difference: the
    native is called with the same parameters at the same address, it comes to the same
    result, and what follows finds the same instance, but for the alternate register.

    There is one exception. The instruction that drops the arguments looks for the
    bottom of the stack, and the host does not. A native can write the register that
    holds it; when it leaves the bottom below the stack, the first form goes on and the
    second one ends with a fault.

    A native may call compiled functions, which call natives again, so each form takes
    as many steps as it needs. Section 1 shows that more steps never change what a run
    has come to, and `ComesTo` leaves the number of steps out. That the native does the
    same in both places is an instance of what two programs do side by side: here both
    are the same program.
-/

namespace PawnNative

open X64 Convention Template

/-! ## Section 1: More steps -/

/-- Whatever the first way to make the calls of natives comes to, the second one comes to as
    well. -/
structure Callbacks.Extends (k k' : Callbacks) : Prop where
  isInstruction : ∀ address, k'.isInstruction address = k.isInstruction address
  call : ∀ {address : Cell} {h : Host} {y : Except Fault Cell × Host}, k.call address h = .ok y →
    k'.call address h = .ok y

namespace Callbacks.Extends

variable {k k' : Callbacks} (hk : k.Extends k') {h h' : Host}
include hk

theorem perform (a : Action) {y : a.Answer × Host} (hperform : k.perform a h = .ok y) :
    k'.perform a h = .ok y := by
  cases a with
  | call address => exact hk.call hperform
  | callPublic index =>
    have hcall : k.callPublic index h = .ok y := hperform
    show k'.callPublic index h = .ok y
    unfold Callbacks.callPublic at hcall ⊢
    cases htarget : h.vm.publicAddress? index with
    | none => simpa only [htarget] using hcall
    | some address =>
      simp only [htarget] at hcall
      exact hk.call hcall
  | callMain =>
    have hcall : k.callMain h = .ok y := hperform
    show k'.callMain h = .ok y
    unfold Callbacks.callMain at hcall ⊢
    split_ifs at hcall ⊢ with hcip
    · exact hcall
    · exact hk.call hcall
  | isInstruction address => rwa [Callbacks.perform, hk.isInstruction]
  | _ => exact hperform

theorem runsTo {α : Type} {p : NativeProgram α} {ending : Ending α}
    (hruns : p.RunsTo k h ending h') : p.RunsTo k' h ending h' := by
  induction hruns with
  | done => exact .done
  | fail => exact .fail
  | abort => exact .abort
  | act hact _ ih => exact .act (hk.perform _ hact) ih

theorem dispatch {index : Cell} {block : ArgBlock} {r : Except Fault Cell}
    (hdispatch : dispatch k index block h = .ok (r, h')) : PawnNative.dispatch k' index block h =
      .ok (r, h') := by
  obtain ⟨ending, hd, rfl⟩ := dispatch_eq_ok_iff.mp hdispatch
  refine dispatch_eq_ok_iff.mpr ⟨ending, ?_, rfl⟩
  cases hd with
  | full hfull => exact .full hfull
  | unbound henter hnative => exact .unbound henter hnative
  | unread henter hnative hparams => exact .unread henter hnative hparams
  | ran henter hnative hparams hruns => exact .ran henter hnative hparams (hk.runsTo hruns)

theorem help {env : Environment} {helper : Helper} {m m' : Machine}
    (hhelp : env.help k helper m = .ok m') : env.help k' helper m = .ok m' := by
  obtain ⟨hrsp, hhelp⟩ := ite_error_eq_ok.mp hhelp
  refine ite_error_eq_ok.mpr ⟨hrsp, ?_⟩
  cases helper with
  | callNative =>
    obtain ⟨⟨r, host⟩, hdispatch, hhelp⟩ := bind_eq_ok.mp hhelp
    exact bind_eq_ok.mpr ⟨(r, host), hk.dispatch hdispatch, hhelp⟩
  | findCode | floatLog => exact hhelp

end Callbacks.Extends

namespace Environment

variable {env : Environment} {m m' r : Machine} {n n' : Nat} {c d : Nat × Machine}

theorem invoke_of_run {run run' : Machine → Except Crash Machine} {regs : RegFile} {address : Cell}
    {k : Nat} {h : Host}
    {y : Except Fault Cell × Host} (hrun : ∀ {m r}, run m = .ok r → run' m = .ok r)
    (hinvoke : env.invoke run regs address k h = .ok y) :
      env.invoke run' regs address k h = .ok y := by
  unfold invoke at hinvoke ⊢
  cases htarget : env.codeAddress? address with
  | none => simpa only [htarget] using hinvoke
  | some target =>
    cases hcount : h.vm.pushCell (BitVec.ofNat 32 (k * Cell.width)) with
    | error f => simpa only [htarget, hcount] using hinvoke
    | ok vm =>
      cases hreturn : vm.pushCell 0 with
      | error f => simpa only [htarget, hcount, hreturn] using hinvoke
      | ok vm' =>
        simp only [htarget, hcount, hreturn] at hinvoke ⊢
        obtain ⟨m₀, hentry, hactivate⟩ := bind_eq_ok.mp hinvoke
        obtain ⟨m₁, hm₁, hactivate⟩ := bind_eq_ok.mp hactivate
        exact bind_eq_ok.mpr ⟨m₀, hentry, bind_eq_ok.mpr ⟨m₁, hrun hm₁, hactivate⟩⟩

/-- Runs that come to more give calls that come to more. -/
theorem extends_callbacks {run run' : Machine → Except Crash Machine}
    (hrun : ∀ {m r}, run m = .ok r → run' m = .ok r) (regs : RegFile) :
    (env.callbacks run regs).Extends (env.callbacks run' regs) := by
  refine ⟨fun _ => rfl, ?_⟩
  rintro address h ⟨r, h'⟩ hcall
  obtain ⟨h₁, hinvoke, rfl⟩ := balanced_eq_ok.mp hcall
  exact balanced_eq_ok.mpr ⟨h₁, invoke_of_run hrun hinvoke, rfl⟩

/-- **More steps.** A run that has come to its end does so with more steps too. -/
theorem run_succ (h : env.run n m = .ok r) : env.run (n + 1) m = .ok r := by
  -- A helper makes calls with one step less, so the hypothesis covers the runs
  -- of these calls as well.
  induction n generalizing m r with
  | zero => cases h
  | succ n ih =>
    rw [run] at h ⊢
    split_ifs at h ⊢ with hhost
    · exact h
    · cases hhelper : Helper.ofAddress? m.rip with
      | none =>
        simp only [hhelper] at h ⊢
        obtain ⟨m₁, hstep, h⟩ := bind_eq_ok.mp h
        exact bind_eq_ok.mpr ⟨m₁, hstep, ih h⟩
      | some helper =>
        simp only [hhelper] at h ⊢
        obtain ⟨m₁, hhelp, h⟩ := bind_eq_ok.mp h
        exact bind_eq_ok.mpr ⟨m₁, (extends_callbacks ih m.regs).help hhelp, ih h⟩

theorem run_of_le (hle : n ≤ n') (h : env.run n m = .ok r) : env.run n' m = .ok r := by
  induction hle with
  | refl => exact h
  | step _ ih => exact run_succ ih

theorem extends_of_le (hle : n ≤ n') (regs : RegFile) :
    (env.callbacks (env.run n) regs).Extends (env.callbacks (env.run n') regs) :=
  extends_callbacks (run_of_le hle) regs

theorem Step.more (h : env.Step c d) (e : Nat) : env.Step (c.1 + e, c.2) (d.1 + e, d.2) := by
  cases h with
  | @instr n m m' hhost hcode h =>
    show env.Step (n + 1 + e, m) (n + e, m')
    rw [Nat.add_right_comm]
    exact .instr hhost hcode h
  | @helper n m m' helper hhost hhelper h =>
    show env.Step (n + 1 + e, m) (n + e, m')
    rw [Nat.add_right_comm]
    exact .helper hhost hhelper ((extends_of_le (Nat.le_add_right n e) m.regs).help h)

theorem Reaches.more (h : env.Reaches c d) (e : Nat) :
    env.Reaches (c.1 + e, c.2) (d.1 + e, d.2) := by
  induction h with
  | refl => exact .refl
  | tail _ hstep ih => exact .tail ih (hstep.more e)

/-- A run comes from one machine to another one, as soon as it has enough steps
    for all calls on the way. -/
def ComesTo (env : Environment) (m m' : Machine) : Prop :=
  ∃ n n', ∀ e, env.Reaches (n + e, m) (n' + e, m')

theorem Reaches.comesTo (h : env.Reaches (n, m) (n', m')) : env.ComesTo m m' := ⟨n, n', h.more⟩

theorem ComesTo.of_reaches (h : ∃ k, ∀ n, env.Reaches (n + k, m) (n, m')) : env.ComesTo m m' := by
  obtain ⟨k, hreaches⟩ := h
  exact (hreaches 0).comesTo

theorem ComesTo.trans {m₁ m₂ m₃ : Machine} (h : env.ComesTo m₁ m₂) (h' : env.ComesTo m₂ m₃) :
    env.ComesTo m₁ m₃ := by
  obtain ⟨n, n₁, hfirst⟩ := h
  obtain ⟨n₂, n', hlast⟩ := h'
  have hlast := hlast n₁
  rw [Nat.add_comm] at hlast
  exact Reaches.comesTo ((hfirst n₂).trans hlast)

theorem ComesTo.upright (h : env.ComesTo m m') : m.Upright m' := by
  obtain ⟨n, n', hreaches⟩ := h
  exact (hreaches 0).upright

theorem ComesTo.layout_atOffset {o : Nat} (h : env.ComesTo m (m'.atOffset o)) :
    m'.layout = m.layout :=
  show (m'.atOffset o).layout = m.layout from h.upright.layout

end Environment

/-! ## Section 2: A native in two places of a program -/

section
variable {k : Callbacks} {calls : Cell → Host → List Event}

theorem NativeProgram.isCall_events {α : Type}
    (hcalls : ∀ address h, ∀ e ∈ calls address h, e.isCall)
    (p : NativeProgram α) (h : Host) : ∀ e ∈ p.events k calls h, e.isCall := by
  induction p generalizing h with
  | done | fail | abort => exact fun e he => absurd he List.not_mem_nil
  | act a next ih =>
    intro e he
    rw [NativeProgram.events] at he
    rcases List.mem_append.mp he with he | he
    · rw [Action.events] at he
      cases htarget : a.target? h.vm with
      | none =>
        rw [htarget] at he
        exact absurd he List.not_mem_nil
      | some address =>
        rw [htarget] at he
        exact hcalls address h e he
    · cases hperform : k.perform a h with
      | error =>
        rw [hperform] at he
        exact absurd he List.not_mem_nil
      | ok answered =>
        rw [hperform] at he
        exact ih answered.1 answered.2 e he

theorem isCall_dispatchEvents (hcalls : ∀ address h, ∀ e ∈ calls address h, e.isCall) (index : Cell)
    (block : ArgBlock) (h : Host) : ∀ e ∈ dispatchEvents k calls index block h, e.isCall := by
  intro e he
  unfold dispatchEvents at he
  cases henter : CallContext.enter h.vm block with
  | error f => simp only [henter, List.not_mem_nil] at he
  | ok entered =>
    cases hnative : entered.2.nativeAt index with
    | error f => simp only [henter, hnative, List.not_mem_nil] at he
    | ok native =>
      cases hparams : entered.1.params entered.2 with
      | error f => simp only [henter, hnative, hparams, List.not_mem_nil] at he
      | ok params =>
        simp only [henter, hnative, hparams] at he
        rcases List.mem_cons.mp he with rfl | he
        · rfl
        · exact NativeProgram.isCall_events hcalls _ _ e he

end

namespace Environment

theorem isCall_callEvents {env : Environment} {regs : RegFile} {run : Machine → List Event}
    (hrun : ∀ m, ∀ e ∈ run m, e.isCall) (address : Cell) (h : Host) :
    ∀ e ∈ env.callEvents run regs address h, e.isCall := by
  unfold callEvents
  cases env.entering? regs address h with
  | none => exact fun e he => absurd he List.not_mem_nil
  | some m => exact hrun m

/-- Where no code for failed range checks is looked for, a run does nothing but call natives. -/
theorem isCall_trace (env : Environment) (n : Nat) (m : Machine) :
    ∀ e ∈ env.trace none n m, e.isCall := by
  induction n generalizing m with
  | zero => exact fun e he => absurd he List.not_mem_nil
  | succ n ih =>
    intro e he
    rw [trace] at he
    split_ifs at he with hhost
    · exact absurd he List.not_mem_nil
    cases hhelper : Helper.ofAddress? m.rip with
    | some helper =>
      simp only [hhelper] at he
      rcases List.mem_append.mp he with he | he
      · cases helper with
        | callNative => exact isCall_dispatchEvents (isCall_callEvents ih) _ _ _ e he
        | findCode | floatLog => exact absurd he List.not_mem_nil
      · cases hhelp : env.help (env.callbacks (env.run n) m.regs) helper m with
        | error => simp only [hhelp, List.not_mem_nil] at he
        | ok m' =>
          simp only [hhelp] at he
          exact ih m' e he
    | none =>
      simp only [hhelper] at he
      cases hstep : m.step env.program.readings with
      | error => simp only [hstep, List.not_mem_nil] at he
      | ok m' =>
        simp only [hstep, arrivals, List.nil_append] at he
        exact ih m' e he

variable {env : Environment} {ctx : Context} {is : List Instruction} {n j : Nat}

/-- At the same depth of the native stack, calls that natives make come to the same from
    wherever the native was called. -/
theorem Ready.agree {regs regs' : RegFile} {vm : Instance} (hr : env.Ready ctx is vm.block.size)
    (hrepeats : env.platform.Repeats) (hrsp : regs.get .rsp = env.layout.slot (j + 1))
    (hrsp' : regs'.get .rsp = regs.get .rsp) (hroom : 8 * (j + 2) ≤ env.layout.stackSize) :
    (env.callbacks (env.run n) regs).Agree (env.callbacks (env.run n) regs')
      (env.callEvents (env.trace none n) regs) (env.callEvents (env.trace none n) regs') vm := by
  -- The program is its own twin, with all its range checks.
  have hr' : env.Ready (ctx.erased false) is vm.block.size := by
    rw [ctx.erased_false]
    exact hr
  let t : Twins := ⟨env, env, false, ctx, is, vm.block.size, rfl, hr, hr', hrepeats _ _⟩
  have hagree := Twins.agree_callbacks (t := t) (fun n₁ _ => t.tracks n₁) (Nat.le_refl n) hrsp
    hrsp' hroom rfl
  exact hagree

/-- The call of a native that a machine at the helper asks for comes to this result, and leaves this
    instance, as soon as there are enough steps for the calls that the native makes. -/
def Replies (env : Environment) (x : Machine) (r : Except Fault Cell) (vm : Instance) : Prop :=
  ∃ n host, dispatch (env.callbacks (env.run n) x.regs) (x.reg32 .rsi) (argBlock x.regs) x.host =
    .ok (r, host) ∧ host.vm = vm

/-- Two machines of one activation ask for the same native, and their argument blocks come to the
    same: then the native does the same for both. -/
theorem Ready.replies {a : Activation} {rets : List Word} {x x' : Machine} {rbp rbp' : Word}
    {j' o o' : Nat}
    {c c' : CallContext} {r : Except Fault Cell} {vm vm₁ : Instance}
    (hr : env.Ready ctx is a.host.vm.block.size)
    (hrepeats : env.platform.Repeats) (hx : x.AtDoor env Instance.Fixed a rets rbp j o)
    (hx' : x'.AtDoor env Instance.Fixed a rets rbp' j' o') (hindex : x'.reg32 .rsi = x.reg32 .rsi)
    (henter : CallContext.enter x.host.vm (argBlock x.regs) = .ok (c, vm))
    (henter' : CallContext.enter x'.host.vm (argBlock x'.regs) = .ok (c', vm))
    (haddress : c'.address = c.address)
    (h : env.Replies x r vm₁) : env.Replies x' r (c'.leave vm₁) := by
  obtain ⟨n, host, hdispatch, rfl⟩ := h
  -- The depth is decided by the activation and the alignment, not by the code that
  -- has called the helper.
  obtain rfl : j' = j := Layout.eq_of_aligned hx.aligned hx'.aligned hx.below hx.near
    hx'.below hx'.near
  have hkeep := keep_callbacks hr Instance.steady_fixed (fun native _ => native.keeps_fixed) n
    x.regs j' hx.rsp hx.deep
  have hagree := hr.agree (n := n) hrepeats hx.rsp (hx'.rsp.trans hx.rsp.symm) hx.deep
  obtain ⟨host', vm₂, hdispatch', hhost, hhost', -⟩ := hagree.dispatch_entered hkeep
    (hx.steady.trans (CallContext.fixed_enter henter)) henter henter' haddress hdispatch
    (isCall_dispatchEvents (isCall_callEvents (env.isCall_trace n)) _ _ _)
  rw [← hindex] at hdispatch'
  refine ⟨n, host', hdispatch', ?_⟩
  rw [hhost', hhost]
  rfl

end Environment

/-! ## Section 3: Instructions one after the other -/

/-- What a move of the stack comes to. -/
def Instance.moveStack (vm : Instance) (n : Cell) : Except Fault Instance :=
  match vm.regs.stackVerdict n with
  | none => .ok { vm with regs := vm.regs.stackMoved n }
  | some f => .error f

theorem Machine.Carries.home {m m' : Machine} {env : Environment} {a : Activation}
    {rets : List Word} {vm : Instance}
    (hm' : m.Carries m' (a.top rets + 1) vm) (h : m.Home env Instance.Fixed a rets)
    (hlayout : m'.layout = m.layout)
    (hvm : m.spilled.Fixed vm) : m'.Home env Instance.Fixed a rets := by
  have hkept := hm'.kept
  have hfixed : m.host.vm.Fixed m'.host.vm := by
    have hspilled := (Environment.Ready.steady_spilled Instance.steady_fixed m).trans hvm
    rw [← hm'.spilled] at hspilled
    exact hspilled.trans (Environment.Ready.steady_spilled Instance.steady_fixed m').symm
  have hstack : ∀ k, k < 2 * (a.base + 14 + rets.length) →
      m'.host.stack.get k = m.host.stack.get k := by
    intro k hk
    exact hm'.stack k (by unfold Activation.top; omega)
  refine ⟨h.toInside.change Instance.steady_fixed hlayout (hkept call (by decide))
      (hkept data (by decide)) hfixed
    fun k hk _ => hstack k hk, (hkept .rsp (by decide)).trans h.rsp, ?_⟩
  rw [hstack _ (by omega), h.fault]

namespace Environment

variable {env : Environment} {config : Config} {vm₀ : Instance} {a : Activation} {rets : List Word}
  {i j : Instruction} {after : List Instruction} {m m' : Machine}

/-- From `m` a run comes to the helper for natives, which is asked for the native with this index,
    and finds this instance. -/
structure Asks (env : Environment) (m x : Machine) (index : Cell) (block : ArgBlock)
    (vm : Instance) : Prop where
  comesTo : env.ComesTo m x
  helper : x.rip = Helper.callNative.address
  native : x.reg32 .rsi = index
  arguments : argBlock x.regs = block
  vm : x.host.vm = vm

/-- How a run comes out of the code of instructions that `after` follows: it goes on there and holds
    this instance, or the activation ends with this fault. -/
def ComesOut (env : Environment) (a : Activation) (rets : List Word) (after : List Instruction)
    (m : Machine) : Except Fault Instance → Prop
  | .ok vm => ∃ m', env.ComesTo m m' ∧ m'.Home env Instance.Fixed a rets ∧
  (∀ j ∈ after.head?, env.At j.address m') ∧
    m'.spilled = vm
  | .error f => ∃ r, env.ComesTo m r ∧ r.Returned env Instance.Fixed a ∧ r.reg32 .rax = f.code

theorem Asks.enter {x : Machine} {index : Cell} {block : ArgBlock} {c : CallContext}
    {vm vm₁ : Instance}
    (h : env.Asks m x index block vm) (henter : CallContext.enter vm block = .ok (c, vm₁)) :
    CallContext.enter x.host.vm (argBlock x.regs) = .ok (c, vm₁) := by
  rwa [h.vm, h.arguments]

theorem ComesTo.comesOut {out : Except Fault Instance} (hcomes : env.ComesTo m m')
    (h : env.ComesOut a rets after m' out) : env.ComesOut a rets after m out := by
  cases out with
  | ok vm =>
    obtain ⟨m₁, hm₁, hrest⟩ := h
    exact ⟨m₁, hcomes.trans hm₁, hrest⟩
  | error f =>
    obtain ⟨r, hr, hrest⟩ := h
    exact ⟨r, hcomes.trans hr, hrest⟩

namespace AtInstruction

theorem next (h : env.AtInstruction config vm₀ a rets i (j :: after) m) (hcomes : env.ComesTo m m')
    (hhome : m'.Home env Instance.Fixed a rets) (hat : env.At j.address m') :
    env.AtInstruction config vm₀ a rets j after m' := by
  obtain ⟨before, hlisting⟩ := h.listing
  refine ⟨h.loaded, h.compiled, ⟨before ++ [i], ?_⟩, h.separate, hhome, hat,
    hcomes.upright.down h.upwards⟩
  rwa [List.append_assoc]

theorem elsewhere (h : env.AtInstruction config vm₀ a rets i after m) (before' : List Instruction)
    (j : Instruction) (after' : List Instruction)
    (hlisting : Decodes vm₀.code 0 (before' ++ j :: after') none) :
    ∃ w, env.AtInstruction config vm₀ a rets j after' (m.jumpTo w) := by
  have hfinishes := Program.finishes_of_listing h.compiled hlisting
  obtain ⟨o, ho⟩ :=
    Option.isSome_iff_exists.mp ((hfinishes.offset_isSome_iff j.address).mpr ⟨j, by simp, rfl⟩)
  exact ⟨env.layout.code + BitVec.ofNat 64 o, h.loaded, h.compiled, ⟨before', hlisting⟩, h.separate,
    h.home.jumpTo _, ⟨o, ho, rfl⟩, h.upwards⟩

theorem exists_lines (h : env.AtInstruction config vm₀ a rets i after m) :
    ∃ (is : List Instruction) (ls rest : List Line) (o : Nat),
      env.Ready (.ofInstance config vm₀) is a.host.vm.block.size ∧
      template (.ofInstance config vm₀) i = .ok ls ∧
      LinesFrom (.ofInstance config vm₀) is o (ls ++ rest) ∧ m.atOffset o = m ∧
      ∀ j ∈ after.head?, env.program.offset? j.address = some (o + linesSize ls) := by
  obtain ⟨before, hlisting⟩ := h.listing
  have hfinishes := Program.finishes_of_listing h.compiled hlisting
  obtain ⟨ls, hls, -⟩ := hfinishes.holds_at
  obtain ⟨o, ho, hrip⟩ := h.here
  obtain ⟨rest, hat, -⟩ := hfinishes.linesFrom_template hls ho
  exact ⟨_, ls, rest, o, ⟨hfinishes, h.separate⟩, hls, hat, Machine.atOffset_eq h.home.layout hrip,
    hfinishes.offset_head? hls ho⟩

theorem comesOut_of_comesTo {o : Nat}
    (hnext : ∀ j ∈ after.head?, env.program.offset? j.address = some o)
    (hcomes : env.ComesTo m (m'.atOffset o)) (hhome : m'.Home env Instance.Fixed a rets) :
    env.ComesOut a rets after m (.ok m'.spilled) :=
  ⟨m'.atOffset o, hcomes, hhome.jumpTo _,
    fun j hj => ⟨o, hnext j hj, Machine.rip_atOffset hhome.layout o⟩, rfl⟩

theorem pushes {q v s : Cell} {vm : Instance}
    (h : env.AtInstruction config vm₀ a rets ⟨q, .pushC, [v]⟩ after m)
    (hsized : m.host.vm.Sized) (hstk : m.HasStk s) (hpush : m.spilled.pushCell v = .ok vm) :
    env.ComesOut a rets after m (.ok vm) := by
  obtain ⟨is, ls, rest, o, hr, hls, hat, hm, hnext⟩ := h.exists_lines
  obtain rfl : ls = pushImm v := (Except.ok.inj hls).symm
  have hpushed := Instance.pushed?_of_pushCell hpush
  obtain ⟨-, vm₁, hset, -⟩ := Instance.pushCell_eq_ok.mp hpush
  obtain ⟨hset, hsmall⟩ := Instance.setCellAt?_of_setCell hset
  rw [hstk.spilled] at hset hsmall
  obtain ⟨hcell, -⟩ := Instance.setCellAt_eq_some hset
  obtain ⟨m', hexec, -, -, hpushed', -⟩ :=
    h.home.toInside.execLines_pushed Instance.steady_fixed hsized
    (i := .storeImm top v) (fun _ _ => rfl) hstk (by bv_omega) hcell
  obtain rfl : vm = m'.spilled := Option.some_inj.mp (hpushed.symm.trans hpushed')
  have hgoes := hr.goes_lines _ (List.cons_ne_nil _ _) rfl hat h.home.layout hexec
  rw [hm] at hgoes
  exact comesOut_of_comesTo hnext (Reaches.comesTo (hgoes.reaches 0))
    (h.home.execLines Instance.steady_fixed rfl hexec)

theorem asks (h : env.AtInstruction config vm₀ a rets i after m) (index : NativeIndex)
    (count : ArgCount) (hcall : i.nativeCall? = some (index, count))
    (hgeneric : inlined? (.ofInstance config vm₀) index count = none)
    (hdeep : 8 * (m.nativeWords + 3) ≤ env.layout.stackSize) :
    ∃ x, env.Asks m x (index.value m) count.block m.spilled ∧
      (∃ rbp j o, x.AtDoor env Instance.Fixed a rets rbp j o) ∧
      ∀ r vm, env.Replies x r vm → env.ComesOut a rets after m (r.map fun v => vm.put .pri v) := by
  obtain ⟨is, ls, rest, o, hr, hls, hat, hm, hnext⟩ := h.exists_lines
  obtain rfl := template_nativeCall hls hcall hgeneric
  have hwords := h.home.nativeWords hr.separate.bounded
  obtain ⟨x, hgoes, hrip, hcalls⟩ := hr.goes_native Instance.steady_fixed rfl hat h.home
    (by unfold Activation.top; omega)
  rw [hm] at hgoes
  obtain ⟨j, hdoor⟩ := hcalls.door
  obtain ⟨-, hrsi, hblock⟩ := hcalls.native
  have hcomes : env.ComesTo m x := Reaches.comesTo (hgoes.reaches 0)
  refine ⟨x, ⟨hcomes, hrip, hrsi, hblock, hcalls.vm⟩, ⟨_, j, _, hdoor⟩, ?_⟩
  rintro r vm ⟨n, host, hdispatch, rfl⟩
  -- The steps that follow the native are left over too.
  have hdispatch := (extends_of_le (Nat.le_add_right n (settleLines.length + leaveSteps + 3))
      x.regs).dispatch hdispatch
  have hb := hr.backs_fixed (n + (settleLines.length + leaveSteps + 3) + 1)
  obtain ⟨hfixed, -⟩ := keep_dispatch Instance.steady_fixed (fun native _ => native.keeps_fixed)
    ((hb.calls _ (Nat.lt_succ_self _) x.regs j hdoor.rsp hdoor.deep).mono (Nat.le_refl _)
      hdoor.steady) hdispatch
  obtain ⟨ending, hd, hresult⟩ := dispatch_eq_ok_iff.mp hdispatch
  rw [hrsi, hblock] at hd
  obtain ⟨hvalue, hfault⟩ := hb.settles hat h.home hrip hcalls hd
  cases r with
  | ok v =>
    obtain ⟨m', hreaches, hcarries, -⟩ := hvalue v hresult
    have hcomes' := hcomes.trans (Reaches.comesTo (hreaches (n + leaveSteps + 3) (by omega)))
    have hput : m.spilled.Fixed (host.vm.put .pri v) := by
      rw [← hcalls.vm]
      exact ⟨hfixed.header, hfixed.natives, hfixed.size⟩
    show env.ComesOut a rets after m (.ok (host.vm.put .pri v))
    rw [← hcarries.spilled]
    exact comesOut_of_comesTo hnext hcomes' (hcarries.home h.home hcomes'.layout_atOffset hput)
  | error f =>
    obtain ⟨y, hreaches, hreturned, -, hrax⟩ := hfault f hresult
    exact ⟨y, hcomes.trans (Reaches.comesTo (hreaches n rfl)), hreturned, hrax⟩

theorem releases {q n : Cell} (h : env.AtInstruction config vm₀ a rets ⟨q, .stack, [n]⟩ after m) :
    env.ComesOut a rets after m (m.spilled.moveStack n) := by
  obtain ⟨m', hmoves, hends⟩ := h.moves_stack rfl
  have hhome := h.home.becomes Instance.steady_fixed hmoves.becomes (by decide)
  have hverdict : Ends env a after m m' (m.spilled.regs.stackVerdict n) := hends
  unfold Instance.moveStack
  cases hv : m.spilled.regs.stackVerdict n with
  | none =>
    rw [hv] at hverdict
    exact ⟨m', .of_reaches hverdict.reaches, hhome, hverdict.next, hmoves.spilled⟩
  | some f =>
    rw [hv] at hverdict
    obtain ⟨k, r, hleaves, hreturned, hrax, -⟩ := hverdict.leaves
    exact ⟨r, (ComesTo.of_reaches hverdict.reaches).trans (.of_reaches ⟨k, hleaves⟩),
      hreturned, hrax⟩

/-- The count is pushed, the native is called and its arguments are dropped. -/
theorem asks_pushed {q₁ q₂ q₃ index bytes n s : Cell} {vm : Instance}
    (h : env.AtInstruction config vm₀ a rets ⟨q₁, .pushC, [bytes]⟩
      (⟨q₂, .sysreqC, [index]⟩ :: ⟨q₃, .stack, [n]⟩ :: after) m)
    (hgeneric : inlined? (.ofInstance config vm₀) (.const index) .pushed = none)
    (hsized : m.host.vm.Sized) (hstk : m.HasStk s) (hpush : m.spilled.pushCell bytes = .ok vm)
    (hdeep : 8 * (m.nativeWords + 3) ≤ env.layout.stackSize) :
    ∃ x, env.Asks m x index .onStack vm ∧ (∃ rbp j o, x.AtDoor env Instance.Fixed a rets rbp j o) ∧
      ∀ r vm₁, env.Replies x r vm₁ →
        env.ComesOut a rets after m (r >>= fun v => (vm₁.put .pri v).moveStack n) := by
  obtain ⟨m₁, hcomes, hhome₁, hat₁, rfl⟩ := h.pushes hsized hstk hpush
  have h₁ := h.next hcomes hhome₁ (hat₁ _ rfl)
  have hdeep₁ : 8 * (m₁.nativeWords + 3) ≤ env.layout.stackSize := by
    have hwords := h.home.nativeWords h.separate.bounded
    have hwords₁ := hhome₁.nativeWords h.separate.bounded
    omega
  obtain ⟨x, hasks, hdoor, hout⟩ := h₁.asks (.const index) .pushed rfl hgeneric hdeep₁
  refine ⟨x, { hasks with comesTo := hcomes.trans hasks.comesTo }, hdoor, fun r vm₁ hreplies =>
    hcomes.comesOut ?_⟩
  have hleft := hout r vm₁ hreplies
  cases r with
  | error f => exact hleft
  | ok v =>
    obtain ⟨m₂, hcomes₂, hhome₂, hat₂, hspilled⟩ := hleft
    have hreleases := (h₁.next hcomes₂ hhome₂ (hat₂ _ rfl)).releases
    rw [hspilled] at hreleases
    exact hcomes₂.comesOut hreleases

end AtInstruction

end Environment

/-! ## Section 4: Argument blocks -/

/-- The argument block of a call that pushes the count, and the one that it finds afterwards. -/
theorem CallContext.enter_pushCell {vm vm' : Instance} {bytes : Cell}
    (hpush : vm.pushCell bytes = .ok vm') :
    enter vm (.push bytes) = .ok (⟨.push bytes, vm.regs.stk, vm.regs.stk - 4⟩, vm') ∧
    enter vm' .onStack = .ok (⟨.onStack, vm.regs.stk - 4, vm.regs.stk - 4⟩, vm') := by
  obtain ⟨-, vm₁, -, rfl⟩ := Instance.pushCell_eq_ok.mp hpush
  refine ⟨?_, rfl⟩
  rw [enter, hpush]
  rfl

theorem Environment.Replies.stk {env : Environment} {x : Machine} {r : Except Fault Cell}
    {c : CallContext} {vm vm₁ : Instance} (h : env.Replies x r vm₁)
    (henter : CallContext.enter x.host.vm (argBlock x.regs) = .ok (c, vm)) :
      vm₁.regs.stk = c.finalStk := by
  obtain ⟨n, host, hdispatch, rfl⟩ := h
  obtain ⟨ending, hd, -⟩ := dispatch_eq_ok_iff.mp hdispatch
  cases hd with
  | full hfull => cases henter.symm.trans hfull
  | unbound henter' _ | unread henter' _ _ | ran henter' _ _ _ =>
    cases henter.symm.trans henter'
    rfl

theorem nonneg_of_template {ctx : Context} {ls : List Line} {p index bytes : Cell}
    (hls : template ctx ⟨p, .sysreqN, [index, bytes]⟩ = .ok ls) : 0 ≤ bytes.toInt := by
  have hcounted : nativeCounted ctx ⟨p, .sysreqN, [index, bytes]⟩ = .ok ls := hls
  obtain ⟨hvalid, -⟩ := ite_error_eq_ok.mp hcounted
  exact Int.not_lt.mp fun hneg => hvalid (.inl hneg)

theorem inlined?_counted {ctx : Context} {n bytes : Cell}
    (h : inlined? ctx (.const n) .pushed = none) :
    inlined? ctx (.const n) (.const bytes) = none := by
  unfold inlined? at h ⊢
  dsimp only at h ⊢
  split_ifs at h ⊢ with hoff
  · rfl
  · cases hname : ((ctx.natives[n.toNat]?).join).bind FloatNative.ofName? with
    | none => rfl
    | some f =>
      rw [hname] at h
      cases h

namespace Instance

variable {vm vm' : Instance} {s c v : Cell}

theorem cell_eq_error (h : vm.cellAt? c.toNat = none) : vm.cell c = .error .memoryAccess := by
  unfold cell
  split_ifs with hin
  · rw [inData, Bool.and_eq_true_iff, decide_eq_true_eq, decide_eq_true_eq] at hin
    rw [cellAt?, if_pos ⟨Int.natCast_nonneg _, by omega⟩, Int.toNat_natCast] at h
    rw [h]
  · rfl

theorem cells_of_stacks (hsized : vm.Sized) (hsized' : vm'.Sized) (hstacks : vm.Stacks [v] vm')
    (n : Nat) (hc : vm.regs.stk.toNat ≤ c.toNat) : vm'.cells n c = vm.cells n c := by
  induction n generalizing c with
  | zero => rfl
  | succ n ih =>
    have habove := hstacks.above c.toNat (by rw [topAddress]; omega)
    cases hcell : vm.cellAt? c.toNat with
    | none =>
      rw [cells, cells, cell_eq_error hcell, cell_eq_error (habove.trans hcell),
        error_bind, error_bind]
    | some w =>
      have hle := (hasCell_of_cellAt hcell).2
      have htotal := hsized.total
      have hbounded := hsized.bounded
      rw [show Cell.width = 4 from rfl] at hle
      have hnext : (c + 4).toNat = c.toNat + 4 := by bv_omega
      rw [cells, cells, hsized.cell_eq_ok hcell, hsized'.cell_eq_ok (habove.trans hcell),
        ok_bind, ok_bind, ih (by omega)]

/-- A cell that is pushed was below a top of the stack that is a positive number. -/
theorem four_le_of_pushCell (hsized : vm.Sized) (hpush : vm.pushCell v = .ok vm') :
    4 ≤ vm.regs.stk.toInt := by
  obtain ⟨-, vm₁, hset, -⟩ := pushCell_eq_ok.mp hpush
  obtain ⟨⟨-, hle⟩, -⟩ := setCellAt_eq_some (setCellAt?_of_setCell hset).1
  have hstk := (stacks_pushCell hpush).stk
  rw [List.length_singleton] at hstk
  have hfour := toNat_sub_four (show 4 ≤ vm.regs.stk.toNat by omega)
  have htotal := hsized.total
  have hbounded := hsized.bounded
  rw [show Cell.width = 4 from rfl] at hle
  rw [BitVec.toInt_eq_toNat_of_lt (by omega)]
  omega

/-- The parameters of a native: the count that was pushed, and the cells above it. -/
theorem params_of_pushCell (hsized : vm.Sized) (hpush : vm.pushCell v = .ok vm') (hv : 0 ≤ v.toInt)
    {context : CallContext} (haddress : context.address = vm'.regs.stk) :
    context.params vm' = (vm.cells (v.toNat / Cell.width) vm.regs.stk).map (v :: ·) := by
  have hstacks := stacks_pushCell hpush
  have hsized' : vm'.Sized := (operated_pushCell hpush).toFixed.sized hsized
  have hstk := hstacks.stk
  rw [List.length_singleton] at hstk
  have hcount : vm'.cell vm'.regs.stk = .ok v := by
    have hcell := hstacks.cells 0 v rfl
    rw [show vm'.topAddress + 4 * ((0 : Nat) : Int) = vm'.topAddress by omega] at hcell
    exact hsized'.cell_eq_ok hcell
  have hnext : vm'.regs.stk + 4 = vm.regs.stk := by bv_omega
  rw [CallContext.params, haddress, hcount, ok_bind, if_neg (by omega)]
  show vm'.cells (v.toNat / Cell.width + 1) vm'.regs.stk = _
  rw [cells, hcount, ok_bind, hnext, cells_of_stacks hsized hsized' hstacks _ (Nat.le_refl _)]
  cases vm.cells (v.toNat / Cell.width) vm.regs.stk <;> rfl

end Instance

theorem Instance.moveStack_of_pos {vm : Instance} {n : Cell} (hn : 0 < n.toInt) : vm.moveStack n =
    if (vm.regs.stk + n).toInt ≤ vm.regs.stp.toInt then .ok { vm with regs := vm.regs.stackMoved n }
    else .error .stackLow := by
  unfold moveStack Registers.stackVerdict
  by_cases hlow : (vm.regs.stk + n).toInt ≤ vm.regs.stp.toInt
  · rw [if_neg (fun hfault => by omega), if_neg (fun hfault => by omega), if_pos hlow]
  · rw [if_pos ⟨hn, by omega⟩, if_neg hlow]

/-- After a native that was called with a count of bytes the arguments are dropped, unless the
    bottom of the stack is among them. -/
theorem Instance.moveStack_dropped {vm : Instance} {s bytes v : Cell}
    (hstk : vm.regs.stk = s + bytes)
    (hbytes : 0 < (bytes + 4).toInt) : ((vm.put .stk (s - 4)).put .pri v).moveStack (bytes + 4) =
      if vm.regs.stk.toInt ≤ vm.regs.stp.toInt then .ok ((vm.put .pri v).put .alt (s - 4)) else
        .error .stackLow := by
  have hsum : s - 4 + (bytes + 4) = vm.regs.stk := by
    rw [hstk]
    bv_omega
  have hmoved : ((vm.put .stk (s - 4)).put .pri v).regs.stackMoved (bytes + 4) =
      ((vm.put .pri v).put .alt (s - 4)).regs := by
    show ({ vm.regs with pri := v, stk := s - 4 + (bytes + 4), alt := s - 4 } : Registers) = _
    rw [hsum]
    rfl
  rw [moveStack_of_pos hbytes, hmoved]
  show (if (s - 4 + (bytes + 4)).toInt ≤ vm.regs.stp.toInt then _ else _) = _
  rw [hsum]
  rfl

/-! ## Section 5: A program with both forms -/

/-- Both forms of a call with one argument, and the end of the program. -/
def formListing : List Instruction :=
  [⟨0, .sysreqN, [0, 4]⟩, ⟨12, .pushC, [4]⟩, ⟨20, .sysreqC, [0]⟩, ⟨28, .stack, [8]⟩,
    ⟨36, .halt, [0]⟩]

def formHeader : Header := { importHeader with size := 120, dat := 120, hea := 120, stp := 248 }

/-- The bytes of the image: the record of the import with this handle, its name and the code. -/
def formBytes (handle : Cell) : List Byte :=
  formHeader.bytes ++ handle.bytes ++ Cell.bytes 66 ++ Half.bytes 8 ++
    [0x68, 0x6F, 0x73, 0x74, 0x70, 0x75, 0x73, 0x68, 0, 0] ++ Instruction.stream formListing

/-- The image with its heap and stack, after the import was bound. -/
def formInstance (handle : Cell) (natives : Array Native) : Instance where
  header := formHeader
  block := (formBytes handle).toArray ++ Array.replicate 128 0
  regs := { stp := 124, stk := 124, cip := -1 }
  pending := 0
  natives := natives

theorem size_formInstance (handle : Cell) (natives : Array Native) :
    (formInstance handle natives).block.size = 248 := by
  show ((formBytes handle).toArray ++ Array.replicate 128 0).size = 248
  rw [Array.size_append, Array.size_replicate, List.size_toArray]
  rfl

theorem load_formImage : Instance.load (formBytes 0).toArray = .ok (formInstance 0 #[]) :=
  Instance.load_whole (by decide +kernel) rfl (by decide) rfl

theorem decodes_formListing : Decodes (formInstance 0 #[]).code 0 formListing none :=
  .of_block (n := 44) rfl (by decide) rfl rfl (by decide) (by decide)

theorem exists_formProgram : ∃ p, Program.ofInstance {} (formInstance 0 #[]) = .ok p :=
  Program.exists_ofInstance {} load_formImage decodes_formListing (by decide) (by decide)

theorem inlined?_form :
    inlined? (.ofInstance {} (formInstance 0 #[])) (.const 0) .pushed = none := by decide +kernel

/-- A native that answers five; it may lower the bottom of the stack first. -/
def formNative : Bool → Native
  | false => fun _ => .done 5
  | true => fun _ => .act (.setRegister .stp 0) fun _ => .done 5

/-- A call of the host that starts at the first instruction. -/
def formCall (lowers : Bool) : Invocation where
  regs := { rsp := Layout.standard.stackTop - 64 }
  depth := 6
  address := 0
  host := { vm := formInstance 1 #[formNative lowers] }

/-- What such a call finds before the native is called. -/
theorem exists_pushed (lowers : Bool) : ∃ vm₁ vm vm₂ : Instance,
    (formInstance 1 #[formNative lowers]).pushCell 0 = .ok vm₁ ∧ vm₁.pushCell 0 = .ok vm ∧
    vm.regs.stk = 116 ∧ vm.regs.stp = 124 ∧ vm.cells 1 116 = .ok [0] ∧ vm.pushCell 4 = .ok vm₂ ∧
    vm₂.nativeAt 0 = .ok (formNative lowers) := by
  have hhost : (do
      let vm₁ ← (formInstance 1 #[formNative lowers]).pushCell 0
      let vm ← vm₁.pushCell 0
      let vm₂ ← vm.pushCell 4
      let _ ← vm₂.nativeAt 0
      return (vm.regs.stk, vm.regs.stp, ← vm.cells 1 116) :
        Except Fault (Cell × Cell × List Cell)) = .ok (116, 124, [0]) := by
    cases lowers <;> decide +kernel
  obtain ⟨vm₁, hpush₁, hhost⟩ := bind_eq_ok.mp hhost
  obtain ⟨vm, hpush, hhost⟩ := bind_eq_ok.mp hhost
  obtain ⟨vm₂, hpush₂, hhost⟩ := bind_eq_ok.mp hhost
  obtain ⟨native, hnative, hhost⟩ := bind_eq_ok.mp hhost
  obtain ⟨cells, hcells, hhost⟩ := bind_eq_ok.mp hhost
  obtain ⟨hstk, hrest⟩ := Prod.mk.inj (Except.ok.inj hhost)
  obtain ⟨hstp, rfl⟩ := Prod.mk.inj hrest
  have hmem := Instance.mem_natives_of_nativeAt hnative
  rw [(Instance.operated_pushCell hpush₂).natives, (Instance.operated_pushCell hpush).natives,
    (Instance.operated_pushCell hpush₁).natives] at hmem
  obtain rfl : native = formNative lowers := Array.mem_singleton.mp hmem
  exact ⟨vm₁, vm, vm₂, hpush₁, hpush, hstk, hstp, hcells, hpush₂, hnative⟩

/-- A machine that is at both forms of the call, with the native that answers five. -/
theorem exists_forms (lowers : Bool) :
    ∃ (p : Program) (a : Activation) (rets : List Word) (m : Machine) (w : Word)
    (vm : Instance), Environment.AtInstruction ⟨.standard, p⟩ {} (formInstance 0 #[]) a rets
      ⟨0, .sysreqN, [0, 4]⟩ (formListing.drop 1) m ∧
    Environment.AtInstruction ⟨.standard, p⟩ {} (formInstance 0 #[]) a rets ⟨12, .pushC, [4]⟩
      (formListing.drop 2) (m.jumpTo w) ∧
    (formInstance 0 #[]).SameImage m.host.vm ∧ m.HasStk 116 ∧ m.spilled.regs.stp = 124 ∧
    m.spilled.cells 1 116 = .ok [0] ∧ m.spilled.pushCell 4 = .ok vm ∧
    vm.nativeAt 0 = .ok (formNative lowers) ∧
    8 * (m.nativeWords + 3) ≤ Layout.standard.stackSize := by
  obtain ⟨p, hp⟩ := exists_formProgram
  obtain ⟨vm₁, vm, vm₂, hpush₁, hpush, hvm, hstp, hcells, hpush₂, hnative⟩ := exists_pushed lowers
  have hsize : (formCall lowers).host.vm.block.size ≤ 0x1000000000 := by
    rw [formCall, size_formInstance]
    decide
  obtain ⟨d, m, hexecutes, hloaded, hm, -, hdeep⟩ :=
    Environment.exists_executes_on (c := formCall lowers) (fun _ => {}) []
    ⟨0, .sysreqN, [0, 4]⟩ (formListing.drop 1) load_formImage hp decodes_formListing hsize rfl
    (show 6 ≤ 1000 by decide) rfl hpush₁ hpush
  have hspilled := Environment.spilled_of_loaded hloaded hm
  have hstk := hloaded.hasStk
  obtain ⟨a, rets, hat⟩ := (hexecutes 0).atInstruction
  obtain ⟨w, hat'⟩ := hat.elsewhere (formListing.take 1) ⟨12, .pushC, [4]⟩ (formListing.drop 2)
    decodes_formListing
  rw [← hspilled] at hvm hstp hcells hpush₂
  have hfixed := (Instance.operated_pushCell hpush₁).toFixed.trans
    (Instance.operated_pushCell hpush).toFixed
  rw [← hspilled] at hfixed
  rw [← hspilled, hvm] at hstk
  refine ⟨p, a, rets, m, w, vm₂, hat, hat', ⟨hfixed.header, ?_⟩, hstk, hstp, hcells, hpush₂,
    hnative, hdeep⟩
  exact hfixed.size.trans ((size_formInstance _ _).trans (size_formInstance _ _).symm)

/-- The native answers five, and the bottom of the stack is where it put it. -/
theorem exists_replies {env : Environment} {x : Machine} {c : CallContext} {vm : Instance}
    {params : List Cell} (lowers : Bool) (hindex : x.reg32 .rsi = 0)
    (henter : CallContext.enter x.host.vm (Environment.argBlock x.regs) = .ok (c, vm))
    (hnative : vm.nativeAt 0 = .ok (formNative lowers)) (hparams : c.params vm = .ok params) :
    ∃ vm₁, env.Replies x (.ok 5) vm₁ ∧ vm₁.regs.stk = c.finalStk ∧
      vm₁.regs.stp = if lowers then 0 else vm.regs.stp := by
  rw [← hindex] at hnative
  cases lowers with
  | false =>
    exact ⟨_,
      ⟨0, _, dispatch_eq_ok_iff.mpr ⟨.value 5, .ran henter hnative hparams .done, rfl⟩, rfl⟩, rfl,
      rfl⟩
  | true =>
    exact ⟨_, ⟨0, _, dispatch_eq_ok_iff.mpr ⟨.value 5, .ran henter hnative hparams (.act rfl .done),
      rfl⟩, rfl⟩, rfl, rfl⟩

/-! ## Section 6: The forms agree -/

/-- **Main result.** From the same machine, one run calls a native by an instruction with the
    count of bytes, and another one by a push of the count, a call and a move of the stack. The
    native is not replaced by code, the count fits between heap and stack, and the arguments do
    not reach past the bottom of the stack. Both runs come to the helper and set up the same
    argument block: the parameters are the count and the cells above it. The native comes to an
    end in one of them just when it does in the other, with the same result, and leaves the same
    instance but for the top of the stack. A fault ends both activations. A value goes to the
    primary register, and the next instruction finds the same instance but for the alternate
    register, unless the native has moved the bottom of the stack so that the arguments do reach
    past it: then the second form ends with a fault of its own.

    The platform has to repeat itself: what a helper leaves above its result depends on the instance
    alone. The native may call compiled code, and there an access through the primary register
    depends on what a helper left in its upper half, which could otherwise tell the two runs
    apart. -/
theorem native_call_forms_agree {env : Environment} {config : Config} {vm₀ vm : Instance}
    {a : Activation}
    {rets : List Word} {p q₁ q₂ q₃ index bytes s : Cell} {after after' : List Instruction}
    {m : Machine} {w : Word}
    (h : env.AtInstruction config vm₀ a rets ⟨p, .sysreqN, [index, bytes]⟩ after m)
    (h' : env.AtInstruction config vm₀ a rets ⟨q₁, .pushC, [bytes]⟩
      (⟨q₂, .sysreqC, [index]⟩ :: ⟨q₃, .stack, [bytes + 4]⟩ :: after') (m.jumpTo w))
    (hgeneric : inlined? (.ofInstance config vm₀) (.const index) .pushed = none)
    (hrepeats : env.platform.Repeats) (himage : vm₀.SameImage m.host.vm) (hstk : m.HasStk s)
    (hpush : m.spilled.pushCell bytes = .ok vm)
    (hbottom : s.toInt + bytes.toInt ≤ m.spilled.regs.stp.toInt)
    (hdeep : 8 * (m.nativeWords + 3) ≤ env.layout.stackSize) :
    ∃ (x x' : Machine) (c c' : CallContext),
      env.Asks m x index (.push bytes) m.spilled ∧ env.Asks (m.jumpTo w) x' index .onStack vm ∧
      CallContext.enter m.spilled (.push bytes) = .ok (c, vm) ∧
      CallContext.enter vm .onStack = .ok (c', vm) ∧
      c'.address = c.address ∧ c'.params vm = c.params vm ∧
      c.params vm = (m.spilled.cells (bytes.toNat / Cell.width) s).map (bytes :: ·) ∧
      (∀ r vm₁, env.Replies x' r vm₁ → env.Replies x r (vm₁.put .stk (s + bytes))) ∧
      ∀ r vm₁, env.Replies x r vm₁ → vm₁.regs.stk = s + bytes ∧
        env.Replies x' r (vm₁.put .stk (s - 4)) ∧
        env.ComesOut a rets after m (r.map fun v => vm₁.put .pri v) ∧
        env.ComesOut a rets after' (m.jumpTo w) (r >>= fun v =>
          if vm₁.regs.stk.toInt ≤ vm₁.regs.stp.toInt then .ok ((vm₁.put .pri v).put .alt (s - 4))
          else .error .stackLow) := by
  obtain ⟨image, hload⟩ := h.loaded
  have hsized : m.host.vm.Sized := himage.sized hload
  have hspilled : m.spilled.Sized := ⟨hsized.total, hsized.bounded⟩
  obtain ⟨is, ls, -, -, hr, hls, -⟩ := h.exists_lines
  have hcount := nonneg_of_template hls
  have hpositive : 0 < (bytes + 4).toInt := by
    have hlow := Instance.four_le_of_pushCell hspilled hpush
    rw [hstk.spilled] at hlow
    have hhigh := BitVec.two_mul_toInt_lt (x := m.spilled.regs.stp)
    have hfour : (4 : Cell).toInt = 4 := by decide
    rw [(Cell.toInt_add_cases hcount 4).1 (by omega)]
    omega
  -- Both forms come to the helper, and set up the same argument block.
  obtain ⟨x, hasks, ⟨rbp, j, o, hdoor⟩, hout⟩ :=
    h.asks (.const index) (.const bytes) rfl (inlined?_counted hgeneric) hdeep
  obtain ⟨x', hasks', ⟨rbp', j', o', hdoor'⟩, hout'⟩ :=
    h'.asks_pushed hgeneric hsized hstk hpush hdeep
  obtain ⟨henter, henter'⟩ := CallContext.enter_pushCell hpush
  rw [hstk.spilled] at henter henter'
  have hindex : x'.reg32 .rsi = x.reg32 .rsi := hasks'.native.trans hasks.native.symm
  have hentered := hasks.enter henter
  have hentered' := hasks'.enter henter'
  have hforward : ∀ {r vm₁}, env.Replies x r vm₁ → env.Replies x' r (vm₁.put .stk (s - 4)) :=
    hr.replies hrepeats hdoor hdoor' hindex hentered hentered' rfl
  have hback : ∀ {r vm₁}, env.Replies x' r vm₁ → env.Replies x r (vm₁.put .stk (s + bytes)) :=
    hr.replies hrepeats hdoor' hdoor hindex.symm hentered' hentered rfl
  refine ⟨x, x', ⟨.push bytes, s, s - 4⟩, ⟨.onStack, s - 4, s - 4⟩, hasks, hasks', henter,
    henter', rfl, rfl, ?_, fun r vm₁ => hback, ?_⟩
  · rw [← hstk.spilled]
    exact Instance.params_of_pushCell hspilled hpush hcount
      (by rw [Instance.regs_pushCell hpush])
  · intro r vm₁ hreplies
    have hstk₁ : vm₁.regs.stk = s + bytes := hreplies.stk hentered
    refine ⟨hstk₁, hforward hreplies, hout r vm₁ hreplies, ?_⟩
    have hreleased := hout' r _ (hforward hreplies)
    cases r with
    | error f => exact hreleased
    | ok v =>
      show env.ComesOut a rets after' (m.jumpTo w) (if _ then _ else _)
      rw [← Instance.moveStack_dropped hstk₁ hpositive]
      exact hreleased

/-- Both forms call a native that answers five. -/
theorem five_by_both_forms :
    ∃ (p : Program) (a : Activation) (rets : List Word) (m : Machine) (w : Word)
    (vm vm₁ : Instance),
    Environment.AtInstruction ⟨.standard, p⟩ {} (formInstance 0 #[]) a rets ⟨0, .sysreqN, [0, 4]⟩
      (formListing.drop 1) m ∧
    Environment.AtInstruction ⟨.standard, p⟩ {} (formInstance 0 #[]) a rets ⟨12, .pushC, [4]⟩
      (formListing.drop 2) (m.jumpTo w) ∧
    m.HasStk 116 ∧ m.spilled.regs.stp = 124 ∧ m.spilled.pushCell 4 = .ok vm ∧
    Environment.ComesOut ⟨.standard, p⟩ a rets (formListing.drop 1) m (.ok vm₁) ∧
    Environment.ComesOut ⟨.standard, p⟩ a rets (formListing.drop 4) (m.jumpTo w)
      (.ok (vm₁.put .alt 112)) ∧
    vm₁.regs.pri = 5 ∧ vm₁.regs.stk = 120 := by
  obtain ⟨p, a, rets, m, w, vm, hat, hat', himage, hstk, hstp, hcells, hpush, hnative, hdeep⟩ :=
    exists_forms false
  have hrepeats : Platform.standard.Repeats := fun _ _ _ => rfl
  have hbottom : (116 : Cell).toInt + (4 : Cell).toInt ≤ m.spilled.regs.stp.toInt := by
    rw [hstp]
    decide
  obtain ⟨x, x', c, c', hasks, -, henter, -, -, -, hparams, -, hforms⟩ :=
    native_call_forms_agree hat hat' inlined?_form hrepeats himage hstk hpush hbottom hdeep
  replace hparams : c.params vm = .ok [4, 0] := by
    rw [hparams]
    show (m.spilled.cells 1 116).map _ = _
    rw [hcells]
    rfl
  obtain ⟨vm₁, hreplies, -, hstp₁⟩ :=
    exists_replies false hasks.native (hasks.enter henter) hnative hparams
  obtain ⟨hstk₁, -, hout, hout'⟩ := hforms _ _ hreplies
  have hlow : vm₁.regs.stk.toInt ≤ vm₁.regs.stp.toInt := by
    rw [hstk₁, hstp₁, if_neg Bool.false_ne_true, Instance.regs_pushCell hpush, hstp]
    decide
  rw [ok_bind, if_pos hlow] at hout'
  exact ⟨p, a, rets, m, w, vm, _, hat, hat', hstk, hstp, hpush, hout, hout', rfl, hstk₁⟩

/-- When the native lowers the bottom of the stack, the forms do not agree. -/
theorem lowered_bottom_separates_forms :
    ∃ (p : Program) (a : Activation) (rets : List Word) (m : Machine) (w : Word)
    (vm vm₁ : Instance),
    Environment.AtInstruction ⟨.standard, p⟩ {} (formInstance 0 #[]) a rets ⟨0, .sysreqN, [0, 4]⟩
      (formListing.drop 1) m ∧
    Environment.AtInstruction ⟨.standard, p⟩ {} (formInstance 0 #[]) a rets ⟨12, .pushC, [4]⟩
      (formListing.drop 2) (m.jumpTo w) ∧
    inlined? (.ofInstance {} (formInstance 0 #[])) (.const 0) .pushed = none ∧
    (formInstance 0 #[]).SameImage m.host.vm ∧ m.HasStk 116 ∧ m.spilled.pushCell 4 = .ok vm ∧
    (116 : Cell).toInt + (4 : Cell).toInt ≤ m.spilled.regs.stp.toInt ∧
    Environment.ComesOut ⟨.standard, p⟩ a rets (formListing.drop 1) m (.ok vm₁) ∧
    Environment.ComesOut ⟨.standard, p⟩ a rets (formListing.drop 4) (m.jumpTo w)
      (.error .stackLow) := by
  obtain ⟨p, a, rets, m, w, vm, hat, hat', himage, hstk, hstp, hcells, hpush, hnative, hdeep⟩ :=
    exists_forms true
  have hsized : m.host.vm.Sized := himage.sized load_formImage
  have hspilled : m.spilled.Sized := ⟨hsized.total, hsized.bounded⟩
  obtain ⟨x, hasks, -, hout⟩ := hat.asks (.const 0) (.const 4) rfl
    (inlined?_counted inlined?_form) hdeep
  obtain ⟨x', hasks', -, hout'⟩ := hat'.asks_pushed inlined?_form hsized hstk hpush hdeep
  obtain ⟨henter, henter'⟩ := CallContext.enter_pushCell hpush
  rw [hstk.spilled] at henter henter'
  have hparams : ∀ {c : CallContext}, c.address = 116 - 4 → c.params vm = .ok [4, 0] := by
    intro c hc
    rw [Instance.params_of_pushCell hspilled hpush (by decide)
      (by rw [hc, Instance.regs_pushCell hpush, hstk.spilled]), hstk.spilled]
    show (m.spilled.cells 1 116).map _ = _
    rw [hcells]
    rfl
  obtain ⟨vm₁, hreplies, -⟩ :=
    exists_replies true hasks.native (hasks.enter henter) hnative (hparams rfl)
  obtain ⟨vm₂, hreplies', hstk₂, hstp₂⟩ := exists_replies true hasks'.native (hasks'.enter henter')
    hnative (hparams rfl)
  refine ⟨p, a, rets, m, w, vm, _, hat, hat', inlined?_form, himage, hstk, hpush, ?_,
    hout _ _ hreplies, ?_⟩
  · rw [hstp]
    decide
  · have hlow : ¬((vm₂.put .pri 5).regs.stk + 8).toInt ≤ (vm₂.put .pri 5).regs.stp.toInt := by
      show ¬(vm₂.regs.stk + 8).toInt ≤ vm₂.regs.stp.toInt
      rw [hstk₂, hstp₂, if_pos rfl]
      decide
    have hlast := hout' _ _ hreplies'
    rw [ok_bind, Instance.moveStack_of_pos (by decide)] at hlast
    rwa [if_neg hlow] at hlast

end PawnNative
