import Mathlib.Tactic.Common
import PawnNative.Proofs.Invocations

/-! # What a run does on its way

    A run calls natives, natives call compiled functions again, and a run may come to
    the code that halts because a range check has failed. `Environment.trace` lists
    these events in their order, those of the calls that natives make among them.

    There are two ways to the code for failed range checks. A branch leads there when
    a check fails; and as this code is one of the stubs behind the last instruction, a
    run that goes past the last instruction may enter it too.
-/

namespace PawnNative

open X64 Convention

/-! ## Section 1: Events -/

theorem eq_ok_of_toOption {ε α : Type} {x : Except ε α} {a : α} (h : x.toOption = some a) :
    x = .ok a := by
  cases x with
  | error e => cases h
  | ok b => exact congrArg Except.ok (Option.some_inj.mp h)

/-- Something that a run does. -/
inductive Event where
  /-- A native is called with these parameters. -/
  | native (index : Cell) (params : List Cell)
  /-- A branch to the code for failed range checks is taken. -/
  | refused
  /-- The code for failed range checks is entered without a branch to it. -/
  | overrun
  deriving DecidableEq, Repr

/-- Whether an event is the call of a native. -/
def Event.isCall : Event → Bool
  | .native .. => true
  | .refused | .overrun => false

/-- Whether an instruction branches with these flags. -/
def X64.Instr.branches (f : Flags) : Instr → Bool
  | .jmp _ => true
  | .jcc c _ => c.holds f == some true
  | _ => false

/-- The code address that an action of a native calls. -/
def Action.target? (vm : Instance) : Action → Option Cell
  | .call address => some address
  | .callPublic index => vm.publicAddress? index
  | .callMain => if vm.header.cip.toInt < 0 then none else some vm.header.cip
  | _ => none

/-- The events of an action of a native, where `calls` gives those of a call. -/
def Action.events (calls : Cell → Host → List Event) (a : Action) (h : Host) : List Event :=
  match a.target? h.vm with
  | some address => calls address h
  | none => []

/-- The events of the calls that a native makes. -/
def NativeProgram.events {α : Type} (k : Callbacks) (calls : Cell → Host → List Event) :
    NativeProgram α → Host → List Event
  | .done _, _ | .fail _, _ | .abort, _ => []
  | .act a next, h =>
    a.events calls h ++
    (match k.perform a h with
      | .ok (answer, h) => events k calls (next answer) h
      | .error _ => [])

/-- The events of the call of a native: the call itself, when there is such a native and its
    parameters can be read, and the calls that it makes. -/
def dispatchEvents (k : Callbacks) (calls : Cell → Host → List Event) (index : Cell)
    (block : ArgBlock) (h : Host) : List Event :=
  match CallContext.enter h.vm block with
  | .error _ => []
  | .ok (c, vm) =>
    match vm.nativeAt index with
    | .error _ => []
    | .ok native =>
      match c.params vm with
      | .error _ => []
      | .ok params => .native index params :: (native ⟨params, c.address⟩).events k
        calls (h.setVm vm)

namespace Environment

/-- Whether the next instruction of a machine branches. -/
def branches (env : Environment) (m : Machine) : Bool :=
  match Machine.fetch m.layout env.program.readings m.rip with
  | .ok (i, _) => i.branches m.flags
  | .error _ => false

/-- The event of a step to the code for failed range checks, which is at this offset, if there is
    any. -/
def arrivals (env : Environment) (stub : Option Nat) (m m' : Machine) : List Event :=
  match stub with
  | none => []
  | some o =>
    if m'.rip = env.layout.code + BitVec.ofNat 64 o then
      [if env.branches m then .refused else .overrun]
    else []

/-- The machine that a call with the arguments that wait enters compiled code with, when it gets so
    far. -/
def entering? (env : Environment) (regs : RegFile) (address : Cell) (h : Host) : Option Machine :=
  match env.codeAddress? address with
  | none => none
  | some target =>
    match Instance.pushCell { h.vm with pending := 0 }
      (BitVec.ofNat 32 (h.vm.pending * Cell.width)) with
    | .error _ => none
    | .ok vm₁ =>
      match vm₁.pushCell 0 with
      | .error _ => none
      | .ok vm => (env.entry regs (h.setVm vm) target).toOption

/-- The events of a call, where `run` gives those of a run. -/
def callEvents (env : Environment) (run : Machine → List Event) (regs : RegFile) (address : Cell)
    (h : Host) : List Event :=
  match env.entering? regs address h with
  | none => []
  | some m => run m

def helpEvents (k : Callbacks) (calls : Cell → Host → List Event) (m : Machine) :
    Helper → List Event
  | .callNative => dispatchEvents k calls (m.reg32 .rsi) (argBlock m.regs) m.host
  | .findCode | .floatLog => []

/-- The events of a run, with the code for failed range checks at this offset. -/
def trace (env : Environment) (stub : Option Nat) : Nat → Machine → List Event
  | 0, _ => []
  | n + 1, m =>
    if m.rip = env.layout.hostReturn then []
    else match Helper.ofAddress? m.rip with
      | some helper =>
        let k := env.callbacks (env.run n) m.regs
        helpEvents k (env.callEvents (trace env stub n) m.regs) m helper ++
        (match env.help k helper m with
          | .ok m' => trace env stub n m'
          | .error _ => [])
      | none =>
        match m.step env.program.readings with
        | .ok m' => env.arrivals stub m m' ++ trace env stub n m'
        | .error _ => []

/-- The events of an action of the host, where a run may take so many steps. -/
def hostEvents (env : Environment) (stub : Option Nat) (n : Nat) (regs : RegFile)
    (a : Action) (h : Host) : List Event :=
  a.events (env.callEvents (env.trace stub n) regs) h

/-- What a call comes to, and the events on its way. -/
def report (env : Environment) (stub : Option Nat) (n : Nat) (c : Invocation) :
    Option (Except Fault Cell × List Event) :=
  (env.answer n c).toOption.map fun x =>
    (x.1, env.hostEvents stub n c.regs (.call c.address) c.host)

theorem exists_of_report {env : Environment} {stub : Option Nat} {n : Nat} {c : Invocation}
    {r : Except Fault Cell} {events : List Event} (h : env.report stub n c = some (r, events)) :
    (∃ x, env.answer n c = .ok (r, x)) ∧
    env.hostEvents stub n c.regs (.call c.address) c.host = events := by
  obtain ⟨⟨r', x⟩, hanswer, heq⟩ := Option.map_eq_some_iff.mp h
  obtain ⟨rfl, hevents⟩ := Prod.mk.inj heq
  exact ⟨⟨x, eq_ok_of_toOption hanswer⟩, hevents⟩

/-! ## Section 2: Runs without a failed check -/

variable {env : Environment} {stub : Option Nat} {P : Machine → Prop} {m m' r : Machine} {n k : Nat}

/-- A machine is not at the code for failed range checks. -/
def Avoids (env : Environment) (stub : Option Nat) (m : Machine) : Prop :=
  ∀ o ∈ stub, m.rip ≠ env.layout.code + BitVec.ofNat 64 o

theorem avoids_of_arrivals (h : ∀ e ∈ env.arrivals stub m m', e.isCall) : env.Avoids stub m' := by
  intro o ho hrip
  obtain rfl := Option.mem_def.mp ho
  simp only [arrivals, if_pos hrip] at h
  have hcall := h _ (List.mem_singleton_self _)
  cases hbranch : env.branches m <;> rw [hbranch] at hcall <;> cases hcall

theorem Avoids.arrivals (h : env.Avoids stub m') : env.arrivals stub m m' = [] := by
  unfold Environment.arrivals
  cases stub with
  | none => rfl
  | some o => exact if_neg (h o rfl)

/-- A run comes to its end, and all that it does on its way is to call natives. -/
structure Clean (env : Environment) (stub : Option Nat) (n : Nat) (m r : Machine) : Prop where
  run : env.run n m = .ok r
  calls : ∀ e ∈ env.trace stub n m, e.isCall

theorem run_of_moves (h : env.Moves m m') : env.run (n + 1) m = env.run n m' :=
  run_eq_of_step (h.toStep n)

theorem trace_of_moves (h : env.Moves m m') :
    env.trace stub (n + 1) m = env.arrivals stub m m' ++ env.trace stub n m' := by
  rw [trace, if_neg h.host, h.code]
  dsimp only
  rw [h.step]

/-- **Step.** An instruction of such a run does not lead to the code for failed range checks. -/
theorem Clean.moves (hc : env.Clean stub n m r) (h : env.Moves m m') :
    ∃ n', n = n' + 1 ∧ env.Clean stub n' m' r ∧ env.trace stub n m = env.trace stub n' m' ∧
      env.Avoids stub m' := by
  cases n with
  | zero => cases hc.run
  | succ n =>
    have hrun := hc.run
    have hcalls := hc.calls
    rw [run_of_moves h] at hrun
    rw [trace_of_moves h] at hcalls ⊢
    have havoids : env.Avoids stub m' :=
      avoids_of_arrivals fun e he => hcalls e (List.mem_append_left _ he)
    refine ⟨n, rfl, ⟨hrun, fun e he => hcalls e (List.mem_append_right _ he)⟩, ?_, havoids⟩
    rw [havoids.arrivals, List.nil_append]

/-- **Run.** The same for a number of instructions. -/
theorem Clean.goes (hc : env.Clean stub n m r) (h : env.Goes P k m m') :
    ∃ n', n = n' + k ∧ env.Clean stub n' m' r ∧ env.trace stub n m = env.trace stub n' m' ∧
      env.Avoids stub m' := by
  induction h generalizing n with
  | one h => exact hc.moves h
  | next h _ _ ih =>
    obtain ⟨n₁, rfl, hc₁, htrace₁, -⟩ := hc.moves h
    obtain ⟨n', rfl, hc', htrace', havoids⟩ := ih hc₁
    exact ⟨n', rfl, hc', htrace₁.trans htrace', havoids⟩

/-- Instructions of a program without code for failed range checks are no events. -/
theorem trace_of_goes (h : env.Goes P k m m') : env.trace none (n + k) m = env.trace none n m' := by
  induction h with
  | one h => exact trace_of_moves h
  | next h _ _ ih => exact (trace_of_moves h).trans ih

theorem run_of_goes (h : env.Goes P k m m') : env.run (n + k) m = env.run n m' :=
  run_eq_of_reaches (h.reaches n)

section
variable {helper : Helper} (hhost : m.rip ≠ env.layout.hostReturn) (hrip : m.rip = helper.address)
include hhost hrip

theorem trace_of_help (hhelp : env.help (env.callbacks (env.run n) m.regs) helper m = .ok m') :
    env.trace stub (n + 1) m =
      helpEvents (env.callbacks (env.run n) m.regs) (env.callEvents (env.trace stub n) m.regs) m
        helper ++ env.trace stub n m' := by
  have hhelper := Helper.ofAddress?_of_eq hrip
  rw [trace, if_neg hhost, hhelper]
  dsimp only
  rw [hhelp]

theorem run_of_help (hhelp : env.help (env.callbacks (env.run n) m.regs) helper m = .ok m') :
    env.run (n + 1) m = env.run n m' := by
  have hhelper := Helper.ofAddress?_of_eq hrip
  exact run_eq_of_step (.helper hhost hhelper hhelp)

/-- **Step.** A helper comes back in such a run, and what it does is to call natives. -/
theorem Clean.help (hc : env.Clean stub n m r) : ∃ n' m', n = n' + 1 ∧
    env.help (env.callbacks (env.run n') m.regs) helper m = .ok m' ∧ env.Clean stub n' m' r ∧
    ∀ e ∈ helpEvents (env.callbacks (env.run n') m.regs) (env.callEvents (env.trace stub n') m.regs)
      m helper, e.isCall := by
  cases n with
  | zero => cases hc.run
  | succ n =>
    have hrun := hc.run
    have hcalls := hc.calls
    have hhelper := Helper.ofAddress?_of_eq hrip
    rw [Environment.run, if_neg hhost, hhelper] at hrun
    obtain ⟨m', hhelp, hrun⟩ := bind_eq_ok.mp hrun
    rw [trace_of_help hhost hrip hhelp] at hcalls
    exact ⟨n, m', rfl, hhelp, ⟨hrun, fun e he => hcalls e (List.mem_append_right _ he)⟩,
      fun e he => hcalls e (List.mem_append_left _ he)⟩

end

end Environment

end PawnNative
