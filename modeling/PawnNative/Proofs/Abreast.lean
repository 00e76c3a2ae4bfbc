import Mathlib.Tactic.Common
import PawnNative.Proofs.Erasure
import PawnNative.Proofs.Events

/-! # Machines side by side

    `Twins` are two environments that run the same image on the same platform. The
    second one may have been compiled without range checks. `Twins.Abreast` relates
    their machines: they have the same instance and agree on what is known, and their
    activations are equally deep. What they do not agree on are addresses of code,
    which stand on the native stack alone.

    The first run leads. `Twins.Shadows` says that where it comes to its end without a
    failed check, the run that follows comes to the same end, and that both call the
    same natives on the way. The second run takes no more steps, so it is allowed as
    many as the first one or more. There is one rule for each thing that runs can do,
    and one lemma for each kind of line.
-/

namespace PawnNative

open X64 Convention Template

/-! ## Section 1: Instructions that store to the register file -/

theorem X64.Instr.saves_eq {i : Instr} (hi : i.saves) :
    ∃ o src, i = .store .d o src ∧ o.base = .rdx := by
  cases i with
  | store size o src =>
    cases size with
    | d => exact ⟨o, src, rfl, beq_iff_eq.mp hi⟩
    | q => cases hi
  | _ => cases hi

namespace Machine

variable {m m' : Machine} {i : Instr}

theorem exec_saves (hi : i.saves) (h : m.exec i = .ok m') :
    ∃ r v, m' = m.setHost { m.host with vm := m.host.vm.put r v } := by
  obtain ⟨o, src, rfl, hbase⟩ := Instr.saves_eq hi
  obtain ⟨a, ha, hstore⟩ := bind_eq_ok.mp h
  obtain ⟨x, hx, rfl⟩ := store32_eq_ok.mp hstore
  obtain ⟨-, place, hplace, hregion⟩ := operand_eq_ok.mp ha
  rw [hbase] at hregion
  obtain ⟨layout, regs, xmm, flags, down, rip,
      ⟨⟨header, block, file, pending, natives⟩, stack, log⟩⟩ := m
  cases place with
  | block d => cases hregion
  | stack d => cases hregion
  | file d =>
    simp only [Host.place?] at hplace
    simp only [Host.store32, hplace] at hx
    split_ifs at hx
    obtain ⟨r, -, rfl⟩ := Option.map_eq_some_iff.mp hx
    exact ⟨r, _, rfl⟩

/-- **Step.** An instruction that changes the instance or its own registers
    stays inside the activation. -/
theorem Home.exec {env : Environment} {a : Activation} {rets : List Word}
    (h : m.Home env Instance.Fixed a rets)
    (hi : (i.isLocal || i.saves) = true) (hexec : m.exec i = .ok m') :
    m'.Home env Instance.Fixed a rets ∧ m'.rip = m.rip := by
  rcases Bool.or_eq_true_iff.mp hi with hi | hi
  · have hlocal := exec_local hi hexec
    exact ⟨h.ofLocal Instance.steady_fixed hlocal fun r hr => Instr.not_owned_of_isLocal hi hr,
      hlocal.rip⟩
  · obtain ⟨r, v, rfl⟩ := exec_saves hi hexec
    refine ⟨⟨h.toInside.change Instance.steady_fixed rfl rfl rfl ⟨rfl, rfl, rfl⟩ fun _ _ _ => rfl,
      h.rsp, h.fault⟩, rfl⟩

theorem Alike.jumpTo {kn : Known} (h : m.Alike kn m') (x x' : Word) :
    (m.jumpTo x).Alike kn (m'.jumpTo x') :=
  ⟨h.layout, h.regs, h.vectors, h.flags, h.vm, h.up, h.up'⟩

end Machine

/-! ## Section 2: Runs that shadow others -/

/-- Two machines are back at the host and tell it the same: the instance, the status and, when all
    went well, the result in the record of the call. -/
structure Machine.TellAlike (record : Word) (r r' : Machine) : Prop where
  vm : r'.host.vm = r.host.vm
  status : r'.reg32 .rax = r.reg32 .rax
  result : r.reg32 .rax = 0 → r'.recordCell record .retval = r.recordCell record .retval

namespace Machine.Alike

variable {x x' r r' : Machine} {record : Word} (h : x.Alike .held x')
include h

theorem leftHost : x'.leftHost.vm = x.leftHost.vm := by
  simp only [Machine.leftHost]
  rw [h.vm, h.reg32 (r := stk) (by decide), h.reg32 (r := data) (by decide),
    h.reg32 (r := frm) (by decide)]

theorem spilled : x'.spilled = x.spilled := by
  simp only [Machine.spilled]
  rw [h.vm, h.reg32 (r := pri) (by decide), h.reg32 (r := alt) (by decide),
    h.reg32 (r := stk) (by decide), h.reg32 (r := data) (by decide), h.reg32 (r := frm) (by decide)]

theorem tell (hvm : r.host.vm = x.leftHost.vm) (hvm' : r'.host.vm = x'.leftHost.vm)
    (hstatus : r'.reg32 .rax = r.reg32 .rax)
    (hresult : r.reg32 .rax = 0 → r.recordCell record .retval = .ok (x.reg32 pri))
    (hresult' : r'.reg32 .rax = 0 → r'.recordCell record .retval = .ok (x'.reg32 pri)) :
      r.TellAlike record r' := by
  refine ⟨by rw [hvm, hvm', h.leftHost], hstatus, fun hzero => ?_⟩
  rw [hresult hzero, hresult' (hstatus.trans hzero), h.reg32 (by decide)]

/-- Machines that take the same way out tell the host the same. -/
theorem exits {env env' : Environment} {ctx ctx' : Context} {is is' : List Instruction} {way : Way}
    (hexit : env.Exit ctx is record way x r) (hexit' : env'.Exit ctx' is' record way x' r')
    (hway : way ≠ .pending) : r.TellAlike record r' := by
  have hstatus : way.status x' record = way.status x record := by
    cases way with
    | pending => exact absurd rfl hway
    | back | halt code | fault f => rfl
  have hzero : r.reg32 .rax = 0 → way.hasResult := by
    intro hzero
    have hcode := hexit.status
    rw [hzero] at hcode
    cases way with
    | pending => exact absurd rfl hway
    | back | halt code => rfl
    | fault f => exact absurd (Except.ok.inj hcode) f.code_ne_zero
  have hrax : r'.reg32 .rax = r.reg32 .rax :=
    Except.ok.inj (hexit'.status.symm.trans (hstatus.trans hexit.status))
  exact h.tell hexit.vm hexit'.vm hrax (fun hr => hexit.result (hzero hr))
    fun hr => hexit'.result (hzero (hrax.symm.trans hr))

end Machine.Alike

theorem Known.forall_held {P : Reg → Prop} : (∀ r ∈ Known.held.regs, P r) ↔
    P pri ∧ P alt ∧ P tmp0 ∧ P data ∧ P call ∧ P stk ∧ P frm := by
  simp only [Known.held, List.forall_mem_cons, List.not_mem_nil, IsEmpty.forall_iff,
    implies_true, and_true]

/-- The same image on the same platform, compiled twice; the second time perhaps without range
    checks. What helpers leave above a result depends on nothing but the instance. -/
structure Twins where
  leader : Environment
  follower : Environment
  /-- Whether the follower has no range checks. -/
  erasing : Bool
  ctx : Context
  is : List Instruction
  size : Nat
  platform : follower.platform = leader.platform
  ready : leader.Ready ctx is size
  ready' : follower.Ready (ctx.erased erasing) is size
  stale : ∀ {x x' : Machine}, x'.host.vm = x.host.vm → leader.stale x' = leader.stale x

theorem Environment.Goes.pos {env : Environment} {P : Machine → Prop} {k : Nat} {m m' : Machine}
    (h : env.Goes P k m m') : 0 < k := by
  cases h <;> exact Nat.succ_pos _

theorem Environment.Goes.down_atOffset {env : Environment} {P : Machine → Prop} {k o : Nat}
    {m m' : Machine} (h : env.Goes P k m (m'.atOffset o)) (hm : m.down = false) : m'.down = false :=
  show (m'.atOffset o).down = false from (h.reaches 0).down hm

/-- A run that leads nowhere does not come to an end. -/
theorem Environment.Leads.run_ne {env : Environment} {P : Machine → Prop} {c : Nat × Machine}
    (h : env.Leads P (fun _ => False) c) (hP : ∀ m, P m → m.rip ≠ env.layout.hostReturn)
    (hc : c.2.rip ≠ env.layout.hostReturn) (r : Machine) : env.run c.1 c.2 ≠ .ok r := by
  induction h with
  | stuck hstuck =>
    intro hrun
    obtain ⟨hhost, k, hreaches⟩ := reaches_of_run hrun
    obtain ⟨-, rfl⟩ := Prod.mk.inj (hreaches.eq_of_stuck hstuck)
    exact hc hhost
  | arrive _ hfalse => exact hfalse.elim
  | pass hstep hm _ ih =>
    rw [run_eq_of_step hstep]
    exact ih (hP _ hm)

namespace Twins

variable (t : Twins)

/-- Where the code for failed range checks is, if there is any that the follower does not have. -/
def stub : Option Nat :=
  if t.erasing then (Plan.ofProgram t.ctx t.is).placed (.stub (.fault .memoryAccess)) else none

/-- When the run of the one machine comes to its end, and all that it does is to call natives, then
    the run of the other machine calls the same natives and comes to the same end. -/
def Shadows (record : Word) (n : Nat) (m m' : Machine) : Prop :=
  ∀ r, t.leader.Clean t.stub n m r → ∀ n', n ≤ n' → ∃ r', t.follower.run n' m' = .ok r' ∧
    t.follower.trace none n' m' = t.leader.trace t.stub n m ∧ r.TellAlike record r'

/-- What a helper comes to for the one machine it comes to for the other as well,
    and so do the runs after it. -/
def HelpsAlike (record : Word) (n n' : Nat) (helper : Helper) (m m' : Machine) : Prop :=
  ∀ m₁, t.leader.help (t.leader.callbacks (t.leader.run n) m.regs) helper m = .ok m₁ →
    (∀ e ∈ Environment.helpEvents (t.leader.callbacks (t.leader.run n) m.regs)
      (t.leader.callEvents (t.leader.trace t.stub n) m.regs) m helper, e.isCall) →
    ∃ m₁', t.follower.help (t.follower.callbacks (t.follower.run n') m'.regs) helper m' = .ok m₁' ∧
      Environment.helpEvents (t.follower.callbacks (t.follower.run n') m'.regs)
        (t.follower.callEvents (t.follower.trace none n') m'.regs) m' helper =
      Environment.helpEvents (t.leader.callbacks (t.leader.run n) m.regs)
        (t.leader.callEvents (t.leader.trace t.stub n) m.regs) m helper ∧
      t.Shadows record n m₁ m₁'

variable {t} {record : Word} {n k k' : Nat} {m m' m₁ m₁' : Machine} {P P' : Machine → Prop}

theorem layout_eq : t.follower.layout = t.leader.layout := congrArg Platform.layout t.platform

namespace Shadows

/-- **Step.** Both machines go on. -/
theorem goes (hgoes : t.leader.Goes P k m m₁) (hgoes' : t.follower.Goes P' k' m' m₁') (hk : k' ≤ k)
    (hrest : ∀ n₁, n = n₁ + k → t.leader.Avoids t.stub m₁ → t.Shadows record n₁ m₁ m₁') :
    t.Shadows record n m m' := by
  intro r hclean n' hn'
  obtain ⟨n₁, rfl, hclean₁, htrace, havoids⟩ := hclean.goes hgoes
  obtain ⟨n₁', rfl⟩ : ∃ n₁', n' = n₁' + k' := ⟨n' - k', by omega⟩
  rw [Environment.run_of_goes hgoes', Environment.trace_of_goes hgoes', htrace]
  exact hrest n₁ rfl havoids r hclean₁ n₁' (by omega)

/-- **Step.** Only the machine with range checks goes on. -/
theorem left (hgoes : t.leader.Goes P k m m₁)
    (hrest : ∀ n₁, n = n₁ + k → t.leader.Avoids t.stub m₁ → t.Shadows record n₁ m₁ m') :
    t.Shadows record n m m' := by
  intro r hclean n' hn'
  obtain ⟨n₁, rfl, hclean₁, htrace, havoids⟩ := hclean.goes hgoes
  rw [htrace]
  exact hrest n₁ rfl havoids r hclean₁ n' (by omega)

theorem of_leads {ctx : Context} {is : List Instruction} {o : Nat}
    (ho : o ≤ t.leader.program.code.size) (hlayout : m.layout = t.leader.layout)
    (h : t.leader.Leads (t.leader.Between ctx is) (fun _ => False) (n, m.atOffset o)) :
    t.Shadows record n (m.atOffset o) m' := by
  intro r hclean
  have hhost : (m.atOffset o).rip ≠ t.leader.layout.hostReturn := by
    show m.layout.code + _ ≠ _
    rw [hlayout]
    exact t.ready.code_ne_host ho
  exact absurd hclean.run (h.run_ne (fun m hm => hm.host) hhost r)

theorem finish {r r' : Machine} (hgoes : t.leader.Goes P k m r)
    (hgoes' : t.follower.Goes P' k' m' r') (hk : k' ≤ k)
    (hr : r.rip = t.leader.layout.hostReturn) (hr' : r'.rip = t.follower.layout.hostReturn)
    (htell : r.TellAlike record r') : t.Shadows record n m m' := by
  refine .goes hgoes hgoes' hk fun n₁ _ _ x hclean n₁' hn₁' => ?_
  cases n₁ with
  | zero => cases hclean.run
  | succ n₁ =>
    obtain ⟨n₂, rfl⟩ : ∃ n₂, n₁' = n₂ + 1 := ⟨n₁' - 1, by omega⟩
    obtain rfl := Except.ok.inj ((Environment.run_of_host hr).symm.trans hclean.run)
    refine ⟨r', Environment.run_of_host hr', ?_, htell⟩
    rw [Environment.trace, Environment.trace, if_pos hr, if_pos hr']

/-- **Step.** Both machines call a helper. -/
theorem help {helper : Helper} (hhost : m.rip ≠ t.leader.layout.hostReturn)
    (hrip : m.rip = helper.address)
    (hhost' : m'.rip ≠ t.follower.layout.hostReturn) (hrip' : m'.rip = helper.address)
    (hrest : ∀ n₁ n₁', n = n₁ + 1 → n₁ ≤ n₁' → t.HelpsAlike record n₁ n₁' helper m m') :
    t.Shadows record n m m' := by
  intro r hclean n' hn'
  obtain ⟨n₁, m₁, rfl, hhelp, hclean₁, hcalls⟩ := hclean.help hhost hrip
  obtain ⟨n₁', rfl⟩ : ∃ n₁', n' = n₁' + 1 := ⟨n' - 1, by omega⟩
  obtain ⟨m₁', hhelp', hevents, hshadows⟩ := hrest n₁ n₁' rfl (by omega) m₁ hhelp hcalls
  obtain ⟨r', hrun', htrace', htell⟩ := hshadows r hclean₁ n₁' (by omega)
  rw [Environment.run_of_help hhost' hrip' hhelp', Environment.trace_of_help hhost' hrip' hhelp',
    Environment.trace_of_help hhost hrip hhelp, hevents, htrace']
  exact ⟨r', hrun', rfl, htell⟩

end Shadows

/-! ## Section 3: Machines side by side -/

/-- Two return addresses, from where on the programs go side by side. -/
def Returns (t : Twins) (w w' : Word) : Prop :=
  ∃ o o', w = t.leader.layout.code + BitVec.ofNat 64 o ∧
    w' = t.leader.layout.code + BitVec.ofNat 64 o' ∧ Beside t.erasing t.ctx t.is .held o o'

/-- Two machines in activations that are equally deep, with the same instance,
    that agree on what is known. -/
structure Abreast (t : Twins) (a a' : Activation) (rets rets' : List Word) (kn : Known)
    (m m' : Machine) : Prop where
  size : a.host.vm.block.size = t.size
  base : a'.base = a.base
  home : m.Home t.leader Instance.Fixed a rets
  home' : m'.Home t.follower Instance.Fixed a' rets'
  returns : List.Forall₂ t.Returns rets rets'
  alike : m.Alike kn m'
  held : ∀ r ∈ Known.held.regs, r ∈ kn.regs

/-- Runs with at most `n` steps go side by side wherever the programs do. -/
def Tracks (t : Twins) (n : Nat) : Prop :=
  ∀ {a a' : Activation} {rets rets' : List Word} {kn : Known} {m m' : Machine} {o o' : Nat},
    t.Abreast a a' rets rets' kn m m' → Beside t.erasing t.ctx t.is kn o o' →
    t.leader.Avoids t.stub (m.atOffset o) →
    t.Shadows (t.leader.layout.slot (a.base + 4)) n (m.atOffset o) (m'.atOffset o')

/-- The runs of two machines in activations of the same depth, from these positions on. -/
abbrev ShadowsFrom (t : Twins) (a : Activation) (n : Nat) (m m' : Machine) (o o' : Nat) : Prop :=
  t.Shadows (t.leader.layout.slot (a.base + 4)) n (m.atOffset o) (m'.atOffset o')

/-- The lines of the first program from a position on. -/
abbrev Leader (t : Twins) : Nat → List (Nat × Line) → Prop := NumberedFrom t.ctx t.is

/-- The lines of the second program from a position on. -/
abbrev Follower (t : Twins) : Nat → List (Nat × Line) → Prop :=
  NumberedFrom (t.ctx.erased t.erasing) t.is

variable {a a' : Activation} {rets rets' rets₁ rets₁' : List Word} {kn kn₁ : Known}
  {o o' o₁ o₁' : Nat}

section
variable {z z' : Machine} (hsize : a.host.vm.block.size = t.size) (hbase : a'.base = a.base)
  (hhome : z.Home t.leader Instance.Fixed a rets)
  (hhome' : z'.Home t.follower Instance.Fixed a' rets')
  (hreturns : List.Forall₂ t.Returns rets rets') (hvm : z'.host.vm = z.host.vm)
  (hup : z.down = false) (hup' : z'.down = false)
include hsize hbase hhome hhome' hreturns hvm hup hup'

/-- Two machines that are home in activations of the same depth, with the same instance, are side by
    side when they agree on the registers that do not belong to the activations. -/
theorem abreast_of_home (hregs : ∀ r ∈ [pri, alt, tmp0, stk, frm], z'.reg r = z.reg r) :
    t.Abreast a a' rets rets' .held z z' := by
  have hdata : z'.reg data = z.reg data := by
    rw [hhome.data, hhome'.data, Activation.data, Activation.data, layout_eq, ← hhome.steady.header,
      ← hhome'.steady.header, hvm]
  have hrecord : z'.reg call = z.reg call := by rw [hhome.record, hhome'.record, hbase, layout_eq]
  have hall : ∀ r ∈ Known.held.regs, z'.reg r = z.reg r := Known.forall_held.mpr
    ⟨hregs pri (by decide), hregs alt (by decide), hregs tmp0 (by decide), hdata, hrecord,
      hregs stk (by decide), hregs frm (by decide)⟩
  exact ⟨hsize, hbase, hhome, hhome', hreturns,
    ⟨by rw [hhome.layout, hhome'.layout, layout_eq], hall,
    fun _ hx => absurd hx List.not_mem_nil, fun hflags => absurd hflags Bool.false_ne_true, hvm,
    hup, hup'⟩, fun _ hr => hr⟩

/-- The same when both machines have just loaded the registers of the instance. -/
theorem abreast_of_loaded {d : Word} {regs : Registers} (hloaded : z.Loaded d regs)
    (hloaded' : z'.Loaded d regs) (hfile : z.reg tmp0 = t.leader.layout.file)
    (hfile' : z'.reg tmp0 = t.follower.layout.file) : t.Abreast a a' rets rets' .held z z' := by
  refine abreast_of_home hsize hbase hhome hhome' hreturns hvm hup hup' ?_
  simp only [List.forall_mem_cons, List.not_mem_nil, IsEmpty.forall_iff, implies_true, and_true]
  exact ⟨hloaded'.pri.trans hloaded.pri.symm, hloaded'.alt.trans hloaded.alt.symm,
    by rw [hfile, hfile', layout_eq], hloaded'.stk.trans hloaded.stk.symm,
    hloaded'.frm.trans hloaded.frm.symm⟩

end

namespace Abreast

theorem shadows (h : t.Abreast a a' rets rets' kn m₁ m₁')
    (hbeside : Beside t.erasing t.ctx t.is kn o o')
    (ih : ∀ n₁ < n, t.Tracks n₁) (hgoes : t.leader.Goes P k m (m₁.atOffset o))
    (hgoes' : t.follower.Goes P' k m' (m₁'.atOffset o')) :
    t.Shadows (t.leader.layout.slot (a.base + 4)) n m m' := by
  refine .goes hgoes hgoes' (Nat.le_refl k) fun n₁ hn₁ havoids => ih n₁ ?_ h hbeside havoids
  have hpos := hgoes.pos
  omega

theorem departs {ctx ctx' : Context} {is is' : List Instruction} {K : Instance → Instance → Prop}
    {way : Way} {r r' : Machine} (halike : m.Alike .held m') (hbase : a'.base = a.base)
    (h : t.leader.Departs ctx is K a way k m r) (h' : t.follower.Departs ctx' is' K a' way k m' r')
    (hway : way ≠ .pending) :
    t.Shadows (t.leader.layout.slot (a.base + 4)) n m m' := by
  have hexit' := h'.exit
  rw [hbase, layout_eq] at hexit'
  exact .finish h.goes h'.goes (Nat.le_refl k) h.returned.rip h'.returned.rip
    (halike.exits h.exit hexit' hway)

variable (h : t.Abreast a a' rets rets' kn m m')
include h

theorem size' : a'.host.vm.block.size = t.size := by
  rw [← h.size, ← h.home'.steady.size, ← h.home.steady.size, h.alike.vm]

theorem length_eq : rets'.length = rets.length := h.returns.length_eq.symm

theorem backs : t.leader.Backs t.ctx t.is Instance.Fixed a n :=
  Environment.Ready.backs_fixed (by rw [h.size]; exact t.ready) n

theorem backs' : t.follower.Backs (t.ctx.erased t.erasing) t.is Instance.Fixed a' n :=
  Environment.Ready.backs_fixed (by rw [h.size']; exact t.ready') n

theorem layout : m.layout = t.leader.layout := h.home.layout

theorem layout' : m'.layout = t.follower.layout := h.home'.layout

theorem reg {r : Reg} (hr : r ∈ Known.held.regs) : m'.reg r = m.reg r :=
  h.alike.regs r (h.held r hr)

theorem forget : t.Abreast a a' rets rets' .held m m' :=
  ⟨h.size, h.base, h.home, h.home', h.returns, h.alike.mono h.held nofun nofun, fun _ hr => hr⟩

/-! ## Section 4: Lines -/

variable {j : Nat} {xs ys : List (Nat × Line)} {i : Instr} {target : Target}
  (ih : ∀ n₁ < n, t.Tracks n₁)

theorem stuck (hat : t.Leader o xs)
    (hstuck : ∀ c, ¬t.leader.Step (n, m.atOffset o) c) : t.Shadows record n (m.atOffset o) m₁' :=
  .of_leads (t.ready.linesFrom_le hat.lines) h.layout (.stuck hstuck : t.leader.Leads
    (t.leader.Between t.ctx t.is) _ _)

include ih

/-- **Step.** An instruction that reads what is known. -/
theorem shadows_op (hi : (i.isLocal || i.saves) = true) (hcovers : kn.covers i = true)
    (hat : t.Leader o ((j, .op i) :: xs))
    (hat' : t.Follower o' ((j, .op i) :: ys)) (herases : Erases t.erasing (kn.after i) xs ys) :
    t.ShadowsFrom a n m m' o o' := by
  have hread := hat.stands t.ready.finishes
  have hread' := hat'.stands t.ready'.finishes
  have hgoesOn : i.goesOn := by
    rcases Bool.or_eq_true_iff.mp hi with hi | hi
    · simp only [Instr.isLocal, Bool.and_eq_true] at hi
      exact hi.1.1.1
    · obtain ⟨o, src, rfl, -⟩ := Instr.saves_eq hi
      rfl
  have hrsp : .rsp ∉ i.writes := by
    rcases Bool.or_eq_true_iff.mp hi with hi | hi
    · exact Instr.not_owned_of_isLocal hi (by decide)
    · obtain ⟨o, src, rfl, -⟩ := Instr.saves_eq hi
      exact List.not_mem_nil
  cases hexec : (m.atOffset (o + i.encode.length)).exec i with
  | error e => exact h.stuck hat (t.ready.stuck_read hread h.layout hexec n)
  | ok m₁ =>
    have halike :
        (m.atOffset (o + i.encode.length)).Alike kn (m'.atOffset (o' + i.encode.length)) :=
      h.alike.jumpTo _ _
    obtain ⟨m₁', hexec', halike₁⟩ := halike.exec hgoesOn hrsp hcovers m₁ hexec
    obtain ⟨hhome₁, hrip₁⟩ := (h.home.jumpTo _).exec hi hexec
    obtain ⟨hhome₁', hrip₁'⟩ := (h.home'.jumpTo _).exec hi hexec'
    have hgoes := t.ready.goes_read hread h.layout hexec
    have hgoes' := t.ready'.goes_read hread' h.layout' hexec'
    rw [← Machine.atOffset_eq hhome₁.layout
        (hrip₁.trans (congrArg (Layout.code · + _) h.layout))] at hgoes
    rw [← Machine.atOffset_eq hhome₁'.layout
        (hrip₁'.trans (congrArg (Layout.code · + _) h.layout'))] at hgoes'
    have h₁ : t.Abreast a a' rets rets' (kn.after i) m₁ m₁' :=
      ⟨h.size, h.base, hhome₁, hhome₁', h.returns, halike₁,
        fun r hr => List.mem_append_right _ (h.held r hr)⟩
    exact h₁.shadows ⟨_, _, hat.tail, hat'.tail, herases⟩ ih hgoes hgoes'

/-- **Step.** The address of the register file, which both machines find in the record. -/
theorem shadows_loadFile (hat : t.Leader o ((j, loadFile tmp0) :: xs))
    (hat' : t.Follower o' ((j, loadFile tmp0) :: ys)) (herases : Erases t.erasing kn xs ys) :
    t.ShadowsFrom a n m m' o o' := by
  have hexec := t.ready.exec_loadFile Instance.steady_fixed h.size h.home.toInside tmp0
  have hexec' := t.ready'.exec_loadFile Instance.steady_fixed h.size' h.home'.toInside tmp0
  have hgoes := t.ready.goes_read (hat.stands t.ready.finishes) h.layout
    (Machine.exec_atOffset rfl hexec)
  have hgoes' := t.ready'.goes_read (hat'.stands t.ready'.finishes) h.layout'
    (Machine.exec_atOffset rfl hexec')
  rw [layout_eq] at hgoes'
  have hbecomes : ∀ (x : Machine) (w : Word), Machine.Becomes [tmp0] x.host x (x.setReg tmp0 w) :=
    fun x w => (Machine.Becomes.refl _ x).setReg (by decide) w
  have h₁ : t.Abreast a a' rets rets' kn (m.setReg tmp0 t.leader.layout.file)
      (m'.setReg tmp0 t.leader.layout.file) :=
    ⟨h.size, h.base, h.home.becomes Instance.steady_fixed (hbecomes m _) (by decide),
      h.home'.becomes Instance.steady_fixed (hbecomes m' _) (by decide), h.returns,
      h.alike.keepReg _ _, h.held⟩
  exact h₁.shadows ⟨_, _, hat.tail, hat'.tail, herases⟩ ih hgoes hgoes'

theorem shadows_jmp (hopen : target.isOpen) (hne : t.erasing → target ≠ refusal)
    (hat : t.Leader o ((j, .jmp target) :: xs))
    (hat' : t.Follower o' ((j, .jmp target) :: ys)) :
    t.ShadowsFrom a n m m' o o' := by
  obtain ⟨dest, hdest, hgoes⟩ := t.ready.goes_jmp_at (hat.stands t.ready.finishes) h.layout
  obtain ⟨dest', hdest', hgoes'⟩ := t.ready'.goes_jmp_at (hat'.stands t.ready'.finishes) h.layout'
  obtain ⟨d, hd, hbeside⟩ := Beside.of_placed t.ready.finishes t.ready'.finishes hopen hne hdest
  obtain rfl := Option.some_inj.mp (hd.symm.trans hdest')
  exact h.shadows (hbeside kn) ih hgoes hgoes'

theorem shadows_jcc {c : Cond} (hflags : kn.flags) (hopen : target.isOpen)
    (hne : t.erasing → target ≠ refusal) (hat : t.Leader o ((j, .jcc c target) :: xs))
    (hat' : t.Follower o' ((j, .jcc c target) :: ys))
    (herases : Erases t.erasing { kn with flags := false } xs ys) :
    t.ShadowsFrom a n m m' o o' := by
  cases hc : c.holds m.flags with
  | none => exact h.stuck hat (t.ready.stuck_jcc hat.lines h.layout hc n)
  | some b =>
    have hc' : c.holds m'.flags = some b := by rw [h.alike.flags hflags, hc]
    obtain ⟨dest, hdest, hgoes⟩ := t.ready.goes_jcc_at (hat.stands t.ready.finishes) h.layout hc
    obtain ⟨dest', hdest', hgoes'⟩ :=
      t.ready'.goes_jcc_at (hat'.stands t.ready'.finishes) h.layout' hc'
    cases b with
    | false =>
      exact h.shadows ⟨_, _, hat.tail, hat'.tail, herases.mono kn.forgetFlags_le⟩ ih hgoes hgoes'
    | true =>
      obtain ⟨d, hd, hbeside⟩ := Beside.of_placed t.ready.finishes t.ready'.finishes hopen hne hdest
      obtain rfl := Option.some_inj.mp (hd.symm.trans hdest')
      exact h.shadows (hbeside kn) ih hgoes hgoes'

/-- **Step.** A range check. Only the machine with range checks goes on, past the check. -/
theorem shadows_check {r : Reg} {bound : Cell} (herasing : t.erasing)
    (hat : t.Leader o
      ((j, .op (.aluRI .cmp .d r bound)) :: (j, .jcc .a refusal) :: xs))
    (hat' : t.Follower o' ys) (herases : Erases t.erasing { kn with flags := false } xs ys) :
    t.ShadowsFrom a n m m' o o' := by
  let m₁ := m.setFlags (subFlags (m.reg32 r) bound)
  have hexec : m.exec (.aluRI .cmp .d r bound) = .ok m₁ := rfl
  have hgoes := t.ready.goes_read (hat.stands t.ready.finishes) h.layout
    (Machine.exec_atOffset rfl hexec)
  have h₁ : t.Abreast a a' rets rets' { kn with flags := false } m₁ m' :=
    ⟨h.size, h.base,
      ⟨⟨h.home.layout, h.home.steady, h.home.record, h.home.data, h.home.words, h.home.returns,
      h.home.room, h.home.outer⟩, h.home.rsp, h.home.fault⟩, h.home', h.returns,
      ⟨h.alike.layout, h.alike.regs, h.alike.vectors, nofun, h.alike.vm, h.alike.up, h.alike.up'⟩,
      h.held⟩
  refine .left hgoes fun n₁ hn₁ _ => ?_
  have hat₁ := hat.tail
  cases hc : Cond.a.holds m₁.flags with
  | none => exact h₁.stuck hat₁ (t.ready.stuck_jcc hat₁.lines h₁.layout hc n₁)
  | some b =>
    obtain ⟨dest, hdest, hgoes₁⟩ := t.ready.goes_jcc_at (hat₁.stands t.ready.finishes) h₁.layout hc
    refine .left hgoes₁ fun n₂ hn₂ havoids => ?_
    cases b with
    | false => exact ih n₂ (by omega) h₁ ⟨_, _, hat₁.tail, hat', herases⟩ havoids
    | true =>
      exact absurd (congrArg (Layout.code · + _) h.layout)
        (havoids dest ((if_pos herasing).trans hdest))

omit ih in
/-- **Step.** A check that always fails. -/
theorem shadows_refuse (herasing : t.erasing) (hat : t.Leader o ((j, .jmp refusal) :: xs)) :
    t.ShadowsFrom a n m m' o o' := by
  obtain ⟨dest, hdest, hgoes⟩ := t.ready.goes_jmp_at (hat.stands t.ready.finishes) h.layout
  exact .left hgoes fun n₁ hn₁ havoids =>
    absurd (congrArg (Layout.code · + _) h.layout) (havoids dest ((if_pos herasing).trans hdest))

omit ih in
theorem exists_push (hroom : 8 * (a.base + 15 + rets.length) ≤ t.leader.layout.stackSize)
    {w w' : Word} (hreturns : t.Returns w w') :
    ∃ m₁ m₁', m.push w = .ok m₁ ∧ m'.push w' = .ok m₁' ∧
      t.Abreast a a' (rets ++ [w]) (rets' ++ [w']) .held m₁ m₁' := by
  obtain ⟨m₁, hpush, hhome, hregs, hvm, -⟩ := (h.backs (n := 0)).exists_push h.home hroom w
  obtain ⟨m₁', hpush', hhome', hregs', hvm', -⟩ := (h.backs' (n := 0)).exists_push h.home'
    (by rw [h.base, h.length_eq, layout_eq]; exact hroom) w'
  have hkeeps : ∀ {x y : Machine} {v : Word}, y.regs = x.regs.set .rsp v →
      ∀ r ≠ Reg.rsp, y.reg r = x.reg r := by
    intro x y v hy r hr
    rw [Machine.reg, hy]
    exact RegFile.get_set_ne _ _ hr
  refine ⟨m₁, m₁', hpush, hpush', abreast_of_home h.size h.base hhome hhome'
    (List.rel_append h.returns (.cons hreturns .nil)) (by rw [hvm, hvm', h.alike.vm])
    ((Machine.upright_push hpush).down h.alike.up) ((Machine.upright_push hpush').down h.alike.up')
      fun r hr => ?_⟩
  have hheld : r ≠ .rsp ∧ r ∈ Known.held.regs := by
    revert r
    decide
  rw [hkeeps hregs r hheld.1, hkeeps hregs' r hheld.1, h.reg hheld.2]

theorem shadows_call {c : Cell} (hat : t.Leader o ((j, .call (.code c)) :: xs))
    (hat' : t.Follower o' ((j, .call (.code c)) :: ys)) (herases : Erases t.erasing .held xs ys) :
    t.ShadowsFrom a n m m' o o' := by
  by_cases hroom : 8 * (a.base + 15 + rets.length) ≤ t.leader.layout.stackSize
  · obtain ⟨m₁, m₁', hpush, hpush', h₁⟩ := h.exists_push hroom
      ⟨o + 5, o' + 5, rfl, rfl, _, _, hat.tail, hat'.tail, herases⟩
    rw [← layout_eq] at hpush'
    obtain ⟨dest, hdest, hgoes⟩ := t.ready.goes_call_at (hat.stands t.ready.finishes) h.layout hpush
    obtain ⟨dest', hdest', hgoes'⟩ :=
      t.ready'.goes_call_at (hat'.stands t.ready'.finishes) h.layout' hpush'
    obtain ⟨d, hd, hbeside⟩ :=
      Beside.of_placed (t := .code c) t.ready.finishes t.ready'.finishes rfl
      (fun _ => by simp [refusal]) hdest
    obtain rfl := Option.some_inj.mp (hd.symm.trans hdest')
    exact h₁.shadows (hbeside .held) ih hgoes hgoes'
  · have hbounded := t.ready.separate.bounded
    have hin := h.home.room
    have hpush := Machine.push_full h.layout h.home.rsp (by omega) (by omega)
      (t.leader.layout.code + BitVec.ofNat 64 (o + 5))
    exact h.stuck hat (t.ready.stuck_call hat.lines h.layout hpush n)

omit h ih in
theorem abreast_returned {w w' : Word} (h : t.Abreast a a' (rets ++ [w]) (rets' ++ [w']) kn m m') :
    t.Returns w w' ∧ t.Abreast a a' rets rets' .held
      (m.setReg .rsp (t.leader.layout.slot (a.base + 13 + rets.length)))
      (m'.setReg .rsp (t.leader.layout.slot (a.base + 13 + rets.length))) := by
  have hreverse := List.rel_reverse h.returns
  rw [List.reverse_append, List.reverse_append] at hreverse
  obtain ⟨hw, hrets⟩ := List.forall₂_cons.mp hreverse
  have hreturns : List.Forall₂ t.Returns rets rets' := List.forall₂_reverse_iff.mp hrets
  have hhome' := Environment.Backs.home_returned h.home'
  rw [h.base, layout_eq, ← hreturns.length_eq] at hhome'
  exact ⟨hw, h.size, h.base, Environment.Backs.home_returned h.home, hhome', hreturns,
    h.forget.alike.keepReg _ _, fun _ hr => hr⟩

/-- **Step.** A return, to the caller or out of the activation. -/
theorem shadows_ret (hat : t.Leader o ((j, .op .ret) :: xs))
    (hat' : t.Follower o' ((j, .op .ret) :: ys)) :
    t.ShadowsFrom a n m m' o o' := by
  have hb := h.backs (n := n)
  have hb' := h.backs' (n := n)
  have hlength := h.length_eq
  rcases List.eq_nil_or_concat rets with rfl | ⟨rs, w, rfl⟩
  · -- The function that the entry called returns.
    obtain rfl : rets' = [] := List.length_eq_zero_iff.mp hlength
    obtain ⟨r, hdeparts⟩ := t.ready.departs_back Instance.steady_fixed h.size
      (h.home.toInside.setReg (r := .rsp) (by decide) (t.leader.layout.slot (a.base + 12))) rfl
    obtain ⟨r', hdeparts'⟩ := t.ready'.departs_back Instance.steady_fixed h.size'
      (h.home'.toInside.setReg (r := .rsp) (by decide) (t.follower.layout.slot (a'.base + 12))) rfl
    have hret := hb.goes_ret hat.lines h.home.toInside h.home.rsp (show [_] = [] ++ [_] from rfl)
    have hret' := hb'.goes_ret hat'.lines h.home'.toInside h.home'.rsp
      (show [_] = [] ++ [_] from rfl)
    refine .goes hret hret' (Nat.le_refl 1) fun n₁ _ _ =>
      departs ?_ h.base hdeparts hdeparts' (by decide)
    rw [layout_eq, h.base]
    exact (h.forget.alike.keepReg _ _).jumpTo _ _
  · rw [List.concat_eq_append] at h hlength
    rcases List.eq_nil_or_concat rets' with rfl | ⟨rs', w', rfl⟩
    · simp at hlength
    rw [List.concat_eq_append] at h
    obtain ⟨⟨d, d', rfl, rfl, hbeside⟩, h₁⟩ := abreast_returned h
    have hret := hb.goes_ret hat.lines h.home.toInside h.home.rsp
      (show t.leader.back :: (rs ++ [_]) = (t.leader.back :: rs) ++ [_] from rfl)
    have hret' := hb'.goes_ret hat'.lines h.home'.toInside h.home'.rsp
      (show t.follower.back :: (rs' ++ [_]) = (t.follower.back :: rs') ++ [_] from rfl)
    have hdepth : a.base + 12 + (rs ++ [t.leader.layout.code + BitVec.ofNat 64 d]).length =
        a.base + 13 + rs.length := by
      rw [List.length_append, List.length_singleton]
      omega
    rw [h.length_eq, h.base, layout_eq] at hret'
    rw [hdepth] at hret hret'
    rw [Machine.jumpTo_code h₁.layout] at hret
    rw [Machine.jumpTo_code (h₁.layout'.trans layout_eq)] at hret'
    exact h₁.shadows hbeside ih hret hret'

omit ih in
theorem shadows_fault {f : Fault} {j' : Nat}
    (hat : t.Leader o ((faultLines f).map (Prod.mk j) ++ xs))
    (hat' : t.Follower o' ((faultLines f).map (Prod.mk j') ++ ys)) :
    t.ShadowsFrom a n m m' o o' := by
  obtain ⟨r, hdeparts⟩ := t.ready.departs_fault Instance.steady_fixed h.size h.home.toInside
    hat.lines_append
  obtain ⟨r', hdeparts'⟩ := t.ready'.departs_fault Instance.steady_fixed h.size' h.home'.toInside
    hat'.lines_append
  exact departs (h.forget.alike.jumpTo _ _) h.base hdeparts hdeparts' nofun

omit ih in
theorem shadows_halt {code : Cell}
    (hat : t.Leader o ((haltWith code).map (Prod.mk j) ++ xs))
    (hat' : t.Follower o' ((haltWith code).map (Prod.mk j) ++ ys)) :
    t.ShadowsFrom a n m m' o o' := by
  obtain ⟨r, hgoes, hreturned, hvm, hrax, hresult⟩ :=
    t.ready.goes_haltWith Instance.steady_fixed h.size h.home.toInside hat.lines_append
  obtain ⟨r', hgoes', hreturned', hvm', hrax', hresult'⟩ :=
    t.ready'.goes_haltWith Instance.steady_fixed h.size' h.home'.toInside hat'.lines_append
  rw [h.base, layout_eq] at hresult'
  exact .finish hgoes hgoes' (Nat.le_refl _) hreturned.rip hreturned'.rip
    (h.forget.alike.tell hvm hvm' (hrax'.trans hrax.symm) (fun _ => hresult) fun _ => hresult')

end Abreast

end Twins

end PawnNative
