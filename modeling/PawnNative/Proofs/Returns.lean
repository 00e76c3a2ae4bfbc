import Mathlib.Tactic.Common
import PawnNative.Proofs.Answers
import PawnNative.Proofs.Extent

/-! # Compiled code returns to the host

    A run of compiled code starts in an activation and stays in it. Each piece of
    code leads from a station, where the machine is home in the activation, to the
    next one, or back to the host; a helper that calls a native is one step of the
    run, and the calls that the native makes are runs of their own, further down the
    native stack and with fewer steps left. So what holds for runs with fewer steps
    can be used, and what is proved by induction on their number is this: a run that
    comes to its end has come back to the host with its registers and its native
    stack, and the instance has changed in allowed ways only.
-/

namespace PawnNative

open X64 Convention Template

namespace Environment

/-! ## Section 1: Stations of a run -/

/-- Return addresses that are stations of the program, the first of which are these. -/
structure Stations (env : Environment) (ctx : Context) (is : List Instruction)
    (kept rets : List Word) : Prop where
  stations : ∀ w ∈ rets, ∃ o, Station ctx is o ∧ w = env.layout.code + BitVec.ofNat 64 o
  keeps : kept <+: rets

theorem Stations.append {env : Environment} {ctx : Context} {is : List Instruction}
    {kept rets : List Word} (h : env.Stations ctx is kept rets) {o : Nat} (ho : Station ctx is o) :
    env.Stations ctx is kept (rets ++ [env.layout.code + BitVec.ofNat 64 o]) := by
  refine ⟨fun w hw => ?_, h.keeps.trans (List.prefix_append ..)⟩
  rcases List.mem_append.mp hw with hw | hw
  · exact h.stations w hw
  · exact ⟨o, ho, List.mem_singleton.mp hw⟩

/-- A machine that is home at a station, and has not returned from these functions. -/
def AtStation (env : Environment) (ctx : Context) (is : List Instruction)
    (K : Instance → Instance → Prop) (a : Activation) (kept : List Word) (m : Machine) : Prop :=
  ∃ o rets, m.rip = env.layout.code + BitVec.ofNat 64 o ∧ Station ctx is o ∧
    m.Home env K a rets ∧ env.Stations ctx is kept rets

/-- A machine that has just returned from the last of these functions. -/
def Dropped (env : Environment) (K : Instance → Instance → Prop) (a : Activation)
    (kept : List Word) (m : Machine) : Prop :=
  ∃ rets w, kept = rets ++ [w] ∧ m.Home env K a rets ∧ m.rip = w

theorem not_dropped_nil {env : Environment} {K : Instance → Instance → Prop} {a : Activation}
    {m : Machine} : ¬env.Dropped K a [] m := by
  rintro ⟨rets, w, hnil, -⟩
  simp at hnil

/-- A machine that is on its way out of an activation. -/
def Departing (env : Environment) (ctx : Context) (is : List Instruction)
    (K : Instance → Instance → Prop) (a : Activation) (x : Machine) : Prop :=
  ∃ way k r, way ∈ [Way.back, .pending] ∧ env.Departs ctx is K a way k x r

/-- What a helper leaves above its result, when it is called in this state. -/
def stale (env : Environment) (x : Machine) : Cell := ((env.platform.residue x).regs.get .rax).upper

/-- There are zeros above the cell in the alternate register, and above the one in the primary
    register there are zeros too, or what a helper left there. -/
def Trim (env : Environment) (m : Machine) : Prop :=
  (m.reg alt).upper = 0 ∧ ((m.reg pri).upper = 0 ∨ ∃ x, (m.reg pri).upper = env.stale x)

theorem Trim.narrows {env : Environment} {m m' : Machine} (h : env.Trim m) (hm : m.Narrows m') :
    env.Trim m' := by
  refine ⟨hm.alt h.1, ?_⟩
  rcases hm.pri with hpri | hpri
  · exact Or.inl hpri
  · rw [hpri]
    exact h.2

theorem trim_of_cells {env : Environment} {m : Machine} {x y : Cell}
    (hpri : m.reg pri = x.setWidth 64) (halt : m.reg alt = y.setWidth 64) : env.Trim m := by
  refine ⟨?_, Or.inl ?_⟩
  · rw [halt]
    exact Word.upper_setWidth (Nat.le_refl 32) y
  · rw [hpri]
    exact Word.upper_setWidth (Nat.le_refl 32) x

/-- Where a run is before it has returned from one of these functions: at a station or on its way
    out. At a station the computing registers are trim if they were when the run was at `m₀`. -/
def Underway (env : Environment) (ctx : Context) (is : List Instruction)
    (K : Instance → Instance → Prop) (a : Activation) (kept : List Word) (m₀ m : Machine) : Prop :=
  (env.AtStation ctx is K a kept m ∧ (env.Trim m₀ → env.Trim m)) ∨ env.Departing ctx is K a m

/-- Where the code that calls a helper leads: the machine is home again at the end of that
    code, or on its way out. -/
def Resumed (env : Environment) (ctx : Context) (is : List Instruction)
    (K : Instance → Instance → Prop) (a : Activation) (rets : List Word) (o : Nat) (m : Machine) :
      Prop :=
  (∃ m' : Machine, m = m'.atOffset o ∧ m'.Home env K a rets ∧ env.Trim m') ∨
    env.Departing ctx is K a m

/-- Where a piece of code leads from `c`: to a station, with trim registers if they were, to a way
    out, out of a function or, when the piece is a way out itself, back to the host. -/
def Stops (env : Environment) (ctx : Context) (is : List Instruction)
    (K : Instance → Instance → Prop)
    (a : Activation) (kept : List Word) (c c' : Nat × Machine) : Prop :=
  (env.AtStation ctx is K a kept c'.2 ∧ (env.Trim c.2 → env.Trim c'.2)) ∨
    env.Departing ctx is K a c'.2 ∨
    env.Dropped K a kept c'.2 ∨ ∃ way, env.Leaves ctx is K a way c.2 c'.2

/-- What a piece of code that starts at `c` leads to, seen from a state on the way. -/
def GoesOn (env : Environment) (ctx : Context) (is : List Instruction)
    (K : Instance → Instance → Prop)
    (a : Activation) (kept : List Word) (c : Nat × Machine) : Nat × Machine → Prop :=
  env.Leads (env.Between ctx is) (env.Stops ctx is K a kept c)

/-- What a run of an activation with at most `bound` steps relies on: natives keep what compiled
    code keeps, and so do the calls that they make, which have fewer steps. -/
structure Backs (env : Environment) (ctx : Context) (is : List Instruction)
    (K : Instance → Instance → Prop) (a : Activation) (bound : Nat) : Prop where
  ready : env.Ready ctx is a.host.vm.block.size
  steady : Steady K
  natives : a.host.vm.NativesKeep K
  calls : ∀ n < bound, ∀ (regs : RegFile) (j : Nat), regs.get .rsp = env.layout.slot (j + 1) →
    8 * (j + 2) ≤ env.layout.stackSize →
    (env.callbacks (env.run n) regs).Keep K (j + 2) a.host.vm

namespace Backs

variable {env : Environment} {ctx : Context} {is : List Instruction}
  {K : Instance → Instance → Prop} {a : Activation} {bound : Nat} {m m' : Machine}
  {kept rets : List Word} {o n : Nat} {ls : List Line} {c : Nat × Machine}

theorem arrives_station (hat : LinesFrom ctx is o ls) (hls : Conventional ls)
    (h : m.Home env K a rets) (hrets : env.Stations ctx is kept rets)
    (ht : env.Trim c.2 → env.Trim m) :
    env.Arrives (env.Between ctx is) (env.Stops ctx is K a kept c) (n, m.atOffset o) :=
  Or.inl (Or.inl ⟨⟨o, rets, Machine.rip_atOffset h.layout o, ⟨ls, hat, hls⟩, h.jumpTo _, hrets⟩,
    ht⟩)

theorem arrives_departing {way : Way} {k : Nat} {r : Machine} (hway : way ∈ [Way.back, .pending])
    (h : env.Departs ctx is K a way k m r) :
    env.Arrives (env.Between ctx is) (env.Stops ctx is K a kept c) (n, m) :=
  Or.inl (Or.inr (Or.inl ⟨way, k, r, hway, h⟩))

/-- A piece that is a way out leads back to the host. -/
theorem goesOn_departs {way : Way} {k : Nat} {r : Machine} (h : env.Departs ctx is K a way k m r) :
    env.GoesOn ctx is K a kept (n, m) (n, m) :=
  h.goes.leads fun _ _ => Or.inl (Or.inr (Or.inr (Or.inr ⟨way, h.toLeaves⟩)))

variable (hb : env.Backs ctx is K a bound)
include hb

/-! ## Section 2: Pieces without helpers -/

/-- **Step.** An instruction that leaves the native stack alone is executed, or leads nowhere. -/
theorem goes_local {i : Instr} (hi : i.isLocal) (hat : LinesFrom ctx is o (.op i :: ls))
    (h : m.Home env K a rets) :
    (∀ n c, ¬env.Step (n, m.atOffset o) c) ∨
    ∃ m' : Machine, env.Goes (env.Between ctx is) 1 (m.atOffset o)
      (m'.atOffset (o + i.encode.length)) ∧
      m'.Home env K a rets ∧ (m.atOffset (o + i.encode.length)).exec i = .ok m' := by
  obtain ⟨k, hread⟩ := hb.ready.finishes.stands hat
  cases hexec : (m.atOffset (o + i.encode.length)).exec i with
  | error e => exact Or.inl (hb.ready.stuck_read hread h.layout hexec)
  | ok m₁ =>
    have hlocal := Machine.exec_local hi hexec
    have hhome : m₁.Home env K a rets :=
      (h.jumpTo _).ofLocal hb.steady hlocal fun r hr => Instr.not_owned_of_isLocal hi hr
    have hm₁ : m₁.atOffset (o + i.encode.length) = m₁ :=
      Machine.atOffset_eq hhome.layout (hlocal.rip.trans (Machine.rip_atOffset h.layout _))
    refine Or.inr ⟨m₁, ?_, hhome, rfl⟩
    rw [hm₁]
    exact hb.ready.goes_read hread h.layout hexec

omit hb in
theorem call_not_mem_of_isLocal {i : Instr} (hi : i.isLocal) (r : Reg) :
    .op (.callR r) ∉ [Line.op i] := by
  intro hmem
  cases List.mem_singleton.mp hmem
  cases hi

theorem station_of_open {t : Target} (ht : t.isOpen) {k dest : Nat}
    (hdest : (Plan.ofProgram ctx is).placed (t.owner k) = some dest) : Station ctx is dest := by
  refine hb.ready.finishes.station_of_placed hdest ?_ ?_ ?_
  all_goals
    intro heq
    cases t with
    | code x | cases x | mark x => cases heq
    | stub s =>
      cases heq
      cases ht

theorem exists_push (h : m.Home env K a rets)
    (hroom : 8 * (a.base + 15 + rets.length) ≤ env.layout.stackSize) (w : Word) :
    ∃ m', m.push w = .ok m' ∧ m'.Home env K a (rets ++ [w]) ∧ m'.regs = m.regs.set .rsp
      (env.layout.slot (a.base + 14 + rets.length)) ∧ m'.host.vm = m.host.vm ∧
      m'.flags = m.flags := by
  have hs := hb.ready.separate_of_inside hb.steady rfl h.toInside
  have hpush := Machine.push_slot h.layout hs h.rsp (by omega) w
  obtain ⟨s, hstack⟩ : ∃ s, s = m.host.stack.setWord (a.base + 13 + rets.length + 1) w := ⟨_, rfl⟩
  rw [← hstack] at hpush
  have hagrees : m.host.stack.Agrees (a.base + 13 + rets.length + 1) s := by
    rw [hstack]
    exact NativeStack.agrees_setWord _ _ (Nat.le_refl _)
  have hwords : (a.words env.layout).length = 10 := rfl
  have hindex : a.base + 13 + rets.length + 1 = a.base + 14 + rets.length := by omega
  refine ⟨_, hpush, ?_, by rw [← hindex]; rfl, rfl, rfl⟩
  constructor
  case toInside =>
    constructor
    case layout => exact h.layout
    case steady => exact h.steady
    case record => exact h.record
    case data => exact h.data
    case words => exact hagrees.holds h.words (by omega)
    case returns =>
      have hreturns := hagrees.holds h.returns (by rw [List.length_cons]; omega)
      refine hreturns.concat ?_
      show s.word (a.base + 13 + (rets.length + 1)) = w
      rw [hstack]
      exact NativeStack.word_setWord_self ..
    case room =>
      rw [List.length_append, List.length_singleton]
      omega
    case outer => exact h.outer.trans (hagrees.mono (by omega))
  case rsp =>
    rw [List.length_append, List.length_singleton]
    rfl
  case fault => exact (hagrees _ (by omega)).trans h.fault

theorem push_cases (h : m.Home env K a rets) (w : Word) :
    (∃ m', m.push w = .ok m' ∧ m'.Home env K a (rets ++ [w]) ∧ m.Narrows m') ∨
    ∃ e, m.push w = .error e := by
  by_cases hroom : 8 * (a.base + 15 + rets.length) ≤ env.layout.stackSize
  · obtain ⟨m', hpush, hhome, hregs, -⟩ := hb.exists_push h hroom w
    refine Or.inl ⟨m', hpush, hhome, .of_regs ?_ ?_⟩ <;> (rw [Machine.reg, hregs]; rfl)
  · have hbounded := hb.ready.separate.bounded
    have hin := h.room
    exact Or.inr ⟨_, Machine.push_full h.layout h.rsp (by omega) (by omega) w⟩

omit hb in
/-- The last function that was called has returned. -/
theorem inside_init {w : Word} (h : m.Inside env K a (rets ++ [w])) : m.Inside env K a rets := by
  have hroom := h.room
  rw [List.length_append] at hroom
  have hreturns : m.host.stack.Holds (a.base + 13) ((env.back :: rets) ++ [w]) := h.returns
  exact ⟨h.layout, h.steady, h.record, h.data, h.words, hreturns.init, by omega, h.outer⟩

omit hb in
theorem home_returned {w : Word} (h : m.Home env K a (rets ++ [w])) :
    (m.setReg .rsp (env.layout.slot (a.base + 13 + rets.length))).Home env K a rets :=
  ⟨(inside_init h.toInside).setReg (by decide) _, rfl, h.fault⟩

theorem goes_ret {w : Word} {rs : List Word} (hat : LinesFrom ctx is o (.op .ret :: ls))
    (hin : m.Inside env K a rets) (hrsp : m.reg .rsp = env.layout.slot (a.base + 13 + rets.length))
    (hrets : env.back :: rets = rs ++ [w]) : env.Goes (env.Between ctx is) 1 (m.atOffset o)
      ((m.setReg .rsp (env.layout.slot (a.base + 12 + rets.length))).jumpTo w) := by
  obtain ⟨k, hread⟩ := hb.ready.finishes.stands hat
  have hs := hb.ready.separate_of_inside hb.steady rfl hin
  have hroom := hin.room
  have hlength := congrArg List.length hrets
  rw [List.length_cons, List.length_append, List.length_singleton] at hlength
  have hword : m.host.stack.word (a.base + 12 + rets.length + 1) = w := by
    have hreturns := hin.returns
    rw [hrets] at hreturns
    rw [show a.base + 12 + rets.length + 1 = a.base + 13 + rs.length by omega]
    exact hreturns.last
  have hpop := Machine.pop_slot (m := m.atOffset (o + 1))
    (j := a.base + 12 + rets.length) hin.layout hs (hrsp.trans (by congr 1; omega)) (by omega)
  have hret : (m.atOffset (o + 1)).exec .ret =
      .ok ((m.setReg .rsp (env.layout.slot (a.base + 12 + rets.length))).jumpTo w) := by
    show (Machine.pop _ >>= _) = _
    rw [hpop, ← hword]
    rfl
  exact hb.ready.goes_read hread hin.layout hret

/-- **Run.** Instructions that leave the native stack alone lead to what follows them, and what each
    of them keeps they keep. The induction is on these instructions. -/
theorem leads_locals {ops : List Instr} {ys : List Line} {Q : Nat × Machine → Prop}
    {I : Machine → Prop}
    (hops : ∀ i ∈ ops, i.isLocal) (hat : LinesFrom ctx is o (ops.map .op ++ (ys ++ ls)))
    (hys : Placeless ys) (h : m.Home env K a rets) (hI : I m)
    (hkeep : ∀ i ∈ ops, ∀ (m m' : Machine) (p : Nat), I m → (m.atOffset p).exec i = .ok m' → I m')
    (hnext : ∀ (n' : Nat) (m' : Machine), n' ≤ n → m'.Home env K a rets → I m' →
      env.Leads (env.Between ctx is) Q (n', m'.atOffset (o + linesSize (ops.map .op)))) :
    env.Leads (env.Between ctx is) Q (n, m.atOffset o) := by
  induction ops generalizing m o n with
  | nil => exact hnext n m (Nat.le_refl n) h hI
  | cons i ops ih =>
    have hi := hops i List.mem_cons_self
    rcases hb.goes_local hi hat h with hstuck | ⟨m₁, hgoes, hhome, hexec⟩
    · exact .stuck (hstuck n)
    · refine hgoes.leads fun n₁ hn₁ => Or.inr ⟨?_, ?_⟩
      · have hrest : Placeless (ops.map .op ++ ys) := by
          refine ⟨by simp [hys.1], ?_⟩
          intro l hl
          rcases List.mem_append.mp hl with hl | hl
          · obtain ⟨i, -, rfl⟩ := List.mem_map.mp hl
            rfl
          · exact hys.2 l hl
        have hlines : LinesFrom ctx is o ([.op i] ++ ((ops.map .op ++ ys) ++ ls)) := by
          rw [List.append_assoc]
          exact hat
        exact hb.ready.between_lines [.op i] _ hlines (.op i) (call_not_mem_of_isLocal hi _)
          hrest hhome.layout
      · refine ih (fun i hi => hops i (List.mem_cons_of_mem _ hi)) hat.tail hhome
          (hkeep i List.mem_cons_self m m₁ _ hI hexec)
            (fun i hi => hkeep i (List.mem_cons_of_mem _ hi)) ?_
        intro n' m' hn' hm' hI'
        have hsize : o + linesSize (.op i :: ops.map .op) = o + i.encode.length + linesSize
            (ops.map .op) :=
          (Nat.add_assoc ..).symm
        have hleads := hnext n' m' (by omega) hm' hI'
        rw [List.map_cons, hsize] at hleads
        exact hleads

/-- **Run.** The top of the heap is moved, and what the instructions in between keep is kept. -/
theorem leads_heap {src : Reg} {ops : List Instr} {I : Machine → Prop}
    (hops : ∀ i ∈ ops, i.isLocal ∧ tmp0 ∉ i.writes)
    (hat : LinesFrom ctx is o
      (loadFile tmp0 :: ops.map .op ++ .op (.store .d (saved tmp0 .hea) src) :: ls))
    (h : m.Home env K a rets) (hI : I (m.setReg tmp0 env.layout.file))
    (hkeep : ∀ i ∈ ops, ∀ (m m' : Machine) (p : Nat), I m → (m.atOffset p).exec i = .ok m' → I m') :
    env.Leads (env.Between ctx is) (fun c => ∃ (m' : Machine) (host : Host) (o' : Nat),
      c.2 = (m'.setHost host).atOffset o' ∧ LinesFrom ctx is o' ls ∧
      (m'.setHost host).Home env K a rets ∧ I m') (n, m.atOffset o) := by
  have hload := hb.ready.exec_loadFile hb.steady rfl h.toInside tmp0
  have hbecomes : Machine.Becomes [tmp0] m.host m (m.setReg tmp0 env.layout.file) :=
    (Machine.Becomes.refl _ m).setReg (by decide) _
  have hhome := h.becomes hb.steady hbecomes (by decide)
  obtain ⟨k, hread⟩ := hb.ready.finishes.stands hat
  have hgoes := hb.ready.goes_read hread h.layout (Machine.exec_atOffset rfl hload)
  have hlines : LinesFrom ctx is (o + (loadFile tmp0).size)
      (ops.map .op ++ ([.op (.store .d (saved tmp0 .hea) src)] ++ ls)) := hat.tail
  refine hgoes.leads fun n _ => Or.inr ⟨?_, ?_⟩
  · have hlines : LinesFrom ctx is o ([loadFile tmp0] ++
        ((ops.map .op ++ [.op (.store .d (saved tmp0 .hea) src)]) ++ ls)) := by
      rw [List.append_assoc]
      exact hat
    exact hb.ready.between_steps [loadFile tmp0] _ hlines (List.cons_ne_nil _ _) rfl
      (.ops ops _) hhome.layout
  · refine hb.leads_locals (I := fun m => m.reg tmp0 = env.layout.file ∧ I m)
      (fun i hi => (hops i hi).1) hlines (.op _) hhome ⟨rfl, hI⟩ ?_ ?_
    · intro i hi m m' p hm hexec
      have hlocal := Machine.exec_local (hops i hi).1 hexec
      exact ⟨(hlocal.regs tmp0 (hops i hi).2).trans hm.1, hkeep i hi m m' p hm.2 hexec⟩
    · -- The top of the heap is stored through `rdx`, which the instructions before have left alone.
      intro n' m₁ _ hhome₁ hm₁
      have hs := hb.ready.separate_of_inside hb.steady rfl hhome₁.toInside
      have hexec := Machine.exec_storeSaved hhome₁.layout hs hm₁.1 .hea src
      have hhome₂ :
          (m₁.setHost { m₁.host with vm := m₁.host.vm.put .hea (m₁.reg32 src) }).Home env K a
          rets :=
        ⟨hhome₁.toInside.change hb.steady rfl rfl rfl (hb.steady.register _ _ (by decide))
            fun _ _ _ => rfl,
          hhome₁.rsp, hhome₁.fault⟩
      obtain ⟨k, hread⟩ := hb.ready.finishes.stands hlines.drop
      have hgoes := hb.ready.goes_read hread hhome₁.layout (Machine.exec_atOffset rfl hexec)
      exact hgoes.leads fun n _ => Or.inl ⟨m₁, _, _, rfl, hlines.drop.tail, hhome₂, hm₁.2⟩

/-! ## Section 3: Pieces with helpers -/

/-- **Step.** From its door a helper goes back, or nowhere. -/
theorem leads_door {helper : Helper} {Q : Nat × Machine → Prop} (hrip : m.rip = helper.address)
    (haligned : m.Aligned env.layout)
    (hnext : ∀ n' < n, ∀ m', env.help (env.callbacks (env.run n') m.regs) helper m = .ok m' →
      env.Arrives (env.Between ctx is) Q (n', m')) : env.Leads (env.Between ctx is) Q (n, m) := by
  have hhelper := Helper.ofAddress?_of_eq hrip
  cases n with
  | zero => exact .stuck (not_step_zero m)
  | succ n =>
    cases hhelp : env.help (env.callbacks (env.run n) m.regs) helper m with
    | error e => exact .stuck (not_step_of_help hhelper hhelp)
    | ok m' =>
      have hhost := (hb.ready.between_helper hrip haligned).host
      exact .of_step (.helper hhost hhelper hhelp) (hnext n (Nat.lt_succ_self n) m' hhelp)

/-- Where a helper comes back to nothing starts. -/
theorem between_back {args rest : List Line} {helper : Helper}
    (hat : LinesFrom ctx is o (suspend ++ args ++ callHelper helper ++ (rest ++ ls)))
    (hargs : args.all Line.isStep) (hrest : Placeless rest)
    (h : m.CameBack env K a rets (m'.reg .rbp)
      (o + linesSize (suspend ++ args ++ callHelper helper))) :
    env.Between ctx is m := by
  rw [← h.atOffset]
  have hsteps : (suspend ++ args).all Line.isStep := by
    rw [List.all_append, hargs]
    rfl
  have hne : suspend ++ args ≠ [] := List.cons_ne_nil _ _
  refine hb.ready.between_lines _ rest hat ⟨List.cons_ne_nil _ _, ?_⟩ ?_ hrest h.layout
  · intro l hl
    rcases List.mem_append.mp hl with hl | hl
    · exact (Placeless.of_isStep hne hsteps).2 l hl
    · simp only [callHelper, List.mem_cons, List.not_mem_nil, or_false] at hl
      rcases hl with rfl | rfl <;> rfl
  · intro hmem
    rcases List.mem_append.mp hmem with hmem | hmem
    · exact call_not_mem_of_isStep hsteps _ hmem
    · simp [callHelper] at hmem

/-- **Run.** The call of a helper leads to what is led to from the place that
    the helper comes back to. -/
theorem leads_helper {helper : Helper} {args rest : List Line} {Q : Nat × Machine → Prop}
    (hargs : SetsArguments args)
    (hat : LinesFrom ctx is o (suspend ++ args ++ callHelper helper ++ (rest ++ ls)))
    (hrest : Placeless rest) (h : m.Home env K a rets)
    (hback : ∀ n₁ < n, ∀ (m₁ m₂ : Machine) (j : Nat),
      m.Calls m₁ env K a rets args (o + linesSize (suspend ++ args ++ callHelper helper)) →
      m₁.AtDoor env K a rets (m.reg .rbp) j (o + linesSize (suspend ++ args ++ callHelper helper)) →
      env.help (env.callbacks (env.run n₁) m₁.regs) helper m₁ = .ok m₂ →
      m₂.CameBack env K a rets (m.reg .rbp) (o + linesSize (suspend ++ args ++ callHelper helper)) ∧
        env.Leads (env.Between ctx is) Q (n₁, m₂)) :
    env.Leads (env.Between ctx is) Q (n, m.atOffset o) := by
  rcases hb.ready.goes_helper hb.steady rfl helper hargs hat h with ⟨m₁, hgoes, hrip, hcalls⟩ |
    ⟨-, hstuck⟩
  swap
  · exact hstuck _ n
  obtain ⟨j, hdoor⟩ := hcalls.door
  refine hgoes.leads fun n₁ hn₁ => Or.inr ⟨hb.ready.between_helper hrip hdoor.toAligned,
    hb.leads_door hrip hdoor.toAligned fun n₂ hn₂ m₂ hhelp => Or.inr ?_⟩
  obtain ⟨hcame, hleads⟩ := hback n₂ (by omega) m₁ m₂ j hcalls hdoor hhelp
  exact ⟨hb.between_back hat hargs.steps hrest hcame, hleads⟩

theorem leads_native {index : NativeIndex} {count : ArgCount} (hn : n ≤ bound)
    (hat : LinesFrom ctx is o (callNative index count ++ ls)) (h : m.Home env K a rets) :
    env.Leads (env.Between ctx is)
      (fun c => env.Resumed ctx is K a rets (o + linesSize (callNative index count)) c.2)
      (n, m.atOffset o) := by
  rw [callNative_eq] at hat ⊢
  rw [List.append_assoc] at hat
  refine hb.leads_helper setsArguments_native hat ⟨List.cons_ne_nil _ _, by decide⟩ h ?_
  intro n₂ hn₂ m₁ m₄ j hcalls hdoor hhelp
  have hrdi := hcalls.native.1.trans h.record
  obtain ⟨r, host, hdispatch⟩ := Ready.exists_dispatch hdoor hhelp
  obtain ⟨m', hhelp', hback, -, -, hvalue, hnoted⟩ :=
    hb.ready.help_native hb.steady rfl hdoor hrdi hb.natives
    (hb.calls n₂ (by omega) m₁.regs j hdoor.rsp hdoor.deep) hdispatch
  obtain rfl := Except.ok.inj (hhelp.symm.trans hhelp')
  refine ⟨hback, ?_⟩
  obtain ⟨hfaulted, hsettled⟩ := hb.ready.goes_settle hb.steady rfl hat.drop hback.toFramed
  rw [hback.atOffset] at hfaulted hsettled
  cases r with
  | error f =>
    obtain ⟨x, r, hgoes', hdeparts, -, -⟩ := hfaulted f (hnoted f rfl)
    exact hgoes'.leads fun n _ => Or.inl (Or.inr ⟨_, _, r, by decide, hdeparts⟩)
  | ok v =>
    have hbelow := hdoor.below
    have hfault : m₄.host.stack.get (2 * a.base) = 0 := by
      have htop : a.base < a.top rets := by
        unfold Activation.top
        omega
      rw [(hvalue v rfl).2.1 _ (by omega), hcalls.stack _ (by omega), h.fault]
    obtain ⟨m₅, hgoes', hresumes⟩ := hsettled hfault
    rw [linesSize_append, ← Nat.add_assoc]
    have hpri := (hresumes.becomes.regs pri (by decide)).trans (hvalue v rfl).2.2
    -- Above a native's value the helper may leave anything, so only the
    -- alternate register is narrow.
    have htrim : env.Trim m₅ := by
      refine ⟨?_, Or.inr ⟨m₁.setHost host, ?_⟩⟩
      · rw [hresumes.alt]
        exact Word.upper_setWidth (Nat.le_refl 32) _
      · rw [hpri]
        exact Word.upper_append _ v
    exact hgoes'.leads fun n _ => Or.inl (Or.inl ⟨m₅, rfl, hresumes.home hfault, htrim⟩)

theorem station_of_offset {t : Cell} (ho : env.program.offset? t = some o) : Station ctx is o := by
  rw [hb.ready.finishes.offset] at ho
  exact hb.ready.finishes.station_of_placed ho nofun nofun nofun

/-- **Run.** A computed branch comes to its last line with the address of a station, or leaves. -/
theorem leads_search {i : Instr} (hat : LinesFrom ctx is o (searchLines ++ .op i :: ls))
    (h : m.Home env K a rets) : env.Leads (env.Between ctx is)
      (fun c => (∃ (m₁ : Machine) (o₁ : Nat), c.2 = m₁.atOffset (o + linesSize searchLines) ∧
        m₁.Home env K a rets ∧ env.Trim m₁ ∧ env.Between ctx is c.2 ∧ Station ctx is o₁ ∧
        m₁.reg tmp1 = env.layout.code + BitVec.ofNat 64 o₁) ∨ env.Departing ctx is K a c.2)
      (n, m.atOffset o) := by
  rw [searchLines, List.append_assoc] at hat
  rw [searchLines, linesSize_append, ← Nat.add_assoc]
  refine hb.leads_helper setsArguments_find hat ⟨List.cons_ne_nil _ _, by decide⟩ h ?_
  intro n₂ hn₂ m₁ m₄ j hcalls hdoor hhelp
  obtain ⟨m₂, m₃, s, hexec, hm₂, hm₃, -⟩ := hcalls.arguments
  have hrdi : m₁.reg .rdi = env.layout.slot (a.base + 4) := by
    rw [hm₃ _ (by decide), execLines_findArgs hexec, hm₂.regs _ (by decide), h.record]
  obtain ⟨m', hhelp', hback, -, hsome, hnone⟩ := hb.ready.help_find hb.steady rfl hdoor hrdi
  obtain rfl := Except.ok.inj (hhelp.symm.trans hhelp')
  refine ⟨hback, ?_⟩
  obtain ⟨hleave, hgoOn⟩ := hb.ready.goes_found hb.steady rfl hat.drop hback.toFramed
  rw [hback.atOffset] at hleave hgoOn
  cases hcode : env.codeAddress? (m₁.reg32 .rsi) with
  | none =>
    obtain ⟨hzero, hnoted⟩ := hnone hcode
    obtain ⟨x, r, hgoes', hdeparts, -⟩ := hleave hzero _ hnoted
    exact hgoes'.leads fun n _ => Or.inl (Or.inr ⟨_, _, r, by decide, hdeparts⟩)
  | some x =>
    obtain ⟨hhost, hrax⟩ := hsome x hcode
    obtain ⟨o₁, ho₁, rfl⟩ := Option.map_eq_some_iff.mp hcode
    -- Code never starts at address zero, which is the answer for no code.
    have hzero : m₄.reg .rax ≠ 0 := by
      rw [hrax]
      intro hzero
      have hcode := hb.ready.toNat_code (hb.ready.offset?_le ho₁)
      have hlow := hb.ready.separate.code_low
      rw [hzero] at hcode
      have : (0 : Word).toNat = 0 := rfl
      omega
    have hfault : m₄.host.stack.get (2 * a.base) = 0 := by
      rw [hhost, hcalls.stack _ (by unfold Activation.top; omega), h.fault]
    obtain ⟨m₅, hgoes', hbetween, hhome, hrsi, -, hloaded, -⟩ := hgoOn hzero hfault
    exact hgoes'.leads fun n _ =>
      Or.inl (Or.inl ⟨m₅, o₁, rfl, hhome, trim_of_cells hloaded.pri hloaded.alt,
      hbetween, hb.station_of_offset ho₁, hrsi.trans hrax⟩)

theorem leads_log {first : Nat} (hat : LinesFrom ctx is o (FloatNative.lines .floatlog first ++ ls))
    (h : m.Home env K a rets) : env.Leads (env.Between ctx is)
      (fun c => env.Resumed ctx is K a rets (o + linesSize (FloatNative.lines .floatlog first)) c.2)
      (n, m.atOffset o) := by
  rw [logLines_eq] at hat ⊢
  rw [List.append_assoc] at hat
  refine hb.leads_helper (setsArguments_log first) hat (.of_isStep (List.cons_ne_nil _ _) rfl) h ?_
  intro n₂ hn₂ m₁ m₄ j hcalls hdoor hhelp
  obtain ⟨m', hhelp', hback, hhost, -⟩ := hb.ready.help_log hb.steady rfl hdoor
  obtain rfl := Except.ok.inj (hhelp.symm.trans hhelp')
  refine ⟨hback, ?_⟩
  have hfault : m₄.host.stack.get (2 * a.base) = 0 := by
    rw [hhost, hcalls.stack _ (by unfold Activation.top; omega), h.fault]
  obtain ⟨m₅, hgoes', hresumes⟩ := hb.ready.goes_logged hb.steady rfl hat.drop hback.toFramed
  rw [hback.atOffset] at hgoes'
  rw [linesSize_append, ← Nat.add_assoc]
  have htrim : env.Trim m₅ := trim_of_cells (hresumes.becomes.regs pri (by decide)) hresumes.alt
  exact hgoes'.leads fun n _ => Or.inl (Or.inl ⟨m₅, rfl, hresumes.home hfault, htrim⟩)

/-! ## Section 4: Where pieces lead -/

theorem goesOn_halt {t code : Cell}
    (hat : LinesFrom ctx is o (.place (.code t) :: (haltWith code ++ ls)))
    (h : m.Home env K a rets) : env.GoesOn ctx is K a kept (n, m.atOffset o) (n, m.atOffset o) := by
  obtain ⟨r, hdeparts⟩ := hb.ready.departs_halt hb.steady rfl h.toInside hat
  exact goesOn_departs hdeparts

theorem goesOn_fault {f : Fault} (hat : LinesFrom ctx is o (faultLines f ++ ls))
    (h : m.Home env K a rets) : env.GoesOn ctx is K a kept (n, m.atOffset o) (n, m.atOffset o) := by
  obtain ⟨r, hdeparts⟩ := hb.ready.departs_fault hb.steady rfl h.toInside hat
  exact goesOn_departs hdeparts

/-- The branch itself decides where a computed branch leads. -/
theorem goesOn_computed {go : Reg → Instr} (hat : LinesFrom ctx is o (computed go ++ ls))
    (h : m.Home env K a rets)
    (hnext : ∀ {m₁ : Machine} {n₁ p o₁ : Nat}, LinesFrom ctx is p (.op (go tmp1) :: ls) →
      m₁.Home env K a rets → env.Trim m₁ → Station ctx is o₁ →
      m₁.reg tmp1 = env.layout.code + BitVec.ofNat 64 o₁ →
      env.GoesOn ctx is K a kept c (n₁, m₁.atOffset p)) :
    env.GoesOn ctx is K a kept c (n, m.atOffset o) := by
  rw [computed_search, List.append_assoc] at hat
  refine (hb.leads_search hat h).bind ?_
  rintro ⟨n', m'⟩ - (⟨m₁, o₁, rfl, hhome, htrim, hbetween, ho₁, hrsi⟩ | hdeparting)
  · exact Or.inr ⟨hbetween, hnext hat.drop hhome htrim ho₁ hrsi⟩
  · exact Or.inl (Or.inr (Or.inl hdeparting))

section
variable (h : m.Home env K a rets) (hrets : env.Stations ctx is kept rets)
include h hrets

theorem goesOn_jump (hat : LinesFrom ctx is o (computed .jmpR ++ ls)) :
    env.GoesOn ctx is K a kept c (n, m.atOffset o) := by
  refine hb.goesOn_computed hat h ?_
  intro m₁ n₁ p o₁ hlast hhome htrim ho₁ hrsi
  obtain ⟨k, hread⟩ := hb.ready.finishes.stands hlast
  have hjump : (m₁.atOffset (p + (Instr.jmpR tmp1).encode.length)).exec (.jmpR tmp1) =
      .ok (m₁.atOffset o₁) := by
    show Except.ok ((m₁.atOffset _).jumpTo (m₁.reg tmp1)) = _
    rw [hrsi, ← hhome.layout]
    rfl
  obtain ⟨ls', hat', hls'⟩ := ho₁
  exact (hb.ready.goes_read hread hhome.layout hjump).leads fun n _ =>
    arrives_station hat' hls' hhome hrets fun _ => htrim

theorem goesOn_invoke (hls : Conventional ls) (hat : LinesFrom ctx is o (computed .callR ++ ls)) :
    env.GoesOn ctx is K a kept c (n, m.atOffset o) := by
  refine hb.goesOn_computed hat h ?_
  intro m₁ n₁ p o₁ hlast hhome htrim ho₁ hrsi
  obtain ⟨k, hread⟩ := hb.ready.finishes.stands hlast
  have hcall : (m₁.atOffset (p + 2)).exec (.callR tmp1) = (m₁.atOffset (p + 2)).push
      (env.layout.code + BitVec.ofNat 64 (p + 2)) >>= fun m => .ok (m.jumpTo (m₁.reg tmp1)) := by
    rw [← Machine.rip_atOffset hhome.layout]
    rfl
  rcases hb.push_cases (hhome.jumpTo (m₁.atOffset (p + 2)).rip)
    (env.layout.code + BitVec.ofNat 64 (p + 2)) with
    ⟨m₂, hpush, hhome₂, hnarrows⟩ | ⟨e, hpush⟩
  · have hexec : (m₁.atOffset (p + 2)).exec (.callR tmp1) = .ok (m₂.atOffset o₁) := by
      refine hcall.trans ((congrArg (· >>= _) hpush).trans ?_)
      show Except.ok (m₂.jumpTo (m₁.reg tmp1)) = _
      rw [hrsi, ← hhome₂.layout]
      rfl
    obtain ⟨ls', hat', hls'⟩ := ho₁
    exact (hb.ready.goes_read hread hhome.layout hexec).leads fun n _ =>
      arrives_station hat' hls' hhome₂ (hrets.append ⟨ls, hlast.tail, hls⟩) fun _ =>
        Trim.narrows (m := m₁.atOffset _) htrim hnarrows
  · exact .stuck (hb.ready.stuck_read hread hhome.layout (hcall.trans (congrArg (· >>= _) hpush))
        n₁)

omit hb h in
theorem goesOn_resumed {xs : List Line} (hls : Conventional ls)
    (hat : LinesFrom ctx is o (xs ++ ls)) (h : env.Leads (env.Between ctx is)
      (fun c => env.Resumed ctx is K a rets (o + linesSize xs) c.2) (n, m.atOffset o)) :
    env.GoesOn ctx is K a kept c (n, m.atOffset o) := by
  refine h.bind ?_
  rintro ⟨n', m'⟩ - (⟨m', rfl, hhome, htrim⟩ | hdeparting)
  · exact arrives_station hat.drop hls hhome hrets fun _ => htrim
  · exact Or.inl (Or.inr (Or.inl hdeparting))

variable (ht : env.Trim c.2 → env.Trim m)
include ht

theorem goesOn_op {i : Instr} (hi : i.isLocal) (hls : Conventional ls)
    (hat : LinesFrom ctx is o (.op i :: ls)) : env.GoesOn ctx is K a kept c (n, m.atOffset o) := by
  rcases hb.goes_local hi hat h with hstuck | ⟨m₁, hgoes, hhome, hexec⟩
  · exact .stuck (hstuck n)
  · refine hgoes.leads fun n _ => arrives_station hat.tail hls hhome hrets fun hc => ?_
    exact Trim.narrows (m := m.atOffset _) (ht hc) (Machine.exec_narrows hi hexec)

theorem arrives_open {t : Target} (htarget : t.isOpen) {k dest : Nat}
    (hdest : (Plan.ofProgram ctx is).placed (t.owner k) = some dest) :
    env.Arrives (env.Between ctx is) (env.Stops ctx is K a kept c) (n, m.atOffset dest) := by
  obtain ⟨ls, hat, hls⟩ := hb.station_of_open htarget hdest
  exact arrives_station hat hls h hrets ht

theorem goesOn_jmp {t : Target} (htarget : t.isOpen) (hat : LinesFrom ctx is o (.jmp t :: ls)) :
    env.GoesOn ctx is K a kept c (n, m.atOffset o) := by
  obtain ⟨k, dest, hdest, hgoes⟩ := hb.ready.goes_jmp hat h.layout
  exact hgoes.leads fun n _ => hb.arrives_open h hrets ht htarget hdest

theorem goesOn_jcc {cond : Cond} {t : Target} (htarget : t.isOpen) (hls : Conventional ls)
    (hat : LinesFrom ctx is o (.jcc cond t :: ls)) :
      env.GoesOn ctx is K a kept c (n, m.atOffset o) := by
  cases hflags : cond.holds m.flags with
  | none => exact .stuck (hb.ready.stuck_jcc hat h.layout hflags n)
  | some b =>
    obtain ⟨k, dest, hdest, hgoes⟩ := hb.ready.goes_jcc hat h.layout hflags
    refine hgoes.leads fun n _ => ?_
    cases b with
    | true => exact hb.arrives_open h hrets ht htarget hdest
    | false => exact arrives_station hat.tail hls h hrets ht

theorem goesOn_call {t : Cell} (hls : Conventional ls)
    (hat : LinesFrom ctx is o (.call (.code t) :: ls)) :
    env.GoesOn ctx is K a kept c (n, m.atOffset o) := by
  rcases hb.push_cases h (env.layout.code + BitVec.ofNat 64 (o + 5)) with ⟨m₁, hpush, hhome,
    hnarrows⟩ | ⟨e, hpush⟩
  · obtain ⟨k, dest, hdest, hgoes⟩ := hb.ready.goes_call hat h.layout hpush
    exact hgoes.leads fun n _ => hb.arrives_open hhome (hrets.append ⟨ls, hat.tail, hls⟩)
      (fun hc => (ht hc).narrows hnarrows) rfl hdest
  · exact .stuck (hb.ready.stuck_call hat h.layout hpush n)

theorem goesOn_ret (hat : LinesFrom ctx is o (.op .ret :: ls)) :
    env.GoesOn ctx is K a kept c (n, m.atOffset o) := by
  rcases List.eq_nil_or_concat rets with rfl | ⟨rs, w, rfl⟩
  · -- The function that the entry called returns.
    obtain ⟨r, hdeparts⟩ := hb.ready.departs_back hb.steady rfl
      (h.toInside.setReg (r := .rsp) (by decide) (env.layout.slot (a.base + 12))) rfl
    have hret := hb.goes_ret hat h.toInside h.rsp (show [env.back] = [] ++ [env.back] from rfl)
    exact hret.leads fun n _ => arrives_departing (by decide) hdeparts
  · rw [List.concat_eq_append] at h hrets
    have hret := hb.goes_ret hat h.toInside h.rsp
      (show env.back :: (rs ++ [w]) = (env.back :: rs) ++ [w] from rfl)
    have hlength : a.base + 12 + (rs ++ [w]).length = a.base + 13 + rs.length := by
      rw [List.length_append, List.length_singleton]
      omega
    rw [hlength] at hret
    have hhome := home_returned h
    refine hret.leads fun n _ => ?_
    rcases List.prefix_concat_iff.mp hrets.keeps with hkept | hkept
    · exact Or.inl (Or.inr (Or.inr (Or.inl ⟨rs, w, hkept, hhome.jumpTo _, rfl⟩)))
    · obtain ⟨o', ⟨ls', hat', hls'⟩, hw⟩ := hrets.stations w (by simp)
      have hm₁ : ((m.setReg .rsp (env.layout.slot (a.base + 13 + rs.length))).jumpTo w) =
          (m.setReg .rsp (env.layout.slot (a.base + 13 + rs.length))).atOffset o' := by
        rw [Machine.atOffset, hw, ← h.layout]
        rfl
      rw [hm₁]
      exact arrives_station hat' hls' hhome
        ⟨fun x hx => hrets.stations x (List.mem_append_left _ hx), hkept⟩ ht

theorem goesOn_heap {src : Reg} {ops : List Instr}
    (hops : ∀ i ∈ ops, i.isLocal ∧ tmp0 ∉ i.writes) (hls : Conventional ls)
    (hat : LinesFrom ctx is o
      (loadFile tmp0 :: ops.map .op ++ .op (.store .d (saved tmp0 .hea) src) :: ls)) :
    env.GoesOn ctx is K a kept c (n, m.atOffset o) := by
  have hkeep : ∀ i ∈ ops, ∀ (m m' : Machine) (p : Nat), (env.Trim c.2 → env.Trim m) →
      (m.atOffset p).exec i = .ok m' → env.Trim c.2 → env.Trim m' := fun i hi m m' p hm hexec hc =>
    Trim.narrows (m := m.atOffset p) (hm hc) (Machine.exec_narrows (hops i hi).1 hexec)
  refine (hb.leads_heap (I := fun m => env.Trim c.2 → env.Trim m) hops hat h ht hkeep).bind ?_
  rintro ⟨n', m'⟩ - ⟨m₁, host, o', rfl, hat', hhome, htrim⟩
  exact arrives_station hat' hls hhome hrets htrim

end

/-- **Step.** From every station a run comes to a station again, or back to the host. There is one
    case for every kind of piece. -/
theorem goesOn_station (hn : n ≤ bound) (hls : Conventional ls) (hat : LinesFrom ctx is o ls)
    (h : m.Home env K a rets) (hrets : env.Stations ctx is kept rets) :
    env.GoesOn ctx is K a kept (n, m.atOffset o) (n, m.atOffset o) := by
  induction hls with
  | nil => exact .stuck (hb.ready.stuck_end hat h.layout n)
  | op hi hls _ => exact hb.goesOn_op h hrets id hi hls hat
  | place hls ih => exact ih hat.tail
  | jmp ht _ _ => exact hb.goesOn_jmp h hrets id ht hat
  | jcc ht hls _ => exact hb.goesOn_jcc h hrets id ht hls hat
  | halt _ _ => exact hb.goesOn_halt hat h
  | call hls _ => exact hb.goesOn_call h hrets id hls hat
  | ret _ _ => exact hb.goesOn_ret h hrets id hat
  | fault _ _ => exact hb.goesOn_fault hat h
  | heap ops hops hls _ => exact hb.goesOn_heap h hrets id hops hls hat
  | native hls _ => exact goesOn_resumed hrets hls hat (hb.leads_native hn hat h)
  | jump _ _ => exact hb.goesOn_jump h hrets hat
  | invoke hls _ => exact hb.goesOn_invoke h hrets hls hat
  | log hls _ => exact goesOn_resumed hrets hls hat (hb.leads_log hat h)

/-! ## Section 5: Whole runs -/

/-- The function that is called starts at a station. -/
theorem leads_entry (h : m.Entered env a (env.layout.code + BitVec.ofNat 64 o))
    (ho : Station ctx is o) :
    env.Leads (env.Between ctx is) (fun c => env.AtStation ctx is K a [] c.2 ∧
      env.Trim c.2) (n, m) := by
  by_cases hroom : 8 * (a.base + 14) ≤ env.layout.stackSize
  · obtain ⟨m₁, hgoes, hhome, hloaded, -⟩ := hb.ready.goes_entry rfl hb.steady h hroom
    have hrip : (m₁.jumpTo (env.layout.code + BitVec.ofNat 64 o)).rip =
      env.layout.code + BitVec.ofNat 64 o := rfl
    exact hgoes.leads fun n _ => Or.inl ⟨⟨o, [], hrip, ho, hhome.jumpTo _, nofun, List.nil_prefix⟩,
      trim_of_cells (m := m₁) hloaded.pri hloaded.alt⟩
  · exact hb.ready.leads_entry_full rfl h (by omega) n

/-- **Run.** From a station on, and until it has returned from one of the functions, a run is at a
    station, on its way out or between two of these. -/
theorem cases_of_station {c d : Nat × Machine} (hn : c.1 ≤ bound)
    (h : env.AtStation ctx is K a kept c.2) (hd : env.Reaches c d) :
    env.Underway ctx is K a kept c.2 d.2 ∨ env.Between ctx is d.2 ∨
      ∃ b e, env.Reaches c b ∧ env.Reaches b e ∧
        (env.Dropped K a kept e.2 ∨ ∃ way, env.Leaves ctx is K a way b.2 e.2) ∧
        env.Reaches e d := by
  have hbound : c.1 < bound + 1 := by omega
  refine reaches_cases (I := fun e => env.Underway ctx is K a kept c.2 e.2) ?_ hbound
    (Or.inl ⟨h, id⟩) hd
  rintro ⟨n, m⟩ hn (⟨⟨o, rets, hrip, ⟨ls, hat, hls⟩, hhome, hrets⟩, htrim⟩ |
      ⟨way, k, r, -, hdeparts⟩)
  · have hm : m.atOffset o = m := Machine.atOffset_eq hhome.layout hrip
    have hgoesOn := hb.goesOn_station (Nat.le_of_lt_succ hn) hls hat hhome hrets
    rw [hm] at hgoesOn
    refine hgoesOn.bind fun c' _ hc' => Or.inl ?_
    rcases hc' with ⟨hstation, hkept⟩ | hdeparting | hdropped | hleaves
    · exact Or.inl (Or.inl ⟨hstation, fun hc => hkept (htrim hc)⟩)
    · exact Or.inl (Or.inr hdeparting)
    · exact Or.inr (Or.inl hdropped)
    · exact Or.inr (Or.inr hleaves)
  · exact hdeparts.goes.leads fun _ _ => Or.inl (Or.inr (Or.inr ⟨way, hdeparts.toLeaves⟩))

omit hb in
theorem rip_of_departing (h : env.Departing ctx is K a m) :
    m.rip = env.back ∨ m.rip = env.pending := by
  obtain ⟨way, k, r, hway, hdeparts⟩ := h
  cases hdeparts.exit.start with
  | back hrip => exact Or.inl hrip
  | pending hrip => exact Or.inr hrip
  | halt _ _ => simp at hway
  | fault _ _ => simp at hway

/-- A machine on its way out is in the code that every program starts with. -/
theorem not_departing_of_station (ho : Station ctx is o)
    (hrip : m.rip = env.layout.code + BitVec.ofNat 64 o) : ¬env.Departing ctx is K a m := by
  have hle : o ≤ env.program.code.size := by
    obtain ⟨ls, hat, -⟩ := ho
    exact hb.ready.linesFrom_le hat
  have hprologue := ho.prologue_le
  intro hdeparting
  rcases rip_of_departing hdeparting with hback | hpending
  · have heq := hb.ready.code_injective hle hb.ready.back_le (hrip.symm.trans hback)
    have hlt : linesSize (entryLines.take 18) < linesSize prologue := by decide
    omega
  · have heq := hb.ready.code_injective hle hb.ready.pending_le (hrip.symm.trans hpending)
    have hlt : linesSize (entryLines ++ leaveLines) < linesSize prologue := by decide
    omega

section
variable (h : m.Entered env a (env.layout.code + BitVec.ofNat 64 o)) (ho : Station ctx is o)
  (hn : n ≤ bound)
include h ho hn

/-- **Run.** Every state that a run reaches is at a station, on its way out or between two of these,
    or the run has left the activation. -/
theorem cases_of_reaches {d : Nat × Machine} (hd : env.Reaches (n, m) d) :
    (env.AtStation ctx is K a [] d.2 ∧ env.Trim d.2) ∨ env.Departing ctx is K a d.2 ∨
    env.Between ctx is d.2 ∨
      ∃ x way, env.Reaches (n, m) x ∧ env.Leaves ctx is K a way x.2 d.2 := by
  rcases (hb.leads_entry (n := n) h ho).cases_reaches hd with
    rfl | hbetween | ⟨c, ⟨hstation, htrim⟩, hlt, hto, hrest⟩
  · refine Or.inr (Or.inr (Or.inl ?_))
    rw [← h.atOffset]
    exact hb.ready.between_prologue (by decide) (by decide) (by decide) h.layout
  · exact Or.inr (Or.inr (Or.inl hbetween))
  · rcases hb.cases_of_station (Nat.le_trans (Nat.le_of_lt hlt) hn) hstation hrest with
      (⟨hstation', hkept⟩ | hdeparting) | hbetween | ⟨b, e, hb, -, hend, hed⟩
    · exact Or.inl ⟨hstation', hkept htrim⟩
    · exact Or.inr (Or.inl hdeparting)
    · exact Or.inr (Or.inr (Or.inl hbetween))
    · obtain ⟨way, hleaves⟩ := hend.resolve_left not_dropped_nil
      -- At the host a run is over.
      rw [hed.eq_of_stuck (not_step_of_host hleaves.returned.rip)]
      exact Or.inr (Or.inr (Or.inr ⟨b, way, hto.trans hb, hleaves⟩))

/-- Where something is placed but the code for leaving, a machine is at a
    station, with trim registers. -/
theorem atStation_of_place {d : Nat × Machine} (hd : env.Reaches (n, m) d) {t : Target} {p : Nat}
    (ht : t.isOpen)
    (hat : LinesFrom ctx is p (.place t :: ls))
    (hrip : d.2.rip = env.layout.code + BitVec.ofNat 64 p) :
    env.AtStation ctx is K a [] d.2 ∧ env.Trim d.2 := by
  have hopen : t ≠ .stub .leave ∧ t ≠ .stub .pending ∧ t ≠ .stub .halt := by
    refine ⟨?_, ?_, ?_⟩ <;> (rintro rfl; cases ht)
  rcases hb.cases_of_reaches h ho hn hd with hstation | hdeparting | hbetween | ⟨x, way, -, hleaves⟩
  · exact hstation
  · obtain ⟨k, hplaced⟩ := hb.ready.finishes.stands hat
    exact absurd hdeparting (hb.not_departing_of_station (hb.station_of_open ht hplaced) hrip)
  · exact absurd hrip (hbetween.place t p ls hat hopen.1 hopen.2.2)
  · exact absurd (hrip.symm.trans hleaves.returned.rip)
      (hb.ready.code_ne_host (hb.ready.linesFrom_le hat))

/-- So it is where an instruction of the bytecode starts. -/
theorem atStation_of_offset {d : Nat × Machine} (hd : env.Reaches (n, m) d) {t : Cell} {p : Nat}
    (hp : env.program.offset? t = some p) (hrip : d.2.rip = env.layout.code + BitVec.ofNat 64 p) :
    env.AtStation ctx is K a [] d.2 ∧ env.Trim d.2 := by
  obtain ⟨ls, hat⟩ := hb.ready.finishes.linesFrom_of_offset hp
  exact hb.atStation_of_place h ho hn hd rfl hat hrip

/-- **Run.** A run that comes to its end has left the activation. -/
theorem leaves_of_run {r : Machine} (hrun : env.run n m = .ok r) :
    ∃ x way, env.Reaches (n, m) x ∧ env.Leaves ctx is K a way x.2 r := by
  obtain ⟨hrip, k, hreaches⟩ := reaches_of_run hrun
  rcases hb.cases_of_reaches h ho hn hreaches with ⟨hstation, -⟩ | hdeparting | hbetween | hleaves
  · obtain ⟨o', rets, hrip', ⟨ls, hat, -⟩, -, -⟩ := hstation
    exact absurd (hrip'.symm.trans hrip) (hb.ready.code_ne_host (hb.ready.linesFrom_le hat))
  · rcases rip_of_departing hdeparting with hback | hpending
    · exact absurd (hback.symm.trans hrip) (hb.ready.code_ne_host hb.ready.back_le)
    · exact absurd (hpending.symm.trans hrip) (hb.ready.code_ne_host hb.ready.pending_le)
  · exact absurd hrip hbetween.host
  · exact hleaves

/-- **Run.** It has come back to the host. -/
theorem returned_of_run {r : Machine} (hrun : env.run n m = .ok r) : r.Returned env K a := by
  obtain ⟨x, way, -, hleaves⟩ := hb.leaves_of_run h ho hn hrun
  exact hleaves.returned

end

end Backs

end Environment

/-! ## Section 6: Calls that natives make -/

/-- The host after a call that left it as `h'`: stack, heap and frame are put back, and the
    arguments are dropped. -/
def Host.putBack (h h' : Host) : Host :=
  let regs := { h'.vm.regs with
    stk := h.vm.regs.stk + BitVec.ofNat 32 (h.vm.pending * Cell.width)
    hea := h.vm.regs.hea
    frm := h.vm.regs.frm }
  h'.setVm { h'.vm with regs }

theorem balanced_eq_ok {body : Nat → Host → Except Crash (Except Fault Cell × Host)} {h h' : Host}
    {r : Except Fault Cell} : balanced body h = .ok (r, h') ↔
      ∃ h₁, body h.vm.pending (h.setVm { h.vm with pending := 0 }) = .ok (r, h₁) ∧
        h' = h.putBack h₁ := by
  unfold balanced
  rw [bind_eq_ok]
  constructor
  · rintro ⟨⟨result, h₁⟩, hbody, hcall⟩
    cases hcall
    exact ⟨h₁, hbody, rfl⟩
  · rintro ⟨h₁, hbody, rfl⟩
    exact ⟨(r, h₁), hbody, rfl⟩

/-- Calls that put back stack, heap and frame. -/
def Callbacks.Balanced (k : Callbacks) : Prop := ∀ address, ∃ body, k.call address = balanced body

theorem Environment.balanced_callbacks (env : Environment) (run : Machine → Except Crash Machine)
    (regs : RegFile) : (env.callbacks run regs).Balanced := fun _ => ⟨_, rfl⟩

theorem Host.steady_putBack {K : Instance → Instance → Prop} (hK : Steady K) (h h' : Host) :
    K h'.vm (h.putBack h').vm := by
  have hput := hK.trans (hK.trans
    (hK.register h'.vm (r := .stk)
      (h.vm.regs.stk + BitVec.ofNat 32 (h.vm.pending * Cell.width)) (by decide))
    (hK.register _ (r := .hea) h.vm.regs.hea (by decide)))
    (hK.register _ (r := .frm) h.vm.regs.frm (by decide))
  exact hput

namespace Environment

section
variable {env : Environment} {ctx : Context} {is : List Instruction}
  {K : Instance → Instance → Prop} {regs : RegFile} {h h' : Host} {n j : Nat}
  {r : Except Fault Cell}

/-- A call has its own part of the native stack, below the part that the host uses. -/
theorem exists_activation {target : Word} {m : Machine} (hr : env.Ready ctx is h.vm.block.size)
    (hrsp : regs.get .rsp = env.layout.slot (j + 1)) (hroom : 8 * (j + 2) ≤ env.layout.stackSize)
    (hentry : env.entry regs h target = .ok m) :
    ∃ base, j + 2 ≤ base ∧ recordAddress (regs.get .rsp) = env.layout.slot (base + 4) ∧
      m.Entered env ⟨base, regs, h⟩ target := by
  have hbounded := hr.separate.bounded
  obtain ⟨base, hlow, hhigh, hrecord⟩ := hr.separate.recordAddress_slot (j + 1)
  rw [← hrsp] at hrecord
  have hfits := room_of_entry hr.separate hrecord (by omega) hentry
  have hexists : ∃ m', env.entry regs h target = .ok m' ∧ m'.Entered env ⟨base, regs, h⟩ target :=
    exists_entry hr.separate hrecord hfits
  obtain ⟨m', hentry', hentered⟩ := hexists
  obtain rfl := Except.ok.inj (hentry.symm.trans hentry')
  exact ⟨base, by omega, hrecord, hentered⟩

/-- The run of a function keeps what it has to keep. -/
theorem keep_activate {o : Nat} (hr : env.Ready ctx is h.vm.block.size)
    (hb : ∀ base, env.Backs ctx is K ⟨base, regs, h⟩ n)
    (hrsp : regs.get .rsp = env.layout.slot (j + 1)) (hroom : 8 * (j + 2) ≤ env.layout.stackSize)
    (ho : Station ctx is o)
    (hactivate : env.activate (env.run n) regs h (env.layout.code + BitVec.ofNat 64 o) =
      .ok (r, h')) : K h.vm h'.vm ∧ h.stack.Agrees (j + 2) h'.stack := by
  obtain ⟨m, hentry, hactivate⟩ := bind_eq_ok.mp hactivate
  obtain ⟨m', hrun, hactivate⟩ := bind_eq_ok.mp hactivate
  have hhost : h' = m'.host := by
    split at hactivate
    · cases hactivate
      rfl
    · obtain ⟨v, -, hactivate⟩ := bind_eq_ok.mp hactivate
      cases hactivate
      rfl
  obtain ⟨base, hlow, -, hentered⟩ := exists_activation hr hrsp hroom hentry
  have hreturned := (hb base).returned_of_run hentered ho (Nat.le_refl n) hrun
  rw [hhost]
  exact ⟨hreturned.steady, hreturned.outer.mono hlow⟩

/-- So does a call, which pushes the count of its arguments and a cell that is dropped. -/
theorem keep_invoke {address : Cell} {k : Nat} (hr : env.Ready ctx is h.vm.block.size)
    (hK : Steady K) (hb : ∀ vm base, h.vm.Fixed vm → env.Backs ctx is K ⟨base, regs, h.setVm vm⟩ n)
    (hrsp : regs.get .rsp = env.layout.slot (j + 1)) (hroom : 8 * (j + 2) ≤ env.layout.stackSize)
    (hinvoke : env.invoke (env.run n) regs address k h = .ok (r, h')) :
    K h.vm h'.vm ∧ h.stack.Agrees (j + 2) h'.stack := by
  unfold invoke at hinvoke
  split at hinvoke
  · cases hinvoke
    exact ⟨hK.refl _, .refl _ _⟩
  · next target htarget =>
    obtain ⟨o, ho, rfl⟩ := Option.map_eq_some_iff.mp htarget
    split at hinvoke
    · cases hinvoke
      exact ⟨hK.refl _, .refl _ _⟩
    · next vm₁ hpush₁ =>
      have hvm₁ := Instance.steady_pushCell hK hpush₁
      split at hinvoke
      · cases hinvoke
        exact ⟨hvm₁, .refl _ _⟩
      · next vm₂ hpush₂ =>
        have hvm₂ := hK.trans hvm₁ (Instance.steady_pushCell hK hpush₂)
        have hfixed := hK.fixed hvm₂
        have hr₂ : env.Ready ctx is (h.setVm vm₂).vm.block.size := by
          show env.Ready ctx is vm₂.block.size
          rw [hfixed.size]
          exact hr
        have hstation := (hb vm₂ 0 hfixed).station_of_offset ho
        obtain ⟨hkeep, hagrees⟩ := keep_activate hr₂ (fun base => hb vm₂ base hfixed) hrsp hroom
          hstation hinvoke
        exact ⟨hK.trans hvm₂ hkeep, hagrees⟩

end

/-- **Run.** What natives keep, the calls that they make keep too. The induction is on the number
    of steps that the calls may take: the natives that run inside of them have fewer. -/
theorem keep_callbacks {env : Environment} {ctx : Context} {is : List Instruction}
    {K : Instance → Instance → Prop} {vm : Instance} (hr : env.Ready ctx is vm.block.size)
    (hK : Steady K) (hnatives : vm.NativesKeep K) (n : Nat) (regs : RegFile) (j : Nat)
    (hrsp : regs.get .rsp = env.layout.slot (j + 1)) (hroom : 8 * (j + 2) ≤ env.layout.stackSize) :
    (env.callbacks (env.run n) regs).Keep K (j + 2) vm := by
  induction n using Nat.strongRecOn generalizing regs j with
  | ind n ih =>
    intro address h r h' hfixed hcall
    obtain ⟨h₁, hinvoke, rfl⟩ := balanced_eq_ok.mp hcall
    obtain ⟨h₀, hh₀⟩ : ∃ h₀, h₀ = h.setVm { h.vm with pending := 0 } := ⟨_, rfl⟩
    rw [← hh₀] at hinvoke
    have hfixed₀ : vm.Fixed h₀.vm := by
      rw [hh₀]
      exact hfixed.trans ⟨rfl, rfl, rfl⟩
    have hr₀ : env.Ready ctx is h₀.vm.block.size := by
      rw [hfixed₀.size]
      exact hr
    -- The call may push two cells first, so this is needed for every instance of the same image.
    have hb : ∀ vm' base, h₀.vm.Fixed vm' → env.Backs ctx is K ⟨base, regs, h₀.setVm vm'⟩ n := by
      intro vm' base hvm'
      have hfixed' := hfixed₀.trans hvm'
      constructor
      case ready =>
        show env.Ready ctx is vm'.block.size
        rw [hfixed'.size]
        exact hr
      case steady => exact hK
      case natives =>
        intro native hmem
        have hmem : native ∈ vm'.natives := hmem
        rw [hfixed'.natives] at hmem
        exact hnatives native hmem
      case calls =>
        intro n' hn' regs' j' hrsp' hroom'
        exact (ih n' hn' regs' j' hrsp' hroom').mono (Nat.le_refl _) hfixed'
    obtain ⟨hkeep, hagrees⟩ := keep_invoke hr₀ hK hb hrsp hroom hinvoke
    rw [hh₀] at hkeep hagrees
    exact ⟨hK.trans hkeep (Host.steady_putBack hK h h₁), hagrees⟩

section
variable {env : Environment} {ctx : Context} {is : List Instruction} {a : Activation}
  (hr : env.Ready ctx is a.host.vm.block.size) (n : Nat)
include hr

/-- Natives are all that a run relies on. -/
theorem Ready.backs {K : Instance → Instance → Prop} (hK : Steady K)
    (hnatives : a.host.vm.NativesKeep K) : env.Backs ctx is K a n :=
  ⟨hr, hK, hnatives, fun n' _ => keep_callbacks hr hK hnatives n'⟩

theorem Ready.backs_fixed : env.Backs ctx is Instance.Fixed a n :=
  hr.backs n Instance.steady_fixed fun native _ => native.keeps_fixed

end

/-! ## Section 7: Programs that were compiled -/

/-- The program of a loaded image, in an address space where it and the block of an instance lie
    apart from everything else. -/
structure Serves (env : Environment) (vm : Instance) : Prop where
  compiled : ∃ image config vm₀, Instance.load image = .ok vm₀ ∧
    Program.ofInstance config vm₀ = .ok env.program
  separate : env.layout.Separate vm.block.size env.program.code.size

theorem Serves.ready {env : Environment} {vm : Instance} (h : env.Serves vm) :
    ∃ ctx is, env.Ready ctx is vm.block.size := by
  obtain ⟨image, config, vm₀, -, hcompile⟩ := h.compiled
  obtain ⟨is, -, -, hfinishes, -⟩ := Program.finishes_of_compile hcompile
  exact ⟨_, is, hfinishes, h.separate⟩

end Environment

/-- The default address space has room for large images and programs. -/
theorem Layout.separate_standard {size code : Nat} (hsize : size ≤ 0x1000000000)
    (hcode : code ≤ 0x10000000000) : Layout.standard.Separate size code := by
  have hblock : Layout.standard.block.toNat = 0x7F1000000000 := rfl
  have hfile : Layout.standard.file.toNat = 0x7F2000000000 := rfl
  have htop : Layout.standard.stackTop.toNat = 0x7FFD00000000 := rfl
  have hstack : Layout.standard.stackSize = 0x800000 := rfl
  -- The regions are far apart; each case is arithmetic on addresses that do not wrap.
  constructor
  case stack_block =>
    intro a ha hin
    have hlt := a.isLt
    rw [OnStack, Word.above_eq, BitVec.toNat_sub] at ha
    rw [Word.above_eq, BitVec.toNat_sub] at hin
    omega
  case file_block =>
    intro a ha hin
    have hlt := a.isLt
    rw [Word.above_eq, BitVec.toNat_sub] at ha hin
    omega
  case file_stack =>
    intro a ha hin
    have hlt := a.isLt
    rw [OnStack, Word.above_eq, BitVec.toNat_sub] at hin
    rw [Word.above_eq, BitVec.toNat_sub] at ha
    omega
  case aligned => rfl
  case bounded => decide
  case code_low => decide
  case code_high =>
    show 0x7F3000000000 + code < _
    omega
  case host_code =>
    have habove : Layout.standard.hostReturn.above Layout.standard.code = 0xFFFF80D000400000 := by
      decide
    omega
  case host_helper => decide

/-- On the default platform the program of every loaded image has its place. -/
theorem Environment.serves_standard {image : Block} {config : Config} {vm₀ vm : Instance}
    {p : Program} (hload : Instance.load image = .ok vm₀)
    (hcompile : Program.ofInstance config vm₀ = .ok p) (hsize : vm.block.size ≤ 0x1000000000) :
    Environment.Serves ⟨.standard, p⟩ vm := by
  obtain ⟨-, hcode⟩ := Instance.size_code hload
  obtain ⟨is, hdecodes, -, hfinishes, -⟩ := Program.finishes_of_compile hcompile
  have hlt := hfinishes.size_lt hdecodes hcode
  exact ⟨⟨image, config, vm₀, hload, hcompile⟩, Layout.separate_standard hsize (Nat.le_of_lt hlt)⟩

end PawnNative
