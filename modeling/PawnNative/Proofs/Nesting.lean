import Mathlib.Tactic.Common
import PawnNative.Proofs.Linkage

/-! # Calls inside of calls

    Where a function goes on after a call is on the native stack, and the bytecode has
    no access to it. The run of a function is a tree: its instructions, and for every
    call the run of the function that was called. `Environment.Body` is that tree, and
    the induction over it shows that between two instructions of a function the native
    stack is as long as it was and holds the same return addresses, however deep the
    calls in between went and whatever they did to the stack of the instance.
-/

namespace PawnNative

open X64 Convention Template

namespace Environment

variable {env : Environment} {ctx : Context} {is : List Instruction} {c d e x : Nat × Machine}
  {m m' : Machine} {n : Nat} {address : Cell}

/-! ## Section 1: From one instruction to the next -/

/-- A machine is at the code of the instruction at a code address. -/
def At (env : Environment) (address : Cell) (m : Machine) : Prop :=
  ∃ o, env.program.offset? address = some o ∧ m.rip = env.layout.code + BitVec.ofNat 64 o

theorem Ready.not_at_of_between {size : Nat} (hr : env.Ready ctx is size) (h : env.Between ctx is m)
    (address : Cell) : ¬env.At address m := by
  rintro ⟨o, ho, hrip⟩
  exact hr.between_ne_offset h ho hrip

/-- A run goes to the next instruction of the bytecode that it comes to. -/
inductive Next (env : Environment) : Nat × Machine → Nat × Machine → Prop where
  | arrive {c d : Nat × Machine} {address : Cell} (hstep : env.Step c d)
    (hat : env.At address d.2) :
      Next env c d
  | pass {c c' d : Nat × Machine} (hstep : env.Step c c') (hother : ∀ address, ¬env.At address c'.2)
      (hrest : Next env c' d) : Next env c d

theorem Next.at (h : env.Next c d) : ∃ address, env.At address d.2 := by
  induction h with
  | arrive _ hat => exact ⟨_, hat⟩
  | pass _ _ _ ih => exact ih

theorem Next.reaches (h : env.Next c d) : env.Reaches c d := by
  induction h with
  | arrive hstep _ => exact .single hstep
  | pass hstep _ _ ih => exact .head hstep ih

theorem Reaches.le (h : env.Reaches c d) : d.1 ≤ c.1 := by
  induction h with
  | refl => exact Nat.le_refl _
  | tail _ hstep ih => exact Nat.le_trans (Nat.le_of_lt hstep.lt) ih

theorem Reaches.antisymm (h : env.Reaches c d) (h' : env.Reaches d c) : d = c := by
  rcases Relation.ReflTransGen.cases_head h with rfl | ⟨c₁, hstep, hrest⟩
  · rfl
  · have hlt := hstep.lt
    have hle := Reaches.le hrest
    have hle' := h'.le
    omega

/-- On the way no other instruction starts. -/
theorem Next.between (h : env.Next c d) (hcx : env.Reaches c x) (hxd : env.Reaches x d) :
    x = c ∨ x = d ∨ ∀ address, ¬env.At address x.2 := by
  induction h with
  | arrive hstep _ =>
    rcases Relation.ReflTransGen.cases_head hcx with rfl | ⟨c₁, hstep₁, hrest⟩
    · exact Or.inl rfl
    · obtain rfl := hstep.unique hstep₁
      exact Or.inr (Or.inl (Reaches.antisymm hrest hxd))
  | pass hstep hother _ ih =>
    rcases Relation.ReflTransGen.cases_head hcx with rfl | ⟨c₁, hstep₁, hrest⟩
    · exact Or.inl rfl
    · obtain rfl := hstep.unique hstep₁
      rcases ih hrest hxd with rfl | hlast | hother'
      · exact Or.inr (Or.inr hother)
      · exact Or.inr (Or.inl hlast)
      · exact Or.inr (Or.inr hother')

section
variable {size : Nat} (hr : env.Ready ctx is size)
include hr

theorem Ready.next_of_goes {k : Nat} (h : env.Goes (env.Between ctx is) k m m')
    (hat : env.At address m') (n : Nat) : env.Next (n + k, m) (n, m') := by
  induction h with
  | one h => exact .arrive (h.toStep n) hat
  | next h hbetween _ ih => exact .pass (h.toStep _) (hr.not_at_of_between hbetween) (ih hat)

/-- The first state of a kind that a run comes to is the next instruction. -/
theorem Ready.next_of_leads {Q : Nat × Machine → Prop} (h : env.Leads (env.Between ctx is) Q c)
    (hQ : ∀ c', Q c' → ∃ address, env.At address c'.2) (hnext : env.Next c d) : Q d := by
  induction hnext with
  | arrive hstep hat =>
    cases h with
    | stuck h => exact absurd hstep (h _)
    | arrive hstep' hc =>
      obtain rfl := hstep.unique hstep'
      exact hc
    | pass hstep' hbetween _ =>
      obtain rfl := hstep.unique hstep'
      exact absurd hat (hr.not_at_of_between hbetween _)
  | pass hstep hother _ ih =>
    cases h with
    | stuck h => exact absurd hstep (h _)
    | arrive hstep' hc =>
      obtain rfl := hstep.unique hstep'
      obtain ⟨address, hat⟩ := hQ _ hc
      exact absurd hat (hother address)
    | pass hstep' _ hrest =>
      obtain rfl := hstep.unique hstep'
      exact ih hrest

end

/-! ## Section 2: Call trees -/

/-- Part of the run of a function, from one of its instructions to another one: instructions that
    neither call nor return, and whole calls. A call goes to the first instruction of the function
    that it calls, over a part of the run of that function, and back by its return. -/
inductive Body (env : Environment) (is : List Instruction) :
    Nat × Machine → Nat × Machine → Prop where
  | start (c : Nat × Machine) : Body env is c c
  | step {c d e : Nat × Machine} (hbody : Body env is c d) (hnext : env.Next d e)
      (hrsp : e.2.reg .rsp = d.2.reg .rsp) : Body env is c e
  | call {c d d₁ d₂ e : Nat × Machine} {i j r : Instruction} (hbody : Body env is c d)
      (hpair : [i, j] <:+: is) (hcall : i.opcode = .call) (hati : env.At i.address d.2)
      (henter : env.Next d d₁) (hinner : Body env is d₁ d₂) (hr : r ∈ is) (hretn : r.opcode = .retn)
      (hatr : env.At r.address d₂.2) (hleave : env.Next d₂ e) : Body env is c e

/-- The last of these return addresses, if there is one, is an instruction. -/
def Resumable (env : Environment) (rets : List Word) : Prop :=
  ∀ w ∈ rets.getLast?, ∃ address o, env.program.offset? address = some o ∧
    w = env.layout.code + BitVec.ofNat 64 o

theorem template_call {i : Instruction} {ls : List Line} (hcall : i.opcode = .call)
    (hls : template ctx i = .ok ls) : ls = callCode i.arg i.next := by
  obtain ⟨address, opcode, operands⟩ := i
  obtain rfl : opcode = .call := hcall
  obtain ⟨t, ht, hls⟩ := bind_eq_ok.mp hls
  rw [Context.target] at ht
  split_ifs at ht
  obtain rfl := Except.ok.inj ht
  exact (Except.ok.inj hls).symm

theorem template_retn {i : Instruction} {ls : List Line} (hretn : i.opcode = .retn)
    (hls : template ctx i = .ok ls) : ls = leaveDropping := by
  obtain ⟨address, opcode, operands⟩ := i
  obtain rfl : opcode = .retn := hretn
  exact (Except.ok.inj hls).symm

section
variable {size : Nat} (hr : env.Ready ctx is size) {i j : Instruction}
include hr

theorem Ready.lines_at (hi : i ∈ is)
    (hat : env.At i.address m) (hm : m.layout = env.layout) :
    ∃ o ls rest, template ctx i = .ok ls ∧ env.program.offset? i.address = some o ∧
      m.atOffset o = m ∧ LinesFrom ctx is o (ls ++ rest) := by
  obtain ⟨before, after, rfl⟩ := List.append_of_mem hi
  obtain ⟨o, ho, hrip⟩ := hat
  obtain ⟨ls, hls, -⟩ := hr.finishes.holds_at
  obtain ⟨rest, hlines, -⟩ := hr.finishes.linesFrom_template hls ho
  exact ⟨o, ls, rest, hls, ho, Machine.atOffset_eq hm hrip, hlines⟩

theorem Ready.offset_of_pair {ls : List Line} {o : Nat} (hpair : [i, j] <:+: is)
    (hls : template ctx i = .ok ls)
    (ho : env.program.offset? i.address = some o) : env.program.offset? j.address =
      some (o + linesSize ls) := by
  obtain ⟨before, after, rfl⟩ := hpair
  have hfinishes := hr.finishes
  rw [List.append_assoc] at hfinishes
  exact hfinishes.offset_next hls ho

end

namespace Backs

variable {K : Instance → Instance → Prop} {a : Activation} {bound o : Nat} {kept rets : List Word}
  {w : Word} {ls : List Line} (hb : env.Backs ctx is K a bound)
include hb

/-- **Step.** Instructions lead to the lines after them, or nowhere. -/
theorem leads_steps {xs ys : List Line} {Q : Nat × Machine → Prop} (hne : xs ≠ [])
    (hxs : xs.all Line.isStep) (hlocal : xs.all Machine.Line.isLocal) (hys : Placeless ys)
    (hat : LinesFrom ctx is o (xs ++ (ys ++ ls))) (h : m.Home env K a rets)
    (hnext : ∀ (n' : Nat) (m' : Machine), m'.Home env K a rets →
      env.Leads (env.Between ctx is) Q (n', m'.atOffset (o + linesSize xs))) :
    env.Leads (env.Between ctx is) Q (n, m.atOffset o) := by
  cases hexec : Machine.execLines xs m with
  | error e => exact hb.ready.leads_crash hxs hat h.layout hexec n
  | ok m₁ =>
    have hhome := h.execLines hb.steady hlocal hexec
    exact (hb.ready.goes_lines _ hne hxs hat h.layout hexec).leads fun n _ => Or.inr
      ⟨hb.ready.between_steps xs ys hat hne hxs hys hhome.layout, hnext n m₁ hhome⟩

/-- **Step.** A call that goes on leads to the function that it calls, and where it comes from is
    the last return address. -/
theorem leads_callCode {t next : Cell} (hat : LinesFrom ctx is o (callCode t next ++ ls))
    (h : m.Home env K a rets) :
    env.Leads (env.Between ctx is) (fun c => env.At t c.2 ∧ c.2.Home env K a
      (rets ++ [env.layout.code + BitVec.ofNat 64 (o + linesSize (callCode t next))]))
        (n, m.atOffset o) := by
  have hat : LinesFrom ctx is o (pushImm next ++ ([.call (.code t)] ++ ls)) := by
    rw [callCode, List.append_assoc] at hat
    exact hat
  refine hb.leads_steps (List.cons_ne_nil _ _) rfl rfl (by simp [Placeless]) hat h fun n m₁ hhome =>
    ?_
  rcases hb.push_cases hhome
    (env.layout.code + BitVec.ofNat 64 (o + linesSize (pushImm next) + 5)) with
    ⟨m₂, hpush, hhome₂, -⟩ | ⟨e, hpush⟩
  · obtain ⟨k, dest, hdest, hcall⟩ := hb.ready.goes_call hat.drop hhome.layout hpush
    have hoffset : env.program.offset? t = some dest := (hb.ready.finishes.offset t).trans hdest
    exact hcall.leads fun n _ => Or.inl
      ⟨⟨dest, hoffset, Machine.rip_atOffset hhome₂.layout dest⟩, hhome₂.jumpTo _⟩
  · exact .stuck (hb.ready.stuck_call hat.drop hhome.layout hpush n)

/-- **Step.** A return that goes on leads to the last return address. -/
theorem leads_retn (hat : LinesFrom ctx is o (leaveDropping ++ ls))
    (h : m.Home env K a (rets ++ [w])) :
    env.Leads (env.Between ctx is) (fun c => c.2.rip = w ∧ c.2.Home env K a rets)
      (n, m.atOffset o) := by
  rw [leaveDropping_eq, List.append_assoc] at hat
  refine hb.leads_steps (List.cons_ne_nil _ _) rfl rfl (.op _) hat h fun n m₁ hhome => ?_
  have hret := hb.goes_ret hat.drop hhome.toInside hhome.rsp
    (show env.back :: (rets ++ [w]) = (env.back :: rets) ++ [w] from rfl)
  have hlength : a.base + 12 + (rets ++ [w]).length = a.base + 13 + rets.length := by
    rw [List.length_append, List.length_singleton]
    omega
  rw [hlength] at hret
  exact hret.leads fun n _ => Or.inl ⟨rfl, (home_returned hhome).jumpTo _⟩

end Backs

/-! ## Section 3: The native stack along a call tree -/

/-- A machine at an instruction, with these functions called since the entry. -/
structure Settled (env : Environment) (ctx : Context) (is : List Instruction)
    (K : Instance → Instance → Prop) (a : Activation) (rets : List Word) (m : Machine) : Prop where
  home : m.Home env K a rets
  starts : ∃ address, env.At address m
  stations : env.Stations ctx is rets rets
  resumable : env.Resumable rets

section
variable {K : Instance → Instance → Prop} {a : Activation} {rets : List Word} {w : Word}
  (hb : ∀ n, env.Backs ctx is K a n)
include hb

/-- **Step.** An instruction that leaves the native stack as long as it was leaves the return
    addresses alone. -/
theorem Settled.step (h : env.Settled ctx is K a rets d.2) (hnext : env.Next d e)
    (hrsp : e.2.reg .rsp = d.2.reg .rsp) : env.Settled ctx is K a rets e.2 := by
  have hr := (hb 0).ready
  have hbounded := hr.separate.bounded
  -- The stack pointer says how many functions were called and have not returned.
  have hwords : ∀ {rets' : List Word} {m : Machine}, m.Home env K a rets' →
      m.reg .rsp = d.2.reg .rsp → rets'.length = rets.length := by
    intro rets' m hm hsame
    have hfirst := hm.nativeWords hbounded
    have hlast := h.home.nativeWords hbounded
    rw [Machine.nativeWords, hsame, hm.layout, ← h.home.layout] at hfirst
    have hsum := hfirst.symm.trans hlast
    omega
  obtain ⟨address, hat⟩ := hnext.at
  obtain ⟨address₀, o, ho, hrip⟩ := h.starts
  have hstation : env.AtStation ctx is K a rets d.2 :=
    ⟨o, rets, hrip, (hb 0).station_of_offset ho, h.home, h.stations⟩
  rcases (hb d.1).cases_of_station (Nat.le_refl _) hstation hnext.reaches with
    (⟨⟨o', rets', -, -, hhome, hrets'⟩, -⟩ | hdeparting) | hbetween | ⟨b, x, hdb, hbx, hx, hxe⟩
  · -- Nothing was returned from, and the native stack is not longer either.
    obtain rfl : rets = rets' := hrets'.keeps.eq_of_length (hwords hhome hrsp).symm
    exact ⟨hhome, ⟨address, hat⟩, h.stations, h.resumable⟩
  · obtain ⟨o', ho', hrip'⟩ := hat
    exact absurd hdeparting ((hb 0).not_departing_of_station ((hb 0).station_of_offset ho') hrip')
  · exact absurd hat (hr.not_at_of_between hbetween _)
  · exfalso
    rcases hx with ⟨rs, w, rfl, hhome, hrip'⟩ | ⟨way, hleaves⟩
    · -- A return comes to an instruction, which can only be the last one.
      obtain ⟨address', o', ho', hw⟩ := h.resumable w (by simp)
      have hatx : env.At address' x.2 := ⟨o', ho', hrip'.trans hw⟩
      have hlength : x.2.reg .rsp = d.2.reg .rsp → False := by
        intro hsame
        have hsum := hwords hhome hsame
        rw [List.length_append, List.length_singleton] at hsum
        omega
      rcases hnext.between (hdb.trans hbx) hxe with rfl | rfl | hother
      · exact hlength rfl
      · exact hlength hrsp
      · exact hother address' hatx
    · have hreturned := hleaves.returned
      obtain rfl := Reaches.eq_of_stuck hxe (not_step_of_host hreturned.rip)
      obtain ⟨o', ho', hrip'⟩ := hat
      exact hr.code_ne_host (hr.offset?_le ho') (hrip'.symm.trans hreturned.rip)

/-- A function that was called goes back to the instruction after the call. -/
theorem Settled.entered {kept : List Word} {j : Instruction} {o : Nat}
    (hrets : env.Stations ctx is kept rets) (hj : env.program.offset? j.address = some o)
    (hhome : m.Home env K a (rets ++ [env.layout.code + BitVec.ofNat 64 o]))
    (hat : ∃ address, env.At address m) :
    env.Settled ctx is K a (rets ++ [env.layout.code + BitVec.ofNat 64 o]) m := by
  have happend := hrets.append ((hb 0).station_of_offset hj)
  refine ⟨hhome, hat, ⟨happend.stations, List.prefix_rfl⟩, ?_⟩
  intro w hw
  rw [List.getLast?_concat, Option.mem_def, Option.some_inj] at hw
  exact ⟨_, _, hj, hw.symm⟩

/-- **Step.** A call adds the address of the instruction after it. -/
theorem Settled.call {i j : Instruction} (h : env.Settled ctx is K a rets d.2)
    (hpair : [i, j] <:+: is)
    (hcall : i.opcode = .call) (hat : env.At i.address d.2) (hnext : env.Next d e) :
    ∃ o, env.program.offset? j.address = some o ∧ env.At i.arg e.2 ∧
      env.Settled ctx is K a (rets ++ [env.layout.code + BitVec.ofNat 64 o]) e.2 := by
  have hi : i ∈ is := hpair.subset List.mem_cons_self
  obtain ⟨o, ls, rest, hls, ho, hm, hlines⟩ := (hb 0).ready.lines_at hi hat h.home.layout
  obtain rfl := template_call hcall hls
  have hj := (hb 0).ready.offset_of_pair hpair hls ho
  have hleads := (hb 0).leads_callCode (n := d.1) hlines h.home
  rw [hm] at hleads
  obtain ⟨hati, hhome⟩ := (hb 0).ready.next_of_leads hleads (fun c' hc' => ⟨_, hc'.1⟩) hnext
  exact ⟨_, hj, hati, .entered hb h.stations hj hhome ⟨_, hati⟩⟩

/-- **Step.** A return drops the last return address and goes there. -/
theorem Settled.retn {r : Instruction} (h : env.Settled ctx is K a (rets ++ [w]) d.2) (hr : r ∈ is)
    (hretn : r.opcode = .retn) (hat : env.At r.address d.2) (hnext : env.Next d e) :
    e.2.rip = w ∧ e.2.Home env K a rets := by
  obtain ⟨o, ls, rest, hls, -, hm, hlines⟩ := (hb 0).ready.lines_at hr hat h.home.layout
  obtain rfl := template_retn hretn hls
  have hleads := (hb 0).leads_retn (n := d.1) hlines h.home
  rw [hm] at hleads
  refine (hb 0).ready.next_of_leads hleads (fun c' hc' => ?_) hnext
  obtain ⟨address, o', ho', hw⟩ := h.resumable w (by simp)
  exact ⟨_, o', ho', hc'.1.trans hw⟩

/-- **Run.** Between two instructions of a function the return addresses are the same. The induction
    is on the call tree: what is inside of a call has one return address more. -/
theorem Settled.body (hbody : env.Body is c d) (h : env.Settled ctx is K a rets c.2) :
    env.Settled ctx is K a rets d.2 := by
  induction hbody generalizing rets with
  | start c => exact h
  | step _ hnext hrsp ih => exact (ih h).step hb hnext hrsp
  | call _ hpair hcall hati henter _ hr hretn hatr hleave ihouter ihinner =>
    have houter := ihouter h
    obtain ⟨o, ho, -, hentered⟩ := houter.call hb hpair hcall hati henter
    obtain ⟨hrip, hhome⟩ := (ihinner hentered).retn hb hr hretn hatr hleave
    exact ⟨hhome, ⟨_, o, ho, hrip⟩, houter.stations, houter.resumable⟩

end

end Environment

end PawnNative
