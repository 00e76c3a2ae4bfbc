import Mathlib.Tactic.Common
import PawnNative.Proofs.Calling

/-! # Ways back to the host

    However deep the native stack is when an activation is left, the host finds its
    registers and its part of the stack as they were. The run of an activation is
    followed from station to station, and the ways out start at stations or right
    after them; so a run that is over has taken one of the ways out, and a run that
    has come to one is over some steps later, whatever it did before.

    Helpers are where other activations start, further down. Code that calls a helper
    aligns the native stack for it and puts the stack pointer back afterwards.
-/

namespace PawnNative

open X64 Convention Template

/-! ## Section 1: Code that calls helpers -/

/-- The line that calls a helper. -/
def helperCall : Line := .op (.callR .r11)

/-- The code around the call of a helper, from the line where the registers are stored to the one
    where all is put back, and what follows it in a template. -/
inductive HelperSequence : List Line → List Line → Prop where
  | native (index : NativeIndex) (count : ArgCount) : HelperSequence (callNative index count) []
  | search (go : Reg → Instr) (hgo : go = .jmpR ∨ go = .callR) :
    HelperSequence searchLines [.op (go tmp1)]
  | log (first : Nat) {rest : List Line} (hrest : rest.all Line.isPiece) :
      HelperSequence (FloatNative.lines .floatlog first) rest

theorem helperCall_not_mem {ls : List Line} (h : ls.all Line.isPiece) : helperCall ∉ ls := by
  intro hmem
  cases List.all_eq_true.mp h _ hmem

/-- The call of a helper in a template is part of such code, and it is the only one. -/
theorem Shape.exists_helperSequence {ls : List Line} (h : Shape ls) (hcall : helperCall ∈ ls) :
    ∃ (ops : List Instr) (seq rest : List Line), ls = ops.map .op ++ (seq ++ rest) ∧
      HelperSequence seq rest ∧ (∀ i ∈ ops, i.isLocal) ∧ helperCall ∉ rest := by
  cases h with
  | pieces hls => exact absurd hcall (helperCall_not_mem hls)
  | heap is src his hrest =>
    exfalso
    rcases List.mem_append.mp hcall with hmem | hmem
    · rcases List.mem_cons.mp hmem with heq | hmem
      · cases heq
      · obtain ⟨i, hi, heq⟩ := List.mem_map.mp hmem
        cases heq
        cases (his _ hi).1
    · rcases List.mem_cons.mp hmem with heq | hmem
      · cases heq
      · exact helperCall_not_mem hrest hmem
  | native index count =>
    exact ⟨[], _, [], (List.append_nil _).symm, .native index count, by simp, List.not_mem_nil⟩
  | log first hrest => exact ⟨[], _, _, rfl, .log first hrest, by simp, helperCall_not_mem hrest⟩
  | jump => exact ⟨[], _, _, computed_search _, .search _ (Or.inl rfl), by simp, by decide⟩
  | invoke next =>
    refine ⟨[.aluRI .sub .q stk 4, .storeImm top next], searchLines, _, ?_,
      .search _ (Or.inr rfl), ?_, by decide⟩
    · rw [computed_search]
      rfl
    · intro i hi
      simp only [List.mem_cons, List.not_mem_nil, or_false] at hi
      rcases hi with rfl | rfl <;> rfl
  | halt code => simp [haltWith, helperCall] at hcall

theorem helperCall_not_mem_ops {ops : List Instr} (h : ∀ i ∈ ops, i.isLocal) :
    helperCall ∉ ops.map Line.op := by
  intro hmem
  obtain ⟨i, hi, heq⟩ := List.mem_map.mp hmem
  cases heq
  cases h _ hi

theorem HelperSequence.placeless {seq rest : List Line} (h : HelperSequence seq rest) :
    Placeless seq := by
  cases h with
  | native index count =>
    rw [callNative_eq]
    exact ⟨List.cons_ne_nil _ _,
      fun l hl => (plain_callNative index count l (by rwa [callNative_eq])).2⟩
  | search go hgo => exact ⟨List.cons_ne_nil _ _, by decide⟩
  | log first hrest =>
    exact ⟨List.cons_ne_nil _ _, fun l hl => (plain_floatLines first .floatlog l hl).2⟩

namespace Environment

/-! ## Section 2: What a host relies on -/

/-- The host gets back its registers and its part of the native stack, of which the words up to the
    depth of the call are in use. -/
structure Restored (env : Environment) (h : Host) (depth : Nat) (m r : Machine) : Prop where
  rip : r.rip = env.layout.hostReturn
  /-- The return address of the host is off the stack. -/
  rsp : r.reg .rsp = m.reg .rsp + 8
  regs : ∀ reg ∈ hostRegs, r.reg reg = m.reg reg
  stack : h.stack.Agrees (depth + 2) r.host.stack

/-- A machine has come through lines of an instruction, and the stack pointer is where it was. -/
def Through (env : Environment) (i : Instruction) (ls : List Line) (x y : Machine) : Prop :=
  ∃ o, env.program.offset? i.address = some o ∧
    y.rip = env.layout.code + BitVec.ofNat 64 (o + linesSize ls) ∧ y.reg .rsp = x.reg .rsp

variable {env : Environment} {ctx : Context} {is : List Instruction}
  {K : Instance → Instance → Prop}
  {a : Activation} {m x r : Machine} {n o : Nat} {d : Nat × Machine} {way : Way}

theorem Leaves.restored {target : Word} {depth : Nat} (h : env.Leaves ctx is K a way x r)
    (hentered : m.Entered env a target) (hdepth : depth + 2 ≤ a.base) :
    env.Restored a.host depth m r := by
  have hreturned := h.returned
  constructor
  case rip => exact hreturned.rip
  case rsp =>
    rw [hreturned.rsp, hentered.rsp]
    exact (env.layout.slot_add (a.base + 4) 1).symm
  case regs =>
    intro reg hreg
    rw [hreturned.regs reg hreg, hentered.regs reg hreg]
  case stack => exact hreturned.outer.mono hdepth

theorem Departing.atExit (h : env.Departing ctx is K a x) : ∃ way, env.AtExit ctx is x way := by
  obtain ⟨way, k, r, -, hdeparts⟩ := h
  exact ⟨way, hdeparts.exit.start⟩

namespace Backs

variable {bound : Nat} {rets : List Word} {ls : List Line} (hb : env.Backs ctx is K a bound)
include hb

section
variable (h : m.Entered env a (env.layout.code + BitVec.ofNat 64 o)) (ho : Station ctx is o)
  (hn : n ≤ bound) (hd : env.Reaches (n, m) d)
include h ho hn hd

/-- No station is in the code that every program starts with. -/
theorem departing_of_prologue {p : Nat} (hp : p < linesSize prologue)
    (hrip : d.2.rip = env.layout.code + BitVec.ofNat 64 p) (hbetween : ¬env.Between ctx is d.2) :
    env.Departing ctx is K a d.2 := by
  have hle := hb.ready.prologue_le
  rcases hb.cases_of_reaches h ho hn hd with ⟨hstation, -⟩ | hdeparting | hother |
    ⟨x, way, -, hleaves⟩
  · obtain ⟨o', rets, hrip', hstation, -, -⟩ := hstation
    have hlow := hstation.prologue_le
    obtain ⟨ls, hat, -⟩ := hstation
    have heq := hb.ready.code_injective (hb.ready.linesFrom_le hat) (by omega)
      (hrip'.symm.trans hrip)
    omega
  · exact hdeparting
  · exact absurd hother hbetween
  · exact absurd (hrip.symm.trans hleaves.returned.rip) (hb.ready.code_ne_host (by omega))

/-- **Exit.** A run that has come to a way out is over some steps later. There is one case for every
    way. -/
theorem departs_of_reaches (hexit : env.AtExit ctx is d.2 way) :
    ∃ k r, env.Departs ctx is K a way k d.2 r := by
  -- The first two ways start at fixed places of the prologue, which are not the same.
  have hdistinct : env.back ≠ env.pending := by
    intro heq
    have hoffset := hb.ready.code_injective hb.ready.back_le hb.ready.pending_le heq
    revert hoffset
    decide
  cases hexit with
  | back hrip =>
    have hdeparting := hb.departing_of_prologue h ho hn hd (by decide) hrip fun hbetween =>
      hbetween.back hrip
    obtain ⟨way, k, r, hway, hdeparts⟩ := hdeparting
    cases hdeparts.exit.start with
    | back _ => exact ⟨k, r, hdeparts⟩
    | pending hrip' => exact absurd (hrip.symm.trans hrip') hdistinct
    | halt _ _ => simp at hway
    | fault _ _ => simp at hway
  | pending hrip =>
    obtain ⟨rest, hat⟩ := linesFrom_halt ctx is
    have hdeparting := hb.departing_of_prologue h ho hn hd (by decide) hrip fun hbetween =>
      hbetween.place _ _ _ hat nofun nofun (by rw [hrip, pending, linesSize_append])
    obtain ⟨way, k, r, hway, hdeparts⟩ := hdeparting
    cases hdeparts.exit.start with
    | back hrip' => exact absurd (hrip'.symm.trans hrip) hdistinct
    | pending _ => exact ⟨k, r, hdeparts⟩
    | halt _ _ => simp at hway
    | fault _ _ => simp at hway
  | halt hat hrip =>
    obtain ⟨⟨o', rets, -, -, hhome, -⟩, -⟩ := hb.atStation_of_place h ho hn hd rfl hat hrip
    obtain ⟨r, hdeparts⟩ := hb.ready.departs_halt hb.steady rfl hhome.toInside hat
    rw [Machine.atOffset_eq hhome.layout hrip] at hdeparts
    exact ⟨_, r, hdeparts⟩
  | fault hat hrip =>
    obtain ⟨⟨o', rets, -, -, hhome, -⟩, -⟩ := hb.atStation_of_place h ho hn hd rfl hat hrip
    obtain ⟨r, hdeparts⟩ := hb.ready.departs_fault hb.steady rfl hhome.toInside hat
    rw [Machine.atOffset_eq hhome.layout hrip] at hdeparts
    exact ⟨_, r, hdeparts⟩

/-- Where a helper was called, the stack pointer is aligned. -/
theorem aligned_of_reaches {helper : Helper} (hrip : d.2.rip = helper.address) :
    d.2.Aligned env.layout := by
  rcases hb.cases_of_reaches h ho hn hd with ⟨hstation, -⟩ | hdeparting | hbetween |
    ⟨x, way, -, hleaves⟩
  · obtain ⟨o', rets, hrip', ⟨ls, hat, -⟩, -, -⟩ := hstation
    exact absurd (hrip.symm.trans hrip') (hb.ready.helper_ne_code (hb.ready.linesFrom_le hat))
  · rcases rip_of_departing hdeparting with hback | hpending
    · exact absurd (hrip.symm.trans hback) (hb.ready.helper_ne_code hb.ready.back_le)
    · exact absurd (hrip.symm.trans hpending) (hb.ready.helper_ne_code hb.ready.pending_le)
  · exact hbetween.helper helper hrip
  · have hhelper := hb.ready.separate.host_helper
    have hsmall : helper.address.toNat ≤ 3 := by cases helper <;> decide
    rw [← hleaves.returned.rip, hrip] at hhelper
    omega

end

/-- **Run.** Code that calls a helper leads to its end, or to a way out. -/
theorem leads_sequence {seq rest : List Line} (hseq : HelperSequence seq rest) (hn : n ≤ bound)
    (hat : LinesFrom ctx is o (seq ++ (rest ++ ls))) (h : m.Home env K a rets) :
    env.Leads (env.Between ctx is) (fun c => env.Resumed ctx is K a rets (o + linesSize seq) c.2)
      (n, m.atOffset o) := by
  cases hseq with
  | native index count => exact hb.leads_native hn hat h
  | search go hgo =>
    refine (hb.leads_search hat h).bind ?_
    rintro c - (⟨m₁, o₁, hm₁, hhome, htrim, -⟩ | hdeparting)
    · exact Or.inl (Or.inl ⟨m₁, hm₁, hhome, htrim⟩)
    · exact Or.inl (Or.inr hdeparting)
  | log first hrest => exact hb.leads_log hat h

/-- **Run.** So does the code of an instruction, from its start on. -/
theorem leads_instruction {i : Instruction} {ops : List Instr} {seq rest : List Line} (hi : i ∈ is)
    (htemplate : template ctx i = .ok (ops.map .op ++ (seq ++ rest)))
    (hseq : HelperSequence seq rest)
    (hops : ∀ i ∈ ops, i.isLocal) (hn : n ≤ bound) (hat : env.At i.address x)
    (h : x.Home env K a rets) : env.Leads (env.Between ctx is)
      (fun c => env.Through i (ops.map .op ++ seq) x c.2 ∨ ∃ way, env.AtExit ctx is c.2 way)
        (n, x) := by
  obtain ⟨o, ls, after, hls, hoffset, hx, hlines⟩ := hb.ready.lines_at hi hat h.layout
  obtain rfl := Except.ok.inj (hls.symm.trans htemplate)
  rw [List.append_assoc, List.append_assoc] at hlines
  rw [← hx]
  refine hb.leads_locals (I := fun _ => True) hops hlines hseq.placeless h trivial
    (fun _ _ _ _ _ _ _ => trivial) ?_
  intro n' m' hn' hm' _
  refine (hb.leads_sequence hseq (by omega) hlines.drop hm').bind ?_
  rintro c - (⟨m₁, hm₁, hhome, -⟩ | hdeparting)
  · refine Or.inl (Or.inl ⟨o, hoffset, ?_, ?_⟩)
    · rw [hm₁, linesSize_append, ← Nat.add_assoc, ← hhome.layout]
      rfl
    · rw [hm₁]
      exact hhome.rsp.trans h.rsp.symm
  · exact Or.inl (Or.inr hdeparting.atExit)

end Backs

/-! ## Section 3: Entries -/

/-- **Exits.** A run that is over has taken one of the ways out, and a run that has come to one of
    them is over some steps later, at any depth of the native stack: the host finds its registers
    and its part of the native stack as they were, the status and the result that belong to the way,
    and stack and frame in the register file. Where a helper is called, and so where other
    activations start, the stack pointer is aligned and there is room for them; and the code around
    the call leaves the stack pointer where it was. -/
theorem exits_restore_host {config : Config} {vm₀ : Instance} {regs : RegFile} {h : Host}
    {depth : Nat} {address : Cell} {target : Word}
    (hcompile : Program.ofInstance config vm₀ = .ok env.program)
    (hlisting : Decodes vm₀.code 0 is none)
    (hseparate : env.layout.Separate h.vm.block.size env.program.code.size)
    (hrsp : regs.get .rsp = env.layout.slot (depth + 1))
    (hroom : 8 * (depth + 2) ≤ env.layout.stackSize)
    (htarget : env.codeAddress? address = some target) (hentry : env.entry regs h target = .ok m) :
    (∀ n r, env.run n m = .ok r → env.Restored h depth m r ∧ ∃ way k x, env.Reaches (n, m) (k, x) ∧
      env.Exit (.ofInstance config vm₀) is (m.reg .rdi) way x r) ∧
    (∀ n k x way, env.Reaches (n, m) (k, x) → env.AtExit (.ofInstance config vm₀) is x way →
      ∃ s r, (∀ n', env.Reaches (n' + s, x) (n', r)) ∧ env.Restored h depth m r ∧
        env.Exit (.ofInstance config vm₀) is (m.reg .rdi) way x r) ∧
    (∀ n k x (helper : Helper), env.Reaches (n, m) (k, x) → x.rip = helper.address →
      x.Aligned env.layout) ∧
    ∀ i ∈ is, ∀ ls, template (.ofInstance config vm₀) i = .ok ls → helperCall ∈ ls →
      ∃ front seq rest, ls = front ++ (seq ++ rest) ∧ HelperSequence seq rest ∧ helperCall ∉ front ∧
        helperCall ∉ rest ∧ ∀ n k x, env.Reaches (n, m) (k, x) → env.At i.address x →
          env.Leads (env.Between (.ofInstance config vm₀) is)
            (fun c => env.Through i (front ++ seq) x c.2 ∨
            ∃ way, env.AtExit (.ofInstance config vm₀) is c.2 way) (k, x) := by
  have hfinishes := Program.finishes_of_listing hcompile hlisting
  have hr : env.Ready (.ofInstance config vm₀) is h.vm.block.size := ⟨hfinishes, hseparate⟩
  obtain ⟨base, hbase, -, hentered⟩ := exists_activation hr hrsp hroom hentry
  obtain ⟨o, ho, rfl⟩ := Option.map_eq_some_iff.mp htarget
  -- Whatever the run does, the activation is one that comes back (`Backs`),
  -- for any number of steps.
  have hb : ∀ n, env.Backs (.ofInstance config vm₀) is Instance.Fixed ⟨base, regs, h⟩ n :=
    hr.backs_fixed
  have hstation := (hb 0).station_of_offset ho
  rw [hentered.record]
  refine ⟨?_, ?_, ?_, ?_⟩
  · intro n r hrun
    obtain ⟨⟨k, x⟩, way, hreaches, hleaves⟩ :=
      (hb n).leaves_of_run hentered hstation (Nat.le_refl n) hrun
    exact ⟨hleaves.restored hentered hbase, way, k, x, hreaches, hleaves.exit⟩
  · intro n k x way hreaches hexit
    obtain ⟨s, r, hdeparts⟩ :=
      (hb n).departs_of_reaches hentered hstation (Nat.le_refl n) hreaches hexit
    exact ⟨s, r, hdeparts.goes.reaches, hdeparts.toLeaves.restored hentered hbase, hdeparts.exit⟩
  · intro n k x helper hreaches hrip
    exact (hb n).aligned_of_reaches hentered hstation (Nat.le_refl n) hreaches hrip
  · intro i hi ls htemplate hcall
    obtain ⟨ops, seq, rest, rfl, hseq, hops, hrest⟩ :=
      (shape_template htemplate).exists_helperSequence hcall
    refine ⟨_, seq, rest, rfl, hseq, helperCall_not_mem_ops hops, hrest, ?_⟩
    intro n k x hreaches hat
    obtain ⟨p, hp, hrip⟩ := hat
    obtain ⟨⟨-, rets, -, -, hhome, -⟩, -⟩ :=
      (hb n).atStation_of_offset hentered hstation (Nat.le_refl n) hreaches hp hrip
    exact (hb n).leads_instruction hi htemplate hseq hops hreaches.le ⟨p, hp, hrip⟩ hhome

end Environment

/-- The host gets back what it needs from a function that answers its argument. -/
theorem importEntry_restores_host :
    ∃ (p : Program) (vm vm₁ : Instance) (m r : Machine) (n : Nat),
      Program.ofInstance {} (importInstance 0 #[]) = .ok p ∧
      (importInstance 0 #[]).push 7 = .ok vm ∧
      Environment.Starts ⟨.standard, p⟩ (importEntry 52 vm) vm₁ m ∧
      Environment.run ⟨.standard, p⟩ n m = .ok r ∧
      Environment.Restored ⟨.standard, p⟩ ((importEntry 52 vm).host.setVm vm₁) 6 m r := by
  obtain ⟨p, hp⟩ := exists_importProgram
  obtain ⟨vm, hpush, hsized, hroom, hsize⟩ := push_importInstance
  have hserves := serves_importInstance hp hsize
  have hfinishes := Program.finishes_of_listing hp decodes_importListing
  have hr : Environment.Ready ⟨.standard, p⟩ _ importListing vm.block.size :=
    ⟨hfinishes, hserves.separate⟩
  have hpushed : [7].reverse.foldlM Instance.push (importInstance 0 #[]) = .ok vm :=
    (bind_pure (Instance.push _ 7)).trans hpush
  obtain ⟨m, m₁, vm₁, q, hstarts, hreach, hperforms, -⟩ := hr.performs (c := importEntry 52 vm)
    hsized importFunction rfl rfl rfl hpushed hroom rfl
    (show 8 * (6 + 45) ≤ Layout.standard.stackSize by decide)
  obtain ⟨m₂, hloads, -, -, hback⟩ := hperforms.answers_argument (0 + 1 + Environment.exitSteps)
  obtain ⟨r, hanswers⟩ := hback 0 rfl
  have hrun : Environment.run ⟨.standard, p⟩ importSteps m = .ok r :=
    (Environment.run_eq_of_reaches ((hreach _).trans (hloads.trans hanswers.reaches))).trans
      (Environment.run_of_host hanswers.host)
  obtain ⟨target, htarget, hentry⟩ := hstarts.entered
  have hvm : vm₁.block.size = vm.block.size := hstarts.fixed.size
  obtain ⟨hends, -⟩ := Environment.exits_restore_host hp decodes_importListing
    (by rw [Host.setVm, hvm]; exact hserves.separate) hstarts.rsp hstarts.room htarget hentry
  exact ⟨p, vm, vm₁, m, r, _, hp, hpush, hstarts, hrun, (hends _ _ hrun).1⟩

end PawnNative
