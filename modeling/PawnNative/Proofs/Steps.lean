import Mathlib.Logic.Relation
import Mathlib.Tactic.Common
import PawnNative.Proofs.Outcome
import PawnNative.Run.Activation

/-! # Runs, step by step

    A run goes from one state to the next until the processor reaches the host: by
    an instruction, or by a helper with all that it calls. A state is a machine
    together with the number of steps that it may still take, because a helper
    hands what is left of that number to the calls that it makes.

    To follow a run it is enough to look at some of its states. `Leads` says that
    from a state on, every run that goes on comes to a state of one kind, and that
    all states on the way there are of another kind. When each state of a kind
    leads to such a state again, then these, and the states between them, are all
    that a run reaches.
-/

namespace PawnNative

open Convention

theorem Convention.Helper.ofAddress?_of_eq {helper : Helper} {w : Word} (h : w = helper.address) :
    Helper.ofAddress? w = some helper := by
  rw [h]
  cases helper <;> rfl

namespace Environment

variable (env : Environment)

/-! ## Section 1: Steps -/

/-- One step of a run. -/
inductive Step : Nat × Machine → Nat × Machine → Prop where
  | instr {n : Nat} {m m' : Machine} (hhost : m.rip ≠ env.layout.hostReturn)
      (hcode : Helper.ofAddress? m.rip = none) (h : m.step env.program.readings = .ok m') :
      Step (n + 1, m) (n, m')
  | helper {n : Nat} {m m' : Machine} {helper : Helper} (hhost : m.rip ≠ env.layout.hostReturn)
      (hhelper : Helper.ofAddress? m.rip = some helper)
      (h : env.help (env.callbacks (env.run n) m.regs) helper m = .ok m') :
      Step (n + 1, m) (n, m')

/-- One state is reached from another one. -/
def Reaches : Nat × Machine → Nat × Machine → Prop := Relation.ReflTransGen env.Step

variable {env} {c c' d : Nat × Machine} {m m' : Machine} {n : Nat}

theorem Step.lt (h : env.Step c c') : c'.1 < c.1 := by
  cases h <;> exact Nat.lt_succ_self _

theorem Step.unique (h : env.Step c c') (h' : env.Step c d) : c' = d := by
  cases h with
  | instr _ hcode h =>
    cases h' with
    | instr _ _ h' =>
      rw [h] at h'
      cases h'
      rfl
    | helper _ hhelper _ =>
      rw [hcode] at hhelper
      cases hhelper
  | helper _ hhelper h =>
    cases h' with
    | instr _ hcode _ =>
      rw [hcode] at hhelper
      cases hhelper
    | helper _ hhelper' h' =>
      rw [hhelper] at hhelper'
      cases hhelper'
      rw [h] at h'
      cases h'
      rfl

theorem not_step_zero (m : Machine) (c : Nat × Machine) : ¬env.Step (0, m) c := nofun

theorem not_step_of_host (h : m.rip = env.layout.hostReturn) (c : Nat × Machine) :
    ¬env.Step (n, m) c := by
  intro hstep
  cases hstep with
  | instr hhost _ _ => exact hhost h
  | helper hhost _ _ => exact hhost h

theorem not_step_of_crash (hcode : Helper.ofAddress? m.rip = none) {e : Crash}
    (h : m.step env.program.readings = .error e) (c : Nat × Machine) : ¬env.Step (n, m) c := by
  intro hstep
  cases hstep with
  | instr _ _ hok =>
    rw [h] at hok
    cases hok
  | helper _ hhelper _ =>
    rw [hcode] at hhelper
    cases hhelper

theorem not_step_of_help {helper : Helper} (hhelper : Helper.ofAddress? m.rip = some helper)
    {e : Crash} (h : env.help (env.callbacks (env.run n) m.regs) helper m = .error e)
    (c : Nat × Machine) : ¬env.Step (n + 1, m) c := by
  intro hstep
  cases hstep with
  | instr _ hcode _ =>
    rw [hhelper] at hcode
    cases hcode
  | helper _ hhelper' hok =>
    rw [hhelper] at hhelper'
    cases hhelper'
    rw [h] at hok
    cases hok

/-- **Step.** What a run comes to does not depend on where it is looked at. -/
theorem run_eq_of_step (h : env.Step c c') : env.run c.1 c.2 = env.run c'.1 c'.2 := by
  cases h with
  | instr hhost hcode h =>
    rw [run, if_neg hhost, hcode, h]
    rfl
  | helper hhost hhelper h =>
    rw [run, if_neg hhost, hhelper]
    show (env.help _ _ _ >>= _) = _
    rw [h]
    rfl

/-- **Run.** The same for any number of steps. -/
theorem run_eq_of_reaches (h : env.Reaches c d) : env.run c.1 c.2 = env.run d.1 d.2 := by
  induction h with
  | refl => rfl
  | tail _ hstep ih => rw [ih, run_eq_of_step hstep]

theorem run_of_host (h : m.rip = env.layout.hostReturn) : env.run (n + 1) m = .ok m := by
  rw [run, if_pos h]

/-- A run that comes to an end does so at the host. -/
theorem reaches_of_run {r : Machine} (h : env.run n m = .ok r) :
    r.rip = env.layout.hostReturn ∧ ∃ k, env.Reaches (n, m) (k + 1, r) := by
  induction n generalizing m with
  | zero => cases h
  | succ n ih =>
    unfold run at h
    split_ifs at h with hhost
    · cases h
      exact ⟨hhost, n, .refl⟩
    · split at h
      · next helper hhelper =>
        obtain ⟨m₁, hhelp, h⟩ := bind_eq_ok.mp h
        obtain ⟨hrip, k, hreaches⟩ := ih h
        exact ⟨hrip, k, .head (.helper hhost hhelper hhelp) hreaches⟩
      · next hcode =>
        obtain ⟨m₁, hstep, h⟩ := bind_eq_ok.mp h
        obtain ⟨hrip, k, hreaches⟩ := ih h
        exact ⟨hrip, k, .head (.instr hhost hcode hstep) hreaches⟩

theorem Reaches.eq_of_stuck (h : env.Reaches c d) (hstuck : ∀ c', ¬env.Step c c') : d = c := by
  rcases Relation.ReflTransGen.cases_head h with rfl | ⟨c₁, hstep, -⟩
  · rfl
  · exact absurd hstep (hstuck c₁)

/-! ## Section 2: Where runs lead -/

/-- From a state on, a run that goes on comes to a state that satisfies `Q`, through machines that
    satisfy `P`. -/
inductive Leads (env : Environment) (P : Machine → Prop) (Q : Nat × Machine → Prop) :
    Nat × Machine → Prop where
  | stuck {c : Nat × Machine} (h : ∀ c', ¬env.Step c c') : Leads env P Q c
  | arrive {c c' : Nat × Machine} (hstep : env.Step c c') (hc : Q c') : Leads env P Q c
  | pass {c c' : Nat × Machine} (hstep : env.Step c c') (hc : P c'.2) (hrest : Leads env P Q c') :
      Leads env P Q c

/-- A state that is of the one kind, or of the other kind and leads to such a state. -/
def Arrives (env : Environment) (P : Machine → Prop) (Q : Nat × Machine → Prop)
    (c : Nat × Machine) : Prop :=
  Q c ∨ P c.2 ∧ env.Leads P Q c

variable {P : Machine → Prop} {Q Q' : Nat × Machine → Prop}

theorem Leads.of_step (hstep : env.Step c c') (h : env.Arrives P Q c') : env.Leads P Q c := by
  rcases h with hQ | ⟨hP, hrest⟩
  · exact .arrive hstep hQ
  · exact .pass hstep hP hrest

/-- A machine comes to another one by one instruction. -/
structure Moves (env : Environment) (m m' : Machine) : Prop where
  host : m.rip ≠ env.layout.hostReturn
  code : Helper.ofAddress? m.rip = none
  step : m.step env.program.readings = .ok m'

theorem Moves.toStep (h : env.Moves m m') (n : Nat) : env.Step (n + 1, m) (n, m') :=
  .instr h.host h.code h.step

/-- A machine comes to another one by a number of instructions, through machines that satisfy
    `P`. -/
inductive Goes (env : Environment) (P : Machine → Prop) : Nat → Machine → Machine → Prop where
  | one {m m' : Machine} (h : env.Moves m m') : Goes env P 1 m m'
  | next {k : Nat} {m m' m'' : Machine} (h : env.Moves m m') (hP : P m')
      (hrest : Goes env P k m' m'') : Goes env P (k + 1) m m''

theorem Goes.trans {k k' : Nat} {m'' : Machine} (h : env.Goes P k m m') (hP : P m')
    (h' : env.Goes P k' m' m'') : env.Goes P (k' + k) m m'' := by
  induction h with
  | one h => exact .next h hP h'
  | next h hP' _ ih => exact .next h hP' (ih hP h')

theorem Goes.reaches {k : Nat} (h : env.Goes P k m m') (n : Nat) :
    env.Reaches (n + k, m) (n, m') := by
  induction h with
  | one h => exact .single (h.toStep n)
  | next h _ _ ih => exact .head (h.toStep _) ih

/-- Whatever the number of steps that are left, a run either gets that far or ends on the way. -/
theorem Goes.leads {k : Nat} (h : env.Goes P k m m') (h' : ∀ n', n = n' + k →
    env.Arrives P Q (n', m')) : env.Leads P Q (n, m) := by
  induction h generalizing n with
  | one h =>
    cases n with
    | zero => exact .stuck (not_step_zero _)
    | succ n => exact .of_step (h.toStep n) (h' n rfl)
  | next h hP _ ih =>
    cases n with
    | zero => exact .stuck (not_step_zero _)
    | succ n => exact .pass (h.toStep n) hP (ih fun n' hn => h' n' (congrArg Nat.succ hn))

/-- Where states of one kind lead on to states of another kind, a run that comes to the one
    kind comes to the other one. -/
theorem Leads.bind (h : env.Leads P Q c) (h' : ∀ c', env.Reaches c c' → Q c' →
    env.Arrives P Q' c') : env.Leads P Q' c := by
  induction h with
  | stuck h => exact .stuck h
  | arrive hstep hc => exact .of_step hstep (h' _ (.single hstep) hc)
  | pass hstep hc _ ih => exact .pass hstep hc (ih fun c' hc' => h' c' (.head hstep hc'))

/-- What a run reaches is where it is, on the way, or beyond the state that it comes to. -/
theorem Leads.cases_reaches (h : env.Leads P Q c) (hd : env.Reaches c d) :
    d = c ∨ P d.2 ∨ ∃ c', Q c' ∧ c'.1 < c.1 ∧ env.Reaches c c' ∧ env.Reaches c' d := by
  induction h with
  | stuck h => exact Or.inl (hd.eq_of_stuck h)
  | arrive hstep hc =>
    rcases Relation.ReflTransGen.cases_head hd with rfl | ⟨c₁, hstep₁, hrest⟩
    · exact Or.inl rfl
    · obtain rfl := hstep.unique hstep₁
      exact Or.inr (Or.inr ⟨_, hc, hstep.lt, .single hstep, hrest⟩)
  | pass hstep hc _ ih =>
    rcases Relation.ReflTransGen.cases_head hd with rfl | ⟨c₁, hstep₁, hrest⟩
    · exact Or.inl rfl
    · obtain rfl := hstep.unique hstep₁
      rcases ih hrest with rfl | hP | ⟨c', hQ, hlt, hto, hrest⟩
      · exact Or.inr (Or.inl hc)
      · exact Or.inr (Or.inl hP)
      · exact Or.inr (Or.inr ⟨c', hQ, Nat.lt_trans hlt hstep.lt, .head hstep hto, hrest⟩)

/-- **Run.** When every state of a kind leads to one of the same kind or to one where it is over,
    then before it is over a run reaches no other states than these and those on the way. The
    induction is on the number of steps that are left. -/
theorem reaches_cases {I : Nat × Machine → Prop} {F : Nat × Machine → Nat × Machine → Prop}
    {bound : Nat}
    (hI : ∀ c, c.1 < bound → I c → env.Leads P (fun c' => I c' ∨ F c c') c) (hbound : c.1 < bound)
    (h : I c) (hd : env.Reaches c d) :
    I d ∨ P d.2 ∨ ∃ b e, env.Reaches c b ∧ env.Reaches b e ∧ F b e ∧ env.Reaches e d := by
  obtain ⟨n, m⟩ := c
  induction n using Nat.strongRecOn generalizing m with
  | ind n ih =>
    rcases (hI (n, m) hbound h).cases_reaches hd with rfl | hP | ⟨⟨n', m'⟩, hc', hlt, hto, hrest⟩
    · exact Or.inl h
    · exact Or.inr (Or.inl hP)
    · rcases hc' with hI' | hF'
      · rcases ih n' hlt m' (Nat.lt_trans hlt hbound) hI' hrest with hd' | hP |
          ⟨b, e, hb, hbe, hF, hlast⟩
        · exact Or.inl hd'
        · exact Or.inr (Or.inl hP)
        · exact Or.inr (Or.inr ⟨b, e, hto.trans hb, hbe, hF, hlast⟩)
      · exact Or.inr (Or.inr ⟨(n, m), _, .refl, hto, hF', hrest⟩)

end Environment

end PawnNative
