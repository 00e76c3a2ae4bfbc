import Mathlib.Tactic.Common
import PawnNative.Proofs.Nesting

/-! # The code of one instruction

    The code of an instruction of the bytecode has one way in and several ways out:
    its end, where the code of the next instruction starts, and the targets of its
    branches. `Comes` says by which way a machine leaves some lines, wherever the
    lines stand, and in which state; there is one rule for each kind of line.

    `Environment.AtInstruction` puts this into a run: the machine is in an activation
    of compiled code, at the code of an instruction, and nothing is said about what
    the instruction works on. From there the run advances to the next instruction, or
    it halts, and the host gets a fault.
-/

namespace PawnNative

open X64 Convention

/-! ## Section 1: What every instruction keeps -/

namespace Machine

variable {m m' m'' : Machine} {ws : List Reg}

theorem Becomes.jumpTo {h : Host} (hm : Becomes ws h m m') (a : Word) :
    Becomes ws h m (m'.jumpTo a) :=
  ⟨hm.layout, hm.regs, hm.host⟩

theorem Becomes.follow (h : Becomes ws m.host m m') (h' : Becomes ws m'.host m' m'') :
    Becomes ws m.host m m'' := by
  rw [h.host] at h'
  exact h.trans h'

/-- What every instruction keeps: where the regions lie, and that string operations run upwards. -/
structure Upright (m m' : Machine) : Prop where
  layout : m'.layout = m.layout
  down : m.down = false → m'.down = false

namespace Upright

theorem refl (m : Machine) : Upright m m := ⟨rfl, id⟩

theorem trans (h : Upright m m') (h' : Upright m' m'') : Upright m m'' :=
  ⟨h'.layout.trans h.layout, fun hm => h'.down (h.down hm)⟩

theorem setReg32 (h : Upright m m') (r : Reg) (v : Cell) : Upright m (m'.setReg32 r v) :=
  ⟨h.layout, h.down⟩

theorem setFlags (h : Upright m m') (f : Flags) : Upright m (m'.setFlags f) := ⟨h.layout, h.down⟩

end Upright

theorem upright_stored {a : Word} {x : Option Host}
    (h : (reached a x >>= fun h => .ok (m.setHost h)) = .ok m') : Upright m m' := by
  obtain ⟨host, -, rfl⟩ := stored_eq_ok.mp h
  exact ⟨rfl, id⟩

theorem upright_push {v : Word} (h : m.push v = .ok m') : Upright m m' := by
  obtain ⟨layout, down⟩ := upright_stored (m := m.setReg .rsp (m.reg .rsp - 8)) h
  exact ⟨layout, down⟩

theorem upright_pop {v : Word} (h : m.pop = .ok (v, m')) : Upright m m' := by
  obtain ⟨w, -, heq⟩ := bind_eq_ok.mp h
  cases heq
  exact ⟨rfl, id⟩

theorem Rounds.upright {n : Nat} (h : Rounds ws n m m') : Upright m m' := by
  induction h with
  | stop => exact .refl _
  | round h _ ih => exact .trans ⟨h.layout, h.down.trans⟩ ih

/-- **Step.** No instruction moves a region or turns the direction of string operations. -/
theorem upright_exec {i : Instr} (h : m.exec i = .ok m') : Upright m m' := by
  cases i with
  -- Stores.
  | store s o src =>
    cases s <;> obtain ⟨a, -, h⟩ := bind_eq_ok.mp h <;> exact upright_stored h
  | storeImm o _ | store16 o _ | store8 o _ =>
    obtain ⟨a, -, h⟩ := bind_eq_ok.mp h
    exact upright_stored h
  | aluMI op o imm =>
    obtain ⟨a, -, h⟩ := bind_eq_ok.mp h
    obtain ⟨v, -, h⟩ := bind_eq_ok.mp h
    split_ifs at h with hop
    · obtain ⟨host, -, rfl⟩ := store32_eq_ok.mp h
      exact ⟨rfl, id⟩
    · cases h
      exact ⟨rfl, id⟩
  | incM o | decM o =>
    obtain ⟨a, -, h⟩ := bind_eq_ok.mp h
    obtain ⟨v, -, h⟩ := bind_eq_ok.mp h
    obtain ⟨host, -, rfl⟩ := store32_eq_ok.mp h
    exact ⟨rfl, id⟩
  | push r => exact upright_push h
  | call d | callR d =>
    obtain ⟨m₁, hpush, h⟩ := bind_eq_ok.mp h
    cases h
    exact (upright_push hpush).trans ⟨rfl, id⟩
  | pop r | ret =>
    obtain ⟨⟨v, m₁⟩, hpop, h⟩ := bind_eq_ok.mp h
    cases h
    exact (upright_pop hpop).trans ⟨rfl, id⟩
  | repMovsb => exact (rounds_moveBytes _ h).upright
  | repStosd => exact (rounds_storeCells _ h).upright
  | repeCmpsb => exact (rounds_compareBytes _ h).upright
  -- Loads.
  | load s dst src =>
    cases s <;> obtain ⟨a, -, h⟩ := bind_eq_ok.mp h <;> obtain ⟨v, -, h⟩ :=
      bind_eq_ok.mp h <;> cases h <;> exact ⟨rfl, id⟩
  | loadByte | loadHalf | movss | float =>
    obtain ⟨a, -, h⟩ := bind_eq_ok.mp h
    obtain ⟨v, -, h⟩ := bind_eq_ok.mp h
    cases h
    exact ⟨rfl, id⟩
  | aluRM op dst src =>
    obtain ⟨a, -, h⟩ := bind_eq_ok.mp h
    obtain ⟨v, -, h⟩ := bind_eq_ok.mp h
    cases op <;> cases h <;> exact ⟨rfl, id⟩
  -- Registers, flags and branches.
  | setcc | jcc =>
    obtain ⟨b, -, h⟩ := bind_eq_ok.mp h
    cases b <;> cases h <;> exact ⟨rfl, id⟩
  | idiv | div =>
    obtain ⟨-, h⟩ := ite_error_eq_ok.mp h
    cases h
    exact (((Upright.refl m).setFlags _).setReg32 _ _).setReg32 _ _
  | aluRR op s | aluRI op s => cases s <;> cases op <;> cases h <;> exact ⟨rfl, id⟩
  | movRR s | lea s | test s => cases s <;> cases h <;> exact ⟨rfl, id⟩
  | cld =>
    cases h
    exact ⟨rfl, fun _ => rfl⟩
  | int3 => cases h
  | neg | imulRR | imulRRI | shiftCl | shiftImm =>
    cases h
    exact ((Upright.refl m).setFlags _).setReg32 _ _
  | cdq | not | movdRX | movsxByte =>
    cases h
    exact (Upright.refl m).setReg32 _ _
  | movRI64 | movRI32 | movzxByte | movsxd | xchg | jmp | jmpR | movdXR =>
    cases h
    exact ⟨rfl, id⟩

/-! ### Instructions wherever they stand -/

section
variable (m : Machine) (a b : Word)

theorem store8_jumpTo (v : Byte) :
    (m.jumpTo a).store8 b v = (m.store8 b v).map fun m => m.jumpTo a :=
  m.stored_jumpTo a b _

theorem store16_jumpTo (v : Half) :
    (m.jumpTo a).store16 b v = (m.store16 b v).map fun m => m.jumpTo a :=
  m.stored_jumpTo a b _

theorem moveBytes_jumpTo (n : Nat) :
    moveBytes n (m.jumpTo a) = (moveBytes n m).map fun m => m.jumpTo a := by
  induction n generalizing m with
  | zero => rfl
  | succ n ih =>
    show (m.load8 (m.reg .rsi) >>= fun v => (m.jumpTo a).store8 (m.reg .rdi) v >>= _) =
      Except.map _ (m.load8 (m.reg .rsi) >>= fun v => m.store8 (m.reg .rdi) v >>= _)
    cases m.load8 (m.reg .rsi) with
    | error e => rfl
    | ok v =>
      rw [ok_bind, ok_bind, store8_jumpTo]
      cases m.store8 (m.reg .rdi) v with
      | error e => rfl
      | ok m₁ => exact ih (((m₁.setReg .rsi _).setReg .rdi _).setReg .rcx _)

theorem storeCells_jumpTo (n : Nat) :
    storeCells n (m.jumpTo a) = (storeCells n m).map fun m => m.jumpTo a := by
  induction n generalizing m with
  | zero => rfl
  | succ n ih =>
    show (m.operand { base := .rdi } >>= fun x => (m.jumpTo a).store32 x (m.reg32 .rax) >>= _) =
      Except.map _ (m.operand { base := .rdi } >>= fun x => m.store32 x (m.reg32 .rax) >>= _)
    cases m.operand { base := .rdi } with
    | error e => rfl
    | ok x =>
      rw [ok_bind, ok_bind, store32_jumpTo]
      cases m.store32 x (m.reg32 .rax) with
      | error e => rfl
      | ok m₁ => exact ih ((m₁.setReg .rdi _).setReg .rcx _)

theorem compareBytes_jumpTo (n : Nat) :
    compareBytes n (m.jumpTo a) = (compareBytes n m).map fun m => m.jumpTo a := by
  induction n generalizing m with
  | zero => rfl
  | succ n ih =>
    show (m.load8 (m.reg .rsi) >>= fun x => m.load8 (m.reg .rdi) >>= _) =
      Except.map _ (m.load8 (m.reg .rsi) >>= fun x => m.load8 (m.reg .rdi) >>= _)
    cases m.load8 (m.reg .rsi) with
    | error e => rfl
    | ok x =>
      rw [ok_bind, ok_bind]
      cases m.load8 (m.reg .rdi) with
      | error e => rfl
      | ok y =>
        rw [ok_bind, ok_bind]
        by_cases heq : x = y
        · rw [if_pos heq, if_pos heq]
          exact ih ((((m.setFlags _).setReg .rsi _).setReg .rdi _).setReg .rcx _)
        · rw [if_neg heq, if_neg heq]
          rfl

theorem divide_jumpTo (y : Cell) :
    (m.jumpTo a).divide y = (m.divide y).map fun m => m.jumpTo a := by
  obtain ⟨x, hx⟩ : ∃ x, x = (m.reg32 .rdx).toNat * 0x100000000 + (m.reg32 .rax).toNat := ⟨_, rfl⟩
  have hx' : x = ((m.jumpTo a).reg32 .rdx).toNat * 0x100000000 + ((m.jumpTo a).reg32 .rax).toNat :=
    hx
  unfold divide
  simp only [← hx, ← hx']
  split_ifs <;> rfl

theorem divideSigned_jumpTo (y : Cell) :
    (m.jumpTo a).divideSigned y = (m.divideSigned y).map fun m => m.jumpTo a := by
  obtain ⟨x, hx⟩ : ∃ x, x = (m.reg32 .rdx ++ m.reg32 .rax : BitVec 64).toInt := ⟨_, rfl⟩
  have hx' : x = ((m.jumpTo a).reg32 .rdx ++ (m.jumpTo a).reg32 .rax : BitVec 64).toInt := hx
  unfold divideSigned
  simp only [← hx, ← hx']
  split_ifs <;> rfl

/-- **Step.** An instruction that goes on with the next one does the same wherever it stands. -/
theorem exec_jumpTo_of_goesOn {i : Instr} (hi : i.goesOn) :
    (m.jumpTo a).exec i = (m.exec i).map fun m => m.jumpTo a := by
  by_cases hplain : i.isPlain
  · exact exec_jumpTo m a hplain
  cases i with
  | loadByte dst src =>
    refine m.bind_operand_jumpTo a fun x => ?_
    show (m.load8 x >>= _) = Except.map _ (m.load8 x >>= _)
    cases m.load8 x <;> rfl
  | loadHalf dst src =>
    refine m.bind_operand_jumpTo a fun x => ?_
    show (m.load16 x >>= _) = Except.map _ (m.load16 x >>= _)
    cases m.load16 x <;> rfl
  | aluRM op dst src =>
    refine m.bind_operand_jumpTo a fun x => ?_
    show (m.load32 x >>= _) = Except.map _ (m.load32 x >>= _)
    cases m.load32 x with
    | error e => rfl
    | ok v => cases op <;> rfl
  | store16 dst src =>
    exact m.bind_operand_jumpTo a fun x => m.store16_jumpTo a x ((m.reg src).setWidth 16)
  | store8 dst src =>
    exact m.bind_operand_jumpTo a fun x => m.store8_jumpTo a x ((m.reg src).setWidth 8)
  | repMovsb => exact m.moveBytes_jumpTo a _
  | repStosd => exact m.storeCells_jumpTo a _
  | repeCmpsb => exact m.compareBytes_jumpTo a _
  | idiv r => exact m.divideSigned_jumpTo a (m.reg32 r)
  | div r => exact m.divide_jumpTo a (m.reg32 r)
  | movsxd | cdq | cld | movdXR => rfl
  | jmp | jcc | call | jmpR | callR | ret | int3 => cases hi
  | _ => exact absurd rfl hplain

end

end Machine

/-! ## Section 2: Ways out of lines -/

/-- The offset of a way out of lines: where they stop, or where the target of a branch is. -/
def exitOffset? (find : Target → Option Nat) (stop : Nat) : Option Target → Option Nat
  | none => some stop
  | some t => find t

/-- Wherever the lines stand, a machine at their start comes to this way out, in a state with this
    property. -/
def Comes (ls : List Line) (m : Machine) (exit : Option Target) (goal : Machine → Prop) : Prop :=
  ∀ (code : Block) (find : Target → Option Nat) (o : Nat), code.size < 0x10000000000000000 →
    code.Holds find o ls →
    ∃ m' dest, goal m' ∧ exitOffset? find (o + linesSize ls) exit = some dest ∧
      Machine.Runs code (m.atOffset o) (m'.atOffset dest)

namespace Comes

variable {xs ls : List Line} {l : Line} {m m' : Machine} {exit : Option Target}
  {goal goal' : Machine → Prop} {i : Instr} {c : Cond} {t : Target}

theorem nil (h : goal m) : Comes [] m none goal := by
  intro code find o _ _
  exact ⟨m, o, h, rfl, .refl⟩

/-- **Step.** A line that leads on to the next one. -/
theorem step (hstep : ∀ (code : Block) (find : Target → Option Nat) (o : Nat),
      code.size < 0x10000000000000000 → l.Stands code find o →
      Machine.Runs code (m.atOffset o) (m'.atOffset (o + l.size)))
    (hrest : Comes ls m' exit goal) : Comes (l :: ls) m exit goal := by
  intro code find o hsize hholds
  obtain ⟨hline, hholds⟩ := hholds
  obtain ⟨m'', dest, hgoal, hdest, hruns⟩ := hrest code find _ hsize hholds
  have hsum : o + l.size + linesSize ls = o + linesSize (l :: ls) := Nat.add_assoc ..
  rw [hsum] at hdest
  exact ⟨m'', dest, hgoal, hdest, (hstep code find o hsize hline).trans hruns⟩

theorem op (hexec : ∀ a, (m.jumpTo a).exec i = .ok (m'.jumpTo a)) (hlayout : m'.layout = m.layout)
    (hrest : Comes ls m' exit goal) : Comes (.op i :: ls) m exit goal := by
  refine step ?_ hrest
  intro code find o hsize hread
  apply Relation.ReflTransGen.single
  rw [Machine.step_at hread hsize, Machine.atOffset, hexec, Machine.atOffset, hlayout]
  rfl

theorem instr (hi : i.goesOn) (hexec : m.exec i = .ok m') (hrest : Comes ls m' exit goal) :
    Comes (.op i :: ls) m exit goal := by
  refine op (fun a => ?_) (Machine.upright_exec hexec).layout hrest
  rw [Machine.exec_jumpTo_of_goesOn m a hi, hexec]
  rfl

theorem place (hrest : Comes ls m exit goal) : Comes (.place t :: ls) m exit goal :=
  step (fun _ _ _ _ _ => .refl) hrest

theorem pass (hc : c.holds m.flags = some false) (hrest : Comes ls m exit goal) :
    Comes (.jcc c t :: ls) m exit goal := by
  refine step ?_ hrest
  rintro code find o hsize ⟨d, dest, hread, -, hsum⟩
  have hstep := Machine.step_jcc hread hsum hsize hc
  rw [if_neg Bool.false_ne_true] at hstep
  exact .single hstep

theorem taken (hc : c.holds m.flags = some true) (h : goal m) :
    Comes (.jcc c t :: ls) m (some t) goal := by
  rintro code find o hsize ⟨⟨d, dest, hread, hfind, hsum⟩, -⟩
  have hstep := Machine.step_jcc hread hsum hsize hc
  rw [if_pos rfl] at hstep
  exact ⟨m, dest, h, hfind, .single hstep⟩

theorem jmp (h : goal m) : Comes (.jmp t :: ls) m (some t) goal := by
  rintro code find o hsize ⟨⟨d, dest, hread, hfind, hsum⟩, -⟩
  refine ⟨m, dest, h, hfind, .single ?_⟩
  rw [Machine.step_at hread hsize]
  exact congrArg Except.ok (m.jump_atOffset (by exact_mod_cast hsum))

theorem forward (hl : ∀ goal, goal m → ∀ ls, Comes (l :: ls) m (some t) goal)
    (hrest : Comes ls m exit goal) : Comes (l :: (xs ++ .place t :: ls)) m exit goal := by
  intro code find o hsize hholds
  obtain ⟨m₁, dest₁, rfl, hfind, hruns₁⟩ :=
    hl (· = m) rfl (xs ++ .place t :: ls) code find o hsize hholds
  obtain ⟨-, hlast⟩ := hholds
  obtain ⟨hplace, hlast⟩ := (Block.holds_append.mp hlast).2
  obtain rfl : dest₁ = o + l.size + linesSize xs := Option.some_inj.mp (hfind.symm.trans hplace)
  obtain ⟨m₂, dest₂, hgoal, hdest, hruns₂⟩ := hrest code find _ hsize hlast
  have hsum : o + l.size + linesSize xs + linesSize ls =
      o + linesSize (l :: (xs ++ .place t :: ls)) := by
    show _ = o + (l.size + linesSize (xs ++ .place t :: ls))
    rw [linesSize_append]
    show _ = o + (l.size + (linesSize xs + (0 + linesSize ls)))
    omega
  rw [show o + l.size + linesSize xs + Line.size (.place t) = o + l.size + linesSize
      xs from rfl] at hdest
  rw [hsum] at hdest
  exact ⟨m₂, dest₂, hgoal, hdest, hruns₁.trans hruns₂⟩

theorem forward_jcc (xs : List Line) (hc : c.holds m.flags = some true)
    (hrest : Comes ls m exit goal) : Comes (.jcc c t :: (xs ++ .place t :: ls)) m exit goal :=
  forward (fun _ hgoal _ => taken hc hgoal) hrest

theorem forward_jmp (xs : List Line) (hrest : Comes ls m exit goal) :
    Comes (.jmp t :: (xs ++ .place t :: ls)) m exit goal :=
  forward (fun _ hgoal _ => jmp hgoal) hrest

theorem either {p : Prop} [Decidable p] (hc : c.holds m.flags = some (decide p)) (h : goal m)
    (hrest : Comes ls m exit goal) :
      Comes (.jcc c t :: ls) m (if p then some t else exit) goal := by
  by_cases hp : p
  · rw [if_pos hp]
    exact taken (hc.trans (congrArg some (decide_eq_true hp))) h
  · rw [if_neg hp]
    exact pass (hc.trans (congrArg some (decide_eq_false hp))) hrest

theorem mono (h : Comes ls m exit goal) (hgoal : ∀ m', goal m' → goal' m') :
    Comes ls m exit goal' := by
  intro code find o hsize hholds
  obtain ⟨m', dest, hm', hdest, hruns⟩ := h code find o hsize hholds
  exact ⟨m', dest, hgoal m' hm', hdest, hruns⟩

theorem append (h : Comes xs m none goal) (hrest : ∀ m', goal m' → Comes ls m' exit goal') :
    Comes (xs ++ ls) m exit goal' := by
  intro code find o hsize hholds
  obtain ⟨hfirst, hlast⟩ := Block.holds_append.mp hholds
  obtain ⟨m₁, dest₁, hm₁, hdest₁, hruns₁⟩ := h code find o hsize hfirst
  obtain rfl : o + linesSize xs = dest₁ := Option.some_inj.mp hdest₁
  obtain ⟨m₂, dest₂, hm₂, hdest₂, hruns₂⟩ := hrest m₁ hm₁ code find _ hsize hlast
  rw [Nat.add_assoc, ← linesSize_append] at hdest₂
  exact ⟨m₂, dest₂, hm₂, hdest₂, hruns₁.trans hruns₂⟩

theorem lines (hsteps : xs.all Line.isStep) (hexec : Machine.execLines xs m = .ok m')
    (hrest : Comes ls m' exit goal) : Comes (xs ++ ls) m exit goal := by
  induction xs generalizing m with
  | nil =>
    cases hexec
    exact hrest
  | cons l xs ih =>
    rw [List.all_cons, Bool.and_eq_true_iff] at hsteps
    obtain ⟨hl, hsteps⟩ := hsteps
    cases l with
    | op i =>
      obtain ⟨m₁, hexec₁, hexec⟩ := bind_eq_ok.mp hexec
      refine op (fun a => ?_) (Machine.upright_exec hexec₁).layout (ih hsteps hexec)
      rw [Machine.exec_jumpTo m a hl, hexec₁]
      rfl
    | _ => cases hl

theorem branch (h : Comes xs m (some t) goal) (ls : List Line) :
    Comes (xs ++ ls) m (some t) goal := by
  intro code find o hsize hholds
  exact h code find o hsize (Block.holds_append.mp hholds).1

end Comes

/-! ## Section 3: Code that runs in an environment -/

namespace Environment

variable {env : Environment} {ctx : Context} {is : List Instruction} {size : Nat} {m m' : Machine}

/-- Code of the program that runs is code that a run executes. -/
theorem Ready.moves_of_step (hr : env.Ready ctx is size) (hlayout : m.layout = env.layout)
    (hstep : m.step env.program.code.readings = .ok m') : env.Moves m m' := by
  obtain ⟨⟨i, next⟩, hfetch, -⟩ := bind_eq_ok.mp hstep
  obtain ⟨o, ho⟩ : ∃ o, o = m.rip.above m.layout.code := ⟨_, rfl⟩
  have hrip : m.rip = env.layout.code + BitVec.ofNat 64 o := by
    rw [ho, Word.above_eq, BitVec.ofNat_toNat, BitVec.setWidth_eq, ← hlayout, BitVec.add_comm,
      BitVec.sub_add_cancel]
  have hle : o ≤ env.program.code.size := by
    by_contra hout
    rw [Machine.fetch, ← ho, Block.get?_readings,
      Block.readAt_of_size_le (Nat.le_of_lt (Nat.not_le.mp hout))] at hfetch
    cases hfetch
  refine ⟨?_, ?_, ?_⟩
  · rw [hrip]
    exact hr.code_ne_host hle
  · rw [hrip]
    exact hr.ofAddress?_code hle
  · rw [env.program.readings_eq]
    exact hstep

/-- **Run.** So what code comes to, a run comes to, however many steps are left. -/
theorem Ready.reaches_of_runs (hr : env.Ready ctx is size) (hlayout : m.layout = env.layout)
    (h : Machine.Runs env.program.code m m') : ∃ k, ∀ n, env.Reaches (n + k, m) (n, m') := by
  induction h using Relation.ReflTransGen.head_induction_on with
  | refl => exact ⟨0, fun n => .refl⟩
  | head hstep _ ih =>
    obtain ⟨⟨i, next⟩, -, hexec⟩ := bind_eq_ok.mp hstep
    obtain ⟨k, hreaches⟩ := ih ((Machine.upright_exec hexec).layout.trans hlayout)
    have hmoves := hr.moves_of_step hlayout hstep
    exact ⟨k + 1, fun n => .head (hmoves.toStep (n + k)) (hreaches n)⟩

/-- Helpers move no region and do not turn the direction of string operations either. -/
theorem upright_helperReturn {w : Word} (h : env.helperReturn m w = .ok m') : m.Upright m' := by
  obtain ⟨⟨rip, m₁⟩, hpop, h⟩ := bind_eq_ok.mp h
  cases h
  have hupright := Machine.upright_pop hpop
  exact ⟨hupright.layout, hupright.down⟩

theorem upright_help {k : Callbacks} {helper : Helper} (h : env.help k helper m = .ok m') :
    m.Upright m' := by
  obtain ⟨-, h⟩ := ite_error_eq_ok.mp h
  cases helper with
  | callNative =>
    obtain ⟨⟨result, host⟩, -, h⟩ := bind_eq_ok.mp h
    have hhost : m.Upright (m.setHost host) := ⟨rfl, id⟩
    cases result with
    | ok value => exact hhost.trans (upright_helperReturn h)
    | error f =>
      obtain ⟨m₁, hnote, h⟩ := bind_eq_ok.mp h
      exact (hhost.trans (Machine.upright_stored hnote)).trans (upright_helperReturn h)
  | findCode =>
    have h : env.helpFind m = .ok m' := h
    unfold helpFind at h
    split at h
    · exact upright_helperReturn h
    · obtain ⟨m₁, hnote, h⟩ := bind_eq_ok.mp h
      exact (Machine.upright_stored hnote).trans (upright_helperReturn h)
  | floatLog =>
    obtain ⟨m₁, hreturn, h⟩ := bind_eq_ok.mp h
    cases h
    have hupright := upright_helperReturn hreturn
    exact ⟨hupright.layout, hupright.down⟩

theorem down_help {k : Callbacks} {helper : Helper} (h : env.help k helper m = .ok m')
    (hm : m.down = false) : m'.down = false :=
  (upright_help h).down hm

/-- **Run.** The regions stay where they are, and string operations run upwards all along. -/
theorem Reaches.upright {c d : Nat × Machine} (h : env.Reaches c d) : c.2.Upright d.2 := by
  induction h with
  | refl => exact .refl _
  | tail _ hstep ih =>
    cases hstep with
    | instr _ _ hstep =>
      obtain ⟨⟨i, next⟩, -, hexec⟩ := bind_eq_ok.mp hstep
      have hupright := Machine.upright_exec hexec
      exact ih.trans ⟨hupright.layout, hupright.down⟩
    | helper _ _ hhelp => exact ih.trans (upright_help hhelp)

theorem Reaches.down {c d : Nat × Machine} (h : env.Reaches c d) (hc : c.2.down = false) :
    d.2.down = false :=
  h.upright.down hc

end Environment

/-! ## Section 4: Instructions in a run -/

theorem Program.Finishes.linesFrom_fault {p : Program} {ctx : Context} {is : List Instruction}
    (h : p.Finishes ctx is) {f : Fault} {o : Nat}
    (hf : (Plan.ofProgram ctx is).placed (.stub (.fault f)) = some o) :
    ∃ rest, LinesFrom ctx is o (faultLines f ++ rest) := by
  obtain ⟨before, after, hsplit, rfl⟩ := h.exists_faultPart hf
  exact ⟨_, linesFrom_of_part [] hsplit rfl⟩

namespace Environment

/-- A machine is at the code of the instruction `i`, which `after` follows in the listing, in an
    activation of the program of a loaded image. Nothing is said about the computing registers, the
    stack and the frame, or about memory. -/
structure AtInstruction (env : Environment) (config : Config) (vm₀ : Instance) (a : Activation)
    (rets : List Word) (i : Instruction) (after : List Instruction) (m : Machine) : Prop where
  loaded : ∃ image, Instance.load image = .ok vm₀
  compiled : Program.ofInstance config vm₀ = .ok env.program
  listing : ∃ before, Decodes vm₀.code 0 (before ++ i :: after) none
  separate : env.layout.Separate a.host.vm.block.size env.program.code.size
  home : m.Home env Instance.Fixed a rets
  here : env.At i.address m
  /-- String operations run upwards. -/
  upwards : m.down = false

/-- A run advances to the instruction after the one it is at, however many steps are left. -/
structure Advances (env : Environment) (after : List Instruction) (m m' : Machine) : Prop where
  reaches : ∃ k, ∀ n, env.Reaches (n + k, m) (n, m')
  next : ∀ j ∈ after.head?, env.At j.address m'

/-- A run halts with a fault, however many steps are left: it leaves the activation, and of the
    instance only stack and frame in the register file have changed. -/
def Halts (env : Environment) (a : Activation) (f : Fault) (m : Machine) : Prop :=
  ∃ (k : Nat) (r : Machine), (∀ n, env.Reaches (n + k, m) (n, r)) ∧
    r.Returned env Instance.Fixed a ∧ r.reg32 .rax = f.code ∧ r.host.vm = m.leftHost.vm

/-- A run comes to the machine `m'`, and there it halts with a fault, however many steps are
    left: it leaves the activation, and of the instance that the machine has only stack and
    frame in the register file change. -/
structure HaltsFrom (env : Environment) (a : Activation) (f : Fault) (m m' : Machine) : Prop where
  reaches : ∃ k, ∀ n, env.Reaches (n + k, m) (n, m')
  leaves : ∃ (k : Nat) (r : Machine), (∀ n, env.Reaches (n + k, m') (n, r)) ∧
    r.Returned env Instance.Fixed a ∧ r.reg32 .rax = f.code ∧ r.host.vm = m'.leftHost.vm

variable {env : Environment} {config : Config} {vm₀ : Instance} {a : Activation} {rets : List Word}
  {i : Instruction} {after : List Instruction} {m m' : Machine}

theorem Executes.atInstruction {c : Invocation} {start left : Nat}
    (h : env.Executes config vm₀ c start i after left m) :
    ∃ a rets, env.AtInstruction config vm₀ a rets i after m := by
  obtain ⟨before, hlisting⟩ := h.listing
  obtain ⟨m₀, a, rets, o, ls, rest, hloc⟩ := h.locates hlisting
  have hstart : m₀.down = false := by
    obtain ⟨target, -, hentry⟩ := hloc.opens.starts.entered
    obtain ⟨host, -, hpush⟩ := bind_eq_ok.mp hentry
    exact (Machine.upright_push hpush).down rfl
  exact ⟨a, rets, h.loaded, h.compiled, h.listing, hloc.ready.separate, hloc.home, h.rip,
    hloc.reaches.down hstart⟩

namespace AtInstruction

variable (h : env.AtInstruction config vm₀ a rets i after m)
include h

theorem exists_template :
    ∃ (is : List Instruction) (ls : List Line) (o : Nat) (find : Target → Option Nat),
    env.Ready (.ofInstance config vm₀) is a.host.vm.block.size ∧
    env.program.code.size < 0x10000000000000000 ∧
    template (.ofInstance config vm₀) i = .ok ls ∧ m.atOffset o = m ∧
    env.program.code.Holds find o ls ∧
    (∀ s, find (.stub s) = (Plan.ofProgram (.ofInstance config vm₀) is).placed (.stub s)) ∧
    (∀ t dest, find (.code t) = some dest ∨ find (.cases t) = some dest →
      env.program.offset? t = some dest) ∧
    ∀ j ∈ after.head?, env.program.offset? j.address = some (o + linesSize ls) := by
  obtain ⟨before, hlisting⟩ := h.listing
  have hfinishes := Program.finishes_of_listing h.compiled hlisting
  obtain ⟨ls, hls, -, hoffset, hholds⟩ := hfinishes.holds_at
  obtain ⟨o, ho, hrip⟩ := h.here
  obtain rfl : o = _ := Option.some_inj.mp (ho.symm.trans hoffset)
  have hhigh := h.separate.code_high
  refine ⟨_, ls, _, _, ⟨hfinishes, h.separate⟩, by omega, hls,
    Machine.atOffset_eq h.home.layout hrip, hholds, fun _ => rfl, ?_, hfinishes.offset_head? hls ho⟩
  rintro t dest (hcode | hcases)
  · exact (hfinishes.offset t).trans hcode
  · exact hfinishes.offset_of_cases hcases

theorem advances (goal : Machine → Prop)
    (hls : ∀ ls, template (.ofInstance config vm₀) i = .ok ls → Comes ls m none goal)
    (hlayout : ∀ m', goal m' → m'.layout = m.layout) :
    ∃ m' x, goal m' ∧ env.Advances after m (m'.jumpTo x) := by
  obtain ⟨is, ls, o, find, hr, hsize, htemplate, hm, hholds, -, -, hnext⟩ := h.exists_template
  obtain ⟨m', dest, hgoal, hdest, hruns⟩ := hls ls htemplate _ _ _ hsize hholds
  rw [hm] at hruns
  obtain rfl : o + linesSize ls = dest := Option.some_inj.mp hdest
  obtain ⟨k, hreaches⟩ := hr.reaches_of_runs h.home.layout hruns
  refine ⟨m', _, hgoal, ⟨k, hreaches⟩, fun j hj => ⟨_, hnext j hj, ?_⟩⟩
  show m'.layout.code + _ = _
  rw [hlayout m' hgoal, h.home.layout]

/-- Code that branches to an instruction, or to the dispatch of a case table, leads the run
    there. -/
theorem branches {t : Cell} {target : Target} (htarget : target = .code t ∨ target = .cases t)
    (goal : Machine → Prop)
    (hls : ∀ ls, template (.ofInstance config vm₀) i = .ok ls → Comes ls m (some target) goal)
    (hlayout : ∀ m', goal m' → m'.layout = m.layout) :
    ∃ m' x, goal m' ∧ (∃ k, ∀ n, env.Reaches (n + k, m) (n, m'.jumpTo x)) ∧
      env.At t (m'.jumpTo x) := by
  obtain ⟨is, ls, o, find, hr, hsize, htemplate, hm, hholds, -, hfind, -⟩ := h.exists_template
  obtain ⟨m', dest, hgoal, hdest, hruns⟩ := hls ls htemplate _ _ _ hsize hholds
  rw [hm] at hruns
  obtain ⟨k, hreaches⟩ := hr.reaches_of_runs h.home.layout hruns
  have hoffset : env.program.offset? t = some dest := by
    rcases htarget with rfl | rfl
    · exact hfind t dest (.inl hdest)
    · exact hfind t dest (.inr hdest)
  refine ⟨m', _, hgoal, ⟨k, hreaches⟩, dest, hoffset, ?_⟩
  show m'.layout.code + _ = _
  rw [hlayout m' hgoal, h.home.layout]

theorem haltsFrom {f : Fault} (goal : Machine → Prop)
    (hls : ∀ ls, template (.ofInstance config vm₀) i = .ok ls →
      Comes ls m (some (.stub (.fault f))) goal)
    (hhome : ∀ m', goal m' → m'.Home env Instance.Fixed a rets) :
    ∃ m' x, goal m' ∧ env.HaltsFrom a f m (m'.jumpTo x) := by
  obtain ⟨is, ls, o, find, hr, hsize, htemplate, hm, hholds, hstub, -⟩ := h.exists_template
  obtain ⟨m', dest, hgoal, hdest, hruns⟩ := hls ls htemplate _ _ _ hsize hholds
  rw [hm] at hruns
  obtain ⟨k, hreaches⟩ := hr.reaches_of_runs h.home.layout hruns
  obtain ⟨rest, hat⟩ := hr.finishes.linesFrom_fault ((hstub _).symm.trans hdest)
  obtain ⟨r, hdeparts⟩ := hr.departs_fault Instance.steady_fixed rfl (hhome m' hgoal).toInside hat
  exact ⟨m', _, hgoal, ⟨k, hreaches⟩, leaveSteps + 4, r, hdeparts.goes.reaches, hdeparts.returned,
    (Except.ok.inj hdeparts.exit.status).symm, hdeparts.exit.vm⟩

/-- Code that only changes registers before it does so halts with the instance as it was. -/
theorem halts {f : Fault} {ws : List Reg} (hws : ∀ r ∈ stk :: frm :: Instr.owned, r ∉ ws)
    (hls : ∀ ls, template (.ofInstance config vm₀) i = .ok ls →
      Comes ls m (some (.stub (.fault f))) fun m' => Machine.Becomes ws m.host m m') :
    env.Halts a f m := by
  obtain ⟨m', x, hbecomes, ⟨k, hreaches⟩, k', r, hleaves, hreturned, hrax, hvm⟩ :=
    h.haltsFrom _ hls fun m' hm' =>
    h.home.becomes Instance.steady_fixed hm' fun r hr => hws r (by simp [hr])
  have hsame : ∀ r ∈ [stk, frm, data], (m'.jumpTo x).reg32 r = m.reg32 r := by
    intro r hr
    refine congrArg (BitVec.setWidth 32) (hbecomes.regs r (hws r ?_))
    revert r
    decide
  have hleft : (m'.jumpTo x).leftHost.vm = m.leftHost.vm := by
    unfold Machine.leftHost
    rw [hsame stk (by decide), hsame frm (by decide), hsame data (by decide)]
    show Instance.put (Instance.put m'.host.vm _ _) _ _ = _
    rw [hbecomes.host]
  refine ⟨k' + k, r, fun n => ?_, hreturned, hrax, hvm.trans hleft⟩
  rw [← Nat.add_assoc]
  exact (hreaches _).trans (hleaves n)

end AtInstruction

end Environment

/-! ### A small program -/

/-- A division, a load through the primary register and the end of the program. -/
def siteListing : List Instruction := [⟨0, .sdiv, []⟩, ⟨4, .loadI, []⟩, ⟨8, .halt, [0]⟩]

def siteImage : Block := (pushHeader.bytes ++ siteListing.flatMap Instruction.bytes).toArray

def siteInstance : Instance := { pushInstance with block := siteImage ++ Array.replicate 16 0 }

theorem load_siteImage : Instance.load siteImage = .ok siteInstance :=
  Instance.load_whole (by decide +kernel) rfl (by decide) rfl

theorem decodes_siteListing : Decodes siteInstance.code 0 siteListing none :=
  .of_block (n := 16) rfl (by decide) rfl rfl (by decide) (by decide)

theorem compiles_siteInstance : ∃ p, Program.ofInstance {} siteInstance = .ok p :=
  Program.exists_ofInstance {} load_siteImage decodes_siteListing (by decide) (by decide)

/-- A call that starts at an instruction of an image, with these computing registers. -/
def callAt (vm : Instance) (address pri alt : Cell) : Invocation where
  regs := { rsp := Layout.standard.stackTop - 64 }
  depth := 6
  address := address
  host := { vm := { vm with regs := { vm.regs with pri, alt } } }

/-- The instance that such a call has pushed its two cells to. -/
def Instance.started (vm : Instance) (pri alt : Cell) : Except Fault Instance := do
  let vm₁ ← Instance.pushCell { vm with regs := { vm.regs with pri, alt }, pending := 0 }
    (BitVec.ofNat 32 (vm.pending * Cell.width))
  vm₁.pushCell 0

theorem atInstruction_callAt {image : Block} {vm₀ : Instance} {before : List Instruction}
    {i : Instruction}
    {after : List Instruction} (x y : Cell) (hload : Instance.load image = .ok vm₀)
    (hlisting : Decodes vm₀.code 0 (before ++ i :: after) none) (hsize : vm₀.block.size ≤ 0x2000000)
    (his : ∀ j ∈ before ++ i :: after, j.Accepted vm₀ (before ++ i :: after))
    (hstart : (vm₀.started x y).toOption.isSome) :
    ∃ (p : Program) (a : Activation) (rets : List Word) (m : Machine),
      Environment.AtInstruction ⟨.standard, p⟩ {} vm₀ a rets i after m ∧ m.reg pri = x.setWidth 64 ∧
      m.reg alt = y.setWidth 64 ∧ vm₀.started x y = .ok m.spilled ∧ vm₀.Fixed m.host.vm := by
  have hcode : vm₀.codeSize ≤ vm₀.block.size := by
    rw [← (Instance.size_code hload).1, Instance.code, Block.slice, Array.size_extract]
    omega
  obtain ⟨p, hp⟩ := Program.exists_ofInstance {} hload hlisting (Nat.le_trans hcode hsize) his
  obtain ⟨vm, hstart⟩ := exists_ok_of_isSome hstart
  obtain ⟨vm₁, hpush₁, hpush₂⟩ := bind_eq_ok.mp hstart
  obtain ⟨d, m, hexecutes, hloaded, rfl, -⟩ :=
    Environment.exists_executes_on (c := callAt vm₀ i.address x y)
    (fun _ => {}) before i after hload hp hlisting (Nat.le_trans hsize (by decide)) rfl
      (show 6 ≤ 1000 by decide) rfl hpush₁ hpush₂
  obtain ⟨a, rets, hat⟩ := (hexecutes 0).atInstruction
  have hregs := Instance.regs_pushCell hpush₂
  rw [Instance.regs_pushCell hpush₁] at hregs
  have hfixed := (Instance.operated_pushCell hpush₁).toFixed.trans
    (Instance.operated_pushCell hpush₂).toFixed
  refine ⟨p, a, rets, m, hat, ?_, ?_, ?_, hfixed.header, hfixed.natives, hfixed.size⟩
  · rw [hloaded.pri, hregs]
  · rw [hloaded.alt, hregs]
  · rw [hstart, Environment.spilled_of_loaded hloaded rfl]

end PawnNative
