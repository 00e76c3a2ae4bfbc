import Mathlib.Tactic.Common
import PawnNative.Proofs.Nesting

/-! # The calling convention

    Three parties keep one convention and two stacks. Whoever calls pushes arguments,
    their size and a return address on the stack of the instance; the function opens
    its frame below, and closes it again by its return; and the return addresses that
    the processor follows are on the native stack. A call of the host ends in the code
    for leaving, which stores stack and frame, and then the host puts them back.

    Nothing checks that these fit together. They do: whatever calls a function makes,
    and however deep, it comes back to the instruction after its call with the stack
    and the frame of the caller, if at its return the stack is at its frame and the
    three cells of the link are what they were.
-/

namespace PawnNative

open X64 Convention Template

/-! ## Section 1: Frames that are open -/

def argBytes (args : List Cell) : Cell := BitVec.ofNat 32 (args.length * Cell.width)

namespace Machine

/-- A machine in a function whose frame is at `p`, called with these arguments by a function with
    frame `f`. -/
structure Opened (m : Machine) (p f ret : Cell) (args : List Cell) : Prop where
  stk : m.HasStk p
  frm : m.HasFrm p
  cells : m.host.vm.Holds p.toNat (f :: ret :: argBytes args :: args)

/-- A machine that may return from such a function: the stack is at the frame again, and the link is
    what it was. -/
structure Closable (m : Machine) (p f ret : Cell) (args : List Cell) : Prop where
  stk : m.HasStk p
  link : m.host.vm.Holds p.toNat [f, ret, argBytes args]

theorem Opened.closable {m : Machine} {p f ret : Cell} {args : List Cell}
    (h : m.Opened p f ret args) : m.Closable p f ret args := by
  have hcells : m.host.vm.Holds p.toNat ([f, ret, argBytes args] ++ args) := h.cells
  exact ⟨h.stk, hcells.left⟩

end Machine

/-- The register that an instruction loads from a cell of the frame. -/
def Opcode.frameLoad? : Opcode → Option Reg
  | .loadSPri => some pri
  | .loadSAlt => some alt
  | _ => none

theorem Opcode.rsp_not_mem_frameLoad {op : Opcode} {acc : Reg} (h : op.frameLoad? = some acc) :
    .rsp ∉ [acc] := by
  cases op <;> cases h <;> decide

namespace Environment

/-- The run of a function from the first instruction of its body on. The frame is open. As long as
    the frame register is at it, loads from the frame read the size of the arguments and the
    arguments themselves, unless these have been overwritten, and the function goes on. And when a
    call tree comes to a return that closes the frame, `Back` holds. -/
structure Performs (env : Environment) (is : List Instruction) (body : Instruction) (m₁ : Machine)
    (p f ret : Cell) (args : List Cell) (Back : Nat → Nat → Machine → Prop) : Prop where
  starts : env.At body.address m₁
  opened : m₁.Opened p f ret args
  loads : ∀ {n₁ n k : Nat} {m : Machine} {l : Instruction} {acc : Reg} {v : Cell},
    env.Body is (n₁, m₁) (n + 1, m) → l ∈ is → l.opcode.frameLoad? = some acc → env.At l.address m →
    m.HasFrm p → l.arg = BitVec.ofNat 32 (8 + 4 * k) → (argBytes args :: args)[k]? = some v →
    m.host.vm.cellAt? (p.toNat + (8 + 4 * k : Nat)) =
      m₁.host.vm.cellAt? (p.toNat + (8 + 4 * k : Nat)) →
    ∃ m', env.Reaches (n + 1, m) (n, m') ∧ m'.reg32 acc = v ∧ Machine.Becomes [acc] m.host m m' ∧
      ∀ l', [l, l'] <:+: is → env.At l'.address m' ∧ env.Body is (n₁, m₁) (n, m')
  returns : ∀ {n₁ n : Nat} {m : Machine} {r : Instruction}, env.Body is (n₁, m₁) (n, m) → r ∈ is →
    r.opcode = .retn → env.At r.address m → m.Closable p f ret args → Back n₁ n m

/-! ## Section 2: The instructions of the convention -/

section
variable {env : Environment} {ctx : Context} {is : List Instruction}
  {K : Instance → Instance → Prop}
  {a : Activation} {bound o n : Nat} {rets rs : List Word} {w : Word} {ls : List Line} {m : Machine}
  {s f p c v : Cell} (hb : env.Backs ctx is K a bound)
include hb

/-- **Call.** The return address is pushed on both stacks. -/
theorem Backs.goes_callCode {t next : Cell} (hat : LinesFrom ctx is o (callCode t next ++ ls))
    (h : m.Home env K a rets) (hsized : m.host.vm.Sized) (hstk : m.HasStk s) (hfrm : m.HasFrm f)
    (hroom : m.spilled.Room (n + 1))
    (hdeep : 8 * (a.base + 15 + rets.length) ≤ env.layout.stackSize) :
    ∃ (m₁ : Machine) (dest : Nat), env.program.offset? t = some dest ∧
      env.Goes (env.Between ctx is) (1 + (pushImm next).length) (m.atOffset o) (m₁.atOffset dest) ∧
      m₁.Home env K a
        (rets ++ [env.layout.code + BitVec.ofNat 64 (o + linesSize (callCode t next))]) ∧
      m₁.HasStk (s - 4) ∧ m₁.HasFrm f ∧ m.spilled.Stacks [next] m₁.spilled := by
  have hat : LinesFrom ctx is o (pushImm next ++ (.call (.code t) :: ls)) := by
    rw [callCode, List.append_assoc] at hat
    exact hat
  obtain ⟨m₁, hexec, hm₁, hstk₁, hpushed, -⟩ :=
    h.toInside.execLines_pushImm hb.steady hsized hstk hroom next
  have hhome := h.execLines hb.steady rfl hexec
  obtain ⟨m₂, hpush, hhome₂, hregs, hvm, -⟩ := hb.exists_push hhome hdeep
    (env.layout.code + BitVec.ofNat 64 (o + linesSize (pushImm next) + 5))
  obtain ⟨k, dest, hdest, hcall⟩ := hb.ready.goes_call hat.drop hhome.layout hpush
  -- The return address goes to the native stack; the registers of the abstract
  -- machine are as they were.
  have hreg : ∀ r, r ≠ .rsp → m₂.reg r = m₁.reg r := by
    intro r hr
    show m₂.regs.get r = _
    rw [hregs]
    exact RegFile.get_set_ne _ _ hr
  have hspilled : m₂.spilled = m₁.spilled := by
    refine Machine.spilled_congr hvm fun r hr => hreg r ?_
    rintro rfl
    revert hr
    decide
  refine ⟨m₂, dest, (hb.ready.finishes.offset t).trans hdest, ?_, hhome₂, ?_, ?_, ?_⟩
  · exact hb.ready.goes_then _ [.call (.code t)] (List.cons_ne_nil _ _) rfl (by simp [Placeless])
      hat h.layout hexec hhome.layout hcall
  · rw [Machine.HasStk, hreg stk (by decide), hreg data (by decide)]
    exact hstk₁
  · have hfrm₁ := hfrm.becomes hm₁ (by decide)
    rw [Machine.HasFrm, hreg frm (by decide), hreg data (by decide)]
    exact hfrm₁
  · rw [hspilled]
    exact Instance.stacks_pushed hpushed

/-- **Entry.** The frame of the caller is pushed, and the margin to the heap is free. -/
theorem Backs.goes_enter (hat : LinesFrom ctx is o (enterFunction ++ ls)) (h : m.Home env K a rets)
    (hsized : m.host.vm.Sized) (hstk : m.HasStk s) (hfrm : m.HasFrm f)
    (hroom : m.spilled.Room (n + 1)) :
    ∃ m₁ : Machine, env.Goes (env.Between ctx is) (1 + openLines.length) (m.atOffset o)
        (m₁.atOffset (o + linesSize enterFunction)) ∧ m₁.Home env K a rets ∧
      m₁.HasStk (s - 4) ∧ m₁.HasFrm (s - 4) ∧ m.spilled.Stacks [f] m₁.spilled ∧
      m₁.host.vm.regs = m.host.vm.regs := by
  rw [enterFunction_eq, List.append_assoc] at hat
  obtain ⟨m₁, hexec, hstk₁, hfrm₁, hstacks, hflags, hregs⟩ :=
    hb.ready.execLines_open hb.steady rfl h hsized hstk hfrm hroom
  have hhome := h.execLines hb.steady rfl hexec
  -- The heap with its margin ends below the stack, so the branch is not taken.
  have hfree : Cond.g.holds m₁.flags = some false := by
    have hroom₁ := hroom.stacks hstacks
    rw [hflags, (holds_signed _ _).2.2.1, decide_eq_false]
    obtain ⟨hheap, hmargin, -⟩ := hroom₁
    rw [hstk₁.spilled, hstacks.hea] at hmargin
    rw [hstacks.hea] at hheap
    have hbound := BitVec.toInt_lt (x := s - 4)
    have hlimit : (Instance.margin : Int) = 64 := rfl
    have hsum : (m.spilled.regs.hea + margin).toInt = m.spilled.regs.hea.toInt + 64 := by
      have hnat := Cell.toInt_eq_toNat hheap
      rw [BitVec.toInt_eq_toNat_cond, BitVec.toNat_add, show margin.toNat = 64 from rfl]
      split_ifs <;> omega
    omega
  obtain ⟨k, dest, -, hjump⟩ := hb.ready.goes_jcc hat.drop hhome.layout hfree
  have hend : o + linesSize openLines + 6 = o + linesSize enterFunction := by
    rw [enterFunction_eq, linesSize_append]
    exact Nat.add_assoc ..
  rw [if_neg (by decide), hend] at hjump
  refine ⟨m₁, ?_, hhome, hstk₁, hfrm₁, hstacks, hregs⟩
  exact hb.ready.goes_then _ [.jcc .g (.stub (.fault .stackError))] (List.cons_ne_nil _ _) rfl
    (by simp [Placeless]) hat h.layout hexec hhome.layout hjump

/-- **Return.** Frame and stack are those of the caller, and the last return address is next. -/
theorem Backs.goes_leaveDropping (hat : LinesFrom ctx is o (leaveDropping ++ ls))
    (h : m.Home env K a rets) (hrets : env.back :: rets = rs ++ [w]) (hsized : m.host.vm.Sized)
    (hstk : m.HasStk p) (hframe : m.host.vm.cellAt? p.toNat = some f)
    (hcount : m.host.vm.cellAt? (p.toNat + 8) = some c) (hs : p.toNat + 12 + c.toNat = s.toNat) :
    ∃ m₁ : Machine, env.Goes (env.Between ctx is) (1 + closeLines.length) (m.atOffset o)
        ((m₁.setReg .rsp (env.layout.slot (a.base + 12 + rets.length))).jumpTo w) ∧
      m₁.Home env K a rets ∧ Machine.Becomes [tmp0, tmp1, frm, stk] m.host m m₁ ∧ m₁.HasStk s ∧
      m₁.HasFrm f := by
  rw [leaveDropping_eq, List.append_assoc] at hat
  obtain ⟨m₁, hexec, hm₁, hstk₁, hfrm₁⟩ :=
    Ready.execLines_close hb.steady h.toInside hsized hstk hframe hcount hs
  have hhome := h.execLines hb.steady rfl hexec
  have hret := hb.goes_ret hat.drop hhome.toInside hhome.rsp hrets
  exact ⟨m₁, hb.ready.goes_then _ [.op .ret] (List.cons_ne_nil _ _) rfl (.op _) hat h.layout hexec
      hhome.layout hret,
    hhome, hm₁, hstk₁, hfrm₁⟩

theorem Backs.goes_load {acc : Reg} {d : Cell}
    (hat : LinesFrom ctx is o ([.op (.load .d acc (frameCell d))] ++ ls)) (h : m.Home env K a rets)
    (hsized : m.host.vm.Sized) (hfrm : m.HasFrm p)
    (hcell : m.host.vm.cellAt? (p.toNat + d.toInt) = some v) :
    env.Goes (env.Between ctx is) 1 (m.atOffset o)
      ((m.setReg32 acc v).atOffset (o + linesSize [.op (.load .d acc (frameCell d))])) := by
  have haddress : m.address (frameCell d) = m.reg data + BitVec.ofInt 64 (p.toNat + d.toInt) := by
    show m.reg frm + d.signExtend 64 = _
    rw [hfrm, BitVec.ofInt_add, BitVec.ofInt_natCast, BitVec.ofNat_toNat, BitVec.add_assoc]
    rfl
  have hload := h.toInside.exec_loadCell hb.steady hsized haddress rfl hcell acc
  exact hb.ready.goes_lines _ (List.cons_ne_nil _ _) rfl hat h.layout
    ((Machine.execLines_cons hload).trans rfl)

end

/-! ## Section 3: Functions and call trees -/

theorem Body.reaches {env : Environment} {is : List Instruction} {c d : Nat × Machine}
    (h : env.Body is c d) : env.Reaches c d := by
  induction h with
  | start c => exact .refl
  | step _ hnext _ ih => exact ih.trans hnext.reaches
  | call _ _ _ _ henter _ _ _ _ hleave ihouter ihinner =>
    exact ihouter.trans (henter.reaches.trans (ihinner.trans hleave.reaches))

theorem Body.trans {env : Environment} {is : List Instruction} {c d e : Nat × Machine}
    (h : env.Body is c d) (h' : env.Body is d e) : env.Body is c e := by
  induction h' with
  | start d => exact h
  | step _ hnext hrsp ih => exact (ih h).step hnext hrsp
  | call _ hpair hcall hati henter hinner hr hretn hatr hleave ih _ =>
    exact (ih h).call hpair hcall hati henter hinner hr hretn hatr hleave

def retnSteps : Nat := 1 + closeLines.length

section
variable {env : Environment} {ctx : Context} {is : List Instruction}
  {K : Instance → Instance → Prop}
  {a : Activation} {o n : Nat} {rets rs : List Word} {w : Word} {m m₁ : Machine} {s f p ret : Cell}
  {args : List Cell} {body : Instruction} (hb : ∀ n, env.Backs ctx is K a n)
  (hsized : a.host.vm.Sized)
include hb hsized

theorem Settled.sized (h : env.Settled ctx is K a rets m) : m.host.vm.Sized :=
  ((hb 0).steady.fixed h.home.steady).sized hsized

/-- A function opens its frame below what was pushed for it. -/
theorem Settled.opens {vm : Instance} {proc : Instruction} (h : env.Settled ctx is K a rets m)
    (hfunction : [proc, body] <:+: is) (hproc : proc.opcode = .proc) (hat : env.At proc.address m)
    (hstk : m.HasStk s) (hfrm : m.HasFrm f) (hroom : m.spilled.Room 1)
    (hstacks : vm.Stacks (ret :: argBytes args :: args) m.spilled) :
    ∃ (m₁ : Machine) (p : Cell), env.Goes (env.Between ctx is) (1 + openLines.length) m m₁ ∧
      env.At body.address m₁ ∧ env.Settled ctx is K a rets m₁ ∧ m₁.Opened p f ret args ∧
      p.toNat + 4 * (args.length + 3) = vm.regs.stk.toNat ∧ m₁.host.vm.regs = m.host.vm.regs := by
  have hmem : proc ∈ is := hfunction.subset List.mem_cons_self
  obtain ⟨o, ls, rest, hls, ho, hm, hlines⟩ := (hb 0).ready.lines_at hmem hat h.home.layout
  obtain rfl : ls = enterFunction := by
    obtain ⟨address, opcode, operands⟩ := proc
    obtain rfl : opcode = .proc := hproc
    exact (Except.ok.inj hls).symm
  obtain ⟨m₁, hgoes, hhome, hstk₁, hfrm₁, hframe, hregs⟩ :=
    (hb 0).goes_enter hlines h.home (h.sized hb hsized) hstk hfrm hroom
  have hat₁ : env.At body.address (m₁.atOffset (o + linesSize enterFunction)) :=
    ⟨_, (hb 0).ready.offset_of_pair hfunction hls ho, Machine.rip_atOffset hhome.layout _⟩
  have hall := hstacks.trans hframe
  rw [hm] at hgoes
  refine ⟨_, s - 4, hgoes, hat₁, ⟨hhome.jumpTo _, ⟨_, hat₁⟩, h.stations, h.resumable⟩,
    ⟨hstk₁, hfrm₁, ?_⟩, ?_, hregs⟩
  · have hcells := hall.cells
    rw [Instance.topAddress, hstk₁.spilled] at hcells
    exact hcells
  · have hlength := hall.stk
    rw [hstk₁.spilled] at hlength
    exact hlength

/-- A return that closes the frame goes to the last return address, with stack and frame of the
    caller. -/
theorem Settled.closes {r : Instruction} (h : env.Settled ctx is K a rets m)
    (hrets : env.back :: rets = rs ++ [w]) (hr : r ∈ is) (hretn : r.opcode = .retn)
    (hat : env.At r.address m) (hclosable : m.Closable p f ret args)
    (hs : p.toNat + 4 * (args.length + 3) = s.toNat) :
    ∃ m₁ : Machine, env.Goes (env.Between ctx is) retnSteps m
        ((m₁.setReg .rsp (env.layout.slot (a.base + 12 + rets.length))).jumpTo w) ∧
      m₁.Home env K a rets ∧ Machine.Becomes [tmp0, tmp1, frm, stk] m.host m m₁ ∧ m₁.HasStk s ∧
      m₁.HasFrm f := by
  obtain ⟨o, ls, rest, hls, -, hm, hlines⟩ := (hb 0).ready.lines_at hr hat h.home.layout
  obtain rfl := template_retn hretn hls
  have hframe := hclosable.link 0 f rfl
  have hcount := hclosable.link 2 (argBytes args) rfl
  have hbound := s.isLt
  have hbytes : (argBytes args).toNat = 4 * args.length := by
    rw [argBytes, BitVec.toNat_ofNat, show Cell.width = 4 from rfl]
    omega
  rw [show (p.toNat : Int) + 4 * ((0 : Nat) : Int) = p.toNat by omega] at hframe
  rw [show (p.toNat : Int) + 4 * ((2 : Nat) : Int) = p.toNat + 8 by omega] at hcount
  have hgoes := (hb 0).goes_leaveDropping hlines h.home hrets (h.sized hb hsized)
    hclosable.stk hframe hcount (s := s) (by omega)
  rw [hm] at hgoes
  exact hgoes

/-- A load from an open frame reads what the caller has pushed, and nothing else changes. -/
theorem Settled.loads {k : Nat} {l : Instruction} {acc : Reg} {v : Cell}
    (h : env.Settled ctx is K a rets m) (hl : l ∈ is) (hload : l.opcode.frameLoad? = some acc)
    (hat : env.At l.address m) (hfrm : m.HasFrm p) (harg : l.arg = BitVec.ofNat 32 (8 + 4 * k))
    (hcell : m.host.vm.cellAt? (p.toNat + (8 + 4 * k : Nat)) = some v) :
    ∃ m', env.Reaches (n + 1, m) (n, m') ∧ m'.reg32 acc = v ∧ Machine.Becomes [acc] m.host m m' ∧
      ∀ l', [l, l'] <:+: is → env.At l'.address m' ∧ env.Next (n + 1, m) (n, m') := by
  have hsized := h.sized hb hsized
  obtain ⟨o, ls, rest, hls, ho, hm, hlines⟩ := (hb 0).ready.lines_at hl hat h.home.layout
  have htemplate : ls = [.op (.load .d acc (frameCell l.arg))] := by
    obtain ⟨address, opcode, operands⟩ := l
    cases opcode <;> cases hload <;> exact (Except.ok.inj hls).symm
  -- The offset is small, for the cell lies in the data segment.
  have hoffset : l.arg.toInt = (8 + 4 * k : Nat) := by
    have hle := hsized.cell_le (Instance.hasCell_of_cellAt hcell)
    have hbounded := hsized.bounded
    rw [harg, BitVec.toInt_eq_toNat_cond, BitVec.toNat_ofNat, Nat.mod_eq_of_lt (by omega),
      if_pos (by omega)]
  rw [← hoffset] at hcell
  rw [htemplate] at hlines
  have hgoes := (hb 0).goes_load hlines h.home hsized hfrm hcell
  rw [hm] at hgoes
  rw [htemplate] at hls
  have hchange : Machine.Becomes [acc] m.host m (m.setReg32 acc v) :=
    (Machine.Becomes.refl _ m).setReg List.mem_cons_self _
  refine ⟨_, hgoes.reaches n, Machine.reg32_setReg32_self m acc v,
    ⟨hchange.layout, hchange.regs, hchange.host⟩, fun l' hpair => ?_⟩
  have hat' : env.At l'.address ((m.setReg32 acc v).atOffset _) :=
    ⟨_, (hb 0).ready.offset_of_pair hpair hls ho, Machine.rip_atOffset h.home.layout _⟩
  exact ⟨hat', (hb 0).ready.next_of_goes hgoes hat' n⟩

/-- A function whose frame is open performs, whatever its return comes to. -/
theorem Settled.performs {Back : Nat → Nat → Machine → Prop} (h : env.Settled ctx is K a rets m₁)
    (hat : env.At body.address m₁) (hopened : m₁.Opened p f ret args)
    (hback : ∀ {n₁ n : Nat} {m : Machine} {r : Instruction}, env.Body is (n₁, m₁) (n, m) →
      env.Settled ctx is K a rets m → r ∈ is → r.opcode = .retn → env.At r.address m →
      m.Closable p f ret args → Back n₁ n m) :
    env.Performs is body m₁ p f ret args Back := by
  refine ⟨hat, hopened, ?_, ?_⟩
  · intro n₁ n k m l acc v hbody hl hload hat hfrm harg hv hkept
    have hcell := hopened.cells (k + 2) v hv
    rw [show (p.toNat : Int) + 4 * ((k + 2 : Nat) : Int) =
        p.toNat + (8 + 4 * k : Nat) by omega] at hcell
    obtain ⟨m', hreaches, hvalue, hchange, hnext⟩ :=
      (Settled.body hb hbody h).loads hb hsized hl hload hat hfrm harg (hkept.trans hcell)
    refine ⟨m', hreaches, hvalue, hchange, fun l' hpair => ?_⟩
    obtain ⟨hat', hnext⟩ := hnext l' hpair
    exact ⟨hat', hbody.step hnext (hchange.regs .rsp (Opcode.rsp_not_mem_frameLoad hload))⟩
  · intro n₁ n m r hbody hr hretn hat hclosable
    exact hback hbody (Settled.body hb hbody h) hr hretn hat hclosable

end

/-! ## Section 4: The convention -/

/-- The steps from the return of the function that the host called to the host. -/
def exitSteps : Nat := leaveSteps + 2 + retnSteps

section
variable {env : Environment} {config : Config} {vm₀ vm : Instance} {is after : List Instruction}
  {c : Invocation} {args : List Cell} {proc body : Instruction}

/-- What the caller gets back from a function: the machine is at the instruction after the call,
    with its own stack and frame, and with the result and the memory that the function has left. The
    whole call is part of the run of the caller. -/
structure Resumes (env : Environment) (is : List Instruction) (j : Instruction) (s f : Cell)
    (start : Nat × Machine) (n : Nat) (m₂ m₃ : Machine) : Prop where
  reaches : env.Reaches (n + retnSteps, m₂) (n, m₃)
  at_next : env.At j.address m₃
  stk : m₃.HasStk s
  frm : m₃.HasFrm f
  pri : m₃.reg pri = m₂.reg pri
  host : m₃.host = m₂.host
  body : env.Body is start (n, m₃)

theorem Executes.pushes {start left n : Nat} {q : Cell} {j : Instruction} {m : Machine}
    {s f v : Cell} (hm : env.Executes config vm₀ c start ⟨q, .pushC, [v]⟩ (j :: after) (left + 2) m)
    (hsized : c.host.vm.Sized) (hstk : m.HasStk s) (hfrm : m.HasFrm f)
    (hroom : m.spilled.Room (n + 1)) :
    ∃ m', env.Executes config vm₀ c start j after left m' ∧ m'.HasStk (s - 4) ∧ m'.HasFrm f ∧
      m'.spilled.Room n ∧ m.spilled.pushed? v = some m'.spilled ∧
      m'.nativeWords = m.nativeWords := by
  obtain ⟨before, hlisting⟩ := hm.listing
  obtain ⟨m₀, a, rets, o, ls, rest, hl⟩ := hm.locates hlisting
  obtain rfl : ls = pushImm v := (Except.ok.inj hl.template).symm
  have hmsized : m.host.vm.Sized := hl.home.steady.sized (hl.opens.starts.fixed.sized hsized)
  obtain ⟨m', hexec, hchange, hstk', hpushed, -⟩ :=
    hl.home.toInside.execLines_pushImm Instance.steady_fixed hmsized hstk hroom v
  have hhome := hl.home.execLines Instance.steady_fixed rfl hexec
  have hgoes := hl.ready.goes_lines _ (List.cons_ne_nil _ _) rfl hl.lines hl.home.layout hexec
  rw [hl.atOffset] at hgoes
  obtain ⟨vm, m₁, hstart, hreach⟩ := hm.reached
  have hfrm' := hfrm.becomes hchange (by decide)
  refine ⟨m'.atOffset (o + linesSize (pushImm v)), ?_, hstk', hfrm',
    hroom.stacks (Instance.stacks_pushed hpushed), hpushed, ?_⟩
  · rw [List.append_cons] at hlisting
    exact ⟨hm.loaded, hm.compiled, ⟨_, hlisting⟩, hm.separate,
      ⟨vm, m₁, hstart, hreach.trans (hgoes.reaches left)⟩, _, hl.offset_next j rfl,
      Machine.rip_atOffset hhome.layout _⟩
  · rw [hl.nativeWords]
    exact hhome.nativeWords hl.ready.separate.bounded

theorem Executes.performs {start left : Nat} {i j : Instruction} {m : Machine} {f : Cell}
    (hm : env.Executes config vm₀ c start i (j :: after) left m)
    (hlisting : Decodes vm₀.code 0 is none)
    (hsized : c.host.vm.Sized) (hfunction : [proc, body] <:+: is) (hproc : proc.opcode = .proc)
    (hcall : i.opcode = .call) (harg : i.arg = proc.address)
    (hpushed : (args.reverse ++ [argBytes args]).foldlM Instance.pushed? vm = some m.spilled)
    (hstk : m.HasStk m.spilled.regs.stk) (hfrm : m.HasFrm f) (hroom : m.spilled.Room 2)
    (hdeep : 8 * (m.nativeWords + 1) ≤ env.layout.stackSize) :
    ∃ (k : Nat) (m₁ : Machine) (p : Cell), (∀ n, env.Reaches (n + k, m) (n, m₁)) ∧
      env.Performs is body m₁ p f i.next args fun n₁ n m₂ => ∀ n', n = n' + retnSteps →
        ∃ m₃, env.Resumes is j vm.regs.stk f (n₁ + k, m) n' m₂ m₃ := by
  obtain ⟨before, hdecodes⟩ := hm.listing
  obtain ⟨rfl, -⟩ := hdecodes.unique hlisting
  obtain ⟨m₀, a, rets, o, ls, rest, hl⟩ := hm.locates hdecodes
  have hb := hl.backs
  have hasized : a.host.vm.Sized := hl.opens.starts.fixed.sized hsized
  have hmsized : m.host.vm.Sized := hl.home.steady.sized hasized
  obtain rfl := template_call hcall hl.template
  have hpair : [i, j] <:+: before ++ i :: j :: after := ⟨before, after, by simp⟩
  have hnext : env.program.offset? j.address = some (o + linesSize (callCode i.arg i.next)) :=
    hl.offset_next j rfl
  -- The arguments, their size and both links are pushed one after the other.
  have hargs : vm.Stacks (argBytes args :: args) m.spilled := by
    have hstacks :=
      Instance.stacks_foldlM (fun h => Option.some_inj.mp h) Option.bind_eq_some_iff.mp
      Instance.stacks_pushed hpushed
    rwa [List.reverse_append, List.reverse_reverse] at hstacks
  obtain ⟨m₁, dest, hdest, hcalls, hhome₁, hstk₁, hfrm₁, hlink⟩ :=
    (hb 0).goes_callCode hl.lines hl.home
    hmsized hstk hfrm hroom (by rw [hl.nativeWords] at hdeep; omega)
  rw [hl.atOffset] at hcalls
  rw [harg] at hdest
  have hati : env.At proc.address (m₁.atOffset dest) :=
    ⟨dest, hdest, Machine.rip_atOffset hhome₁.layout dest⟩
  have hsettled := Settled.entered hb hl.stations hnext (hhome₁.jumpTo _) ⟨_, hati⟩
  obtain ⟨m₂, p, hopens, hatbody, hsettled₂, hopened, hp, -⟩ :=
    hsettled.opens hb hasized hfunction hproc hati
    hstk₁ hfrm₁ (hroom.stacks hlink) (hargs.trans hlink)
  refine ⟨1 + openLines.length + (1 + (pushImm i.next).length), m₂, p, fun n => ?_,
    hsettled₂.performs hb hasized hatbody hopened ?_⟩
  · rw [← Nat.add_assoc]
    exact (hcalls.reaches _).trans (hopens.reaches n)
  intro n₁ n m₃ r hbody hsettled₃ hr hretn hatr hclosable n' hn'
  obtain ⟨m₄, hleave, hhome₄, hm₄, hstk₄, hfrm₄⟩ := hsettled₃.closes hb hasized
    List.cons_append.symm hr hretn hatr hclosable hp
  -- The run of the function starts at the instruction that opens its frame.
  have hinner : env.Body (before ++ i :: j :: after) (n₁ + (1 + openLines.length), m₁.atOffset dest)
      (n, m₃) := by
    refine ((Body.start _).step (hl.ready.next_of_goes hopens hatbody n₁) ?_).trans hbody
    exact hsettled₂.home.rsp.trans hsettled.home.rsp.symm
  subst hn'
  have hatj : ∀ m₅ : Machine, env.At j.address
      (m₅.jumpTo (env.layout.code + BitVec.ofNat 64 (o + linesSize (callCode i.arg i.next)))) :=
    fun m₅ => ⟨_, hnext, rfl⟩
  refine ⟨_, hleave.reaches n', hatj _, hstk₄, hfrm₄, hm₄.regs pri (by decide), hm₄.host, ?_⟩
  rw [← Nat.add_assoc]
  exact (Body.start _).call hpair hcall hm.rip (hl.ready.next_of_goes hcalls hati _)
    hinner hr hretn hatr (hl.ready.next_of_goes hleave (hatj _) n')

/-- What the host gets back from a function: its result is the primary register, and where the code
    for leaving has stored stack and frame, the host puts them anyway. The alternate register of the
    file is what it was. -/
structure Answers (env : Environment) (c : Invocation) (start n : Nat) (m₂ m₃ : Machine) :
    Prop where
  reaches : env.Reaches (n + 1 + exitSteps, m₂) (n + 1, m₃)
  host : m₃.rip = env.layout.hostReturn
  answer : env.answer start c = .ok (.ok (m₂.reg32 pri), c.host.putBack m₃.host)
  stk : m₃.host.vm.regs.stk = (c.host.putBack m₃.host).vm.regs.stk
  frm : m₃.host.vm.regs.frm = (c.host.putBack m₃.host).vm.regs.frm
  alt : (c.host.putBack m₃.host).vm.regs.alt = m₂.host.vm.regs.alt

/-- **Exit.** From the return of the function that the host called, with the stack and the frame
    that the host will put back, the call comes to its end. -/
theorem Opens.answers {ctx : Context} {K : Instance → Instance → Prop} {a : Activation}
    {m₀ m₂ m : Machine} {start n : Nat} {rets : List Word} (hopens : env.Opens c m₀ a)
    (hr : env.Ready ctx is a.host.vm.block.size) (hK : Steady K) (h : m.Inside env K a rets)
    (hrsp : m.reg .rsp = env.layout.slot (a.base + 12)) (hpri : m.reg pri = m₂.reg pri)
    (hhost : m.host = m₂.host)
    (hstk : m.HasStk (c.host.vm.regs.stk + BitVec.ofNat 32 (c.host.vm.pending * Cell.width)))
    (hfrm : m.HasFrm c.host.vm.regs.frm) (hstart : env.Reaches (start, m₀) (n + 1 + exitSteps, m₂))
    (hreach : env.Reaches (n + 1 + exitSteps, m₂) (n + 1 + (leaveSteps + 2), m.jumpTo env.back)) :
    ∃ m₃, env.Answers c start n m₂ m₃ := by
  obtain ⟨m₃, hdeparts⟩ := hr.departs_back hK rfl h hrsp
  have hreturned := hdeparts.returned
  have hend := hreach.trans (hdeparts.goes.reaches (n + 1))
  have hrun : env.run start m₀ = .ok m₃ := by
    rw [run_eq_of_reaches (hstart.trans hend)]
    exact run_of_host hreturned.rip
  have hrax : m₃.reg32 .rax = 0 := (Except.ok.inj hdeparts.exit.status).symm
  have hload : m₃.load32 (env.layout.slot (a.base + 4) + BitVec.ofNat 64 CallField.retval.offset) =
      .ok (m₂.reg32 pri) :=
    (hdeparts.exit.result rfl).trans (congrArg (fun w => Except.ok (BitVec.setWidth 32 w)) hpri)
  have hvm : m₃.host.vm = m.leftHost.vm := hdeparts.exit.vm
  refine ⟨m₃, hend, hreturned.rip, hopens.answer_value hrun hrax hload, ?_, ?_, ?_⟩
  · rw [hvm]
    exact hstk.spilled
  · rw [hvm]
    exact hfrm.spilled
  · show m₃.host.vm.regs.alt = _
    rw [hvm, ← hhost]
    rfl

/-- The steps from the entry of a call of the host to the body of the function. -/
def openingSteps : Nat := 1 + openLines.length + entrySteps

theorem Ready.performs {ctx : Context} (hr : env.Ready ctx is c.host.vm.block.size)
    (hsized : c.host.vm.Sized) (hfunction : [proc, body] <:+: is) (hproc : proc.opcode = .proc)
    (haddress : c.address = proc.address) (hpending : vm.pending = 0)
    (hpushed : args.reverse.foldlM Instance.push vm = .ok c.host.vm) (hroom : c.host.vm.Room 3)
    (hrsp : c.regs.get .rsp = env.layout.slot (c.depth + 1))
    (hdeep : 8 * (c.depth + 45) ≤ env.layout.stackSize) :
    ∃ (m₀ m₁ : Machine) (vm₁ : Instance) (p : Cell), env.Starts c vm₁ m₀ ∧
      (∀ n, env.Reaches (n + openingSteps, m₀) (n, m₁)) ∧
      (env.Performs is body m₁ p c.host.vm.regs.frm 0 args fun n₁ n m₂ =>
        ∀ n', n = n' + 1 + exitSteps → ∃ m₃, env.Answers c (n₁ + openingSteps) n' m₂ m₃) ∧
      m₁.host.vm.regs.alt = c.host.vm.regs.alt := by
  have hargs : vm.Stacks args c.host.vm := by
    have hstacks := Instance.stacks_foldlM (fun h => Except.ok.inj h) bind_eq_ok.mp
      Instance.stacks_push hpushed
    rwa [List.reverse_reverse] at hstacks
  have hcount : c.host.vm.pending = args.length := by
    rw [Instance.pending_pushes hpushed, hpending, List.length_reverse, Nat.zero_add]
  obtain ⟨o, ho⟩ : ∃ o, env.program.offset? c.address = some o := by
    refine Option.isSome_iff_exists.mp
      ((hr.finishes.offset_isSome_iff _).mpr ⟨proc, ?_, haddress.symm⟩)
    exact hfunction.subset List.mem_cons_self
  obtain ⟨vm₁, vm₂, hpush₁, hpush₂, hlink, hroom₂, hfrm₂, halt₂⟩ :=
    Instance.exists_linked hroom hsized (argBytes args)
  rw [argBytes, ← hcount] at hpush₁
  obtain ⟨m₀, a, m, hopens, hvm, -, hgoes, hhome, hloaded, hmvm⟩ :=
    hr.exists_start Instance.steady_fixed hrsp hdeep ho hpush₁ hpush₂
  have hstk := hloaded.hasStk
  have hfrm : m.HasFrm c.host.vm.regs.frm := by
    rw [Machine.HasFrm, hloaded.data, ← hfrm₂]
    exact hloaded.frm
  have hspilled : m.spilled = vm₂ := spilled_of_loaded hloaded hmvm
  rw [← hspilled] at hlink hroom₂
  have hready := hopens.ready hr
  have hb := hready.backs_fixed
  have hasized : a.host.vm.Sized := hopens.starts.fixed.sized hsized
  have hat : env.At proc.address (m.atOffset o) :=
    ⟨o, haddress ▸ ho, Machine.rip_atOffset hhome.layout o⟩
  have hsettled : env.Settled ctx is Instance.Fixed a [] (m.atOffset o) :=
    ⟨hhome.jumpTo _, ⟨_, hat⟩, ⟨List.forall_mem_nil _, List.prefix_rfl⟩,
      fun w hw => absurd hw (Option.not_mem_none w)⟩
  obtain ⟨m₁, p, hopening, hatbody, hsettled₁, hopened, hp, hregs⟩ :=
    hsettled.opens hb hasized hfunction hproc hat hstk hfrm hroom₂ (hargs.trans hlink)
  have halt : m₁.host.vm.regs.alt = c.host.vm.regs.alt := by
    rw [hregs, ← halt₂, ← hmvm]
    rfl
  refine ⟨m₀, m₁, a.host.vm, p, hopens.starts, fun n => ?_,
    hsettled₁.performs hb hasized hatbody hopened ?_, halt⟩
  · rw [openingSteps, ← Nat.add_assoc]
    exact (hgoes.reaches _).trans (hopening.reaches n)
  intro n₁ n m₂ r hbody hsettled₂ hr hretn hatr hclosable n' hn'
  obtain ⟨m₃, hleave, hhome₃, hm₃, hstk₃, hfrm₃⟩ := hsettled₂.closes hb hasized
    (List.nil_append _).symm hr hretn hatr hclosable hp
  -- The stack is where it was before the arguments were pushed.
  have hs : c.host.vm.regs.stk + BitVec.ofNat 32 (c.host.vm.pending * Cell.width) =
      vm.regs.stk := by
    have hlength := hargs.stk
    have hbound := vm.regs.stk.isLt
    apply BitVec.eq_of_toNat_eq
    rw [hcount, BitVec.toNat_add, BitVec.toNat_ofNat, show Cell.width = 4 from rfl]
    omega
  subst hn'
  have hinside := hhome₃.toInside.setReg (r := .rsp) (by decide) (env.layout.slot (a.base + 12))
  refine hopens.answers hready Instance.steady_fixed hinside rfl (hm₃.regs pri (by decide)) hm₃.host
    (hs ▸ hstk₃) hfrm₃ ?_ (hleave.reaches (n' + 1 + (leaveSteps + 2)))
  · have hstart := (hgoes.reaches _).trans ((hopening.reaches n₁).trans hbody.reaches)
    rwa [Nat.add_assoc, ← openingSteps] at hstart

/-- **The calling convention.** A function is called by an instruction that has its
    arguments and their size on the stack, or by the host that has pushed arguments. In the
    function, whatever it calls and however deep, its frame holds the size and the
    arguments. And when it returns, with its stack at its frame and with the link that it
    found there, the caller goes on: the instruction after the call with the stack before
    the arguments and with its own frame, the host with the primary register as the result
    and with a stack and a frame that it need not have put back. -/
theorem calling_convention
    (hcompile : Program.ofInstance config vm₀ = .ok env.program)
    (hlisting : Decodes vm₀.code 0 is none)
    (hfunction : [proc, body] <:+: is) (hproc : proc.opcode = .proc)
    (hseparate : env.layout.Separate c.host.vm.block.size env.program.code.size)
    (hsized : c.host.vm.Sized) :
    (∀ (start left : Nat) (i j : Instruction) (after : List Instruction) (m : Machine)
      (vm : Instance)
        (args : List Cell) (s f : Cell),
      env.Executes config vm₀ c start i (j :: after) left m → i.opcode = .call →
      i.arg = proc.address →
      (args.reverse ++ [argBytes args]).foldlM Instance.pushed? vm = some m.spilled →
      m.HasStk s → m.HasFrm f → m.spilled.Room 2 → 8 * (m.nativeWords + 1) ≤ env.layout.stackSize →
      ∃ (k : Nat) (m₁ : Machine) (p : Cell), (∀ n, env.Reaches (n + k, m) (n, m₁)) ∧
        env.Performs is body m₁ p f i.next args fun n₁ n m₂ => ∀ n', n = n' + retnSteps →
          ∃ m₃, env.Resumes is j vm.regs.stk f (n₁ + k, m) n' m₂ m₃) ∧
    ∀ (vm : Instance) (args : List Cell), c.address = proc.address → vm.pending = 0 →
      args.reverse.foldlM Instance.push vm = .ok c.host.vm → c.host.vm.Room 3 →
      c.regs.get .rsp = env.layout.slot (c.depth + 1) → 8 * (c.depth + 45) ≤ env.layout.stackSize →
      ∃ (k : Nat) (m₀ m₁ : Machine) (vm₁ : Instance) (p : Cell), env.Starts c vm₁ m₀ ∧
        (∀ n, env.Reaches (n + k, m₀) (n, m₁)) ∧
        env.Performs is body m₁ p c.host.vm.regs.frm 0 args fun n₁ n m₂ =>
          ∀ n', n = n' + 1 + exitSteps → ∃ m₃, env.Answers c (n₁ + k) n' m₂ m₃ := by
  constructor
  · intro start left i j after m vm args s f hm hcall harg hpushed hstk hfrm hroom hdeep
    exact hm.performs hlisting hsized hfunction hproc hcall harg hpushed (hstk.spilled ▸ hstk)
      hfrm hroom hdeep
  · intro vm args haddress hpending hpushed hroom hrsp hdeep
    have hfinishes := Program.finishes_of_listing hcompile hlisting
    obtain ⟨m₀, m₁, vm₁, p, hstarts, hreaches, hperforms, -⟩ :=
      Ready.performs ⟨hfinishes, hseparate⟩
      hsized hfunction hproc haddress hpending hpushed hroom hrsp hdeep
    exact ⟨openingSteps, m₀, m₁, vm₁, p, hstarts, hreaches, hperforms⟩

end

end Environment

/-! ### A function that answers its argument -/

/-- A call of the host at this address. -/
def importEntry (address : Cell) (vm : Instance) : Invocation where
  regs := { rsp := Layout.standard.stackTop - 64 }
  depth := 6
  address := address
  host := { vm := vm }

theorem room_importInstance : (importInstance 0 #[]).Room 7 := ⟨by decide, by decide, by decide⟩

theorem serves_importInstance {p : Program} {vm : Instance}
    (hp : Program.ofInstance {} (importInstance 0 #[]) = .ok p) (hsize : vm.block.size = 272) :
    Environment.Serves ⟨.standard, p⟩ vm :=
  Environment.serves_standard load_importImage hp (by omega)

/-- The host pushes an argument. -/
theorem push_importInstance : ∃ vm, (importInstance 0 #[]).push 7 = .ok vm ∧ vm.Sized ∧ vm.Room 3 ∧
    vm.block.size = 272 := by
  obtain ⟨vm, hpush⟩ : ∃ vm, (importInstance 0 #[]).push 7 = .ok vm :=
    exists_ok_of_isSome (show ((importInstance 0 #[]).push 7).toOption.isSome by decide +kernel)
  have hfixed := (Instance.operated_push hpush).toFixed
  have hroom := room_importInstance.stacks (Instance.stacks_push hpush)
  exact ⟨vm, hpush, hfixed.sized (Instance.sized_of_load load_importImage),
    hroom.mono (by decide), hfixed.size.trans (size_importInstance ..)⟩

theorem importFunction : [⟨52, .proc, []⟩, ⟨56, .loadSPri, [12]⟩] <:+: importListing :=
  ⟨importListing.take 7, importListing.drop 9, rfl⟩

/-- The body of the function loads its argument and returns. -/
theorem Environment.Performs.answers_argument {env : Environment} {m₁ : Machine} {p f ret v : Cell}
    {Back : Nat → Nat → Machine → Prop}
    (h : env.Performs importListing ⟨56, .loadSPri, [12]⟩ m₁ p f ret [v] Back) (n : Nat) :
    ∃ m₂, env.Reaches (n + 1, m₁) (n, m₂) ∧ m₂.reg32 pri = v ∧ m₂.host = m₁.host ∧
      Back (n + 1) n m₂ := by
  have hpair : [⟨56, .loadSPri, [12]⟩, ⟨64, .retn, []⟩] <:+: importListing :=
    ⟨importListing.take 8, [], rfl⟩
  obtain ⟨m₂, hreaches, hvalue, hchange, hnext⟩ :=
    h.loads (k := 1) (.start (n + 1, m₁)) (by decide) rfl h.starts h.opened.frm rfl rfl rfl
  obtain ⟨hat, hbody⟩ := hnext _ hpair
  refine ⟨m₂, hreaches, hvalue, hchange.host, h.returns hbody (by decide) rfl hat ⟨?_, ?_⟩⟩
  · exact h.opened.stk.becomes hchange (by decide)
  · rw [hchange.host]
    exact h.opened.closable.link

/-- The steps of a call of the function by the host. -/
def importSteps : Nat := 1 + Environment.exitSteps + 1 + Environment.openingSteps

/-- The function answers the argument that the host has pushed, from wherever it is called, and
    leaves the alternate register of the file alone. -/
theorem answer_importEntry (residue : Machine → Residue) {p : Program} {c : Invocation}
    {vm : Instance} {v : Cell} {n : Nat}
    (hp : Program.ofInstance {} (importInstance 0 #[]) = .ok p) (haddress : c.address = 52)
    (hsized : c.host.vm.Sized) (hsize : c.host.vm.block.size = 272) (hpending : vm.pending = 0)
    (hpush : vm.push v = .ok c.host.vm) (hroom : vm.Room 4)
    (hrsp : c.regs.get .rsp = Layout.standard.slot (c.depth + 1)) (hdepth : c.depth ≤ 1000)
    (hn : importSteps ≤ n) :
    ∃ host, Environment.answer ⟨⟨.standard, residue⟩, p⟩ n c = .ok (.ok v, host) ∧
      host.vm.regs.alt = vm.regs.alt := by
  have hfinishes := Program.finishes_of_listing hp decodes_importListing
  have hserves := serves_importInstance hp hsize
  have hr : Environment.Ready ⟨⟨.standard, residue⟩, p⟩ _ importListing c.host.vm.block.size :=
    ⟨hfinishes, hserves.separate⟩
  have hpushed : [v].reverse.foldlM Instance.push vm = .ok c.host.vm :=
    (bind_pure (vm.push v)).trans hpush
  obtain ⟨m₀, m₁, vm₁, q, -, -, hperforms, halt⟩ := hr.performs hsized importFunction rfl haddress
    hpending hpushed (hroom.stacks (Instance.stacks_push hpush)) hrsp
    (show 8 * (c.depth + 45) ≤ 0x800000 by omega)
  obtain ⟨n', rfl⟩ := Nat.exists_eq_add_of_le' hn
  obtain ⟨m₂, -, hvalue, hhost, hback⟩ :=
    hperforms.answers_argument (n' + 1 + Environment.exitSteps)
  obtain ⟨m₃, hanswers⟩ := hback n' rfl
  have hanswer := hanswers.answer
  rw [hvalue] at hanswer
  refine ⟨_, hanswer, ?_⟩
  rw [hanswers.alt, hhost, halt, (Instance.operated_push hpush).alt]

/-- The run of a call comes to the instruction that calls the function, and the argument and
    its size have been pushed. -/
theorem executes_importEntry {p : Program}
    (hp : Program.ofInstance {} (importInstance 0 #[]) = .ok p) :
    ∃ (start : Nat) (m : Machine) (vm : Instance), Environment.Executes ⟨.standard, p⟩ {}
        (importInstance 0 #[]) (importEntry 24 (importInstance 0 #[])) start ⟨40, .call, [52]⟩
        (importListing.drop 6) 0 m ∧
      [9, 4].foldlM Instance.pushed? vm = some m.spilled ∧ m.HasStk (vm.regs.stk - 4 - 4) ∧
      m.HasFrm 0 ∧ m.spilled.Room 2 ∧ 8 * (m.nativeWords + 1) ≤ Layout.standard.stackSize ∧
      vm.regs.stk = 116 := by
  have hsized := Instance.sized_of_load load_importImage
  obtain ⟨vm₁, vm, hpush₁, hpush₂, hlink, hroom, hzero, -⟩ :=
    Instance.exists_linked (n := 5) room_importInstance hsized 0
  obtain ⟨d, m, hexecutes, hloaded, hm, -, hdeep⟩ := Environment.exists_executes_on
    (c := importEntry 24 (importInstance 0 #[])) (fun _ => {}) (importListing.take 3)
    ⟨24, .pushC, [9]⟩ (importListing.drop 4) load_importImage hp decodes_importListing
    (show (importInstance 0 #[]).block.size ≤ _ by rw [size_importInstance]; decide) rfl
    (show 6 ≤ 1000 by decide) rfl hpush₁ hpush₂
  have hspilled : m.spilled = vm := Environment.spilled_of_loaded hloaded hm
  have hfrm : m.HasFrm 0 := by
    rw [Machine.HasFrm, hloaded.data, hloaded.frm, hzero]
    rfl
  obtain ⟨m₁, hexecutes₁, hstk₁, hfrm₁, hroom₁, hpushed₁, hwords₁⟩ :=
    (hexecutes 4).pushes hsized hloaded.hasStk hfrm (hspilled ▸ hroom)
  obtain ⟨m₂, hexecutes₂, hstk₂, hfrm₂, hroom₂, hpushed₂, hwords₂⟩ :=
    hexecutes₁.pushes hsized hstk₁ hfrm₁ hroom₁
  refine ⟨_, m₂, vm, hexecutes₂, ?_, hstk₂, hfrm₂, ?_, ?_, ?_⟩
  · rw [← hspilled]
    exact Option.bind_eq_some_iff.mpr
      ⟨_, hpushed₁, (bind_pure (m₁.spilled.pushed? 4)).trans hpushed₂⟩
  · exact hroom₂.mono (by decide)
  · rw [hwords₂, hwords₁]
    omega
  · have hstk : vm.regs.stk.toNat + 4 * 2 = 124 := hlink.stk
    exact BitVec.eq_of_toNat_eq (show vm.regs.stk.toNat = 116 by omega)

/-- The function answers its argument, to the instruction after its call, with the stack as it was
    before anything was pushed, and to the host. -/
theorem importEntry_keeps_convention :
    ∃ (p : Program) (m₃ : Machine) (vm : Instance) (start : Nat) (host : Host),
      Program.ofInstance {} (importInstance 0 #[]) = .ok p ∧
      Environment.At ⟨.standard, p⟩ 48 m₃ ∧ m₃.HasStk 116 ∧ m₃.HasFrm 0 ∧ m₃.reg32 pri = 9 ∧
      [7].foldlM Instance.push (importInstance 0 #[]) = .ok vm ∧
      Environment.answer ⟨.standard, p⟩ start (importEntry 52 vm) = .ok (.ok 7, host) := by
  obtain ⟨p, hp⟩ := exists_importProgram
  have hsized := Instance.sized_of_load load_importImage
  obtain ⟨start, m, vm₁, hexecutes, hpushed, hstk, hfrm, hroom, hdeep, hbefore⟩ :=
    executes_importEntry hp
  obtain ⟨vm, hpush, hsized', hroom', hsize⟩ := push_importInstance
  have hpushes : [7].foldlM Instance.push (importInstance 0 #[]) = .ok vm :=
    (bind_pure (Instance.push _ 7)).trans hpush
  obtain ⟨hcode, -⟩ := Environment.calling_convention (c := importEntry 24 (importInstance 0 #[]))
    hp decodes_importListing importFunction rfl
    (serves_importInstance hp (size_importInstance ..)).separate hsized
  obtain ⟨-, hhost⟩ := Environment.calling_convention (c := importEntry 52 vm) hp
    decodes_importListing importFunction rfl (serves_importInstance hp hsize).separate hsized'
  obtain ⟨k, m₁, q, -, hperforms⟩ :=
    hcode _ _ _ _ _ m vm₁ [9] _ _ hexecutes rfl rfl hpushed hstk hfrm hroom hdeep
  obtain ⟨m₂, -, hnine, -, hback⟩ := hperforms.answers_argument (0 + Environment.retnSteps)
  obtain ⟨m₃, hresumes⟩ := hback 0 rfl
  have hpri : m₃.reg32 pri = 9 := (congrArg (BitVec.setWidth 32) hresumes.pri).trans hnine
  obtain ⟨k', m₀', m₁', vm', q', -, -, hperforms'⟩ := hhost (importInstance 0 #[]) [7] rfl rfl
    hpushes hroom' rfl (show 8 * (6 + 45) ≤ Layout.standard.stackSize by decide)
  obtain ⟨m₂', -, hseven, -, hback'⟩ := hperforms'.answers_argument (0 + 1 + Environment.exitSteps)
  obtain ⟨m₃', hanswers⟩ := hback' 0 rfl
  have hanswer := hanswers.answer
  rw [hseven] at hanswer
  rw [hbefore] at hresumes
  exact ⟨p, m₃, vm, _, _, hp, hresumes.at_next, hresumes.stk, hresumes.frm, hpri, hpushes, hanswer⟩

/-- A native that passes an argument on to the function. -/
def passOn : Native := fun _ =>
  .act (.push 1) fun _ => .act (.call 52) fun answer => .ofExcept answer

/-- The native answers what the function answers. -/
theorem exec_passOn {k : Callbacks} {h h' : Host} {vm : Instance} {v : Cell} (call : NativeCall)
    (hpush : h.vm.push 1 = .ok vm) (hcall : k.call 52 (h.setVm vm) = .ok (.ok v, h')) :
    (passOn call).exec k h = .ok (.ok v, h') := by
  have hcommit : k.perform (.push 1) h = .ok (.ok (), h.setVm vm) := by
    show Except.ok (h.commit (h.vm.push 1)) = _
    rw [hpush]
    rfl
  exact bind_eq_ok.mpr ⟨_, hcommit, bind_eq_ok.mpr ⟨_, hcall, rfl⟩⟩

end PawnNative
