import Mathlib.Tactic.Common
import PawnNative.Proofs.Leaving

/-! # Entering an activation

    The host puts the record of the call below its own part of the native stack and
    enters the program. The code at the start of the program saves the registers of
    the host below the record, loads the registers of the abstract machine and calls
    the function. When the native stack has room for all that, the machine is home
    at the start of the function; otherwise the run has no result.
-/

namespace PawnNative

open X64 Convention

/-! ## Section 1: The record -/

/-- A machine that is about to enter a program. -/
structure Machine.Entered (m : Machine) (env : Environment) (a : Activation) (target : Word) :
    Prop where
  layout : m.layout = env.layout
  rip : m.rip = env.layout.code
  record : m.reg .rdi = env.layout.slot (a.base + 4)
  target : m.reg .rsi = target
  rsp : m.reg .rsp = env.layout.slot (a.base + 5)
  regs : ∀ r ∈ hostRegs, m.reg r = a.regs.get r
  room : 8 * (a.base + 6) ≤ env.layout.stackSize
  vm : m.host.vm = a.host.vm
  fields : m.host.stack.Holds (a.base + 2) [a.data env.layout, env.layout.file]
  fault : m.host.stack.get (2 * a.base) = 0
  back : m.host.stack.word (a.base + 5) = env.layout.hostReturn
  outer : a.host.stack.Agrees a.base m.host.stack

theorem Machine.Entered.atOffset {m : Machine} {env : Environment} {a : Activation} {target : Word}
    (h : m.Entered env a target) : m.atOffset 0 = m := by
  obtain ⟨layout, regs, xmm, flags, down, rip, host⟩ := m
  have hrip : rip = env.layout.code := h.rip
  have hlayout : layout = env.layout := h.layout
  rw [hrip, hlayout, Machine.atOffset, Machine.jumpTo]
  simp

namespace Layout

theorem slot_sub_mul (l : Layout) (j k : Nat) :
    l.slot j - BitVec.ofNat 64 (8 * k) = l.slot (j + k) := by
  rw [← l.slot_add j k, BitVec.add_sub_cancel]

/-- The record of a call lies below the part of the native stack that the host uses. -/
theorem Separate.recordAddress_slot {l : Layout} {size code : Nat} (hs : l.Separate size code)
    (j : Nat) : ∃ base, j + 28 ≤ base ∧ base ≤ j + 29 ∧
      Environment.recordAddress (l.slot j) = l.slot (base + 4) := by
  obtain ⟨j', hlow, hhigh, halign, -⟩ := hs.slot_align (j + 32)
  refine ⟨j' - 4, by omega, by omega, ?_⟩
  have hframe : l.slot j - Environment.hostFrame = l.slot (j + 32) := l.slot_sub_mul j 32
  rw [Environment.recordAddress, hframe, halign, show j' - 4 + 4 = j' by omega]

end Layout

namespace Environment

variable {env : Environment} {h : Host} {code base : Nat}

/-- The record of a call on the native stack. -/
def recorded (env : Environment) (h : Host) (base : Nat) : NativeStack :=
  let data := env.layout.block + h.vm.header.dat.setWidth 64
  let s := ((h.stack.setWord (base + 4) 0).setWord (base + 3) env.layout.file).setWord
    (base + 2) data
  (s.set (2 * base + 1) 0).set (2 * base) 0

theorem writeRecord_slot (hs : env.layout.Separate h.vm.block.size code)
    (hroom : 8 * (base + 5) ≤ env.layout.stackSize) :
    env.writeRecord h (env.layout.slot (base + 4)) =
      .ok { h with stack := env.recorded h base } := by
  have hhalt : env.layout.slot (base + 4) + BitVec.ofNat 64 CallField.haltRsp.offset =
    env.layout.slot (base + 4) := env.layout.slot_add (base + 4) 0
  have hregs : env.layout.slot (base + 4) + BitVec.ofNat 64 CallField.regs.offset =
    env.layout.slot (base + 3) := env.layout.slot_add (base + 3) 1
  have hdata : env.layout.slot (base + 4) + BitVec.ofNat 64 CallField.data.offset =
    env.layout.slot (base + 2) := env.layout.slot_add (base + 2) 2
  have hretval : env.layout.slot (base + 4) + BitVec.ofNat 64 CallField.retval.offset =
    env.layout.slot base := env.layout.slot_add base 4
  have herror : env.layout.slot (base + 4) + BitVec.ofNat 64 CallField.error.offset =
      env.layout.slot base + 4 := by
    rw [← hretval, BitVec.add_assoc]
    rfl
  -- Each field is a place of its own on the native stack.
  obtain ⟨vm, stack, log⟩ := h
  have hput64 : ∀ (s : NativeStack) {j : Nat} (v : Word), 8 * (j + 1) ≤ env.layout.stackSize →
      Machine.reached (env.layout.slot j)
        (Host.store64 ⟨vm, s, log⟩ env.layout (env.layout.slot j) v) =
        .ok ⟨vm, s.setWord j v, log⟩ := by
    intro s j v hj
    exact Machine.reached_eq_ok.mpr (Host.store64_slot (h := ⟨vm, s, log⟩) hs hj v)
  have hlow : ∀ s : NativeStack, Machine.reached (env.layout.slot base)
      (Host.store32 ⟨vm, s, log⟩ env.layout (env.layout.slot base) 0) =
        .ok ⟨vm, s.set (2 * base + 1) 0, log⟩ := fun s =>
    Machine.reached_eq_ok.mpr (Host.store32_slot (h := ⟨vm, s, log⟩) hs (by omega) 0)
  have hhigh : ∀ s : NativeStack, Machine.reached (env.layout.slot base + 4)
      (Host.store32 ⟨vm, s, log⟩ env.layout (env.layout.slot base + 4) 0) =
        .ok ⟨vm, s.set (2 * base) 0, log⟩ := fun s =>
    Machine.reached_eq_ok.mpr (Host.store32_slot_high (h := ⟨vm, s, log⟩) hs (by omega) 0)
  unfold writeRecord
  simp only [hhalt, hregs, hdata, hretval, herror]
  rw [hput64 _ _ (by omega), ok_bind, hput64 _ _ (by omega), ok_bind,
    hput64 _ _ (by omega), ok_bind, hlow, ok_bind, hhigh]
  rfl

variable {regs : RegFile} {target : Word} {m : Machine} {j : Nat}

/-- The machine that enters a program, before the address where the host goes on is pushed. -/
def prepared (env : Environment) (regs : RegFile) (h : Host) (target : Word) (base : Nat) :
    Machine where
  layout := env.layout
  regs := ((regs.set .rsp (env.layout.slot (base + 4))).set .rdi (env.layout.slot (base + 4))).set
    .rsi target
  rip := env.layout.code
  host := { h with stack := env.recorded h base }

section
variable (hs : env.layout.Separate h.vm.block.size code)
  (hrecord : recordAddress (regs.get .rsp) = env.layout.slot (base + 4))
include hs hrecord

theorem entry_eq (hroom : 8 * (base + 5) ≤ env.layout.stackSize) :
    env.entry regs h target = (env.prepared regs h target base).push env.layout.hostReturn := by
  unfold entry
  simp only [hrecord]
  rw [writeRecord_slot hs hroom]
  rfl

theorem exists_entry (hroom : 8 * (base + 6) ≤ env.layout.stackSize) :
    ∃ m, env.entry regs h target = .ok m ∧ m.Entered env ⟨base, regs, h⟩ target := by
  have hpush := Machine.push_slot (m := env.prepared regs h target base) (l := env.layout)
    (j := base + 4) rfl hs rfl (by omega) env.layout.hostReturn
  refine ⟨_, (entry_eq hs hrecord (by omega)).trans hpush, ?_⟩
  -- The pushed word is below the record, so every field is as `writeRecord` left it.
  constructor
  case layout => rfl
  case rip => rfl
  case record => rfl
  case target => rfl
  case rsp => rfl
  case regs =>
    intro r hr
    simp only [hostRegs, List.mem_cons, List.not_mem_nil, or_false] at hr
    rcases hr with rfl | rfl | rfl | rfl | rfl | rfl <;> rfl
  case room => exact hroom
  case vm => dsimp only [Machine.setHost, prepared]
  case fields =>
    intro i hi
    have hi : i < 2 := hi
    dsimp only [Machine.setHost, prepared]
    rw [NativeStack.word_setWord_ne _ _ (by omega), recorded,
      NativeStack.word_set_ne _ _ (by omega), NativeStack.word_set_ne _ _ (by omega)]
    obtain rfl | rfl : i = 0 ∨ i = 1 := by omega
    · rw [Nat.add_zero, NativeStack.word_setWord_self]
      rfl
    · rw [NativeStack.word_setWord_ne _ _ (by omega), NativeStack.word_setWord_self]
      rfl
  case fault =>
    dsimp only [Machine.setHost, prepared]
    rw [NativeStack.get_setWord_ne _ _ (by omega) (by omega), recorded, NativeStack.get_set_self]
  case back =>
    dsimp only [Machine.setHost]
    rw [NativeStack.word_setWord_self]
  case outer =>
    intro i hi
    have hi : i < 2 * base := hi
    dsimp only [Machine.setHost, prepared, recorded]
    rw [NativeStack.get_setWord_ne _ _ (by omega) (by omega), NativeStack.get_set_ne _ _ (by omega),
      NativeStack.get_set_ne _ _ (by omega), NativeStack.get_setWord_ne _ _ (by omega) (by omega),
      NativeStack.get_setWord_ne _ _ (by omega) (by omega),
      NativeStack.get_setWord_ne _ _ (by omega) (by omega)]

theorem room_of_entry (hbase : 8 * (base + 6) < 0x10000000000000000)
    (hentry : env.entry regs h target = .ok m) : 8 * (base + 6) ≤ env.layout.stackSize := by
  have hroom : 8 * (base + 5) ≤ env.layout.stackSize := by
    by_contra hfull
    have hnone : h.store64 env.layout (env.layout.slot (base + 4)) 0 = none :=
      Host.store64_slot_eq_none (by omega) (by omega) 0
    have hhalt : env.layout.slot (base + 4) + BitVec.ofNat 64 CallField.haltRsp.offset =
      env.layout.slot (base + 4) := env.layout.slot_add (base + 4) 0
    unfold entry writeRecord at hentry
    simp only [hrecord, hhalt, hnone] at hentry
    cases hentry
  by_contra hfull
  have hpush := Machine.push_full (m := env.prepared regs h target base) (l := env.layout)
    (j := base + 4) rfl rfl hbase (by omega) env.layout.hostReturn
  rw [entry_eq hs hrecord hroom, hpush] at hentry
  cases hentry

end

end Environment

/-! ## Section 2: The code for entering -/

namespace Machine

variable {m : Machine} {l : Layout} {code j : Nat} (hm : m.layout = l)
  (hs : l.Separate m.host.vm.block.size code)
include hm hs

theorem execLines_pushes (rs : List Reg) (hrs : Reg.rsp ∉ rs) (hrsp : m.reg .rsp = l.slot j)
    (hroom : 8 * (j + rs.length + 1) ≤ l.stackSize) :
    ∃ m' s, execLines (rs.map fun r => .op (.push r)) m = .ok m' ∧
      Becomes [.rsp] { m.host with stack := s } m m' ∧ m'.reg .rsp = l.slot (j + rs.length) ∧
      s.Holds (j + 1) (rs.map m.reg) ∧ m.host.stack.Agrees (j + 1) s := by
  induction rs generalizing m j with
  | nil => exact ⟨m, m.host.stack, rfl, .refl _ m, hrsp, nofun, .refl _ _⟩
  | cons r rs ih =>
    rw [List.mem_cons, not_or] at hrs
    rw [List.length_cons] at hroom
    have hpush : m.exec (.push r) = .ok _ := push_slot hm hs hrsp (by omega) (m.reg r)
    have hm₁ := ((Becomes.refl [.rsp] m).setReg (r := .rsp) (by decide) (l.slot (j + 1))).setHost
      { m.host with stack := m.host.stack.setWord (j + 1) (m.reg r) }
    obtain ⟨m', s, hexec, hm', hrsp', hholds, hagrees⟩ := ih (j := j + 1) (hm₁.layout.trans hm) hs
      hrs.2 rfl (by omega)
    refine ⟨m', s, (execLines_cons hpush).trans hexec, hm₁.trans hm', ?_, ?_, ?_⟩
    · rw [hrsp', List.length_cons, show j + (rs.length + 1) = j + 1 + rs.length by omega]
    -- A push changes `rsp` only, so the registers that are still to be pushed have their values.
    · have hsame : rs.map m.reg = rs.map
          ((m.setReg .rsp (l.slot (j + 1))).setHost
            { m.host with stack := m.host.stack.setWord (j + 1) (m.reg r) }).reg := by
        refine List.map_congr_left fun r' hr' => ?_
        have hne : r' ≠ .rsp := by
          rintro rfl
          exact hrs.2 hr'
        exact (RegFile.get_set_ne _ _ hne).symm
      rw [List.map_cons, hsame]
      refine .cons ?_ hholds
      rw [hagrees.word (by omega)]
      dsimp only [setHost]
      rw [NativeStack.word_setWord_self]
    · have hfirst := NativeStack.agrees_setWord m.host.stack (m.reg r) (Nat.le_refl (j + 1))
      exact hfirst.trans (hagrees.mono (by omega))

/-- Without room for all of them the last ones cannot be pushed. -/
theorem execLines_pushes_full (rs : List Reg) (hrsp : m.reg .rsp = l.slot j)
    (hj : 8 * (j + 1) ≤ l.stackSize) (hfull : l.stackSize < 8 * (j + rs.length + 1)) :
    ∃ e, execLines (rs.map fun r => .op (.push r)) m = .error e := by
  induction rs generalizing m j with
  | nil => exact absurd hj (by rw [List.length_nil] at hfull; omega)
  | cons r rs ih =>
    rw [List.length_cons] at hfull
    by_cases hroom : 8 * (j + 2) ≤ l.stackSize
    · have hpush : m.exec (.push r) = .ok _ := push_slot hm hs hrsp hroom (m.reg r)
      obtain ⟨e, he⟩ := ih (m := (m.setReg .rsp (l.slot (j + 1))).setHost
        { m.host with stack := m.host.stack.setWord (j + 1) (m.reg r) }) (j := j + 1) hm hs rfl
          hroom (by omega)
      exact ⟨e, (execLines_cons hpush).trans he⟩
    · have hbounded := hs.bounded
      have hpush : m.exec (.push r) = .error _ := push_full hm hrsp (by omega) (by omega) (m.reg r)
      refine ⟨.badAddress (l.slot (j + 1)), ?_⟩
      rw [List.map_cons, execLines, hpush]
      rfl

end Machine

/-- Saves the registers of the host and the stack pointer. -/
def saveLines : List Line :=
  hostRegs.map (fun r => .op (.push r)) ++
  [.op (.aluRI .sub .q .rsp 8), .op (.movRR .q call .rdi), .op (.store .q (field .haltRsp) .rsp)]

def setupLines : List Line :=
  .op (.load .q data (field .data)) :: loadFile .rdx ::
  ((loadAbsolute stk .stk ++ loadAbsolute frm .frm) ++
    [.op (.load .d pri (saved .rdx .pri)), .op (.load .d alt (saved .rdx .alt))])

/-- How many steps it takes to come to the function that is called. -/
def entrySteps : Nat := 1 + (saveLines ++ setupLines).length

theorem entryLines_eq :
    entryLines = saveLines ++ setupLines ++ .op (.callR .rsi) :: entryLines.drop 18 := rfl

theorem linesFrom_entry (ctx : Context) (is : List Instruction) : ∃ rest, LinesFrom ctx is 0
    (saveLines ++ setupLines ++ .op (.callR .rsi) :: (entryLines.drop 18 ++ rest)) := by
  obtain ⟨rest, hat⟩ := linesFrom_prologue ctx is
  refine ⟨leaveLines ++ haltLines ++ rest, ?_⟩
  rw [prologue, entryLines_eq] at hat
  simpa only [List.append_assoc, List.cons_append] using hat

/-- The processor holds these registers of the abstract machine, with the data segment at `d`. -/
structure Machine.Loaded (m : Machine) (d : Word) (r : Registers) : Prop where
  data : m.reg data = d
  stk : m.reg stk = d + r.stk.setWidth 64
  frm : m.reg frm = d + r.frm.setWidth 64
  pri : m.reg pri = r.pri.setWidth 64
  alt : m.reg alt = r.alt.setWidth 64

/-- A machine that is about to call the function. -/
structure Machine.Poised (m : Machine) (env : Environment) (a : Activation) (target : Word) :
    Prop where
  layout : m.layout = env.layout
  vm : m.host.vm = a.host.vm
  record : m.reg call = env.layout.slot (a.base + 4)
  rsp : m.reg .rsp = env.layout.slot (a.base + 12)
  target : m.reg .rsi = target
  loaded : m.Loaded (a.data env.layout) a.host.vm.regs
  file : m.reg .rdx = env.layout.file
  words : m.host.stack.Holds (a.base + 2) (a.words env.layout)
  fault : m.host.stack.get (2 * a.base) = 0
  outer : a.host.stack.Agrees a.base m.host.stack

theorem Machine.execLines_setup {m : Machine} {l : Layout} {code base : Nat} (hm : m.layout = l)
    (hs : l.Separate m.host.vm.block.size code) {d : Word} {ws : List Word}
    (hcall : m.reg call = l.slot (base + 4)) (hroom : 8 * (base + 5) ≤ l.stackSize)
    (hwords : m.host.stack.Holds (base + 2) (d :: l.file :: ws)) :
    ∃ m', execLines setupLines m = .ok m' ∧ Becomes [data, .rdx, stk, frm, pri, alt] m.host m m' ∧
      m'.Loaded d m.host.vm.regs ∧ m'.reg .rdx = l.file := by
  have hdata : m.exec (.load .q data (field .data)) = .ok (m.setReg data d) := by
    rw [← hwords.head]
    exact exec_loadField (k := 2) hm hs .data hcall rfl (by omega) data
  have hfile : (m.setReg data d).exec (.load .q .rdx (field .regs)) =
      .ok ((m.setReg data d).setReg .rdx l.file) := by
    rw [← hwords.tail.head]
    exact exec_loadField (m := m.setReg data d) (k := 1) hm hs .regs hcall rfl (by omega) .rdx
  obtain ⟨m₁, hframes, hm₁, hstk, hfrm⟩ := execLines_loadFrames
    (m := (m.setReg data d).setReg .rdx l.file) hm hs rfl
  have hfirst : Becomes [data, .rdx, stk, frm, pri, alt] m.host m m₁ :=
    (((Becomes.refl _ m).setReg (by decide) _).setReg (by decide) _).trans (hm₁.mono (by decide))
  have hs₁ : l.Separate m₁.host.vm.block.size code := by
    rw [hm₁.host]
    exact hs
  have hrdx : m₁.reg .rdx = l.file := hm₁.regs _ (by decide)
  have hpri := exec_loadSaved (hfirst.layout.trans hm) hs₁ hrdx .pri pri
  have halt := exec_loadSaved (m := m₁.setReg32 pri (m₁.host.vm.regs.get .pri))
    (hfirst.layout.trans hm) hs₁ hrdx .alt alt
  refine ⟨_, (execLines_cons hdata).trans ((execLines_cons hfile).trans
    ((execLines_append_ok hframes).trans ((execLines_cons hpri).trans (execLines_cons halt)))),
    (hfirst.setReg (by decide) _).setReg (by decide) _, ?_, hrdx⟩
  constructor
  case data => exact hm₁.regs Convention.data (by decide)
  case stk => exact hstk
  case frm => exact hfrm
  case pri =>
    show (m₁.host.vm.regs.get .pri).setWidth 64 = _
    rw [hfirst.host]
    rfl
  case alt =>
    show (m₁.host.vm.regs.get .alt).setWidth 64 = _
    rw [hfirst.host]
    rfl

namespace Environment.Ready

variable {env : Environment} {ctx : Context} {is : List Instruction} {size : Nat}
  (hr : env.Ready ctx is size) {K : Instance → Instance → Prop} (hK : Steady K) {m : Machine}
  {a : Activation} {target : Word} (hsize : a.host.vm.block.size = size)
include hr hsize

theorem execLines_save (h : m.Entered env a target)
    (hroom : 8 * (a.base + 12) ≤ env.layout.stackSize) :
    ∃ m' s, Machine.execLines saveLines m = .ok m' ∧
      Machine.Becomes [.rsp, call] { m.host with stack := s } m m' ∧
      m'.reg call = env.layout.slot (a.base + 4) ∧ m'.reg .rsp = env.layout.slot (a.base + 12) ∧
      s.Holds (a.base + 2) (a.words env.layout) ∧ s.get (2 * a.base) = 0 ∧
      a.host.stack.Agrees a.base s := by
  have hs : env.layout.Separate m.host.vm.block.size env.program.code.size := by
    rw [h.vm, hsize]
    exact hr.separate
  obtain ⟨m₁, s₁, hpushes, hm₁, hrsp₁, hregs, hagrees⟩ :=
    Machine.execLines_pushes h.layout hs hostRegs
    (by decide) h.rsp (by show 8 * (a.base + 5 + 6 + 1) ≤ _; omega)
  have hagrees : m.host.stack.Agrees (a.base + 6) s₁ := hagrees
  -- What the native stack holds once the pointer for a halt is in the record.
  obtain ⟨s, hstack⟩ : ∃ s, s = s₁.setWord (a.base + 4) (env.layout.slot (a.base + 12)) := ⟨_, rfl⟩
  have hword : ∀ j, j < a.base + 6 → j ≠ a.base + 4 → s.word j = m.host.stack.word j := by
    intro j hj hne
    rw [hstack, NativeStack.word_setWord_ne _ _ hne, hagrees.word hj]
  have hget : ∀ i, i < 2 * (a.base + 2) → s.get i = m.host.stack.get i := by
    intro i hi
    rw [hstack, NativeStack.get_setWord_ne _ _ (by omega) (by omega), hagrees i (by omega)]
  have hrdi : m₁.reg .rdi = env.layout.slot (a.base + 4) := by
    rw [hm₁.regs _ (by decide), h.record]
  let m₂ := (m₁.alu64 .sub .rsp ((8 : Cell).signExtend 64)).setReg call (m₁.reg .rdi)
  have hm₂ : Machine.Becomes [.rsp, call] { m.host with stack := s₁ } m m₂ :=
    (((hm₁.mono (by decide)).setFlags _).setReg (by decide) _).setReg (by decide) _
  have hrsp₂ : m₂.reg .rsp = env.layout.slot (a.base + 12) := by
    show m₁.reg .rsp - 8 = _
    rw [hrsp₁]
    exact env.layout.slot_sub (a.base + 11)
  have hs₂ : env.layout.Separate m₂.host.vm.block.size env.program.code.size := by
    rw [hm₂.host]
    exact hs
  have hhalt := Machine.exec_storeHalt (m := m₂) (j := a.base + 4) (hm₂.layout.trans h.layout) hs₂
    hrdi (by omega) .rsp
  rw [hrsp₂, hm₂.host] at hhalt
  dsimp only at hhalt
  rw [← hstack] at hhalt
  refine ⟨_, s, (Machine.execLines_append_ok hpushes).trans ((Machine.execLines_cons rfl).trans
    ((Machine.execLines_cons rfl).trans (Machine.execLines_cons hhalt))),
    hm₂.setHost _, hrdi, hrsp₂, ?_, ?_, ?_⟩
  · refine .cons ?_ (.cons ?_ (.cons ?_ (.cons ?_ ?_)))
    · rw [hword _ (by omega) (by omega), h.fields.head]
    · rw [hword _ (by omega) (by omega), h.fields.tail.head]
    · rw [hstack, NativeStack.word_setWord_self]
    · rw [hword _ (by omega) (by omega), h.back]
    · rw [← List.map_congr_left h.regs, hstack]
      exact hregs.setWord _ (Or.inl (by omega))
  · rw [hget _ (by omega), h.fault]
  · intro i hi
    rw [hget i (by omega), h.outer i hi]

/-- With room for the registers of the host a machine comes to the call of the function. -/
theorem goes_setup (h : m.Entered env a target)
    (hroom : 8 * (a.base + 12) ≤ env.layout.stackSize) :
    ∃ m' : Machine, env.Goes (env.Between ctx is) (saveLines ++ setupLines).length m
        (m'.atOffset (linesSize (saveLines ++ setupLines))) ∧
      env.Between ctx is (m'.atOffset (linesSize (saveLines ++ setupLines))) ∧
      m'.Poised env a target := by
  obtain ⟨m₁, s, hsave, hm₁, hcall, hrsp, hwords, hfault, houter⟩ := hr.execLines_save hsize h hroom
  have hs₁ : env.layout.Separate m₁.host.vm.block.size env.program.code.size := by
    rw [hm₁.host]
    show env.layout.Separate m.host.vm.block.size _
    rw [h.vm, hsize]
    exact hr.separate
  obtain ⟨m₂, hsetup, hm₂, hloaded, hfile⟩ :=
    Machine.execLines_setup (hm₁.layout.trans h.layout) hs₁ hcall
    (by omega) (by rw [hm₁.host]; exact hwords)
  rw [hm₁.host] at hm₂ hloaded
  have hlayout : m₂.layout = env.layout := hm₂.layout.trans (hm₁.layout.trans h.layout)
  obtain ⟨rest, hat⟩ := linesFrom_entry ctx is
  have hne : saveLines ++ setupLines ≠ [] := List.cons_ne_nil _ _
  have hgoes := hr.goes_lines _ hne rfl hat h.layout
    ((Machine.execLines_append_ok hsave).trans hsetup)
  rw [h.atOffset, Nat.zero_add] at hgoes
  refine ⟨m₂, hgoes, ?_, ?_⟩
  · exact hr.between_prologue (by decide) (by decide) (by decide) hlayout
  · constructor
    case layout => exact hlayout
    case vm =>
      rw [hm₂.host]
      exact h.vm
    case record => rw [hm₂.regs _ (by decide), hcall]
    case rsp => rw [hm₂.regs _ (by decide), hrsp]
    case target => rw [hm₂.regs _ (by decide), hm₁.regs _ (by decide), h.target]
    case loaded =>
      rw [← h.vm]
      exact hloaded
    case file => exact hfile
    case words =>
      rw [hm₂.host]
      exact hwords
    case fault =>
      rw [hm₂.host]
      exact hfault
    case outer =>
      rw [hm₂.host]
      exact houter

omit hsize in
theorem stands_call : env.program.code.readAt (linesSize (saveLines ++ setupLines)) =
    some (.callR .rsi, 2) := by
  obtain ⟨rest, hat⟩ := linesFrom_entry ctx is
  obtain ⟨k, hread⟩ := hr.finishes.stands hat.drop
  rw [Nat.zero_add] at hread
  exact hread

/-- **Entering.** With room on the native stack the function is called. -/
theorem goes_entry (hK : Steady K) (h : m.Entered env a target)
    (hroom : 8 * (a.base + 14) ≤ env.layout.stackSize) :
    ∃ m' : Machine, env.Goes (env.Between ctx is) entrySteps m (m'.jumpTo target) ∧
      m'.Home env K a [] ∧ m'.Loaded (a.data env.layout) a.host.vm.regs ∧ m'.host.vm = a.host.vm ∧
      m'.reg .rdx = env.layout.file := by
  obtain ⟨m₁, hgoes, hbetween, hm₁⟩ := hr.goes_setup hsize h (by omega)
  -- The call pushes where the entry goes on.
  let m₂ := (m₁.setReg .rsp (env.layout.slot (a.base + 13))).setHost
    { m₁.host with stack := m₁.host.stack.setWord (a.base + 13) env.back }
  have hcall : (m₁.atOffset (linesSize (saveLines ++ setupLines) + 2)).exec (.callR .rsi) =
      .ok (m₂.jumpTo target) := by
    have hs₁ : env.layout.Separate m₁.host.vm.block.size env.program.code.size := by
      rw [hm₁.vm, hsize]
      exact hr.separate
    have hback : (m₁.atOffset (linesSize (saveLines ++ setupLines) + 2)).rip = env.back := by
      show m₁.layout.code + _ = _
      rw [hm₁.layout]
      rfl
    have hpush := Machine.push_slot (m := m₁.atOffset (linesSize (saveLines ++ setupLines) + 2))
      (j := a.base + 12) hm₁.layout hs₁ hm₁.rsp (by omega) env.back
    show (Machine.push _ (m₁.atOffset (linesSize (saveLines ++ setupLines) + 2)).rip >>= _) = _
    rw [hback, hpush]
    show Except.ok (Machine.jumpTo _ (m₁.reg .rsi)) = _
    rw [hm₁.target]
    rfl
  refine ⟨m₂, hgoes.trans hbetween (hr.goes_read hr.stands_call hm₁.layout hcall), ?_,
    ⟨hm₁.loaded.data, hm₁.loaded.stk, hm₁.loaded.frm, hm₁.loaded.pri, hm₁.loaded.alt⟩,
    hm₁.vm, hm₁.file⟩
  constructor
  case toInside =>
    constructor
    case layout => exact hm₁.layout
    case steady =>
      show K a.host.vm m₁.host.vm
      rw [hm₁.vm]
      exact hK.refl _
    case record => exact hm₁.record
    case data => exact hm₁.loaded.data
    case words =>
      dsimp only [m₂, Machine.setHost]
      exact hm₁.words.setWord _ (Or.inr (by rw [Activation.length_words]; omega))
    case returns =>
      dsimp only [m₂, Machine.setHost]
      exact .cons (NativeStack.word_setWord_self ..) nofun
    case room => exact hroom
    case outer =>
      dsimp only [m₂, Machine.setHost]
      exact hm₁.outer.trans (NativeStack.agrees_setWord _ _ (by omega))
  case rsp => rfl
  case fault =>
    dsimp only [m₂, Machine.setHost]
    rw [NativeStack.get_setWord_ne _ _ (by omega) (by omega), hm₁.fault]

/-- **Entering.** Without room the function is not called. -/
theorem leads_entry_full {Q : Nat × Machine → Prop} (h : m.Entered env a target)
    (hfull : env.layout.stackSize < 8 * (a.base + 14)) (n : Nat) :
      env.Leads (env.Between ctx is) Q (n, m) := by
  have hroom := h.room
  have hbounded := hr.separate.bounded
  by_cases hsaved : 8 * (a.base + 12) ≤ env.layout.stackSize
  · obtain ⟨m₁, hgoes, hbetween, hm₁⟩ := hr.goes_setup hsize h hsaved
    refine hgoes.leads fun n _ => .inr ⟨hbetween, .stuck ?_⟩
    -- The return address of the call has no place.
    have hpush := Machine.push_full (m := m₁.atOffset (linesSize (saveLines ++ setupLines) + 2))
      (j := a.base + 12) hm₁.layout hm₁.rsp (by omega) (by omega)
      (m₁.atOffset (linesSize (saveLines ++ setupLines) + 2)).rip
    refine hr.stuck_read hr.stands_call hm₁.layout
      (e := .badAddress (env.layout.slot (a.base + 13))) ?_ n
    show (Machine.push _ (m₁.atOffset (linesSize (saveLines ++ setupLines) + 2)).rip >>= _) = _
    rw [hpush]
    rfl
  · have hs : env.layout.Separate m.host.vm.block.size env.program.code.size := by
      rw [h.vm, hsize]
      exact hr.separate
    obtain ⟨e, he⟩ := Machine.execLines_pushes_full h.layout hs hostRegs h.rsp hroom
      (by show _ < 8 * (a.base + 5 + 6 + 1); omega)
    obtain ⟨rest, hat⟩ := linesFrom_entry ctx is
    rw [List.append_assoc] at hat
    have hsave : Machine.execLines saveLines m = .error e := by
      rw [saveLines, Machine.execLines_append, he]
      rfl
    have hleads := hr.leads_crash rfl hat h.layout hsave (Q := Q) n
    rwa [h.atOffset] at hleads

end Environment.Ready

end PawnNative
