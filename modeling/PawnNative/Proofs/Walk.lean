import Mathlib.Tactic.Common
import PawnNative.Proofs.Execution
import PawnNative.Proofs.Frames
import PawnNative.Proofs.Positions
import PawnNative.Proofs.Steps

/-! # Following a run through the code

    What a line of the program does to a run: an instruction that is executed takes
    it to the next position, a branch to the place of its target. Instructions one
    after the other are executed as one, and the states on the way are not at the
    start of an instruction of the bytecode.
-/

namespace PawnNative

open X64 Convention

/-! ## Section 1: Programs in their address space -/

/-- A finished program in an address space whose regions lie apart, for an image block of `size`
    bytes. -/
structure Environment.Ready (env : Environment) (ctx : Context) (is : List Instruction)
    (size : Nat) : Prop where
  finishes : env.program.Finishes ctx is
  separate : env.layout.Separate size env.program.code.size

/-- The stack pointer is where a helper relies on it: on the native stack, and one word below a
    multiple of sixteen. -/
def Machine.Aligned (m : Machine) (l : Layout) : Prop :=
  ∃ j, m.reg .rsp = l.slot (j + 1) ∧ l.slot j % 16 = 0 ∧ 8 * (j + 2) ≤ l.stackSize

/-- A machine in the middle of things: it is not back at the host, and where it is nothing is placed
    but the code for leaving. If it has called a helper, the stack pointer is aligned. -/
structure Environment.Between (env : Environment) (ctx : Context) (is : List Instruction)
    (m : Machine) : Prop where
  host : m.rip ≠ env.layout.hostReturn
  place : ∀ t o ls, LinesFrom ctx is o (.place t :: ls) → t ≠ .stub .leave → t ≠ .stub .halt →
    m.rip ≠ env.layout.code + BitVec.ofNat 64 o
  back : m.rip ≠ env.back
  helper : ∀ h : Helper, m.rip = h.address → m.Aligned env.layout

theorem Machine.rip_atOffset {m : Machine} {l : Layout} (hm : m.layout = l) (o : Nat) :
    (m.atOffset o).rip = l.code + BitVec.ofNat 64 o := by
  rw [← hm]
  rfl

theorem Machine.jumpTo_code {m : Machine} {l : Layout} (hm : m.layout = l) (o : Nat) :
    m.jumpTo (l.code + BitVec.ofNat 64 o) = m.atOffset o := by
  rw [atOffset, hm]

/-- There are lines, and none of them is a place. -/
def Placeless (ls : List Line) : Prop := ls ≠ [] ∧ ∀ l ∈ ls, l.placed? = none

theorem Placeless.op (i : Instr) : Placeless [.op i] := by simp [Placeless]

theorem Placeless.ops (is : List Instr) (i : Instr) : Placeless (is.map .op ++ [.op i]) := by
  refine ⟨by simp, ?_⟩
  intro l hl
  simp only [List.mem_append, List.mem_map, List.mem_singleton] at hl
  rcases hl with ⟨j, -, rfl⟩ | rfl <;> rfl

theorem Placeless.linesSize_pos {ls : List Line} (h : Placeless ls) : 0 < linesSize ls := by
  obtain ⟨hne, hls⟩ := h
  cases ls with
  | nil => exact absurd rfl hne
  | cons l ls =>
    have hl := Line.size_pos (hls l List.mem_cons_self)
    show 0 < l.size + linesSize ls
    omega

theorem linesFrom_entryCall (ctx : Context) (is : List Instruction) : ∃ rest,
    LinesFrom ctx is (linesSize (entryLines.take 17)) (.op (.callR .rsi) :: rest) := by
  obtain ⟨rest, hat⟩ := linesFrom_prologue ctx is
  rw [prologue, ← List.take_append_drop 17 entryLines, List.append_assoc, List.append_assoc,
    List.append_assoc] at hat
  have hdrop := hat.drop
  rw [Nat.zero_add] at hdrop
  exact ⟨_, hdrop⟩

/-- After lines without this call, a position is not the one after it. -/
theorem LinesFrom.end_ne_back {ctx : Context} {is : List Instruction} {o : Nat} {xs ls : List Line}
    (h : LinesFrom ctx is o (xs ++ ls)) (hxs : Placeless xs) (hcall : .op (.callR .rsi) ∉ xs) :
    o + linesSize xs ≠ linesSize (entryLines.take 18) := by
  intro hend
  rcases List.eq_nil_or_concat xs with rfl | ⟨init, l, rfl⟩
  · exact hxs.1 rfl
  · rw [List.concat_eq_append] at *
    have hmem : l ∈ init ++ [l] := List.mem_append_right _ (List.mem_singleton_self l)
    obtain ⟨rest, hat⟩ := linesFrom_entryCall ctx is
    rw [List.append_assoc] at h
    have hlast : LinesFrom ctx is (o + linesSize init) (l :: ls) := h.drop
    have heq : l = .op (.callR .rsi) := by
      refine hlast.eq_of_end hat (Line.size_pos (hxs.2 l hmem)) (by decide) ?_
      rw [linesSize_append, ← Nat.add_assoc] at hend
      exact hend
    exact hcall (heq ▸ hmem)

/-- What is placed in the code that every program starts with. -/
theorem LinesFrom.place_in_prologue {ctx : Context} {is : List Instruction} {o : Nat} {t : Target}
    {ls : List Line} (h : LinesFrom ctx is o (.place t :: ls)) (ho : o < linesSize prologue) :
    t = .stub .leave ∨ t = .stub .halt ∨ o = linesSize (entryLines ++ leaveLines) := by
  rcases h.prologue_cases with hle | ⟨pre, l, post, rest, hpre, hls, rfl⟩
  · omega
  · obtain ⟨rfl, -⟩ := List.cons_eq_cons.mp hls
    have hplaces : ∀ k < prologue.length, ∀ l ∈ prologue[k]?, l.placed? = none ∨
        l.placed? = some (.stub .leave) ∨ l.placed? = some (.stub .halt) ∨
        linesSize (prologue.take k) = linesSize (entryLines ++ leaveLines) := by
      decide
    have hlength := congrArg List.length hpre
    rw [List.length_append, List.length_cons] at hlength
    have htake : prologue.take pre.length = pre := by rw [hpre, List.take_left]
    have hget : prologue[pre.length]? = some (.place t) := by rw [hpre]; simp
    rcases hplaces pre.length (by omega) _ hget with hnone | hleave | hhalt | hpending
    · cases hnone
    · exact Or.inl (Option.some_inj.mp hleave)
    · exact Or.inr (Or.inl (Option.some_inj.mp hhalt))
    · rw [htake] at hpending
      exact Or.inr (Or.inr hpending)

namespace Environment.Ready

variable {env : Environment} {ctx : Context} {is : List Instruction} {size : Nat}
  (hr : env.Ready ctx is size) {m m' : Machine} {t : Cell} {o o' : Nat} {ls : List Line}
include hr

theorem toNat_code (ho : o ≤ env.program.code.size) :
    (env.layout.code + BitVec.ofNat 64 o).toNat = env.layout.code.toNat + o := by
  have hhigh := hr.separate.code_high
  rw [BitVec.toNat_add, BitVec.toNat_ofNat]
  omega

theorem code_ne_host (ho : o ≤ env.program.code.size) :
    env.layout.code + BitVec.ofNat 64 o ≠ env.layout.hostReturn := by
  intro heq
  have hhost := hr.separate.host_code
  have hhigh := hr.separate.code_high
  rw [← heq, Word.above_eq, BitVec.add_comm, BitVec.add_sub_cancel, BitVec.toNat_ofNat] at hhost
  omega

theorem ofAddress?_code (ho : o ≤ env.program.code.size) :
    Helper.ofAddress? (env.layout.code + BitVec.ofNat 64 o) = none := by
  have hlow := hr.separate.code_low
  have hcode := hr.toNat_code ho
  have hne : ∀ a : Word, a.toNat ≤ 3 → env.layout.code + BitVec.ofNat 64 o ≠ a := by
    intro a ha heq
    rw [heq] at hcode
    omega
  rw [Helper.ofAddress?, if_neg (hne _ (by decide)), if_neg (hne _ (by decide)),
    if_neg (hne _ (by decide))]

theorem offset?_le (ho : env.program.offset? t = some o) :
    o ≤ env.program.code.size := by
  obtain ⟨i, hi, rfl⟩ := (hr.finishes.offset_isSome_iff t).mp (by rw [ho]; rfl)
  obtain ⟨part, ls, o', -, -, ho', hbounds, -⟩ := hr.finishes.holds_body hi
  rw [ho, Option.some_inj] at ho'
  rw [ho']
  exact hbounds.2

theorem helper_ne_code {helper : Helper} (ho : o ≤ env.program.code.size) :
    helper.address ≠ env.layout.code + BitVec.ofNat 64 o := by
  intro heq
  have hsmall : helper.address.toNat ≤ 3 := by cases helper <;> decide
  have hlow := hr.separate.code_low
  have hcode := hr.toNat_code ho
  rw [← heq] at hcode
  omega

theorem code_injective (ho : o ≤ env.program.code.size) (ho' : o' ≤ env.program.code.size)
    (h : env.layout.code + BitVec.ofNat 64 o = env.layout.code + BitVec.ofNat 64 o') : o = o' := by
  have hoffset := congrArg BitVec.toNat h
  rw [hr.toNat_code ho, hr.toNat_code ho'] at hoffset
  omega

theorem prologue_le : linesSize prologue ≤ env.program.code.size := by
  obtain ⟨rest, hat⟩ := linesFrom_prologue ctx is
  have hend := hr.finishes.size_of_linesFrom hat
  rw [linesSize_append] at hend
  omega

theorem linesFrom_le (hat : LinesFrom ctx is o ls) :
    o ≤ env.program.code.size := by
  have hend := hr.finishes.size_of_linesFrom hat
  omega

theorem back_le : linesSize (entryLines.take 18) ≤ env.program.code.size := by
  refine Nat.le_trans ?_ hr.prologue_le
  decide

theorem pending_le : linesSize (entryLines ++ leaveLines) ≤ env.program.code.size := by
  refine Nat.le_trans ?_ hr.prologue_le
  decide

theorem between_helper {helper : Helper} (hm : m.rip = helper.address)
    (haligned : m.Aligned env.layout) : env.Between ctx is m := by
  have hsmall : helper.address.toNat ≤ 3 := by cases helper <;> decide
  have hhelper := hr.separate.host_helper
  constructor
  case host =>
    intro heq
    rw [← heq, hm] at hhelper
    omega
  case place =>
    intro t o ls hat _ _
    rw [hm]
    exact hr.helper_ne_code (hr.linesFrom_le hat)
  case back =>
    rw [hm]
    exact hr.helper_ne_code hr.back_le
  case helper => exact fun _ _ => haligned

theorem between_code (hm : m.layout = env.layout)
    (hle : o ≤ env.program.code.size)
    (hplace : ∀ t ls, LinesFrom ctx is o (.place t :: ls) → t = .stub .leave ∨ t = .stub .halt)
    (hback : o ≠ linesSize (entryLines.take 18)) : env.Between ctx is (m.atOffset o) := by
  have hrip := Machine.rip_atOffset hm o
  constructor
  case host =>
    rw [hrip]
    exact hr.code_ne_host hle
  case place =>
    intro t o' ls hat hleave hhalt heq
    rw [hrip] at heq
    obtain rfl := hr.code_injective hle (hr.linesFrom_le hat) heq
    rcases hplace t ls hat with ht | ht
    · exact hleave ht
    · exact hhalt ht
  case back =>
    intro heq
    rw [hrip] at heq
    exact hback (hr.code_injective hle hr.back_le heq)
  case helper =>
    intro helper hhelper
    rw [hrip] at hhelper
    exact absurd hhelper.symm (hr.helper_ne_code hle)

/-- Between lines without places nothing starts. -/
theorem between_lines (xs ys : List Line)
    (hat : LinesFrom ctx is o (xs ++ (ys ++ ls))) (hxs : Placeless xs)
    (hcall : .op (.callR .rsi) ∉ xs) (hys : Placeless ys) (hm : m.layout = env.layout) :
    env.Between ctx is (m.atOffset (o + linesSize xs)) := by
  have hback := hat.end_ne_back hxs hcall
  rw [← List.append_assoc] at hat
  have hend := hr.finishes.size_of_linesFrom hat
  rw [linesSize_append, linesSize_append] at hend
  have hpos := hxs.linesSize_pos
  have hpos' := hys.linesSize_pos
  refine hr.between_code hm (by omega) ?_ hback
  intro t ls' hplace
  refine absurd hplace (hat.not_place_inside ?_ (by omega) ?_)
  · intro l hl
    rcases List.mem_append.mp hl with hl | hl
    · exact hxs.2 l hl
    · exact hys.2 l hl
  · rw [linesSize_append]
    omega

/-- The code that every program starts with, where an activation is not left. -/
theorem between_prologue (ho : o < linesSize prologue)
    (hback : o ≠ linesSize (entryLines.take 18))
    (hpending : o ≠ linesSize (entryLines ++ leaveLines))
    (hm : m.layout = env.layout) : env.Between ctx is (m.atOffset o) := by
  have hle := hr.prologue_le
  refine hr.between_code hm (by omega) ?_ hback
  intro t ls hat
  rcases hat.place_in_prologue ho with hleave | hhalt | heq
  · exact Or.inl hleave
  · exact Or.inr hhalt
  · exact absurd heq hpending

theorem between_ne_offset (h : env.Between ctx is m)
    (ho : env.program.offset? t = some o) : m.rip ≠ env.layout.code + BitVec.ofNat 64 o := by
  obtain ⟨ls, hat⟩ := hr.finishes.linesFrom_of_offset ho
  exact h.place _ o ls hat nofun nofun

/-! ## Section 2: One line -/

variable {i : Instr} {len : Nat} {t : Target} {cond : Cond} {find : Target → Option Nat}

section
variable (hread : env.program.code.readAt o = some (i, len)) (hm : m.layout = env.layout)
include hread hm

theorem step_read :
    (m.atOffset o).rip ≠ env.layout.hostReturn ∧ Helper.ofAddress? (m.atOffset o).rip = none ∧
      (m.atOffset o).step env.program.readings = (m.atOffset (o + len)).exec i := by
  have hle : o ≤ env.program.code.size := by
    by_contra hout
    rw [Block.readAt_of_size_le (by omega)] at hread
    cases hread
  have hsize : env.program.code.size < 0x10000000000000000 := by
    have hhigh := hr.separate.code_high
    omega
  have hrip := Machine.rip_atOffset hm o
  rw [hrip]
  refine ⟨hr.code_ne_host hle, hr.ofAddress?_code hle, ?_⟩
  rw [env.program.readings_eq]
  exact Machine.step_at hread hsize

theorem goes_read (h : (m.atOffset (o + len)).exec i = .ok m') :
    env.Goes (env.Between ctx is) 1 (m.atOffset o) m' := by
  obtain ⟨hhost, hcode, hstep⟩ := hr.step_read hread hm
  exact .one ⟨hhost, hcode, hstep.trans h⟩

theorem stuck_read {e : Crash} (h : (m.atOffset (o + len)).exec i = .error e) (n : Nat)
    (c : Nat × Machine) : ¬env.Step (n, m.atOffset o) c := by
  obtain ⟨-, hcode, hstep⟩ := hr.step_read hread hm
  exact not_step_of_crash hcode (hstep.trans h) c

end

theorem stuck_end (hat : LinesFrom ctx is o []) (hm : m.layout = env.layout) (n : Nat)
    (c : Nat × Machine) : ¬env.Step (n, m.atOffset o) c := by
  have hend : o = env.program.code.size := hr.finishes.size_of_linesFrom hat
  have hrip := Machine.rip_atOffset hm o
  have hhigh := hr.separate.code_high
  have habove : (env.layout.code + BitVec.ofNat 64 o).above env.layout.code = o := by
    rw [Word.above_eq, BitVec.add_comm, BitVec.add_sub_cancel, BitVec.toNat_ofNat]
    exact Nat.mod_eq_of_lt (by omega)
  have hnone : env.program.code.readings.get? o = none := by
    rw [Block.get?_readings, Block.readAt_of_size_le (Nat.le_of_eq hend.symm)]
  refine not_step_of_crash (e := .noInstruction (env.layout.code + BitVec.ofNat 64 o)) ?_ ?_ c
  · rw [hrip]
    exact hr.ofAddress?_code (Nat.le_of_eq hend)
  · rw [env.program.readings_eq, Machine.step, hrip]
    show (Machine.fetch m.layout env.program.code.readings _ >>= _) = _
    rw [hm, Machine.fetch, habove, hnone]
    rfl

theorem goes_jmp_at (h : (Line.jmp t).Stands env.program.code find o) (hm : m.layout = env.layout) :
    ∃ dest, find t = some dest ∧
      env.Goes (env.Between ctx is) 1 (m.atOffset o) (m.atOffset dest) := by
  obtain ⟨d, dest, hread, hdest, hsum⟩ := h
  refine ⟨dest, hdest, hr.goes_read hread hm ?_⟩
  exact congrArg Except.ok (m.jump_atOffset (by exact_mod_cast hsum))

theorem goes_jmp (hat : LinesFrom ctx is o (.jmp t :: ls)) (hm : m.layout = env.layout) :
    ∃ k dest, (Plan.ofProgram ctx is).placed (t.owner k) = some dest ∧
      env.Goes (env.Between ctx is) 1 (m.atOffset o) (m.atOffset dest) := by
  obtain ⟨k, hstands⟩ := hr.finishes.stands hat
  exact ⟨k, hr.goes_jmp_at hstands hm⟩

theorem goes_jcc_at {b : Bool} (h : (Line.jcc cond t).Stands env.program.code find o)
    (hm : m.layout = env.layout) (hb : cond.holds m.flags = some b) :
    ∃ dest, find t = some dest ∧
      env.Goes (env.Between ctx is) 1 (m.atOffset o) (m.atOffset (if b then dest else o + 6)) := by
  obtain ⟨d, dest, hread, hdest, hsum⟩ := h
  refine ⟨dest, hdest, hr.goes_read hread hm ?_⟩
  have htest : (m.atOffset (o + 6)).test cond = .ok b := by
    rw [Machine.test, show (m.atOffset (o + 6)).flags = m.flags from rfl, hb]
  show ((m.atOffset (o + 6)).test cond >>= _) = _
  rw [htest]
  cases b with
  | false => rfl
  | true => exact congrArg Except.ok (m.jump_atOffset (by exact_mod_cast hsum))

theorem goes_jcc {b : Bool} (hat : LinesFrom ctx is o (.jcc cond t :: ls))
    (hm : m.layout = env.layout) (hb : cond.holds m.flags = some b) :
    ∃ k dest, (Plan.ofProgram ctx is).placed (t.owner k) = some dest ∧
      env.Goes (env.Between ctx is) 1 (m.atOffset o) (m.atOffset (if b then dest else o + 6)) := by
  obtain ⟨k, hstands⟩ := hr.finishes.stands hat
  exact ⟨k, hr.goes_jcc_at hstands hm hb⟩

/-- A condition on an undefined flag leads nowhere. -/
theorem stuck_jcc (hat : LinesFrom ctx is o (.jcc cond t :: ls))
    (hm : m.layout = env.layout) (hnone : cond.holds m.flags = none) (n : Nat) (c : Nat × Machine) :
    ¬env.Step (n, m.atOffset o) c := by
  obtain ⟨k, d, dest, hread, -, -⟩ := hr.finishes.stands hat
  refine hr.stuck_read (e := .undefinedFlag) hread hm ?_ n c
  have htest : (m.atOffset (o + 6)).test cond = .error .undefinedFlag := by
    rw [Machine.test, show (m.atOffset (o + 6)).flags = m.flags from rfl, hnone]
  show ((m.atOffset (o + 6)).test cond >>= _) = _
  rw [htest]
  rfl

theorem goes_call_at (h : (Line.call t).Stands env.program.code find o) (hm : m.layout = env.layout)
    (hpush : m.push (env.layout.code + BitVec.ofNat 64 (o + 5)) = .ok m') :
    ∃ dest, find t = some dest ∧
      env.Goes (env.Between ctx is) 1 (m.atOffset o) (m'.atOffset dest) := by
  obtain ⟨d, dest, hread, hdest, hsum⟩ := h
  refine ⟨dest, hdest, hr.goes_read hread hm ?_⟩
  show ((m.atOffset (o + 5)).push (m.layout.code + BitVec.ofNat 64 (o + 5)) >>= _) = _
  rw [← hm] at hpush
  have hlayout : m'.layout = m.layout := Machine.layout_push hpush
  rw [Machine.atOffset, Machine.push_jumpTo, hpush, ← hlayout]
  exact congrArg Except.ok (m'.jump_atOffset (by exact_mod_cast hsum))

theorem goes_call (hat : LinesFrom ctx is o (.call t :: ls)) (hm : m.layout = env.layout)
    (hpush : m.push (env.layout.code + BitVec.ofNat 64 (o + 5)) = .ok m') :
    ∃ k dest, (Plan.ofProgram ctx is).placed (t.owner k) = some dest ∧
      env.Goes (env.Between ctx is) 1 (m.atOffset o) (m'.atOffset dest) := by
  obtain ⟨k, hstands⟩ := hr.finishes.stands hat
  exact ⟨k, hr.goes_call_at hstands hm hpush⟩

theorem stuck_call {e : Crash} (hat : LinesFrom ctx is o (.call t :: ls))
    (hm : m.layout = env.layout)
    (hpush : m.push (env.layout.code + BitVec.ofNat 64 (o + 5)) = .error e) (n : Nat)
    (c : Nat × Machine) : ¬env.Step (n, m.atOffset o) c := by
  obtain ⟨k, d, dest, hread, -, -⟩ := hr.finishes.stands hat
  refine hr.stuck_read (e := e) hread hm ?_ n c
  show ((m.atOffset (o + 5)).push (m.layout.code + BitVec.ofNat 64 (o + 5)) >>= _) = _
  rw [hm, Machine.atOffset, Machine.push_jumpTo, hpush]
  rfl

end Environment.Ready

/-! ## Section 3: Instructions one after the other -/

/-- Whether a line is an instruction that neither branches nor repeats. -/
def Line.isStep : Line → Bool
  | .op i => i.isPlain
  | _ => false

theorem Placeless.of_isStep {ls : List Line} (hne : ls ≠ []) (h : ls.all Line.isStep) :
    Placeless ls := by
  refine ⟨hne, ?_⟩
  intro l hl
  have hstep := List.all_eq_true.mp h l hl
  cases l with
  | op i => rfl
  | jmp t | jcc c t | call t | place t => cases hstep

theorem call_not_mem_of_isStep {ls : List Line} (h : ls.all Line.isStep) (r : Reg) :
    .op (.callR r) ∉ ls := by
  intro hmem
  cases List.all_eq_true.mp h _ hmem

namespace Machine

variable {m m' : Machine} {i : Instr} {ls : List Line} {e : Crash}

/-- Executes the instructions of lines one after the other. -/
def execLines : List Line → Machine → Except Crash Machine
  | [], m => .ok m
  | .op i :: ls, m => m.exec i >>= execLines ls
  | _ :: ls, m => execLines ls m

theorem execLines_append (ls ls' : List Line) (m : Machine) :
    execLines (ls ++ ls') m = execLines ls m >>= execLines ls' := by
  induction ls generalizing m with
  | nil => rfl
  | cons l ls ih =>
    cases l with
    | op i =>
      show (m.exec i >>= execLines (ls ++ ls')) = (m.exec i >>= execLines ls) >>= execLines ls'
      cases m.exec i with
      | error e => rfl
      | ok m' => exact ih m'
    | jmp t | jcc c t | call t | place t => exact ih m

theorem execLines_append_ok {ls' : List Line} (h : execLines ls m = .ok m') :
    execLines (ls ++ ls') m = execLines ls' m' := by
  rw [execLines_append, h]
  rfl

theorem execLines_cons (h : m.exec i = .ok m') : execLines (.op i :: ls) m = execLines ls m' := by
  rw [execLines, h]
  rfl

theorem exec_atOffset {o : Nat} (hi : i.isPlain) (h : m.exec i = .ok m') :
    (m.atOffset o).exec i = .ok (m'.atOffset o) := by
  rw [atOffset, exec_jumpTo _ _ hi, h, atOffset, layout_exec hi h]
  rfl

theorem exec_atOffset_error {o : Nat} (hi : i.isPlain) (h : m.exec i = .error e) :
    (m.atOffset o).exec i = .error e := by
  rw [atOffset, exec_jumpTo _ _ hi, h]
  rfl

end Machine

namespace Environment.Ready

variable {env : Environment} {ctx : Context} {is : List Instruction} {size : Nat}
  (hr : env.Ready ctx is size) {m m' : Machine} {o : Nat} {ls : List Line}
include hr

/-- Between instructions that are executed one after the other nothing starts. -/
theorem between_steps (xs ys : List Line) (hat : LinesFrom ctx is o (xs ++ (ys ++ ls)))
    (hne : xs ≠ []) (hxs : xs.all Line.isStep) (hys : Placeless ys) (hm : m.layout = env.layout) :
    env.Between ctx is (m.atOffset (o + linesSize xs)) :=
  hr.between_lines xs ys hat (.of_isStep hne hxs) (call_not_mem_of_isStep hxs _) hys hm

/-- **Run.** Instructions that can all be executed lead to the position after them. -/
theorem goes_lines (xs : List Line) (hne : xs ≠ []) (hxs : xs.all Line.isStep)
    (hat : LinesFrom ctx is o (xs ++ ls)) (hm : m.layout = env.layout)
    (h : Machine.execLines xs m = .ok m') :
    env.Goes (env.Between ctx is) xs.length (m.atOffset o) (m'.atOffset (o + linesSize xs)) := by
  induction xs generalizing m o with
  | nil => exact absurd rfl hne
  | cons l xs ih =>
    rw [List.all_cons, Bool.and_eq_true_iff] at hxs
    obtain ⟨hl, hxs⟩ := hxs
    cases l with
    | jmp t | jcc c t | call t | place t => cases hl
    | op i =>
      obtain ⟨m₁, hexec, h⟩ := bind_eq_ok.mp h
      obtain ⟨k, hread⟩ := hr.finishes.stands hat
      have hone := hr.goes_read hread hm (Machine.exec_atOffset hl hexec)
      have hlayout := (Machine.layout_exec hl hexec).trans hm
      -- Behind the last line other code may start, so what is between is said for the others only.
      by_cases hlast : xs = []
      · subst hlast
        cases h
        exact hone
      · have hsum : o + linesSize (.op i :: xs) = o + i.encode.length + linesSize xs :=
          (Nat.add_assoc ..).symm
        rw [hsum]
        refine hone.trans ?_ (ih hlast hxs hat.tail hlayout h)
        exact hr.between_steps [.op i] xs hat (List.cons_ne_nil _ _) (by simpa using hl)
          (.of_isStep hlast hxs) hlayout

/-- **Run.** So they lead to where the lines after them lead. -/
theorem goes_then (xs ys : List Line) (hne : xs ≠ []) (hxs : xs.all Line.isStep)
    (hys : Placeless ys)
    (hat : LinesFrom ctx is o (xs ++ (ys ++ ls))) (hm : m.layout = env.layout)
    (h : Machine.execLines xs m = .ok m') (hm' : m'.layout = env.layout) {k : Nat} {r : Machine}
    (hnext : env.Goes (env.Between ctx is) k (m'.atOffset (o + linesSize xs)) r) :
    env.Goes (env.Between ctx is) (k + xs.length) (m.atOffset o) r :=
  (hr.goes_lines xs hne hxs hat hm h).trans (hr.between_steps xs ys hat hne hxs hys hm') hnext

/-- **Run.** Instructions that cannot all be executed lead nowhere. -/
theorem leads_crash {e : Crash} {Q : Nat × Machine → Prop} {xs : List Line}
    (hxs : xs.all Line.isStep) (hat : LinesFrom ctx is o (xs ++ ls)) (hm : m.layout = env.layout)
    (h : Machine.execLines xs m = .error e) (n : Nat) :
      env.Leads (env.Between ctx is) Q (n, m.atOffset o) := by
  induction xs generalizing m o n with
  | nil => cases h
  | cons l xs ih =>
    rw [List.all_cons, Bool.and_eq_true_iff] at hxs
    obtain ⟨hl, hxs⟩ := hxs
    cases l with
    | jmp t | jcc c t | call t | place t => cases hl
    | op i =>
      obtain ⟨k, hread⟩ := hr.finishes.stands hat
      cases hexec : m.exec i with
      | error e' => exact .stuck (hr.stuck_read hread hm (Machine.exec_atOffset_error hl hexec) n)
      | ok m₁ =>
        rw [Machine.execLines_cons hexec] at h
        have hlast : xs ≠ [] := by
          rintro rfl
          cases h
        have hlayout := (Machine.layout_exec hl hexec).trans hm
        have hone := hr.goes_read hread hm (Machine.exec_atOffset hl hexec)
        refine hone.leads fun n _ => .inr ⟨?_, ih hxs hat.tail hlayout h n⟩
        exact hr.between_steps [.op i] xs hat (List.cons_ne_nil _ _) (by simpa using hl)
          (.of_isStep hlast hxs) hlayout

end Environment.Ready

end PawnNative
