import Mathlib.Data.List.Perm.Subperm
import Mathlib.Tactic.Common
import PawnNative.Proofs.Branches

/-! # How much code there is

    The code of an instruction is at most 128 bytes long for each cell of the
    instruction. Only the dispatch of a case table grows with its operands; all
    other templates are below 128 bytes, the longest being those that call a
    helper. So a program is at most about 32 times as long as its code segment. In
    particular the offsets of a program are all in the address space of the
    processor.
-/

namespace PawnNative

open X64 Convention Template

/-! ## Section 1: Bytes of templates -/

theorem Line.size_le (l : Line) : l.size ≤ 15 := by
  cases l with
  | op i => exact length_encode i
  | jmp t => exact Nat.le_of_ble_eq_true rfl
  | jcc c t => exact Nat.le_of_ble_eq_true rfl
  | call t => exact Nat.le_of_ble_eq_true rfl
  | place t => exact Nat.zero_le _

theorem linesSize_le (ls : List Line) : linesSize ls ≤ 15 * ls.length := by
  induction ls with
  | nil => exact Nat.le_refl _
  | cons l ls ih =>
    have hfirst := l.size_le
    have hsum : linesSize (l :: ls) = l.size + linesSize ls := rfl
    rw [hsum, List.length_cons]
    omega

/-! ### Pieces -/

theorem length_checkRange (ctx : Context) (r : Reg) (len : Nat) :
    (checkRange ctx r len).length ≤ 2 := by
  unfold checkRange
  split_ifs <;> exact Nat.le_of_ble_eq_true rfl

theorem linesSize_checkRange (ctx : Context) (r : Reg) (len : Nat) :
    linesSize (checkRange ctx r len) ≤ 30 :=
  Nat.le_trans (linesSize_le _) (Nat.mul_le_mul_left 15 (length_checkRange ctx r len))

theorem linesSize_moveBlock (ctx : Context) (len : Nat) : linesSize (moveBlock ctx len) ≤ 128 := by
  have hsource := linesSize_checkRange ctx pri len
  have hdest := linesSize_checkRange ctx alt len
  rw [moveBlock, linesSize_append, linesSize_append]
  refine Nat.le_trans (Nat.add_le_add_right (Nat.add_le_add hsource hdest) _) ?_
  exact Nat.le_of_ble_eq_true rfl

theorem linesSize_compareBlock (ctx : Context) (len : Nat) :
    linesSize (compareBlock ctx len) ≤ 128 := by
  have hleft := linesSize_checkRange ctx pri len
  have hright := linesSize_checkRange ctx alt len
  rw [compareBlock, linesSize_append, linesSize_append]
  refine Nat.le_trans (Nat.add_le_add_right (Nat.add_le_add hleft hright) _) ?_
  exact Nat.le_of_ble_eq_true rfl

theorem linesSize_checkMargin : linesSize checkMargin ≤ 30 := Nat.le_of_ble_eq_true rfl

theorem linesSize_moveStack (delta : Cell) : linesSize (moveStack delta) ≤ 128 := by
  have hold : linesSize (relative alt stk) = 5 := rfl
  have hmove : linesSize [.op (.aluRI .add .q stk delta)] ≤ 15 := linesSize_le _
  rw [moveStack, linesSize_append, hold]
  split_ifs
  · decide
  · obtain ⟨check, hsplit, hcheck⟩ : ∃ check, [.op (.aluRI .add .q stk delta), loadFile tmp0] ++
        relative tmp1 stk ++
        [.op (.aluRM .cmp tmp1 (saved tmp0 .stp)), .jcc .g (.stub (.fault .stackLow))] =
          [.op (.aluRI .add .q stk delta)] ++ check ∧ linesSize check ≤ 30 :=
      ⟨_, rfl, Nat.le_of_ble_eq_true rfl⟩
    rw [hsplit, linesSize_append]
    omega
  · have hmargin := linesSize_checkMargin
    rw [linesSize_append]
    omega

theorem linesSize_moveHeap (delta : Cell) : linesSize (moveHeap delta) ≤ 128 := by
  have hold : linesSize [loadFile tmp0, .op (.load .d alt (saved tmp0 .hea)),
      .op (.movRR .d tmp1 alt)] ≤ 15 := Nat.le_of_ble_eq_true rfl
  have hmove : linesSize [.op (.aluRI .add .d tmp1 delta)] ≤ 15 := linesSize_le _
  obtain ⟨check, hsplit, hcheck⟩ : ∃ check, moveHeap delta = [loadFile tmp0,
      .op (.load .d alt (saved tmp0 .hea)), .op (.movRR .d tmp1 alt)] ++
        ([.op (.aluRI .add .d tmp1 delta)] ++ check) ∧ linesSize check ≤ 50 :=
    ⟨_, rfl, Nat.le_of_ble_eq_true rfl⟩
  rw [hsplit, linesSize_append, linesSize_append]
  omega

theorem linesSize_callNative (index : NativeIndex) (count : ArgCount) :
    linesSize (callNative index count) ≤ 103 := by
  have hsuspend : linesSize suspend = 34 := rfl
  have hcall : linesSize (callHelper .callNative) = 13 := rfl
  have hresume : linesSize resume = 26 := rfl
  have hcheck : linesSize [.op (.aluMI .cmp (field .error) 0), .jcc .ne (.stub .pending)] = 12 :=
    rfl
  simp only [callNative, linesSize_append, hsuspend, hcall, hresume, hcheck]
  cases index <;> cases count <;> exact Nat.le_of_ble_eq_true rfl

theorem linesSize_native (ctx : Context) (index : NativeIndex) (count : ArgCount) :
    linesSize (native ctx index count) ≤ 128 := by
  unfold native
  cases inlined? ctx index count with
  | none => exact Nat.le_trans (linesSize_callNative index count) (by decide)
  | some f =>
    cases count with
    | pushed =>
      have hsize : linesSize (f.lines Cell.width) ≤ 100 := by
        cases f <;> exact Nat.le_of_ble_eq_true rfl
      exact Nat.le_trans hsize (by decide)
    | const bytes =>
      have hsize : linesSize (f.lines 0) ≤ 100 := by cases f <;> exact Nat.le_of_ble_eq_true rfl
      have hdrop : linesSize [.op (.aluRI .add .q stk bytes)] ≤ 15 := linesSize_le _
      show linesSize (f.lines 0 ++ [.op (.aluRI .add .q stk bytes)]) ≤ 128
      rw [linesSize_append]
      omega

theorem Context.eq_of_target {ctx : Context} {i : Instruction} {t t' : Cell}
    (h : ctx.target i t = .ok t') : t' = t := by
  unfold Context.target at h
  split_ifs at h
  exact (Except.ok.inj h).symm

section
variable {ls ls' : List Line} {n : Nat}

theorem Context.eq_of_bind_target {ctx : Context} {i : Instruction} {t : Cell}
    {f : Cell → List Line} (h : (ctx.target i t >>= fun t => .ok (f t)) = .ok ls) : ls = f t := by
  obtain ⟨t', ht, h⟩ := bind_eq_ok.mp h
  rw [Context.eq_of_target ht] at h
  exact (Except.ok.inj h).symm

/-! ### Case tables -/

theorem linesSize_tryCases (cases : List (Cell × Cell)) :
    linesSize (tryCases cases) ≤ 30 * cases.length := by
  induction cases with
  | nil => exact Nat.le_refl _
  | cons record cases ih =>
    obtain ⟨value, target⟩ := record
    have hfirst := linesSize_le [.op (.aluRI .cmp .d pri value), .jcc .e (.code target)]
    have hsum : linesSize (tryCases ((value, target) :: cases)) =
        linesSize [.op (.aluRI .cmp .d pri value), .jcc .e (.code target)] +
          linesSize (tryCases cases) := linesSize_append [_, _] _
    rw [hsum, List.length_cons]
    dsimp only [List.length] at hfirst
    omega

theorem length_pairs (xs : List Cell) : 2 * (Instruction.pairs xs).length ≤ xs.length := by
  fun_induction Instruction.pairs xs with
  | case1 a b rest ih =>
    rw [List.length_cons, List.length_cons, List.length_cons]
    omega
  | case2 => exact Nat.zero_le _

theorem eq_dispatchCases {ctx : Context} {i : Instruction} (h : caseTable ctx i = .ok ls) :
    ls = dispatchCases i.address i.arg2 i.cases := by
  obtain ⟨default, hdefault, h⟩ := bind_eq_ok.mp h
  obtain ⟨cases, hcases, h⟩ := bind_eq_ok.mp h
  obtain rfl := Except.ok.inj h
  have hrecords : cases = i.cases := by
    rw [Instruction.checkCases] at hcases
    split at hcases
    · cases hcases
    · exact (Except.ok.inj hcases).symm
  rw [Context.eq_of_target hdefault, hrecords]

theorem linesSize_caseTable {ctx : Context} {i : Instruction} (h : caseTable ctx i = .ok ls) :
    linesSize ls ≤ 128 * (1 + i.operands.length) := by
  rw [eq_dispatchCases h]
  have hpairs : 2 * i.cases.length ≤ i.operands.length := by
    rw [Instruction.cases]
    split_ifs
    · have hdrop := length_pairs (i.operands.drop 2)
      rw [List.length_drop] at hdrop
      omega
    · exact Nat.zero_le _
  have hcases := linesSize_tryCases i.cases
  have hplace : linesSize [.place (.cases i.address)] = 0 := rfl
  have hjump : linesSize [.jmp (.code i.arg2)] = 5 := rfl
  rw [dispatchCases, linesSize_append, linesSize_append, hplace, hjump]
  omega

/-! ### All templates -/

theorem linesSize_short (h : ls.length ≤ 8) : linesSize ls ≤ 128 := by
  have hlines := linesSize_le ls
  omega

/-- The code of an instruction. Most templates are so few lines that any encoding of them is short
    enough; the others are counted. -/
theorem linesSize_template_le {ctx : Context} {i : Instruction} (h : template ctx i = .ok ls)
    (hi : i.opcode ≠ .casetbl) : linesSize ls ≤ 128 := by
  obtain ⟨address, opcode, operands⟩ := i
  have hcheck := length_checkRange ctx
  cases opcode
  case casetbl => exact absurd rfl hi
  case movs =>
    obtain ⟨len, rfl⟩ := exists_of_bind h
    exact linesSize_moveBlock ctx len
  case cmps =>
    obtain ⟨len, rfl⟩ := exists_of_bind h
    exact linesSize_compareBlock ctx len
  case lrefPri | lrefAlt | srefPri | srefAlt | lodbI | strbI | fill =>
    obtain ⟨o, rfl⟩ := exists_of_bind h
    refine linesSize_short ?_
    simp only [loadThrough, storeThrough, loadPart, storePart, fillBlock, checkCell,
      List.length_append, List.length_cons, List.length_nil]
    grind
  case lrefSPri | lrefSAlt | loadI | srefSPri | srefSAlt | storI | lidx | lidxB | incI | decI =>
    refine holds_of_ok h (linesSize_short ?_)
    simp only [loadThrough, storeThrough, loadIndirect, storeIndirect, elementAddress,
      scaledAddress, incIndirect, decIndirect, checkCell, List.length_append, List.length_cons,
      List.length_nil]
    grind
  case alignPri | alignAlt | pushR =>
    refine holds_of_ok h (linesSize_short ?_)
    simp only [alignAddress, pushRepeated]
    split_ifs <;> exact Nat.le_of_ble_eq_true rfl
  case stack => exact holds_of_ok h (linesSize_moveStack _)
  case heap => exact holds_of_ok h (linesSize_moveHeap _)
  case proc | sdiv | sdivAlt | jumpPri => exact holds_of_ok h (Nat.le_of_ble_eq_true rfl)
  case callPri =>
    refine holds_of_ok h ?_
    have hcomputed : linesSize (computed .callR) = 99 := rfl
    rw [callComputed, linesSize_append, hcomputed]
    exact Nat.le_of_ble_eq_true rfl
  case lctrl =>
    change readControl ctx _ = _ at h
    unfold readControl at h
    split at h
    case h_8 => cases h
    all_goals exact holds_of_ok h (linesSize_short (Nat.le_of_ble_eq_true rfl))
  case sctrl =>
    change writeControl _ = _ at h
    unfold writeControl at h
    split at h
    case h_5 => cases h
    all_goals exact holds_of_ok h (Nat.le_of_ble_eq_true rfl)
  case sysreqPri | sysreqC | sysreqN =>
    rw [template_native h rfl]
    exact linesSize_native ..
  all_goals first
    | exact holds_of_ok h (linesSize_short (Nat.le_of_ble_eq_true rfl))
    | obtain ⟨a, rfl⟩ := exists_of_bind h
      exact linesSize_short (Nat.le_of_ble_eq_true rfl)
    | cases h

theorem linesSize_template {ctx : Context} {i : Instruction} (h : template ctx i = .ok ls) :
    linesSize ls ≤ 128 * (1 + i.operands.length) := by
  by_cases hi : i.opcode = .casetbl
  · rw [template, hi] at h
    exact linesSize_caseTable h
  · have hle := linesSize_template_le h hi
    omega

end

/-! ## Section 2: Bytes of programs -/

theorem Instruction.Passes.linesSize_body {ctx : Context} {i : Instruction} (h : i.Passes ctx) :
    linesSize (i.body ctx) ≤ 32 * i.size := by
  obtain ⟨ls, hls, hbody, -⟩ := h.template
  have htemplate := linesSize_template hls
  have hbody : linesSize (i.body ctx) = linesSize ls := by
    rw [hbody]
    exact Nat.zero_add _
  rw [hbody, Instruction.size, Cell.width]
  omega

/-- **Run.** The code of a listing, in proportion to the code segment from its start on. -/
theorem Decodes.linesSize_le {code : Block} {ip : Cell} {is : List Instruction}
    {stop : Option DecodeError} {ctx : Context} (h : Decodes code ip is stop)
    (hsize : code.size < 0x80000000) (hpass : ∀ i ∈ is, i.Passes ctx) :
    linesSize (is.flatMap (Instruction.body ctx)) ≤ 32 * (code.size - ip.toNat) := by
  induction h with
  | done _ => exact Nat.zero_le _
  | fail _ => exact Nat.zero_le _
  | @step ip i is stop h _ ih =>
    obtain ⟨-, -, hfit, -⟩ := Cursor.peek_ok h
    have hmove := Cursor.toNat_next h
    have hfirst := (hpass i List.mem_cons_self).linesSize_body
    have hrest := ih fun j hj => hpass j (List.mem_cons_of_mem i hj)
    rw [List.flatMap_cons, linesSize_append]
    dsimp only at hfit hmove
    omega

theorem linesSize_faults (fs : List Fault) :
    linesSize (fs.flatMap faultLines) ≤ 45 * fs.length := by
  induction fs with
  | nil => exact Nat.le_refl _
  | cons f fs ih =>
    have hfirst := linesSize_le (faultLines f)
    have hthree : (faultLines f).length = 3 := rfl
    rw [List.flatMap_cons, linesSize_append, List.length_cons]
    omega

theorem Plan.length_faults {p : Plan} (h : p.Sound) : p.faults.length ≤ Fault.all.length := by
  have hall : p.faults ⊆ Fault.all := fun f _ => by cases f <;> decide
  exact ((nodup_faults h).subperm hall).length_le

theorem flatMap_programParts (ctx : Context) (is : List Instruction) :
    (programParts ctx is).flatMap Prod.snd = prologue ++
      (is.flatMap (Instruction.body ctx) ++ (Plan.ofListing ctx is).faults.flatMap faultLines) := by
  rw [programParts, listingParts, List.cons_append, List.flatMap_cons, List.flatMap_append,
    List.flatMap_map, List.flatMap_map]
  rfl

/-- The code of a program, in proportion to its code segment. -/
theorem Decodes.linesSize_program {code : Block} {is : List Instruction} {ctx : Context}
    (h : Decodes code 0 is none) (hsize : code.size < 0x80000000) (hpass : ∀ i ∈ is, i.Passes ctx) :
    linesSize ((programParts ctx is).flatMap Prod.snd) ≤ 32 * code.size + 3000 := by
  have hbodies := h.linesSize_le hsize hpass
  have hstubs := linesSize_faults (Plan.ofListing ctx is).faults
  have hfaults := Plan.length_faults (Compilation.follows_foldl ctx is).sound
  have hall : Fault.all.length = 25 := rfl
  have hprologue : linesSize prologue ≤ 1000 := Nat.le_of_ble_eq_true rfl
  rw [flatMap_programParts, linesSize_append, linesSize_append]
  omega

/-- **Extent.** The code of a program fits in the address space of the processor. -/
theorem Program.Finishes.size_lt {p : Program} {ctx : Context}
    {is : List Instruction} {code : Block}
    (h : p.Finishes ctx is) (hlisting : Decodes code 0 is none) (hsize : code.size < 0x80000000) :
    p.code.size < 0x10000000000 := by
  have hlines := hlisting.linesSize_program hsize h.passes
  rw [h.finished.size, Plan.ofProgram, Plan.length_templates, List.length_nil]
  omega

end PawnNative
