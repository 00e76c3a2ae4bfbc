import Mathlib.Tactic.Common
import PawnNative.Compile.Program
import PawnNative.Proofs.Outcome
import PawnNative.Proofs.Plan
import PawnNative.Proofs.Words

/-! # What instructions demand

    Before an instruction is translated its operands are checked: that they mean
    something, that a cell they name lies in the data segment, that a branch
    stays in the code segment. `Instruction.refusal?` says for each instruction
    which check comes first to refuse it; it knows the sizes of the two segments
    and nothing of the configuration.

    An instruction that is not refused has a template. Its branches into the
    bytecode, in the order of the code, are the targets that the instruction
    names, and it places nothing but the dispatch of a case table and marks of
    its own.
-/

namespace PawnNative

open X64 Convention Template

/-! ## Section 1: Operands -/

namespace Instruction

/-- The code addresses that an instruction branches to directly. -/
def targets (i : Instruction) : List Cell :=
  match i.opcode with
  | .call | .jump | .jzer | .jnz | .jeq | .jneq | .jless | .jleq | .jgrtr | .jgeq
  | .jsless | .jsleq | .jsgrtr | .jsgeq => [i.arg]
  | .jrel => [i.next + i.arg]
  | .casetbl => i.cases.map (·.2) ++ [i.arg2]
  | _ => []

/-- The labels that an instruction leads to: its targets, or for a switch its case table. -/
def leads (i : Instruction) : List LabelKey :=
  match i.opcode with
  | .switch => [⟨i.arg, .caseTable⟩]
  | _ => i.targets.map fun t => ⟨t, .instr⟩

/-- Whether a branch may lead to this code address. -/
def InCode (codeSize : Nat) (a : Cell) : Prop :=
  0 ≤ a.toInt ∧ a.toInt < codeSize ∧ (4 : Int) ∣ a.toInt

instance (codeSize : Nat) (a : Cell) : Decidable (InCode codeSize a) :=
  inferInstanceAs (Decidable (_ ∧ _ ∧ _))

/-- The error of the first of these targets that leaves the code segment. -/
def strayTarget? (codeSize : Nat) (i : Instruction) (targets : List Cell) : Option CompileError :=
  (targets.find? fun t => ¬InCode codeSize t).map (.targetOutOfRange i)

/-- The error of an instruction that is refused for its own operands. -/
def refusal? (codeSize dataSize : Nat) (i : Instruction) : Option CompileError :=
  match i.opcode with
  | .invalid => some (.unsupported i .invalidInstruction)
  | .loadPri | .loadAlt | .lrefPri | .lrefAlt | .storPri | .storAlt | .srefPri | .srefAlt
  | .push | .zero | .inc | .dec =>
    if 0 ≤ i.arg.toInt ∧ i.arg.toInt ≤ (dataSize : Int) - 4 then none
    else some (.dataOutOfRange i i.arg)
  | .lodbI | .strbI =>
    if i.arg = 1 ∨ i.arg = 2 ∨ i.arg = 4 then none else some (.unsupported i .accessWidth)
  | .lctrl =>
    if 0 ≤ i.arg.toInt ∧ i.arg.toInt ≤ 6 then none else some (.unsupported i .unknownRegister)
  | .sctrl =>
    if i.arg = 2 ∨ i.arg = 4 ∨ i.arg = 5 ∨ i.arg = 6 then none
    else some (.unsupported i .readOnlyRegister)
  | .movs | .cmps => if 0 ≤ i.arg.toInt then none else some (.unsupported i .negativeLength)
  | .fill =>
    if i.arg.toInt < 0 then some (.unsupported i .negativeLength)
    else if (4 : Int) ∣ i.arg.toInt then none
    else some (.unsupported i .unevenLength)
  | .sysreqN =>
    if 0 ≤ i.arg2.toInt ∧ (4 : Int) ∣ i.arg2.toInt then none
    else some (.unsupported i .argumentSize)
  | .switch => strayTarget? codeSize i [i.arg]
  | .casetbl => strayTarget? codeSize i (i.arg2 :: i.cases.map (·.2))
  | _ => strayTarget? codeSize i i.targets

/-- What the template of an instruction places, in order. -/
def places (i : Instruction) : List Target :=
  match i.opcode with
  | .casetbl => [.cases i.address]
  | .pushR => if i.arg.toInt ≤ 0 then [] else [.mark 0]
  | .sdiv | .sdivAlt => [.mark 0, .mark 1, .mark 2]
  | _ => []

end Instruction

/-! ## Section 2: Plain lines -/

/-- Lines that name nothing of the bytecode and place nothing. -/
def Plain (ls : List Line) : Prop := ∀ l ∈ ls, l.key? = none ∧ l.placed? = none

section
variable {l : Line} {ls ls' : List Line}

@[simp] theorem plain_nil : Plain [] := by simp [Plain]

@[simp] theorem plain_cons : Plain (l :: ls) ↔ (l.key? = none ∧ l.placed? = none) ∧ Plain ls := by
  simp [Plain]

@[simp] theorem plain_append : Plain (ls ++ ls') ↔ Plain ls ∧ Plain ls' :=
  List.forall_mem_append

theorem Plain.keys (h : Plain ls) : ls.filterMap Line.key? = [] :=
  List.filterMap_eq_nil_iff.mpr fun l hl => (h l hl).1

theorem Plain.placed (h : Plain ls) : ls.filterMap Line.placed? = [] :=
  List.filterMap_eq_nil_iff.mpr fun l hl => (h l hl).2

end

/-! ## Section 3: Parts of templates that are plain -/

section
variable (ctx : Context) (r r' : Reg) (m : Mem) (v : Cell) (n : Nat) (a : Accumulator)

@[simp] theorem plain_ops (is : List Instr) : Plain (is.map .op) := by
  intro l hl
  obtain ⟨i, -, rfl⟩ := List.mem_map.mp hl
  exact ⟨rfl, rfl⟩

@[simp] theorem plain_checkRange : Plain (checkRange ctx r n) := by
  unfold checkRange
  split_ifs <;> simp

@[simp] theorem plain_checkCell : Plain (checkCell ctx r) := plain_checkRange ctx r _

@[simp] theorem plain_relative : Plain (relative r r') := by simp [relative]

@[simp] theorem plain_absolute : Plain (absolute r r') := by simp [absolute]

@[simp] theorem plain_suspend : Plain suspend := by
  simp [suspend, loadFile, storeRelative]

@[simp] theorem plain_resume : Plain resume := by
  simp [resume, loadFile, loadAbsolute]

@[simp] theorem plain_pushReg : Plain (pushReg r) := by simp [pushReg]

@[simp] theorem plain_checkMargin : Plain checkMargin := by simp [checkMargin, loadFile]

@[simp] theorem plain_setPri (c : Cond) : Plain (setPri c) := by simp [setPri]

@[simp] theorem plain_frameAddress : Plain (frameAddress r v) := by simp [frameAddress]

@[simp] theorem plain_loadIndirect : Plain (loadIndirect ctx) := by simp [loadIndirect]

@[simp] theorem plain_moveStack : Plain (moveStack v) := by
  unfold moveStack
  split_ifs <;> simp [loadFile]

@[simp] theorem plain_alignAddress : Plain (alignAddress r v) := by
  unfold alignAddress
  split_ifs <;> simp

@[simp] theorem plain_computed (go : Reg → Instr) : Plain (computed go) := by
  simp [computed, callHelper, loadFile]

@[simp] theorem plain_callNative (index : NativeIndex) (count : ArgCount) :
    Plain (callNative index count) := by
  cases count <;> simp [callNative, callHelper]

@[simp] theorem plain_floatLines (f : FloatNative) : Plain (f.lines n) := by
  cases f <;> simp [FloatNative.lines, FloatNative.binaryLines, callHelper]

@[simp] theorem plain_native (index : NativeIndex) (count : ArgCount) :
    Plain (native ctx index count) := by
  unfold native
  split
  · simp
  · split <;> simp

end

/-! ## Section 4: Templates -/

/-- The template of an instruction that is not refused names what the instruction leads to. -/
structure Instruction.Named (i : Instruction) (ls : List Line) : Prop where
  keys : ls.filterMap Line.key? = i.leads
  placed : ls.filterMap Line.placed? = i.places

/-- What translating an instruction gives: the refusal, or a template. -/
def Instruction.Answered (ctx : Context) (i : Instruction)
    (r : Except CompileError (List Line)) : Prop :=
  match i.refusal? ctx.codeSize ctx.dataSize with
  | some e => r = .error e
  | none => ∃ ls, r = .ok ls ∧ i.Named ls

section
variable {ctx : Context} {i : Instruction}

theorem Context.inCode_iff {a : Cell} :
    ctx.inCode a = true ↔ Instruction.InCode ctx.codeSize a := by
  have hwidth : Cell.width = 4 := rfl
  simp only [Context.inCode, Bool.and_eq_true, decide_eq_true_eq, Instruction.InCode, hwidth]
  by_cases h : 0 ≤ a.toInt
  · have hnat := Cell.toInt_eq_toNat h
    generalize a.toInt = n at *
    omega
  · simp [h]

theorem Context.inData_iff {a : Cell} :
    ctx.inData a = true ↔ 0 ≤ a.toInt ∧ a.toInt ≤ (ctx.dataSize : Int) - 4 := by
  have hwidth : Cell.width = 4 := rfl
  simp only [Context.inData, Bool.and_eq_true, decide_eq_true_eq, hwidth]
  by_cases h : 0 ≤ a.toInt
  · have hnat := Cell.toInt_eq_toNat h
    generalize a.toInt = n at *
    omega
  · simp [h]

namespace Instruction

theorem answered_ok {ls : List Line} (hrefusal : i.refusal? ctx.codeSize ctx.dataSize = none)
    (h : i.Named ls) : i.Answered ctx (.ok ls) := by
  rw [Answered, hrefusal]
  exact ⟨ls, rfl, h⟩

theorem answered_error {e : CompileError}
    (hrefusal : i.refusal? ctx.codeSize ctx.dataSize = some e) : i.Answered ctx (.error e) := by
  rw [Answered, hrefusal]

theorem named_of_plain {ls : List Line} (hls : Plain ls) (hleads : i.leads = [])
    (hplaces : i.places = []) : i.Named ls :=
  ⟨hls.keys.trans hleads.symm, hls.placed.trans hplaces.symm⟩

theorem answered_direct {f : Mem → List Line}
    (hrefusal : i.refusal? ctx.codeSize ctx.dataSize =
      if 0 ≤ i.arg.toInt ∧ i.arg.toInt ≤ (ctx.dataSize : Int) - 4 then none
      else some (.dataOutOfRange i i.arg))
    (hf : ∀ m, i.Named (f m)) : i.Answered ctx (do return f (← ctx.directCell i)) := by
  by_cases h : 0 ≤ i.arg.toInt ∧ i.arg.toInt ≤ (ctx.dataSize : Int) - 4
  · rw [if_pos h] at hrefusal
    have hcell : ctx.directCell i = .ok (dataCell i.arg) := by
      simp [Context.directCell, Context.direct, Context.inData_iff, h, Except.map]
    rw [hcell]
    exact answered_ok hrefusal (hf _)
  · rw [if_neg h] at hrefusal
    have hcell : ctx.directCell i = .error (.dataOutOfRange i i.arg) := by
      simp [Context.directCell, Context.direct, Context.inData_iff, h, Except.map]
    rw [hcell]
    exact answered_error hrefusal

theorem answered_target {f : Cell → List Line} {t : Cell}
    (hrefusal : i.refusal? ctx.codeSize ctx.dataSize = strayTarget? ctx.codeSize i [t])
    (hf : i.Named (f t)) : i.Answered ctx (do return f (← ctx.target i t)) := by
  by_cases h : InCode ctx.codeSize t
  · have htarget : ctx.target i t = .ok t := by
      simp [Context.target, Context.inCode_iff, h]
    rw [htarget]
    exact answered_ok (by rw [hrefusal]; simp [strayTarget?, h]) hf
  · have htarget : ctx.target i t = .error (.targetOutOfRange i t) := by
      simp [Context.target, Context.inCode_iff, h]
    rw [htarget]
    exact answered_error (by rw [hrefusal]; simp [strayTarget?, h])

theorem answered_width {f : Width → List Line}
    (hrefusal : i.refusal? ctx.codeSize ctx.dataSize =
      if i.arg = 1 ∨ i.arg = 2 ∨ i.arg = 4 then none else some (.unsupported i .accessWidth))
    (hf : ∀ w, i.Named (f w)) : i.Answered ctx (do return f (← width i)) := by
  unfold width
  split_ifs with h1 h2 h4
  · exact answered_ok (by rw [hrefusal, if_pos (Or.inl h1)]) (hf _)
  · exact answered_ok (by rw [hrefusal, if_pos (Or.inr (Or.inl h2))]) (hf _)
  · exact answered_ok (by rw [hrefusal, if_pos (Or.inr (Or.inr h4))]) (hf _)
  · refine answered_error ?_
    rw [hrefusal, if_neg]
    rintro (h | h | h)
    · exact h1 h
    · exact h2 h
    · exact h4 h

theorem answered_bytes {f : Nat → List Line}
    (hrefusal : i.refusal? ctx.codeSize ctx.dataSize =
      if 0 ≤ i.arg.toInt then none else some (.unsupported i .negativeLength))
    (hf : ∀ n, i.Named (f n)) : i.Answered ctx (do return f (← blockLength i 1)) := by
  unfold blockLength
  split_ifs with hneg hunit
  · exact answered_error (by rw [hrefusal, if_neg (Int.not_le.mpr hneg)])
  · omega
  · exact answered_ok (by rw [hrefusal, if_pos (Int.not_lt.mp hneg)]) (hf _)

theorem answered_cells {f : Nat → List Line}
    (hrefusal : i.refusal? ctx.codeSize ctx.dataSize =
      if i.arg.toInt < 0 then some (.unsupported i .negativeLength)
      else if (4 : Int) ∣ i.arg.toInt then none
      else some (.unsupported i .unevenLength))
    (hf : ∀ n, i.Named (f n)) : i.Answered ctx (do return f (← blockLength i Cell.width)) := by
  have hdvd : 0 ≤ i.arg.toInt → ((4 : Int) ∣ i.arg.toInt ↔ i.arg.toNat % Cell.width = 0) := by
    intro h
    rw [Cell.toInt_eq_toNat h, Cell.width]
    omega
  unfold blockLength
  split_ifs with hneg hunit
  · exact answered_error (by rw [hrefusal, if_pos hneg])
  · refine answered_error ?_
    rw [hrefusal, if_neg hneg, if_neg fun h => hunit ((hdvd (Int.not_lt.mp hneg)).mp h)]
  · refine answered_ok ?_ (hf _)
    rw [not_ne_iff] at hunit
    rw [hrefusal, if_neg hneg, if_pos ((hdvd (Int.not_lt.mp hneg)).mpr hunit)]

theorem answered_nativeCounted
    (hrefusal : i.refusal? ctx.codeSize ctx.dataSize =
      if 0 ≤ i.arg2.toInt ∧ (4 : Int) ∣ i.arg2.toInt then none
      else some (.unsupported i .argumentSize))
    (hf : ∀ ls, Plain ls → i.Named ls) : i.Answered ctx (nativeCounted ctx i) := by
  have hiff : (0 ≤ i.arg2.toInt ∧ (4 : Int) ∣ i.arg2.toInt) ↔
      ¬(i.arg2.toInt < 0 ∨ i.arg2.toNat % Cell.width ≠ 0) := by
    rw [not_or, Int.not_lt, not_ne_iff]
    refine and_congr_right fun h => ?_
    rw [Cell.toInt_eq_toNat h, Cell.width]
    omega
  unfold nativeCounted
  split_ifs with h
  · exact answered_error (by rw [hrefusal, if_neg fun h' => hiff.mp h' h])
  · exact answered_ok (by rw [hrefusal, if_pos (hiff.mpr h)]) (hf _ (by simp))

theorem answered_readControl
    (hrefusal : i.refusal? ctx.codeSize ctx.dataSize =
      if 0 ≤ i.arg.toInt ∧ i.arg.toInt ≤ 6 then none else some (.unsupported i .unknownRegister))
    (hf : ∀ ls, Plain ls → i.Named ls) : i.Answered ctx (readControl ctx i) := by
  unfold readControl
  split
  case h_8 h0 h1 h2 h3 h4 h5 h6 =>
    refine answered_error ?_
    rw [hrefusal, if_neg]
    rintro ⟨hlow, hhigh⟩
    have hcases : i.arg.toInt = 0 ∨ i.arg.toInt = 1 ∨ i.arg.toInt = 2 ∨ i.arg.toInt = 3 ∨
        i.arg.toInt = 4 ∨ i.arg.toInt = 5 ∨ i.arg.toInt = 6 := by omega
    rcases hcases with h | h | h | h | h | h | h
    exacts [h0 h, h1 h, h2 h, h3 h, h4 h, h5 h, h6 h]
  all_goals
    next h => exact answered_ok (by rw [hrefusal, h]; rfl) (hf _ (by simp [loadFile]))

theorem answered_writeControl
    (hrefusal : i.refusal? ctx.codeSize ctx.dataSize =
      if i.arg = 2 ∨ i.arg = 4 ∨ i.arg = 5 ∨ i.arg = 6 then none
      else some (.unsupported i .readOnlyRegister))
    (hf : ∀ ls, Plain ls → i.Named ls) : i.Answered ctx (writeControl i) := by
  unfold writeControl
  split
  case h_5 h2 h4 h5 h6 =>
    refine answered_error ?_
    rw [hrefusal, if_neg]
    rintro (h | h | h | h)
    · exact h2 (by rw [h]; rfl)
    · exact h4 (by rw [h]; rfl)
    · exact h5 (by rw [h]; rfl)
    · exact h6 (by rw [h]; rfl)
  case h_1 h =>
    exact answered_ok (by rw [hrefusal, if_pos (Or.inl (BitVec.eq_of_toInt_eq h))])
      (hf _ (by simp [loadFile]))
  case h_2 h =>
    exact answered_ok (by rw [hrefusal, if_pos (Or.inr (Or.inl (BitVec.eq_of_toInt_eq h)))])
      (hf _ (by simp))
  case h_3 h =>
    exact answered_ok
      (by rw [hrefusal, if_pos (Or.inr (Or.inr (Or.inl (BitVec.eq_of_toInt_eq h))))])
      (hf _ (by simp))
  case h_4 h =>
    exact answered_ok
      (by rw [hrefusal, if_pos (Or.inr (Or.inr (Or.inr (BitVec.eq_of_toInt_eq h))))])
      (hf _ (by simp [jumpComputed]))

theorem checkCases (cases : List (Cell × Cell)) :
    cases.mapM (fun (value, target) => do return (value, ← ctx.target i target)) =
      match strayTarget? ctx.codeSize i (cases.map (·.2)) with
      | some e => .error e
      | none => .ok cases := by
  induction cases with
  | nil => rfl
  | cons record cases ih =>
    obtain ⟨value, target⟩ := record
    rw [List.mapM_cons, ih]
    dsimp only
    by_cases h : InCode ctx.codeSize target
    · have htarget : ctx.target i target = .ok target := by
        simp [Context.target, Context.inCode_iff, h]
      have hstray : strayTarget? ctx.codeSize i (((value, target) :: cases).map (·.2)) =
          strayTarget? ctx.codeSize i (cases.map (·.2)) := by
        simp [strayTarget?, h]
      rw [htarget, hstray]
      cases strayTarget? ctx.codeSize i (cases.map (·.2)) <;> rfl
    · have htarget : ctx.target i target = .error (.targetOutOfRange i target) := by
        simp [Context.target, Context.inCode_iff, h]
      have hstray : strayTarget? ctx.codeSize i (((value, target) :: cases).map (·.2)) =
          some (.targetOutOfRange i target) := by
        simp [strayTarget?, h]
      simp only [htarget, hstray, error_bind]

theorem keys_tryCases (cases : List (Cell × Cell)) :
    (tryCases cases).filterMap Line.key? = cases.map fun record => ⟨record.2, .instr⟩ := by
  induction cases with
  | nil => rfl
  | cons record cases ih =>
    obtain ⟨value, target⟩ := record
    simp [tryCases, List.filterMap_cons, ih]

theorem placed_tryCases (cases : List (Cell × Cell)) :
    (tryCases cases).filterMap Line.placed? = [] := by
  induction cases with
  | nil => rfl
  | cons record cases ih =>
    obtain ⟨value, target⟩ := record
    rw [tryCases, List.filterMap_cons, List.filterMap_cons]
    exact ih

theorem answered_caseTable
    (hrefusal : i.refusal? ctx.codeSize ctx.dataSize =
      strayTarget? ctx.codeSize i (i.arg2 :: i.cases.map (·.2)))
    (hf : i.Named (dispatchCases i.address i.arg2 i.cases)) :
    i.Answered ctx (caseTable ctx i) := by
  unfold caseTable
  rw [checkCases]
  by_cases h : InCode ctx.codeSize i.arg2
  · have htarget : ctx.target i i.arg2 = .ok i.arg2 := by
      simp [Context.target, Context.inCode_iff, h]
    have hstray : strayTarget? ctx.codeSize i (i.arg2 :: i.cases.map (·.2)) =
        strayTarget? ctx.codeSize i (i.cases.map (·.2)) := by
      simp [strayTarget?, h]
    rw [htarget, ok_bind]
    rw [hstray] at hrefusal
    cases hcases : strayTarget? ctx.codeSize i (i.cases.map (·.2)) with
    | some e => exact answered_error (hrefusal.trans hcases)
    | none => exact answered_ok (hrefusal.trans hcases) hf
  · have htarget : ctx.target i i.arg2 = .error (.targetOutOfRange i i.arg2) := by
      simp [Context.target, Context.inCode_iff, h]
    rw [htarget]
    exact answered_error (by rw [hrefusal]; simp [strayTarget?, h])

theorem named_pushRepeated (hleads : i.leads = [])
    (hplaces : i.places = if i.arg.toInt ≤ 0 then [] else [.mark 0]) :
    i.Named (pushRepeated i.arg) := by
  unfold pushRepeated
  split_ifs at hplaces ⊢
  · exact named_of_plain plain_nil hleads hplaces
  · exact ⟨by rw [hleads]; simp [pushReg], by rw [hplaces]; simp [pushReg, List.filterMap_cons]⟩

theorem named_divideSigned {swap : Bool} (hleads : i.leads = [])
    (hplaces : i.places = [.mark 0, .mark 1, .mark 2]) : i.Named (divideSigned swap) := by
  constructor
  · rw [hleads]
    cases swap <;> rfl
  · rw [hplaces]
    cases swap <;> rfl

end Instruction

end

/-- **Translation of one instruction.** An instruction that its operands make meaningless is
    refused; every other one has a template that leads where the instruction says. -/
theorem template_answered (ctx : Context) (i : Instruction) :
    i.Answered ctx (template ctx i) := by
  obtain ⟨address, opcode, operands⟩ := i
  -- One case for each way in which operands can be refused; plain templates lead nowhere.
  cases opcode
  case invalid => exact Instruction.answered_error rfl
  case loadPri | loadAlt | storPri | storAlt | zero | inc | dec =>
    exact Instruction.answered_direct rfl fun m => Instruction.named_of_plain (by simp) rfl rfl
  case lrefPri | lrefAlt =>
    exact Instruction.answered_direct rfl fun m =>
      Instruction.named_of_plain (by simp [loadThrough]) rfl rfl
  case srefPri | srefAlt =>
    exact Instruction.answered_direct rfl fun m =>
      Instruction.named_of_plain (by simp [storeThrough]) rfl rfl
  case push =>
    exact Instruction.answered_direct rfl fun m =>
      Instruction.named_of_plain (by simp [pushMem]) rfl rfl
  case lodbI =>
    exact Instruction.answered_width rfl fun w =>
      Instruction.named_of_plain (by simp [loadPart]) rfl rfl
  case strbI =>
    exact Instruction.answered_width rfl fun w =>
      Instruction.named_of_plain (by simp [storePart]) rfl rfl
  case lctrl =>
    exact Instruction.answered_readControl rfl fun ls h => Instruction.named_of_plain h rfl rfl
  case sctrl =>
    exact Instruction.answered_writeControl rfl fun ls h => Instruction.named_of_plain h rfl rfl
  case movs =>
    exact Instruction.answered_bytes rfl fun n =>
      Instruction.named_of_plain (by simp [moveBlock]) rfl rfl
  case cmps =>
    exact Instruction.answered_bytes rfl fun n =>
      Instruction.named_of_plain (by simp [compareBlock]) rfl rfl
  case fill =>
    exact Instruction.answered_cells rfl fun n =>
      Instruction.named_of_plain (by simp [fillBlock]) rfl rfl
  case sysreqN =>
    exact Instruction.answered_nativeCounted rfl fun ls h => Instruction.named_of_plain h rfl rfl
  case call | jump | jrel | jzer | jnz | jeq | jneq | jless | jleq | jgrtr | jgeq | jsless | jsleq
      | jsgrtr | jsgeq | switch =>
    exact Instruction.answered_target rfl ⟨rfl, rfl⟩
  case casetbl =>
    refine Instruction.answered_caseTable rfl ⟨?_, ?_⟩
    · simp [dispatchCases, List.filterMap_cons, Instruction.keys_tryCases, Instruction.leads,
        Instruction.targets, Function.comp_def]
    · simp [dispatchCases, Instruction.placed_tryCases, Instruction.places]
  case pushR => exact Instruction.answered_ok rfl (Instruction.named_pushRepeated rfl rfl)
  case sdiv | sdivAlt => exact Instruction.answered_ok rfl (Instruction.named_divideSigned rfl rfl)
  all_goals
    refine Instruction.answered_ok rfl (Instruction.named_of_plain ?_ rfl rfl)
    simp [loadThrough, storeThrough, storeIndirect, elementAddress, scaledAddress,
      incIndirect, decIndirect, pushImm, popReg, pushMem, pushFrameAddress, swapTop, moveHeap,
      enterFunction, leaveFunction, leaveDropping, jumpComputed, callComputed, haltWith,
      checkBounds, operate, compareAlt, compareConst, isZero, exchange, checkDivisor,
      divideUnsigned, shiftConst, loadFile]

/-! ## Section 5: Calls of natives -/

/-- The call of a native that an instruction stands for. -/
def Instruction.nativeCall? (i : Instruction) : Option (NativeIndex × ArgCount) :=
  match i.opcode with
  | .sysreqPri => some (.pri, .pushed)
  | .sysreqC => some (.const i.arg, .pushed)
  | .sysreqN => some (.const i.arg, .const i.arg2)
  | _ => none

/-- The code of such an instruction calls the native, or does its work in place. -/
theorem template_native {ctx : Context} {i : Instruction} {ls : List Line} {index : NativeIndex}
    {count : ArgCount} (hls : template ctx i = .ok ls)
    (hcall : i.nativeCall? = some (index, count)) : ls = native ctx index count := by
  unfold Instruction.nativeCall? at hcall
  unfold template at hls
  split at hcall
  case h_1 hop | h_2 hop =>
    cases hcall
    rw [hop] at hls
    exact (Except.ok.inj hls).symm
  case h_3 hop =>
    cases hcall
    rw [hop] at hls
    dsimp only at hls
    unfold nativeCounted at hls
    split_ifs at hls
    exact (Except.ok.inj hls).symm
  case h_4 => cases hcall

end PawnNative
