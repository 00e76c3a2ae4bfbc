import Mathlib.Tactic.Common
import PawnNative.Proofs.Demands
import PawnNative.Proofs.Footprint

/-! # Templates keep the conventions of an activation

    While an activation runs, four registers of the processor and its part of the
    native stack are as the entry left them, but for the return addresses of the
    functions that were called since. Almost every line of a template leaves them
    alone by its form. The others come in few shapes: a function is called or
    returns, the program halts, the top of the heap is moved, or a helper is called
    between suspending and resuming.

    `Conventional` says that lines are made of such pieces, and the main statement
    is that the lines of every template are.
-/

namespace PawnNative

open X64 Convention Template

/-! ## Section 1: Pieces -/

/-- Whether a target lies in the code of an instruction or in the stub of a fault. -/
def Target.isOpen : Target → Bool
  | .code _ | .cases _ | .mark _ | .stub (.fault _) => true
  | .stub .leave | .stub .halt | .stub .pending => false

/-- Lines that are made of pieces which keep the conventions. -/
inductive Conventional : List Line → Prop where
  | nil : Conventional []
  | op {i : Instr} {ls : List Line} (hi : i.isLocal) (hls : Conventional ls) :
      Conventional (.op i :: ls)
  | place {t : Target} {ls : List Line} (hls : Conventional ls) : Conventional (.place t :: ls)
  | jmp {t : Target} {ls : List Line} (ht : t.isOpen) (hls : Conventional ls) :
      Conventional (.jmp t :: ls)
  | jcc {c : Cond} {t : Target} {ls : List Line} (ht : t.isOpen) (hls : Conventional ls) :
      Conventional (.jcc c t :: ls)
  | call {t : Cell} {ls : List Line} (hls : Conventional ls) : Conventional (.call (.code t) :: ls)
  | ret {ls : List Line} (hls : Conventional ls) : Conventional (.op .ret :: ls)
  | halt {t code : Cell} {ls : List Line} (hls : Conventional ls) :
      Conventional (.place (.code t) :: (haltWith code ++ ls))
  | fault {f : Fault} {ls : List Line} (hls : Conventional ls) : Conventional (faultLines f ++ ls)
  | heap (is : List Instr) {src : Reg} {ls : List Line}
      (his : ∀ i ∈ is, i.isLocal ∧ tmp0 ∉ i.writes) (hls : Conventional ls) :
      Conventional (loadFile tmp0 :: is.map Line.op ++ .op (.store .d (saved tmp0 .hea) src) :: ls)
  | native {index : NativeIndex} {count : ArgCount} {ls : List Line} (hls : Conventional ls) :
      Conventional (callNative index count ++ ls)
  | jump {ls : List Line} (hls : Conventional ls) : Conventional (computed .jmpR ++ ls)
  | invoke {ls : List Line} (hls : Conventional ls) : Conventional (computed .callR ++ ls)
  | log {first : Nat} {ls : List Line} (hls : Conventional ls) :
      Conventional (FloatNative.lines .floatlog first ++ ls)

/-- Whether a line is a piece of its own. -/
def Line.isPiece : Line → Bool
  | .op .ret | .call (.code _) | .place _ => true
  | .op i => i.isLocal
  | .jmp t | .jcc _ t => t.isOpen
  | .call _ => false

namespace Conventional

variable {ls ls' : List Line}

theorem pieces (h : ls.all Line.isPiece) (hls : Conventional ls') : Conventional (ls ++ ls') := by
  induction ls with
  | nil => exact hls
  | cons l ls ih =>
    rw [List.all_cons, Bool.and_eq_true_iff] at h
    obtain ⟨hl, hrest⟩ := h
    have ih := ih hrest
    unfold Line.isPiece at hl
    split at hl
    · exact .ret ih
    · exact .call ih
    · exact .place ih
    · exact .op hl ih
    · exact .jmp hl ih
    · exact .jcc hl ih
    · cases hl

theorem of_pieces (h : ls.all Line.isPiece) : Conventional ls := by
  have happend := pieces h .nil
  rwa [List.append_nil] at happend

theorem leave_not_mem (h : Conventional ls) : Line.jmp (.stub .leave) ∉ ls := by
  induction h with
  | nil => exact List.not_mem_nil
  | jmp ht _ ih =>
    intro hmem
    rcases List.mem_cons.mp hmem with heq | hmem
    · cases heq
      cases ht
    · exact ih hmem
  | op _ _ ih | place _ ih | jcc _ _ ih | call _ ih | ret _ ih =>
    simpa using ih
  | halt _ ih | fault _ ih => simpa [haltWith, faultLines] using ih
  | heap is _ _ ih => simpa [loadFile] using ih
  | @native index count _ _ ih =>
    have hcall : Line.jmp (.stub .leave) ∉ callNative index count := by
      cases count <;> simp [callNative, suspend, resume, callHelper, loadFile, storeRelative,
        relative, loadAbsolute]
    simpa [hcall] using ih
  | jump _ ih | invoke _ ih =>
    simpa [computed, suspend, resume, callHelper, loadFile, storeRelative, relative,
      loadAbsolute] using ih
  | log _ ih =>
    simpa [FloatNative.lines, suspend, resume, callHelper, loadFile, storeRelative, relative,
      loadAbsolute] using ih

theorem append (h : Conventional ls) (h' : Conventional ls') : Conventional (ls ++ ls') := by
  induction h with
  | nil => exact h'
  | op hi _ ih => exact .op hi ih
  | place _ ih => exact .place ih
  | jmp ht _ ih => exact .jmp ht ih
  | jcc ht _ ih => exact .jcc ht ih
  | call _ ih => exact .call ih
  | ret _ ih => exact .ret ih
  | halt _ ih => exact .halt ih
  | fault _ ih => exact .fault ih
  | heap is his _ ih =>
    rw [List.append_assoc, List.cons_append]
    exact .heap _ his ih
  | native _ ih =>
    rw [List.append_assoc]
    exact .native ih
  | jump _ ih =>
    rw [List.append_assoc]
    exact .jump ih
  | invoke _ ih =>
    rw [List.append_assoc]
    exact .invoke ih
  | log _ ih =>
    rw [List.append_assoc]
    exact .log ih

theorem split_place {xs pre post : List Line} {t : Target} (hxs : ∀ l ∈ xs, l.placed? = none)
    (h : xs ++ ls = pre ++ .place t :: post) : ∃ pre', ls = pre' ++ .place t :: post := by
  rcases List.append_eq_append_iff.mp h with ⟨pre', -, hls⟩ | ⟨rest, hxs', hrest⟩
  · exact ⟨pre', hls⟩
  · cases rest with
    | nil => exact ⟨[], by rw [List.nil_append]; exact hrest.symm⟩
    | cons l rest =>
      obtain ⟨rfl, -⟩ := List.cons_eq_cons.mp hrest
      have hmem : Line.place t ∈ xs := by
        rw [hxs']
        exact List.mem_append_right _ List.mem_cons_self
      cases hxs _ hmem

theorem of_place {pre post : List Line} {t : Target} (h : Conventional (pre ++ .place t :: post)) :
    Conventional (.place t :: post) := by
  -- The place is not in the first piece, unless it is that piece.
  have skip : ∀ (xs : List Line) {ls pre : List Line}, (∀ l ∈ xs, l.placed? = none) →
      (∀ {pre : List Line}, pre ++ .place t :: post = ls → Conventional (.place t :: post)) →
      pre ++ .place t :: post = xs ++ ls → Conventional (.place t :: post) := by
    intro xs ls pre hxs ih hsplit
    obtain ⟨pre', hpre'⟩ := split_place hxs hsplit.symm
    exact ih hpre'.symm
  generalize hall : pre ++ .place t :: post = all at h
  induction h generalizing pre with
  | nil => simp at hall
  | place hls ih =>
    cases pre with
    | nil =>
      obtain ⟨ht, rfl⟩ := List.cons_eq_cons.mp hall
      exact .place hls
    | cons l pre => exact ih (List.cons_eq_cons.mp hall).2
  | op _ _ ih => exact skip [_] (by simp) ih hall
  | jmp _ _ ih => exact skip [_] (by simp) ih hall
  | jcc _ _ ih => exact skip [_] (by simp) ih hall
  | call _ ih => exact skip [_] (by simp) ih hall
  | ret _ ih => exact skip [_] (by simp) ih hall
  | @halt t' code ls hls ih =>
    cases pre with
    | nil =>
      obtain ⟨ht, rfl⟩ := List.cons_eq_cons.mp hall
      rw [ht]
      exact .halt hls
    | cons l pre => exact skip (haltWith code) (by simp [haltWith]) ih (List.cons_eq_cons.mp hall).2
  | @fault f ls hls ih =>
    cases pre with
    | nil =>
      obtain ⟨ht, rfl⟩ := List.cons_eq_cons.mp hall
      rw [ht]
      exact .fault hls
    | cons l pre =>
      exact skip [.op (.movRI32 .rax f.code), .jmp (.stub .halt)] (by simp) ih
        (List.cons_eq_cons.mp hall).2
  | @heap is src ls _ _ ih =>
    have hplain :
        Plain (loadFile tmp0 :: is.map .op ++ [.op (.store .d (saved tmp0 .hea) src)]) := by
      simp [loadFile]
    exact skip _ (fun l hl => (hplain l hl).2) ih (hall.trans (by simp))
  | native _ ih => exact skip _ (fun l hl => (plain_callNative _ _ l hl).2) ih hall
  | jump _ ih => exact skip _ (fun l hl => (plain_computed _ l hl).2) ih hall
  | invoke _ ih => exact skip _ (fun l hl => (plain_computed _ l hl).2) ih hall
  | log _ ih => exact skip _ (fun l hl => (plain_floatLines _ _ l hl).2) ih hall

end Conventional

/-! ## Section 2: Templates -/

/-- The shapes of templates. Most of them are made of single lines. -/
inductive Shape : List Line → Prop where
  | pieces {ls : List Line} (hls : ls.all Line.isPiece) : Shape ls
  | heap (is : List Instr) (src : Reg) {rest : List Line} (his : ∀ i ∈ is, i.isLocal ∧
    tmp0 ∉ i.writes)
      (hrest : rest.all Line.isPiece) :
      Shape (loadFile tmp0 :: is.map Line.op ++ .op (.store .d (saved tmp0 .hea) src) :: rest)
  | native (index : NativeIndex) (count : ArgCount) : Shape (callNative index count)
  | log (first : Nat) {rest : List Line} (hrest : rest.all Line.isPiece) :
      Shape (FloatNative.lines .floatlog first ++ rest)
  | jump : Shape (computed .jmpR)
  | invoke (next : Cell) : Shape (pushImm next ++ computed .callR)
  | halt (code : Cell) : Shape (haltWith code)

namespace Shape

variable {ls : List Line} {ctx : Context}

theorem of_directCell {i : Instruction} {f : Mem → List Line}
    (hls : (ctx.directCell i >>= fun o => pure (f o)) = .ok ls) (h : ∀ a, Shape (f (dataCell a))) :
    Shape ls := by
  obtain ⟨o, ho, hls⟩ := bind_eq_ok.mp hls
  have hcell : ∃ a, o = dataCell a := by
    unfold Context.directCell at ho
    cases hdirect : ctx.direct i with
    | error e =>
      rw [hdirect] at ho
      cases ho
    | ok a =>
      rw [hdirect] at ho
      cases ho
      exact ⟨a, rfl⟩
  obtain ⟨a, rfl⟩ := hcell
  exact holds_of_ok hls (h a)

/-- Lines of every shape are made of pieces, a halt together with its place. -/
theorem conventional (h : Shape ls) (t : Cell) : Conventional (.place (.code t) :: ls) := by
  cases h with
  | pieces hls => exact .place (.of_pieces hls)
  | heap is src his hrest => exact .place (.heap is his (.of_pieces hrest))
  | native index count =>
    have hcall : Conventional (callNative index count ++ []) := .native .nil
    rw [List.append_nil] at hcall
    exact .place hcall
  | log first hrest => exact .place (.log (.of_pieces hrest))
  | jump =>
    have hjump : Conventional (computed .jmpR ++ []) := .jump .nil
    rw [List.append_nil] at hjump
    exact .place hjump
  | invoke next =>
    have hinvoke : Conventional (computed .callR ++ []) := .invoke .nil
    rw [List.append_nil] at hinvoke
    exact .place (.pieces rfl hinvoke)
  | halt code => exact .halt .nil

end Shape

theorem isPiece_checkRange (ctx : Context) {r : Reg} (hr : r ∈ [pri, alt, tmp0]) (len : Nat) :
    (checkRange ctx r len).all Line.isPiece := by
  unfold checkRange
  simp only [List.mem_cons, List.not_mem_nil, or_false] at hr
  rcases hr with rfl | rfl | rfl <;> split_ifs <;> rfl

theorem isPiece_tryCases (cases : List (Cell × Cell)) : (tryCases cases).all Line.isPiece := by
  induction cases with
  | nil => rfl
  | cons record cases ih =>
    obtain ⟨value, target⟩ := record
    rw [tryCases, List.all_cons, List.all_cons, ih]
    rfl

theorem shape_native (ctx : Context) (index : NativeIndex) (count : ArgCount) :
    Shape (native ctx index count) := by
  unfold native
  cases inlined? ctx index count with
  | none => exact .native index count
  | some f =>
    cases f with
    | floatlog =>
      cases count with
      | pushed =>
        have hlog : Shape (FloatNative.lines .floatlog Cell.width ++ []) := .log _ rfl
        rwa [List.append_nil] at hlog
      | const bytes => exact .log _ rfl
    | _ => cases count <;> exact .pieces rfl

theorem shape_moveHeap (delta : Cell) : Shape (moveHeap delta) := by
  refine .heap [.load .d alt (saved tmp0 .hea), .movRR .d tmp1 alt,
    .aluRI .add .d tmp1 delta] tmp1 ?_ rfl
  intro i hi
  simp only [List.mem_cons, List.not_mem_nil, or_false] at hi
  rcases hi with rfl | rfl | rfl
  · exact ⟨rfl, by decide⟩
  · exact ⟨rfl, by decide⟩
  · exact ⟨rfl, by simp [Instr.writes]⟩

/-- Every template has one of the shapes. -/
theorem shape_template {ctx : Context} {i : Instruction} {ls : List Line}
    (h : template ctx i = .ok ls) : Shape ls := by
  obtain ⟨address, opcode, operands⟩ := i
  have hpri := isPiece_checkRange ctx (r := pri) (by decide)
  have halt := isPiece_checkRange ctx (r := alt) (by decide)
  have htmp := isPiece_checkRange ctx (r := tmp0) (by decide)
  cases opcode
  -- Cells that are named directly.
  case loadPri | loadAlt | storPri | storAlt | push | zero | inc | dec =>
    exact .of_directCell h fun a => .pieces rfl
  case lrefPri | lrefAlt | srefPri | srefAlt =>
    refine .of_directCell h fun a => .pieces ?_
    simp only [loadThrough, storeThrough, checkCell, List.all_append, Accumulator.reg,
      hpri, halt, htmp]
    rfl
  -- Accesses after a check.
  case lrefSPri | lrefSAlt | srefSPri | srefSAlt | loadI | storI | lidx | lidxB | incI | decI =>
    refine holds_of_ok h (.pieces ?_)
    simp only [loadThrough, storeThrough, loadIndirect, storeIndirect, elementAddress,
      scaledAddress, incIndirect, decIndirect, checkCell, List.all_append, Accumulator.reg, hpri,
      halt, htmp]
    rfl
  case lodbI | strbI =>
    obtain ⟨w, rfl⟩ := exists_of_bind h
    refine .pieces ?_
    simp only [loadPart, storePart, List.all_append, hpri, halt]
    cases w <;> rfl
  case movs | cmps | fill =>
    obtain ⟨len, rfl⟩ := exists_of_bind h
    refine .pieces ?_
    simp only [moveBlock, compareBlock, fillBlock, List.all_append, hpri, halt]
    rfl
  -- Templates whose lines depend on an operand.
  case alignPri | alignAlt | pushR | stack =>
    refine holds_of_ok h (.pieces ?_)
    simp only [alignAddress, pushRepeated, moveStack]
    split_ifs <;> rfl
  case casetbl =>
    obtain ⟨default, -, h⟩ := bind_eq_ok.mp h
    obtain ⟨cases, -, h⟩ := bind_eq_ok.mp h
    refine holds_of_ok h (.pieces ?_)
    simp only [dispatchCases, List.all_append, isPiece_tryCases]
    rfl
  case lctrl =>
    change readControl ctx _ = _ at h
    unfold readControl at h
    split at h
    case h_8 => cases h
    all_goals exact holds_of_ok h (.pieces rfl)
  case sctrl =>
    change writeControl _ = _ at h
    unfold writeControl at h
    split at h
    · exact holds_of_ok h (.heap [] pri (by simp) rfl)
    · exact holds_of_ok h (.pieces rfl)
    · exact holds_of_ok h (.pieces rfl)
    · exact holds_of_ok h .jump
    · cases h
  -- The heap, natives and computed branches.
  case heap => exact holds_of_ok h (shape_moveHeap _)
  case sysreqPri | sysreqC | sysreqN =>
    rw [template_native h rfl]
    exact shape_native ..
  case jumpPri => exact holds_of_ok h .jump
  case callPri => exact holds_of_ok h (.invoke _)
  case halt => exact holds_of_ok h (.halt _)
  -- Everything else is made of single lines.
  all_goals first
    | exact holds_of_ok h (.pieces rfl)
    | obtain ⟨a, rfl⟩ := exists_of_bind h
      exact .pieces rfl
    | cases h

/-- **Conventions.** The lines of every instruction keep the conventions. -/
theorem conventional_instruction {ctx : Context} {i : Instruction} {ls : List Line}
    (h : template ctx i = .ok ls) : Conventional (.place (.code i.address) :: ls) :=
  (shape_template h).conventional i.address

theorem conventional_faultLines (f : Fault) : Conventional (faultLines f) := .fault .nil

end PawnNative
