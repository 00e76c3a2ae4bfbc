import Mathlib.Tactic.Common
import PawnNative.Proofs.Alike
import PawnNative.Proofs.CodeMap
import PawnNative.Proofs.Positions

/-! # Code without range checks

    Whether range checks are emitted makes a difference to few templates, and the
    difference is the checks themselves: a comparison, and a branch to the one stub
    that halts because of a memory access. `Erases` says that lines are other lines
    without their checks and without that stub, or, when nothing is erased, that they
    are the same lines. It also says that two machines which run them side by side
    read nothing on the way that they do not agree on. So it is of use for one program
    in two states as well.

    The numbers of the templates are kept, because a branch inside a template leads
    to a place in the template with the same number.
-/

namespace PawnNative

open X64 Convention Template

/-! ## Section 1: Lines that two machines run side by side -/

/-- The stub that failed range checks lead to. -/
def refusal : Target := .stub (.fault .memoryAccess)

/-- Whether an instruction stores to the register file. -/
def X64.Instr.saves : Instr → Bool
  | .store .d o _ => o.base == .rdx
  | _ => false

namespace Known

/-- What is known where the code of an instruction starts: the registers that hold something
    between two instructions. -/
def held : Known := { regs := [pri, alt, tmp0, Convention.data, call, stk, frm] }

/-- Whether everything that is known is known there too. -/
structure Le (kn kn' : Known) : Prop where
  regs : ∀ r ∈ kn.regs, r ∈ kn'.regs
  vectors : ∀ x ∈ kn.vectors, x ∈ kn'.vectors
  flags : kn.flags → kn'.flags

/-- Whether there is a way to a target in both programs. -/
def leads (erasing : Bool) (t : Target) : Bool := t.isOpen && (t != refusal || !erasing)

/-- What is known after a line, if it reads nothing else. -/
def pass (erasing : Bool) (kn : Known) : Line → Option Known
  | .op .ret | .call (.code _) | .place _ => some held
  | .op i =>
    if .op i = loadFile tmp0 then some kn
    else if (i.isLocal || i.saves) && kn.covers i then some (kn.after i) else none
  | .jmp t => if leads erasing t then some { kn with flags := false } else none
  | .jcc _ t => if kn.flags && leads erasing t then some { kn with flags := false } else none
  | .call _ => none

/-- What is known after lines. -/
def through (erasing : Bool) : Known → List Line → Option Known
  | kn, [] => some kn
  | kn, l :: ls => (kn.pass erasing l).bind fun kn => kn.through erasing ls

end Known

/-- Code that has to be taken as a whole, because it reaches the native stack. -/
inductive Piece : List Line → Prop where
  | halt (code : Cell) : Piece (haltWith code)
  | native (index : NativeIndex) (count : ArgCount) : Piece (callNative index count)
  | jump : Piece (computed .jmpR)
  | invoke : Piece (computed .callR)
  | log (first : Nat) : Piece (FloatNative.lines .floatlog first)

/-- The second lines are the first ones, without range checks if these are erased, and on the way
    through them nothing is read but what is known. -/
inductive Erases (erasing : Bool) : Known → List (Nat × Line) → List (Nat × Line) → Prop where
  | nil {kn : Known} : Erases erasing kn [] []
  | line {kn kn' : Known} {k : Nat} {l : Line} {xs ys : List (Nat × Line)}
    (hl : kn.pass erasing l = some kn')
      (h : Erases erasing kn' xs ys) : Erases erasing kn ((k, l) :: xs) ((k, l) :: ys)
  | piece {kn : Known} {k : Nat} {ls : List Line} {xs ys : List (Nat × Line)} (hls : Piece ls)
      (h : Erases erasing .held xs ys) :
        Erases erasing kn (ls.map (Prod.mk k) ++ xs) (ls.map (Prod.mk k) ++ ys)
  | fault {kn : Known} {k k' : Nat} {f : Fault} {xs ys : List (Nat × Line)}
      (hf : erasing → f ≠ .memoryAccess) (h : Erases erasing .held xs ys) :
      Erases erasing kn ((faultLines f).map (Prod.mk k) ++ xs)
        ((faultLines f).map (Prod.mk k') ++ ys)
  | check {kn : Known} {k : Nat} {r : Reg} {bound : Cell} {xs ys : List (Nat × Line)}
    (herasing : erasing)
      (h : Erases erasing { kn with flags := false } xs ys) :
      Erases erasing kn ((k, .op (.aluRI .cmp .d r bound)) :: (k, .jcc .a refusal) :: xs) ys
  | refuse {kn : Known} {k : Nat} {xs ys : List (Nat × Line)} (herasing : erasing)
      (h : Erases erasing { kn with flags := false } xs ys) :
        Erases erasing kn ((k, .jmp refusal) :: xs) ys
  | stub {kn : Known} {k : Nat} {xs ys : List (Nat × Line)} (herasing : erasing)
    (h : Erases erasing .held xs ys) :
      Erases erasing kn ((faultLines .memoryAccess).map (Prod.mk k) ++ xs) ys

namespace Erases

variable {e : Bool} {kn kn' : Known} {k : Nat} {ls : List Line} {xs ys xs' ys' : List (Nat × Line)}

theorem through (hls : kn.through e ls = some kn') (h : Erases e kn' xs ys) :
    Erases e kn (ls.map (Prod.mk k) ++ xs) (ls.map (Prod.mk k) ++ ys) := by
  induction ls generalizing kn with
  | nil =>
    cases hls
    exact h
  | cons l ls ih =>
    obtain ⟨kn₁, hl, hls⟩ := Option.bind_eq_some_iff.mp hls
    exact .line hl (ih hls)

theorem append (h : Erases e kn xs ys) (h' : ∀ kn, Erases e kn xs' ys') :
    Erases e kn (xs ++ xs') (ys ++ ys') := by
  induction h with
  | nil => exact h' _
  | line hl _ ih => exact .line hl ih
  | piece hls _ ih =>
    rw [List.append_assoc, List.append_assoc]
    exact .piece hls ih
  | fault hf _ ih =>
    rw [List.append_assoc, List.append_assoc]
    exact .fault hf ih
  | check he _ ih => exact .check he ih
  | refuse he _ ih => exact .refuse he ih
  | stub he _ ih =>
    rw [List.append_assoc]
    exact .stub he ih

end Erases

/-! ## Section 2: Faults and places -/

namespace Known

variable {e : Bool} {kn kn' kn₁ : Known} {t : Target} {c : Cond}

theorem Le.covers (hle : kn.Le kn₁) {i : Instr} (h : kn.covers i = true) : kn₁.covers i = true := by
  simp only [Known.covers, Bool.and_eq_true, List.all_eq_true, List.contains_iff_mem,
    Bool.or_eq_true] at h ⊢
  obtain ⟨⟨⟨hregs, hvectors⟩, htests⟩, hoperand⟩ := h
  exact ⟨⟨⟨fun r hr => hle.regs r (hregs r hr), fun x hx => hle.vectors x (hvectors x hx)⟩,
    htests.imp_right hle.flags⟩, hoperand⟩

theorem Le.after (hle : kn.Le kn₁) (i : Instr) : (kn.after i).Le (kn₁.after i) where
  regs r hr := List.mem_append.mpr ((List.mem_append.mp hr).imp_right (hle.regs r))
  vectors x hx := List.mem_append.mpr ((List.mem_append.mp hx).imp_right (hle.vectors x))
  flags h := Bool.or_eq_true_iff.mpr ((Bool.or_eq_true_iff.mp h).imp_right hle.flags)

theorem forgetFlags_le (kn : Known) : ({ kn with flags := false } : Known).Le kn :=
  ⟨fun _ h => h, fun _ h => h, nofun⟩

theorem Le.forgetFlags (hle : kn.Le kn₁) :
    ({ kn with flags := false } : Known).Le { kn₁ with flags := false } :=
  ⟨hle.regs, hle.vectors, fun h => h⟩

theorem pass_op (e : Bool) (kn : Known) {i : Instr} (hi : i ≠ .ret) : kn.pass e (.op i) =
    if .op i = loadFile tmp0 then some kn
    else if (i.isLocal || i.saves) && kn.covers i then some (kn.after i) else none := by
  cases i <;> first | rfl | exact absurd rfl hi

theorem Le.pass (hle : kn.Le kn₁) {l : Line} (h : kn.pass e l = some kn') :
    ∃ kn₁', kn₁.pass e l = some kn₁' ∧ kn'.Le kn₁' := by
  have hheld : held.Le held := ⟨fun _ h => h, fun _ h => h, fun h => h⟩
  -- Knowing more never makes a line harder to pass, and what is known after it grows along.
  cases l with
  | op i =>
    by_cases hret : i = .ret
    · cases hret
      cases h
      exact ⟨held, rfl, hheld⟩
    rw [pass_op e kn hret] at h
    rw [pass_op e kn₁ hret]
    split_ifs at h with hfile hi
    · cases h
      exact ⟨kn₁, if_pos hfile, hle⟩
    · cases h
      obtain ⟨hi, hcovers⟩ := Bool.and_eq_true_iff.mp hi
      exact ⟨kn₁.after i, by rw [if_neg hfile, hi, hle.covers hcovers]; rfl, hle.after i⟩
  | jmp t =>
    change (if _ then _ else _) = _ at h
    split_ifs at h with hleads
    cases h
    exact ⟨_, if_pos hleads, hle.forgetFlags⟩
  | jcc c t =>
    change (if _ then _ else _) = _ at h
    split_ifs at h with hleads
    cases h
    obtain ⟨hflags, hleads⟩ := Bool.and_eq_true_iff.mp hleads
    exact ⟨_, if_pos (Bool.and_eq_true_iff.mpr ⟨hle.flags hflags, hleads⟩), hle.forgetFlags⟩
  | call t =>
    cases t with
    | code a =>
      cases h
      exact ⟨held, rfl, hheld⟩
    | _ => cases h
  | place t =>
    cases h
    exact ⟨held, rfl, hheld⟩

theorem leads_iff : leads e t = true ↔ t.isOpen ∧ (e → t ≠ refusal) := by
  rw [leads, Bool.and_eq_true, Bool.or_eq_true, bne_iff_ne, Bool.not_eq_true', ← Bool.not_eq_true,
    imp_iff_not_or, or_comm]

theorem pass_jmp (h : kn.pass e (.jmp t) = some kn') :
    (t.isOpen ∧ (e → t ≠ refusal)) ∧ kn' = { kn with flags := false } := by
  change (if _ then _ else _) = _ at h
  split_ifs at h with hleads
  exact ⟨leads_iff.mp hleads, (Option.some_inj.mp h).symm⟩

theorem pass_jcc (h : kn.pass e (.jcc c t) = some kn') :
    kn.flags ∧ (t.isOpen ∧ (e → t ≠ refusal)) ∧ kn' = { kn with flags := false } := by
  change (if _ then _ else _) = _ at h
  split_ifs at h with hleads
  obtain ⟨hflags, hleads⟩ := Bool.and_eq_true_iff.mp hleads
  exact ⟨hflags, leads_iff.mp hleads, (Option.some_inj.mp h).symm⟩

end Known

/-- A line that two machines run side by side does not lead to the stub of the checks. -/
theorem Known.fault?_of_pass {kn kn' : Known} {l : Line} (h : kn.pass true l = some kn') :
    l.fault? ≠ some .memoryAccess := by
  have hne : ∀ {t : Target}, t ≠ refusal → ∀ {l : Line}, l.target? = some t →
      l.fault? ≠ some .memoryAccess := by
    intro t ht l hl hfault
    unfold Line.fault? at hfault
    rw [hl] at hfault
    split at hfault
    · next f heq =>
      cases hfault
      exact ht (Option.some_inj.mp heq)
    · cases hfault
  cases l with
  | op i => nofun
  | place t => nofun
  | jmp t => exact hne ((pass_jmp h).1.2 rfl) rfl
  | jcc c t => exact hne ((pass_jcc h).2.1.2 rfl) rfl
  | call t =>
    cases t with
    | code a => exact hne (t := .code a) (by simp [refusal]) rfl
    | _ => cases h

namespace Piece

variable {ls : List Line}

theorem faults (h : Piece ls) : ls.filterMap Line.fault? = [] := by
  cases h with
  | native index count => cases index <;> cases count <;> rfl
  | halt | jump | invoke | log => rfl

theorem placed? (h : Piece ls) : ∀ l ∈ ls, l.placed? = none := by
  cases h with
  | halt code => simp [haltWith]
  | native index count => exact fun l hl => (plain_callNative index count l hl).2
  | jump => exact fun l hl => (plain_computed _ l hl).2
  | invoke => exact fun l hl => (plain_computed _ l hl).2
  | log first => exact fun l hl => (plain_floatLines first _ l hl).2

end Piece

theorem map_snd_mk (k : Nat) (ls : List Line) : (ls.map (Prod.mk k)).map Prod.snd = ls := by
  rw [List.map_map]
  exact List.map_id _

theorem split_numbered {zs xs pre post : List (Nat × Line)} {k : Nat} {t : Target}
    (hzs : ∀ e ∈ zs, e.2.placed? ≠ some t) (h : zs ++ xs = pre ++ (k, .place t) :: post) :
    ∃ pre', xs = pre' ++ (k, .place t) :: post ∧ pre = zs ++ pre' := by
  rcases List.append_eq_append_iff.mp h with ⟨pre', hpre, hxs⟩ | ⟨rest, hzs', hrest⟩
  · exact ⟨pre', hxs, hpre⟩
  · cases rest with
    | nil => exact ⟨[], hrest.symm, by rw [hzs', List.append_nil, List.append_nil]⟩
    | cons e rest =>
      obtain ⟨rfl, -⟩ := List.cons_eq_cons.mp hrest
      have hmem : (k, .place t) ∈ zs := by
        rw [hzs']
        exact List.mem_append_right _ List.mem_cons_self
      exact absurd rfl (hzs _ hmem)

namespace Erases

variable {e : Bool} {kn kn' : Known} {xs ys : List (Nat × Line)}

/-- Without its checks code leads to the same faults, but for the one of the checks. -/
theorem faults (h : Erases true kn xs ys) : (ys.map Prod.snd).filterMap Line.fault? =
    ((xs.map Prod.snd).filterMap Line.fault?).filter (· ≠ .memoryAccess) := by
  induction h with
  | nil => rfl
  | @line kn kn' k l xs ys hl _ ih =>
    have hne := Known.fault?_of_pass hl
    rw [List.map_cons, List.map_cons]
    cases hf : l.fault? with
    | none => rw [List.filterMap_cons_none hf, List.filterMap_cons_none hf, ih]
    | some f =>
      have hkeep : f ≠ .memoryAccess := by
        rw [hf] at hne
        exact fun heq => hne (congrArg some heq)
      rw [List.filterMap_cons_some hf, List.filterMap_cons_some hf,
        List.filter_cons_of_pos (by simpa using hkeep), ih]
  | piece hls _ ih =>
    rw [List.map_append, List.map_append, List.filterMap_append, List.filterMap_append,
      map_snd_mk, hls.faults, List.nil_append, List.nil_append, ih]
  | fault _ _ ih => exact ih
  | check _ _ ih => exact ih
  | refuse _ _ ih => exact ih
  | stub _ _ ih => exact ih

/-- Lines that read nothing but what is known read nothing else when more is known. -/
theorem mono {kn₁ : Known} (h : Erases e kn xs ys) (hle : kn.Le kn₁) : Erases e kn₁ xs ys := by
  induction h generalizing kn₁ with
  | nil => exact .nil
  | line hl _ ih =>
    obtain ⟨kn₂, hl₁, hle₂⟩ := hle.pass hl
    exact .line hl₁ (ih hle₂)
  | piece hls h _ => exact .piece hls h
  | fault hf h _ => exact .fault hf h
  | check he _ ih => exact .check he (ih hle.forgetFlags)
  | refuse he _ ih => exact .refuse he (ih hle.forgetFlags)
  | stub he h _ => exact .stub he h

/-- What is placed in code is placed in the code without its checks, and there
    the two go on side by side. -/
theorem exists_place (h : Erases e kn xs ys) {t : Target} (ht : e → t ≠ refusal)
    {pre post : List (Nat × Line)} {k : Nat} (hxs : xs = pre ++ (k, .place t) :: post) :
    ∃ pre' k' post', ys = pre' ++ (k', .place t) :: post' ∧ t.owner k' = t.owner k ∧
      ∀ kn, Erases e kn ((k, .place t) :: post) ((k', .place t) :: post') := by
  -- The place is not among the first lines.
  have skip : ∀ (zs zs' : List (Nat × Line)) {xs ys pre : List (Nat × Line)},
      (∀ e ∈ zs, e.2.placed? = none) →
      (∀ {pre : List (Nat × Line)}, xs = pre ++ (k, .place t) :: post →
        ∃ pre' k' post', ys = pre' ++ (k', .place t) :: post' ∧ t.owner k' = t.owner k ∧
          ∀ kn, Erases e kn ((k, .place t) :: post) ((k', .place t) :: post')) →
      zs ++ xs = pre ++ (k, .place t) :: post →
      ∃ pre' k' post', zs' ++ ys = pre' ++ (k', .place t) :: post' ∧ t.owner k' = t.owner k ∧
        ∀ kn, Erases e kn ((k, .place t) :: post) ((k', .place t) :: post') := by
    intro zs zs' xs ys pre hzs ih hsplit
    obtain ⟨pre₁, hpre₁, -⟩ := split_numbered (fun e he => by simp [hzs e he]) hsplit
    obtain ⟨pre', k', post', rfl, howner, hrest⟩ := ih hpre₁
    exact ⟨zs' ++ pre', k', post', by rw [List.append_assoc], howner, hrest⟩
  induction h generalizing pre with
  | nil => simp at hxs
  | @line kn kn' k₀ l xs ys hl h ih =>
    cases pre with
    | nil =>
      obtain ⟨heq, rfl⟩ := List.cons_eq_cons.mp hxs
      obtain ⟨rfl, rfl⟩ := Prod.mk.inj heq
      cases hl
      exact ⟨[], k₀, ys, rfl, rfl, fun kn => .line rfl h⟩
    | cons e pre =>
      obtain ⟨pre', k', post', rfl, howner, hrest⟩ := ih (List.cons_eq_cons.mp hxs).2
      exact ⟨(k₀, l) :: pre', k', post', rfl, howner, hrest⟩
  | @piece kn k₀ ls xs ys hls _ ih =>
    refine skip _ _ ?_ ih hxs
    intro e he
    obtain ⟨l, hl, rfl⟩ := List.mem_map.mp he
    exact hls.placed? l hl
  | @fault kn k₀ k₁ f xs ys hf h ih =>
    cases pre with
    | nil =>
      obtain ⟨heq, rfl⟩ := List.cons_eq_cons.mp hxs
      obtain ⟨rfl, ht⟩ := Prod.mk.inj heq
      cases ht
      exact ⟨[], k₁, _, rfl, rfl, fun kn => .fault hf h⟩
    | cons e pre =>
      exact skip [(k₀, .op (.movRI32 .rax f.code)), (k₀, .jmp (.stub .halt))] _ (by simp) ih
        (List.cons_eq_cons.mp hxs).2
  | check _ _ ih => exact skip [_, _] [] (by simp) ih hxs
  | refuse _ _ ih => exact skip [_] [] (by simp) ih hxs
  | @stub kn k₀ xs ys he _ ih =>
    cases pre with
    | nil =>
      obtain ⟨heq, -⟩ := List.cons_eq_cons.mp hxs
      cases (Prod.mk.inj heq).2
      exact absurd rfl (ht he)
    | cons e pre =>
      exact skip [(k₀, .op (.movRI32 .rax Fault.memoryAccess.code)), (k₀, .jmp (.stub .halt))]
        [] (by simp) ih (List.cons_eq_cons.mp hxs).2

end Erases

/-! ## Section 3: Templates -/

/-- The same facts about an image, without range checks if these are erased. -/
def Context.erased (e : Bool) (ctx : Context) : Context :=
  { ctx with config := { ctx.config with memoryChecks := ctx.config.memoryChecks && !e } }

/-- The lines of a template, and the lines without range checks if these are erased. -/
def Erased (e : Bool) (ls ls' : List Line) : Prop :=
  ∀ k, Erases e .held (ls.map (Prod.mk k)) (ls'.map (Prod.mk k))

theorem Known.pass_compare {e : Bool} {kn : Known} {r : Reg} (hr : r ∈ kn.regs)
    (hfree : Instr.owned.contains r = false) (value : Cell) :
    kn.pass e (.op (.aluRI .cmp .d r value)) = some (kn.after (.aluRI .cmp .d r value)) := by
  have hcovers : kn.covers (.aluRI .cmp .d r value) = true := by
    simp only [Known.covers, Instr.reads, Instr.vectors, Instr.tests, Instr.operand?,
      List.all_cons, List.all_nil, Bool.and_true, Bool.not_false, Bool.true_or]
    exact List.contains_iff_mem.mpr hr
  have hfile : .op (.aluRI .cmp .d r value) ≠ loadFile tmp0 := by simp [loadFile]
  have hlocal : (Instr.aluRI .cmp .d r value).isLocal = true := by
    cases r <;> first | rfl | cases hfree
  simp only [Known.pass, if_neg hfile, hcovers, hlocal, Bool.true_or, Bool.and_self, if_true]

theorem Context.erased_false (ctx : Context) : ctx.erased false = ctx := by
  rw [Context.erased, Bool.not_false, Bool.and_true]

theorem checkRange_erased (ctx : Context) (r : Reg) (len : Nat) :
    checkRange (ctx.erased true) r len = [] := by
  rw [checkRange, Context.erased, Bool.not_true, Bool.and_false]
  rfl

/-- A range check is nothing, a branch, or a comparison and a branch. -/
theorem checkRange_cases (ctx : Context) (r : Reg) (len : Nat) :
    checkRange ctx r len = [] ∨ checkRange ctx r len = [.jmp refusal] ∨
      ∃ bound, checkRange ctx r len = [.op (.aluRI .cmp .d r bound), .jcc .a refusal] := by
  unfold checkRange
  split_ifs
  · exact .inl rfl
  · exact .inr (.inl rfl)
  · exact .inr (.inr ⟨_, rfl⟩)

theorem Erases.checkRange {e : Bool} {kn : Known} (ctx : Context) (k : Nat) {r : Reg} (len : Nat)
    {xs ys : List (Nat × Line)} (hr : r ∈ kn.regs) (hfree : Instr.owned.contains r = false)
    (h : Erases e { kn with flags := false } xs ys) :
    Erases e kn ((checkRange ctx r len).map (Prod.mk k) ++ xs)
      ((checkRange (ctx.erased e) r len).map (Prod.mk k) ++ ys) := by
  cases e with
  | true =>
    rw [checkRange_erased]
    rcases checkRange_cases ctx r len with hcheck | hcheck | ⟨bound, hcheck⟩ <;> rw [hcheck]
    · exact h.mono kn.forgetFlags_le
    · exact .refuse rfl h
    · exact .check rfl h
  | false =>
    rw [ctx.erased_false]
    rcases checkRange_cases ctx r len with hcheck | hcheck | ⟨bound, hcheck⟩ <;> rw [hcheck]
    · exact h.mono kn.forgetFlags_le
    · exact .line rfl h
    · exact .line (Known.pass_compare hr hfree bound) (.line rfl
        (h.mono ⟨fun _ => List.mem_cons_of_mem r, fun _ h => h, nofun⟩))

namespace Erased

variable {e : Bool} {ls ls' : List Line} {ctx : Context}

theorem same {kn : Known} (h : Known.held.through e ls = some kn) : Erased e ls ls := by
  intro k
  have hlines := Erases.through (k := k) h .nil
  rwa [List.append_nil] at hlines

theorem checked (front back : List Line) {kn kn' : Known} {r : Reg} (len : Nat)
    (hfront : Known.held.through e front = some kn) (hr : kn.regs.contains r = true)
    (hfree : Instr.owned.contains r = false)
    (hback : ({ kn with flags := false } : Known).through e back = some kn') :
    Erased e (front ++ Template.checkRange ctx r len ++ back)
      (front ++ Template.checkRange (ctx.erased e) r len ++ back) := by
  intro k
  have hlines := Erases.through (k := k) hback .nil
  have hcheck := Erases.checkRange ctx k len (List.contains_iff_mem.mp hr) hfree hlines
  have hall := Erases.through (k := k) hfront hcheck
  simpa only [List.map_append, List.append_assoc, List.append_nil] using hall

theorem checkedBoth (back : List Line) {kn : Known} (len : Nat)
    (hback : Known.held.through e back = some kn) :
    Erased e (Template.checkRange ctx pri len ++ Template.checkRange ctx alt len ++ back)
      (Template.checkRange (ctx.erased e) pri len ++ Template.checkRange (ctx.erased e) alt len ++
        back) := by
  intro k
  have hlines := Erases.through (k := k) hback .nil
  have halt := Erases.checkRange ctx k len (show alt ∈ Known.held.regs by decide) rfl hlines
  have hpri := Erases.checkRange ctx k len (show pri ∈ Known.held.regs by decide) rfl halt
  simpa only [List.map_append, List.append_assoc, List.append_nil] using hpri

theorem piece (front back : List Line) {piece : List Line} {kn kn' : Known} (hpiece : Piece piece)
    (hfront : Known.held.through e front = some kn) (hback : Known.held.through e back = some kn') :
    Erased e (front ++ piece ++ back) (front ++ piece ++ back) := by
  intro k
  have hlines :=
    Erases.through (k := k) hfront (.piece (k := k) hpiece (.through (k := k) hback .nil))
  simpa only [List.map_append, List.append_assoc, List.append_nil] using hlines

theorem of_ok {xs xs' : List Line} (hls : (.ok xs : Except CompileError (List Line)) = .ok ls)
    (hls' : (.ok xs' : Except CompileError (List Line)) = .ok ls') (h : Erased e xs xs') :
      Erased e ls ls' := by
  cases hls
  cases hls'
  exact h

theorem of_bind {α : Type} {x : Except CompileError α} {f g : α → List Line}
    (hls : (x >>= fun a => pure (f a)) = .ok ls) (hls' : (x >>= fun a => pure (g a)) = .ok ls')
    (h : ∀ a, Erased e (f a) (g a)) : Erased e ls ls' := by
  obtain ⟨a, ha, hls⟩ := bind_eq_ok.mp hls
  obtain ⟨a', ha', hls'⟩ := bind_eq_ok.mp hls'
  obtain rfl := Except.ok.inj (ha.symm.trans ha')
  exact of_ok hls hls' (h a)

theorem of_directCell {i : Instruction} {f g : Mem → List Line}
    (hls : (ctx.directCell i >>= fun o => pure (f o)) = .ok ls)
    (hls' : (ctx.directCell i >>= fun o => pure (g o)) = .ok ls')
    (h : ∀ a, Erased e (f (dataCell a)) (g (dataCell a))) : Erased e ls ls' := by
  unfold Context.directCell at hls hls'
  cases hdirect : ctx.direct i with
  | error e =>
    rw [hdirect] at hls
    cases hls
  | ok a =>
    rw [hdirect] at hls hls'
    exact of_ok hls hls' (h a)

end Erased

theorem Erases.tryCases {e : Bool} {k : Nat} {xs ys : List (Nat × Line)}
    (h : ∀ kn, Erases e kn xs ys) (cases : List (Cell × Cell)) {kn : Known} (hpri : pri ∈ kn.regs) :
    Erases e kn ((tryCases cases).map (Prod.mk k) ++ xs)
      ((tryCases cases).map (Prod.mk k) ++ ys) := by
  induction cases generalizing kn with
  | nil => exact h kn
  | cons record rest ih =>
    refine .line (Known.pass_compare hpri rfl record.1) (.line rfl (ih ?_))
    exact List.mem_append_right _ hpri

theorem erased_native (e : Bool) (ctx : Context) (index : NativeIndex) (count : ArgCount) :
    Erased e (native ctx index count) (native (ctx.erased e) index count) := by
  show Erased e (native ctx index count) (native ctx index count)
  have hend := fun {piece : List Line} (hpiece : Piece piece) =>
    Erased.piece (e := e) [] [] hpiece rfl rfl
  simp only [List.nil_append, List.append_nil] at hend
  unfold native
  cases inlined? ctx index count with
  | none => exact hend (.native index count)
  | some f =>
    cases f with
    | floatlog =>
      cases count with
      | pushed => exact hend (.log _)
      | const bytes => exact .piece [] _ (.log _) rfl rfl
    | _ => cases count <;> exact .same rfl

/-- Every template with range checks is the template without them, with checks put in. -/
theorem erased_template {e : Bool} {ctx : Context} {i : Instruction} {ls ls' : List Line}
    (h : template ctx i = .ok ls) (h' : template (ctx.erased e) i = .ok ls') : Erased e ls ls' := by
  obtain ⟨address, opcode, operands⟩ := i
  cases opcode
  -- Cells that are named directly.
  case loadPri | loadAlt | storPri | storAlt | push | zero | inc | dec =>
    exact .of_directCell h h' fun a => .same rfl
  case lrefPri | lrefAlt | srefPri | srefAlt =>
    exact .of_directCell h h' fun a => .checked _ _ Cell.width rfl rfl rfl rfl
  -- Accesses after a check.
  case lrefSPri | lrefSAlt | srefSPri | srefSAlt =>
    exact .of_ok h h' (.checked _ _ Cell.width rfl rfl rfl rfl)
  case loadI | storI | incI | decI => exact .of_ok h h' (.checked [] _ Cell.width rfl rfl rfl rfl)
  case lidx => exact .of_ok h h' (.checked elementAddress _ Cell.width rfl rfl rfl rfl)
  case lidxB => exact .of_ok h h' (.checked (scaledAddress _) _ Cell.width rfl rfl rfl rfl)
  case lodbI | strbI =>
    refine .of_bind h h' fun w => ?_
    cases w <;> exact .checked [] _ _ rfl rfl rfl rfl
  case movs | cmps => exact .of_bind h h' fun len => .checkedBoth _ len rfl
  case fill => exact .of_bind h h' fun len => .checked [] _ _ rfl rfl rfl rfl
  -- Templates whose lines depend on an operand.
  case alignPri | alignAlt | pushR | stack =>
    refine .of_ok h h' ?_
    simp only [alignAddress, pushRepeated, moveStack]
    split_ifs <;> exact .same rfl
  case casetbl =>
    obtain ⟨default, hdefault, h⟩ := bind_eq_ok.mp h
    obtain ⟨cases, hcases, h⟩ := bind_eq_ok.mp h
    obtain ⟨default', hdefault', h'⟩ := bind_eq_ok.mp h'
    obtain ⟨cases', hcases', h'⟩ := bind_eq_ok.mp h'
    obtain rfl := Except.ok.inj (hdefault.symm.trans hdefault')
    obtain rfl := Except.ok.inj (hcases.symm.trans hcases')
    refine .of_ok h h' fun k => .line rfl ?_
    let last := [Line.jmp (.code default)]
    show Erases e _ ((tryCases cases ++ last).map (Prod.mk k))
        ((tryCases cases ++ last).map (Prod.mk k))
    rw [List.map_append]
    exact .tryCases (fun kn => .line rfl .nil) cases (by decide)
  case lctrl =>
    change readControl ctx _ = _ at h
    change readControl ctx _ = _ at h'
    obtain rfl := Except.ok.inj (h.symm.trans h')
    unfold readControl at h
    split at h
    case h_8 => cases h
    all_goals exact .of_ok h h (.same rfl)
  case sctrl =>
    change writeControl _ = _ at h
    change writeControl _ = _ at h'
    obtain rfl := Except.ok.inj (h.symm.trans h')
    unfold writeControl at h
    split at h
    · exact .of_ok h h (.same rfl)
    · exact .of_ok h h (.same rfl)
    · exact .of_ok h h (.same rfl)
    · exact .of_ok h h (.piece [] [] .jump rfl rfl)
    · cases h
  -- Natives and computed branches.
  case sysreqPri | sysreqC | sysreqN =>
    rw [template_native h rfl, template_native h' rfl]
    exact erased_native _ _ _ _
  case jumpPri => exact .of_ok h h' (.piece [] [] .jump rfl rfl)
  case callPri => exact .of_ok h h' (.piece (pushImm _) [] .invoke rfl rfl)
  case halt => exact .of_ok h h' (.piece [] [] (.halt _) rfl rfl)
  -- Everything else is made of single lines.
  all_goals first
    | exact .of_ok h h' (.same rfl)
    | exact .of_bind h h' fun a => .same rfl
    | cases h

/-! ## Section 4: Programs -/

theorem filter_eraseDups (p : Fault → Bool) (fs : List Fault) :
    (fs.filter p).eraseDups = fs.eraseDups.filter p := by
  induction hn : fs.length using Nat.strongRecOn generalizing fs with
  | ind n ih =>
    cases fs with
    | nil => rfl
    | cons f fs =>
      have hrest := ih _
        (by rw [← hn]; exact Nat.lt_succ_of_le (List.length_filter_le (fun b => !b == f) fs)) _ rfl
      rw [List.eraseDups_cons]
      by_cases hf : p f
      · rw [List.filter_cons_of_pos hf, List.filter_cons_of_pos hf, List.eraseDups_cons, ← hrest,
          List.filter_comm]
      · -- An element that is dropped anyway need not be looked for.
        have hdrop : (fs.filter fun b => !b == f).filter p = fs.filter p := by
          rw [List.filter_filter]
          refine List.filter_congr fun b _ => ?_
          by_cases hb : b = f
          · rw [hb]
            simp [hf]
          · simp [hb]
        rw [List.filter_cons_of_neg hf, List.filter_cons_of_neg hf, ← hrest, hdrop]

section
variable {e : Bool} {ctx : Context} {is : List Instruction}

theorem erases_body {i : Instruction} (h : i.Passes ctx) (kn : Known) (k : Nat) :
    Erases e kn ((i.body ctx).map (Prod.mk k)) ((i.body (ctx.erased e)).map (Prod.mk k)) := by
  have hpasses : i.Passes ctx := h
  have hpasses' : i.Passes (ctx.erased e) := h
  obtain ⟨ls, hls, hbody, -⟩ := hpasses.template
  obtain ⟨ls', hls', hbody', -⟩ := hpasses'.template
  rw [hbody, hbody']
  exact .line rfl (erased_template hls hls' k)

theorem erases_listing (his : ∀ i ∈ is, i.Passes ctx) (kn : Known) (k : Nat) :
    Erases e kn (numbered k (is.map (Instruction.part ctx)))
      (numbered k (is.map (Instruction.part (ctx.erased e)))) := by
  induction is generalizing kn k with
  | nil => exact .nil
  | cons i is ih =>
    have hrest := fun kn => ih (fun j hj => his j (List.mem_cons_of_mem i hj)) kn (k + 1)
    exact (erases_body (his i List.mem_cons_self) kn (k + 1)).append hrest

/-- Whether a program still has the stub of a fault. -/
def keepsStub (e : Bool) (f : Fault) : Bool := f ≠ .memoryAccess || !e

theorem erases_faults (fs : List Fault) (kn : Known) (k k' : Nat) :
    Erases e kn (numbered k (fs.map Fault.part))
      (numbered k' ((fs.filter (keepsStub e)).map Fault.part)) := by
  induction fs generalizing kn k k' with
  | nil => exact .nil
  | cons f fs ih =>
    by_cases hf : e = true ∧ f = .memoryAccess
    · obtain ⟨rfl, rfl⟩ := hf
      exact .stub rfl (ih _ _ _)
    · have hkeep : keepsStub e f = true := by
        rw [keepsStub, Bool.or_eq_true, decide_eq_true_iff, Bool.not_eq_true', ← Bool.not_eq_true]
        exact (not_and_or.mp hf).symm
      rw [List.filter_cons_of_pos hkeep]
      exact .fault (fun he hmem => hf ⟨he, hmem⟩) (ih _ _ _)

/-- The stubs of the program without range checks are those of the program with them, but for
    one. -/
theorem faults_erased (his : ∀ i ∈ is, i.Passes ctx) : (Plan.ofListing (ctx.erased e) is).faults =
    (Plan.ofListing ctx is).faults.filter (keepsStub e) := by
  cases e with
  | false =>
    rw [ctx.erased_false]
    exact (List.filter_eq_self.mpr fun f _ => Bool.or_true _).symm
  | true =>
    have hlines := (erases_listing (e := true) his .held 0).faults
    rw [map_snd_numbered, map_snd_numbered, List.flatMap_map, List.flatMap_map] at hlines
    have his' : ∀ i ∈ is, i.Passes (ctx.erased true) := his
    rw [Plan.faults_ofListing his', Plan.faults_ofListing his, faultsOf, faultsOf,
      ← filter_eraseDups]
    refine congrArg List.eraseDups (hlines.trans (List.filter_congr fun f _ => ?_))
    exact (Bool.or_false _).symm

/-- The lines of a program after those that every program starts with. -/
def bodyLines (ctx : Context) (is : List Instruction) : List (Nat × Line) :=
  numbered 1 (is.map (Instruction.part ctx) ++ (Plan.ofListing ctx is).faults.map Fault.part)

/-- **Erasure.** The program without range checks is the program with them, without the checks. -/
theorem erases_program (his : ∀ i ∈ is, i.Passes ctx) (kn : Known) :
    Erases e kn (bodyLines ctx is) (bodyLines (ctx.erased e) is) := by
  unfold bodyLines
  rw [numbered_append, numbered_append, faults_erased his]
  exact (erases_listing his kn 1).append fun kn => erases_faults _ kn _ _

theorem numbered_programParts (ctx : Context) (is : List Instruction) :
    numbered 0 (programParts ctx is) = prologue.map (Prod.mk 1) ++ bodyLines ctx is := rfl

/-- From an offset of a program on, its lines are these; each has the number of its template. -/
def NumberedFrom (ctx : Context) (is : List Instruction) (o : Nat) (xs : List (Nat × Line)) :
    Prop :=
  ∃ pre, numbered 0 (programParts ctx is) = pre ++ xs ∧ o = linesSize (pre.map Prod.snd)

/-- Two positions, from where on programs with and without range checks go side by side. -/
def Beside (e : Bool) (ctx : Context) (is : List Instruction) (kn : Known) (o o' : Nat) : Prop :=
  ∃ xs ys, NumberedFrom ctx is o xs ∧ NumberedFrom (ctx.erased e) is o' ys ∧ Erases e kn xs ys

end

namespace NumberedFrom

variable {ctx : Context} {is : List Instruction} {o k : Nat} {l : Line} {ls : List Line}
  {xs : List (Nat × Line)}

theorem tail (h : NumberedFrom ctx is o ((k, l) :: xs)) : NumberedFrom ctx is (o + l.size) xs := by
  obtain ⟨pre, hpre, rfl⟩ := h
  refine ⟨pre ++ [(k, l)], by rw [hpre, List.append_assoc]; rfl, ?_⟩
  rw [List.map_append, linesSize_append]
  rfl

theorem drop (h : NumberedFrom ctx is o (ls.map (Prod.mk k) ++ xs)) :
    NumberedFrom ctx is (o + linesSize ls) xs := by
  obtain ⟨pre, hpre, rfl⟩ := h
  refine ⟨pre ++ ls.map (Prod.mk k), by rw [hpre, List.append_assoc], ?_⟩
  rw [List.map_append, linesSize_append, map_snd_mk]

theorem lines (h : NumberedFrom ctx is o xs) : LinesFrom ctx is o (xs.map Prod.snd) := by
  obtain ⟨pre, hpre, rfl⟩ := h
  exact ⟨pre, xs, hpre, rfl, rfl⟩

theorem lines_append (h : NumberedFrom ctx is o (ls.map (Prod.mk k) ++ xs)) :
    LinesFrom ctx is o (ls ++ xs.map Prod.snd) := by
  have hlines := h.lines
  rwa [List.map_append, map_snd_mk] at hlines

theorem stands {p : Program} (hp : p.Finishes ctx is) (h : NumberedFrom ctx is o ((k, l) :: xs)) :
    l.Stands p.code (fun t => (Plan.ofProgram ctx is).placed (t.owner k)) o := by
  obtain ⟨pre, hpre, rfl⟩ := h
  exact hp.stands_numbered hpre

end NumberedFrom

theorem Target.eq_of_owner {t t' : Target} {k k' : Nat} (h : t.owner k = t'.owner k') : t = t' := by
  cases t <;> cases t' <;> cases h <;> rfl

theorem Program.Finishes.numberedFrom_of_placed {p : Program} {ctx : Context}
    {is : List Instruction}
    (h : p.Finishes ctx is) {t : Target} {k o : Nat}
    (ht : (Plan.ofProgram ctx is).placed (t.owner k) = some o) :
    ∃ k' xs, NumberedFrom ctx is o ((k', .place t) :: xs) ∧ t.owner k' = t.owner k := by
  obtain ⟨before, part, after, first, t', last, hparts, hlines, howner, rfl⟩ :=
    h.exists_of_placed ht
  obtain rfl := Target.eq_of_owner howner
  refine ⟨before.length + 1, last.map (Prod.mk (before.length + 1)) ++ numbered
      (before.length + 1) after,
    ⟨numbered 0 before ++ first.map (Prod.mk (before.length + 1)), ?_, ?_⟩, howner⟩
  · rw [hparts, numbered_append, numbered, hlines, List.map_append, Nat.zero_add]
    simp only [List.append_assoc, List.map_cons, List.cons_append]
  · rw [Plan.length_templates, List.map_append, linesSize_append, map_snd_numbered, map_snd_mk]
    exact congrArg (· + linesSize first) (Nat.zero_add _)

/-- **Branches.** A branch leads to positions side by side, whichever template it is in. -/
theorem Beside.of_placed {e : Bool} {p p' : Program} {ctx : Context} {is : List Instruction}
    (h : p.Finishes ctx is) (h' : p'.Finishes (ctx.erased e) is) {t : Target} {k o : Nat}
    (hopen : t.isOpen) (hne : e → t ≠ refusal)
    (ht : (Plan.ofProgram ctx is).placed (t.owner k) = some o) :
    ∃ o', (Plan.ofProgram (ctx.erased e) is).placed (t.owner k) = some o' ∧
      ∀ kn, Beside e ctx is kn o o' := by
  obtain ⟨k', xs, ⟨pre, hpre, rfl⟩, howner⟩ := h.numberedFrom_of_placed ht
  rw [numbered_programParts] at hpre
  have hprologue : ∀ e ∈ prologue.map (Prod.mk 1), e.2.placed? ≠ some t := by
    intro e he hplaced
    obtain ⟨l, hl, rfl⟩ := List.mem_map.mp he
    have hstubs : ∀ t ∈ prologue.filterMap Line.placed?, t.isOpen = false := by decide
    have hclosed := hstubs t (List.mem_filterMap.mpr ⟨l, hl, hplaced⟩)
    exact Bool.false_ne_true (hclosed.symm.trans hopen)
  obtain ⟨pre', hbody, rfl⟩ := split_numbered hprologue hpre
  have hpasses : ∀ i ∈ is, i.Passes ctx := h.passes
  obtain ⟨pre₀, k₀, ys, hbody', howner', herases⟩ :=
    (erases_program hpasses .held).exists_place hne hbody
  have hfrom : NumberedFrom (ctx.erased e) is
      (linesSize ((prologue.map (Prod.mk 1) ++ pre₀).map Prod.snd)) ((k₀, .place t) :: ys) :=
    ⟨_, by rw [numbered_programParts, hbody', List.append_assoc], rfl⟩
  refine ⟨_, ?_, fun kn => ⟨_, _, ⟨_, hpre, rfl⟩, hfrom, herases kn⟩⟩
  rw [← howner, ← howner']
  exact hfrom.stands h'

end PawnNative
