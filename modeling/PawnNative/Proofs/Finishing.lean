import Mathlib.Tactic.Common
import PawnNative.Proofs.Extent

/-! # Finishing always succeeds

    When a translation has checked the branches of the bytecode, nothing is left
    that could fail: every label that the code refers to is bound, and every
    distance is small enough for a branch. The labels come in families that are
    bound in different places. Those of the bytecode are what the translation has
    checked; those of the start of the program are bound there; the stub of a fault
    is appended because the fault was mentioned; and a place inside a template is
    bound by the template that leads to it.
-/

namespace PawnNative

open X64 Convention Template

/-! ## Section 1: What templates are made of -/

/-- What the lines of a template contain. -/
structure Traits where
  /-- Bytes of machine code. -/
  code : Bool
  /-- A branch to the stub of a fault. -/
  fault : Bool
  /-- A branch to a place inside the template. -/
  mark : Bool
  deriving DecidableEq, Repr

namespace Traits

def none : Traits := ⟨false, false, false⟩

/-- What one or the other contains. -/
def or (s t : Traits) : Traits := ⟨s.code || t.code, s.fault || t.fault, s.mark || t.mark⟩

theorem or_assoc (s t u : Traits) : (s.or t).or u = s.or (t.or u) := by
  simp only [or, Bool.or_assoc]

end Traits

def Line.traits : Line → Traits
  | .op _ => ⟨true, false, false⟩
  | .jmp t | .jcc _ t | .call t =>
    match t with
    | .stub (.fault _) => ⟨true, true, false⟩
    | .mark _ => ⟨true, false, true⟩
    | .stub .leave | .stub .halt | .stub .pending | .code _ | .cases _ => ⟨true, false, false⟩
  | .place _ => .none

def linesTraits : List Line → Traits
  | [] => .none
  | l :: ls => l.traits.or (linesTraits ls)

theorem linesTraits_append (ls ls' : List Line) :
    linesTraits (ls ++ ls') = (linesTraits ls).or (linesTraits ls') := by
  induction ls with
  | nil => simp [linesTraits, Traits.or, Traits.none]
  | cons l ls ih => rw [List.cons_append, linesTraits, ih, linesTraits, Traits.or_assoc]

theorem Line.traits_code (l : Line) : l.traits.code = true ↔ 0 < l.size := by
  cases l with
  | op i => exact iff_of_true rfl (List.length_pos_iff.mpr (encode_ne_nil i))
  | jmp t | jcc c t | call t =>
    refine iff_of_true ?_ (Nat.le_of_ble_eq_true rfl)
    rcases t with _ | _ | ⟨_ | _ | _ | _⟩ | _ <;> rfl
  | place t => exact iff_of_false Bool.false_ne_true (Nat.lt_irrefl 0)

theorem linesTraits_code (ls : List Line) : (linesTraits ls).code = true ↔ 0 < linesSize ls := by
  induction ls with
  | nil => exact iff_of_false Bool.false_ne_true (Nat.lt_irrefl 0)
  | cons l ls ih =>
    rw [linesTraits, Traits.or, Bool.or_eq_true, l.traits_code, ih, linesSize]
    omega

theorem linesTraits_mark {ls : List Line} {l : Line} {n : Nat} (hl : l ∈ ls)
    (ht : l.target? = some (.mark n)) : (linesTraits ls).mark = true := by
  induction ls with
  | nil => cases hl
  | cons l' ls ih =>
    rw [linesTraits, Traits.or, Bool.or_eq_true]
    rcases List.mem_cons.mp hl with rfl | hl
    · refine .inl ?_
      cases l with
      | op i | place t => cases ht
      | jmp t | jcc c t | call t =>
        cases ht
        rfl
    · exact .inr (ih hl)

/-- What the code of an instruction contains. Debug information has no code, and neither have the
    turning of an address that needs no turning and a push that pushes nothing. -/
def Instruction.traits (memoryChecks : Bool) (i : Instruction) : Traits :=
  match i.opcode with
  | .file | .line | .symbol | .srange | .symtag | .nop | .brk => .none
  | .alignPri | .alignAlt => ⟨0 ≤ i.arg.toInt ∧ i.arg.toInt < Cell.width, false, false⟩
  | .pushR => ⟨0 < i.arg.toInt, false, 0 < i.arg.toInt⟩
  | .sdiv | .sdivAlt => ⟨true, true, true⟩
  | .udiv | .udivAlt | .heap | .proc | .bounds => ⟨true, true, false⟩
  | .stack => ⟨true, i.arg ≠ 0, false⟩
  | .lrefPri | .lrefAlt | .lrefSPri | .lrefSAlt | .loadI | .lodbI | .srefPri | .srefAlt
  | .srefSPri | .srefSAlt | .storI | .strbI | .lidx | .lidxB | .incI | .decI | .movs | .cmps
  | .fill => ⟨true, memoryChecks, false⟩
  | _ => ⟨true, false, false⟩

section
variable {ctx : Context} {ls ls' : List Line} {t : Traits}

theorem linesTraits_checkRange (ctx : Context) (r : Reg) (len : Nat) :
    linesTraits (checkRange ctx r len) =
      ⟨ctx.config.memoryChecks, ctx.config.memoryChecks, false⟩ := by
  unfold checkRange
  cases ctx.config.memoryChecks with
  | false => rfl
  | true =>
    rw [if_neg (by decide)]
    split_ifs <;> rfl

theorem linesTraits_native (ctx : Context) (index : NativeIndex) (count : ArgCount) :
    linesTraits (native ctx index count) = ⟨true, false, false⟩ := by
  unfold native
  cases inlined? ctx index count with
  | none => cases index <;> cases count <;> rfl
  | some f => cases count <;> cases f <;> rfl

theorem linesTraits_tryCases (cases : List (Cell × Cell)) :
    (linesTraits (tryCases cases)).or ⟨true, false, false⟩ = ⟨true, false, false⟩ := by
  induction cases with
  | nil => rfl
  | cons record cases ih =>
    obtain ⟨value, target⟩ := record
    rw [tryCases, linesTraits, linesTraits, Traits.or_assoc, Traits.or_assoc, ih]
    rfl

theorem linesTraits_template {i : Instruction} (h : template ctx i = .ok ls) :
    linesTraits ls = i.traits ctx.config.memoryChecks := by
  obtain ⟨address, opcode, operands⟩ := i
  have hcheck := linesTraits_checkRange ctx
  -- Range checks branch to a fault, so what a template contains depends on the option for them.
  cases opcode
  case casetbl =>
    rw [eq_dispatchCases h, dispatchCases, linesTraits_append, linesTraits_append, Traits.or_assoc]
    exact congrArg _ (linesTraits_tryCases _)
  case lrefPri | lrefAlt | srefPri | srefAlt | lodbI | strbI | movs | cmps | fill =>
    obtain ⟨o, rfl⟩ := exists_of_bind h
    simp only [loadThrough, storeThrough, loadPart, storePart, moveBlock, compareBlock, fillBlock,
      checkCell, linesTraits_append, hcheck]
    cases hchecks : ctx.config.memoryChecks <;> rfl
  case lrefSPri | lrefSAlt | loadI | srefSPri | srefSAlt | storI | lidx | lidxB | incI | decI =>
    refine holds_of_ok h ?_
    simp only [loadThrough, storeThrough, loadIndirect, storeIndirect, elementAddress,
      scaledAddress, incIndirect, decIndirect, checkCell, linesTraits_append, hcheck]
    cases hchecks : ctx.config.memoryChecks <;> rfl
  -- Here the operand decides which lines there are.
  case alignPri | alignAlt =>
    refine holds_of_ok h ?_
    simp only [alignAddress, Instruction.traits]
    split_ifs with hturn
    · rw [decide_eq_true hturn]
      rfl
    · rw [decide_eq_false hturn]
      rfl
  case pushR =>
    refine holds_of_ok h ?_
    simp only [pushRepeated, Instruction.traits, ← Int.not_le]
    split_ifs with hcount <;> simp only [hcount] <;> rfl
  case stack =>
    refine holds_of_ok h ?_
    simp only [moveStack, Instruction.traits]
    split_ifs with hzero
    · rw [decide_eq_false (not_not.mpr hzero)]
      rfl
    all_goals
      rw [decide_eq_true hzero]
      rfl
  case lctrl =>
    change readControl ctx _ = _ at h
    unfold readControl at h
    split at h
    case h_8 => cases h
    all_goals exact holds_of_ok h rfl
  case sctrl =>
    change writeControl _ = _ at h
    unfold writeControl at h
    split at h
    case h_5 => cases h
    all_goals exact holds_of_ok h rfl
  case sysreqPri | sysreqC | sysreqN =>
    rw [template_native h rfl]
    exact linesTraits_native ..
  all_goals first
    | exact holds_of_ok h rfl
    | obtain ⟨a, rfl⟩ := exists_of_bind h
      rfl
    | cases h

theorem mem_places_of_mark {i : Instruction} (h : template ctx i = .ok ls) {l : Line}
    {n : Nat} (hl : l ∈ ls) (ht : l.target? = some (.mark n)) : .mark n ∈ i.places := by
  have hmark := linesTraits_mark hl ht
  rw [linesTraits_template h] at hmark
  obtain ⟨address, opcode, operands⟩ := i
  have htarget : .mark n ∈ ls.filterMap Line.target? := List.mem_filterMap.mpr ⟨l, hl, ht⟩
  cases opcode
  case pushR =>
    cases h
    have hcount := of_decide_eq_true hmark
    simp only [pushRepeated, Instruction.places, if_neg (Int.not_le.mpr hcount)] at htarget ⊢
    simpa [pushReg, Line.target?, eq_comm] using htarget
  case sdiv | sdivAlt =>
    cases h
    obtain rfl | rfl | rfl : n = 0 ∨ n = 2 ∨ n = 1 := by
      simpa [divideSigned, exchange, checkDivisor, Line.target?, eq_comm] using htarget
    all_goals simp [Instruction.places]
  all_goals cases hmark

end

/-! ## Section 2: Everything that is mentioned is placed -/

namespace Plan

variable {p : Plan} {w : Owner} {ctx : Context} {is : List Instruction} {i : Instruction}

theorem mem_names_line_iff (p : Plan) (referrer : Cell) (l : Line) :
    w ∈ (p.line referrer l).names ↔ w ∈ p.names ∨ ∃ t, l.mentioned? = some t ∧
    t.owner p.part = w := by
  cases l with
  | op i => exact (or_iff_left nofun).symm
  | jmp t | jcc c t | call t | place t =>
    refine (mem_names_mention_iff (w := t.owner p.part)).trans (or_congr_right ?_)
    constructor
    · rintro rfl
      exact ⟨t, rfl, rfl⟩
    · rintro ⟨t', ht, rfl⟩
      cases ht
      rfl

theorem mem_names_foldl_line_iff (ls : List Line) (p : Plan) (referrer : Cell) :
    w ∈ (ls.foldl (fun p l => p.line referrer l) p).names ↔
      w ∈ p.names ∨ ∃ l ∈ ls, ∃ t, l.mentioned? = some t ∧ t.owner p.part = w := by
  induction ls generalizing p with
  | nil => simp
  | cons l ls ih =>
    rw [List.foldl_cons, ih, mem_names_line_iff, part_line, List.exists_mem_cons_iff, or_assoc]

theorem isSome_placed_line (p : Plan) (referrer : Cell) (l : Line) :
    ((p.line referrer l).placed w).isSome ↔
      (p.placed w).isSome ∨ l.placed?.map (Target.owner p.part) = some w := by
  rw [placed_line]
  split_ifs with hl
  · exact iff_of_true rfl (.inr hl)
  · exact (or_iff_left hl).symm

/-- **Run.** What lines place stays placed. -/
theorem isSome_placed_foldl_line (ls : List Line) (p : Plan) (referrer : Cell) :
    ((ls.foldl (fun p l => p.line referrer l) p).placed w).isSome ↔
      (p.placed w).isSome ∨ w ∈ owners p.part ls := by
  induction ls generalizing p with
  | nil => simp [owners]
  | cons l ls ih =>
    rw [List.foldl_cons, ih, isSome_placed_line, part_line, owners_cons, List.mem_append, or_assoc,
      Option.mem_toList]

theorem isSome_placed_templates (ts : List (Cell × List Line)) (p : Plan) :
    ((p.templates ts).placed w).isSome ↔ (p.placed w).isSome ∨ w ∈ allOwners p.part ts := by
  induction ts generalizing p with
  | nil => simp [templates, allOwners]
  | cons t ts ih =>
    refine (ih (p.lines t.1 t.2)).trans ?_
    rw [part_lines, allOwners, List.mem_append, ← or_assoc]
    exact or_congr_left (isSome_placed_foldl_line t.2 p.begin t.1)

/-- **Run.** Everything that lines place lies in the code. -/
theorem placed_le_foldl_line (ls : List Line) (p : Plan) (referrer : Cell)
    (hp : ∀ w o, p.placed w = some o → o ≤ p.code.length) {o : Nat}
    (ho : (ls.foldl (fun p l => p.line referrer l) p).placed w = some o) :
    o ≤ (ls.foldl (fun p l => p.line referrer l) p).code.length := by
  induction ls generalizing p with
  | nil => exact hp w o ho
  | cons l ls ih =>
    refine ih (p.line referrer l) (fun w' o' ho' => ?_) ho
    rw [length_line]
    rw [placed_line] at ho'
    split_ifs at ho'
    · cases ho'
      exact Nat.le_add_right ..
    · exact Nat.le_trans (hp w' o' ho') (Nat.le_add_right ..)

theorem placed_le_templates (ts : List (Cell × List Line)) (p : Plan)
    (hp : ∀ w o, p.placed w = some o → o ≤ p.code.length) {o : Nat}
    (ho : (p.templates ts).placed w = some o) : o ≤ (p.templates ts).code.length := by
  induction ts generalizing p with
  | nil => exact hp w o ho
  | cons t ts ih =>
    exact ih (p.lines t.1 t.2) (fun _ _ => placed_le_foldl_line t.2 p.begin t.1 hp) ho

/-- The places inside templates that were mentioned are placed. -/
def Closed (p : Plan) : Prop := ∀ part n, .mark part n ∈ p.names → (p.placed (.mark part n)).isSome

/-- **Step.** A template that places what it leads to keeps a plan closed. -/
theorem Closed.lines (h : p.Closed) (referrer : Cell) {ls : List Line}
    (hls : ∀ l ∈ ls, ∀ n, l.target? = some (.mark n) → .place (.mark n) ∈ ls) :
      (p.lines referrer ls).Closed := by
  intro part n hn
  refine (isSome_placed_foldl_line ls p.begin referrer).mpr ?_
  rcases (mem_names_foldl_line_iff ls p.begin referrer).mp hn with hn | ⟨l, hl, t, ht, howner⟩
  · exact .inl (h part n hn)
  · obtain rfl : t = .mark n := by
      cases t <;> cases howner
      rfl
    have hplace : .place (.mark n) ∈ ls := by
      cases l with
      | op i => cases ht
      | place t =>
        cases ht
        exact hl
      | jmp t | jcc c t | call t =>
        cases ht
        exact hls _ hl n rfl
    exact .inr (List.mem_map.mpr ⟨_, List.mem_filterMap.mpr ⟨_, hplace, rfl⟩, howner⟩)

/-- **Run.** Templates that place what they lead to keep a plan closed. -/
theorem Closed.templates (h : p.Closed) (ts : List (Cell × List Line))
    (hts : ∀ t ∈ ts, ∀ l ∈ t.2, ∀ n, l.target? = some (.mark n) → .place (.mark n) ∈ t.2) :
    (p.templates ts).Closed := by
  induction ts generalizing p with
  | nil => exact h
  | cons t ts ih =>
    exact ih (h.lines t.1 (hts t List.mem_cons_self)) fun t' ht' =>
      hts t' (List.mem_cons_of_mem _ ht')

theorem closed_ofProgram (his : ∀ i ∈ is, i.Passes ctx) : (ofProgram ctx is).Closed := by
  refine Closed.templates (p := {}) nofun _ fun t ht l hl n hn => ?_
  rw [programParts, listingParts, List.cons_append, List.mem_cons, List.mem_append, List.mem_map,
    List.mem_map] at ht
  rcases ht with rfl | ⟨i, hi, rfl⟩ | ⟨f, -, rfl⟩
  · cases (show (linesTraits prologue).mark = true from linesTraits_mark hl hn)
  · obtain ⟨ls, hls, hbody, hnamed⟩ := (his i hi).template
    have hbody : (i.part ctx).2 = .place (.code i.address) :: ls := hbody
    rw [hbody, List.mem_cons] at hl ⊢
    have hl : l ∈ ls := hl.resolve_left (by rintro rfl; cases hn)
    have hplaced := mem_places_of_mark hls hl hn
    rw [← hnamed.placed, List.mem_filterMap] at hplaced
    obtain ⟨l', hl', hplace⟩ := hplaced
    cases l' <;> cases hplace
    exact .inr hl'
  · cases (show (linesTraits (faultLines f)).mark = true from linesTraits_mark hl hn)

/-- **Run.** The stubs of faults mention nothing but themselves and the end of all halts. -/
theorem mem_names_faults (fs : List Fault) (p : Plan)
    (hw : w ∈ (p.templates (fs.map Fault.part)).names) :
    w ∈ p.names ∨ w = .stub .halt ∨ ∃ f ∈ fs, w = .stub (.fault f) := by
  induction fs generalizing p with
  | nil => exact .inl hw
  | cons f fs ih =>
    rcases ih (p.lines 0 (faultLines f)) hw with hw | hw | ⟨f', hf', hw⟩
    · rcases (mem_names_foldl_line_iff (faultLines f) p.begin 0).mp hw with hw | ⟨l, hl, t, ht, rfl⟩
      · exact .inl hw
      · simp only [faultLines, List.mem_cons, List.not_mem_nil, or_false] at hl
        rcases hl with rfl | rfl | rfl <;> cases ht
        · exact .inr (.inr ⟨f, List.mem_cons_self, rfl⟩)
        · exact .inr (.inl rfl)
    · exact .inr (.inl hw)
    · exact .inr (.inr ⟨f', List.mem_cons_of_mem f hf', hw⟩)

theorem ofProgram_eq (ctx : Context) (is : List Instruction) :
    ofProgram ctx is = (ofListing ctx is).templates ((ofListing ctx is).faults.map Fault.part) := by
  rw [ofProgram, programParts, ofListing_eq, templates, List.foldl_append]
  rfl

/-- Everything that a program mentions is placed in it, when no branch of the bytecode leads
    astray. -/
theorem isSome_placed_ofProgram (his : ∀ i ∈ is, i.Passes ctx) (hmissing : ∀ k, ¬Missing is k)
    (hw : w ∈ (ofProgram ctx is).names) : ((ofProgram ctx is).placed w).isSome := by
  have hcovers := covers_ofListing his
  have hnames := hw
  rw [ofProgram_eq] at hnames
  have hnames := mem_names_faults _ _ hnames
  have hprologue : ∀ s ∈ [Stub.leave, .pending, .halt],
      ((ofProgram ctx is).placed (.stub s)).isSome := by
    intro s hs
    refine (isSome_placed_templates (programParts ctx is) {}).mpr (.inr (List.mem_append_left _ ?_))
    show .stub s ∈ owners 1 prologue
    rw [owners_prologue]
    simpa using hs
  -- An address of the bytecode, one of the four kinds of stub, or a mark inside a template.
  rcases w with k | (_ | _ | _ | f) | ⟨part, n⟩
  · have hknown := hnames.resolve_right (by rintro (h | ⟨f, -, h⟩) <;> cases h)
    have hbinds : ∃ i ∈ is, k ∈ i.binds := by
      by_contra hnone
      obtain ⟨i, hi, hleads | hbinds⟩ := (hcovers.names k).mp hknown
      · exact hmissing k ⟨⟨i, hi, hleads⟩, fun j hj hk => hnone ⟨j, hj, hk⟩⟩
      · exact hnone ⟨i, hi, hbinds⟩
    rw [placed_key_ofProgram]
    exact (hcovers.placed k).mpr hbinds
  · exact hprologue _ (by decide)
  · exact hprologue _ (by decide)
  · exact hprologue _ (by decide)
  · have hf : f ∈ (ofListing ctx is).faults := by
      rcases hnames with h | h | ⟨f', hf', h⟩
      · exact mem_faults_iff.mpr h
      · cases h
      · cases h
        exact hf'
    rw [ofProgram_eq]
    refine (isSome_placed_templates _ _).mpr (.inr ?_)
    rw [allOwners_faults]
    exact List.mem_map_of_mem hf
  · exact closed_ofProgram his part n hw

end Plan

/-! ## Section 3: Distances -/

namespace CodeBuffer

/-- Every label that the buffer refers to is bound, and the distance to it fits in four bytes. -/
def Resolved (b : CodeBuffer) : Prop :=
  ∀ r ∈ b.refs.toList, ∃ target d, b.labelOffset? r.label = some target ∧ b.distance r = .ok d ∧
    (r.offset + 4 : Int) + d.toInt = target

variable {b : CodeBuffer}

theorem Resolved.exists_finish (h : b.Resolved) : ∃ code, b.finish = .ok code := by
  refine exists_foldlM_patch (fun r hr => ?_) b.code
  obtain ⟨-, d, -, hd, -⟩ := h r hr
  exact ⟨d, hd⟩

end CodeBuffer

theorem CodeMemory.exists_ofCode {code : Block} (h : 0 < code.size) : ∃ m, ofCode code = .ok m := by
  have hmap : map code.size = .ok ⟨(code.size + 4096 - 1) / 4096 * 4096, #[], false⟩ :=
    if_neg (Nat.pos_iff_ne_zero.mp h)
  have hfits : ¬(code.size + 4096 - 1) / 4096 * 4096 < 0 + code.toList.length := by
    rw [Array.length_toList]
    omega
  rw [ofCode, hmap, ok_bind, write, if_neg Bool.false_ne_true, if_neg hfits]
  exact ⟨_, rfl⟩

/-! ## Section 4: Finishing translations -/

theorem Plan.ordered_empty : ({} : Plan).Ordered :=
  ⟨fun _ he => absurd he List.not_mem_nil, List.Pairwise.nil⟩

section
variable {ctx : Context} {is : List Instruction} {code : Block} {b : CodeBuffer}

/-- The references of a buffer that follows the plan of a program are resolved. -/
theorem CodeBuffer.Follows.resolved (h : b.Follows (Plan.ofProgram ctx is))
    (hlisting : Decodes code 0 is none)
    (hsize : code.size ≤ 0x2000000) (his : ∀ i ∈ is, i.Passes ctx) (hmissing : ∀ k, ¬Missing is k) :
    b.Resolved := by
  have hordered : (Plan.ofProgram ctx is).Ordered := Plan.ordered_empty.templates _
  have hsound : (Plan.ofProgram ctx is).Sound :=
    (Assembly.follows_empty.templates (programParts ctx is)).sound
  have hcode : b.code.size = (Plan.ofProgram ctx is).code.length := by
    rw [← Array.length_toList, h.code]
  have hlength : (Plan.ofProgram ctx is).code.length < 0x80000000 := by
    have hbytes := hlisting.linesSize_program (by omega) his
    rw [Plan.ofProgram, Plan.length_templates, List.length_nil]
    omega
  intro r hr
  rw [h.refs, List.mem_map] at hr
  obtain ⟨e, he, rfl⟩ := hr
  have hmem := hsound.branch_mem e he
  obtain ⟨target, htarget⟩ :=
    Option.isSome_iff_exists.mp (Plan.isSome_placed_ofProgram his hmissing hmem)
  have hinside : target ≤ (Plan.ofProgram ctx is).code.length :=
    Plan.placed_le_templates (programParts ctx is) {}
      (fun _ _ h => absurd h.symm (Option.some_ne_none _)) htarget
  have hlabel := (h.labelOffset? hmem).trans htarget
  obtain ⟨d, hd⟩ := exists_distance (r := ⟨e.1, (Plan.ofProgram ctx is).label e.2⟩) hlabel
    (hcode ▸ hinside) (hcode ▸ hordered.inside e he) (hcode ▸ hlength)
  obtain ⟨target', htarget', hsum⟩ := toInt_distance hd
  exact ⟨target', d, htarget', hd, hsum⟩

/-- A translation whose references are resolved is finished to a program. -/
theorem Compilation.exists_program {c : Compilation} (htranslate : translate ctx code = .ok c)
    (hfollows : c.asm.Follows (Plan.ofProgram ctx is)) (hresolved : c.asm.buffer.Resolved) :
    ∃ p, Program.compile ctx code = .ok p ∧ c.asm.buffer.finish = .ok p.code := by
  obtain ⟨code', hfinish⟩ := hresolved.exists_finish
  have hfinished := hfollows.buffer.finished hfollows.sound
    (Plan.ordered_empty.templates (programParts ctx is)) hfinish
  have hpos : 0 < code'.size := by
    have hprologue : 0 < linesSize prologue := by decide +kernel
    rw [hfinished.size, Plan.ofProgram, Plan.length_templates, flatMap_programParts,
      linesSize_append]
    omega
  obtain ⟨memory, hmemory⟩ := CodeMemory.exists_ofCode hpos
  have hfinalize : c.asm.buffer.finalize = .ok memory := by
    rw [CodeBuffer.finalize, hfinish, ok_bind, hmemory]
    rfl
  refine ⟨⟨memory, _, rfl, c.map, c.inlined⟩, ?_, ?_⟩
  · rw [Program.compile, htranslate, ok_bind, hfinalize]
    rfl
  · rw [hfinish, Program.code, CodeMemory.bytes_ofCode hmemory]

end

/-- An instruction of a listing whose operands pass their checks, and whose branches lead to
    instructions of the listing. -/
abbrev Instruction.Accepted (vm : Instance) (is : List Instruction) (i : Instruction) : Prop :=
  i.refusal? vm.codeSize vm.dataSize = none ∧ i.targets ⊆ is.map (·.address) ∧
    (i.opcode = .switch → ∃ j ∈ is, j.opcode = .casetbl ∧ j.address = i.arg)

/-- An image whose instructions are accepted has a program, whatever the configuration. -/
theorem Program.exists_ofInstance (config : Config) {image : Block} {vm : Instance}
    {is : List Instruction}
    (hload : Instance.load image = .ok vm) (hlisting : Decodes vm.code 0 is none)
    (hsize : vm.codeSize ≤ 0x2000000)
    (his : ∀ i ∈ is, i.Accepted vm is) : ∃ p, Program.ofInstance config vm = .ok p := by
  obtain ⟨hcode, hbounded⟩ := Instance.size_code hload
  have hpasses : ∀ i ∈ is, i.Passes (.ofInstance config vm) := fun i hi => (his i hi).1
  have hmissing : ∀ k, ¬Missing is k :=
    forall_not_missing_iff.mpr fun i hi => ⟨fun t ht => List.mem_map.mp ((his i hi).2.1 ht),
      (his i hi).2.2⟩
  have haccepted : Acceptable vm.code (Context.ofInstance config vm).dataSize :=
    (acceptable_iff hbounded hcode.symm hlisting).mpr ⟨⟨rfl, hpasses⟩, hmissing⟩
  obtain ⟨c, htranslate⟩ := (Compilation.exists_translate_iff hbounded hcode.symm).mpr haccepted
  obtain ⟨is', hlisting', -, -, rfl⟩ := Compilation.eq_of_translate htranslate
  obtain ⟨rfl, -⟩ := hlisting.unique hlisting'
  have hfollows := Assembly.follows_empty.templates (programParts (.ofInstance config vm) is)
  rw [← Compilation.asm_addStubs] at hfollows
  obtain ⟨p, hp, -⟩ := Compilation.exists_program htranslate hfollows
    (hfollows.buffer.resolved hlisting (hcode ▸ hsize) hpasses hmissing)
  exact ⟨p, hp⟩

end PawnNative
