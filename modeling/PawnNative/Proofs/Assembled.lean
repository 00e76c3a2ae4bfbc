import Mathlib.Data.List.Induction
import PawnNative.Proofs.Demands
import PawnNative.Proofs.Listing
import PawnNative.Proofs.Plan

/-! # The plan of a program

    Compiling a listing appends one template after the other, as long as no
    instruction is refused. The plan of the listing does the same without label
    numbers, and the assembly follows it. Which labels of the bytecode were
    mentioned and which were placed can then be read off the instructions:
    `Plan.Covers`.
-/

namespace PawnNative

open X64

/-! ## Section 1: Appending instructions -/

/-- The code of an instruction, from the place of its own label on. -/
def Instruction.body (ctx : Context) (i : Instruction) : List Line :=
  .place (.code i.address) :: (template ctx i).toOption.getD []

/-- Whether an instruction passes the checks of its own operands. -/
def Instruction.Passes (ctx : Context) (i : Instruction) : Prop :=
  i.refusal? ctx.codeSize ctx.dataSize = none

theorem Instruction.Passes.template {ctx : Context} {i : Instruction} (h : i.Passes ctx) :
    ∃ ls, template ctx i = .ok ls ∧ i.body ctx = .place (.code i.address) :: ls ∧ i.Named ls := by
  have hanswer := template_answered ctx i
  rw [Instruction.Answered, h] at hanswer
  obtain ⟨ls, hls, hnamed⟩ := hanswer
  exact ⟨ls, hls, by rw [body, hls]; rfl, hnamed⟩

namespace Compilation

variable {ctx : Context} {c : Compilation} {i : Instruction}

/-- A compilation with the code of one more instruction. -/
def append (ctx : Context) (c : Compilation) (i : Instruction) : Compilation where
  asm := c.asm.lines i.address (i.body ctx)
  map := c.map.push (i.address, c.asm.offset)
  inlined := if isInlined ctx i then c.inlined + 1 else c.inlined

theorem instruction_of_passes (h : i.Passes ctx) :
    c.instruction ctx i = .ok (c.append ctx i) := by
  obtain ⟨ls, hls, hbody, -⟩ := h.template
  rw [instruction, hls, append, hbody]
  rfl

theorem instruction_of_refusal {e : CompileError}
    (h : i.refusal? ctx.codeSize ctx.dataSize = some e) : c.instruction ctx i = .error e := by
  have hanswer := template_answered ctx i
  rw [Instruction.Answered, h] at hanswer
  rw [instruction, hanswer, error_bind]

/-- What appending a listing gives: it is compiled up to the first instruction that is refused, and
    the error that ends the listing comes after all its instructions. -/
def appendListing (ctx : Context) (c : Compilation) (is : List Instruction)
    (stop : Option DecodeError) : Except CompileError Compilation :=
  match is.findSome? (Instruction.refusal? ctx.codeSize ctx.dataSize), stop with
  | some e, _ => .error e
  | none, some d => .error (.decode d)
  | none, none => .ok (is.foldl (append ctx) c)

theorem foldlM_item (is : List Instruction) (stop : Option DecodeError) :
    (is.map Except.ok ++ stop.toList.map Except.error).foldlM (item ctx) c =
      c.appendListing ctx is stop := by
  unfold appendListing
  induction is generalizing c with
  | nil => cases stop <;> rfl
  | cons i is ih =>
    rw [List.map_cons, List.cons_append, List.foldlM_cons, List.findSome?_cons, List.foldl_cons]
    cases h : i.refusal? ctx.codeSize ctx.dataSize with
    | some e =>
      rw [item, instruction_of_refusal h]
      rfl
    | none =>
      rw [item, instruction_of_passes h, ok_bind]
      exact ih

theorem translate_eq {code : Block} {is : List Instruction} {stop : Option DecodeError}
    (hlisting : Decodes code 0 is stop) :
    translate ctx code = do
      let c ← start.appendListing ctx is stop
      c.checkTargets
      return c.addStubs := by
  obtain ⟨is', stop', hlisting', hitems⟩ := Cursor.remaining_eq_listing _
  obtain ⟨rfl, rfl⟩ := hlisting.unique hlisting'
  rw [translate, hitems, foldlM_item]

end Compilation

/-! ## Section 2: The plan -/

/-- The plan of a compiled listing, without the stubs of the faults. -/
def Plan.ofListing (ctx : Context) (is : List Instruction) : Plan :=
  is.foldl (fun p i => p.lines i.address (i.body ctx)) (({} : Plan).lines 0 prologue)

theorem Plan.ofListing_nil (ctx : Context) : ofListing ctx [] = ({} : Plan).lines 0 prologue := by
  rw [ofListing, List.foldl_nil]

theorem Plan.ofListing_concat (ctx : Context) (is : List Instruction) (i : Instruction) :
    ofListing ctx (is ++ [i]) = (ofListing ctx is).lines i.address (i.body ctx) := by
  rw [ofListing, List.foldl_append, List.foldl_cons, List.foldl_nil, ofListing]

theorem Compilation.follows_start : start.asm.Follows (Plan.ofListing ctx []) := by
  rw [Plan.ofListing_nil, start]
  exact Assembly.follows_empty.lines 0 prologue

/-- **Run.** What is compiled of a listing follows the plan of the listing. -/
theorem Compilation.follows_foldl (ctx : Context) (is : List Instruction) :
    (is.foldl (append ctx) start).asm.Follows (Plan.ofListing ctx is) := by
  induction is using List.reverseRecOn with
  | nil => exact follows_start
  | append_singleton is i ih =>
    rw [List.foldl_append, List.foldl_cons, List.foldl_nil, Plan.ofListing_concat]
    exact ih.lines i.address (i.body ctx)

/-! ## Section 3: The keys of a plan -/

namespace Plan

/-- The keys of the bytecode that lines place. -/
def placedKeys (ls : List Line) : List LabelKey := (ls.filterMap Line.placed?).filterMap Target.key?

theorem owner_eq_key_iff {t : Target} {part : Nat} {k : LabelKey} :
    t.owner part = .key k ↔ t.key? = some k := by
  cases t <;> simp [Target.owner, Target.key?]

section
variable (p : Plan) (referrer : Cell) (l : Line) (ls : List Line) (k : LabelKey)

theorem key_mem_names_line :
    .key k ∈ (p.line referrer l).names ↔
      .key k ∈ p.names ∨ l.key? = some k ∨ l.placed?.bind Target.key? = some k := by
  have hmention : ∀ (t : Target) (r : Option Cell),
      Owner.key k ∈ (p.mention (t.owner p.part) r).names ↔ .key k ∈ p.names ∨ t.key? = some k := by
    intro t r
    rw [mem_names_mention_iff, eq_comm (a := Owner.key k), owner_eq_key_iff]
  cases l with
  | op i => simp [line]
  | jmp t => simpa [line, branch] using hmention t _
  | jcc c t => simpa [line, branch] using hmention t _
  | call t => simpa [line, branch] using hmention t _
  | place t => simpa [line, place] using hmention t _

theorem placed_key_line :
    ((p.line referrer l).placed (.key k)).isSome ↔
      (p.placed (.key k)).isSome ∨ l.placed?.bind Target.key? = some k := by
  cases l with
  | op i => simp [line]
  | jmp t => simp [line, branch]
  | jcc c t => simp [line, branch]
  | call t => simp [line, branch]
  | place t =>
    simp only [line, place, placed_mention, Line.placed?_place, Option.bind_some]
    by_cases ht : t.key? = some k
    · simp [owner_eq_key_iff.mpr ht, ht]
    · have hne : ¬Owner.key k = t.owner p.part := fun h => ht (owner_eq_key_iff.mp h.symm)
      simp [hne, ht]

theorem referrer_line (hplaced : l.placed?.bind Target.key? ≠ some k) :
    (p.line referrer l).referrer k =
      if .key k ∉ p.names ∧ l.key? = some k then some referrer else p.referrer k := by
  have hmention : ∀ (t : Target) (r : Option Cell), (p.mention (t.owner p.part) r).referrer k =
      if .key k ∉ p.names ∧ t.key? = some k then r else p.referrer k := by
    intro t r
    unfold mention
    by_cases ht : t.key? = some k
    · rw [owner_eq_key_iff.mpr ht]
      split_ifs <;> simp_all
    · have hne : ¬t.owner p.part = .key k := fun h => ht (owner_eq_key_iff.mp h)
      split_ifs <;> simp_all
  cases l with
  | op i => simp [line]
  | jmp t => exact hmention t _
  | jcc c t => exact hmention t _
  | call t => exact hmention t _
  | place t =>
    have ht : t.key? ≠ some k := hplaced
    simpa [line, place, ht] using hmention t none

theorem mem_placedKeys_cons :
    k ∈ placedKeys (l :: ls) ↔ l.placed?.bind Target.key? = some k ∨ k ∈ placedKeys ls := by
  unfold placedKeys
  cases h : l.placed? with
  | none => simp [h]
  | some t =>
    rw [List.filterMap_cons_some h, List.filterMap_cons]
    cases ht : t.key? with
    | none => simp [ht]
    | some k' => simp [ht, eq_comm]

theorem mem_keys_cons :
    k ∈ (l :: ls).filterMap Line.key? ↔ l.key? = some k ∨ k ∈ ls.filterMap Line.key? := by
  cases h : l.key? with
  | none => simp [h]
  | some k' => simp [h, eq_comm]

theorem key_mem_names_lines :
    .key k ∈ (p.lines referrer ls).names ↔
      .key k ∈ p.names ∨ k ∈ ls.filterMap Line.key? ∨ k ∈ placedKeys ls := by
  unfold lines
  have run : ∀ q : Plan, .key k ∈ (ls.foldl (fun p l => p.line referrer l) q).names ↔
      .key k ∈ q.names ∨ k ∈ ls.filterMap Line.key? ∨ k ∈ placedKeys ls := by
    induction ls with
    | nil => simp [placedKeys]
    | cons l ls ih =>
      intro q
      rw [List.foldl_cons, ih, key_mem_names_line, mem_keys_cons, mem_placedKeys_cons]
      grind
  exact run p.begin

theorem placed_key_lines :
    ((p.lines referrer ls).placed (.key k)).isSome ↔
      (p.placed (.key k)).isSome ∨ k ∈ placedKeys ls := by
  unfold lines
  have run : ∀ q : Plan, ((ls.foldl (fun p l => p.line referrer l) q).placed (.key k)).isSome ↔
      (q.placed (.key k)).isSome ∨ k ∈ placedKeys ls := by
    induction ls with
    | nil => simp [placedKeys]
    | cons l ls ih =>
      intro q
      rw [List.foldl_cons, ih, placed_key_line, mem_placedKeys_cons, or_assoc]
  exact run p.begin

theorem referrer_lines (hplaced : k ∉ placedKeys ls) :
    (p.lines referrer ls).referrer k =
      if .key k ∉ p.names ∧ k ∈ ls.filterMap Line.key? then some referrer else p.referrer k := by
  unfold lines
  have run : ∀ q : Plan, (ls.foldl (fun p l => p.line referrer l) q).referrer k =
      if .key k ∉ q.names ∧ k ∈ ls.filterMap Line.key? then some referrer else q.referrer k := by
    induction ls with
    | nil => simp
    | cons l ls ih =>
      intro q
      rw [mem_placedKeys_cons, not_or] at hplaced
      rw [List.foldl_cons, ih hplaced.2, referrer_line _ _ _ _ hplaced.1]
      simp only [key_mem_names_line, mem_keys_cons, hplaced.1, or_false]
      by_cases hq : .key k ∈ q.names
      · simp [hq]
      · by_cases hl : l.key? = some k
        · simp [hq, hl]
        · simp [hq, hl]
  exact run p.begin

end

end Plan

/-! ## Section 4: The keys of a listing -/

/-- The labels of the bytecode that an instruction places. -/
def Instruction.binds (i : Instruction) : List LabelKey :=
  ⟨i.address, .instr⟩ :: if i.opcode = .casetbl then [⟨i.address, .caseTable⟩] else []

theorem Instruction.key?_places (i : Instruction) :
    i.places.filterMap Target.key? =
      if i.opcode = .casetbl then [⟨i.address, .caseTable⟩] else [] := by
  unfold places
  split
  · next h => simp [h]
  · next h =>
    have hne : ¬i.opcode = .casetbl := by simp [h]
    rw [if_neg hne]
    split_ifs <;> rfl
  · next h => simp [h]
  · next h => simp [h]
  · next h _ _ _ => rw [if_neg h, List.filterMap_nil]

/-- A key that instructions lead to and none of them places. -/
def Missing (is : List Instruction) (k : LabelKey) : Prop :=
  (∃ i ∈ is, k ∈ i.leads) ∧ ∀ i ∈ is, k ∉ i.binds

/-- The first instruction that leads to a key. -/
def firstReferrer? (is : List Instruction) (k : LabelKey) : Option Cell :=
  (is.find? fun i => k ∈ i.leads).map (·.address)

/-- A plan knows the keys of these instructions, and the first referrers of those it has not
    placed. -/
structure Plan.Covers (p : Plan) (is : List Instruction) : Prop where
  names : ∀ k, .key k ∈ p.names ↔ ∃ i ∈ is, k ∈ i.leads ∨ k ∈ i.binds
  placed : ∀ k, (p.placed (.key k)).isSome ↔ ∃ i ∈ is, k ∈ i.binds
  referrer : ∀ k, (∀ i ∈ is, k ∉ i.binds) → p.referrer k = firstReferrer? is k

namespace Plan

variable {ctx : Context} {p : Plan} {is : List Instruction} {i : Instruction}

theorem keys_body (h : i.Passes ctx) :
    (i.body ctx).filterMap Line.key? = i.leads ∧ placedKeys (i.body ctx) = i.binds := by
  obtain ⟨ls, -, hbody, hnamed⟩ := h.template
  rw [hbody]
  constructor
  · rw [List.filterMap_cons_none rfl, hnamed.keys]
  · rw [placedKeys, List.filterMap_cons, Line.placed?_place]
    dsimp only
    rw [hnamed.placed, List.filterMap_cons, i.key?_places]
    rfl

theorem covers_prologue : (({} : Plan).lines 0 prologue).Covers [] := by
  have hplaced : placedKeys prologue = [] := rfl
  have hkeys : prologue.filterMap Line.key? = [] := rfl
  refine ⟨fun k => ?_, fun k => ?_, fun k _ => ?_⟩
  · rw [key_mem_names_lines, hplaced, hkeys]
    simp
  · rw [placed_key_lines, hplaced]
    simp
  · rw [referrer_lines _ _ _ _ (by simp [hplaced]), hkeys]
    simp [firstReferrer?]

theorem Covers.concat (h : p.Covers is) (hi : i.Passes ctx) :
    (p.lines i.address (i.body ctx)).Covers (is ++ [i]) := by
  obtain ⟨hkeys, hplaced⟩ := keys_body hi
  refine ⟨fun k => ?_, fun k => ?_, fun k hk => ?_⟩
  · rw [key_mem_names_lines, hkeys, hplaced, h.names]
    simp [or_and_right, exists_or]
  · rw [placed_key_lines, hplaced, h.placed]
    simp [or_and_right, exists_or]
  · have hunplaced : ∀ j ∈ is, k ∉ j.binds := fun j hj => hk j (List.mem_append_left _ hj)
    have hi' : k ∉ i.binds := hk i (by simp)
    rw [referrer_lines _ _ _ _ (by rwa [hplaced]), hkeys, h.referrer k hunplaced]
    unfold firstReferrer?
    rw [List.find?_append]
    simp only [h.names]
    -- Either an earlier instruction leads to the key, or this one is the first to.
    cases hfind : is.find? fun j => k ∈ j.leads with
    | some j =>
      have hj := List.find?_some hfind
      have hknown : ∃ j ∈ is, k ∈ j.leads ∨ k ∈ j.binds :=
        ⟨j, List.mem_of_find?_eq_some hfind, Or.inl (by simpa using hj)⟩
      simp [hknown]
    | none =>
      have hnone : ∀ j ∈ is, k ∉ j.leads := by simpa using List.find?_eq_none.mp hfind
      have hunknown : ¬∃ j ∈ is, k ∈ j.leads ∨ k ∈ j.binds := by
        rintro ⟨j, hj, hjk | hjk⟩
        · exact hnone j hj hjk
        · exact hunplaced j hj hjk
      by_cases hik : k ∈ i.leads
      · simp [hunknown, hik]
      · simp [hik]

/-- **Run.** The plan of a listing covers the listing. -/
theorem covers_ofListing (his : ∀ i ∈ is, i.Passes ctx) : (ofListing ctx is).Covers is := by
  induction is using List.reverseRecOn with
  | nil =>
    rw [ofListing_nil]
    exact covers_prologue
  | append_singleton is i ih =>
    rw [ofListing_concat]
    refine (ih fun j hj => his j ?_).concat (his i ?_)
    · exact List.mem_append_left _ hj
    · simp

end Plan

end PawnNative
