import Mathlib.Tactic.Common
import PawnNative.Proofs.CodeMap

/-! # Entries of the code map at the end of the code

    The code map gives the start of the block of each instruction. A block can be
    empty: debug information has no code. So an entry is the offset of a byte of
    the program exactly when something comes after it, the block of this or of a
    later instruction, or the stub of a fault, which the whole program shares.
    Otherwise the entry is the end of the code, where no instruction can be read.
-/

namespace PawnNative

open X64

/-! ## Section 1: What comes after an entry -/

theorem linesTraits_fault (ls : List Line) :
    (linesTraits ls).fault = true ↔ ∃ l ∈ ls, ∃ f, l.fault? = some f := by
  induction ls with
  | nil => exact iff_of_false Bool.false_ne_true (by simp)
  | cons l ls ih =>
    have hfirst : l.traits.fault = true ↔ ∃ f, l.fault? = some f := by
      cases l with
      | op i | place t => exact iff_of_false Bool.false_ne_true nofun
      | jmp t | jcc c t | call t =>
        rcases t with _ | _ | ⟨_ | _ | _ | f⟩ | _
        case stub.fault => exact iff_of_true rfl ⟨f, rfl⟩
        all_goals exact iff_of_false Bool.false_ne_true nofun
    rw [linesTraits, Traits.or, Bool.or_eq_true, hfirst, ih, List.exists_mem_cons_iff]

section
variable {ctx : Context} {is : List Instruction}

/-- The block of an instruction is empty exactly when its template contains no code. -/
theorem Instruction.Passes.linesSize_pos_iff {i : Instruction} (h : i.Passes ctx) :
    0 < linesSize (i.body ctx) ↔ (i.traits ctx.config.memoryChecks).code = true := by
  obtain ⟨ls, hls, hbody, -⟩ := h.template
  rw [← linesTraits_template hls, linesTraits_code, hbody]
  exact iff_of_eq (congrArg (0 < ·) (Nat.zero_add _))

/-- **Run.** Instructions have code when one of them has. -/
theorem linesSize_bodies_pos_iff (his : ∀ i ∈ is, i.Passes ctx) :
    0 < linesSize (is.flatMap (Instruction.body ctx)) ↔
      ∃ i ∈ is, (i.traits ctx.config.memoryChecks).code = true := by
  induction is with
  | nil => exact iff_of_false (Nat.lt_irrefl 0) (by simp)
  | cons i is ih =>
    rw [List.flatMap_cons, linesSize_append, List.exists_mem_cons_iff,
      ← (his i List.mem_cons_self).linesSize_pos_iff, ← ih fun j hj =>
      his j (List.mem_cons_of_mem i hj)]
    omega

/-- There are stubs of faults when an instruction leads to one. -/
theorem linesSize_stubs_pos_iff (his : ∀ i ∈ is, i.Passes ctx) :
    0 < linesSize ((listingFaults ctx is).flatMap faultLines) ↔
      ∃ i ∈ is, (i.traits ctx.config.memoryChecks).fault = true := by
  have hstubs : ∀ fs : List Fault, 0 < linesSize (fs.flatMap faultLines) ↔ ∃ f, f ∈ fs := by
    intro fs
    cases fs with
    | nil => exact iff_of_false (Nat.lt_irrefl 0) nofun
    | cons f fs =>
      refine iff_of_true ?_ ⟨f, List.mem_cons_self⟩
      have hfirst : 0 < linesSize (faultLines f) := (linesTraits_code _).mp rfl
      rw [List.flatMap_cons, linesSize_append]
      omega
  have hfault : ∀ i ∈ is, (i.traits ctx.config.memoryChecks).fault = true ↔
      ∃ l ∈ i.body ctx, ∃ f, l.fault? = some f := by
    intro i hi
    obtain ⟨ls, hls, hbody, -⟩ := (his i hi).template
    rw [← linesTraits_template hls, linesTraits_fault, hbody, List.exists_mem_cons_iff]
    exact (or_iff_right nofun).symm
  -- There is one stub for each fault to which some template branches.
  rw [hstubs, listingFaults, faultsOf]
  constructor
  · rintro ⟨f, hf⟩
    rw [List.mem_eraseDups, List.mem_filterMap] at hf
    obtain ⟨l, hl, hf⟩ := hf
    obtain ⟨i, hi, hl⟩ := List.mem_flatMap.mp hl
    exact ⟨i, hi, (hfault i hi).mpr ⟨l, hl, f, hf⟩⟩
  · rintro ⟨i, hi, htraits⟩
    obtain ⟨l, hl, f, hf⟩ := (hfault i hi).mp htraits
    exact ⟨f, List.mem_eraseDups.mpr
        (List.mem_filterMap.mpr ⟨l, List.mem_flatMap.mpr ⟨i, hi, hl⟩, hf⟩)⟩

end

/-! ## Section 2: Entries -/

namespace Program.Finishes

variable {p : Program} {ctx : Context} {before after : List Instruction} {i : Instruction}

/-- The entry of an instruction is the end of the code of the instructions before it. -/
theorem offset_eq (h : p.Finishes ctx (before ++ i :: after)) :
    p.offset? i.address = some (stubsStart ctx before) := by
  obtain ⟨-, -, -, hoffset, -⟩ := h.holds_at
  rw [hoffset, ← Plan.ofListing_eq, Plan.length_ofListing]

/-- What comes after an entry is the code of this and of later instructions, and the stubs. -/
theorem size_after (h : p.Finishes ctx (before ++ i :: after)) :
    p.code.size = stubsStart ctx before + (linesSize ((i :: after).flatMap (Instruction.body ctx)) +
      linesSize ((listingFaults ctx (before ++ i :: after)).flatMap faultLines)) := by
  rw [h.size_eq, programLines, List.flatMap_append, linesSize_append, linesSize_append,
    linesSize_append, stubsStart, Nat.add_assoc, Nat.add_assoc, Nat.add_assoc]

theorem lt_size_iff (h : p.Finishes ctx (before ++ i :: after)) :
    stubsStart ctx before < p.code.size ↔
      (∃ j ∈ i :: after, (j.traits ctx.config.memoryChecks).code = true) ∨
      ∃ j ∈ before ++ i :: after, (j.traits ctx.config.memoryChecks).fault = true := by
  rw [← linesSize_bodies_pos_iff fun j hj => h.passes j (List.mem_append_right _ hj),
    ← linesSize_stubs_pos_iff h.passes, h.size_after]
  omega

theorem mem_map {is : List Instruction}
    (hmap : p.map = (is.foldl (Compilation.append ctx) Compilation.start).map)
    {e : Cell × Nat} (he : e ∈ p.map.toList) :
    ∃ before i after, is = before ++ i :: after ∧ i.address = e.1 ∧
      e.2 = stubsStart ctx before := by
  obtain ⟨hfst, hsnd⟩ := Compilation.map_foldl ctx is
  rw [← hmap] at hfst hsnd
  obtain ⟨k, hk⟩ := List.getElem?_of_mem he
  have hfst : (is.map Instruction.address)[k]? = some e.1 := by
    rw [← hfst, List.getElem?_map, hk, Option.map_some]
  rw [List.getElem?_map, Option.map_eq_some_iff] at hfst
  obtain ⟨i, hi, haddress⟩ := hfst
  obtain ⟨before, after, rfl, rfl⟩ := exists_split hi
  refine ⟨before, i, after, rfl, haddress, ?_⟩
  have hstart := (blockStarts_split ctx (linesSize prologue) before i after).1
  have hentry : (p.map.toList.map Prod.snd)[before.length]? = some e.2 := by
    rw [List.getElem?_map, hk, Option.map_some]
  rw [← hsnd, List.getElem?_append_left (List.getElem?_eq_some_iff.mp hentry).1, hentry] at hstart
  exact Option.some_inj.mp hstart

end Program.Finishes

/-! ### A small program -/

/-- The end of a program, and then two instructions that do nothing. -/
def trailingListing : List Instruction := [⟨0, .halt, [0]⟩, ⟨8, .brk, []⟩, ⟨12, .nop, []⟩]

def trailingImage : Block := (pushHeader.bytes ++ trailingListing.flatMap Instruction.bytes).toArray

def trailingInstance : Instance :=
  { pushInstance with block := trailingImage ++ Array.replicate 16 0 }

theorem load_trailingImage : Instance.load trailingImage = .ok trailingInstance :=
  Instance.load_whole (by decide +kernel) rfl (by decide) rfl

theorem decodes_trailingListing : Decodes trailingInstance.code 0 trailingListing none :=
  .of_block (n := 16) rfl (by decide) rfl rfl (by decide) (by decide)

theorem compiles_trailingInstance : ∃ p, Program.ofInstance {} trailingInstance = .ok p :=
  Program.exists_ofInstance {} load_trailingImage decodes_trailingListing (by decide) (by decide)

/-! ### The result -/

/-- **Entries.** In the code map of a compiled image every entry belongs to an instruction of the
    listing, and it is where computed branches and calls to the address of the instruction go. No
    entry lies beyond the end of the code. An entry is the offset of a byte of code exactly when
    this or a later instruction has code, or some instruction of the program, wherever it stands,
    leads to the stub of a fault; otherwise it is the end of the code. -/
theorem entries_inside_code_iff {vm : Instance} {config : Config} {p : Program}
    (hcompile : Program.ofInstance config vm = .ok p) :
    ∃ is, vm.code.instructions = .ok is ∧ ∀ e ∈ p.map.toList, ∃ before i after,
      is = before ++ i :: after ∧ i.address = e.1 ∧
      (∀ platform, (⟨platform, p⟩ : Environment).codeAddress? e.1 =
        some (platform.layout.code + BitVec.ofNat 64 e.2)) ∧
      e.2 ≤ p.size ∧
      (e.2 < p.size ↔ (∃ j ∈ i :: after, (j.traits config.memoryChecks).code = true) ∨
        ∃ j ∈ is, (j.traits config.memoryChecks).fault = true) := by
  obtain ⟨is, hlisting, -, hfinishes, -⟩ := Program.finishes_of_compile hcompile
  refine ⟨is, hlisting.instructions_eq, fun e he => ?_⟩
  obtain ⟨before, i, after, rfl, haddress, hentry⟩ :=
    Program.Finishes.mem_map (Program.map_of_compile hlisting hcompile) he
  refine ⟨before, i, after, rfl, haddress, fun platform => ?_, ?_, ?_⟩
  · rw [Environment.codeAddress?, ← haddress, hfinishes.offset_eq, ← hentry]
    rfl
  · show e.2 ≤ p.code.size
    rw [hentry, hfinishes.size_after]
    exact Nat.le_add_right ..
  · rw [hentry]
    exact hfinishes.lt_size_iff

/-- Of the entries of the small program only the first one is inside the code. -/
theorem trailing_entries : ∃ p, Instance.load trailingImage = .ok trailingInstance ∧
    Program.ofInstance {} trailingInstance = .ok p ∧ p.map.toList.map Prod.fst = [0, 8, 12] ∧
    ∀ e ∈ p.map.toList, e.2 < p.size ↔ e.1 = 0 := by
  obtain ⟨p, hp⟩ := compiles_trailingInstance
  have hfst : p.map.toList.map Prod.fst = [0, 8, 12] := by
    rw [Program.map_of_compile decodes_trailingListing hp]
    exact (Compilation.map_foldl _ trailingListing).1
  refine ⟨p, load_trailingImage, hp, hfst, fun e he => ?_⟩
  obtain ⟨is, his, hentries⟩ := entries_inside_code_iff hp
  obtain rfl := Except.ok.inj (decodes_trailingListing.instructions_eq.symm.trans his)
  obtain ⟨before, i, after, hsplit, haddress, -, -, hinside⟩ := hentries e he
  rw [hinside, ← haddress]
  rcases before with _ | ⟨_, _ | ⟨_, _ | ⟨_, before⟩⟩⟩
  · cases hsplit
    decide
  · cases hsplit
    decide
  · cases hsplit
    decide
  · simp [trailingListing] at hsplit

/-- The two instructions at the end have no code, and nothing comes after them. -/
theorem trailing_entry_is_end_of_code : ∃ p, Program.ofInstance {} trailingInstance = .ok p ∧
    p.offset? 12 = some p.size := by
  obtain ⟨p, hp⟩ := compiles_trailingInstance
  have hfinishes := Program.finishes_of_listing hp decodes_trailingListing
  have hfinishes : p.Finishes _ ([⟨0, .halt, [0]⟩, ⟨8, .brk, []⟩] ++ ⟨12, .nop, []⟩ :: []) :=
    hfinishes
  have hnothing :
      linesSize ([⟨12, .nop, []⟩].flatMap (Instruction.body (.ofInstance {} trailingInstance))) +
      linesSize ((listingFaults (.ofInstance {} trailingInstance) trailingListing).flatMap
        faultLines) = 0 := by
    decide +kernel
  refine ⟨p, hp, hfinishes.offset_eq.trans (congrArg some ?_)⟩
  exact (hfinishes.size_after.trans (congrArg _ hnothing)).symm

end PawnNative
