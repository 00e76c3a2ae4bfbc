import Mathlib.Tactic.Common
import PawnNative.Proofs.Sites

/-! # The code map

    The code of a program is the code that every program starts with, a block of bytes
    for each instruction in the order of the listing, and the stubs of the faults. The
    code map has the start of each block. Only the distances in branches depend on
    where a block stands: with the distances zeroed, a block is a function of its
    instruction and of the facts in the context, and a stub is a function of its fault.
-/

namespace PawnNative

open X64

/-! ## Section 1: Distances -/

/-- The bytes of lines, with all distances zero. -/
def linesBytes (ls : List Line) : List Byte := ls.flatMap Line.bytes

/-- Where the distances of lines stand, when the lines start at an offset. -/
def distances : Nat → List Line → List Nat
  | _, [] => []
  | o, l :: ls => (l.target?.map fun _ => o + l.size - 4).toList ++ distances (o + l.size) ls

/-- The block with the four bytes at each of these offsets zeroed. -/
def Block.zeroed (b : Block) (offsets : List Nat) : Block :=
  offsets.foldl (fun b o => b.overwrite o (Cell.bytes 0)) b

theorem Block.zeroed_cons (b : Block) (o : Nat) (offsets : List Nat) :
    b.zeroed (o :: offsets) = (b.overwrite o (Cell.bytes 0)).zeroed offsets := by
  rw [Block.zeroed, List.foldl_cons, Block.zeroed]

theorem length_linesBytes (ls : List Line) : (linesBytes ls).length = linesSize ls := by
  induction ls with
  | nil => rfl
  | cons l ls ih =>
    rw [linesBytes, List.flatMap_cons, List.length_append, linesSize]
    exact congrArg (l.size + ·) ih

theorem linesBytes_append (ls ls' : List Line) :
    linesBytes (ls ++ ls') = linesBytes ls ++ linesBytes ls' :=
  List.flatMap_append

theorem distances_append (o : Nat) (ls ls' : List Line) :
    distances o (ls ++ ls') = distances o ls ++ distances (o + linesSize ls) ls' := by
  induction ls generalizing o with
  | nil => rfl
  | cons l ls ih =>
    rw [List.cons_append, distances, ih, distances, linesSize, List.append_assoc, Nat.add_assoc]

theorem distances_eq_map (o : Nat) (ls : List Line) :
    distances o ls = (distances 0 ls).map (o + ·) := by
  have hshift : ∀ k, distances (o + k) ls = (distances k ls).map (o + ·) := by
    induction ls with
    | nil => exact fun _ => rfl
    | cons l ls ih =>
      intro k
      rw [distances, distances, List.map_append, Nat.add_assoc, ih]
      congr 1
      cases ht : l.target? with
      | none => rfl
      | some t =>
        have hsize := Plan.Line.four_le_size_of_target ht
        simp only [Option.map_some, Option.toList_some, List.map_cons, List.map_nil,
          List.cons.injEq, and_true]
        omega
  exact hshift 0

theorem Line.bytes_distance {l : Line} {t : Target} (h : l.target? = some t)
    {k : Nat} (hk : k < 4) : l.bytes[l.size - 4 + k]? = some 0 := by
  obtain rfl | rfl | rfl | rfl : k = 0 ∨ k = 1 ∨ k = 2 ∨ k = 3 := by omega
  all_goals
    cases l with
    | op i | place t' => cases h
    | jmp t' | call t' | jcc c t' => rfl

theorem mem_distances_cons {o d : Nat} {l : Line} {ls : List Line} :
    d ∈ distances o (l :: ls) ↔ ((∃ t, l.target? = some t) ∧ d = o + l.size - 4) ∨
    d ∈ distances (o + l.size) ls := by
  rw [distances, List.mem_append]
  cases l.target? <;> simp

/-- **Run.** Every distance of lines lies inside them and is zero in their bytes. -/
theorem linesBytes_distances {o d : Nat} {ls : List Line} (hd : d ∈ distances o ls) :
    o ≤ d ∧ d + 4 ≤ o + linesSize ls ∧ ∀ k < 4, (linesBytes ls)[d - o + k]? = some 0 := by
  induction ls generalizing o with
  | nil => cases hd
  | cons l ls ih =>
    rw [linesSize, linesBytes, List.flatMap_cons]
    rcases mem_distances_cons.mp hd with ⟨⟨t, ht⟩, rfl⟩ | hd
    · have hsize := Plan.Line.four_le_size_of_target ht
      refine ⟨by omega, by omega, fun k hk => ?_⟩
      rw [List.getElem?_append_left (show _ < l.size by omega), ← Line.bytes_distance ht hk]
      congr 1
      omega
    · obtain ⟨hle, hend, hzero⟩ := ih hd
      refine ⟨by omega, by omega, fun k hk => ?_⟩
      rw [List.getElem?_append_right (show l.size ≤ _ by omega), ← hzero k hk]
      congr 1
      show _ - l.size = _
      omega

theorem Block.size_zeroed (b : Block) (offsets : List Nat) : (b.zeroed offsets).size = b.size := by
  induction offsets generalizing b with
  | nil => rfl
  | cons o offsets ih => rw [Block.zeroed_cons, ih, Block.size_overwrite]

/-- A byte of one of the distances is zero, and every other byte is as it was. -/
theorem Block.getElem?_zeroed {b : Block} {offsets : List Nat}
    (hroom : ∀ o ∈ offsets, o + 4 ≤ b.size) (j : Nat) :
    ((∃ o ∈ offsets, o ≤ j ∧ j < o + 4) → (b.zeroed offsets)[j]? = some 0) ∧
    ((∀ o ∈ offsets, j < o ∨ o + 4 ≤ j) → (b.zeroed offsets)[j]? = b[j]?) := by
  induction offsets generalizing b with
  | nil =>
    constructor
    · rintro ⟨o, ho, -⟩
      cases ho
    · exact fun _ => rfl
  | cons o offsets ih =>
    have hlength : (Cell.bytes 0).length = 4 := rfl
    obtain ⟨hin, hout⟩ := ih (b := b.overwrite o (Cell.bytes 0)) fun o' ho' => by
      rw [Block.size_overwrite]
      exact hroom o' (List.mem_cons_of_mem _ ho')
    have hfirst := hroom o List.mem_cons_self
    rw [Block.zeroed_cons]
    constructor
    · rintro ⟨o', ho', hlow, hhigh⟩
      -- Distances may overlap; a byte that a later one covers is zero whatever this one did.
      by_cases hlater : ∃ o ∈ offsets, o ≤ j ∧ j < o + 4
      · exact hin hlater
      · have hnone : ∀ o ∈ offsets, j < o ∨ o + 4 ≤ j := by
          intro o₁ ho₁
          by_contra hcovers
          exact hlater ⟨o₁, ho₁, by omega, by omega⟩
        rcases List.mem_cons.mp ho' with rfl | ho'
        · refine (hout hnone).trans ?_
          have hslot : (b.overwrite o' (Cell.bytes 0))[o' + (j - o')]? = (Cell.bytes 0)[j - o']? :=
            Block.getElem?_overwrite_slot b (by omega) (by omega)
          rw [show o' + (j - o') = j by omega] at hslot
          rw [hslot]
          obtain hk | hk | hk | hk : j - o' = 0 ∨ j - o' = 1 ∨ j - o' = 2 ∨ j - o' = 3 := by omega
          all_goals
            rw [hk]
            rfl
        · exact absurd ⟨o', ho', hlow, hhigh⟩ hlater
    · intro hnone
      refine (hout fun o' ho' => hnone o' (List.mem_cons_of_mem _ ho')).trans ?_
      apply Block.getElem?_overwrite_frame
      have := hnone o List.mem_cons_self
      omega

/-! ## Section 2: Plans without distances -/

namespace Plan

variable {p : Plan} {code : Block}

/-- **Step.** What lines add to a plan. -/
theorem foldl_line_adds (referrer : Cell) (ls : List Line) (p : Plan) :
    (ls.foldl (fun p l => p.line referrer l) p).code = p.code ++ linesBytes ls ∧
    (ls.foldl (fun p l => p.line referrer l) p).branches.map Prod.fst =
      p.branches.map Prod.fst ++ distances p.code.length ls := by
  induction ls generalizing p with
  | nil => exact ⟨(List.append_nil _).symm, (List.append_nil _).symm⟩
  | cons l ls ih =>
    obtain ⟨hcode, hbranches⟩ := p.line_adds referrer l
    obtain ⟨hcode', hbranches'⟩ := ih (p.line referrer l)
    rw [List.foldl_cons, hcode', hbranches', hcode, hbranches, List.append_assoc, List.map_append,
      List.append_assoc, List.length_append, distances]
    refine ⟨rfl, ?_⟩
    cases l.target? <;> rfl

/-- **Run.** What templates add to a plan. -/
theorem templates_add (ts : List (Cell × List Line)) (p : Plan) :
    (p.templates ts).code = p.code ++ linesBytes (ts.flatMap Prod.snd) ∧
    (p.templates ts).branches.map Prod.fst =
      p.branches.map Prod.fst ++ distances p.code.length (ts.flatMap Prod.snd) := by
  induction ts generalizing p with
  | nil => exact ⟨(List.append_nil _).symm, (List.append_nil _).symm⟩
  | cons t ts ih =>
    obtain ⟨hcode, hbranches⟩ := foldl_line_adds t.1 t.2 p.begin
    obtain ⟨hcode', hbranches'⟩ := ih (p.lines t.1 t.2)
    have hcode : (p.lines t.1 t.2).code = p.code ++ linesBytes t.2 := hcode
    have hbranches : (p.lines t.1 t.2).branches.map Prod.fst =
      p.branches.map Prod.fst ++ distances p.code.length t.2 := hbranches
    show ((p.lines t.1 t.2).templates ts).code = _ ∧
        ((p.lines t.1 t.2).templates ts).branches.map Prod.fst = _
    rw [hcode', hbranches', hcode, hbranches, List.flatMap_cons, linesBytes_append,
      distances_append, List.append_assoc, List.append_assoc, List.length_append, length_linesBytes]
    exact ⟨rfl, rfl⟩

theorem Finished.zeroed {before ls after : List Line} (h : p.Finished code)
    (hcode : p.code = linesBytes (before ++ ls ++ after))
    (hbranches : p.branches.map Prod.fst = distances 0 (before ++ ls ++ after)) :
    (code.slice (linesSize before) (linesSize before + linesSize ls)).zeroed (distances 0 ls) =
      (linesBytes ls).toArray := by
  have hsize : linesSize before + linesSize ls ≤ code.size := by
    rw [h.size, hcode, length_linesBytes, linesSize_append, linesSize_append]
    omega
  have hcut : (code.slice (linesSize before) (linesSize before + linesSize ls)).size =
      linesSize ls := by
    rw [Block.slice, Array.size_extract]
    omega
  apply Array.ext_getElem?
  intro j
  refine Eq.trans ?_ List.getElem?_toArray.symm
  by_cases hj : j < linesSize ls
  swap
  · rw [List.getElem?_eq_none (by rw [length_linesBytes]; omega)]
    exact Array.getElem?_eq_none (by rw [Block.size_zeroed, hcut]; omega)
  obtain ⟨hin, hout⟩ :=
    Block.getElem?_zeroed (b := code.slice (linesSize before) (linesSize before + linesSize ls))
    (fun d (hd : d ∈ distances 0 ls) => by
      have hbounds := (linesBytes_distances hd).2.1
      omega) j
  by_cases hslot : ∃ d ∈ distances 0 ls, d ≤ j ∧ j < d + 4
  · rw [hin hslot]
    obtain ⟨d, hd, hlow, hhigh⟩ := hslot
    obtain ⟨-, -, hzero⟩ := linesBytes_distances hd
    have hbyte := hzero (j - d) (by omega)
    rw [Nat.sub_zero, show d + (j - d) = j by omega] at hbyte
    exact hbyte.symm
  · have hnone : ∀ d ∈ distances 0 ls, j < d ∨ d + 4 ≤ j := by
      intro d hd
      by_contra hcovers
      exact hslot ⟨d, hd, by omega, by omega⟩
    -- No distance of the lines before or after reaches into these.
    have hfree : ∀ d ∈ distances 0 (before ++ ls ++ after), linesSize before + j < d ∨
        d + 4 ≤ linesSize before + j := by
      intro d hd
      rw [distances_append, distances_append, List.mem_append, List.mem_append, Nat.zero_add,
        linesSize_append] at hd
      rcases hd with (hd | hd) | hd
      · have hbounds := (linesBytes_distances hd).2.1
        omega
      · rw [distances_eq_map, List.mem_map] at hd
        obtain ⟨d, hd, rfl⟩ := hd
        have := hnone d hd
        omega
      · have hbounds := (linesBytes_distances hd).1
        omega
    have hframe := h.frame (linesSize before + j) fun e he =>
      hfree e.1 (hbranches ▸ List.mem_map_of_mem he)
    have hbyte : (linesBytes (before ++ ls ++ after))[linesSize before + j]? =
        (linesBytes ls)[j]? := by
      rw [linesBytes_append, linesBytes_append, List.getElem?_append_left,
        List.getElem?_append_right, length_linesBytes, Nat.add_sub_cancel_left]
      · rw [length_linesBytes]
        omega
      · rw [List.length_append, length_linesBytes, length_linesBytes]
        omega
    rw [hout hnone, Block.slice, Array.getElem?_extract_of_lt (by omega),
      ← Array.getElem?_eq_getElem (by omega), hframe, hcode, hbyte]

end Plan

/-! ## Section 3: Faults in the order of first reference -/

/-- The fault that a line leads to. -/
def Line.fault? (l : Line) : Option Fault :=
  match l.target? with
  | some (.stub (.fault f)) => some f
  | _ => none

/-- The faults that lines lead to, each once, in the order of their first references. -/
def faultsOf (ls : List Line) : List Fault := (ls.filterMap Line.fault?).eraseDups

/-- A list with one more element at its end, unless it has that already. -/
def addNew (fs : List Fault) : Option Fault → List Fault
  | none => fs
  | some f => if f ∈ fs then fs else fs ++ [f]

theorem faultsOf_concat (ls : List Line) (l : Line) :
    faultsOf (ls ++ [l]) = addNew (faultsOf ls) l.fault? := by
  rw [faultsOf, faultsOf, List.filterMap_append, List.eraseDups_append]
  generalize ls.filterMap Line.fault? = fs
  cases hl : l.fault? with
  | none =>
    rw [List.filterMap_cons_none hl]
    exact List.append_nil _
  | some f =>
    rw [List.filterMap_cons_some hl, List.filterMap_nil, addNew]
    by_cases hf : f ∈ fs
    · rw [if_pos (List.mem_eraseDups.mpr hf)]
      simp [List.removeAll, hf]
    · rw [if_neg (mt List.mem_eraseDups.mp hf)]
      have hnew : [f].removeAll fs = [f] := by simp [List.removeAll, hf]
      rw [hnew]
      rfl

namespace Plan

variable {p : Plan} {ctx : Context} {is : List Instruction}

theorem faults_mention (p : Plan) (w : Owner) (r : Option Cell) :
    (p.mention w r).faults = addNew p.faults w.fault? := by
  by_cases hw : w ∈ p.names
  · rw [mention_of_mem hw]
    cases hf : w.fault? with
    | none => rfl
    | some f => exact (if_pos (List.mem_filterMap.mpr ⟨w, hw, hf⟩)).symm
  · have hnames : (p.mention w r).names = p.names ++ [w] := by rw [mention, if_neg hw]
    rw [faults, hnames, List.filterMap_append]
    cases hf : w.fault? with
    | none =>
      rw [List.filterMap_cons_none hf]
      exact List.append_nil _
    | some f =>
      obtain rfl : w = .stub (.fault f) := by
        rcases w with k | s | ⟨part, n⟩
        · cases hf
        · cases s <;> cases hf
          rfl
        · cases hf
      exact (if_neg (mt mem_faults_iff.mp hw)).symm

/-- **Step.** A line adds the fault that it leads to. -/
theorem faults_line (p : Plan) (referrer : Cell) {l : Line}
    (hl : ∀ f, l ≠ .place (.stub (.fault f))) :
    (p.line referrer l).faults = addNew p.faults l.fault? := by
  cases l with
  | op i => rfl
  | jmp t | jcc c t | call t =>
    refine (p.faults_mention (t.owner p.part) (some referrer)).trans ?_
    cases t with
    | stub s => cases s <;> rfl
    | _ => rfl
  | place t =>
    refine (p.faults_mention (t.owner p.part) none).trans ?_
    cases t with
    | stub s =>
      cases s with
      | fault f => exact absurd rfl (hl f)
      | _ => rfl
    | _ => rfl

/-- **Run.** Lines after lines add the faults that they lead to. -/
theorem faults_foldl_line (referrer : Cell) (ls : List Line)
    (hls : ∀ f, .place (.stub (.fault f)) ∉ ls) {p : Plan}
    {before : List Line} (hp : p.faults = faultsOf before) :
    (ls.foldl (fun p l => p.line referrer l) p).faults = faultsOf (before ++ ls) := by
  induction ls generalizing p before with
  | nil => rw [List.append_nil, List.foldl_nil, hp]
  | cons l ls ih =>
    have hfirst : (p.line referrer l).faults = faultsOf (before ++ [l]) := by
      rw [faultsOf_concat, ← hp]
      exact p.faults_line referrer fun f hl => hls f (hl ▸ List.mem_cons_self)
    rw [List.foldl_cons, ih (fun f hf => hls f (List.mem_cons_of_mem _ hf)) hfirst,
      List.append_assoc]
    rfl

/-- **Run.** Templates after lines add the faults that they lead to. -/
theorem faults_templates (ts : List (Cell × List Line))
    (hts : ∀ t ∈ ts, ∀ f, .place (.stub (.fault f)) ∉ t.2)
    {p : Plan} {before : List Line} (hp : p.faults = faultsOf before) :
    (p.templates ts).faults = faultsOf (before ++ ts.flatMap Prod.snd) := by
  induction ts generalizing p before with
  | nil =>
    rw [List.flatMap_nil, List.append_nil]
    exact hp
  | cons t ts ih =>
    have hfirst : (p.lines t.1 t.2).faults = faultsOf (before ++ t.2) :=
      faults_foldl_line t.1 t.2 (hts t List.mem_cons_self) (p := p.begin) hp
    rw [List.flatMap_cons, ← List.append_assoc]
    exact ih (fun t' ht' => hts t' (List.mem_cons_of_mem _ ht')) hfirst

theorem faults_ofListing (his : ∀ i ∈ is, i.Passes ctx) :
    (ofListing ctx is).faults = faultsOf (is.flatMap (Instruction.body ctx)) := by
  rw [ofListing_eq, faults_templates (listingParts ctx is) ?_
      (show ({} : Plan).faults = faultsOf [] from rfl),
    List.nil_append, listingParts, List.flatMap_cons, List.flatMap_map]
  · rfl
  · intro t ht f hplace
    rcases List.mem_cons.mp ht with rfl | ht
    · revert hplace
      cases f <;> decide
    · obtain ⟨i, hi, rfl⟩ := List.mem_map.mp ht
      have howner : .stub (.fault f) ∈ owners 0 (i.body ctx) :=
        List.mem_map.mpr ⟨.stub (.fault f), List.mem_filterMap.mpr ⟨_, hplace, rfl⟩, rfl⟩
      rcases mem_owners_body (his i hi) howner with ⟨kind, h⟩ | ⟨n, h⟩
      · cases h
      · cases h

end Plan

/-! ## Section 4: Blocks one after the other -/

/-- Where the blocks of instructions start when the first one starts at an offset, and
    where the last one ends. -/
def blockStarts (ctx : Context) : Nat → List Instruction → List Nat
  | o, [] => [o]
  | o, i :: is => o :: blockStarts ctx (o + linesSize (i.body ctx)) is

theorem head?_blockStarts (ctx : Context) (o : Nat) (is : List Instruction) :
    (blockStarts ctx o is).head? = some o := by cases is <;> rfl

theorem blockStarts_concat (ctx : Context) (o : Nat) (is : List Instruction) (i : Instruction) :
    blockStarts ctx o (is ++ [i]) =
      blockStarts ctx o is ++ [o + linesSize ((is ++ [i]).flatMap (Instruction.body ctx))] := by
  induction is generalizing o with
  | nil => simp [blockStarts]
  | cons j is ih =>
    rw [List.cons_append, blockStarts, ih, blockStarts, List.flatMap_cons,
      linesSize_append, Nat.add_assoc]
    rfl

/-- **Run.** The blocks ascend from the first start to the last end. -/
theorem blockStarts_ascend (ctx : Context) (o : Nat) (is : List Instruction) :
    (blockStarts ctx o is).Pairwise (· ≤ ·) ∧
    ∀ s ∈ blockStarts ctx o is, o ≤ s ∧ s ≤ o + linesSize (is.flatMap (Instruction.body ctx)) := by
  induction is generalizing o with
  | nil => simp [blockStarts, linesSize]
  | cons i is ih =>
    obtain ⟨hpairwise, hbounds⟩ := ih (o + linesSize (i.body ctx))
    rw [List.flatMap_cons, linesSize_append]
    constructor
    · refine hpairwise.cons fun s hs => ?_
      have := hbounds s hs
      omega
    · intro s hs
      rcases List.mem_cons.mp hs with rfl | hs
      · omega
      · have := hbounds s hs
        omega

/-- **Run.** A block starts where the blocks before it end, and it ends where the next one
    starts. -/
theorem blockStarts_split (ctx : Context) (o : Nat) (before : List Instruction) (i : Instruction)
    (after : List Instruction) :
    (blockStarts ctx o (before ++ i :: after))[before.length]? =
      some (o + linesSize (before.flatMap (Instruction.body ctx))) ∧
    (blockStarts ctx o (before ++ i :: after))[before.length + 1]? =
      some (o + linesSize (before.flatMap (Instruction.body ctx)) + linesSize (i.body ctx)) := by
  induction before generalizing o with
  | nil => exact ⟨rfl, (List.head?_eq_getElem? ..).symm.trans (head?_blockStarts ctx _ after)⟩
  | cons j before ih =>
    rw [List.flatMap_cons, linesSize_append, ← Nat.add_assoc]
    exact ih (o + linesSize (j.body ctx))

/-- Where the stubs of the faults start. -/
def stubsStart (ctx : Context) (is : List Instruction) : Nat :=
  linesSize prologue + linesSize (is.flatMap (Instruction.body ctx))

theorem Plan.length_ofListing (ctx : Context) (is : List Instruction) :
    (ofListing ctx is).code.length = stubsStart ctx is := by
  rw [ofListing_eq, length_templates, listingParts, List.flatMap_cons, List.flatMap_map,
    linesSize_append]
  exact Nat.zero_add _

/-- **Run.** A translation maps the address of each instruction to the start of its block. -/
theorem Compilation.map_foldl (ctx : Context) (is : List Instruction) :
    (is.foldl (append ctx) start).map.toList.map Prod.fst = is.map Instruction.address ∧
    (is.foldl (append ctx) start).map.toList.map Prod.snd ++ [stubsStart ctx is] =
      blockStarts ctx (linesSize prologue) is := by
  induction is using List.reverseRecOn with
  | nil => exact ⟨rfl, rfl⟩
  | append_singleton is i ih =>
    obtain ⟨hfst, hsnd⟩ := ih
    have hoffset : (is.foldl (append ctx) start).asm.offset = stubsStart ctx is :=
      (follows_foldl ctx is).buffer.offset_eq.trans (Plan.length_ofListing ctx is)
    have hmap : ((is ++ [i]).foldl (append ctx) start).map.toList =
        (is.foldl (append ctx) start).map.toList ++ [(i.address, stubsStart ctx is)] := by
      rw [List.foldl_append, List.foldl_cons, List.foldl_nil, ← hoffset]
      exact Array.toList_push
    rw [hmap, List.map_append, List.map_append, List.map_append, hfst, blockStarts_concat, ← hsnd]
    exact ⟨rfl, rfl⟩

/-! ## Section 5: What the code map says -/

/-- The bytes of the block of an instruction, with all distances zero. -/
def Instruction.block (ctx : Context) (i : Instruction) : List Byte := linesBytes (i.body ctx)

/-- The faults that the blocks of instructions lead to. -/
def listingFaults (ctx : Context) (is : List Instruction) : List Fault :=
  faultsOf (is.flatMap (Instruction.body ctx))

def programLines (ctx : Context) (is : List Instruction) : List Line :=
  prologue ++ is.flatMap (Instruction.body ctx) ++ (listingFaults ctx is).flatMap faultLines

/-- The bytes of a whole program with all distances zero: its start, the blocks,
    and a stub for each fault. -/
def programBytes (ctx : Context) (is : List Instruction) : List Byte :=
  linesBytes prologue ++ is.flatMap (Instruction.block ctx) ++
    (listingFaults ctx is).flatMap fun f => linesBytes (faultLines f)

/-- The facts that a header has about an image, with the names of its natives. -/
def Context.ofHeader (config : Config) (h : Header) (dataSize : Nat)
    (natives : List (Option String)) : Context :=
  { config, cod := h.cod, dat := h.dat, codeSize := h.codeSize, dataSize, natives }

/-- The starts of the blocks in the code map, and then the start of the stubs of the faults. -/
def Program.starts (p : Program) (ctx : Context) (is : List Instruction) : List Nat :=
  p.map.toList.map Prod.snd ++ [stubsStart ctx is]

/-- The code map of a program describes its code as blocks of these instructions. -/
structure Program.Describes (p : Program) (ctx : Context) (is : List Instruction) : Prop where
  /-- The addresses are those of the instructions. -/
  addresses : p.map.toList.map Prod.fst = is.map Instruction.address
  ascending : (p.map.toList.map Prod.fst).Pairwise fun a b => a.toInt < b.toInt
  /-- The first block starts where the code ends that every program starts with. -/
  first : (p.starts ctx is).head? = some (linesSize prologue)
  ordered : (p.starts ctx is).Pairwise (· ≤ ·)
  bounded : ∀ o ∈ p.starts ctx is, o ≤ p.size
  /-- Between two starts, with the distances zeroed, are the bytes of the block. -/
  block : ∀ k i o o', is[k]? = some i → (p.starts ctx is)[k]? = some o →
    (p.starts ctx is)[k + 1]? = some o' →
    (p.code.slice o o').zeroed (distances 0 (i.body ctx)) = (i.block ctx).toArray
  /-- There is nothing else in the code. -/
  whole : p.code.zeroed (distances 0 (programLines ctx is)) = (programBytes ctx is).toArray
  once : (listingFaults ctx is).Nodup

section
variable {ctx : Context} {is : List Instruction}

/-- The templates of a program have its lines. -/
theorem flatMap_programParts_eq (his : ∀ i ∈ is, i.Passes ctx) :
    (programParts ctx is).flatMap Prod.snd = programLines ctx is := by
  rw [flatMap_programParts, Plan.faults_ofListing his, programLines, listingFaults,
    List.append_assoc]

theorem linesBytes_programLines (ctx : Context) (is : List Instruction) :
    linesBytes (programLines ctx is) = programBytes ctx is := by
  rw [programLines, programBytes, linesBytes_append, linesBytes_append, linesBytes,
    linesBytes, linesBytes, List.flatMap_assoc, List.flatMap_assoc]
  rfl

end

namespace Program

variable {p : Program} {ctx : Context} {is : List Instruction} {code : Block}

theorem Finishes.zeroed_slice (h : p.Finishes ctx is) (before ls after : List Line)
    (hlines : programLines ctx is = before ++ ls ++ after) :
    (p.code.slice (linesSize before) (linesSize before + linesSize ls)).zeroed (distances 0 ls) =
      (linesBytes ls).toArray := by
  obtain ⟨hcode, hbranches⟩ := Plan.templates_add (programParts ctx is) {}
  rw [flatMap_programParts_eq h.passes, hlines] at hcode hbranches
  exact h.finished.zeroed hcode hbranches

theorem Finishes.size_eq (h : p.Finishes ctx is) :
    p.code.size = linesSize (programLines ctx is) := by
  rw [h.finished.size, Plan.ofProgram, Plan.length_templates, flatMap_programParts_eq h.passes]
  exact Nat.zero_add _

/-- A finished program with the code map of its translation is described by it. -/
theorem Finishes.describes (h : p.Finishes ctx is)
    (hmap : p.map = (is.foldl (Compilation.append ctx) Compilation.start).map)
    (hascending : is.Pairwise fun i j => i.address.toInt < j.address.toInt) :
      p.Describes ctx is := by
  obtain ⟨hfst, hsnd⟩ := Compilation.map_foldl ctx is
  rw [← hmap] at hfst hsnd
  have hstarts : p.starts ctx is = blockStarts ctx (linesSize prologue) is := hsnd
  obtain ⟨hordered, hbounds⟩ := blockStarts_ascend ctx (linesSize prologue) is
  refine ⟨hfst, ?_, ?_, ?_, ?_, ?_, ?_, ?_⟩
  · rw [hfst]
    exact List.pairwise_map.mpr hascending
  · rw [hstarts, head?_blockStarts]
  · rw [hstarts]
    exact hordered
  · intro o ho
    have hle := (hbounds o (hstarts ▸ ho)).2
    show o ≤ p.code.size
    rw [h.size_eq, programLines, linesSize_append, linesSize_append]
    omega
  -- The code of an instruction stands between two entries, for the next entry starts where it ends.
  · intro k i o o' hi ho ho'
    obtain ⟨before, after, hsplit, hlength⟩ := exists_split hi
    obtain ⟨hstart, hend⟩ := blockStarts_split ctx (linesSize prologue) before i after
    rw [← hsplit, ← hstarts, hlength] at hstart hend
    obtain rfl := Option.some_inj.mp (hstart.symm.trans ho)
    obtain rfl := Option.some_inj.mp (hend.symm.trans ho')
    rw [← linesSize_append]
    refine h.zeroed_slice (prologue ++ before.flatMap (Instruction.body ctx)) (i.body ctx)
      (after.flatMap (Instruction.body ctx) ++ (listingFaults ctx is).flatMap faultLines) ?_
    rw [programLines, hsplit, List.flatMap_append, List.flatMap_cons]
    simp only [List.append_assoc]
  · have hwhole := h.zeroed_slice [] (programLines ctx is) [] (List.append_nil _).symm
    have hall : p.code.slice (linesSize []) (linesSize [] + linesSize (programLines ctx is)) =
        p.code := by
      rw [← h.size_eq]
      exact Array.extract_eq_self_of_le (Nat.le_add_left _ _)
    rw [hall] at hwhole
    rw [hwhole, linesBytes_programLines]
  · rw [listingFaults, ← Plan.faults_ofListing h.passes]
    exact Plan.nodup_faults (Compilation.follows_foldl ctx is).sound

theorem map_of_compile (hlisting : Decodes code 0 is none) (h : compile ctx code = .ok p) :
    p.map = (is.foldl (Compilation.append ctx) Compilation.start).map := by
  obtain ⟨c, htranslate, hfinalize⟩ := bind_eq_ok.mp h
  obtain ⟨is', hlisting', -, -, rfl⟩ := Compilation.eq_of_translate htranslate
  obtain ⟨rfl, -⟩ := hlisting.unique hlisting'
  split at hfinalize
  · cases hfinalize
    rfl
  · cases hfinalize

end Program

/-- The disassembler lists a code segment that can be decoded to its end. -/
theorem Decodes.instructions_eq {code : Block} {is : List Instruction}
    (h : Decodes code 0 is none) : code.instructions = .ok is := by
  rw [Block.instructions, h.remaining_eq, List.mapM_map]
  exact List.mapM_pure.trans (congrArg _ (List.map_id' is))

/-- **Code map.** When an image compiles, the addresses of the code map are those that the
    disassembler lists, ascending, and the starts that they have ascend from the end of the code
    that every program starts with to the end of the code. From the start of an instruction to
    the start of the next one, or to the first stub of a fault, are the bytes of its block: with
    the distances zeroed they depend on the instruction, the configuration, the header, the size
    of the data and the names of the natives, and on nothing that comes before. The whole code
    is its start, the blocks, and one stub for each fault that the blocks lead to, in the order
    of the first branches there. -/
theorem code_map_describes_code {image : Block} {vm : Instance} {config : Config} {p : Program}
    (hload : Instance.load image = .ok vm) (hcompile : Program.ofInstance config vm = .ok p) :
    ∃ is, vm.code.instructions = .ok is ∧ p.Describes (.ofHeader config vm.header vm.dataSize
      ((List.range vm.header.nativeTable.len).map vm.nativeName?)) is := by
  obtain ⟨-, hsize⟩ := Instance.size_code hload
  obtain ⟨is, hlisting, -, hfinishes, -⟩ := Program.finishes_of_compile hcompile
  refine ⟨is, hlisting.instructions_eq,
    hfinishes.describes (Program.map_of_compile hlisting hcompile) ?_⟩
  refine hlisting.ascending.imp_of_mem fun hi hj hlt => ?_
  rw [hlisting.toInt_address hsize hi, hlisting.toInt_address hsize hj]
  exact Int.ofNat_lt.mpr hlt

/-- A division, a load and the end of a program are three blocks, and the faults of
    the first two have stubs. -/
theorem site_program_is_three_blocks :
    ∃ p, Program.ofInstance {} siteInstance = .ok p ∧ p.map.toList.map Prod.fst = [0, 4, 8] ∧
      p.Describes (.ofInstance {} siteInstance) siteListing ∧
      listingFaults (.ofInstance {} siteInstance) siteListing = [.divide, .memoryAccess] := by
  obtain ⟨p, hp⟩ := compiles_siteInstance
  obtain ⟨is, his, hdescribes⟩ := code_map_describes_code load_siteImage hp
  obtain rfl := Except.ok.inj (decodes_siteListing.instructions_eq.symm.trans his)
  exact ⟨p, hp, hdescribes.addresses, hdescribes, by decide +kernel⟩

/-- **Finishing.** When an image with at most 2^25 bytes of code has been translated, its code
    buffer can be finished. The buffer holds the start of the program, the block of each
    instruction and the stubs of the faults; the block of an instruction has at most 128 bytes
    for each of its cells. Every label that the buffer refers to is bound, and the distance to
    it fits in the four bytes of a branch. -/
theorem finishing_never_fails {vm : Instance} {config : Config} {c : Compilation}
    (hsize : vm.code.size ≤ 0x2000000)
    (htranslate : Compilation.translate (.ofInstance config vm) vm.code = .ok c) :
    ∃ is, vm.code.instructions = .ok is ∧
      c.asm.buffer.code.toList = programBytes (.ofInstance config vm) is ∧
      (∀ i ∈ is, (i.block (.ofInstance config vm)).length ≤ 128 * (1 + i.operands.length)) ∧
      c.asm.buffer.Resolved ∧ ∃ p, Program.ofInstance config vm = .ok p ∧
      c.asm.buffer.finish = .ok p.code := by
  obtain ⟨is, hlisting, hpasses, hmissing, rfl⟩ := Compilation.eq_of_translate htranslate
  have hfollows := Assembly.follows_empty.templates (programParts (.ofInstance config vm) is)
  rw [← Compilation.asm_addStubs] at hfollows
  have hresolved := hfollows.buffer.resolved hlisting hsize hpasses hmissing
  have hbytes := (Plan.templates_add (programParts (.ofInstance config vm) is) {}).1
  rw [flatMap_programParts_eq hpasses, linesBytes_programLines] at hbytes
  refine ⟨is, hlisting.instructions_eq, hfollows.buffer.code.trans hbytes,
    fun i hi => ?_, hresolved, ?_⟩
  · obtain ⟨ls, hls, hbody, -⟩ := (hpasses i hi).template
    rw [Instruction.block, length_linesBytes, hbody]
    exact Nat.le_trans (Nat.le_of_eq (Nat.zero_add _)) (linesSize_template hls)
  · exact Compilation.exists_program htranslate hfollows hresolved

/-- In the code of a division and a load, the distances lead to places inside the template of the
    division, to the stubs of two faults and to the end of all halts. -/
theorem site_program_finishes : ∃ c p, siteInstance.code.size ≤ 0x2000000 ∧
    Compilation.translate (.ofInstance {} siteInstance) siteInstance.code = .ok c ∧
    c.asm.buffer.finish = .ok p.code ∧ Program.ofInstance {} siteInstance = .ok p := by
  obtain ⟨c, htranslate, -⟩ := bind_eq_ok.mp compiles_siteInstance.choose_spec
  have hsize : siteInstance.code.size ≤ 0x2000000 := by decide +kernel
  obtain ⟨is, -, -, -, -, p, hp, hfinish⟩ := finishing_never_fails hsize htranslate
  exact ⟨c, p, hsize, htranslate, hfinish, hp⟩

end PawnNative
