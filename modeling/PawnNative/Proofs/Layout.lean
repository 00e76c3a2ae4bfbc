import PawnNative.Code.Readings
import PawnNative.Proofs.Encoding
import PawnNative.Proofs.Patching
import PawnNative.Proofs.Plan

/-! # Where lines stand in finished code

    Finished code holds the lines of a plan one after the other. An instruction
    reads back as itself; a branch reads back with a distance that leads from its
    end to the place of its target; a place is where the target was placed.
    `Block.Holds` says this of the lines of a template from an offset on.

    A distance is filled in after everything has been placed, so what a branch
    says depends on the whole plan. The proof goes through the lines once, with
    the plan so far and the whole plan, which continues it.
-/

namespace PawnNative

open X64

/-! ## Section 1: Reading code -/

theorem Block.readAt_of_bytes {code : Block} {o : Nat} {i : Instr}
    (h : ∀ k < i.encode.length, code[o + k]? = i.encode[k]?) :
    code.readAt o = some (i, i.encode.length) := by
  have hlength := length_encode i
  have hmax : maxInstrLength = 15 := rfl
  -- The window starts with the encoding, whatever comes after it.
  have hwindow : ∃ rest, (code.extract o (o + maxInstrLength)).toList = i.encode ++ rest := by
    refine ⟨(code.extract o (o + maxInstrLength)).toList.drop i.encode.length, ?_⟩
    have htake : (code.extract o (o + maxInstrLength)).toList.take i.encode.length = i.encode := by
      apply List.ext_getElem?
      intro k
      rw [List.getElem?_take]
      split_ifs with hk
      · have hbyte := h k hk
        rw [List.getElem?_eq_getElem hk] at hbyte
        obtain ⟨hin, -⟩ := Array.getElem?_eq_some_iff.mp hbyte
        rw [Array.getElem?_toList, Array.getElem?_extract, if_pos (by omega), h k hk]
      · rw [List.getElem?_eq_none (by omega)]
    conv_lhs => rw [← List.take_append_drop i.encode.length
      (code.extract o (o + maxInstrLength)).toList]
    rw [htake]
  obtain ⟨rest, hrest⟩ := hwindow
  simp only [readAt, hrest, decode_encode, Option.map_some, List.length_append]
  rw [Nat.add_sub_cancel]

def Line.size (l : Line) : Nat := l.bytes.length

/-- A line stands at an offset of finished code, when targets are where `find` says. -/
def Line.Stands (code : Block) (find : Target → Option Nat) (o : Nat) : Line → Prop
  | .op i => code.readAt o = some (i, i.encode.length)
  | .jmp t => ∃ d dest, code.readAt o = some (.jmp d, 5) ∧ find t = some dest ∧
      (o + 5 : Int) + d.toInt = dest
  | .jcc c t => ∃ d dest, code.readAt o = some (.jcc c d, 6) ∧ find t = some dest ∧
      (o + 6 : Int) + d.toInt = dest
  | .call t => ∃ d dest, code.readAt o = some (.call d, 5) ∧ find t = some dest ∧
      (o + 5 : Int) + d.toInt = dest
  | .place t => find t = some o

/-- Lines stand one after the other from an offset of finished code on. -/
def Block.Holds (code : Block) (find : Target → Option Nat) : Nat → List Line → Prop
  | _, [] => True
  | o, l :: ls => l.Stands code find o ∧ code.Holds find (o + l.size) ls

def linesSize : List Line → Nat
  | [] => 0
  | l :: ls => l.size + linesSize ls

theorem linesSize_append (ls ls' : List Line) :
    linesSize (ls ++ ls') = linesSize ls + linesSize ls' := by
  induction ls with
  | nil => exact (Nat.zero_add _).symm
  | cons l ls ih => rw [List.cons_append, linesSize, ih, linesSize, Nat.add_assoc]

theorem Block.holds_append {code : Block} {find : Target → Option Nat} {o : Nat}
    {ls ls' : List Line} :
    code.Holds find o (ls ++ ls') ↔ code.Holds find o ls ∧
    code.Holds find (o + linesSize ls) ls' := by
  induction ls generalizing o with
  | nil => simp [Holds, linesSize]
  | cons l ls ih =>
    have hsum : o + l.size + linesSize ls = o + linesSize (l :: ls) := Nat.add_assoc ..
    rw [List.cons_append, Holds, ih, Holds, hsum, and_assoc]

/-! ## Section 2: Plans that continue plans -/

namespace Plan

/-- The branches of a plan are inside its code and do not overlap. -/
structure Ordered (p : Plan) : Prop where
  inside : ∀ e ∈ p.branches, e.1 + 4 ≤ p.code.length
  apart : p.branches.Pairwise fun e f => e.1 + 4 ≤ f.1

/-- A plan that was made by adding to another one. -/
structure Continues (q p : Plan) : Prop where
  code : ∃ more, q.code = p.code ++ more
  branches : ∃ more, q.branches = p.branches ++ more ∧ ∀ e ∈ more, p.code.length ≤ e.1

variable {p q r : Plan}

theorem Continues.refl (p : Plan) : p.Continues p :=
  ⟨⟨[], by simp⟩, ⟨[], by simp⟩⟩

theorem Continues.length_le (h : q.Continues p) : p.code.length ≤ q.code.length := by
  obtain ⟨more, hmore⟩ := h.code
  rw [hmore, List.length_append]
  omega

theorem Continues.trans (hr : r.Continues q) (hq : q.Continues p) : r.Continues p := by
  obtain ⟨⟨code₁, hcode₁⟩, branches₁, hbranches₁, hlow₁⟩ := hq
  obtain ⟨⟨code₂, hcode₂⟩, branches₂, hbranches₂, hlow₂⟩ := hr
  refine ⟨⟨code₁ ++ code₂, ?_⟩, branches₁ ++ branches₂, ?_, ?_⟩
  · rw [hcode₂, hcode₁, List.append_assoc]
  · rw [hbranches₂, hbranches₁, List.append_assoc]
  · intro e he
    rcases List.mem_append.mp he with he | he
    · exact hlow₁ e he
    · have hle := hlow₂ e he
      rw [hcode₁, List.length_append] at hle
      omega

theorem Line.four_le_size_of_target {l : Line} {t : Target} (h : l.target? = some t) :
    4 ≤ l.size := by
  cases l with
  | op i => cases h
  | place t' => cases h
  | jmp t' => exact Nat.le_of_ble_eq_true rfl
  | jcc c t' => exact Nat.le_of_ble_eq_true rfl
  | call t' => exact Nat.le_of_ble_eq_true rfl

section
variable (p : Plan) (referrer : Cell) (l : Line)

theorem line_adds :
    (p.line referrer l).code = p.code ++ l.bytes ∧
    (p.line referrer l).branches = p.branches ++
      (l.target?.map fun t => (p.code.length + l.size - 4, t.owner p.part)).toList := by
  cases l <;> simp [line, branch, place, Line.bytes, Line.target?, Line.size]

theorem length_line : (p.line referrer l).code.length = p.code.length + l.size := by
  rw [(p.line_adds referrer l).1, List.length_append, Line.size]

theorem part_line : (p.line referrer l).part = p.part := by
  cases l <;> simp [line, branch, place]

theorem line_continues : (p.line referrer l).Continues p := by
  obtain ⟨hcode, hbranches⟩ := p.line_adds referrer l
  refine ⟨⟨_, hcode⟩, _, hbranches, ?_⟩
  intro e he
  cases ht : l.target? with
  | none => simp [ht] at he
  | some t =>
    have hsize := Line.four_le_size_of_target ht
    simp only [ht, Option.map_some, Option.toList_some, List.mem_singleton] at he
    rw [he]
    show p.code.length ≤ p.code.length + l.size - 4
    omega

end

theorem Ordered.line (h : p.Ordered) (referrer : Cell) (l : Line) :
    (p.line referrer l).Ordered := by
  obtain ⟨hcode, hbranches⟩ := p.line_adds referrer l
  obtain ⟨-, more, hmore, hlow⟩ := p.line_continues referrer l
  have hlength := p.length_line referrer l
  have hnew : ∀ e ∈ (l.target?.map fun t =>
      (p.code.length + l.size - 4, t.owner p.part)).toList,
      e.1 = p.code.length + l.size - 4 ∧ 4 ≤ l.size := by
    intro e he
    cases ht : l.target? with
    | none => simp [ht] at he
    | some t =>
      simp only [ht, Option.map_some, Option.toList_some, List.mem_singleton] at he
      exact ⟨by rw [he], Line.four_le_size_of_target ht⟩
  constructor
  · intro e he
    rw [hbranches, List.mem_append] at he
    rcases he with he | he
    · have hin := h.inside e he
      omega
    · obtain ⟨he, hsize⟩ := hnew e he
      omega
  · rw [hbranches, List.pairwise_append]
    refine ⟨h.apart, ?_, ?_⟩
    · cases l.target? <;> simp
    · intro e he f hf
      obtain ⟨hf, hsize⟩ := hnew f hf
      have hin := h.inside e he
      omega

/-- **Run.** Lines continue a plan, and keep its branches in order. -/
theorem foldl_line_continues (ls : List Line) (p : Plan) (referrer : Cell) :
    (ls.foldl (fun p l => p.line referrer l) p).Continues p := by
  induction ls generalizing p with
  | nil => exact .refl p
  | cons l ls ih => exact (ih _).trans (p.line_continues referrer l)

theorem lines_continues (p : Plan) (referrer : Cell) (ls : List Line) :
    (p.lines referrer ls).Continues p := by
  obtain ⟨hcode, hbranches⟩ := foldl_line_continues ls p.begin referrer
  exact ⟨hcode, hbranches⟩

theorem Ordered.lines (h : p.Ordered) (referrer : Cell) (ls : List Line) :
    (p.lines referrer ls).Ordered := by
  have run : ∀ (ls : List Line) (q : Plan), q.Ordered →
      (ls.foldl (fun p l => p.line referrer l) q).Ordered := by
    intro ls
    induction ls with
    | nil => exact fun q hq => hq
    | cons l ls ih => exact fun q hq => ih _ (hq.line referrer l)
  exact run ls p.begin ⟨h.inside, h.apart⟩

end Plan

/-! ## Section 3: Finished plans -/

/-- Finished code of a plan: every branch holds its distance, and the other bytes are as planned. -/
structure Plan.Finished (p : Plan) (code : Block) : Prop where
  ordered : p.Ordered
  size : code.size = p.code.length
  frame : ∀ j, (∀ e ∈ p.branches, j < e.1 ∨ e.1 + 4 ≤ j) → code[j]? = p.code[j]?
  slot : ∀ e ∈ p.branches, ∃ d dest, p.placed e.2 = some dest ∧
    (e.1 + 4 : Int) + d.toInt = dest ∧ ∀ k < 4, code[e.1 + k]? = (Cell.bytes d)[k]?

theorem CodeBuffer.Follows.labelOffset? {b : CodeBuffer} {p : Plan} {w : Owner} (h : b.Follows p)
    (hw : w ∈ p.names) : b.labelOffset? (p.label w) = p.placed w := by
  have hlt : p.names.idxOf w < p.names.length := List.idxOf_lt_length_iff.mpr hw
  rw [CodeBuffer.labelOffset?, ← Array.getElem?_toList, h.labels, List.getElem?_map, Plan.label,
    List.getElem?_eq_getElem hlt, List.getElem_idxOf hlt]
  rfl

/-- Finishing a buffer gives finished code of the plan that it follows. -/
theorem CodeBuffer.Follows.finished {b : CodeBuffer} {p : Plan} {code : Block} (h : b.Follows p)
    (hsound : p.Sound) (hordered : p.Ordered) (hfinish : b.finish = .ok code) :
    p.Finished code := by
  have hapart : Apart b.refs.toList := by
    rw [Apart, h.refs, List.pairwise_map]
    exact hordered.apart
  have hroom : ∀ r ∈ b.refs.toList, r.offset + 4 ≤ b.code.size := by
    intro r hr
    rw [h.refs, List.mem_map] at hr
    obtain ⟨e, he, rfl⟩ := hr
    rw [← Array.length_toList, h.code]
    exact hordered.inside e he
  obtain ⟨hsize, hframe, hslot⟩ := foldlM_patch_spec hapart hroom hfinish
  refine ⟨hordered, ?_, ?_, ?_⟩
  · rw [hsize, ← h.code, Array.length_toList]
  · intro j hj
    rw [hframe j, ← h.code, Array.getElem?_toList]
    intro r hr hcovers
    rw [h.refs, List.mem_map] at hr
    obtain ⟨e, he, rfl⟩ := hr
    have hout := hj e he
    obtain ⟨hlow, hhigh⟩ := hcovers
    dsimp only at hlow hhigh
    omega
  · intro e he
    obtain ⟨d, hd, hbytes⟩ :=
      hslot ⟨e.1, p.label e.2⟩ (by rw [h.refs]; exact List.mem_map.mpr ⟨e, he, rfl⟩)
    obtain ⟨dest, hdest, hsum⟩ := toInt_distance hd
    refine ⟨d, dest, ?_, hsum, hbytes⟩
    rw [← h.labelOffset? (hsound.branch_mem e he)]
    exact hdest

namespace Plan

variable {p q : Plan} {code : Block}

theorem Finished.bytes (h : q.Finished code) (hp : p.Ordered) {referrer : Cell} {l : Line}
    (hq : q.Continues (p.line referrer l)) {k : Nat} (hk : k < l.size)
    (hslot : l.target? = none ∨ k + 4 < l.size) :
    code[p.code.length + k]? = l.bytes[k]? := by
  obtain ⟨hcode, hbranches⟩ := p.line_adds referrer l
  obtain ⟨⟨moreCode, hmoreCode⟩, moreBranches, hmoreBranches, hlow⟩ := hq
  have hlength := p.length_line referrer l
  have hplanned : q.code[p.code.length + k]? = l.bytes[k]? := by
    rw [hmoreCode, hcode, List.append_assoc, List.getElem?_append_right (by omega),
      Nat.add_sub_cancel_left, List.getElem?_append_left hk]
  rw [← hplanned]
  -- Branches before the line end before it, and branches after it start after it.
  refine h.frame _ fun e he => ?_
  rw [hmoreBranches, hbranches, List.mem_append, List.mem_append] at he
  rcases he with (he | he) | he
  · have hin := hp.inside e he
    omega
  · cases ht : l.target? with
    | none => simp [ht] at he
    | some t =>
      simp only [ht, Option.map_some, Option.toList_some, List.mem_singleton] at he
      rcases hslot with hnone | hlead
      · cases ht.symm.trans hnone
      · rw [he]
        left
        show p.code.length + k < p.code.length + l.size - 4
        omega
  · have hafter := hlow e he
    omega

theorem Finished.branch (h : q.Finished code) (hp : p.Ordered) {referrer : Cell} {l : Line}
    {t : Target} (ht : l.target? = some t) (hq : q.Continues (p.line referrer l))
    (lead : List Byte) (hbytes : l.bytes = lead ++ Cell.bytes 0) :
    ∃ d dest, q.placed (t.owner p.part) = some dest ∧
      (p.code.length + l.size : Int) + d.toInt = dest ∧
      ∀ k < (lead ++ Cell.bytes d).length, code[p.code.length + k]? =
        (lead ++ Cell.bytes d)[k]? := by
  obtain ⟨-, hbranches⟩ := p.line_adds referrer l
  obtain ⟨-, more, hmore, -⟩ := id hq
  have hfour : ∀ c : Cell, c.bytes.length = 4 := fun _ => rfl
  have hsize : l.size = lead.length + 4 := by
    rw [Line.size, hbytes, List.length_append, hfour]
  have hmem : (p.code.length + l.size - 4, t.owner p.part) ∈ q.branches := by
    rw [hmore, hbranches, ht]
    simp
  obtain ⟨d, dest, hdest, hsum, hslot⟩ := h.slot _ hmem
  refine ⟨d, dest, hdest, ?_, ?_⟩
  · dsimp only at hsum
    omega
  · intro k hk
    rw [List.length_append, hfour] at hk
    by_cases hlead : k < lead.length
    · rw [h.bytes hp hq (by omega) (Or.inr (by omega)), hbytes, List.getElem?_append_left hlead,
        List.getElem?_append_left hlead]
    · have hk4 := hslot (k - lead.length) (by omega)
      dsimp only at hk4
      rw [List.getElem?_append_right (Nat.le_of_not_lt hlead), ← hk4]
      congr 1
      omega

/-- **Step.** A line stands in the finished code where the plan put it. -/
theorem Finished.stands (h : q.Finished code) (hp : p.Ordered) {referrer : Cell} {l : Line}
    (hq : q.Continues (p.line referrer l))
    (hplaced : ∀ t, l.placed? = some t → q.placed (t.owner p.part) = some p.code.length) :
    l.Stands code (fun t => q.placed (t.owner p.part)) p.code.length := by
  cases l with
  | op i => exact Block.readAt_of_bytes fun k hk => h.bytes hp hq hk (Or.inl rfl)
  | place t => exact hplaced t rfl
  | jmp t =>
    obtain ⟨d, dest, hdest, hsum, hbytes⟩ := h.branch hp rfl hq [0xE9] rfl
    exact ⟨d, dest, Block.readAt_of_bytes (i := .jmp d) hbytes, hdest, hsum⟩
  | jcc c t =>
    obtain ⟨d, dest, hdest, hsum, hbytes⟩ :=
      h.branch hp rfl hq [0x0F, 0x8#4 ++ c.number] rfl
    exact ⟨d, dest, Block.readAt_of_bytes (i := .jcc c d) hbytes, hdest, hsum⟩
  | call t =>
    obtain ⟨d, dest, hdest, hsum, hbytes⟩ := h.branch hp rfl hq [0xE8] rfl
    exact ⟨d, dest, Block.readAt_of_bytes (i := .call d) hbytes, hdest, hsum⟩

/-! ## Section 4: Templates and programs -/

/-- The owners that the lines of a template place, in order. -/
def owners (part : Nat) (ls : List Line) : List Owner :=
  (ls.filterMap Line.placed?).map (Target.owner part)

theorem owners_cons (part : Nat) (l : Line) (ls : List Line) :
    owners part (l :: ls) = (l.placed?.map (Target.owner part)).toList ++ owners part ls := by
  cases h : l.placed? <;> simp [owners, h]

theorem placed_line (p : Plan) (referrer : Cell) (l : Line) (w : Owner) :
    (p.line referrer l).placed w =
      if l.placed?.map (Target.owner p.part) = some w then some p.code.length else p.placed w := by
  cases l <;> simp [line, branch, place, eq_comm]

theorem placed_foldl_line {w : Owner} (ls : List Line) (p : Plan) (referrer : Cell)
    (hw : w ∉ owners p.part ls) :
    (ls.foldl (fun p l => p.line referrer l) p).placed w = p.placed w := by
  induction ls generalizing p with
  | nil => rfl
  | cons l ls ih =>
    rw [owners_cons, List.mem_append, not_or] at hw
    have hl : l.placed?.map (Target.owner p.part) ≠ some w := by
      intro hsome
      exact hw.1 (by simp [hsome])
    rw [List.foldl_cons, ih _ (by rw [part_line]; exact hw.2), placed_line, if_neg hl]

/-- **Run.** The lines of a template stand in the finished code, if nothing they place is placed
    again. -/
theorem Finished.holds (h : q.Finished code) (ls : List Line) (p : Plan) (referrer : Cell)
    (hp : p.Ordered) (hnodup : (owners p.part ls).Nodup)
    (hq : q.Continues (ls.foldl (fun p l => p.line referrer l) p))
    (hlast : ∀ w ∈ owners p.part ls,
      q.placed w = (ls.foldl (fun p l => p.line referrer l) p).placed w) :
    code.Holds (fun t => q.placed (t.owner p.part)) p.code.length ls := by
  induction ls generalizing p with
  | nil => trivial
  | cons l ls ih =>
    have hpart := p.part_line referrer l
    have hlength := p.length_line referrer l
    rw [owners_cons] at hnodup hlast
    obtain ⟨-, hrest, hdisjoint⟩ := List.nodup_append.mp hnodup
    constructor
    · refine h.stands hp (hq.trans (foldl_line_continues ls _ referrer)) fun t ht => ?_
      -- The line places its target, and no later line of the template does.
      have hmem : t.owner p.part ∈ (l.placed?.map (Target.owner p.part)).toList := by simp [ht]
      have hlater : t.owner p.part ∉ owners p.part ls := fun hmem' =>
        hdisjoint _ hmem _ hmem' rfl
      rw [hlast _ (List.mem_append_left _ hmem), List.foldl_cons,
        placed_foldl_line ls _ referrer (by rw [hpart]; exact hlater), placed_line, ht]
      simp
    · have htail := ih (p.line referrer l) (hp.line referrer l) (by rw [hpart]; exact hrest) hq
        (fun w hw => hlast w (List.mem_append_right _ (by rw [hpart] at hw; exact hw)))
      rw [hpart, hlength] at htail
      exact htail

/-- Appends templates, each with the address of its instruction. -/
def templates (p : Plan) (ts : List (Cell × List Line)) : Plan :=
  ts.foldl (fun p t => p.lines t.1 t.2) p

/-- The owners that templates place, when `part` templates came before. -/
def allOwners : Nat → List (Cell × List Line) → List Owner
  | _, [] => []
  | part, t :: ts => owners (part + 1) t.2 ++ allOwners (part + 1) ts

theorem part_lines (p : Plan) (referrer : Cell) (ls : List Line) :
    (p.lines referrer ls).part = p.part + 1 := by
  have run : ∀ (ls : List Line) (q : Plan),
      (ls.foldl (fun p l => p.line referrer l) q).part = q.part := by
    intro ls
    induction ls with
    | nil => exact fun q => rfl
    | cons l ls ih => exact fun q => (ih _).trans (q.part_line referrer l)
  exact run ls p.begin

theorem templates_continues (ts : List (Cell × List Line)) (p : Plan) :
    (p.templates ts).Continues p := by
  induction ts generalizing p with
  | nil => exact .refl p
  | cons t ts ih => exact (ih _).trans (p.lines_continues t.1 t.2)

/-- **Run.** Templates add what their lines take. -/
theorem length_templates (ts : List (Cell × List Line)) (p : Plan) :
    (p.templates ts).code.length = p.code.length + linesSize (ts.flatMap Prod.snd) := by
  have run : ∀ (referrer : Cell) (ls : List Line) (q : Plan),
      (ls.foldl (fun p l => p.line referrer l) q).code.length = q.code.length + linesSize ls := by
    intro referrer ls
    induction ls with
    | nil => exact fun q => rfl
    | cons l ls ih =>
      intro q
      rw [List.foldl_cons, ih, length_line, Nat.add_assoc, linesSize]
  induction ts generalizing p with
  | nil => rfl
  | cons t ts ih =>
    have hfirst : (p.lines t.1 t.2).code.length = p.code.length + linesSize t.2 :=
      run t.1 t.2 p.begin
    rw [List.flatMap_cons, linesSize_append, ← Nat.add_assoc, ← hfirst]
    exact ih (p.lines t.1 t.2)

theorem Ordered.templates (h : p.Ordered) (ts : List (Cell × List Line)) :
    (p.templates ts).Ordered := by
  induction ts generalizing p with
  | nil => exact h
  | cons t ts ih => exact ih (h.lines t.1 t.2)

theorem placed_templates {w : Owner} (ts : List (Cell × List Line)) (p : Plan)
    (hw : w ∉ allOwners p.part ts) : (p.templates ts).placed w = p.placed w := by
  induction ts generalizing p with
  | nil => rfl
  | cons t ts ih =>
    rw [allOwners, List.mem_append, not_or] at hw
    have hrest := ih (p.lines t.1 t.2) (by rw [part_lines]; exact hw.2)
    exact hrest.trans (placed_foldl_line t.2 p.begin t.1 hw.1)

/-- **Run.** Every template of a plan stands in its finished code, if nothing is placed twice. -/
theorem Finished.holds_templates (h : q.Finished code) (ts : List (Cell × List Line)) (p : Plan)
    (hp : p.Ordered) (hnodup : (allOwners p.part ts).Nodup) (hq : q.Continues (p.templates ts))
    (hlast : ∀ w ∈ allOwners p.part ts, q.placed w = (p.templates ts).placed w)
    {before after : List (Cell × List Line)} {t : Cell × List Line}
    (hts : ts = before ++ t :: after) :
    code.Holds (fun target => q.placed (target.owner (p.part + before.length + 1)))
      (p.templates before).code.length t.2 := by
  induction before generalizing p ts with
  | nil =>
    subst hts
    rw [List.nil_append, allOwners] at hnodup hlast
    obtain ⟨hfirst, -, hdisjoint⟩ := List.nodup_append.mp hnodup
    refine h.holds t.2 p.begin t.1 ⟨hp.inside, hp.apart⟩ hfirst ?_ ?_
    · exact hq.trans (templates_continues after (p.lines t.1 t.2))
    · intro w hw
      rw [hlast w (List.mem_append_left _ hw)]
      refine placed_templates after (p.lines t.1 t.2) ?_
      rw [part_lines]
      exact fun hw' => hdisjoint w hw w hw' rfl
  | cons b before ih =>
    subst hts
    rw [List.cons_append, allOwners] at hnodup hlast
    obtain ⟨-, hrest, -⟩ := List.nodup_append.mp hnodup
    have hpart := p.part_lines b.1 b.2
    have htail := ih (before ++ t :: after) (p.lines b.1 b.2) (hp.lines b.1 b.2)
      (by rw [hpart]; exact hrest) hq
      (fun w hw => hlast w (List.mem_append_right _ (by rw [hpart] at hw; exact hw))) rfl
    rw [hpart] at htail
    rw [List.length_cons, show p.part + (before.length + 1) + 1 =
        p.part + 1 + before.length + 1 by omega]
    exact htail

end Plan

end PawnNative
