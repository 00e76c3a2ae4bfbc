import Mathlib.Tactic.Common
import PawnNative.Proofs.Branches
import PawnNative.Proofs.Conventions
import PawnNative.Proofs.NativeStack

/-! # Positions in a program

    The code of a program is one list of lines: those of all its templates, in
    order. A position is an offset together with the lines from there on. What a
    position knows is enough to follow a run: which line stands there, where its
    branch leads, and what comes after it, across the borders of templates.

    A place is the only line without bytes, so an offset that is strictly between
    the ends of lines without places is the start of no instruction.
-/

namespace PawnNative

open X64 Convention Template

/-! ## Section 1: Lines of a program -/

/-- The lines of templates in order, each with the number of its template. -/
def numbered : Nat → List (Cell × List Line) → List (Nat × Line)
  | _, [] => []
  | part, t :: ts => t.2.map (Prod.mk (part + 1)) ++ numbered (part + 1) ts

theorem map_snd_numbered (part : Nat) (ts : List (Cell × List Line)) :
    (numbered part ts).map Prod.snd = ts.flatMap Prod.snd := by
  induction ts generalizing part with
  | nil => rfl
  | cons t ts ih =>
    have hsnd : t.2.map (Prod.snd ∘ Prod.mk (part + 1)) = t.2 := List.map_id _
    rw [numbered, List.map_append, ih, List.map_map, hsnd, List.flatMap_cons]

theorem numbered_append (part : Nat) (ts us : List (Cell × List Line)) :
    numbered part (ts ++ us) = numbered part ts ++ numbered (part + ts.length) us := by
  induction ts generalizing part with
  | nil => rfl
  | cons t ts ih =>
    rw [List.cons_append, numbered, ih, numbered, List.append_assoc, List.length_cons,
      show part + 1 + ts.length = part + (ts.length + 1) by omega]

theorem numbered_eq_append {part k : Nat} {l : Line} {ts : List (Cell × List Line)}
    {pre ls : List (Nat × Line)} (h : numbered part ts = pre ++ (k, l) :: ls) :
    ∃ before t after first last, ts = before ++ t :: after ∧ t.2 = first ++ l :: last ∧
      k = part + before.length + 1 ∧ pre = numbered part before ++ first.map (Prod.mk k) := by
  induction ts generalizing part pre with
  | nil => simp [numbered] at h
  | cons t ts ih =>
    rw [numbered] at h
    rcases List.append_eq_append_iff.mp h with ⟨pre', rfl, hrest⟩ | ⟨rest, ht, hrest⟩
    · -- The line belongs to a later template.
      obtain ⟨before, t', after, first, last, rfl, ht', rfl, rfl⟩ := ih hrest
      refine ⟨t :: before, t', after, first, last, rfl, ht', ?_, ?_⟩
      · rw [List.length_cons]
        omega
      · rw [numbered, List.append_assoc]
    · cases rest with
      | nil =>
        -- The template ends just before the line, which starts the next one.
        have hrest : numbered (part + 1) ts = [] ++ (k, l) :: ls := hrest.symm
        obtain ⟨before, t', after, first, last, rfl, ht', rfl, hpre⟩ := ih hrest
        refine ⟨t :: before, t', after, first, last, rfl, ht', ?_, ?_⟩
        · rw [List.length_cons]
          omega
        · rw [List.append_nil] at ht
          rw [numbered, List.append_assoc, ← hpre, List.append_nil, ht]
      | cons line rest =>
        -- The line is inside of this template.
        obtain ⟨hline, rfl⟩ := List.cons_eq_cons.mp hrest
        obtain ⟨first, last, hlines, hfirst, hlast⟩ := List.map_eq_append_iff.mp ht
        obtain ⟨l', last', rfl, hl', -⟩ := List.map_eq_cons_iff.mp hlast
        rw [← hline] at hl'
        obtain ⟨rfl, rfl⟩ := Prod.mk.inj hl'
        exact ⟨[], t, ts, first, last', rfl, hlines, rfl, by rw [← hfirst]; rfl⟩

/-- From an offset of a program on, its lines are these. -/
def LinesFrom (ctx : Context) (is : List Instruction) (o : Nat) (ls : List Line) : Prop :=
  ∃ pre post, numbered 0 (programParts ctx is) = pre ++ post ∧ post.map Prod.snd = ls ∧
    o = linesSize (pre.map Prod.snd)

section
variable {ctx : Context} {is : List Instruction} {o : Nat} {xs ls : List Line}

theorem LinesFrom.drop (h : LinesFrom ctx is o (xs ++ ls)) :
    LinesFrom ctx is (o + linesSize xs) ls := by
  obtain ⟨pre, post, hpre, hpost, rfl⟩ := h
  obtain ⟨first, last, rfl, rfl, rfl⟩ := List.map_eq_append_iff.mp hpost
  refine ⟨pre ++ first, last, by rw [hpre, List.append_assoc], rfl, ?_⟩
  rw [List.map_append, linesSize_append]

theorem LinesFrom.tail {l : Line} (h : LinesFrom ctx is o (l :: ls)) :
    LinesFrom ctx is (o + l.size) ls := by
  have hcons : LinesFrom ctx is o ([l] ++ ls) := h
  exact hcons.drop

/-- The offset of a position inside a template. -/
theorem linesFrom_of_part {before after : List (Cell × List Line)} {t : Cell × List Line}
    (first : List Line) {last : List Line} (hparts : programParts ctx is = before ++ t :: after)
    (ht : t.2 = first ++ last) :
    LinesFrom ctx is ((({} : Plan).templates before).code.length + linesSize first)
      (last ++ after.flatMap Prod.snd) := by
  have hsnd : ∀ ls : List Line, (ls.map (Prod.mk (before.length + 1))).map Prod.snd = ls := by
    intro ls
    rw [List.map_map]
    exact List.map_id _
  refine ⟨numbered 0 before ++ first.map (Prod.mk (before.length + 1)),
    last.map (Prod.mk (before.length + 1)) ++ numbered (before.length + 1) after, ?_, ?_, ?_⟩
  · rw [hparts, numbered_append, numbered, ht, List.map_append, Nat.zero_add]
    simp only [List.append_assoc]
  · rw [List.map_append, hsnd, map_snd_numbered]
  · rw [Plan.length_templates, List.map_append, linesSize_append, map_snd_numbered, hsnd]
    exact congrArg (· + linesSize first) (Nat.zero_add _)

end

/-! ## Section 2: Two positions -/

theorem Line.size_pos {l : Line} (h : l.placed? = none) : 0 < l.size := by
  cases l with
  | op i => exact List.length_pos_of_ne_nil (encode_ne_nil i)
  | place t => cases h
  | jmp t => exact Nat.succ_pos _
  | jcc c t => exact Nat.succ_pos _
  | call t => exact Nat.succ_pos _

namespace LinesFrom

variable {ctx : Context} {is : List Instruction} {o o' : Nat} {l l' : Line} {xs ls ls' : List Line}

theorem common (h : LinesFrom ctx is o ls) (h' : LinesFrom ctx is o' ls') :
    ∃ pre pre', pre ++ ls = pre' ++ ls' ∧ o = linesSize pre ∧ o' = linesSize pre' := by
  obtain ⟨pre, post, hpre, rfl, rfl⟩ := h
  obtain ⟨pre', post', hpre', rfl, rfl⟩ := h'
  refine ⟨_, _, ?_, rfl, rfl⟩
  rw [← List.map_append, ← List.map_append, ← hpre, ← hpre']

/-- The later one of two positions stands in the lines of the earlier one. -/
theorem split (h : LinesFrom ctx is o ls) (h' : LinesFrom ctx is o' ls') (hlt : o < o') :
    ∃ mid, ls = mid ++ ls' ∧ o' = o + linesSize mid := by
  obtain ⟨pre, pre', hall, rfl, rfl⟩ := h.common h'
  rcases List.append_eq_append_iff.mp hall with ⟨mid, rfl, hmid⟩ | ⟨mid, rfl, -⟩
  · exact ⟨mid, hmid, linesSize_append pre mid⟩
  · rw [linesSize_append] at hlt
    omega

/-- **Between.** Strictly inside lines without places nothing is placed. -/
theorem not_place_inside {t : Target} (h : LinesFrom ctx is o (xs ++ ls))
    (hxs : ∀ l ∈ xs, l.placed? = none) (hlow : o < o') (hhigh : o' < o + linesSize xs) :
    ¬LinesFrom ctx is o' (.place t :: ls') := by
  intro h'
  obtain ⟨mid, hmid, rfl⟩ := h.split h' hlow
  rcases List.append_eq_append_iff.mp hmid with ⟨more, rfl, -⟩ | ⟨more, rfl, hmore⟩
  · rw [linesSize_append] at hhigh
    omega
  · cases more with
    | nil =>
      rw [List.append_nil] at hhigh
      omega
    | cons l more =>
      obtain ⟨rfl, -⟩ := List.cons_eq_cons.mp hmore
      have hnone := hxs _ (List.mem_append_right _ List.mem_cons_self)
      cases hnone

/-- Lines with bytes that end at the same offset are the same. -/
theorem eq_of_end (h : LinesFrom ctx is o (l :: ls)) (h' : LinesFrom ctx is o' (l' :: ls'))
    (hl : 0 < l.size) (hl' : 0 < l'.size) (hend : o + l.size = o' + l'.size) : l = l' := by
  -- A line before the other one would end where that one starts, or earlier.
  have hbefore : ∀ {o o' : Nat} {l l' : Line} {ls ls' : List Line}, LinesFrom ctx is o (l :: ls) →
      LinesFrom ctx is o' (l' :: ls') → o < o' → o + l.size ≤ o' := by
    intro o o' l l' ls ls' h h' hlt
    obtain ⟨mid, hmid, rfl⟩ := h.split h' hlt
    cases mid with
    | nil => exact absurd hlt (Nat.lt_irrefl o)
    | cons x mid =>
      obtain ⟨rfl, -⟩ := List.cons_eq_cons.mp hmid
      show o + l.size ≤ o + (l.size + linesSize mid)
      omega
  rcases Nat.lt_trichotomy o o' with hlt | heq | hgt
  · have := hbefore h h' hlt
    omega
  · obtain ⟨pre, pre', hall, hpre, hpre'⟩ := h.common h'
    rcases List.append_eq_append_iff.mp hall with ⟨mid, rfl, hmid⟩ | ⟨mid, rfl, hmid⟩
    · cases mid with
      | nil => exact (List.cons_eq_cons.mp hmid).1
      | cons x mid =>
        obtain ⟨rfl, -⟩ := List.cons_eq_cons.mp hmid
        rw [linesSize_append] at hpre'
        have hx : linesSize (l :: mid) = l.size + linesSize mid := rfl
        omega
    · cases mid with
      | nil => exact (List.cons_eq_cons.mp hmid).1.symm
      | cons x mid =>
        obtain ⟨rfl, -⟩ := List.cons_eq_cons.mp hmid
        rw [linesSize_append] at hpre
        have hx : linesSize (l' :: mid) = l'.size + linesSize mid := rfl
        omega
  · have := hbefore h' h hgt
    omega

/-- A position is in the code that every program starts with, or after it. -/
theorem prologue_cases (h : LinesFrom ctx is o ls) : linesSize prologue ≤ o ∨
    ∃ pre l post rest, prologue = pre ++ l :: post ∧ ls = l :: post ++ rest ∧
      o = linesSize pre := by
  obtain ⟨pre, post, hpre, rfl, rfl⟩ := h
  have hall : (numbered 0 (programParts ctx is)).map Prod.snd = prologue ++
      (is.map (Instruction.part ctx) ++
        (Plan.ofListing ctx is).faults.map Fault.part).flatMap Prod.snd := by
    rw [map_snd_numbered]
    rfl
  rw [hpre, List.map_append] at hall
  rcases List.append_eq_append_iff.mp hall with ⟨mid, hmid, hrest⟩ | ⟨mid, hmid, -⟩
  · cases mid with
    | nil =>
      rw [List.append_nil] at hmid
      rw [hmid]
      exact Or.inl (Nat.le_refl _)
    | cons l mid => exact Or.inr ⟨_, l, mid, _, hmid, hrest, rfl⟩
  · rw [hmid, linesSize_append]
    exact Or.inl (Nat.le_add_right _ _)

end LinesFrom

theorem exists_of_mem_allOwners {w : Owner} {part : Nat} {ts : List (Cell × List Line)}
    (h : w ∈ Plan.allOwners part ts) :
    ∃ before t after, ts = before ++ t :: after ∧
      w ∈ Plan.owners (part + before.length + 1) t.2 := by
  induction ts generalizing part with
  | nil => cases h
  | cons t ts ih =>
    rw [Plan.allOwners, List.mem_append] at h
    rcases h with h | h
    · exact ⟨[], t, ts, rfl, h⟩
    · obtain ⟨before, t', after, rfl, hw⟩ := ih h
      refine ⟨t :: before, t', after, rfl, ?_⟩
      rw [List.length_cons, show part + (before.length + 1) = part + 1 + before.length by omega]
      exact hw

/-! ## Section 3: What stands at a position -/

namespace Program.Finishes

variable {p : Program} {ctx : Context} {is : List Instruction} {o : Nat} {l : Line}
  {xs ls : List Line} (h : p.Finishes ctx is)
include h

theorem stands_numbered {pre post : List (Nat × Line)} {k : Nat}
    (hpre : numbered 0 (programParts ctx is) = pre ++ (k, l) :: post) :
    l.Stands p.code (fun t => (Plan.ofProgram ctx is).placed (t.owner k))
      (linesSize (pre.map Prod.snd)) := by
  obtain ⟨before, t, after, first, last, hparts, ht, rfl, rfl⟩ := numbered_eq_append hpre
  have hholds := h.holds_part hparts
  rw [ht, Block.holds_append] at hholds
  obtain ⟨-, hline, -⟩ := hholds
  have hsnd : first.map (Prod.snd ∘ Prod.mk (0 + before.length + 1)) = first := List.map_id _
  rw [List.map_append, linesSize_append, map_snd_numbered, List.map_map, hsnd, Nat.zero_add]
  rw [Plan.length_templates] at hline
  have hempty : ({} : Plan).code.length = 0 := rfl
  rwa [hempty, Nat.zero_add] at hline

/-- The line of a position stands in the code. Its template has a number, which places inside the
    template depend on. -/
theorem stands (hat : LinesFrom ctx is o (l :: ls)) :
    ∃ k, l.Stands p.code (fun t => (Plan.ofProgram ctx is).placed (t.owner k)) o := by
  obtain ⟨pre, post, hpre, hpost, rfl⟩ := hat
  obtain ⟨⟨k, l⟩, post, rfl, rfl, -⟩ := List.map_eq_cons_iff.mp hpost
  exact ⟨k, h.stands_numbered hpre⟩

theorem size_of_linesFrom (hat : LinesFrom ctx is o ls) :
    o + linesSize ls = p.code.size := by
  obtain ⟨pre, post, hpre, rfl, rfl⟩ := hat
  have hempty : ({} : Plan).code.length = 0 := rfl
  rw [h.finished.size, Plan.ofProgram, Plan.length_templates, ← map_snd_numbered 0, hpre,
    List.map_append, linesSize_append, hempty, Nat.zero_add]

theorem exists_of_placed {w : Owner} (hw : (Plan.ofProgram ctx is).placed w = some o) :
    ∃ before t after first t' last, programParts ctx is = before ++ t :: after ∧
      t.2 = first ++ .place t' :: last ∧ t'.owner (before.length + 1) = w ∧
      o = (({} : Plan).templates before).code.length + linesSize first := by
  have hmem : w ∈ Plan.allOwners 0 (programParts ctx is) := by
    by_contra hnot
    rw [Plan.ofProgram, Plan.placed_templates _ _ hnot] at hw
    cases hw
  obtain ⟨before, t, after, hparts, howner⟩ := exists_of_mem_allOwners hmem
  obtain ⟨t', ht', rfl⟩ := List.mem_map.mp howner
  obtain ⟨l, hl, hplaced⟩ := List.mem_filterMap.mp ht'
  obtain rfl : l = .place t' := by
    cases l with
    | place t'' =>
      cases hplaced
      rfl
    | op i => cases hplaced
    | jmp t'' => cases hplaced
    | jcc c t'' => cases hplaced
    | call t'' => cases hplaced
  obtain ⟨first, last, hlines⟩ := List.append_of_mem hl
  refine ⟨before, t, after, first, t', last, hparts, hlines, ?_, ?_⟩
  · rw [Nat.zero_add]
  · have hholds := h.holds_part hparts
    rw [hlines, Block.holds_append] at hholds
    obtain ⟨-, hplace, -⟩ := hholds
    rw [Nat.zero_add] at hw
    exact Option.some_inj.mp (hw.symm.trans hplace)

theorem linesFrom_of_offset {t : Cell} (ht : p.offset? t = some o) :
    ∃ ls, LinesFrom ctx is o (.place (.code t) :: ls) := by
  rw [h.offset] at ht
  obtain ⟨before, part, after, first, t', last, hparts, hlines, howner, rfl⟩ :=
    h.exists_of_placed ht
  have ht' : t' = .code t := @Target.owner_injective (before.length + 1) _ _ howner
  rw [← ht']
  exact ⟨_, linesFrom_of_part _ hparts hlines⟩

end Program.Finishes

/-! ## Section 4: Stations -/

/-- A position from where on the lines keep the conventions of an activation. -/
def Station (ctx : Context) (is : List Instruction) (o : Nat) : Prop :=
  ∃ ls, LinesFrom ctx is o ls ∧ Conventional ls

/-- No station is in the code that every program starts with, because it ends with a branch
    to the code for leaving. -/
theorem Station.prologue_le {ctx : Context} {is : List Instruction} {o : Nat}
    (h : Station ctx is o) : linesSize prologue ≤ o := by
  obtain ⟨ls, hat, hls⟩ := h
  rcases hat.prologue_cases with hle | ⟨pre, l, post, rest, hpre, rfl, -⟩
  · exact hle
  · have hlast := congrArg List.getLast? hpre
    rw [List.getLast?_append_cons] at hlast
    have hmem : Line.jmp (.stub .leave) ∈ l :: post := List.mem_of_getLast? hlast.symm
    exact absurd (List.mem_append_left rest hmem) hls.leave_not_mem

/-- The code that a program starts with is the only part that is not made of conventional lines. -/
theorem conventional_flatMap {ctx : Context} {is : List Instruction}
    (his : ∀ i ∈ is, i.Passes ctx) {before ts : List (Cell × List Line)} (hbefore : before ≠ [])
    (hparts : programParts ctx is = before ++ ts) :
    (∀ t ∈ ts, Conventional t.2) ∧ Conventional (ts.flatMap Prod.snd) := by
  have hall : ∀ t ∈ ts, Conventional t.2 := by
    intro t ht
    have hmem : t ∈ is.map (Instruction.part ctx) ++
        (Plan.ofListing ctx is).faults.map Fault.part := by
      cases before with
      | nil => exact absurd rfl hbefore
      | cons first before =>
        have htail : is.map (Instruction.part ctx) ++ (Plan.ofListing ctx is).faults.map
            Fault.part = before ++ ts := (List.cons_eq_cons.mp hparts).2
        rw [htail]
        exact List.mem_append_right _ ht
    rcases List.mem_append.mp hmem with hmem | hmem
    · obtain ⟨i, hi, rfl⟩ := List.mem_map.mp hmem
      obtain ⟨ls, hls, hbody, -⟩ := (his i hi).template
      rw [Instruction.part, hbody]
      exact conventional_instruction hls
    · obtain ⟨f, -, rfl⟩ := List.mem_map.mp hmem
      exact conventional_faultLines f
  refine ⟨hall, ?_⟩
  clear hparts
  induction ts with
  | nil => exact .nil
  | cons t ts ih =>
    rw [List.flatMap_cons]
    exact (hall t List.mem_cons_self).append (ih fun u hu => hall u (List.mem_cons_of_mem t hu))

namespace Program.Finishes

variable {p : Program} {ctx : Context} {is : List Instruction} {o : Nat}

/-- What was placed is a station, unless it is the code for leaving an activation. -/
theorem station_of_placed (h : p.Finishes ctx is) {w : Owner}
    (hw : (Plan.ofProgram ctx is).placed w = some o) (hleave : w ≠ .stub .leave)
    (hpending : w ≠ .stub .pending) (hhalt : w ≠ .stub .halt) : Station ctx is o := by
  obtain ⟨before, t, after, first, t', last, hparts, ht, howner, rfl⟩ := h.exists_of_placed hw
  have hbefore : before ≠ [] := by
    rintro rfl
    obtain ⟨rfl, -⟩ := List.cons_eq_cons.mp hparts
    -- The first template places the three stubs.
    have hmem : w ∈ Plan.owners 1 prologue := by
      rw [Plan.owners, show prologue = first ++ .place t' :: last from ht, List.filterMap_append]
      simp [← howner]
    simp [Plan.owners_prologue, hleave, hpending, hhalt] at hmem
  obtain ⟨hall, -⟩ := conventional_flatMap h.passes hbefore hparts
  have hlines := hall t List.mem_cons_self
  rw [ht] at hlines
  have hafter : programParts ctx is = (before ++ [t]) ++ after := by
    rw [hparts, List.append_assoc]
    rfl
  obtain ⟨-, hrest⟩ := conventional_flatMap h.passes (by simp) hafter
  exact ⟨_, linesFrom_of_part _ hparts ht, hlines.of_place.append hrest⟩

theorem linesFrom_template {before after : List Instruction} {i : Instruction} {ls : List Line}
    (h : p.Finishes ctx (before ++ i :: after)) (hls : template ctx i = .ok ls)
    (ho : p.offset? i.address = some o) :
    ∃ rest, LinesFrom ctx (before ++ i :: after) o (ls ++ rest) ∧ Conventional rest := by
  obtain ⟨-, -, -, hoffset, -⟩ := h.holds_at
  rw [ho, Option.some_inj] at hoffset
  have hbody : i.body ctx = .place (.code i.address) :: ls := by
    rw [Instruction.body, hls]
    rfl
  have hparts : programParts ctx (before ++ i :: after) = listingParts ctx before ++ i.part ctx ::
      (after.map (Instruction.part ctx) ++
        (Plan.ofListing ctx (before ++ i :: after)).faults.map Fault.part) := by
    simp [programParts, listingParts]
  have hat := linesFrom_of_part [.place (.code i.address)] hparts hbody
  have hzero : linesSize [.place (.code i.address)] = 0 := rfl
  rw [hzero, Nat.add_zero, ← hoffset] at hat
  refine ⟨_, hat, ?_⟩
  have hafter : programParts ctx (before ++ i :: after) =
      (listingParts ctx before ++ [i.part ctx]) ++ (after.map (Instruction.part ctx) ++
        (Plan.ofListing ctx (before ++ i :: after)).faults.map Fault.part) := by
    rw [hparts, List.append_assoc]
    rfl
  exact (conventional_flatMap h.passes (by simp) hafter).2

end Program.Finishes

theorem linesFrom_prologue (ctx : Context) (is : List Instruction) :
    ∃ rest, LinesFrom ctx is 0 (prologue ++ rest) := by
  have hparts : programParts ctx is = [] ++ (0, prologue) :: (is.map (Instruction.part ctx) ++
      (Plan.ofListing ctx is).faults.map Fault.part) := rfl
  exact ⟨_, linesFrom_of_part [] hparts rfl⟩

end PawnNative
