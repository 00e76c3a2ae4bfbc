import Mathlib.Data.List.Nodup
import PawnNative.Proofs.Acceptance
import PawnNative.Proofs.Layout
import PawnNative.Proofs.Memory
import PawnNative.Run.Activation

/-! # Where the branches of a program lead

    The code of a program is the code that every program starts with, the code of
    the instructions, and the stubs of the faults, one template after the other.
    In the finished code every branch of a template leads to the place of its
    target, and these places are what the code map says: the code of the
    instruction that a branch of the bytecode names, the dispatch of the case
    table that a switch names, the one stub of a fault. A computed branch asks for
    the same places.
-/

namespace PawnNative

open X64 Convention

/-! ## Section 1: Labels are bound once -/

namespace Assembly

def binds? (a : Assembly) : Line → Option Label
  | .place (.code t) => some (a.labels.bind a.buffer ⟨t, .instr⟩).1
  | .place (.cases t) => some (a.labels.bind a.buffer ⟨t, .caseTable⟩).1
  | .place (.stub s) => some (a.stub s).1
  | .place (.mark n) => some (a.mark n).1
  | .op _ | .jmp _ | .jcc _ _ | .call _ => none

/-- The labels that are bound while lines are appended, in order. -/
def boundByLines (referrer : Cell) : Assembly → List Line → List Label
  | _, [] => []
  | a, l :: ls => (a.binds? l).toList ++ boundByLines referrer (a.line referrer l) ls

/-- Appends templates, each with the address of its instruction. -/
def templates (a : Assembly) (ts : List (Cell × List Line)) : Assembly :=
  ts.foldl (fun a t => a.lines t.1 t.2) a

/-- The labels that are bound while templates are appended, in order. -/
def boundByTemplates : Assembly → List (Cell × List Line) → List Label
  | _, [] => []
  | a, t :: ts =>
    boundByLines t.1 { a with marks := [] } t.2 ++ boundByTemplates (a.lines t.1 t.2) ts

end Assembly

namespace Plan

/-- A plan that was made by adding to another one knows all its owners, by the same labels. -/
def Knows (q p : Plan) : Prop := ∃ more, q.names = p.names ++ more

variable {p q : Plan} {w : Owner}

theorem Knows.trans {r : Plan} (hr : r.Knows q) (hq : q.Knows p) : r.Knows p := by
  obtain ⟨more₁, h₁⟩ := hq
  obtain ⟨more₂, h₂⟩ := hr
  exact ⟨more₁ ++ more₂, by rw [h₂, h₁, List.append_assoc]⟩

theorem Knows.mem (h : q.Knows p) (hw : w ∈ p.names) : w ∈ q.names := by
  obtain ⟨more, hmore⟩ := h
  rw [hmore]
  exact List.mem_append_left _ hw

theorem Knows.label (h : q.Knows p) (hw : w ∈ p.names) : q.label w = p.label w := by
  obtain ⟨more, hmore⟩ := h
  rw [Plan.label, Plan.label, hmore, List.idxOf_append_of_mem hw]

theorem line_knows (p : Plan) (referrer : Cell) (l : Line) : (p.line referrer l).Knows p := by
  cases l with
  | op i => exact ⟨[], by simp [line]⟩
  | jmp t => exact p.names_mention _ _
  | jcc c t => exact p.names_mention _ _
  | call t => exact p.names_mention _ _
  | place t => exact p.names_mention _ _

theorem foldl_line_knows (ls : List Line) (p : Plan) (referrer : Cell) :
    (ls.foldl (fun p l => p.line referrer l) p).Knows p := by
  induction ls generalizing p with
  | nil => exact ⟨[], by simp⟩
  | cons l ls ih => exact (ih _).trans (p.line_knows referrer l)

theorem templates_knows (ts : List (Cell × List Line)) (p : Plan) : (p.templates ts).Knows p := by
  induction ts generalizing p with
  | nil => exact ⟨[], by simp [templates]⟩
  | cons t ts ih =>
    have hlines : (p.lines t.1 t.2).Knows p := foldl_line_knows t.2 p.begin t.1
    exact (ih _).trans hlines

theorem mem_names_line_of_placed {referrer : Cell} {l : Line} {t : Target}
    (h : l.placed? = some t) : t.owner p.part ∈ (p.line referrer l).names := by
  cases l with
  | place t' =>
    cases h
    exact mem_names_mention ..
  | op i => cases h
  | jmp t' => cases h
  | jcc c t' => cases h
  | call t' => cases h

end Plan

namespace Assembly.Follows

variable {a : Assembly} {p q : Plan}

theorem templates (h : a.Follows p) (ts : List (Cell × List Line)) :
    (a.templates ts).Follows (p.templates ts) := by
  induction ts generalizing a p with
  | nil => exact h
  | cons t ts ih => exact ih (h.lines t.1 t.2)

/-- **Step.** The label that a line binds is that of the owner it places. -/
theorem binds?_eq (h : a.Follows p) (referrer : Cell) (l : Line) :
    a.binds? l = l.placed?.map fun t => (p.line referrer l).label (t.owner p.part) := by
  cases l with
  | op i => rfl
  | jmp t => rfl
  | jcc c t => rfl
  | call t => rfl
  | place t =>
    cases t with
    | code t => exact congrArg some (h.label_entry ⟨t, .instr⟩ none)
    | cases t => exact congrArg some (h.label_entry ⟨t, .caseTable⟩ none)
    | stub s => exact congrArg some (h.stub s).1
    | mark n => exact congrArg some (h.mark n).1

theorem boundByLines_eq (ls : List Line) (h : a.Follows p) (referrer : Cell)
    (hq : q.Knows (ls.foldl (fun p l => p.line referrer l) p)) :
    boundByLines referrer a ls = (Plan.owners p.part ls).map q.label := by
  induction ls generalizing a p with
  | nil => rfl
  | cons l ls ih =>
    rw [boundByLines, ih (h.line referrer l) hq, Plan.part_line, Plan.owners_cons, List.map_append,
      h.binds?_eq referrer l]
    congr 1
    cases hl : l.placed? with
    | none => rfl
    | some t =>
      have hmem : t.owner p.part ∈ (p.line referrer l).names := Plan.mem_names_line_of_placed hl
      have hknows := hq.trans (Plan.foldl_line_knows ls _ referrer)
      simp [hknows.label hmem]

/-- **Run.** The labels that are bound are those of the owners that are placed, one after the
    other. -/
theorem boundByTemplates_eq (ts : List (Cell × List Line)) (h : a.Follows p)
    (hq : q.Knows (p.templates ts)) :
    a.boundByTemplates ts = (Plan.allOwners p.part ts).map q.label := by
  induction ts generalizing a p with
  | nil => rfl
  | cons t ts ih =>
    have hrest := ih (h.lines t.1 t.2) hq
    rw [Plan.part_lines] at hrest
    rw [boundByTemplates, hrest, Plan.allOwners, List.map_append]
    congr 1
    exact boundByLines_eq t.2 h.begin t.1 (hq.trans (Plan.templates_knows ts _))

end Assembly.Follows

theorem Plan.mem_names_of_mem_allOwners {p : Plan} {w : Owner} (ts : List (Cell × List Line))
    (hw : w ∈ allOwners p.part ts) : w ∈ (p.templates ts).names := by
  induction ts generalizing p with
  | nil => cases hw
  | cons t ts ih =>
    rw [allOwners, List.mem_append] at hw
    rcases hw with hw | hw
    · have hlines : ∀ (ls : List Line) (q : Plan), w ∈ owners q.part ls →
          w ∈ (ls.foldl (fun p l => p.line t.1 l) q).names := by
        intro ls
        induction ls with
        | nil => exact fun q hq => absurd hq List.not_mem_nil
        | cons l ls ihls =>
          intro q hq
          rw [owners_cons, List.mem_append] at hq
          rcases hq with hl | hls
          · obtain ⟨t', ht', rfl⟩ : ∃ t', l.placed? = some t' ∧ t'.owner q.part = w := by
              simpa using hl
            exact (foldl_line_knows ls _ t.1).mem (mem_names_line_of_placed ht')
          · exact ihls (q.line t.1 l) (by rw [part_line]; exact hls)
      exact (templates_knows ts _).mem (hlines t.2 p.begin hw)
    · exact ih (by rw [part_lines]; exact hw)

/-- When nothing is placed twice, no label is bound twice. -/
theorem Assembly.Follows.nodup_boundByTemplates {a : Assembly} {p : Plan} (h : a.Follows p)
    {ts : List (Cell × List Line)} (hnodup : (Plan.allOwners p.part ts).Nodup) :
    (a.boundByTemplates ts).Nodup := by
  have hself : (p.templates ts).Knows (p.templates ts) := ⟨[], by simp⟩
  rw [h.boundByTemplates_eq ts hself]
  refine List.Nodup.map_on (fun v hv w _ hlabel => ?_) hnodup
  exact Plan.label_injective (Plan.mem_names_of_mem_allOwners ts hv) hlabel

/-! ## Section 2: A program is made of templates -/

def Owner.fault? : Owner → Option Fault
  | .stub (.fault f) => some f
  | .stub .leave | .stub .halt | .stub .pending | .key _ | .mark _ _ => none

/-- The faults whose stubs were mentioned, in order of first mention. -/
def Plan.faults (p : Plan) : List Fault := p.names.filterMap Owner.fault?

theorem Plan.mem_faults_iff {p : Plan} {f : Fault} : f ∈ p.faults ↔ .stub (.fault f) ∈ p.names := by
  rw [Plan.faults, List.mem_filterMap]
  constructor
  · rintro ⟨w, hw, hfault⟩
    rcases w with k | s | ⟨part, n⟩
    · cases hfault
    · cases s <;> cases hfault
      exact hw
    · cases hfault
  · intro hw
    exact ⟨_, hw, rfl⟩

theorem Assembly.Follows.faults_eq {a : Assembly} {p : Plan} (h : a.Follows p) :
    a.faults = p.faults := by
  rw [Assembly.faults, h.stubs, List.filterMap_filterMap, Plan.faults]
  refine List.filterMap_congr fun w _ => ?_
  rcases w with k | s | ⟨part, n⟩
  · rfl
  · cases s <;> rfl
  · rfl

def Instruction.part (ctx : Context) (i : Instruction) : Cell × List Line := (i.address, i.body ctx)

/-- The stub of a fault; no instruction has it for its own. -/
def Fault.part (f : Fault) : Cell × List Line := (0, faultLines f)

def listingParts (ctx : Context) (is : List Instruction) : List (Cell × List Line) :=
  (0, prologue) :: is.map (Instruction.part ctx)

def programParts (ctx : Context) (is : List Instruction) : List (Cell × List Line) :=
  listingParts ctx is ++ (Plan.ofListing ctx is).faults.map Fault.part

def Plan.ofProgram (ctx : Context) (is : List Instruction) : Plan :=
  ({} : Plan).templates (programParts ctx is)

theorem Plan.ofListing_eq (ctx : Context) (is : List Instruction) :
    ofListing ctx is = ({} : Plan).templates (listingParts ctx is) := by
  rw [ofListing, listingParts, templates, List.foldl_cons, List.foldl_map]
  rfl

namespace Compilation

variable {ctx : Context} {is : List Instruction} {code : Block} {c : Compilation}

theorem asm_foldl (is : List Instruction) (c : Compilation) :
    (is.foldl (append ctx) c).asm = c.asm.templates (is.map (Instruction.part ctx)) := by
  induction is generalizing c with
  | nil => rfl
  | cons i is ih => exact ih (c.append ctx i)

theorem asm_addStubs (ctx : Context) (is : List Instruction) :
    (is.foldl (append ctx) start).addStubs.asm =
      ({} : Assembly).templates (programParts ctx is) := by
  have hfaults := (follows_foldl ctx is).faults_eq
  rw [asm_foldl] at hfaults
  rw [addStubs, asm_foldl, hfaults, programParts, listingParts]
  simp only [Assembly.templates, List.foldl_append, List.foldl_cons, List.foldl_map, start]
  rfl

theorem eq_of_translate (h : translate ctx code = .ok c) :
    ∃ is, Decodes code 0 is none ∧ (∀ i ∈ is, i.Passes ctx) ∧ (∀ k, ¬Missing is k) ∧
      c = (is.foldl (append ctx) start).addStubs := by
  obtain ⟨is, stop, hlisting, -⟩ := Cursor.remaining_eq_listing _
  rw [translate_eq hlisting, bind_eq_ok] at h
  obtain ⟨c', happend, hrest⟩ := h
  obtain ⟨⟨rfl, hpasses⟩, rfl⟩ := appendListing_eq_ok_iff.mp happend
  obtain ⟨⟨⟩, hcheck, hc⟩ := bind_eq_ok.mp hrest
  have hmissing :=
    (checkTargets_eq_ok_iff (follows_foldl ctx is) (Plan.covers_ofListing hpasses)).mp hcheck
  exact ⟨is, hlisting, hpasses, hmissing, (Except.ok.inj hc).symm⟩

end Compilation

/-! ## Section 3: Nothing is placed twice -/

namespace Plan

variable {ctx : Context} {is : List Instruction} {i : Instruction}

theorem allOwners_append (part : Nat) (ts us : List (Cell × List Line)) :
    allOwners part (ts ++ us) = allOwners part ts ++ allOwners (part + ts.length) us := by
  induction ts generalizing part with
  | nil => rfl
  | cons t ts ih =>
    rw [List.cons_append, allOwners, ih, allOwners, List.append_assoc, List.length_cons,
      show part + 1 + ts.length = part + (ts.length + 1) by omega]

theorem owners_body (h : i.Passes ctx) (part : Nat) :
    owners part (i.body ctx) = (.code i.address :: i.places).map (Target.owner part) := by
  obtain ⟨ls, -, hbody, hnamed⟩ := h.template
  rw [owners, hbody, List.filterMap_cons_some (Line.placed?_place _), hnamed.placed]

/-- An instruction places its own address, perhaps a case table there, and marks. -/
theorem nodup_targets (i : Instruction) : (Target.code i.address :: i.places).Nodup := by
  unfold Instruction.places
  split
  · simp
  · split_ifs <;> simp
  · simp
  · simp
  · simp

theorem mem_owners_body (h : i.Passes ctx) {part : Nat} {w : Owner}
    (hw : w ∈ owners part (i.body ctx)) :
    (∃ kind, w = .key ⟨i.address, kind⟩) ∨ ∃ n, w = .mark part n := by
  rw [owners_body h, List.mem_map] at hw
  obtain ⟨t, ht, rfl⟩ := hw
  rcases List.mem_cons.mp ht with rfl | ht
  · exact Or.inl ⟨.instr, rfl⟩
  · unfold Instruction.places at ht
    split at ht
    · rw [List.mem_singleton.mp ht]
      exact Or.inl ⟨.caseTable, rfl⟩
    · split_ifs at ht
      · cases ht
      · rw [List.mem_singleton.mp ht]
        exact Or.inr ⟨0, rfl⟩
    all_goals
      simp only [List.mem_cons, List.not_mem_nil, or_false] at ht
    all_goals
      rcases ht with rfl | rfl | rfl <;> exact Or.inr ⟨_, rfl⟩

/-- What instructions place has the address of one of them, or the number of a template of
    theirs. -/
theorem mem_allOwners_listing {w : Owner} (part : Nat) (is : List Instruction)
    (his : ∀ i ∈ is, i.Passes ctx) (hw : w ∈ allOwners part (is.map (Instruction.part ctx))) :
    (∃ i ∈ is, ∃ kind, w = .key ⟨i.address, kind⟩) ∨ ∃ k n, w = .mark k n ∧ part < k := by
  induction is generalizing part with
  | nil => cases hw
  | cons i is ih =>
    rw [List.map_cons, allOwners, List.mem_append] at hw
    rcases hw with hw | hw
    · rcases mem_owners_body (his i List.mem_cons_self) hw with ⟨kind, rfl⟩ | ⟨n, rfl⟩
      · exact Or.inl ⟨i, List.mem_cons_self, kind, rfl⟩
      · exact Or.inr ⟨part + 1, n, rfl, Nat.lt_succ_self part⟩
    · rcases ih (part + 1) (fun j hj => his j (List.mem_cons_of_mem i hj)) hw with
        ⟨j, hj, kind, rfl⟩ | ⟨k, n, rfl, hk⟩
      · exact Or.inl ⟨j, List.mem_cons_of_mem i hj, kind, rfl⟩
      · exact Or.inr ⟨k, n, rfl, Nat.lt_of_succ_lt hk⟩

/-- Instructions at different addresses place nothing twice. -/
theorem nodup_allOwners_listing (part : Nat) (is : List Instruction)
    (his : ∀ i ∈ is, i.Passes ctx)
    (hordered : is.Pairwise fun i j => i.address.toNat < j.address.toNat) :
    (allOwners part (is.map (Instruction.part ctx))).Nodup := by
  induction is generalizing part with
  | nil => exact List.nodup_nil
  | cons i is ih =>
    obtain ⟨hfirst, hrest⟩ := List.pairwise_cons.mp hordered
    have hpasses : ∀ j ∈ is, j.Passes ctx := fun j hj => his j (List.mem_cons_of_mem i hj)
    rw [List.map_cons, allOwners, List.nodup_append]
    refine ⟨?_, ih (part + 1) hpasses hrest, ?_⟩
    · rw [Instruction.part, owners_body (his i List.mem_cons_self)]
      exact (nodup_targets i).map fun _ _ h => Target.owner_injective h
    · rintro w hw v hv rfl
      rcases mem_owners_body (his i List.mem_cons_self) hw with ⟨kind, rfl⟩ | ⟨n, rfl⟩
      · rcases mem_allOwners_listing (part + 1) is hpasses hv with ⟨j, hj, kind', heq⟩ |
          ⟨k, n, heq, -⟩
        · have haddress : i.address = j.address := by simp_all
          have hlt := hfirst j hj
          rw [haddress] at hlt
          exact Nat.lt_irrefl _ hlt
        · cases heq
      · rcases mem_allOwners_listing (part + 1) is hpasses hv with ⟨j, hj, kind', heq⟩ |
          ⟨k, m, heq, hk⟩
        · cases heq
        · cases heq
          exact Nat.lt_irrefl _ hk

theorem allOwners_faults (part : Nat) (fs : List Fault) :
    allOwners part (fs.map Fault.part) = fs.map fun f => .stub (.fault f) := by
  induction fs generalizing part with
  | nil => rfl
  | cons f fs ih =>
    rw [List.map_cons, allOwners, ih]
    rfl

theorem nodup_faults {p : Plan} (h : p.Sound) : p.faults.Nodup := by
  refine h.nodup.filterMap fun v w f hv hw => ?_
  have hstub : ∀ u : Owner, f ∈ u.fault? → u = .stub (.fault f) := by
    rintro (k | s | ⟨part, n⟩) hu
    · cases hu
    · cases s <;> cases hu
      rfl
    · cases hu
  rw [hstub v hv, hstub w hw]

theorem owners_prologue (part : Nat) :
    owners part prologue = [.stub .leave, .stub .pending, .stub .halt] := rfl

/-- **Once.** No owner is placed twice in a program. -/
theorem nodup_allOwners_program (his : ∀ i ∈ is, i.Passes ctx)
    (hordered : is.Pairwise fun i j => i.address.toNat < j.address.toNat) :
    (allOwners 0 (programParts ctx is)).Nodup := by
  have hsound : (ofListing ctx is).Sound := (Compilation.follows_foldl ctx is).sound
  have hlisting := nodup_allOwners_listing 1 is his hordered
  have hfaults : ((ofListing ctx is).faults.map fun f => Owner.stub (.fault f)).Nodup :=
    (nodup_faults hsound).map fun f g h => by simpa using h
  rw [programParts, allOwners_append, allOwners_faults, listingParts, allOwners, owners_prologue,
    List.append_assoc, List.nodup_append]
  refine ⟨by decide, List.nodup_append.mpr ⟨hlisting, hfaults, ?_⟩, ?_⟩
  · rintro w hw v hv rfl
    obtain ⟨f, -, rfl⟩ := List.mem_map.mp hv
    rcases mem_allOwners_listing 1 is his hw with ⟨j, -, kind, heq⟩ | ⟨k, n, heq, -⟩
    · cases heq
    · cases heq
  · rintro w hw v hv rfl
    rcases List.mem_append.mp hv with hv | hv
    · rcases mem_allOwners_listing 1 is his hv with ⟨j, -, kind, rfl⟩ | ⟨k, n, rfl, -⟩
      · simp at hw
      · simp at hw
    · obtain ⟨f, -, rfl⟩ := List.mem_map.mp hv
      simp at hw

end Plan

/-! ## Section 4: The code map -/

namespace Plan

variable {ctx : Context} {is : List Instruction} {i : Instruction}

theorem placed_code_concat (h : i.Passes ctx) (t : Cell) :
    (ofListing ctx (is ++ [i])).placed (.key ⟨t, .instr⟩) =
      if t = i.address then some (ofListing ctx is).code.length
      else (ofListing ctx is).placed (.key ⟨t, .instr⟩) := by
  obtain ⟨ls, -, hbody, hnamed⟩ := h.template
  have hlater : ∀ part, Owner.key ⟨t, .instr⟩ ∉ owners part ls := by
    intro part hmem
    rw [owners, hnamed.placed, List.mem_map] at hmem
    obtain ⟨t', ht', howner⟩ := hmem
    have hcode : t' = .code t := Target.owner_injective howner
    rw [hcode] at ht'
    revert ht'
    unfold Instruction.places
    split
    · simp
    · split_ifs <;> simp
    all_goals simp
  rw [ofListing_concat, lines, hbody, List.foldl_cons, placed_foldl_line ls _ _ (hlater _),
    placed_line]
  simp [Target.owner, eq_comm, begin]

/-- The stubs of the faults move no label of the bytecode. -/
theorem placed_key_ofProgram (ctx : Context) (is : List Instruction) (k : LabelKey) :
    (ofProgram ctx is).placed (.key k) = (ofListing ctx is).placed (.key k) := by
  have hsplit : ofProgram ctx is =
      (ofListing ctx is).templates ((ofListing ctx is).faults.map Fault.part) := by
    rw [ofProgram, programParts, ofListing_eq, templates, List.foldl_append]
    rfl
  rw [hsplit]
  refine placed_templates _ _ ?_
  rw [allOwners_faults]
  simp

end Plan

/-- **Run.** The code map says where the labels of the instructions were placed. -/
theorem Compilation.find?_map {ctx : Context} {is : List Instruction}
    (his : ∀ i ∈ is, i.Passes ctx)
    (hordered : is.Pairwise fun i j => i.address.toNat < j.address.toNat) (t : Cell) :
    ((is.foldl (append ctx) start).map.find? fun e => e.1 == t).map (·.2) =
      (Plan.ofListing ctx is).placed (.key ⟨t, .instr⟩) := by
  induction is using List.reverseRecOn with
  | nil =>
    have hnone : ¬((Plan.ofListing ctx []).placed (.key ⟨t, .instr⟩)).isSome := by
      rw [(Plan.covers_ofListing his).placed]
      simp
    rw [Option.not_isSome_iff_eq_none.mp hnone]
    rfl
  | append_singleton is i ih =>
    have hprefix : ∀ j ∈ is, j.Passes ctx := fun j hj => his j (List.mem_append_left _ hj)
    have hi : i.Passes ctx := his i (List.mem_append_right _ (List.mem_singleton_self i))
    obtain ⟨hbefore, -, hlast⟩ := List.pairwise_append.mp hordered
    have ih := ih hprefix hbefore
    have hoffset := (follows_foldl ctx is).buffer.offset_eq
    rw [Plan.placed_code_concat hi, ← ih, List.foldl_append, List.foldl_cons, List.foldl_nil]
    show ((Array.push _ (i.address, (is.foldl (append ctx) start).asm.buffer.offset)).find? _).map
      (·.2) = _
    rw [Array.find?_push, hoffset]
    by_cases ht : t = i.address
    · -- The address is not that of an earlier instruction.
      have hnone : ¬((Plan.ofListing ctx is).placed (.key ⟨t, .instr⟩)).isSome := by
        rw [(Plan.covers_ofListing hprefix).placed, exists_mem_binds_iff]
        rintro ⟨j, hj, hjt, -⟩
        have hlt := hlast j hj i (List.mem_singleton_self i)
        rw [hjt, ht] at hlt
        exact Nat.lt_irrefl _ hlt
      rw [Option.not_isSome_iff_eq_none.mp hnone, Option.map_eq_none_iff] at ih
      rw [ih, if_pos ht]
      simp [ht]
    · have hne : (i.address == t) = false := beq_eq_false_iff_ne.mpr (Ne.symm ht)
      simp [hne, ht]

/-! ## Section 5: Finished programs -/

/-- The target that a line leads to or places. -/
def Line.mentioned? (l : Line) : Option Target := l.target?.or l.placed?

theorem Block.Holds.mono {code : Block} {find find' : Target → Option Nat} {o : Nat}
    {ls : List Line} (h : code.Holds find o ls)
    (hfind : ∀ t ∈ ls.filterMap Line.mentioned?, ∀ dest, find t = some dest → find' t = some dest) :
    code.Holds find' o ls := by
  induction ls generalizing o with
  | nil => trivial
  | cons l ls ih =>
    have hrest : ∀ t ∈ ls.filterMap Line.mentioned?, ∀ dest,
        find t = some dest → find' t = some dest := by
      intro t ht
      obtain ⟨l', hl', hmentioned⟩ := List.mem_filterMap.mp ht
      exact hfind t (List.mem_filterMap.mpr ⟨l', List.mem_cons_of_mem l hl', hmentioned⟩)
    have hfirst : ∀ t, l.mentioned? = some t → ∀ dest, find t = some dest → find' t = some dest :=
      fun t ht => hfind t (List.mem_filterMap.mpr ⟨l, List.mem_cons_self, ht⟩)
    refine ⟨?_, ih h.2 hrest⟩
    have hl := h.1
    cases l with
    | op i => exact hl
    | jmp t =>
      obtain ⟨d, dest, hread, hdest, hsum⟩ := hl
      exact ⟨d, dest, hread, hfirst t rfl dest hdest, hsum⟩
    | jcc c t =>
      obtain ⟨d, dest, hread, hdest, hsum⟩ := hl
      exact ⟨d, dest, hread, hfirst t rfl dest hdest, hsum⟩
    | call t =>
      obtain ⟨d, dest, hread, hdest, hsum⟩ := hl
      exact ⟨d, dest, hread, hfirst t rfl dest hdest, hsum⟩
    | place t => exact hfirst t rfl o hl

/-- Where the targets of a template are: the code map has the addresses of the bytecode. -/
def Program.find (p : Program) (stubAt : Stub → Option Nat) (markAt : Nat → Option Nat) :
    Target → Option Nat
  | .code t | .cases t => p.offset? t
  | .stub s => stubAt s
  | .mark n => markAt n

/-- A program is the finished plan of a listing whose instructions pass. -/
structure Program.Finishes (p : Program) (ctx : Context) (is : List Instruction) : Prop where
  passes : ∀ i ∈ is, i.Passes ctx
  ordered : is.Pairwise fun i j => i.address.toNat < j.address.toNat
  finished : (Plan.ofProgram ctx is).Finished p.code
  offset : ∀ t, p.offset? t = (Plan.ofProgram ctx is).placed (.key ⟨t, .instr⟩)

theorem template_casetbl {ctx : Context} {i : Instruction} {ls : List Line}
    (hop : i.opcode = .casetbl) (h : template ctx i = .ok ls) :
    ∃ rest, ls = .place (.cases i.address) :: rest := by
  rw [template, hop] at h
  obtain ⟨default, -, h⟩ := bind_eq_ok.mp h
  obtain ⟨cases, -, h⟩ := bind_eq_ok.mp h
  exact ⟨_, (Except.ok.inj h).symm⟩

namespace Program.Finishes

variable {p : Program} {ctx : Context} {is : List Instruction} {i : Instruction}

theorem holds_part (h : p.Finishes ctx is) {before after : List (Cell × List Line)}
    {t : Cell × List Line} (hts : programParts ctx is = before ++ t :: after) :
    p.code.Holds (fun target => (Plan.ofProgram ctx is).placed (target.owner (before.length + 1)))
      (({} : Plan).templates before).code.length t.2 := by
  have hnodup := Plan.nodup_allOwners_program h.passes h.ordered
  have hempty : ({} : Plan).Ordered := ⟨nofun, List.Pairwise.nil⟩
  have hholds := h.finished.holds_templates (programParts ctx is) {} hempty hnodup (.refl _)
    (fun w _ => rfl) hts
  rwa [Nat.zero_add] at hholds

/-- The code of an instruction comes after the code of the instructions before it, and there it is
    for the code map. -/
theorem holds_at {before after : List Instruction} (h : p.Finishes ctx (before ++ i :: after)) :
    ∃ ls, template ctx i = .ok ls ∧ i.Named ls ∧
      p.offset? i.address = some (({} : Plan).templates (listingParts ctx before)).code.length ∧
      p.code.Holds (fun t => (Plan.ofProgram ctx (before ++ i :: after)).placed
          (t.owner ((listingParts ctx before).length + 1)))
        (({} : Plan).templates (listingParts ctx before)).code.length ls := by
  have hi : i ∈ before ++ i :: after := List.mem_append_right _ List.mem_cons_self
  obtain ⟨ls, hls, hbody, hnamed⟩ := (h.passes i hi).template
  have hsplit : programParts ctx (before ++ i :: after) = listingParts ctx before ++ i.part ctx ::
      (after.map (Instruction.part ctx) ++
        (Plan.ofListing ctx (before ++ i :: after)).faults.map Fault.part) := by
    simp [programParts, listingParts]
  have hholds := h.holds_part hsplit
  rw [Instruction.part, hbody] at hholds
  refine ⟨ls, hls, hnamed, ?_, hholds.2⟩
  rw [h.offset]
  exact hholds.1

theorem holds_body (h : p.Finishes ctx is) (hi : i ∈ is) :
    ∃ part ls o, template ctx i = .ok ls ∧ i.Named ls ∧ p.offset? i.address = some o ∧
      (0 < o ∧ o ≤ p.code.size) ∧
      p.code.Holds (fun t => (Plan.ofProgram ctx is).placed (t.owner part)) o ls := by
  obtain ⟨before, after, rfl⟩ := List.append_of_mem hi
  obtain ⟨ls, hls, hnamed, hoffset, hholds⟩ := h.holds_at
  have hstart : 0 < (({} : Plan).lines 0 prologue).code.length := by decide +kernel
  have hfirst := (Plan.templates_continues (before.map (Instruction.part ctx))
    (({} : Plan).lines 0 prologue)).length_le
  have hlast : (Plan.ofProgram ctx (before ++ i :: after)).Continues
      (({} : Plan).templates (listingParts ctx before)) := by
    rw [Plan.ofProgram, programParts, listingParts, List.map_append, ← List.cons_append,
      ← listingParts, List.append_assoc, Plan.templates, List.foldl_append]
    exact Plan.templates_continues _ _
  refine ⟨_, ls, _, hls, hnamed, hoffset, ⟨Nat.lt_of_lt_of_le hstart hfirst, ?_⟩, hholds⟩
  rw [h.finished.size]
  exact hlast.length_le

theorem offset_isSome_iff (h : p.Finishes ctx is) (t : Cell) :
    (p.offset? t).isSome ↔ ∃ i ∈ is, i.address = t := by
  rw [h.offset, Plan.placed_key_ofProgram, (Plan.covers_ofListing h.passes).placed,
    exists_mem_binds_iff]
  simp

theorem offset_of_cases (h : p.Finishes ctx is) {t : Cell} {dest : Nat}
    (ht : (Plan.ofProgram ctx is).placed (.key ⟨t, .caseTable⟩) = some dest) :
    p.offset? t = some dest := by
  have hsome : ((Plan.ofListing ctx is).placed (.key ⟨t, .caseTable⟩)).isSome := by
    rw [← Plan.placed_key_ofProgram, ht]
    rfl
  rw [(Plan.covers_ofListing h.passes).placed, exists_mem_binds_iff] at hsome
  obtain ⟨j, hj, rfl, hop⟩ := hsome
  obtain ⟨part, ls, o, hls, -, hoffset, -, hholds⟩ := h.holds_body hj
  obtain ⟨rest, rfl⟩ := template_casetbl (hop rfl) hls
  have hcases : (Plan.ofProgram ctx is).placed (.key ⟨j.address, .caseTable⟩) = some o := hholds.1
  rw [hoffset, ← hcases, ht]

theorem holds_find (h : p.Finishes ctx is) {part o : Nat} {ls : List Line}
    (hholds : p.code.Holds (fun t => (Plan.ofProgram ctx is).placed (t.owner part)) o ls) :
    p.code.Holds (p.find (fun s => (Plan.ofProgram ctx is).placed (.stub s))
      fun n => (Plan.ofProgram ctx is).placed (.mark part n)) o ls := by
  refine hholds.mono fun t _ dest ht => ?_
  cases t with
  | code t => exact (h.offset t).trans ht
  | cases t => exact h.offset_of_cases ht
  | stub s => exact ht
  | mark n => exact ht

theorem holds_shared {part o : Nat} {ls : List Line}
    (hstubs : ∀ t ∈ ls.filterMap Line.mentioned?, ∃ s, t = .stub s)
    (hholds : p.code.Holds (fun t => (Plan.ofProgram ctx is).placed (t.owner part)) o ls) :
    p.code.Holds (p.find (fun s => (Plan.ofProgram ctx is).placed (.stub s)) fun _ =>
      none) o ls := by
  refine hholds.mono fun t hmem dest ht => ?_
  obtain ⟨s, rfl⟩ := hstubs t hmem
  exact ht

theorem holds_prologue (h : p.Finishes ctx is) :
    p.code.Holds (p.find (fun s => (Plan.ofProgram ctx is).placed (.stub s)) fun _ => none) 0
      prologue := by
  have hsplit : programParts ctx is = [] ++ (0, prologue) :: (is.map (Instruction.part ctx) ++
      (Plan.ofListing ctx is).faults.map Fault.part) := rfl
  refine holds_shared ?_ (h.holds_part hsplit)
  have hmentioned : prologue.filterMap Line.mentioned? =
      [.stub .leave, .stub .pending, .stub .halt, .stub .leave] := rfl
  simp [hmentioned]

theorem mem_faults (h : p.Finishes ctx is) {f : Fault}
    (hf : ((Plan.ofProgram ctx is).placed (.stub (.fault f))).isSome) :
    f ∈ (Plan.ofListing ctx is).faults := by
  have hmem : .stub (.fault f) ∈ Plan.allOwners 0 (programParts ctx is) := by
    by_contra hnot
    rw [Plan.ofProgram, Plan.placed_templates _ _ hnot] at hf
    cases hf
  rw [programParts, listingParts, Plan.allOwners_append, Plan.allOwners, Plan.owners_prologue,
    Plan.allOwners_faults] at hmem
  rcases List.mem_append.mp hmem with hmem | hmem
  · rcases List.mem_append.mp hmem with hmem | hmem
    · simp at hmem
    · rcases Plan.mem_allOwners_listing _ is h.passes hmem with ⟨j, -, kind, heq⟩ | ⟨k, n, heq, -⟩
      · cases heq
      · cases heq
  · simpa using hmem

section
variable (h : p.Finishes ctx is) {f : Fault} {o : Nat}
  (hf : (Plan.ofProgram ctx is).placed (.stub (.fault f)) = some o)
include h hf

theorem exists_faultPart : ∃ before after, programParts ctx is = before ++ f.part :: after ∧
    (({} : Plan).templates before).code.length = o := by
  obtain ⟨fs, fs', hfaults⟩ := List.append_of_mem (h.mem_faults (by rw [hf]; rfl))
  have hsplit : programParts ctx is = (listingParts ctx is ++ fs.map Fault.part) ++ f.part ::
      fs'.map Fault.part := by
    simp [programParts, hfaults]
  exact ⟨_, _, hsplit, Option.some_inj.mp ((h.holds_part hsplit).1.symm.trans hf)⟩

theorem holds_fault :
    p.code.Holds (p.find (fun s => (Plan.ofProgram ctx is).placed (.stub s)) fun _ => none) o
      (faultLines f) := by
  obtain ⟨before, after, hsplit, rfl⟩ := h.exists_faultPart hf
  refine holds_shared ?_ (h.holds_part hsplit)
  have hmentioned : (faultLines f).filterMap Line.mentioned? =
      [.stub (.fault f), .stub .halt] := rfl
  simp [hmentioned]

end

end Program.Finishes

/-- A program that was compiled is the finished plan of the listing of its code. -/
theorem Program.finishes_of_compile {ctx : Context} {code : Block} {p : Program}
    (h : Program.compile ctx code = .ok p) :
    ∃ is, Decodes code 0 is none ∧ (∀ k, ¬Missing is k) ∧ p.Finishes ctx is ∧
      ∃ c, Compilation.translate ctx code = .ok c ∧
        c.asm = ({} : Assembly).templates (programParts ctx is) := by
  obtain ⟨c, htranslate, hfinalize⟩ := bind_eq_ok.mp h
  obtain ⟨is, hlisting, hpasses, hmissing, rfl⟩ := Compilation.eq_of_translate htranslate
  have hordered := hlisting.ascending
  have hasm := Compilation.asm_addStubs ctx is
  refine ⟨is, hlisting, hmissing, ?_, _, htranslate, hasm⟩
  split at hfinalize
  · next memory hmemory =>
    cases hfinalize
    have hfollows := Assembly.follows_empty.templates (programParts ctx is)
    rw [← hasm] at hfollows
    have hempty : ({} : Plan).Ordered := ⟨nofun, List.Pairwise.nil⟩
    refine ⟨hpasses, hordered, ?_, fun t => ?_⟩
    · exact hfollows.buffer.finished hfollows.sound (hempty.templates _)
        (CodeBuffer.finish_of_finalize hmemory)
    · rw [Plan.placed_key_ofProgram]
      exact Compilation.find?_map hpasses hordered t
  · cases hfinalize

theorem Program.finishes_of_listing {vm : Instance} {config : Config} {p : Program}
    {is : List Instruction}
    (hcompile : Program.ofInstance config vm = .ok p) (hlisting : Decodes vm.code 0 is none) :
    p.Finishes (.ofInstance config vm) is := by
  obtain ⟨is', hdecodes, -, hfinishes, -⟩ := Program.finishes_of_compile hcompile
  obtain ⟨rfl, -⟩ := hdecodes.unique hlisting
  exact hfinishes

/-! ## Section 6: Computed branches -/

namespace Environment

variable {env : Environment} {m : Machine} {back : Word}

/-- A helper goes back to the address on the native stack with its result. -/
theorem helperReturn_ok (env : Environment) (h : m.load64 (m.reg .rsp) = .ok back) (v : Word) :
    ∃ m', env.helperReturn m v = .ok m' ∧ m'.reg .rax = v ∧ m'.rip = back ∧ m'.host = m.host ∧
      m'.layout = m.layout := by
  have hpop : m.pop = .ok (back, m.setReg .rsp (m.reg .rsp + 8)) := by
    rw [Machine.pop, h]
    rfl
  have hreturn : ∃ m', env.helperReturn m v = .ok m' := by
    rw [helperReturn, hpop]
    exact ⟨_, rfl⟩
  obtain ⟨m', hm'⟩ := hreturn
  refine ⟨m', hm', ?_⟩
  rw [helperReturn, hpop] at hm'
  cases hm'
  exact ⟨rfl, rfl, rfl, rfl⟩

/-- Asked for this code address, the helper that finds code answers with an address in the
    compiled code, which is not zero when the code fits into the address space. -/
def Finds (env : Environment) (t : Cell) (o : Nat) : Prop :=
  ∀ (m : Machine) (back : Word), m.reg32 .rsi = t → m.load64 (m.reg .rsp) = .ok back →
    ∃ m', env.helpFind m = .ok m' ∧ m'.rip = back ∧ m'.host = m.host ∧
      m'.reg .rax = env.layout.code + BitVec.ofNat 64 o ∧
      (env.layout.code.toNat + env.program.code.size < 0x10000000000000000 → m'.reg .rax ≠ 0)

/-- Asked for this code address, the helper that finds code answers with zero, and the record of
    the call says that there is no such instruction. -/
def Misses (env : Environment) (t : Cell) : Prop :=
  ∀ (m noted : Machine) (back : Word), m.reg32 .rsi = t →
    noteFault m (m.reg .rdi) .invalidInstruction = .ok noted →
    noted.load64 (noted.reg .rsp) = .ok back →
    ∃ m', env.helpFind m = .ok m' ∧ m'.rip = back ∧ m'.host = noted.host ∧ m'.reg .rax = 0 ∧
      m'.load32 (m.reg .rdi + BitVec.ofNat 64 CallField.error.offset) =
        .ok Fault.invalidInstruction.code

theorem finds_of_offset {t : Cell} {o : Nat} (ho : env.program.offset? t = some o)
    (hpos : 0 < o ∧ o ≤ env.program.code.size) : env.Finds t o := by
  rintro m back rfl hback
  obtain ⟨m', hreturn, hrax, hrip, hhost, -⟩ := env.helperReturn_ok hback
    (env.layout.code + BitVec.ofNat 64 o)
  refine ⟨m', ?_, hrip, hhost, hrax, fun hfits => ?_⟩
  · rw [helpFind, codeAddress?, ho]
    exact hreturn
  · -- The sum of the base and the offset does not wrap.
    rw [hrax, ne_eq, ← BitVec.toNat_inj, BitVec.toNat_add, BitVec.toNat_ofNat]
    show ¬_ = 0
    omega

theorem misses_of_offset {t : Cell} (ho : env.program.offset? t = none) : env.Misses t := by
  rintro m noted back rfl hnoted hback
  obtain ⟨m', hreturn, hrax, hrip, hhost, hlayout⟩ := env.helperReturn_ok hback 0
  refine ⟨m', ?_, hrip, hhost, hrax, ?_⟩
  · rw [helpFind, codeAddress?, ho]
    show (noteFault m (m.reg .rdi) .invalidInstruction >>= fun m => env.helperReturn m 0) = _
    rw [hnoted]
    exact hreturn
  · have hread := Machine.load32_store32_self hnoted
    rwa [Machine.load32, hhost, hlayout]

end Environment

/-! ## Section 7: Where branches lead -/

/-- The code of an instruction is where the code map says. Its branches into the bytecode are
    those that the instruction names, and all its branches lead to their targets. -/
def Program.Realizes (p : Program) (ctx : Context) (stubAt : Stub → Option Nat)
    (i : Instruction) : Prop :=
  ∃ ls o markAt, template ctx i = .ok ls ∧ ls.filterMap Line.key? = i.leads ∧
    p.offset? i.address = some o ∧ p.code.Holds (p.find stubAt markAt) o ls

/-- **Branches.** In a compiled program every branch leads to the place of its target: direct
    branches to where the code map says, a switch to its case table, and branches to faults to the
    one stub of the fault. Computed branches find what direct ones lead to, and an address that is
    no instruction is a fault. No label is bound twice on the way. -/
theorem branches_lead_to_targets {vm : Instance} {config : Config} {p : Program}
    (hcompile : Program.ofInstance config vm = .ok p) :
    ∃ is stubAt, Decodes vm.code 0 is none ∧
      (∀ t, (p.offset? t).isSome ↔ ∃ i ∈ is, i.address = t) ∧
      (∀ i ∈ is, p.Realizes (.ofInstance config vm) stubAt i ∧
        (i.opcode = .switch → ∃ j ∈ is, j.opcode = .casetbl ∧ j.address = i.arg)) ∧
      p.code.Holds (p.find stubAt fun _ => none) 0 prologue ∧
      (∀ f o, stubAt (.fault f) = some o →
        p.code.Holds (p.find stubAt fun _ => none) o (faultLines f)) ∧
      (∀ env : Environment, env.program = p → ∀ t,
        (∀ o, p.offset? t = some o → env.Finds t o) ∧ (p.offset? t = none → env.Misses t)) ∧
      ∃ c, Compilation.translate (.ofInstance config vm) vm.code = .ok c ∧
        c.asm = ({} : Assembly).templates (programParts (.ofInstance config vm) is) ∧
        (({} : Assembly).boundByTemplates (programParts (.ofInstance config vm) is)).Nodup := by
  obtain ⟨is, hlisting, hmissing, hfinishes, c, htranslate, hasm⟩ :=
    Program.finishes_of_compile hcompile
  have htargets := forall_not_missing_iff.mp hmissing
  refine ⟨is, fun s => (Plan.ofProgram (.ofInstance config vm) is).placed (.stub s), hlisting,
    hfinishes.offset_isSome_iff, fun i hi => ⟨?_, (htargets i hi).2⟩, hfinishes.holds_prologue,
    fun f o => hfinishes.holds_fault, ?_, c, htranslate, hasm, ?_⟩
  · obtain ⟨part, ls, o, hls, hnamed, hoffset, -, hholds⟩ := hfinishes.holds_body hi
    exact ⟨ls, o, _, hls, hnamed.keys, hoffset, hfinishes.holds_find hholds⟩
  · rintro env rfl t
    refine ⟨fun o ho => ?_, Environment.misses_of_offset⟩
    obtain ⟨i, hi, rfl⟩ := (hfinishes.offset_isSome_iff t).mp (by rw [ho]; rfl)
    obtain ⟨part, ls, o', -, -, hoffset, hbounds, -⟩ := hfinishes.holds_body hi
    rw [ho, Option.some_inj] at hoffset
    rw [← hoffset] at hbounds
    exact Environment.finds_of_offset ho hbounds
  · exact Assembly.follows_empty.nodup_boundByTemplates
      (Plan.nodup_allOwners_program hfinishes.passes hfinishes.ordered)

/-- In the code of the sample image, the jump of the switch leads to the case table. -/
theorem switchImage_leads_to_cases :
    ∃ p o d dest, Instance.load switchImage = .ok switchInstance ∧
      Program.ofInstance {} switchInstance = .ok p ∧ p.offset? 0 = some o ∧
      p.code.readAt o = some (.jmp d, 5) ∧ p.offset? 8 = some dest ∧
      (o + 5 : Int) + d.toInt = dest := by
  have hok : (Program.ofInstance {} switchInstance).toOption.isSome := by decide +kernel
  obtain ⟨p, hp⟩ := exists_ok_of_isSome hok
  obtain ⟨is, stubAt, hlisting, -, hrealizes, -⟩ := branches_lead_to_targets hp
  obtain ⟨rfl, -⟩ := hlisting.unique decodes_switchListing
  obtain ⟨⟨ls, o, markAt, hls, -, hoffset, hholds⟩, -⟩ :=
    hrealizes ⟨0, .switch, [8]⟩ List.mem_cons_self
  have htemplate : template (.ofInstance {} switchInstance) ⟨0, .switch, [8]⟩ =
      .ok [.jmp (.cases 8)] := by decide +kernel
  obtain rfl : [.jmp (.cases 8)] = ls := Except.ok.inj (htemplate.symm.trans hls)
  obtain ⟨⟨d, dest, hread, hdest, hsum⟩, -⟩ := hholds
  exact ⟨p, o, d, dest, load_switchImage, hp, hoffset, hread, hdest, hsum⟩

end PawnNative
