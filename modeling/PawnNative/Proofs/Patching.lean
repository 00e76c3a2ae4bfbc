import Mathlib.Tactic.Common
import PawnNative.Code.Buffer
import PawnNative.Proofs.Outcome

/-! # Finished code

    Finishing a code buffer fills in the distances that its branches wait for.
    References that do not overlap are filled in independently of each other:
    every one holds its own distance in the end, and no other byte changes.
    Moving the finished code to sealed memory keeps it as it is.
-/

namespace PawnNative

/-! ## Section 1: Overwriting -/

namespace Block

theorem getElem?_overwrite_frame (b : Block) {o j : Nat} {bytes : List Byte}
    (h : j < o ∨ o + bytes.length ≤ j) : (b.overwrite o bytes)[j]? = b[j]? := by
  induction bytes generalizing b o with
  | nil => rfl
  | cons v rest ih =>
    have hout : j < o + 1 ∨ o + 1 + rest.length ≤ j := by
      simp only [List.length_cons] at h
      omega
    have hne : o ≠ j := by
      simp only [List.length_cons] at h
      omega
    rw [overwrite, ih _ hout, Array.getElem?_setIfInBounds_ne hne]

theorem getElem?_overwrite_slot (b : Block) {o k : Nat} {bytes : List Byte}
    (hroom : o + bytes.length ≤ b.size) (hk : k < bytes.length) :
    (b.overwrite o bytes)[o + k]? = bytes[k]? := by
  induction bytes generalizing b o k with
  | nil => exact absurd hk (Nat.not_lt_zero k)
  | cons v rest ih =>
    simp only [List.length_cons] at hroom hk
    cases k with
    | zero =>
      have hin : o < b.size := by omega
      rw [overwrite, getElem?_overwrite_frame _ (Or.inl (by omega))]
      simp [hin]
    | succ k =>
      rw [overwrite, show o + (k + 1) = o + 1 + k by omega, ih _ (by simp; omega) (by omega)]
      simp

theorem overwrite_zero (b : Block) {bytes : List Byte} (h : b.size = bytes.length) :
    b.overwrite 0 bytes = bytes.toArray := by
  apply Array.ext_getElem?
  intro j
  by_cases hj : j < bytes.length
  · have hslot := getElem?_overwrite_slot b (o := 0) (by omega) hj
    simpa using hslot
  · have hsize : (b.overwrite 0 bytes).size ≤ j := by
      rw [size_overwrite]
      omega
    rw [Array.getElem?_eq_none hsize]
    simp only [List.getElem?_toArray]
    exact (List.getElem?_eq_none (Nat.le_of_not_lt hj)).symm

theorem overwrite_part (before after : List Byte) {old new : List Byte}
    (hlength : old.length = new.length) :
    overwrite (before ++ (old ++ after)).toArray before.length new =
      (before ++ (new ++ after)).toArray := by
  induction new generalizing before old with
  | nil =>
    obtain rfl := List.eq_nil_of_length_eq_zero hlength
    rfl
  | cons v new ih =>
    obtain ⟨x, old, rfl⟩ := List.exists_cons_of_length_eq_add_one hlength
    have hset : (before ++ (x :: old ++ after)).toArray.setIfInBounds before.length v =
        ((before ++ [v]) ++ (old ++ after)).toArray := by
      apply Array.toList_inj.mp
      simp
    have hrest := ih (before ++ [v]) (Nat.succ_inj.mp hlength)
    rw [List.length_append, List.length_singleton] at hrest
    rw [overwrite, hset, hrest]
    simp

end Block

/-! ## Section 2: Filling in references -/

/-- Whether a byte belongs to a reference. -/
def Reference.Covers (r : Reference) (j : Nat) : Prop := r.offset ≤ j ∧ j < r.offset + 4

/-- References that come one after the other. -/
def Apart (refs : List Reference) : Prop := refs.Pairwise fun r s => r.offset + 4 ≤ s.offset

namespace CodeBuffer

variable {b : CodeBuffer}

/-- A distance leads from the end of its four bytes to the label. -/
theorem toInt_distance {r : Reference} {d : Cell} (h : b.distance r = .ok d) :
    ∃ target, b.labelOffset? r.label = some target ∧
      (r.offset + 4 : Int) + d.toInt = target := by
  unfold distance at h
  split at h
  next => cases h
  next target hl =>
    refine ⟨target, hl, ?_⟩
    simp only at h
    split_ifs at h with hrange
    cases h
    rw [Cell.ofInt, BitVec.toInt_ofInt, Int.bmod_eq_of_le (by omega) (by omega)]
    omega

/-- One reference: its four bytes hold the distance, the others are as they were. -/
theorem patch_spec {code code' : Block} {r : Reference} (h : b.patch code r = .ok code')
    (hroom : r.offset + 4 ≤ code.size) :
    code'.size = code.size ∧
    (∀ j, ¬ r.Covers j → code'[j]? = code[j]?) ∧
    ∃ d, b.distance r = .ok d ∧ ∀ k < 4, code'[r.offset + k]? = d.bytes[k]? := by
  obtain ⟨d, hd, hcode⟩ := bind_eq_ok.mp h
  obtain rfl : code.overwrite r.offset d.bytes = code' := Except.ok.inj hcode
  have hlen : d.bytes.length = 4 := rfl
  refine ⟨Block.size_overwrite .., ?_, d, hd, ?_⟩
  · intro j hj
    apply Block.getElem?_overwrite_frame
    unfold Reference.Covers at hj
    omega
  · intro k hk
    exact Block.getElem?_overwrite_slot code (by omega) (by omega)

/-- All references: each holds its own distance, and no other byte has changed. The induction
    is on the references; those that follow stay clear of the first one. -/
theorem foldlM_patch_spec {refs : List Reference} {code code' : Block} (hapart : Apart refs)
    (hroom : ∀ r ∈ refs, r.offset + 4 ≤ code.size)
    (h : refs.foldlM b.patch code = .ok code') :
    code'.size = code.size ∧
    (∀ j, (∀ r ∈ refs, ¬ r.Covers j) → code'[j]? = code[j]?) ∧
    ∀ r ∈ refs, ∃ d, b.distance r = .ok d ∧ ∀ k < 4, code'[r.offset + k]? = d.bytes[k]? := by
  induction refs generalizing code with
  | nil =>
    obtain rfl : code = code' := by simpa [pure, Except.pure] using h
    exact ⟨rfl, fun _ _ => rfl, fun r hr => absurd hr List.not_mem_nil⟩
  | cons r refs ih =>
    rw [List.foldlM_cons] at h
    obtain ⟨code₁, hp, hrest⟩ := bind_eq_ok.mp h
    obtain ⟨hsize, hframe, d, hd, hslot⟩ := patch_spec hp (hroom r List.mem_cons_self)
    obtain ⟨hafter, happart⟩ := List.pairwise_cons.mp hapart
    obtain ⟨hsize', hframe', hslot'⟩ := ih happart
      (fun s hs => hsize ▸ hroom s (List.mem_cons_of_mem _ hs)) hrest
    refine ⟨hsize'.trans hsize, ?_, ?_⟩
    · intro j hj
      rw [hframe' j fun s hs => hj s (List.mem_cons_of_mem _ hs)]
      exact hframe j (hj r List.mem_cons_self)
    · intro s hs
      rcases List.mem_cons.mp hs with rfl | hs
      · refine ⟨d, hd, fun k hk => ?_⟩
        -- Later patches are elsewhere, so that the bytes of this one stay.
        rw [hframe' (s.offset + k) fun t ht => ?_]
        · exact hslot k hk
        · have := hafter t ht
          unfold Reference.Covers
          omega
      · exact hslot' s hs

/-- In code that a branch can cross, the distance to a label that is bound in it can be stored. -/
theorem exists_distance {r : Reference} {target : Nat}
    (htarget : b.labelOffset? r.label = some target)
    (hle : target ≤ b.code.size) (hroom : r.offset + 4 ≤ b.code.size)
    (hsize : b.code.size < 0x80000000) : ∃ d, b.distance r = .ok d := by
  refine ⟨Cell.ofInt (target - (r.offset + 4)), ?_⟩
  rw [distance, htarget]
  exact if_pos (by omega)

/-- **Run.** References whose distances can all be stored can be filled in. -/
theorem exists_foldlM_patch {refs : List Reference} (h : ∀ r ∈ refs, ∃ d, b.distance r = .ok d)
    (code : Block) : ∃ code', refs.foldlM b.patch code = .ok code' := by
  induction refs generalizing code with
  | nil => exact ⟨code, rfl⟩
  | cons r refs ih =>
    obtain ⟨d, hd⟩ := h r List.mem_cons_self
    have hpatch : b.patch code r = .ok (code.overwrite r.offset d.bytes) := by
      rw [patch, hd]
      rfl
    rw [List.foldlM_cons, hpatch, ok_bind]
    exact ih (fun r' hr' => h r' (List.mem_cons_of_mem r hr')) _

/-! ## Section 3: Sealed code -/

end CodeBuffer

theorem CodeMemory.bytes_ofCode {code : Block} {pageSize : Nat} {m : CodeMemory}
    (h : ofCode code pageSize = .ok m) : m.bytes = code := by
  obtain ⟨m₀, hm₀, hrest⟩ := bind_eq_ok.mp h
  obtain ⟨m₁, hm₁, hseal⟩ := bind_eq_ok.mp hrest
  unfold map at hm₀
  split_ifs at hm₀
  cases hm₀
  unfold write at hm₁
  simp only [Bool.false_eq_true, ↓reduceIte, Nat.zero_add, Array.length_toList] at hm₁
  split_ifs at hm₁
  cases hm₁
  cases hseal
  simp only [makeExecutable, len, List.size_toArray, List.length_nil, Nat.zero_max]
  rw [Block.overwrite_zero _ (by simp)]

theorem CodeBuffer.finish_of_finalize {b : CodeBuffer} {m : CodeMemory}
    (h : b.finalize = .ok m) : b.finish = .ok m.bytes := by
  obtain ⟨code, hf, hrest⟩ := bind_eq_ok.mp h
  cases hm : CodeMemory.ofCode code with
  | error e => simp [hm] at hrest
  | ok m' =>
    obtain rfl : m' = m := by simpa [hm] using hrest
    rw [CodeMemory.bytes_ofCode hm, hf]

end PawnNative
