import Mathlib.Tactic.Common
import PawnNative.Proofs.Patching
import PawnNative.Proofs.Streams

/-! # Displacements are exact

    A buffer is filled by operations, one after the other, and a reference may come
    before or after the binding of its label, which may still move. What the finished
    code has to be is read off the operations alone: `history` gives each of them the
    offset at which it is made, and from it come the bytes that are emitted, the slots
    that wait for a label and the offset at the last binding of a label.

    `Records` ties a buffer to its history; each operation preserves it, so every
    sequence of operations does. The slots of a history follow each other inside the
    code, hence each can be filled in on its own.
-/

namespace PawnNative

namespace CodeBuffer

/-! ## Section 1: Operations -/

/-- An operation on a code buffer. -/
inductive Operation where
  /-- Appends bytes, be they those of a number or those of an instruction. -/
  | emit (bytes : List Byte)
  /-- Appends a slot for the distance to a label. -/
  | reference (l : Label)
  | newLabel
  | bind (l : Label)
  | align (n : Nat)
  deriving DecidableEq, Repr

def operate? (b : CodeBuffer) : Operation → Option CodeBuffer
  | .emit bytes => some (b.emit bytes)
  | .reference l => some (b.reference l)
  | .newLabel => some b.newLabel.2
  | .bind l => some (b.bind l)
  | .align n => b.align? n

def operateAll? (b : CodeBuffer) : List Operation → Option CodeBuffer
  | [] => some b
  | op :: ops => (b.operate? op).bind fun b => b.operateAll? ops

namespace Operation

/-- The number of labels that an operation makes. -/
def made : Operation → Nat
  | .newLabel => 1
  | _ => 0

/-- Whether an operation can be made when there are `n` labels. -/
def Allowed (n : Nat) : Operation → Prop
  | .bind l => l.index < n
  | .align k => k ≠ 0
  | _ => True

/-- Labels are bound after they are made, `n` of them before the first operation,
    and no alignment is zero. -/
def Admissible : Nat → List Operation → Prop
  | _, [] => True
  | n, op :: ops => op.Allowed n ∧ Admissible (n + op.made) ops

/-- The bytes that an operation appends at an offset. -/
def bytes (o : Nat) : Operation → List Byte
  | .emit bytes => bytes
  | .reference _ => Cell.bytes 0
  | .align n => List.replicate ((n - o % n) % n) 0xCC
  | .newLabel | .bind _ => []

/-- The label that an operation refers to. -/
def label? : Operation → Option Label
  | .reference l => some l
  | _ => none

end Operation

/-- An operation with the offset of the next byte when it is made. -/
structure Entry where
  op : Operation
  offset : Nat
  deriving DecidableEq, Repr

/-- The operations with the offsets at which they are made, from an offset on. -/
def history (o : Nat) : List Operation → List Entry
  | [] => []
  | op :: ops => ⟨op, o⟩ :: history (o + (op.bytes o).length) ops

namespace Entry

def emitted (t : List Entry) : List Byte := t.flatMap fun e => e.op.bytes e.offset

def slots (t : List Entry) : List Reference := t.filterMap fun e => e.op.label?.map (⟨e.offset, ·⟩)

/-- The offset at the last binding of a label. -/
def boundTo? (t : List Entry) (l : Label) : Option Nat :=
  (t.reverse.find? fun e => e.op = .bind l).map (·.offset)

/-- The first slot whose label is not bound in the end. -/
def unbound? (t : List Entry) : Option Reference :=
  (slots t).find? fun r => (boundTo? t r.label).isNone

end Entry

/-! ## Section 2: Buffers and their histories -/

/-- What a buffer knows is what its history says. -/
structure Records (b : CodeBuffer) (t : List Entry) : Prop where
  code : b.code.toList = Entry.emitted t
  refs : b.refs.toList = Entry.slots t
  labels : ∀ l, b.labelOffset? l = Entry.boundTo? t l

theorem records_empty : ({} : CodeBuffer).Records [] := ⟨rfl, rfl, fun _ => rfl⟩

namespace Entry

variable {t : List Entry} {e : Entry}

theorem emitted_concat : emitted (t ++ [e]) = emitted t ++ e.op.bytes e.offset := by
  simp [emitted]

theorem slots_concat : slots (t ++ [e]) = slots t ++ (e.op.label?.map (⟨e.offset, ·⟩)).toList := by
  rw [slots, List.filterMap_append, ← slots]
  cases h : e.op.label? with
  | none => simp [h]
  | some l => simp [h]

theorem boundTo?_concat (l : Label) :
    boundTo? (t ++ [e]) l = if e.op = .bind l then some e.offset else boundTo? t l := by
  unfold boundTo?
  rw [List.reverse_append, List.reverse_singleton, List.singleton_append, List.find?_cons]
  split_ifs with hop
  · rw [decide_eq_true hop]
    rfl
  · rw [decide_eq_false hop]

end Entry

variable {b b' : CodeBuffer} {t : List Entry} {op : Operation} {ops : List Operation}

theorem padding_eq {n : Nat} (hn : n ≠ 0) (o : Nat) :
    (o + n - 1) / n * n - o = (n - o % n) % n := by
  have hdecompose := Nat.div_add_mod o n
  have hlt := Nat.mod_lt o (Nat.pos_of_ne_zero hn)
  generalize o / n = q at hdecompose
  generalize o % n = r at hdecompose hlt
  subst hdecompose
  rcases Nat.eq_zero_or_pos r with rfl | hr
  · rw [Nat.sub_zero, Nat.mod_self, Nat.add_zero, Nat.add_sub_assoc (Nat.pos_of_ne_zero hn),
      Nat.mul_add_div (Nat.pos_of_ne_zero hn), Nat.div_eq_of_lt (by omega), Nat.add_zero,
      Nat.mul_comm q, Nat.sub_self]
  · have hquotient : (n * q + r + n - 1) / n = q + 1 := by
      rw [show n * q + r + n - 1 = n * (q + 1) + (r - 1) by rw [Nat.mul_succ]; omega,
        Nat.mul_add_div (Nat.pos_of_ne_zero hn), Nat.div_eq_of_lt (by omega), Nat.add_zero]
    rw [hquotient, Nat.mod_eq_of_lt (by omega), Nat.succ_mul, Nat.mul_comm q]
    omega

/-- What an operation makes of code, references and labels. -/
structure Makes (b : CodeBuffer) (op : Operation) (b' : CodeBuffer) : Prop where
  code : b'.code.toList = b.code.toList ++ op.bytes b.offset
  refs : b'.refs.toList = b.refs.toList ++ (op.label?.map (⟨b.offset, ·⟩)).toList
  labels : ∀ l, b'.labelOffset? l = if op = .bind l then some b.offset else b.labelOffset? l
  size : b'.labels.size = b.labels.size + op.made

theorem exists_operate (hop : op.Allowed b.labels.size) :
    ∃ b', b.operate? op = some b' ∧ b.Makes op b' := by
  cases op with
  | emit bytes =>
    refine ⟨_, rfl, ?_, (List.append_nil _).symm, fun _ => rfl, rfl⟩
    simp [CodeBuffer.emit, Operation.bytes]
  | reference l =>
    refine ⟨_, rfl, ?_, ?_, fun _ => rfl, rfl⟩
    · simp [CodeBuffer.reference, Operation.bytes]
    · simp [CodeBuffer.reference, Operation.label?]
  | newLabel =>
    refine ⟨_, rfl, (List.append_nil _).symm, (List.append_nil _).symm, fun l => ?_,
      Array.size_push ..⟩
    rw [if_neg nofun, labelOffset?, labelOffset?, CodeBuffer.newLabel, Array.getElem?_push]
    -- A new label is not bound yet, and looking it up gives nothing as before.
    split_ifs with hindex
    · rw [hindex, Array.getElem?_eq_none (Nat.le_refl _)]
      rfl
    · rfl
  | bind l =>
    refine ⟨_, rfl, (List.append_nil _).symm, (List.append_nil _).symm, fun l' => ?_,
      Array.size_setIfInBounds ..⟩
    rw [labelOffset?, labelOffset?, CodeBuffer.bind]
    by_cases hl : l = l'
    · subst hl
      rw [if_pos rfl, Array.getElem?_setIfInBounds_self_of_lt hop]
      rfl
    · have hindex : l.index ≠ l'.index := fun h => hl (congrArg Label.mk h)
      rw [if_neg fun h => hl (Operation.bind.inj h), Array.getElem?_setIfInBounds_ne hindex]
  | align n =>
    have halign : b.align? n = some (b.emit (List.replicate ((n - b.offset % n) % n) 0xCC)) := by
      rw [← padding_eq hop]
      exact if_neg hop
    refine ⟨_, halign, ?_, (List.append_nil _).symm, fun _ => rfl, rfl⟩
    simp [CodeBuffer.emit, Operation.bytes]

/-- **Step.** An operation is recorded with the offset at which it is made. -/
theorem Records.of_makes (h : b.Records t) (hmakes : b.Makes op b') :
    b'.Records (t ++ [⟨op, b.offset⟩]) where
  code := by rw [hmakes.code, h.code, Entry.emitted_concat]
  refs := by rw [hmakes.refs, h.refs, Entry.slots_concat]
  labels := fun l => by rw [hmakes.labels, h.labels, Entry.boundTo?_concat]

/-- **Run.** Admissible operations can be made, and all of them are recorded. -/
theorem Records.operateAll (h : b.Records t) (hops : Operation.Admissible b.labels.size ops) :
    ∃ b', b.operateAll? ops = some b' ∧ b'.Records (t ++ history b.offset ops) := by
  induction ops generalizing b t with
  | nil => exact ⟨b, rfl, by rwa [history, List.append_nil]⟩
  | cons op ops ih =>
    obtain ⟨b₁, hb₁, hmakes⟩ := exists_operate hops.1
    have hoffset : b₁.offset = b.offset + (op.bytes b.offset).length := by
      rw [offset, ← Array.length_toList, hmakes.code, List.length_append,
        Array.length_toList, ← offset]
    obtain ⟨b', hb', hrecords⟩ := ih (h.of_makes hmakes) (hmakes.size ▸ hops.2)
    refine ⟨b', ?_, ?_⟩
    · rw [operateAll?, hb₁, Option.bind_some, hb']
    · rwa [hoffset, List.append_assoc, List.singleton_append] at hrecords

/-! ## Section 3: Slots -/

/-- An operation is made between the start of its history and the end of what is emitted, and so are
    the bytes that it appends. -/
theorem offset_bounds {e : Entry} {o : Nat} (he : e ∈ history o ops) :
    o ≤ e.offset ∧ e.offset + (e.op.bytes e.offset).length ≤
      o + (Entry.emitted (history o ops)).length := by
  induction ops generalizing o with
  | nil => cases he
  | cons op ops ih =>
    rw [history, Entry.emitted, List.flatMap_cons, List.length_append, ← Entry.emitted]
    rcases List.mem_cons.mp he with rfl | he
    · exact ⟨Nat.le_refl _, by dsimp only; omega⟩
    · have hrest := ih he
      dsimp only
      omega

theorem slot_bounds {r : Reference} {o : Nat} (hr : r ∈ Entry.slots (history o ops)) :
    o ≤ r.offset ∧ r.offset + 4 ≤ o + (Entry.emitted (history o ops)).length := by
  obtain ⟨e, he, hlabel⟩ := List.mem_filterMap.mp hr
  obtain ⟨l, hl, rfl⟩ := Option.map_eq_some_iff.mp hlabel
  have hbounds := offset_bounds he
  have hlength : (e.op.bytes e.offset).length = 4 := by
    cases hop : e.op with
    | reference l' => rfl
    | _ =>
      rw [hop] at hl
      cases hl
  rwa [hlength] at hbounds

theorem boundTo?_le {l : Label} {target o : Nat}
    (h : Entry.boundTo? (history o ops) l = some target) :
    target ≤ o + (Entry.emitted (history o ops)).length := by
  obtain ⟨e, he, rfl⟩ := Option.map_eq_some_iff.mp h
  have hbounds := offset_bounds (List.mem_reverse.mp (List.mem_of_find?_eq_some he))
  omega

theorem apart_slots (o : Nat) (ops : List Operation) : Apart (Entry.slots (history o ops)) := by
  induction ops generalizing o with
  | nil => exact .nil
  | cons op ops ih =>
    have hrest := ih (o + (op.bytes o).length)
    cases op with
    | reference l =>
      refine .cons (fun s hs => ?_) hrest
      exact (slot_bounds hs).1
    | _ => exact hrest

/-! ## Section 4: Filling in the slots -/

/-- Filling in stops at the first reference whose label is not bound, when all other distances
    fit. -/
theorem foldlM_patch_unbound {refs : List Reference} {r : Reference}
    (hfits : ∀ s ∈ refs, (b.labelOffset? s.label).isSome → ∃ d, b.distance s = .ok d)
    (hfirst : refs.find? (fun s => (b.labelOffset? s.label).isNone) = some r) (code : Block) :
    refs.foldlM b.patch code = .error (.unbound r.label) := by
  induction refs generalizing code with
  | nil => cases hfirst
  | cons s refs ih =>
    obtain ⟨hs, hrefs⟩ := List.forall_mem_cons.mp hfits
    rw [List.foldlM_cons]
    cases hlabel : b.labelOffset? s.label with
    | none =>
      rw [List.find?_cons_of_pos (by rw [hlabel]; rfl)] at hfirst
      obtain rfl : s = r := Option.some.inj hfirst
      have hdistance : b.distance s = .error (.unbound s.label) := by rw [distance, hlabel]
      rw [patch, hdistance]
      rfl
    | some target =>
      rw [List.find?_cons_of_neg (by simp [hlabel])] at hfirst
      obtain ⟨d, hd⟩ := hs (by rw [hlabel]; rfl)
      have hpatch : b.patch code s = .ok (code.overwrite s.offset d.bytes) := by
        rw [patch, hd]
        rfl
      rw [hpatch, ok_bind]
      exact ih hrefs hfirst _

/-- Finished code: what was emitted, with the distance to its label in every slot. -/
structure Filled (t : List Entry) (code : Block) : Prop where
  size : code.size = (Entry.emitted t).length
  /-- Bytes outside of the slots are those that were emitted. -/
  frame : ∀ j, (∀ r ∈ Entry.slots t, ¬r.Covers j) → code[j]? = (Entry.emitted t)[j]?
  /-- A distance counts from the end of its slot to the last binding. -/
  slot : ∀ r ∈ Entry.slots t, ∃ target d, Entry.boundTo? t r.label = some target ∧
    code.cell? r.offset = some d ∧ d.toInt = (target : Int) - (r.offset + 4)

end CodeBuffer

/-- A cell is read where its four bytes stand. -/
theorem Block.cell?_of_getElem? {b : Block} {o : Nat} {c : Cell}
    (h : ∀ k < 4, b[o + k]? = c.bytes[k]?) : b.cell? o = some c := by
  refine cell?_eq_some_iff.mpr ⟨b.toList.drop (o + 4), List.ext_getElem? fun k => ?_⟩
  rw [List.getElem?_drop, Array.getElem?_toList]
  rcases Nat.lt_or_ge k 4 with hk | hk
  · rw [h k hk, List.getElem?_append_left hk]
  · rw [List.getElem?_append_right hk, List.getElem?_drop, Array.getElem?_toList, Cell.length_bytes,
      show o + 4 + (k - Cell.width) = o + k by rw [show Cell.width = 4 from rfl]; omega]

namespace CodeBuffer

variable {b : CodeBuffer} {ops : List Operation}

/-- In code that a branch can cross, the distance to a label that is bound can be stored. -/
theorem Records.exists_distance (h : b.Records (history 0 ops))
    (hsize : (Entry.emitted (history 0 ops)).length < 0x80000000) {r : Reference}
    (hr : r ∈ b.refs.toList)
    (hbound : (b.labelOffset? r.label).isSome) : ∃ d, b.distance r = .ok d := by
  obtain ⟨target, htarget⟩ := Option.isSome_iff_exists.mp hbound
  have hcode : b.code.size = (Entry.emitted (history 0 ops)).length := by
    rw [← h.code, Array.length_toList]
  have hslot := slot_bounds (h.refs ▸ hr)
  have hle := boundTo?_le ((h.labels r.label).symm.trans htarget)
  exact CodeBuffer.exists_distance htarget (by omega) (by omega) (by omega)

theorem Records.filled (h : b.Records (history 0 ops)) {code : Block}
    (hfinish : b.finish = .ok code) : Filled (history 0 ops) code := by
  have hcode : b.code.size = (Entry.emitted (history 0 ops)).length := by
    rw [← h.code, Array.length_toList]
  have hroom : ∀ r ∈ b.refs.toList, r.offset + 4 ≤ b.code.size := by
    intro r hr
    have hslot := slot_bounds (h.refs ▸ hr)
    omega
  obtain ⟨hsize, hframe, hslots⟩ := foldlM_patch_spec (h.refs ▸ apart_slots 0 ops) hroom hfinish
  rw [h.refs] at hframe hslots
  refine ⟨hsize.trans hcode, fun j hj => ?_, fun r hr => ?_⟩
  · rw [hframe j hj, ← h.code, Array.getElem?_toList]
  · obtain ⟨d, hd, hbytes⟩ := hslots r hr
    obtain ⟨target, htarget, hsum⟩ := toInt_distance hd
    exact ⟨target, d, by rw [← h.labels, htarget], Block.cell?_of_getElem? hbytes, by omega⟩

/-- **Displacements.** Admissible operations that emit less than 2³¹ bytes give a buffer with these
    bytes. It can be finished exactly when every label that is referred to is bound in the end, and
    else the first slot whose label is not is named; the finished code has the distance to the last
    binding of its label in every slot, and the slots do not overlap. -/
theorem displacements_are_exact {ops : List Operation} (hops : Operation.Admissible 0 ops)
    (hsize : (Entry.emitted (history 0 ops)).length < 0x80000000) :
    ∃ b, ({} : CodeBuffer).operateAll? ops = some b ∧
      b.code.toList = Entry.emitted (history 0 ops) ∧ ((∃ code, b.finish = .ok code) ↔
        ∀ r ∈ Entry.slots (history 0 ops), (Entry.boundTo? (history 0 ops) r.label).isSome) ∧
      (∀ r, Entry.unbound? (history 0 ops) = some r → b.finish = .error (.unbound r.label)) ∧
      (∀ code, b.finish = .ok code → Filled (history 0 ops) code) ∧
      Apart (Entry.slots (history 0 ops)) := by
  obtain ⟨b, hrun, h⟩ := records_empty.operateAll hops
  rw [List.nil_append, show ({} : CodeBuffer).offset = 0 from rfl] at h
  have hfits : ∀ r ∈ b.refs.toList, (b.labelOffset? r.label).isSome → ∃ d, b.distance r = .ok d :=
    fun r hr hbound => h.exists_distance hsize hr hbound
  have hunbound : ∀ r, Entry.unbound? (history 0 ops) = some r →
      b.finish = .error (.unbound r.label) := by
    intro r hr
    refine foldlM_patch_unbound hfits ?_ _
    simp only [h.refs, h.labels]
    exact hr
  refine ⟨b, hrun, h.code, ⟨?_, ?_⟩, hunbound, fun code => h.filled, apart_slots 0 ops⟩
  · rintro ⟨code, hcode⟩ r hr
    obtain ⟨target, -, htarget, -⟩ := (h.filled hcode).slot r hr
    rw [htarget]
    rfl
  · intro hbound
    refine exists_foldlM_patch (fun r hr => hfits r hr ?_) b.code
    rw [h.labels]
    exact hbound r (h.refs ▸ hr)

/-- A branch ahead to a label that is bound behind it, padding, a branch to the same label, a branch
    back to the start, and another binding of the label at the end. -/
def movingLabel : List Operation :=
  [.newLabel, .newLabel, .bind ⟨0⟩, .emit [0xE9], .reference ⟨1⟩, .bind ⟨1⟩, .align 8,
    .emit [0x0F, 0x84],
   .reference ⟨1⟩, .emit [0xE9], .reference ⟨0⟩, .bind ⟨1⟩]

/-- Both branches go to the last binding. -/
theorem movingLabel_is_exact : ∃ b code, ({} : CodeBuffer).operateAll? movingLabel = some b ∧
    b.finish = .ok code ∧ code.size = 19 ∧ code.cell? 1 = some 14 ∧ code.cell? 10 = some 5 ∧
      code.cell? 15 = some (-19) := by
  have hops : Operation.Admissible 0 movingLabel := by
    simp [movingLabel, Operation.Admissible, Operation.Allowed, Operation.made]
  obtain ⟨b, hrun, -, hfinish, -, hfilled, -⟩ := displacements_are_exact hops (by decide)
  obtain ⟨code, hcode⟩ := hfinish.mpr (by decide)
  obtain ⟨hsize, -, hslots⟩ := hfilled code hcode
  have hcell : ∀ r ∈ Entry.slots (history 0 movingLabel), ∀ target (v : Cell),
      Entry.boundTo? (history 0 movingLabel) r.label = some target →
      v.toInt = (target : Int) - (r.offset + 4) → code.cell? r.offset = some v := by
    intro r hr target v htarget hv
    obtain ⟨target', d, htarget', hd, hdistance⟩ := hslots r hr
    cases htarget.symm.trans htarget'
    rw [hd, BitVec.eq_of_toInt_eq (hdistance.trans hv.symm)]
  exact ⟨b, code, hrun, hcode, hsize.trans (by decide), hcell ⟨1, ⟨1⟩⟩ (by decide) 19 14
      (by decide) (by decide),
    hcell ⟨10, ⟨1⟩⟩ (by decide) 19 5 (by decide) (by decide),
    hcell ⟨15, ⟨0⟩⟩ (by decide) 0 (-19) (by decide) (by decide)⟩

end CodeBuffer

end PawnNative
