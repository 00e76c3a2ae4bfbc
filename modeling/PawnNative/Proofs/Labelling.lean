import Mathlib.Data.Finset.Card
import PawnNative.Proofs.Acceptance
import PawnNative.Proofs.Layout

/-! # Labels of keys

    A label table takes its labels from a code buffer, which is also used directly
    between two requests to the table: code is emitted, and labels that no key owns
    are made and bound. The log of a run says what table and buffer have to agree
    on: the labels that were answered, the keys that were asked for, and the offset
    at which each of them was bound last.

    A run follows a plan, as an assembly does; the labels that were made directly
    belong to places of a template that is over. `Tells` says that the plan knows
    what the log says, and each step preserves it.
-/

namespace PawnNative

namespace Labelling

/-! ## Section 1: Runs and their logs -/

/-- A label that was made or answered. -/
inductive Event where
  /-- Asks for the label of a key, for an instruction that refers to it. -/
  | get (k : LabelKey) (referrer : Cell) (label : Label)
  /-- Binds the label of a key to an offset. -/
  | bind (k : LabelKey) (offset : Nat) (label : Label)
  /-- Makes a label on the buffer itself. -/
  | newLabel (label : Label)
  deriving DecidableEq, Repr

namespace Event

def label : Event → Label
  | .get _ _ l | .bind _ _ l | .newLabel l => l

/-- The key that is mentioned. -/
def key? : Event → Option LabelKey
  | .get k _ _ | .bind k _ _ => some k
  | .newLabel _ => none

/-- The instruction that refers to a key. -/
def referrer? : Event → Option Cell
  | .get _ referrer _ => some referrer
  | .bind _ _ _ | .newLabel _ => none

def offset? : Event → Option Nat
  | .bind _ offset _ => some offset
  | .get _ _ _ | .newLabel _ => none

/-- What the label belongs to. -/
def owner (x : Event) : Owner := x.key?.elim (.mark 0 x.label.index) .key

end Event

def keys (log : List Event) : Finset LabelKey := (log.filterMap Event.key?).toFinset

/-- The offset at the last binding of a key. The last event is the head of the log. -/
def boundTo? (log : List Event) (k : LabelKey) : Option Nat :=
  log.findSome? fun x => if x.key? = some k then x.offset? else none

/-- The first mention of a key. -/
def first? (log : List Event) (k : LabelKey) : Option Event := log.reverse.find? (·.key? = some k)

/-- The runs of a table and its buffer, with their logs. Labels are bound directly only if
    they were made directly. -/
inductive Runs : List Event → LabelTable → CodeBuffer → Prop where
  | start : Runs [] {} {}
  | get {log t b} (k : LabelKey) (referrer : Cell) (h : Runs log t b) :
    Runs (.get k referrer (t.get b k referrer).1 :: log) (t.get b k referrer).2.1
      (t.get b k referrer).2.2
  | bind {log t b} (k : LabelKey) (h : Runs log t b) :
    Runs (.bind k b.offset (t.bind b k).1 :: log) (t.bind b k).2.1 (t.bind b k).2.2
  | newLabel {log t b} (h : Runs log t b) : Runs (.newLabel b.newLabel.1 :: log) t b.newLabel.2
  | bindDirectly {log t b} (l : Label) (hl : .newLabel l ∈ log) (h : Runs log t b) :
    Runs log t (b.bind l)
  | emit {log t b} (bytes : List Byte) (h : Runs log t b) : Runs log t (b.emit bytes)
  | reference {log t b} (l : Label) (h : Runs log t b) : Runs log t (b.reference l)
  | align {log t b b'} (n : Nat) (hb : b.align? n = some b') (h : Runs log t b) : Runs log t b'

variable {log : List Event} {x : Event} {k : LabelKey}

theorem Event.owner_eq_key_iff : x.owner = .key k ↔ x.key? = some k := by
  rw [owner]
  cases x.key? <;> simp

theorem boundTo?_cons :
    boundTo? (x :: log) k = (if x.key? = some k then x.offset? else none).or (boundTo? log k) := by
  rw [boundTo?, List.findSome?_cons, ← boundTo?]
  split <;> simp_all

theorem first?_cons :
    first? (x :: log) k = (first? log k).or (if x.key? = some k then some x else none) := by
  rw [first?, List.reverse_cons, List.find?_append, ← first?, List.find?_singleton]
  simp only [decide_eq_true_eq]

theorem first?_eq_none_iff : first? log k = none ↔ ∀ x ∈ log, x.key? ≠ some k := by
  simp [first?]

/-- A key that is mentioned and never bound is referred to at its first mention. -/
theorem exists_referrer (hx : x ∈ log) (hk : x.key? = some k) (hbound : boundTo? log k = none) :
    ∃ referrer, (first? log k).bind Event.referrer? = some referrer := by
  cases hfirst : first? log k with
  | none => exact absurd hk (first?_eq_none_iff.mp hfirst x hx)
  | some y =>
    have hy := List.find?_some hfirst
    rw [decide_eq_true_eq] at hy
    have hmem : y ∈ log := List.mem_reverse.mp (List.mem_of_find?_eq_some hfirst)
    have hoffset := List.findSome?_eq_none_iff.mp hbound y hmem
    rw [if_pos hy] at hoffset
    cases y with
    | get k' referrer l => exact ⟨referrer, rfl⟩
    | bind k' offset l => cases hoffset
    | newLabel l => cases hy

/-! ## Section 2: Plans that know the log -/

/-- The table and the labels of the buffer as those of an assembly. The
    references do not matter to them. -/
def assembly (t : LabelTable) (b : CodeBuffer) : Assembly :=
  { buffer := { b with refs := #[] }, labels := t }

/-- Table and buffer follow a plan that knows what the log says. -/
structure Tells (log : List Event) (t : LabelTable) (b : CodeBuffer) (p : Plan) : Prop where
  follows : (assembly t b).Follows p
  part : p.part = 1
  names : ∀ w, w ∈ p.names ↔ ∃ x ∈ log, x.owner = w
  label : ∀ x ∈ log, p.label x.owner = x.label
  placed : ∀ k, p.placed (.key k) = boundTo? log k
  referrer : ∀ k, p.referrer k = (first? log k).bind Event.referrer?

theorem tells_start : Tells [] {} {} ({} : Plan).begin where
  follows := Assembly.follows_empty.begin
  part := rfl
  names w := by simp [Plan.begin]
  label := nofun
  placed _ := rfl
  referrer _ := rfl

section
variable (t : LabelTable) (b : CodeBuffer)

theorem entry_assembly (k : LabelKey) (r : Option Cell) :
    (assembly t b).labels.entry (assembly t b).buffer k r =
      ((t.entry b k r).1, { (t.entry b k r).2 with refs := #[] }) := by
  unfold LabelTable.entry assembly
  cases t.entries[k]? <;> rfl

theorem address_assembly (referrer : Cell) (k : LabelKey) :
    (assembly t b).address referrer k =
      ((t.get b k referrer).1, assembly (t.get b k referrer).2.1 (t.get b k referrer).2.2) := by
  simp only [Assembly.address, LabelTable.get, entry_assembly]
  rfl

theorem bindAddress_assembly (k : LabelKey) :
    (assembly t b).bindAddress k = assembly (t.bind b k).2.1 (t.bind b k).2.2 := by
  simp only [Assembly.bindAddress, LabelTable.bind, entry_assembly]
  rfl

end

namespace Tells

variable {t t' : LabelTable} {b b' : CodeBuffer} {p p' : Plan} (h : Tells log t b p)
include h

theorem cons (hfollows : (assembly t' b').Follows p')
    (hnames : p'.names = (p.mention x.owner x.referrer?).names)
    (hreferrer : p'.referrer = (p.mention x.owner x.referrer?).referrer)
    (hpart : p'.part = (p.mention x.owner x.referrer?).part)
    (hlabel : x.label = (p.mention x.owner x.referrer?).label x.owner)
    (hplaced : ∀ k, p'.placed (.key k) = (if x.key? = some k then x.offset? else none).or
      (p.placed (.key k))) :
    Tells (x :: log) t' b' p' where
  follows := hfollows
  part := by rw [hpart, Plan.part_mention, h.part]
  names w := by
    rw [hnames, Plan.mem_names_mention_iff, h.names, List.exists_mem_cons_iff, or_comm, eq_comm]
  label y hy := by
    rw [Plan.label, hnames, ← Plan.label]
    obtain rfl | hy := List.mem_cons.mp hy
    · exact hlabel.symm
    · rw [Plan.label_mention ((h.names _).mpr ⟨y, hy, rfl⟩), h.label y hy]
  placed k := by rw [hplaced, boundTo?_cons, h.placed]
  referrer k := by
    have hnone : first? log k = none ↔ .key k ∉ p.names := by
      simp [first?_eq_none_iff, h.names, Event.owner_eq_key_iff]
    rw [hreferrer, Plan.mention, first?_cons]
    -- Only the first mention of a key leaves a referrer, in the plan as in the log.
    by_cases hk : x.key? = some k
    · rw [Event.owner_eq_key_iff.mpr hk, if_pos hk]
      split_ifs with hmem
      · rw [Option.or_of_isSome (Option.isSome_iff_ne_none.mpr (mt hnone.mp (not_not.mpr hmem))),
          h.referrer]
      · simp [hnone.mpr hmem]
    · rw [if_neg hk, Option.or_none, ← h.referrer]
      split_ifs
      · rfl
      · exact if_neg (mt Event.owner_eq_key_iff.mp hk)

theorem get (k : LabelKey) (referrer : Cell) :
    Tells (.get k referrer (t.get b k referrer).1 :: log) (t.get b k referrer).2.1
      (t.get b k referrer).2.2 (p.mention (.key k) (some referrer)) := by
  have hget := h.follows.address referrer k
  rw [address_assembly] at hget
  refine h.cons hget.2 rfl rfl rfl hget.1 fun k' => ?_
  simp [Event.offset?]

theorem bind (k : LabelKey) :
    Tells (.bind k b.offset (t.bind b k).1 :: log) (t.bind b k).2.1 (t.bind b k).2.2
      ((p.mention (.key k) none).place (.key k)) := by
  have hbind := h.follows.bindAddress k
  have hlabel := h.follows.label_entry k none
  rw [bindAddress_assembly] at hbind
  rw [entry_assembly] at hlabel
  refine h.cons hbind rfl rfl rfl hlabel fun k' => ?_
  have hoffset : b.offset = p.code.length := h.follows.buffer.offset_eq
  rw [Plan.place, Plan.placed_mention, Plan.code_mention, hoffset]
  by_cases hk : k = k'
  · simp [hk, Event.key?, Event.offset?]
  · simp [hk, Ne.symm hk, Event.key?]

theorem size_labels : b.labels.size = p.names.length := by
  rw [← Array.length_toList, show b.labels.toList = _ from h.follows.buffer.labels, List.length_map]

/-- The number of a label that was answered is below the number of labels. -/
theorem index_lt {x : Event} (hx : x ∈ log) : x.label.index < b.labels.size := by
  rw [h.size_labels, ← h.label x hx]
  exact List.idxOf_lt_length_iff.mpr ((h.names _).mpr ⟨x, hx, rfl⟩)

theorem newLabel :
    Tells (.newLabel b.newLabel.1 :: log) t b.newLabel.2
      (p.mention (.mark 0 b.labels.size) none) := by
  have hsize := h.size_labels
  -- The labels that were made directly are known by their numbers, and this number is new.
  have hw : .mark 0 b.labels.size ∉ p.names := by
    intro hmem
    obtain ⟨y, hy, howner⟩ := (h.names _).mp hmem
    have hlabel := h.label y hy
    rw [howner] at hlabel
    have hindex : y.label.index = b.labels.size := by
      rw [Event.owner] at howner
      cases hkey : y.key? with
      | none =>
        rw [hkey] at howner
        exact (Owner.mark.inj howner).2
      | some k =>
        rw [hkey] at howner
        cases howner
    rw [← hlabel] at hindex
    exact Nat.ne_of_lt (List.idxOf_lt_length_iff.mpr hmem) (hindex.trans hsize)
  have hfollows : (assembly t b.newLabel.2).Follows (p.mention (.mark 0 b.labels.size) none) := by
    refine h.follows.extend hw (fun part n hmark => ?_) rfl (fun k => (if_neg nofun).symm)
      rfl fun n => ?_
    · cases hmark
      exact Nat.zero_le _
    · rw [h.part]
      exact (if_neg nofun).symm
  refine h.cons hfollows rfl rfl rfl (h.follows.buffer.newLabel_fst hw) fun k => ?_
  simp [Event.key?]

theorem bindDirectly {l : Label} (hl : .newLabel l ∈ log) :
    Tells log t (b.bind l) (p.place (.mark 0 l.index)) := by
  have hmem : .mark 0 l.index ∈ p.names := (h.names _).mpr ⟨_, hl, rfl⟩
  have hfollows := h.follows.placeLocal hmem nofun
  rw [show p.label (.mark 0 l.index) = l from h.label _ hl] at hfollows
  refine ⟨hfollows, h.part, h.names, h.label, fun k => ?_, h.referrer⟩
  simpa [Plan.place] using h.placed k

theorem emit {bytes : List Byte} (hcode : b'.code = b.code ++ bytes)
    (hlabels : b'.labels = b.labels) : Tells log t b' { p with code := p.code ++ bytes } := by
  obtain ⟨hsound, ⟨hcode', hlabels', hrefs⟩, hentries, hstubs, hmarks⟩ := h.follows
  refine ⟨⟨⟨hsound.nodup, hsound.placed_mem, hsound.branch_mem, hsound.part_le⟩,
    ⟨?_, ?_, hrefs⟩, hentries, hstubs, hmarks⟩, h.part, h.names, h.label, h.placed, h.referrer⟩
  · rw [← hcode', assembly, hcode, Array.toList_appendList]
    rfl
  · exact (congrArg Array.toList hlabels).trans hlabels'

theorem len_eq : t.len = (keys log).card := by
  have hkeys : keys log = t.entries.keys.toFinset := by
    ext k
    have hentry : t.entries[k]? = p.entryOf? k := h.follows.entries k
    have hisSome : (p.entryOf? k).isSome ↔ .key k ∈ p.names := by
      rw [Plan.entryOf?, Option.isSome_map, Plan.label?]
      split_ifs with hk <;> simp [hk]
    rw [keys, List.mem_toFinset, List.mem_filterMap, List.mem_toFinset, Std.TreeMap.mem_keys,
      Std.TreeMap.mem_iff_isSome_getElem?, hentry, hisSome, h.names]
    simp only [Event.owner_eq_key_iff]
  rw [hkeys, List.toFinset_card_of_nodup Std.TreeMap.nodup_keys, Std.TreeMap.length_keys]
  rfl

theorem mem_unbound_iff {r : Option Cell} :
    (k, r) ∈ t.unbound ↔ boundTo? log k = none ∧
      ∃ referrer, (first? log k).bind Event.referrer? = some referrer ∧ r = some referrer := by
  have hentry : t.entries[k]? = p.entryOf? k := h.follows.entries k
  rw [LabelTable.mem_unbound_iff, hentry, Plan.entryOf?, h.placed, h.referrer]
  by_cases hk : .key k ∈ p.names
  · obtain ⟨x, hx, howner⟩ := (h.names _).mp hk
    rw [Plan.label?_of_mem hk]
    simp only [Option.map_some, Option.some_inj, exists_eq_left', Option.isSome_eq_false_iff,
      Option.isNone_iff_eq_none]
    refine and_congr_right fun hbound => ?_
    obtain ⟨referrer, hreferrer⟩ := exists_referrer hx (Event.owner_eq_key_iff.mp howner) hbound
    simp [hreferrer, eq_comm]
  · have hfirst : first? log k = none := first?_eq_none_iff.mpr fun x hx hkey =>
      hk ((h.names _).mpr ⟨x, hx, Event.owner_eq_key_iff.mpr hkey⟩)
    rw [Plan.label?_eq_none_iff.mpr hk, hfirst]
    simp

end Tells

/-! ## Section 3: All runs -/

/-- **Run.** After every run there is a plan that knows its log. -/
theorem Runs.tells {t : LabelTable} {b : CodeBuffer} (h : Runs log t b) : ∃ p, Tells log t b p := by
  induction h with
  | start => exact ⟨_, tells_start⟩
  | get k referrer _ ih => exact ih.imp' _ fun p hp => hp.get k referrer
  | bind k _ ih => exact ih.imp' _ fun p hp => hp.bind k
  | newLabel _ ih => exact ih.imp' _ fun p hp => hp.newLabel
  | bindDirectly l hl _ ih => exact ih.imp' _ fun p hp => hp.bindDirectly hl
  | emit bytes _ ih => exact ih.imp' _ fun p hp => hp.emit rfl rfl
  | reference l _ ih => exact ih.imp' _ fun p hp => hp.emit rfl rfl
  | align n hb _ ih =>
    rw [CodeBuffer.align?] at hb
    split_ifs at hb
    cases hb
    exact ih.imp' _ fun p hp => hp.emit rfl rfl

end Labelling

/-- Keys by address, and of one address the instruction before the case table. -/
def LabelKey.Before (k k' : LabelKey) : Prop :=
  k.address.toInt < k'.address.toInt ∨ k.address = k'.address ∧ k.kind = .instr ∧
    k'.kind = .caseTable

theorem LabelKey.order_eq_lt_iff {k k' : LabelKey} : LabelKey.order k k' = .lt ↔ k.Before k' := by
  have hrank : k.kind.rank < k'.kind.rank ↔ k.kind = .instr ∧ k'.kind = .caseTable := by
    cases k.kind <;> cases k'.kind <;> decide
  rw [LabelKey.order, Ordering.then_eq_lt, Int.compare_eq_lt, Nat.compare_eq_lt,
    Std.LawfulEqCmp.compare_eq_iff_eq, BitVec.toInt_inj, hrank, LabelKey.Before]

namespace Labelling

/-- **Labels of keys.** After any run of a table and its buffer: the label that was answered for a
    key is that of another event exactly if this is a request for the same key, so a key has one
    label, no other key has it and none of the labels that were made directly is it; its offset is
    that at the last binding of the key; the table has as many entries as there are keys mentioned;
    and the keys listed as unbound, in order, are those that were referred to and never bound, each
    with the instruction of its first mention. Labels are numbers here; as long as there are not
    more than 2³² of them, those that were answered are told apart by 32 bits. -/
theorem labels_of_keys_persist {log : List Event} {t : LabelTable} {b : CodeBuffer}
    (h : Runs log t b) : (∀ x ∈ log, ∀ k, x.key? = some k →
      (∀ y ∈ log, y.label = x.label ↔ y.key? = some k) ∧ b.labelOffset? x.label = boundTo? log k) ∧
    t.len = (keys log).card ∧ (t.unbound.Pairwise fun x y => x.1.Before y.1) ∧
    (∀ k r, (k, r) ∈ t.unbound ↔ boundTo? log k = none ∧
      ∃ referrer, (first? log k).bind Event.referrer? = some referrer ∧ r = some referrer) ∧
    (b.labels.size ≤ 0x100000000 →
      ∀ x ∈ log, (BitVec.ofNat 32 x.label.index).toNat = x.label.index) := by
  obtain ⟨p, hp⟩ := h.tells
  refine ⟨fun x hx k hk => ?_, hp.len_eq, t.ordered_unbound.imp LabelKey.order_eq_lt_iff.mp,
    fun k r => hp.mem_unbound_iff, fun hsize x hx => ?_⟩
  · have howner : x.owner = .key k := Event.owner_eq_key_iff.mpr hk
    have hlabel : x.label = p.label (.key k) := by rw [← hp.label x hx, howner]
    have hmem : .key k ∈ p.names := (hp.names _).mpr ⟨x, hx, howner⟩
    refine ⟨fun y hy => ?_, ?_⟩
    · rw [hlabel, ← hp.label y hy, ← Event.owner_eq_key_iff]
      exact ⟨fun h => (Plan.label_injective hmem h.symm).symm, congrArg _⟩
    · rw [hlabel, ← hp.placed]
      exact hp.follows.buffer.labelOffset? hmem
  · have hindex := hp.index_lt hx
    rw [BitVec.toNat_ofNat]
    omega

/-- Requests for two keys, one of them bound twice and the other referred to twice, with a label in
    between that is made and bound on the buffer itself. -/
def mixedLog : List Event :=
  [.bind ⟨0, .instr⟩ 8 ⟨2⟩, .get ⟨12, .caseTable⟩ 8 ⟨0⟩, .bind ⟨0, .instr⟩ 0 ⟨2⟩, .newLabel ⟨1⟩,
   .get ⟨12, .caseTable⟩ 4 ⟨0⟩]

/-- The key at 0 is where it was bound last; the key at 12 is listed with the
    first of its two referrers. -/
theorem mixedLog_keeps_labels : ∃ t b, Runs mixedLog t b ∧ t.len = 2 ∧ b.labelOffset? ⟨2⟩ = some 8 ∧
    (⟨12, .caseTable⟩, some 4) ∈ t.unbound ∧ ∀ r, (⟨0, .instr⟩, r) ∉ t.unbound := by
  obtain ⟨log, t, b, rfl, h⟩ : ∃ log t b, log = mixedLog ∧ Runs log t b := by
    have hstart :=
      (((Runs.start.get ⟨12, .caseTable⟩ 4).newLabel.bind ⟨0, .instr⟩).emit [0xE9]).reference ⟨0⟩
    have hdirect := hstart.bindDirectly ⟨1⟩ (by decide +kernel)
    refine ⟨_, _, _, ?_, ((hdirect.get ⟨12, .caseTable⟩ 8).align 4 rfl).bind ⟨0, .instr⟩⟩
    decide +kernel
  obtain ⟨hanswers, hlen, -, hunbound, -⟩ := labels_of_keys_persist h
  refine ⟨t, b, h, hlen.trans (by decide), ?_, ?_, fun r hr => ?_⟩
  · exact (hanswers (.bind ⟨0, .instr⟩ 8 ⟨2⟩) (by decide) ⟨0, .instr⟩ rfl).2
  · exact (hunbound _ _).mpr ⟨by decide, 4, by decide, rfl⟩
  · exact absurd ((hunbound _ _).mp hr).1 (by decide)

end Labelling

end PawnNative
