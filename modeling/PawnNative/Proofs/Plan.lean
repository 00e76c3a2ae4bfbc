import Mathlib.Data.List.Basic
import Mathlib.Tactic.Common
import PawnNative.Compile.Assembly

/-! # Plans

    An assembly gives every target a label when it is first mentioned. Labels are
    numbers, and the numbers depend on everything that was mentioned before. A
    plan is an assembly without numbers: it knows targets by their owners, where
    they were placed, and which branches wait for them.

    The owner of a place inside a template includes the number of the template,
    so that the places of different templates are different. `Assembly.Follows`
    says that an assembly is a plan with labels: the label of an owner is its
    position in the order of first mention. Every line that is appended keeps
    this, so what holds of a plan holds of the assembly that follows it.
-/

namespace PawnNative

open X64

/-! ## Section 1: What lines name -/

/-- The label of the bytecode that a target stands for. -/
def Target.key? : Target → Option LabelKey
  | .code t => some ⟨t, .instr⟩
  | .cases t => some ⟨t, .caseTable⟩
  | .stub _ | .mark _ => none

/-- The label of the bytecode that a line leads to. -/
def Line.key? (l : Line) : Option LabelKey := l.target?.bind Target.key?

/-- What a line places. -/
def Line.placed? : Line → Option Target
  | .place t => some t
  | .op _ | .jmp _ | .jcc _ _ | .call _ => none

section
variable (i : Instr) (c : Cond) (t : Target)

@[simp] theorem Line.key?_op : (Line.op i).key? = none := rfl
@[simp] theorem Line.key?_jmp : (Line.jmp t).key? = t.key? := rfl
@[simp] theorem Line.key?_jcc : (Line.jcc c t).key? = t.key? := rfl
@[simp] theorem Line.key?_call : (Line.call t).key? = t.key? := rfl
@[simp] theorem Line.key?_place : (Line.place t).key? = none := rfl
@[simp] theorem Line.placed?_op : (Line.op i).placed? = none := rfl
@[simp] theorem Line.placed?_jmp : (Line.jmp t).placed? = none := rfl
@[simp] theorem Line.placed?_jcc : (Line.jcc c t).placed? = none := rfl
@[simp] theorem Line.placed?_call : (Line.call t).placed? = none := rfl
@[simp] theorem Line.placed?_place : (Line.place t).placed? = some t := rfl
@[simp] theorem Target.key?_stub (s : Stub) : (Target.stub s).key? = none := rfl
@[simp] theorem Target.key?_mark (n : Nat) : (Target.mark n).key? = none := rfl
@[simp] theorem Target.key?_code (a : Cell) : (Target.code a).key? = some ⟨a, .instr⟩ := rfl
@[simp] theorem Target.key?_cases (a : Cell) : (Target.cases a).key? = some ⟨a, .caseTable⟩ := rfl

end

/-! ## Section 2: Owners and plans -/

/-- What a label belongs to. -/
inductive Owner where
  /-- An address of the bytecode. -/
  | key (k : LabelKey)
  | stub (s : Stub)
  /-- A place of a template, with the number of the template. -/
  | mark (part n : Nat)
  deriving DecidableEq, Repr

/-- The owner of a target of a template. -/
def Target.owner (part : Nat) : Target → Owner
  | .code t => .key ⟨t, .instr⟩
  | .cases t => .key ⟨t, .caseTable⟩
  | .stub s => .stub s
  | .mark n => .mark part n

theorem Target.owner_injective {part : Nat} {s t : Target} (h : s.owner part = t.owner part) :
    s = t := by
  cases s <;> cases t <;> simp_all [Target.owner]

/-- Code under construction, without label numbers. -/
structure Plan where
  /-- How many templates were begun. -/
  part : Nat := 0
  /-- The code, with all distances zero. -/
  code : List Byte := []
  /-- The owners that were mentioned, in order of first mention. -/
  names : List Owner := []
  /-- Where an owner was placed last. -/
  placed : Owner → Option Nat := fun _ => none
  /-- The instruction that mentioned a key first, unless that was the placing. -/
  referrer : LabelKey → Option Cell := fun _ => none
  /-- The branches: where the distance stands, and whom the branch leads to. -/
  branches : List (Nat × Owner) := []

/-- The bytes of a line, with the distance zero. -/
def Line.bytes : Line → List Byte
  | .op i => i.encode
  | .jmp _ => (Instr.jmp 0).encode
  | .jcc c _ => (Instr.jcc c 0).encode
  | .call _ => (Instr.call 0).encode
  | .place _ => []

namespace Plan

/-- The label of an owner in an assembly that follows the plan. -/
def label (p : Plan) (w : Owner) : Label := ⟨p.names.idxOf w⟩

def mention (p : Plan) (w : Owner) (referrer : Option Cell) : Plan :=
  if w ∈ p.names then p
  else { p with
    names := p.names ++ [w]
    referrer := fun k => if w = .key k then referrer else p.referrer k }

/-- Appends a branch to an owner; the distance stands in the last four bytes. -/
def branch (p : Plan) (w : Owner) (bytes : List Byte) : Plan :=
  { p with
    code := p.code ++ bytes
    branches := p.branches ++ [(p.code.length + bytes.length - 4, w)] }

def place (p : Plan) (w : Owner) : Plan :=
  { p with placed := fun w' => if w' = w then some p.code.length else p.placed w' }

/-- Appends a line of the instruction at `referrer`. -/
def line (p : Plan) (referrer : Cell) (l : Line) : Plan :=
  match l with
  | .op i => { p with code := p.code ++ i.encode }
  | .jmp t | .jcc _ t | .call t =>
    (p.mention (t.owner p.part) (some referrer)).branch (t.owner p.part) l.bytes
  | .place t => (p.mention (t.owner p.part) none).place (t.owner p.part)

def begin (p : Plan) : Plan := { p with part := p.part + 1 }

def lines (p : Plan) (referrer : Cell) (ls : List Line) : Plan :=
  ls.foldl (fun p l => p.line referrer l) p.begin

end Plan

/-! ## Section 3: What a plan keeps -/

namespace Plan

/-- What holds of every plan that is made line by line. -/
structure Sound (p : Plan) : Prop where
  nodup : p.names.Nodup
  placed_mem : ∀ w, (p.placed w).isSome → w ∈ p.names
  branch_mem : ∀ e ∈ p.branches, e.2 ∈ p.names
  part_le : ∀ part n, .mark part n ∈ p.names → part ≤ p.part

variable {p : Plan} {w : Owner} {r : Option Cell}

theorem mention_of_mem (h : w ∈ p.names) : p.mention w r = p := if_pos h

section
variable (p w r)

theorem mem_names_mention : w ∈ (p.mention w r).names := by
  unfold mention
  split_ifs with h
  · exact h
  · simp

@[simp] theorem part_mention : (p.mention w r).part = p.part := by
  unfold mention; split_ifs <;> rfl

@[simp] theorem code_mention : (p.mention w r).code = p.code := by
  unfold mention; split_ifs <;> rfl

@[simp] theorem placed_mention : (p.mention w r).placed = p.placed := by
  unfold mention; split_ifs <;> rfl

@[simp] theorem branches_mention : (p.mention w r).branches = p.branches := by
  unfold mention; split_ifs <;> rfl

theorem names_mention : ∃ more, (p.mention w r).names = p.names ++ more := by
  unfold mention
  split_ifs
  · exact ⟨[], by simp⟩
  · exact ⟨[w], rfl⟩

end

theorem mem_names_mention_iff {v : Owner} :
    v ∈ (p.mention w r).names ↔ v ∈ p.names ∨ v = w := by
  unfold mention
  split_ifs with h
  · constructor
    · exact Or.inl
    · rintro (hv | rfl)
      · exact hv
      · exact h
  · simp

theorem Sound.mention (h : p.Sound) (hw : ∀ part n, w = .mark part n → part ≤ p.part) :
    (p.mention w r).Sound where
  nodup := by
    unfold Plan.mention
    split_ifs with hmem
    · exact h.nodup
    · simp only [List.nodup_append, h.nodup, List.nodup_cons, List.not_mem_nil,
        not_false_eq_true, List.nodup_nil, true_and, List.mem_singleton]
      rintro a ha b rfl rfl
      exact hmem ha
  placed_mem v hv := by
    rw [placed_mention] at hv
    exact mem_names_mention_iff.mpr (Or.inl (h.placed_mem v hv))
  branch_mem e he := by
    rw [branches_mention] at he
    exact mem_names_mention_iff.mpr (Or.inl (h.branch_mem e he))
  part_le part n hn := by
    rw [part_mention]
    rcases mem_names_mention_iff.mp hn with hn | hn
    · exact h.part_le part n hn
    · exact hw part n hn.symm

theorem Sound.branch (h : p.Sound) (hw : w ∈ p.names) (bytes : List Byte) :
    (p.branch w bytes).Sound where
  nodup := h.nodup
  placed_mem := h.placed_mem
  branch_mem e he := by
    rcases List.mem_append.mp he with he | he
    · exact h.branch_mem e he
    · rw [List.mem_singleton.mp he]
      exact hw
  part_le := h.part_le

theorem Sound.place (h : p.Sound) (hw : w ∈ p.names) : (p.place w).Sound where
  nodup := h.nodup
  placed_mem v hv := by
    simp only [Plan.place] at hv
    split_ifs at hv with hvw
    · exact hvw ▸ hw
    · exact h.placed_mem v hv
  branch_mem := h.branch_mem
  part_le := h.part_le

theorem Target.part_le_of_owner {t : Target} {part k n : Nat} (h : t.owner part = .mark k n) :
    k ≤ part := by
  cases t <;> simp_all [Target.owner]

theorem Sound.line (h : p.Sound) (referrer : Cell) (l : Line) : (p.line referrer l).Sound := by
  have hpart : ∀ t : Target, ∀ k n, t.owner p.part = .mark k n → k ≤ p.part :=
    fun t k n => Target.part_le_of_owner
  cases l with
  | op i => exact ⟨h.nodup, h.placed_mem, h.branch_mem, h.part_le⟩
  | jmp t => exact (h.mention (hpart t)).branch (mem_names_mention ..) _
  | jcc c t => exact (h.mention (hpart t)).branch (mem_names_mention ..) _
  | call t => exact (h.mention (hpart t)).branch (mem_names_mention ..) _
  | place t => exact (h.mention (hpart t)).place (mem_names_mention ..)

theorem Sound.begin (h : p.Sound) : p.begin.Sound :=
  ⟨h.nodup, h.placed_mem, h.branch_mem, fun part n hn => Nat.le_succ_of_le (h.part_le part n hn)⟩

theorem sound_empty : ({} : Plan).Sound := by
  constructor <;> simp

end Plan

/-! ## Section 4: Labels are positions in the order of first mention -/

namespace Plan

variable {p : Plan} {w v : Owner} {r : Option Cell}

/-- A later mention does not renumber the owners that have labels already. -/
theorem label_mention (hv : v ∈ p.names) : (p.mention w r).label v = p.label v := by
  obtain ⟨more, hmore⟩ := names_mention p w r
  rw [label, label, hmore, List.idxOf_append_of_mem hv]

theorem label_mention_self (hw : w ∉ p.names) :
    (p.mention w r).label w = ⟨p.names.length⟩ := by
  simp [label, mention, hw, List.idxOf_append_of_notMem hw]

theorem label_injective (hw : w ∈ p.names) (h : p.label w = p.label v) : w = v :=
  (List.idxOf_inj hw).mp (Label.mk.inj h)

end Plan

/-- A buffer is the code of a plan, with labels for owners. -/
structure CodeBuffer.Follows (b : CodeBuffer) (p : Plan) : Prop where
  code : b.code.toList = p.code
  labels : b.labels.toList = p.names.map p.placed
  refs : b.refs.toList = p.branches.map fun e => ⟨e.1, p.label e.2⟩

namespace CodeBuffer.Follows

variable {b : CodeBuffer} {p : Plan} {w : Owner} {r : Option Cell} (h : b.Follows p)
include h

theorem offset_eq : b.offset = p.code.length := by
  rw [← h.code]
  rfl

theorem newLabel_fst (hw : w ∉ p.names) :
    b.newLabel.1 = (p.mention w r).label w := by
  have hsize : b.labels.size = p.names.length := by
    rw [← Array.length_toList, h.labels, List.length_map]
  rw [Plan.label_mention_self hw, ← hsize]
  rfl

theorem newLabel_snd (hp : p.Sound) (hw : w ∉ p.names) :
    b.newLabel.2.Follows (p.mention w r) where
  code := by rw [Plan.code_mention]; exact h.code
  labels := by
    have hplaced : p.placed w = none :=
      Option.not_isSome_iff_eq_none.mp fun hsome => hw (hp.placed_mem w hsome)
    rw [Plan.placed_mention]
    simp [newLabel, Plan.mention, hw, h.labels, hplaced]
  refs := by
    rw [Plan.branches_mention]
    refine h.refs.trans (List.map_congr_left fun e he => ?_)
    rw [Plan.label_mention (hp.branch_mem e he)]

theorem bind (hp : p.Sound) (hw : w ∈ p.names) :
    (b.bind (p.label w)).Follows (p.place w) where
  code := h.code
  labels := by
    -- Owners do not repeat, so setting one position changes one owner.
    have hlt : p.names.idxOf w < p.names.length := List.idxOf_lt_length_iff.mpr hw
    apply List.ext_getElem
    · simp [CodeBuffer.bind, h.labels, Plan.place]
    · intro n hn hn'
      have hget : p.names[n]? = some w ↔ n = p.names.idxOf w := by
        constructor
        · intro hnw
          obtain ⟨hlen, hnw⟩ := List.getElem?_eq_some_iff.mp hnw
          rw [← hnw, List.Nodup.idxOf_getElem hp.nodup]
        · rintro rfl
          rw [List.getElem?_eq_getElem hlt, List.getElem_idxOf hlt]
      have hlen : n < p.names.length := by simpa [Plan.place] using hn'
      rw [List.getElem?_eq_getElem hlen, Option.some_inj] at hget
      simp only [CodeBuffer.bind, Array.toList_setIfInBounds, h.labels, Plan.label, Plan.place,
        List.getElem_set, List.getElem_map, h.offset_eq, hget]
      by_cases hidx : n = p.names.idxOf w
      · rw [if_pos hidx.symm, if_pos hidx]
      · rw [if_neg fun e => hidx e.symm, if_neg hidx]
  refs := h.refs

theorem reference (lead : List Byte) {bytes : List Byte}
    (hbytes : bytes = lead ++ Cell.bytes 0) :
    ((b.emit lead).reference (p.label w)).Follows (p.branch w bytes) where
  code := by simp [emit, CodeBuffer.reference, Plan.branch, h.code, hbytes]
  labels := h.labels
  refs := by
    have hoff : (b.emit lead).offset = p.code.length + lead.length := by
      rw [← h.code, ← List.length_append, ← Array.toList_appendList]
      rfl
    have hlen : (Cell.bytes 0).length = 4 := rfl
    have hslot : p.code.length + bytes.length - 4 = p.code.length + lead.length := by
      rw [hbytes, List.length_append, hlen]
      omega
    simp only [CodeBuffer.reference, Plan.branch, Array.toList_push, List.map_append, hoff, hslot]
    exact congrArg (· ++ _) h.refs

theorem jmp (t : Target) :
    (b.jmp (p.label w)).Follows (p.branch w (Line.jmp t).bytes) :=
  h.reference [0xE9] rfl

theorem jcc (c : Cond) (t : Target) :
    (b.jcc c (p.label w)).Follows (p.branch w (Line.jcc c t).bytes) :=
  h.reference [0x0F, 0x8#4 ++ c.number] rfl

theorem call (t : Target) :
    (b.call (p.label w)).Follows (p.branch w (Line.call t).bytes) :=
  h.reference [0xE8] rfl

end CodeBuffer.Follows

/-! ## Section 5: Assemblies follow plans -/

instance : Std.TransCmp LabelKey.order :=
  inferInstanceAs (Std.TransCmp (compareLex (compareOn fun k : LabelKey => k.address.toInt)
    (compareOn fun k : LabelKey => k.kind.rank)))

theorem LabelKey.eq_of_order_eq {k l : LabelKey} (h : LabelKey.order k l = .eq) : k = l := by
  obtain ⟨haddress, hrank⟩ := Ordering.then_eq_eq.mp h
  have ha : k.address = l.address := BitVec.eq_of_toInt_eq (Std.LawfulEqCmp.eq_of_compare haddress)
  have hr : k.kind.rank = l.kind.rank := Std.LawfulEqCmp.eq_of_compare hrank
  have hk : k.kind = l.kind := by
    cases hkk : k.kind <;> cases hlk : l.kind <;> simp_all [LabelKind.rank]
  cases k
  cases l
  simp_all

instance : Std.LawfulEqCmp LabelKey.order where
  eq_of_compare := LabelKey.eq_of_order_eq

namespace Plan

/-- The label of an owner that was mentioned. -/
def label? (p : Plan) (w : Owner) : Option Label :=
  if w ∈ p.names then some (p.label w) else none

/-- The entry of a key that was mentioned. -/
def entryOf? (p : Plan) (k : LabelKey) : Option LabelEntry :=
  (p.label? (.key k)).map fun label =>
    { label, bound := (p.placed (.key k)).isSome, referrer := p.referrer k }

/-- The stub of an owner, with its label. -/
def stub? (p : Plan) : Owner → Option (Stub × Label)
  | .stub s => some (s, p.label (.stub s))
  | .key _ | .mark _ _ => none

variable {p : Plan} {w v : Owner} {r : Option Cell}

theorem label?_of_mem (h : w ∈ p.names) : p.label? w = some (p.label w) := if_pos h

theorem label?_eq_none_iff : p.label? w = none ↔ w ∉ p.names := by
  simp [label?]

theorem label?_mention (hw : w ∉ p.names) (v : Owner) :
    (p.mention w r).label? v = if v = w then some ⟨p.names.length⟩ else p.label? v := by
  by_cases hvw : v = w
  · rw [if_pos hvw, hvw, label?_of_mem (mem_names_mention ..), label_mention_self hw]
  · rw [if_neg hvw]
    by_cases hv : v ∈ p.names
    · have hv' : v ∈ (p.mention w r).names := mem_names_mention_iff.mpr (Or.inl hv)
      rw [label?_of_mem hv', label?_of_mem hv, label_mention hv]
    · rw [label?_eq_none_iff.mpr hv, label?_eq_none_iff, mem_names_mention_iff]
      rintro (hmem | heq)
      · exact hv hmem
      · exact hvw heq

theorem entryOf?_mention (hp : p.Sound) (hw : w ∉ p.names) (k : LabelKey) :
    (p.mention w r).entryOf? k =
      if w = .key k then some ⟨⟨p.names.length⟩, false, r⟩ else p.entryOf? k := by
  have hreferrer : (p.mention w r).referrer k = if w = .key k then r else p.referrer k := by
    simp [mention, hw]
  rw [entryOf?, label?_mention hw, placed_mention, hreferrer]
  by_cases hwk : w = .key k
  · have hplaced : p.placed w = none :=
      Option.not_isSome_iff_eq_none.mp fun hsome => hw (hp.placed_mem w hsome)
    subst hwk
    simp [hplaced]
  · have hkw : ¬Owner.key k = w := fun h => hwk h.symm
    rw [if_neg hwk, if_neg hwk, if_neg hkw, entryOf?]

theorem entryOf?_mention_of_ne (hp : p.Sound) {k : LabelKey} (hwk : w ≠ .key k) :
    (p.mention w r).entryOf? k = p.entryOf? k := by
  by_cases hw : w ∈ p.names
  · rw [mention_of_mem hw]
  · rw [entryOf?_mention hp hw, if_neg hwk]

theorem label?_mention_of_ne (hvw : v ≠ w) : (p.mention w r).label? v = p.label? v := by
  by_cases hw : w ∈ p.names
  · rw [mention_of_mem hw]
  · rw [label?_mention hw, if_neg hvw]

theorem entryOf?_place (p : Plan) (w : Owner) (k : LabelKey) :
    (p.place w).entryOf? k =
      if w = .key k then (p.entryOf? k).map fun e =>
      { e with bound := true } else p.entryOf? k := by
  have hlabel : (p.place w).label? (.key k) = p.label? (.key k) := rfl
  have hreferrer : (p.place w).referrer k = p.referrer k := rfl
  have hplaced : (p.place w).placed (.key k) =
      if w = .key k then some p.code.length else p.placed (.key k) := by
    simp [place, eq_comm]
  rw [entryOf?, hlabel, hreferrer, hplaced]
  by_cases hwk : w = .key k
  · simp [entryOf?, hwk, Function.comp_def]
  · rw [if_neg hwk, if_neg hwk, entryOf?]

theorem filterMap_stub?_mention (hw : w ∉ p.names) :
    (p.mention w r).names.filterMap (p.mention w r).stub? =
      p.names.filterMap p.stub? ++ ((p.mention w r).stub? w).toList := by
  have hnames : (p.mention w r).names = p.names ++ [w] := by simp [mention, hw]
  have hold : p.names.filterMap (p.mention w r).stub? = p.names.filterMap p.stub? := by
    refine List.filterMap_congr fun v hv => ?_
    cases v with
    | key k => rfl
    | mark part n => rfl
    | stub s => simp only [stub?, label_mention hv]
  rw [hnames, List.filterMap_append, hold]
  cases hstub : (p.mention w r).stub? w <;> simp [hstub]

theorem lookup_stubs (p : Plan) (s : Stub) :
    (p.names.filterMap p.stub?).lookup s = p.label? (.stub s) := by
  unfold label?
  induction p.names with
  | nil => rfl
  | cons w names ih =>
    cases w with
    | key k => simpa [List.filterMap_cons, stub?] using ih
    | mark part n => simpa [List.filterMap_cons, stub?] using ih
    | stub s' =>
      by_cases hs : s = s'
      · simp [stub?, hs]
      · simpa [List.filterMap_cons, stub?, hs, List.lookup_cons,
          beq_eq_false_iff_ne.mpr hs] using ih

end Plan

/-- An assembly is a plan with labels for owners. -/
structure Assembly.Follows (a : Assembly) (p : Plan) : Prop where
  sound : p.Sound
  buffer : a.buffer.Follows p
  entries : ∀ k, a.labels.entries[k]? = p.entryOf? k
  stubs : a.stubs = p.names.filterMap p.stub?
  marks : ∀ n, a.marks.lookup n = p.label? (.mark p.part n)

namespace Assembly.Follows

variable {a a' : Assembly} {p : Plan} {w : Owner} {r : Option Cell} (h : a.Follows p)
include h

theorem extend (hw : w ∉ p.names)
    (hpart : ∀ part n, w = .mark part n → part ≤ p.part)
    (hbuffer : a'.buffer = a.buffer.newLabel.2)
    (hentries : ∀ k, a'.labels.entries[k]? =
      if w = .key k then some ⟨a.buffer.newLabel.1, false, r⟩ else a.labels.entries[k]?)
    (hstubs : a'.stubs = a.stubs ++ ((p.mention w r).stub? w).toList)
    (hmarks : ∀ n, a'.marks.lookup n =
      if .mark p.part n = w then some a.buffer.newLabel.1 else a.marks.lookup n) :
    a'.Follows (p.mention w r) := by
  have hlabel : a.buffer.newLabel.1 = ⟨p.names.length⟩ := by
    rw [h.buffer.newLabel_fst (r := r) hw, Plan.label_mention_self hw]
  constructor
  · exact h.sound.mention hpart
  · rw [hbuffer]
    exact h.buffer.newLabel_snd h.sound hw
  · intro k
    rw [hentries, h.entries, hlabel, Plan.entryOf?_mention h.sound hw]
  · rw [hstubs, h.stubs, Plan.filterMap_stub?_mention hw]
  · intro n
    rw [hmarks, h.marks, hlabel, Plan.part_mention, Plan.label?_mention hw]

theorem stub (s : Stub) :
    (a.stub s).1 = (p.mention (.stub s) r).label (.stub s) ∧
      (a.stub s).2.Follows (p.mention (.stub s) r) := by
  have hlookup : a.stubs.lookup s = p.label? (.stub s) := by
    rw [h.stubs, Plan.lookup_stubs]
  by_cases hs : .stub s ∈ p.names
  · rw [Plan.label?_of_mem hs] at hlookup
    simp only [Assembly.stub, hlookup, Plan.mention_of_mem hs]
    exact ⟨trivial, h⟩
  · rw [Plan.label?_eq_none_iff.mpr hs] at hlookup
    have hlabel := h.buffer.newLabel_fst (r := r) hs
    simp only [Assembly.stub, hlookup]
    refine ⟨hlabel, h.extend hs ?_ rfl ?_ ?_ ?_⟩
    · intro part n hmark
      cases hmark
    · intro k
      rw [if_neg (by simp)]
    · simp only [Plan.stub?, ← hlabel, Option.toList_some]
    · intro n
      rw [if_neg (by simp)]

theorem mark (n : Nat) :
    (a.mark n).1 = (p.mention (.mark p.part n) r).label (.mark p.part n) ∧
      (a.mark n).2.Follows (p.mention (.mark p.part n) r) := by
  have hlookup := h.marks n
  by_cases hn : .mark p.part n ∈ p.names
  · rw [Plan.label?_of_mem hn] at hlookup
    simp only [Assembly.mark, hlookup, Plan.mention_of_mem hn]
    exact ⟨trivial, h⟩
  · rw [Plan.label?_eq_none_iff.mpr hn] at hlookup
    have hlabel := h.buffer.newLabel_fst (r := r) hn
    simp only [Assembly.mark, hlookup]
    refine ⟨hlabel, h.extend hn ?_ rfl ?_ ?_ ?_⟩
    · intro part m hmark
      cases hmark
      exact Nat.le_refl _
    · intro k
      rw [if_neg (by simp)]
    · simp [Plan.stub?]
    · intro m
      by_cases hmn : m = n
      · simp [hmn]
      · simp [List.lookup_cons, hmn, beq_eq_false_iff_ne.mpr hmn]

theorem entry (k : LabelKey) :
    (p.mention (.key k) r).entryOf? k = some (a.labels.entry a.buffer k r).1 ∧
      (a.labels.entry a.buffer k r).2.Follows (p.mention (.key k) r) := by
  have hlookup := h.entries k
  by_cases hk : .key k ∈ p.names
  · rw [Plan.mention_of_mem hk]
    have hentry : p.entryOf? k = some ⟨p.label (.key k), (p.placed (.key k)).isSome,
        p.referrer k⟩ := by
      rw [Plan.entryOf?, Plan.label?_of_mem hk, Option.map_some]
    simp only [LabelTable.entry, hlookup, hentry]
    exact ⟨trivial, h.buffer⟩
  · have hnone : p.entryOf? k = none := by
      rw [Plan.entryOf?, Plan.label?_eq_none_iff.mpr hk, Option.map_none]
    have hlabel : a.buffer.newLabel.1 = ⟨p.names.length⟩ := by
      rw [h.buffer.newLabel_fst (r := r) hk, Plan.label_mention_self hk]
    simp only [LabelTable.entry, hlookup, hnone, Plan.entryOf?_mention h.sound hk, if_true]
    refine ⟨?_, h.buffer.newLabel_snd h.sound hk⟩
    rw [← hlabel]

theorem mentionKey {k : LabelKey} {labels : LabelTable} {buffer : CodeBuffer}
    (hbuffer : buffer.Follows (p.mention (.key k) r))
    (hentries : ∀ k', labels.entries[k']? =
      if k = k' then (p.mention (.key k) r).entryOf? k else a.labels.entries[k']?) :
    { a with buffer, labels }.Follows (p.mention (.key k) r) where
  sound := h.sound.mention nofun
  buffer := hbuffer
  entries k' := by
    show labels.entries[k']? = _
    rw [hentries, h.entries]
    by_cases hk : k = k'
    · rw [if_pos hk, hk]
    · rw [if_neg hk, Plan.entryOf?_mention_of_ne h.sound (by simpa using hk)]
  stubs := by
    by_cases hk : .key k ∈ p.names
    · rw [Plan.mention_of_mem hk]
      exact h.stubs
    · rw [Plan.filterMap_stub?_mention hk]
      simpa [Plan.stub?] using h.stubs
  marks n := by
    rw [Plan.part_mention, Plan.label?_mention_of_ne (by simp)]
    exact h.marks n

theorem insertEntry (k : LabelKey) (r : Option Cell) :
    { a with
      buffer := (a.labels.entry a.buffer k r).2
      labels := ⟨a.labels.entries.insert k (a.labels.entry a.buffer k r).1⟩ }.Follows
        (p.mention (.key k) r) := by
  obtain ⟨hentry, hbuffer⟩ := h.entry (r := r) k
  refine h.mentionKey hbuffer fun k' => ?_
  rw [hentry, Std.TreeMap.getElem?_insert]
  simp only [Std.LawfulEqCmp.compare_eq_iff_eq]

theorem label_entry (k : LabelKey) (r : Option Cell) :
    (a.labels.entry a.buffer k r).1.label = (p.mention (.key k) r).label (.key k) := by
  obtain ⟨hentry, -⟩ := h.entry (r := r) k
  have hmem : .key k ∈ (p.mention (.key k) r).names := Plan.mem_names_mention ..
  rw [Plan.entryOf?, Plan.label?_of_mem hmem, Option.map_some, Option.some_inj] at hentry
  exact (congrArg LabelEntry.label hentry).symm

theorem address (referrer : Cell) (k : LabelKey) :
    (a.address referrer k).1 = (p.mention (.key k) (some referrer)).label (.key k) ∧
      (a.address referrer k).2.Follows (p.mention (.key k) (some referrer)) :=
  ⟨h.label_entry k _, h.insertEntry k _⟩

theorem label (referrer : Cell) (t : Target) :
    (a.label referrer t).1 =
        (p.mention (t.owner p.part) (some referrer)).label (t.owner p.part) ∧
      (a.label referrer t).2.Follows (p.mention (t.owner p.part) (some referrer)) := by
  cases t with
  | code t => exact h.address referrer ⟨t, .instr⟩
  | cases t => exact h.address referrer ⟨t, .caseTable⟩
  | stub s => exact h.stub s
  | mark n => exact h.mark n

/-- A place that no key owns is known to the buffer only. -/
theorem placeLocal (hw : w ∈ p.names) (hkey : ∀ k, w ≠ .key k) :
    { a with buffer := a.buffer.bind (p.label w) }.Follows (p.place w) where
  sound := h.sound.place hw
  buffer := h.buffer.bind h.sound hw
  entries k := by
    rw [Plan.entryOf?_place, if_neg (hkey k)]
    exact h.entries k
  stubs := h.stubs
  marks := h.marks

theorem bindAddress (k : LabelKey) :
    (a.bindAddress k).Follows ((p.mention (.key k) none).place (.key k)) := by
  -- The table after the mention alone follows the plan; the binding changes one entry of it.
  have hmention := h.insertEntry k none
  have hmem : .key k ∈ (p.mention (.key k) none).names := Plan.mem_names_mention ..
  refine ⟨hmention.sound.place hmem, ?_, fun k' => ?_, hmention.stubs, hmention.marks⟩
  · show ((a.labels.entry a.buffer k none).2.bind
      (a.labels.entry a.buffer k none).1.label).Follows _
    rw [h.label_entry]
    exact hmention.buffer.bind hmention.sound hmem
  · have hold := hmention.entries k'
    rw [Std.TreeMap.getElem?_insert] at hold
    rw [Plan.entryOf?_place, ← hold]
    show (a.labels.entries.insert k
      { (a.labels.entry a.buffer k none).1 with bound := true })[k']? = _
    rw [Std.TreeMap.getElem?_insert]
    simp only [Std.LawfulEqCmp.compare_eq_iff_eq, Owner.key.injEq]
    by_cases hk : k = k'
    · simp [hk]
    · simp [hk]

theorem place (t : Target) :
    (a.place t).Follows ((p.mention (t.owner p.part) none).place (t.owner p.part)) := by
  cases t with
  | code t => exact h.bindAddress ⟨t, .instr⟩
  | cases t => exact h.bindAddress ⟨t, .caseTable⟩
  | stub s =>
    obtain ⟨hlabel, hstub⟩ := h.stub (r := none) s
    simp only [Assembly.place, hlabel]
    exact hstub.placeLocal (Plan.mem_names_mention ..) nofun
  | mark n =>
    obtain ⟨hlabel, hmark⟩ := h.mark (r := none) n
    simp only [Assembly.place, hlabel]
    exact hmark.placeLocal (Plan.mem_names_mention ..) nofun

theorem branch (hw : w ∈ p.names) {buffer : CodeBuffer} {bytes : List Byte}
    (hbuffer : buffer.Follows (p.branch w bytes)) :
    { a with buffer }.Follows (p.branch w bytes) :=
  ⟨h.sound.branch hw bytes, hbuffer, h.entries, h.stubs, h.marks⟩

/-- **Step.** A line keeps an assembly on its plan. -/
theorem line (referrer : Cell) (l : Line) :
    (a.line referrer l).Follows (p.line referrer l) := by
  cases l with
  | op i =>
    refine ⟨h.sound.line referrer (.op i), ⟨?_, h.buffer.labels, h.buffer.refs⟩, h.entries, h.stubs,
      h.marks⟩
    simp [Assembly.line, CodeBuffer.instr, CodeBuffer.emit, Plan.line, h.buffer.code]
  | jmp t =>
    obtain ⟨hlabel, ht⟩ := h.label referrer t
    have hjmp := ht.buffer.jmp (w := t.owner p.part) t
    rw [← hlabel] at hjmp
    exact ht.branch (Plan.mem_names_mention ..) hjmp
  | jcc c t =>
    obtain ⟨hlabel, ht⟩ := h.label referrer t
    have hjcc := ht.buffer.jcc (w := t.owner p.part) c t
    rw [← hlabel] at hjcc
    exact ht.branch (Plan.mem_names_mention ..) hjcc
  | call t =>
    obtain ⟨hlabel, ht⟩ := h.label referrer t
    have hcall := ht.buffer.call (w := t.owner p.part) t
    rw [← hlabel] at hcall
    exact ht.branch (Plan.mem_names_mention ..) hcall
  | place t => exact h.place t

/-- A new template knows no marks yet, and none of the old ones has its number. -/
theorem begin : { a with marks := [] }.Follows p.begin := by
  refine ⟨h.sound.begin, ⟨h.buffer.code, h.buffer.labels, h.buffer.refs⟩, h.entries, h.stubs, ?_⟩
  intro n
  refine (Plan.label?_eq_none_iff.mpr fun hn => ?_).symm
  have hle : p.part + 1 ≤ p.part := h.sound.part_le _ n hn
  omega

/-- **Run.** A template keeps an assembly on its plan. -/
theorem lines (referrer : Cell) (ls : List Line) :
    (a.lines referrer ls).Follows (p.lines referrer ls) := by
  have run : ∀ (ls : List Line) (a : Assembly) (p : Plan), a.Follows p →
      (ls.foldl (fun a l => a.line referrer l) a).Follows
        (ls.foldl (fun p l => p.line referrer l) p) := by
    intro ls
    induction ls with
    | nil => exact fun a p h => h
    | cons l ls ih => exact fun a p h => ih _ _ (h.line referrer l)
  exact run ls _ _ h.begin

end Assembly.Follows

theorem Assembly.follows_empty : ({} : Assembly).Follows {} := by
  refine ⟨Plan.sound_empty, ⟨rfl, rfl, rfl⟩, fun k => ?_, rfl, fun n => ?_⟩
  · exact Std.TreeMap.getElem?_emptyc
  · rfl

end PawnNative
