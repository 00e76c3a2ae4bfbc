import PawnNative.Proofs.Assembled
import PawnNative.Proofs.Loading
import PawnNative.Proofs.Streams

/-! # Which images are translated

    Translation checks each instruction on its own while it goes through the code,
    and checks the branches when it has reached the end. The main result says in
    terms of the image alone which code is accepted, and which error is reported
    for code that is not: the error of the lowest instruction that cannot be
    decoded or is refused, and only when there is none, the lowest label that
    branches lead to and that is no instruction.

    No configuration takes part in the answer, although it changes the templates.
-/

namespace PawnNative

/-! ## Section 1: What is accepted -/

namespace Instruction

/-- Whether the operands of an instruction mean something. -/
def Meaningful (dataSize : Nat) (i : Instruction) : Prop :=
  match i.opcode with
  | .invalid => False
  | .loadPri | .loadAlt | .lrefPri | .lrefAlt | .storPri | .storAlt | .srefPri | .srefAlt
  | .push | .zero | .inc | .dec => 0 ≤ i.arg.toInt ∧ i.arg.toInt ≤ (dataSize : Int) - 4
  | .lodbI | .strbI => i.arg = 1 ∨ i.arg = 2 ∨ i.arg = 4
  | .lctrl => 0 ≤ i.arg.toInt ∧ i.arg.toInt ≤ 6
  | .sctrl => i.arg = 2 ∨ i.arg = 4 ∨ i.arg = 5 ∨ i.arg = 6
  | .movs | .cmps => 0 ≤ i.arg.toInt
  | .fill => 0 ≤ i.arg.toInt ∧ (4 : Int) ∣ i.arg.toInt
  | .sysreqN => 0 ≤ i.arg2.toInt ∧ (4 : Int) ∣ i.arg2.toInt
  | _ => True

theorem strayTarget?_eq_none_iff {codeSize : Nat} {i : Instruction} {targets : List Cell} :
    strayTarget? codeSize i targets = none ↔ ∀ t ∈ targets, InCode codeSize t := by
  simp [strayTarget?]

theorem ite_none_eq_none_iff {p : Prop} [Decidable p] {e : CompileError} :
    (if p then none else some e) = none ↔ p := by
  by_cases h : p <;> simp [h]

theorem refusal?_eq_none_iff {codeSize dataSize : Nat} {i : Instruction} :
    i.refusal? codeSize dataSize = none ↔
      i.Meaningful dataSize ∧ ∀ k ∈ i.leads, InCode codeSize k.address := by
  obtain ⟨address, opcode, operands⟩ := i
  cases opcode
  case lodbI | strbI | lctrl | sctrl | movs | cmps | sysreqN | loadPri | loadAlt | lrefPri | lrefAlt
      | storPri | storAlt | srefPri | srefAlt | push | zero | inc | dec =>
    simp only [refusal?, Meaningful, ite_none_eq_none_iff, leads, targets, List.map_nil,
      List.not_mem_nil, false_implies, implies_true, and_true]
  case fill =>
    simp only [refusal?, Meaningful, leads, targets, List.map_nil, List.not_mem_nil, false_implies,
      implies_true, and_true]
    split_ifs with hneg hdvd
    · simp [Int.not_le.mpr hneg]
    · simp [Int.not_lt.mp hneg, hdvd]
    · simp [hdvd]
  case casetbl =>
    simp only [refusal?, Meaningful, strayTarget?_eq_none_iff, leads, targets, true_and,
      List.forall_mem_map, List.forall_mem_cons, List.forall_mem_append]
    simp [and_comm]
  all_goals
    simp [refusal?, Meaningful, strayTarget?_eq_none_iff, leads, targets]

end Instruction

/-- Code that is translated: it can be decoded to its end, the operands mean something, branches
    lead to instructions and switches to case tables. -/
def Acceptable (code : Block) (dataSize : Nat) : Prop :=
  ∃ is, Decodes code 0 is none ∧ ∀ i ∈ is,
    i.Meaningful dataSize ∧
    (∀ t ∈ i.targets, ∃ j ∈ is, j.address = t) ∧
    (i.opcode = .switch → ∃ j ∈ is, j.opcode = .casetbl ∧ j.address = i.arg)

/-- The instruction at an address cannot be decoded, or is refused for its own operands. -/
def FailsAt (codeSize dataSize : Nat) (is : List Instruction) (stop : Option DecodeError)
    (address : Cell) (e : CompileError) : Prop :=
  (∃ i ∈ is, i.address = address ∧ i.refusal? codeSize dataSize = some e) ∨
  ∃ d, stop = some d ∧ d.address = address ∧ e = .decode d

/-- The error that is reported for a code segment. -/
def Reported (code : Block) (codeSize dataSize : Nat) (e : CompileError) : Prop :=
  ∃ is stop, Decodes code 0 is stop ∧
    ((∃ a, FailsAt codeSize dataSize is stop a e ∧
        ∀ a' e', FailsAt codeSize dataSize is stop a' e' → a.toNat ≤ a'.toNat) ∨
      (∀ a e', ¬FailsAt codeSize dataSize is stop a e') ∧
      ∃ k i, Missing is k ∧ (∀ k', Missing is k' → LabelKey.order k k' ≠ .gt) ∧
        i ∈ is ∧ k ∈ i.leads ∧ (∀ j ∈ is, k ∈ j.leads → i.address.toNat ≤ j.address.toNat) ∧
        e = .notAnInstruction k.address i.address)

/-! ## Section 2: The check of the branches -/

theorem LabelTable.mem_unbound_iff {t : LabelTable} {k : LabelKey} {r : Option Cell} :
    (k, r) ∈ t.unbound ↔ ∃ e, t.entries[k]? = some e ∧ e.bound = false ∧ e.referrer = r := by
  simp only [LabelTable.unbound, List.mem_map, List.mem_filter, Prod.exists, Prod.mk.injEq,
    Std.TreeMap.mem_toList_iff_getElem?_eq_some, Bool.not_eq_true']
  constructor
  · rintro ⟨k', e, ⟨hget, hbound⟩, rfl, hr⟩
    exact ⟨e, hget, hbound, hr⟩
  · rintro ⟨e, hget, hbound, hr⟩
    exact ⟨k, e, ⟨hget, hbound⟩, rfl, hr⟩

namespace Assembly.Follows

variable {a : Assembly} {p : Plan} {is : List Instruction}

theorem mem_unbound (h : a.Follows p) (hp : p.Covers is) {k : LabelKey} {r : Option Cell} :
    (k, r) ∈ a.labels.unbound ↔ Missing is k ∧ r = firstReferrer? is k := by
  have hentry : ∀ e, p.entryOf? k = some e ↔ .key k ∈ p.names ∧
      e = ⟨p.label (.key k), (p.placed (.key k)).isSome, p.referrer k⟩ := by
    intro e
    by_cases hk : .key k ∈ p.names
    · simp [Plan.entryOf?, Plan.label?_of_mem hk, hk, eq_comm]
    · simp [Plan.entryOf?, Plan.label?_eq_none_iff.mpr hk, hk]
  rw [LabelTable.mem_unbound_iff, h.entries]
  constructor
  · rintro ⟨e, he, hbound, rfl⟩
    obtain ⟨hname, rfl⟩ := (hentry e).mp he
    have hunplaced : ∀ i ∈ is, k ∉ i.binds := fun i hi hk => by
      have hplaced := (hp.placed k).mpr ⟨i, hi, hk⟩
      simp [hplaced] at hbound
    obtain ⟨i, hi, hk | hk⟩ := (hp.names k).mp hname
    · exact ⟨⟨⟨i, hi, hk⟩, hunplaced⟩, hp.referrer k hunplaced⟩
    · exact absurd hk (hunplaced i hi)
  · rintro ⟨⟨⟨i, hi, hk⟩, hunplaced⟩, rfl⟩
    refine ⟨_, (hentry _).mpr ⟨(hp.names k).mpr ⟨i, hi, Or.inl hk⟩, rfl⟩, ?_, ?_⟩
    · refine Bool.eq_false_iff.mpr fun hsome => ?_
      obtain ⟨j, hj, hkj⟩ := (hp.placed k).mp hsome
      exact hunplaced j hj hkj
    · exact hp.referrer k hunplaced

end Assembly.Follows

theorem LabelTable.ordered_unbound (t : LabelTable) :
    t.unbound.Pairwise fun x y => LabelKey.order x.1 y.1 = .lt := by
  rw [LabelTable.unbound, List.pairwise_map]
  exact Std.TreeMap.ordered_keys_toList.filter _

namespace Compilation

variable {c : Compilation} {p : Plan} {is : List Instruction}

theorem checkTargets_eq_ok_iff (h : c.asm.Follows p) (hp : p.Covers is) :
    c.checkTargets = .ok () ↔ ∀ k, ¬Missing is k := by
  unfold checkTargets
  constructor
  · intro hok k hk
    have hmem : (k, firstReferrer? is k) ∈ c.asm.labels.unbound := (h.mem_unbound hp).mpr ⟨hk, rfl⟩
    split at hok
    · next hnil => simp [hnil] at hmem
    · cases hok
  · intro hnone
    split
    · rfl
    · next k r rest hcons =>
      have hmem : (k, r) ∈ c.asm.labels.unbound := by simp [hcons]
      exact absurd ((h.mem_unbound hp).mp hmem).1 (hnone k)

/-- The error of the branches is about the lowest key that is missing. -/
theorem checkTargets_eq_error_iff (h : c.asm.Follows p) (hp : p.Covers is) {e : CompileError} :
    c.checkTargets = .error e ↔
      ∃ k, Missing is k ∧ (∀ k', Missing is k' → LabelKey.order k k' ≠ .gt) ∧
        e = .notAnInstruction k.address ((firstReferrer? is k).getD k.address) := by
  have hordered := c.asm.labels.ordered_unbound
  unfold checkTargets
  split
  · next hnil =>
    -- Without unbound keys there is no error, and nothing is missing.
    refine ⟨nofun, ?_⟩
    rintro ⟨k, hk, -, -⟩
    have hmem : (k, firstReferrer? is k) ∈ c.asm.labels.unbound := (h.mem_unbound hp).mpr ⟨hk, rfl⟩
    simp [hnil] at hmem
  · next k r rest hcons =>
    rw [hcons, List.pairwise_cons] at hordered
    have hmem : (k, r) ∈ c.asm.labels.unbound := by simp [hcons]
    obtain ⟨hk, rfl⟩ := (h.mem_unbound hp).mp hmem
    -- Every other missing key stands later in the list, so it is larger.
    have hleast : ∀ k', Missing is k' → k' = k ∨ LabelKey.order k k' = .lt := by
      intro k' hk'
      have hmem' : (k', firstReferrer? is k') ∈ c.asm.labels.unbound :=
        (h.mem_unbound hp).mpr ⟨hk', rfl⟩
      rw [hcons, List.mem_cons] at hmem'
      rcases hmem' with heq | hrest
      · exact Or.inl (Prod.mk.inj heq).1
      · exact Or.inr (hordered.1 _ hrest)
    constructor
    · intro he
      cases he
      refine ⟨k, hk, fun k' hk' => ?_, rfl⟩
      rcases hleast k' hk' with rfl | hlt
      · simp [Std.ReflCmp.compare_self]
      · simp [hlt]
    · rintro ⟨k', hk', hmin, rfl⟩
      rcases hleast k' hk' with rfl | hlt
      · rfl
      · exact absurd (Std.OrientedCmp.gt_of_lt hlt) (hmin k hk)

end Compilation

/-! ## Section 3: Translating a listing -/

section
variable {ctx : Context} {is : List Instruction} {stop : Option DecodeError}

theorem findSome?_refusal_eq_none_iff :
    is.findSome? (Instruction.refusal? ctx.codeSize ctx.dataSize) = none ↔ ∀ i ∈ is, i.Passes ctx :=
  List.findSome?_eq_none_iff

/-- The first refusal of a listing is that of its lowest instruction that is refused. -/
theorem findSome?_refusal_eq_some_iff
    (hordered : is.Pairwise fun i j => i.address.toNat < j.address.toNat) {e : CompileError} :
    is.findSome? (Instruction.refusal? ctx.codeSize ctx.dataSize) = some e ↔
      ∃ i ∈ is, i.refusal? ctx.codeSize ctx.dataSize = some e ∧
        ∀ j ∈ is, (j.refusal? ctx.codeSize ctx.dataSize).isSome →
          i.address.toNat ≤ j.address.toNat := by
  -- Addresses ascend, so the first refusal in the list is the lowest one.
  induction is with
  | nil => simp
  | cons i is ih =>
    rw [List.pairwise_cons] at hordered
    rw [List.findSome?_cons]
    cases hi : i.refusal? ctx.codeSize ctx.dataSize with
    | some e' =>
      constructor
      · intro he
        cases he
        refine ⟨i, by simp, hi, fun j hj _ => ?_⟩
        rcases List.mem_cons.mp hj with rfl | hj
        · exact Nat.le_refl _
        · exact Nat.le_of_lt (hordered.1 j hj)
      · rintro ⟨j, hj, hje, hmin⟩
        rcases List.mem_cons.mp hj with rfl | hj
        · rw [← hi, hje]
        · have hle := hmin i (by simp) (by simp [hi])
          have hlt := hordered.1 j hj
          omega
    | none =>
      rw [ih hordered.2]
      constructor
      · rintro ⟨j, hj, hje, hmin⟩
        refine ⟨j, List.mem_cons_of_mem _ hj, hje, fun j' hj' hsome => ?_⟩
        rcases List.mem_cons.mp hj' with rfl | hj'
        · simp [hi] at hsome
        · exact hmin j' hj' hsome
      · rintro ⟨j, hj, hje, hmin⟩
        rcases List.mem_cons.mp hj with rfl | hj
        · simp [hi] at hje
        · exact ⟨j, hj, hje, fun j' hj' => hmin j' (List.mem_cons_of_mem _ hj')⟩

/-- Nothing fails on its own exactly when the end is reached and every instruction passes. -/
theorem not_failsAt_iff :
    (∀ a e, ¬FailsAt ctx.codeSize ctx.dataSize is stop a e) ↔
      (∀ i ∈ is, i.Passes ctx) ∧ stop = none := by
  constructor
  · intro h
    refine ⟨fun i hi => ?_, ?_⟩
    · refine Option.eq_none_iff_forall_not_mem.mpr fun e he => ?_
      exact h i.address e (Or.inl ⟨i, hi, rfl, he⟩)
    · refine Option.eq_none_iff_forall_not_mem.mpr fun d hd => ?_
      exact h d.address (.decode d) (Or.inr ⟨d, hd, rfl, rfl⟩)
  · rintro ⟨hpass, rfl⟩ a e (⟨i, hi, -, he⟩ | ⟨d, hd, -⟩)
    · rw [hpass i hi] at he
      cases he
    · cases hd

/-- Compiling a listing fails with the error of the lowest instruction that fails on its own. -/
theorem Compilation.appendListing_eq_error_iff {code : Block}
    (hlisting : Decodes code 0 is stop) {e : CompileError} :
    start.appendListing ctx is stop = .error e ↔
      ∃ a, FailsAt ctx.codeSize ctx.dataSize is stop a e ∧
        ∀ a' e', FailsAt ctx.codeSize ctx.dataSize is stop a' e' → a.toNat ≤ a'.toNat := by
  have hordered := hlisting.ascending
  have hfirst := @findSome?_refusal_eq_some_iff ctx is hordered
  cases hrefusal : is.findSome? (Instruction.refusal? ctx.codeSize ctx.dataSize) with
  | some e₀ =>
    obtain ⟨i, hi, hie, hmin⟩ := hfirst.mp hrefusal
    -- The stop of the listing is past the refused instruction.
    have hle : ∀ a' e', FailsAt ctx.codeSize ctx.dataSize is stop a' e' →
        i.address.toNat ≤ a'.toNat := by
      rintro a' e' (⟨j, hj, rfl, hje⟩ | ⟨d, rfl, rfl, -⟩)
      · exact hmin j hj (by simp [hje])
      · exact Nat.le_of_lt ((hlisting.address_lt_stop).2 i hi)
    have hvalue : start.appendListing ctx is stop = .error e₀ := by
      simp only [appendListing, hrefusal]
    rw [hvalue]
    constructor
    · intro he
      cases he
      exact ⟨i.address, Or.inl ⟨i, hi, rfl, hie⟩, hle⟩
    · rintro ⟨a, hfails, hmin'⟩
      have hai := hmin' i.address e₀ (Or.inl ⟨i, hi, rfl, hie⟩)
      rcases hfails with ⟨j, hj, rfl, hje⟩ | ⟨d, rfl, rfl, -⟩
      · have hsame := hfirst.mpr ⟨j, hj, hje, fun j' hj' hsome => by
          obtain ⟨e', he'⟩ := Option.isSome_iff_exists.mp hsome
          exact hmin' j'.address e' (Or.inl ⟨j', hj', rfl, he'⟩)⟩
        rw [hrefusal] at hsame
        rw [Option.some_inj.mp hsame]
      · have hlt := (hlisting.address_lt_stop).2 i hi
        omega
  | none =>
    have hpass := findSome?_refusal_eq_none_iff.mp hrefusal
    cases stop with
    | some d =>
      have hvalue : start.appendListing ctx is (some d) = .error (.decode d) := by
        simp only [appendListing, hrefusal]
      have honly : ∀ a' e', FailsAt ctx.codeSize ctx.dataSize is (some d) a' e' →
          a' = d.address ∧ e' = .decode d := by
        rintro a' e' (⟨j, hj, -, hje⟩ | ⟨d', hd', rfl, rfl⟩)
        · rw [hpass j hj] at hje
          cases hje
        · cases hd'
          exact ⟨rfl, rfl⟩
      rw [hvalue]
      constructor
      · intro he
        cases he
        refine ⟨d.address, Or.inr ⟨d, rfl, rfl, rfl⟩, fun a' e' h => ?_⟩
        exact Nat.le_of_eq (by rw [(honly a' e' h).1])
      · rintro ⟨a, hfails, -⟩
        rw [(honly a e hfails).2]
    | none =>
      have hvalue : start.appendListing ctx is none = .ok (is.foldl (append ctx) start) := by
        simp only [appendListing, hrefusal]
      rw [hvalue]
      refine ⟨nofun, ?_⟩
      rintro ⟨a, hfails, -⟩
      exact absurd hfails (not_failsAt_iff.mpr ⟨hpass, rfl⟩ a e)

end

/-! ## Section 4: Translating an image -/

section
variable {code : Block} {dataSize : Nat} {is : List Instruction}

theorem Decodes.inCode {stop : Option DecodeError} (h : Decodes code 0 is stop)
    (hsize : code.size < 0x80000000) {i : Instruction} (hi : i ∈ is) :
    Instruction.InCode code.size i.address := by
  have hbounds := h.bounds hi
  have haligned := h.aligned rfl hi
  have hpos := i.size_pos
  rw [Cell.width] at haligned
  rw [Instruction.InCode, h.toInt_address hsize hi]
  omega

theorem exists_mem_binds_iff {k : LabelKey} :
    (∃ i ∈ is, k ∈ i.binds) ↔
      ∃ i ∈ is, i.address = k.address ∧ (k.kind = .caseTable → i.opcode = .casetbl) := by
  have hiff : ∀ i : Instruction, k ∈ i.binds ↔
      i.address = k.address ∧ (k.kind = .caseTable → i.opcode = .casetbl) := by
    intro i
    obtain ⟨address, kind⟩ := k
    unfold Instruction.binds
    by_cases hop : i.opcode = .casetbl
    · cases kind <;> simp [hop, eq_comm]
    · cases kind <;> simp [hop, eq_comm]
  simp only [hiff]

/-- What instructions lead to is placed exactly when branches lead to instructions and switches to
    case tables. -/
theorem forall_not_missing_iff :
    (∀ k, ¬Missing is k) ↔ ∀ i ∈ is, (∀ t ∈ i.targets, ∃ j ∈ is, j.address = t) ∧
      (i.opcode = .switch → ∃ j ∈ is, j.opcode = .casetbl ∧ j.address = i.arg) := by
  have hplaced : (∀ k, ¬Missing is k) ↔ ∀ i ∈ is, ∀ k ∈ i.leads, ∃ j ∈ is, k ∈ j.binds := by
    simp only [Missing, not_and, not_forall, not_not]
    constructor
    · rintro h i hi k hk
      obtain ⟨j, hj, hkj⟩ := h k ⟨i, hi, hk⟩
      exact ⟨j, hj, hkj⟩
    · rintro h k ⟨i, hi, hk⟩
      obtain ⟨j, hj, hkj⟩ := h i hi k hk
      exact ⟨j, hj, hkj⟩
  rw [hplaced]
  refine forall₂_congr fun i hi => ?_
  by_cases hswitch : i.opcode = .switch
  · have hleads : i.leads = [⟨i.arg, .caseTable⟩] := by simp [Instruction.leads, hswitch]
    have htargets : i.targets = [] := by simp [Instruction.targets, hswitch]
    simp [hleads, htargets, hswitch, exists_mem_binds_iff, and_comm]
  · have hleads : i.leads = i.targets.map fun t => ⟨t, .instr⟩ := by
      unfold Instruction.leads
      split
      · next h => exact absurd h hswitch
      · rfl
    simp [hleads, hswitch, exists_mem_binds_iff]

theorem acceptable_iff (hsize : code.size < 0x80000000) {ctx : Context}
    (hctx : ctx.codeSize = code.size)
    {stop : Option DecodeError} (hlisting : Decodes code 0 is stop) :
    Acceptable code ctx.dataSize ↔
      (stop = none ∧ ∀ i ∈ is, i.Passes ctx) ∧ ∀ k, ¬Missing is k := by
  have hpass : (∀ k, ¬Missing is k) →
      ∀ i ∈ is, (i.Passes ctx ↔ i.Meaningful ctx.dataSize) := by
    intro hmissing i hi
    rw [Instruction.Passes, Instruction.refusal?_eq_none_iff, hctx]
    refine and_iff_left fun k hk => ?_
    -- The label is placed by an instruction of the listing, which lies in the code.
    have hbound : ∃ j ∈ is, k ∈ j.binds := by
      by_contra hnone
      exact hmissing k ⟨⟨i, hi, hk⟩, fun j hj hkj => hnone ⟨j, hj, hkj⟩⟩
    obtain ⟨j, hj, haddress, -⟩ := exists_mem_binds_iff.mp hbound
    rw [← haddress]
    exact hlisting.inCode hsize hj
  constructor
  · rintro ⟨is', hlisting', hall⟩
    obtain ⟨rfl, rfl⟩ := hlisting.unique hlisting'
    have hmissing := forall_not_missing_iff.mpr fun i hi => (hall i hi).2
    exact ⟨⟨rfl, fun i hi => (hpass hmissing i hi).mpr (hall i hi).1⟩, hmissing⟩
  · rintro ⟨⟨rfl, hall⟩, hmissing⟩
    have hbranches := forall_not_missing_iff.mp hmissing
    exact ⟨is, hlisting, fun i hi => ⟨(hpass hmissing i hi).mp (hall i hi), hbranches i hi⟩⟩

end

section
variable {ctx : Context} {code : Block} {is : List Instruction} {stop : Option DecodeError}

theorem Compilation.appendListing_eq_ok_iff {c : Compilation} :
    start.appendListing ctx is stop = .ok c ↔
      (stop = none ∧ ∀ i ∈ is, i.Passes ctx) ∧ c = is.foldl (append ctx) start := by
  rw [← findSome?_refusal_eq_none_iff]
  unfold appendListing
  split
  · next e _ h => simp [h]
  · next d h => simp
  · next h => simp [h, eq_comm]

/-- The first referrer of a key is the lowest instruction that leads to it. -/
theorem exists_firstReferrer (hordered : is.Pairwise fun i j => i.address.toNat < j.address.toNat)
    {k : LabelKey} (hk : ∃ i ∈ is, k ∈ i.leads) :
    ∃ i ∈ is, k ∈ i.leads ∧ (∀ j ∈ is, k ∈ j.leads → i.address.toNat ≤ j.address.toNat) ∧
      firstReferrer? is k = some i.address := by
  induction is with
  | nil =>
    obtain ⟨i, hi, -⟩ := hk
    cases hi
  | cons i is ih =>
    rw [List.pairwise_cons] at hordered
    by_cases hik : k ∈ i.leads
    · refine ⟨i, by simp, hik, fun j hj _ => ?_, by simp [firstReferrer?, hik]⟩
      rcases List.mem_cons.mp hj with rfl | hj
      · exact Nat.le_refl _
      · exact Nat.le_of_lt (hordered.1 j hj)
    · obtain ⟨j, hj, hjk⟩ := hk
      rcases List.mem_cons.mp hj with rfl | hj
      · exact absurd hjk hik
      obtain ⟨j, hj, hjk, hmin, hfirst⟩ := ih hordered.2 ⟨j, hj, hjk⟩
      refine ⟨j, List.mem_cons_of_mem _ hj, hjk, fun j' hj' hjk' => ?_, ?_⟩
      · rcases List.mem_cons.mp hj' with rfl | hj'
        · exact absurd hjk' hik
        · exact hmin j' hj' hjk'
      · simpa [firstReferrer?, hik] using hfirst

/-- Translation succeeds exactly for acceptable code. -/
theorem Compilation.exists_translate_iff (hsize : code.size < 0x80000000)
    (hctx : ctx.codeSize = code.size) :
    (∃ c, translate ctx code = .ok c) ↔ Acceptable code ctx.dataSize := by
  obtain ⟨is, stop, hlisting, -⟩ := Cursor.remaining_eq_listing code
  rw [acceptable_iff hsize hctx hlisting, translate_eq hlisting]
  have hfollows := follows_foldl ctx is
  constructor
  · rintro ⟨c, hc⟩
    obtain ⟨c', hlist, hc⟩ := bind_eq_ok.mp hc
    obtain ⟨_, hcheck, -⟩ := bind_eq_ok.mp hc
    obtain ⟨hpass, rfl⟩ := appendListing_eq_ok_iff.mp hlist
    exact ⟨hpass, (checkTargets_eq_ok_iff hfollows (Plan.covers_ofListing hpass.2)).mp hcheck⟩
  · rintro ⟨hpass, hmissing⟩
    have hcheck :=
      (checkTargets_eq_ok_iff hfollows (Plan.covers_ofListing hpass.2)).mpr hmissing
    rw [appendListing_eq_ok_iff.mpr ⟨hpass, rfl⟩, ok_bind, hcheck]
    exact ⟨_, rfl⟩

/-- Translation fails with the error of the lowest instruction that fails on its own, or else with
    the error of the branches. -/
theorem Compilation.translate_eq_error_iff {e : CompileError} :
    translate ctx code = .error e ↔ Reported code ctx.codeSize ctx.dataSize e := by
  obtain ⟨is, stop, hlisting, -⟩ := Cursor.remaining_eq_listing code
  have hordered := hlisting.ascending
  have hfollows := follows_foldl ctx is
  rw [translate_eq hlisting, bind_eq_error, appendListing_eq_error_iff hlisting]
  constructor
  · rintro (hfails | ⟨c, hlist, hc⟩)
    · exact ⟨is, stop, hlisting, Or.inl hfails⟩
    · obtain ⟨⟨hstop, hpass⟩, rfl⟩ := appendListing_eq_ok_iff.mp hlist
      obtain hcheck | ⟨_, -, hc⟩ := bind_eq_error.mp hc
      · obtain ⟨k, hk, hmin, rfl⟩ :=
          (checkTargets_eq_error_iff hfollows (Plan.covers_ofListing hpass)).mp hcheck
        obtain ⟨i, hi, hik, hlow, hfirst⟩ := exists_firstReferrer hordered hk.1
        refine ⟨is, stop, hlisting, Or.inr ⟨not_failsAt_iff.mpr ⟨hpass, hstop⟩, ?_⟩⟩
        exact ⟨k, i, hk, hmin, hi, hik, hlow, by rw [hfirst]; rfl⟩
      · cases hc
  · rintro ⟨is', stop', hlisting', hreport⟩
    obtain ⟨rfl, rfl⟩ := hlisting.unique hlisting'
    rcases hreport with hfails | ⟨hnone, k, i, hk, hmin, hi, hik, hlow, rfl⟩
    · exact Or.inl hfails
    · obtain ⟨hpass, hstop⟩ := not_failsAt_iff.mp hnone
      refine Or.inr ⟨_, appendListing_eq_ok_iff.mpr ⟨⟨hstop, hpass⟩, rfl⟩, ?_⟩
      obtain ⟨j, hj, hjk, hlow', hfirst⟩ := exists_firstReferrer hordered hk.1
      -- Two lowest referrers of one key have one address.
      have hsame : j.address = i.address :=
        BitVec.eq_of_toNat_eq (Nat.le_antisymm (hlow' i hi hik) (hlow j hj hjk))
      refine bind_eq_error.mpr (Or.inl ?_)
      refine (checkTargets_eq_error_iff hfollows (Plan.covers_ofListing hpass)).mpr
        ⟨k, hk, hmin, ?_⟩
      rw [hfirst, Option.getD_some, hsame]

end

/-! ### A small image -/

/-- The header of an image whose code takes 36 bytes. -/
def switchHeader : Header where
  size := 92
  magic := Header.magicNumber
  fileVersion := 8
  machineVersion := 8
  flags := 0
  recordSize := 8
  cod := 56
  dat := 92
  hea := 92
  stp := 108
  cip := -1
  publics := 56
  natives := 56
  libraries := 56
  pubvars := 56
  tags := 56
  nametable := 56

/-- A switch with one case and a default, and the end of the program. -/
def switchListing : List Instruction :=
  [⟨0, .switch, [8]⟩, ⟨8, .casetbl, [1, 28, 5, 0]⟩, ⟨28, .halt, [0]⟩]

def switchImage : Block := (switchHeader.bytes ++ switchListing.flatMap Instruction.bytes).toArray

def switchInstance : Instance where
  header := switchHeader
  block := switchImage ++ Array.replicate 16 0
  regs := { stp := 12, stk := 12, cip := -1 }
  pending := 0
  natives := #[]

theorem load_switchImage : Instance.load switchImage = .ok switchInstance :=
  Instance.load_whole (by decide +kernel) rfl (by decide) rfl

theorem decodes_switchListing : Decodes switchInstance.code 0 switchListing none :=
  .of_block (n := 36) rfl (by decide) rfl rfl (by decide) (by decide)

/-- **Acceptance.** Whatever the configuration, the translation of a loaded image succeeds exactly
    when its code is acceptable, and fails with exactly the error that is due. -/
theorem translate_loaded_image {image : Block} {vm : Instance}
    (hload : Instance.load image = .ok vm) (config : Config) :
    ((∃ c, Compilation.translate (.ofInstance config vm) vm.code = .ok c) ↔
      Acceptable vm.code vm.dataSize) ∧
    ∀ e, Compilation.translate (.ofInstance config vm) vm.code = .error e ↔
      Reported vm.code vm.codeSize vm.dataSize e := by
  obtain ⟨hcode, hsize⟩ := Instance.size_code hload
  exact ⟨Compilation.exists_translate_iff hsize hcode.symm,
    fun e => Compilation.translate_eq_error_iff⟩

theorem translate_switchImage :
    Instance.load switchImage = .ok switchInstance ∧
      ∃ c, Compilation.translate (.ofInstance {} switchInstance) switchInstance.code = .ok c := by
  refine ⟨load_switchImage, (translate_loaded_image load_switchImage {}).1.mpr
    ⟨switchListing, decodes_switchListing, ?_⟩⟩
  simp [switchListing, Instruction.Meaningful, Instruction.targets, Instruction.arg,
    Instruction.arg2, Instruction.cases, Instruction.pairs]

end PawnNative
