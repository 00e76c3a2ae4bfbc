import Mathlib.Tactic.Common
import PawnNative.Image.Builder
import PawnNative.Proofs.Streams

/-! # Transcripts of builders

    A builder is used by calls, one after the other. The transcript of a sequence of
    calls lists each of them with the code address and the data address of the
    moment, which are what the calls that append return. What an image will hold is
    read off the transcript alone: the instructions at their addresses, the addresses
    of labels by their last binding, the data, the declared functions.

    Cells that wait for labels are handled by `Appends`: what a call adds to the code
    is said for the code with all labels filled in, so that waiting cells and cells
    that are known look the same. `Records` ties a builder to its transcript; each call
    preserves it, so every sequence of calls does.
-/

namespace PawnNative

/-! ## Section 1: Calls -/

/-- The label that an operand refers to. -/
def Arg.label? : Arg → Option CodeLabel
  | .value _ => none
  | .label l | .relative l => some l

/-- The cell of an operand whose instruction ends at `stop`, when labels have these addresses. -/
def Arg.cell (address : CodeLabel → Cell) (stop : Cell) : Arg → Cell
  | .value c => c
  | .label l => address l
  | .relative l => address l - stop

namespace Builder

/-- A call of a builder. -/
inductive Call where
  | newLabel
  | bind (l : CodeLabel)
  | emit (op : Opcode) (args : List Arg)
  | caseTable (default : CodeLabel) (records : List (Cell × CodeLabel))
  | dataCells (values : List Cell)
  | dataText (s : String)
  | addPublic (name : String) (entry : CodeLabel)
  | addNative (name : String)
  | setMain (entry : CodeLabel)
  | setStack (size : Nat)
  deriving DecidableEq, Repr

def run (b : Builder) : Call → Builder
  | .newLabel => b.newLabel.2
  | .bind l => b.bind l
  | .emit op args => b.emit op args
  | .caseTable default records => b.caseTable default records
  | .dataCells values => b.dataCells values
  | .dataText s => b.dataText s
  | .addPublic name entry => b.addPublic name entry
  | .addNative name => b.addNative name
  | .setMain entry => b.setMain entry
  | .setStack size => { b with stackSize := size }

namespace Call

/-- Calls bind labels that were made before, `n` of them before the first call. -/
def Made : Nat → List Call → Prop
  | _, [] => True
  | n, .newLabel :: calls => Made (n + 1) calls
  | n, .bind l :: calls => l.index < n ∧ Made n calls
  | n, _ :: calls => Made n calls

/-- The operands of a case table. -/
def tableArgs (default : CodeLabel) (records : List (Cell × CodeLabel)) : List Arg :=
  .value (BitVec.ofNat 32 records.length) :: .label default ::
    records.flatMap fun r => [.value r.1, .label r.2]

/-- The opcode and the operands that a call appends to the code. -/
def assembly? : Call → Option (Opcode × List Arg)
  | .emit op args => some (op, args)
  | .caseTable default records => some (.casetbl, tableArgs default records)
  | _ => none

/-- The labels that a call's code refers to. -/
def codeLabels (c : Call) : List CodeLabel :=
  c.assembly?.elim [] fun code => code.2.filterMap Arg.label?

def data : Call → List Cell
  | .dataCells values => values
  | .dataText s => Text.cells s
  | _ => []

def public? : Call → Option (String × CodeLabel)
  | .addPublic name entry => some (name, entry)
  | _ => none

def native? : Call → Option String
  | .addNative name => some name
  | _ => none

def main? : Call → Option CodeLabel
  | .setMain entry => some entry
  | _ => none

end Call

/-- A call with the addresses of the next instruction and of the next data cell when it is made. -/
structure Entry where
  call : Call
  here : Cell
  dataHere : Cell
  deriving DecidableEq, Repr

/-- The calls with the addresses at which they are made. -/
def transcript (b : Builder) : List Call → List Entry
  | [] => []
  | c :: calls => ⟨c, b.here, b.dataHere⟩ :: (b.run c).transcript calls

/-! ## Section 2: What a transcript says -/

/-- An instruction at an address, when labels have these addresses. -/
def assembled (address : CodeLabel → Cell) (here : Cell) (op : Opcode) (args : List Arg) :
    Instruction where
  address := here
  opcode := op
  operands := args.map (Arg.cell address (here + BitVec.ofNat 32 ((1 + args.length) * Cell.width)))

namespace Entry

def instruction? (address : CodeLabel → Cell) (e : Entry) : Option Instruction :=
  e.call.assembly?.map fun code => assembled address e.here code.1 code.2

/-- The address of a label: that of the last call that binds it. -/
def boundTo? (t : List Entry) (l : CodeLabel) : Option Cell :=
  (t.reverse.find? fun e => e.call = .bind l).map (·.here)

def address (t : List Entry) (l : CodeLabel) : Cell := (boundTo? t l).getD 0

/-- The instructions, when labels have these addresses. -/
def listing (address : CodeLabel → Cell) (t : List Entry) : List Instruction :=
  t.filterMap (instruction? address)

def data (t : List Entry) : List Cell := t.flatMap (·.call.data)

def publics (t : List Entry) : List (String × CodeLabel) := t.filterMap (·.call.public?)

def natives (t : List Entry) : List String := t.filterMap (·.call.native?)

/-- The entry point: the one that was set last. -/
def main? (t : List Entry) : Option CodeLabel := t.reverse.findSome? (·.call.main?)

/-- The labels that are referred to, in the order in which they are resolved. -/
def references (t : List Entry) : List CodeLabel :=
  t.flatMap (·.call.codeLabels) ++ (publics t).map (·.2) ++ (main? t).toList

end Entry

/-! ## Section 3: Filling in labels -/

variable {b b₁ b₂ : Builder}

/-- The code with every waiting cell filled in. -/
def filled (address : CodeLabel → Cell) (b : Builder) : Array Cell :=
  b.fixups.toList.foldl (fun code f => code.setIfInBounds f.cell (address f.label - f.base)) b.code

/-- The cells that wait are cells of the code. -/
def Waits (b : Builder) : Prop := ∀ f ∈ b.fixups.toList, f.cell < b.code.size

/-- From one builder to the next, code is appended that refers to these labels and has these
    cells. -/
structure Appends (b b' : Builder) (labels : List CodeLabel)
    (cells : (CodeLabel → Cell) → List Cell) : Prop where
  same : b' = { b with code := b'.code, fixups := b'.fixups }
  labels : b'.fixups.toList.map (·.label) = b.fixups.toList.map (·.label) ++ labels
  waits : b.Waits → b'.Waits
  filled : b.Waits → ∀ address, (b'.filled address).toList =
    (b.filled address).toList ++ cells address

theorem Appends.refl (b : Builder) : Appends b b [] fun _ => [] where
  same := rfl
  labels := (List.append_nil _).symm
  waits := id
  filled := fun _ _ => (List.append_nil _).symm

theorem Appends.trans {labels₁ labels₂ : List CodeLabel}
    {cells₁ cells₂ : (CodeLabel → Cell) → List Cell}
    (h₁ : Appends b b₁ labels₁ cells₁) (h₂ : Appends b₁ b₂ labels₂ cells₂) :
    Appends b b₂ (labels₁ ++ labels₂) fun address => cells₁ address ++ cells₂ address where
  same := by
    rw [h₂.same, h₁.same]
  labels := by rw [h₂.labels, h₁.labels, List.append_assoc]
  waits := h₂.waits ∘ h₁.waits
  filled := fun hwaits address => by
    rw [h₂.filled (h₁.waits hwaits), h₁.filled hwaits, List.append_assoc]

theorem size_foldl_set (address : CodeLabel → Cell) (fs : List Fixup) (code : Array Cell) :
    (fs.foldl (fun code f => code.setIfInBounds f.cell (address f.label - f.base)) code).size =
      code.size := by
  induction fs generalizing code with
  | nil => rfl
  | cons f fs ih => rw [List.foldl_cons, ih, Array.size_setIfInBounds]

theorem size_filled (address : CodeLabel → Cell) (b : Builder) :
    (b.filled address).size = b.code.size :=
  size_foldl_set ..

theorem foldl_set_push (address : CodeLabel → Cell) {fs : List Fixup} {code : Array Cell} (c : Cell)
    (hfs : ∀ f ∈ fs, f.cell < code.size) :
    fs.foldl (fun code f => code.setIfInBounds f.cell (address f.label - f.base)) (code.push c) =
      (fs.foldl
        (fun code f => code.setIfInBounds f.cell (address f.label - f.base)) code).push c := by
  induction fs generalizing code with
  | nil => rfl
  | cons f fs ih =>
    obtain ⟨hf, hfs⟩ := List.forall_mem_cons.mp hfs
    have hpush : (code.push c).setIfInBounds f.cell (address f.label - f.base) =
        (code.setIfInBounds f.cell (address f.label - f.base)).push c := by
      apply Array.toList_inj.mp
      rw [Array.toList_setIfInBounds, Array.toList_push, Array.toList_push,
        Array.toList_setIfInBounds, List.set_append_left _ _ hf]
    rw [List.foldl_cons, List.foldl_cons, hpush]
    refine ih fun g hg => ?_
    rw [Array.size_setIfInBounds]
    exact hfs g hg

theorem appends_value (b : Builder) (c : Cell) : Appends b (b.cells [c]) [] fun _ => [c] where
  same := rfl
  labels := (List.append_nil _).symm
  waits := fun hwaits f hf => Nat.lt_of_lt_of_le (hwaits f hf) (by simp [cells])
  filled := fun hwaits address => by
    have hpush : (b.cells [c]).filled address = (b.filled address).push c := by
      rw [filled, cells, show b.code ++ [c] = b.code.push c by simp]
      exact foldl_set_push address c hwaits
    rw [hpush, Array.toList_push]

theorem appends_reference (b : Builder) (l : CodeLabel) (base : Cell) :
    Appends b (b.reference l base) [l] fun address => [address l - base] where
  same := rfl
  labels := by simp [reference]
  waits := fun hwaits f hf => by
    simp only [reference, Array.toList_push, List.mem_append, List.mem_singleton,
      Array.size_push] at hf ⊢
    rcases hf with hf | rfl
    · exact Nat.lt_succ_of_lt (hwaits f hf)
    · exact Nat.lt_succ_self _
  filled := fun hwaits address => by
    have hpush : (b.reference l base).filled address = (b.filled address).push
        (address l - base) := by
      simp only [filled, reference, Array.toList_push, List.foldl_append, List.foldl_cons,
        List.foldl_nil]
      rw [foldl_set_push address 0 hwaits, ← filled, ← size_filled address b]
      apply Array.toList_inj.mp
      rw [Array.toList_setIfInBounds, Array.toList_push, Array.toList_push,
        List.set_append_right _ _ (Nat.le_of_eq Array.length_toList),
        Array.length_toList, Nat.sub_self]
      rfl
    rw [hpush, Array.toList_push]

theorem appends_arg (stop : Cell) (b : Builder) (x : Arg) :
    Appends b (arg stop b x) x.label?.toList fun address => [x.cell address stop] := by
  cases x with
  | value c => exact appends_value b c
  | label l =>
    have hzero : (fun address : CodeLabel → Cell => [address l]) = fun address => [address l - 0] :=
      funext fun address => congrArg (fun c => [c]) (BitVec.sub_zero (address l)).symm
    show Appends b (b.reference l 0) [l] fun address => [address l]
    rw [hzero]
    exact appends_reference b l 0
  | relative l => exact appends_reference b l stop

theorem appends_args (stop : Cell) (b : Builder) (args : List Arg) :
    Appends b (args.foldl (arg stop) b) (args.filterMap Arg.label?)
      fun address => args.map (Arg.cell address stop) := by
  induction args generalizing b with
  | nil => exact .refl b
  | cons x args ih =>
    have h := (appends_arg stop b x).trans (ih (arg stop b x))
    have hlabels : (x :: args).filterMap Arg.label? = x.label?.toList ++ args.filterMap
        Arg.label? := by
      rw [List.filterMap_cons]
      cases x.label? with
      | none => rfl
      | some l => rfl
    rw [hlabels]
    exact h

theorem appends_emit (b : Builder) (op : Opcode) (args : List Arg) :
    Appends b (b.emit op args) (args.filterMap Arg.label?)
      fun address => (assembled address b.here op args).cells := by
  have hop : Appends b { b with code := b.code.push op.code } [] fun _ => [op.code] := by
    have h := appends_value b op.code
    rwa [cells, show b.code ++ [op.code] = b.code.push op.code by simp] at h
  exact hop.trans
    (appends_args (b.here + BitVec.ofNat 32 ((1 + args.length) * Cell.width))
      { b with code := b.code.push op.code } args)

/-! ## Section 4: Builders and their transcripts -/

def address? (b : Builder) (l : CodeLabel) : Option Cell := b.labels[l.index]?.join

/-- What a builder knows is what its transcript says. -/
structure Records (b : Builder) (t : List Entry) : Prop where
  address : ∀ l, b.address? l = Entry.boundTo? t l
  waits : b.Waits
  labels : b.fixups.toList.map (·.label) = t.flatMap (·.call.codeLabels)
  filled : ∀ address, (b.filled address).toList = (Entry.listing address t).flatMap
    Instruction.cells
  /-- The instructions follow each other, as long as addresses do not wrap. -/
  span : b.code.size * Cell.width < 0x100000000 → ∀ address,
    Instruction.Span 0 (Entry.listing address t) (b.code.size * Cell.width)
  data : b.data.toList = Entry.data t
  /-- The data of a call stand at the data address at which it was made. -/
  dataHere : ∀ e ∈ t, ∃ before after, b.data.toList = before ++ e.call.data ++ after ∧
    e.dataHere = BitVec.ofNat 32 (before.length * Cell.width)
  publics : b.publics.toList = Entry.publics t
  natives : b.natives.toList = Entry.natives t
  main : b.main = Entry.main? t

namespace Entry

variable {t : List Entry} {e : Entry}

theorem boundTo?_concat (l : CodeLabel) :
    boundTo? (t ++ [e]) l = if e.call = .bind l then some e.here else boundTo? t l := by
  unfold boundTo?
  rw [List.reverse_append, List.reverse_singleton, List.singleton_append, List.find?_cons]
  split_ifs with hcall
  · rw [decide_eq_true hcall]
    rfl
  · rw [decide_eq_false hcall]

theorem listing_concat (address : CodeLabel → Cell) :
    listing address (t ++ [e]) = listing address t ++ (e.instruction? address).toList := by
  rw [listing, List.filterMap_append, ← listing]
  congr 1

theorem data_concat : data (t ++ [e]) = data t ++ e.call.data := by
  simp [data]

theorem publics_concat : publics (t ++ [e]) = publics t ++ e.call.public?.toList := by
  rw [publics, List.filterMap_append, ← publics]
  congr 1

theorem natives_concat : natives (t ++ [e]) = natives t ++ e.call.native?.toList := by
  rw [natives, List.filterMap_append, ← natives]
  congr 1

theorem main?_concat : main? (t ++ [e]) = e.call.main?.or (main? t) := by
  unfold main?
  rw [List.reverse_append, List.reverse_singleton, List.singleton_append, List.findSome?_cons]
  cases e.call.main? with
  | none => rfl
  | some l => rfl

end Entry

section Run

variable (b : Builder) (op : Opcode) (args : List Arg) (c : Call)

@[simp] theorem labels_emit : (b.emit op args).labels = b.labels := by
  rw [(appends_emit b op args).same]

@[simp] theorem data_emit : (b.emit op args).data = b.data := by
  rw [(appends_emit b op args).same]

@[simp] theorem publics_emit : (b.emit op args).publics = b.publics := by
  rw [(appends_emit b op args).same]

@[simp] theorem natives_emit : (b.emit op args).natives = b.natives := by
  rw [(appends_emit b op args).same]

@[simp] theorem main_emit : (b.emit op args).main = b.main := by
  rw [(appends_emit b op args).same]

theorem run_of_assembly {c : Call} {op : Opcode} {args : List Arg}
    (hc : c.assembly? = some (op, args)) : b.run c = b.emit op args := by
  cases c <;> cases hc <;> rfl

theorem code_run_of_none {c : Call} (hc : c.assembly? = none) :
    (b.run c).code = b.code ∧ (b.run c).fixups = b.fixups := by
  cases c <;> cases hc <;> exact ⟨rfl, rfl⟩

theorem data_run : (b.run c).data.toList = b.data.toList ++ c.data := by
  cases c <;> simp [run, Call.data, newLabel, bind, caseTable, dataCells, dataText,
    addPublic, addNative, setMain]

theorem publics_run : (b.run c).publics.toList = b.publics.toList ++ c.public?.toList := by
  cases c <;> simp [run, Call.public?, newLabel, bind, caseTable, dataCells, dataText,
    addPublic, addNative, setMain]

theorem natives_run : (b.run c).natives.toList = b.natives.toList ++ c.native?.toList := by
  cases c <;> simp [run, Call.native?, newLabel, bind, caseTable, dataCells, dataText,
    addPublic, addNative, setMain]

theorem main_run : (b.run c).main = c.main?.or b.main := by
  cases c <;> simp [run, Call.main?, newLabel, bind, caseTable, dataCells, dataText,
    addPublic, addNative, setMain]

theorem address?_run {c : Call} (hc : ∀ l, c = .bind l → l.index < b.labels.size) (l : CodeLabel) :
    (b.run c).address? l = if c = .bind l then some b.here else b.address? l := by
  unfold address?
  cases c with
  | newLabel =>
    -- The label that is made is not bound, nor was it before.
    simp only [run, newLabel, reduceCtorEq, if_false]
    rw [Array.getElem?_push]
    split_ifs with hl
    · rw [hl, Array.getElem?_eq_none (Nat.le_refl _)]
      rfl
    · rfl
  | bind l' =>
    have hl' := hc l' rfl
    simp only [run, bind, Call.bind.injEq]
    rw [Array.getElem?_setIfInBounds]
    by_cases heq : l' = l
    · subst heq
      rw [if_pos rfl, if_pos rfl, if_pos hl']
      rfl
    · have hindex : l'.index ≠ l.index := fun hindex => heq (congrArg CodeLabel.mk hindex)
      rw [if_neg hindex, if_neg heq]
  | _ => simp [run, caseTable, dataCells, dataText, addPublic, addNative, setMain]

end Run

/-- What a call adds to the code. -/
theorem appends_run (b : Builder) (c : Call) :
    (b.run c).fixups.toList.map (·.label) = b.fixups.toList.map (·.label) ++ c.codeLabels ∧
    (b.Waits → (b.run c).Waits ∧
      ∀ address, ((b.run c).filled address).toList = (b.filled address).toList ++
      (Entry.instruction? address ⟨c, b.here, b.dataHere⟩).toList.flatMap Instruction.cells) := by
  unfold Entry.instruction? Call.codeLabels
  cases hc : c.assembly? with
  | none =>
    obtain ⟨hcode, hfixups⟩ := b.code_run_of_none hc
    unfold Waits filled
    rw [hcode, hfixups]
    simp
  | some code =>
    obtain ⟨op, args⟩ := code
    have happends := appends_emit b op args
    rw [b.run_of_assembly hc]
    refine ⟨happends.labels, fun hwaits => ⟨happends.waits hwaits, fun address => ?_⟩⟩
    rw [happends.filled hwaits]
    simp

/-- The instructions of a transcript follow each other up to the end of the code. -/
theorem Records.span_run {t : List Entry} (h : b.Records t) (c : Call)
    (hsize : (b.run c).code.size * Cell.width < 0x100000000) (address : CodeLabel → Cell) :
    Instruction.Span 0 (Entry.listing address (t ++ [⟨c, b.here, b.dataHere⟩]))
      ((b.run c).code.size * Cell.width) := by
  obtain ⟨-, hfilled⟩ := (appends_run b c).2 h.waits
  have hsize' := congrArg List.length (hfilled address)
  rw [List.length_append, Array.length_toList, Array.length_toList, size_filled,
    size_filled] at hsize'
  rw [Entry.listing_concat]
  cases hi : Entry.instruction? address ⟨c, b.here, b.dataHere⟩ with
  | none =>
    rw [hi] at hsize'
    simp only [Option.toList_none, List.flatMap_nil, List.length_nil, Nat.add_zero,
      List.append_nil] at hsize' ⊢
    rw [hsize'] at hsize ⊢
    exact h.span hsize address
  | some i =>
    rw [hi] at hsize'
    have hcells : (b.run c).code.size * Cell.width = b.code.size * Cell.width + i.size := by
      have hlength : i.cells.length = 1 + i.operands.length := Nat.add_comm ..
      rw [hsize', Option.toList_some, List.flatMap_singleton, hlength, Nat.add_mul,
        Nat.mul_comm (1 + _)]
      rfl
    have haddress : i.address = b.here := by
      obtain ⟨code, -, rfl⟩ := Option.map_eq_some_iff.mp hi
      rfl
    rw [hcells]
    refine (h.span (by omega) address).concat ?_
    rw [haddress, here, BitVec.toNat_ofNat, Nat.mod_eq_of_lt (by omega)]

/-- **Step.** A call keeps a builder and its transcript together. -/
theorem Records.run {t : List Entry} (h : b.Records t) {c : Call}
    (hc : ∀ l, c = .bind l → l.index < b.labels.size) :
    (b.run c).Records (t ++ [⟨c, b.here, b.dataHere⟩]) := by
  obtain ⟨hlabels, hcode⟩ := appends_run b c
  obtain ⟨hwaits, hfilled⟩ := hcode h.waits
  constructor
  case address =>
    intro l
    rw [b.address?_run hc, Entry.boundTo?_concat, h.address]
  case waits => exact hwaits
  case labels =>
    rw [hlabels, h.labels]
    simp
  case filled =>
    intro address
    rw [hfilled, h.filled, Entry.listing_concat, List.flatMap_append]
  case span => exact h.span_run c
  case data => rw [data_run, h.data, Entry.data_concat]
  case dataHere =>
    intro e he
    rw [data_run]
    rcases List.mem_append.mp he with he | he
    · obtain ⟨before, after, hdata, hhere⟩ := h.dataHere e he
      exact ⟨before, after ++ c.data, by rw [hdata, List.append_assoc], hhere⟩
    · cases List.mem_singleton.mp he
      exact ⟨b.data.toList, [], (List.append_nil _).symm, rfl⟩
  case publics => rw [publics_run, h.publics, Entry.publics_concat]
  case natives => rw [natives_run, h.natives, Entry.natives_concat]
  case main => rw [main_run, h.main, Entry.main?_concat]

theorem Call.Made.run {c : Call} {calls : List Call} (h : Made b.labels.size (c :: calls)) :
    (∀ l, c = .bind l → l.index < b.labels.size) ∧ Made (b.run c).labels.size calls := by
  cases c with
  | newLabel => exact ⟨nofun, by simpa [Builder.run, Builder.newLabel, Made] using h⟩
  | bind l =>
    refine ⟨?_, by simpa [Builder.run, Builder.bind] using h.2⟩
    rintro l' ⟨⟩
    exact h.1
  | _ =>
    refine ⟨nofun, ?_⟩
    simpa [Builder.run, Builder.caseTable, Builder.dataCells, Builder.dataText, Builder.addPublic,
      Builder.addNative, Builder.setMain, Made] using h

/-- **Run.** So does every sequence of calls. -/
theorem Records.runs {t : List Entry} {calls : List Call} (h : b.Records t)
    (hmade : Call.Made b.labels.size calls) :
    (calls.foldl Builder.run b).Records (t ++ b.transcript calls) := by
  induction calls generalizing b t with
  | nil =>
    rw [transcript, List.append_nil]
    exact h
  | cons c calls ih =>
    obtain ⟨hc, hcalls⟩ := hmade.run
    have hstep := ih (h.run hc) hcalls
    rwa [List.append_assoc, List.singleton_append] at hstep

def ofCalls (calls : List Call) : Builder := calls.foldl run {}

def transcriptOf (calls : List Call) : List Entry := transcript {} calls

theorem records_ofCalls {calls : List Call} (hmade : Call.Made 0 calls) :
    (ofCalls calls).Records (transcriptOf calls) := by
  have hinit : ({} : Builder).Records [] := by
    constructor
    case address =>
      intro l
      rfl
    case waits =>
      intro f hf
      cases hf
    case labels => rfl
    case filled => exact fun address => rfl
    case span => exact fun _ _ => (Nat.zero_mul _).symm
    case data => rfl
    case dataHere =>
      intro e he
      cases he
    case publics => rfl
    case natives => rfl
    case main => rfl
  exact hinit.runs hmade

end Builder

end PawnNative
