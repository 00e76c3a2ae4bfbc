import Mathlib.Tactic.Common
import PawnNative.Proofs.Images

/-! # Building, loading and listing agree

    Two layouts are written down independently: the builder adds up offsets, pads
    the names and fills in labels; the loader checks a header and reads tables in
    place. For every sequence of calls the two agree. What was appended is listed at
    the addresses that the calls returned, with every label replaced by its last
    address, and tables, data and entry point are those of the transcript. The only
    way for a build to fail is a label without an address.
-/

namespace PawnNative

/-! ## Section 1: Sorting public functions -/

/-- A list is sorted by a key, and elements with the same key keep their order. -/
structure StableSort {α : Type} (key : α → Int) (before after : List α) : Prop where
  perm : after.Perm before
  ordered : after.Pairwise fun x y => key x ≤ key y
  stable : ∀ k, after.filter (key · = k) = before.filter (key · = k)

theorem stableSort_mergeSort {α : Type} (key : α → Int) (l : List α) :
    StableSort key l (l.mergeSort fun x y => decide (key x ≤ key y)) := by
  have htrans : ∀ x y z, decide (key x ≤ key y) = true → decide (key y ≤ key z) = true →
      decide (key x ≤ key z) = true := by
    simp only [decide_eq_true_eq]
    exact fun x y z => Int.le_trans
  have htotal : ∀ x y, (decide (key x ≤ key y) || decide (key y ≤ key x)) = true := by
    simp only [Bool.or_eq_true, decide_eq_true_eq]
    exact fun x y => Int.le_total ..
  have hperm := List.mergeSort_perm l fun x y => decide (key x ≤ key y)
  refine ⟨hperm, ?_, fun k => ?_⟩
  · simpa only [decide_eq_true_eq] using List.pairwise_mergeSort htrans htotal l
  -- Elements with one key are in order already, so they come through as a sublist.
  · have hsorted : (l.filter (key · = k)).Pairwise fun x y => decide (key x ≤ key y) = true := by
      refine List.Pairwise.imp_of_mem (R := fun _ _ => True) ?_
        (List.pairwise_of_forall fun _ _ => trivial)
      intro x y hx hy _
      have hx' := (List.mem_filter.mp hx).2
      have hy' := (List.mem_filter.mp hy).2
      simp only [decide_eq_true_eq] at hx' hy' ⊢
      omega
    have hsub := (List.sublist_mergeSort htrans htotal hsorted List.filter_sublist).filter
      (key · = k)
    rw [List.filter_filter] at hsub
    simp only [Bool.and_self] at hsub
    exact (hsub.eq_of_length (hperm.filter _).length_eq.symm).symm

/-! ## Section 2: The size of an image -/

namespace Builder

variable {b : Builder}

/-- Bytes of header, records, names, code, data, heap and stack. -/
def extent (b : Builder) : Nat :=
  alignUp (Header.length + (b.publics.size + b.natives.size) * Header.symbolLength +
    (nameTable (b.publics.toList.map (·.1) ++ b.natives.toList)).length) +
  b.code.size * Cell.width + b.data.size * Cell.width + b.stackSize

theorem stp_contents (b : Builder) : b.contents.stp = b.extent := by
  -- Sorting changes neither the number of names nor their lengths.
  have hperm : b.contents.names.Perm (b.publics.toList.map (·.1) ++ b.natives.toList) := by
    refine List.Perm.append_right _ ?_
    refine ((stableSort_mergeSort (fun p : String × Cell => p.2.toInt) b.declared).perm.map
        (·.1)).trans ?_
    rw [declared, List.map_map]
    exact .refl _
  have hnames : (nameTable b.contents.names).length =
      (nameTable (b.publics.toList.map (·.1) ++ b.natives.toList)).length := by
    rw [nameTable, nameTable, List.length_append, List.length_append,
      (hperm.flatMap_right _).length_eq, Half.length_bytes, Half.length_bytes]
  have hpublics : b.contents.publics.length = b.publics.size := by
    rw [contents, List.length_mergeSort, declared, List.length_map, Array.length_toList]
  have hcode : b.contents.code.length = b.code.size := by
    rw [contents, Array.length_toList, size_filled]
  have hnatives : b.contents.natives.length = b.natives.size := rfl
  have hdata : b.contents.data.length = b.data.size := rfl
  unfold Contents.stp Contents.hea Contents.dat Contents.cod Contents.namesAt
    Contents.nativesAt Contents.table
  rw [hnames, hpublics, hcode, hnatives, hdata, extent, Nat.add_mul, Nat.add_assoc Header.length]
  rfl

/-! ## Section 3: What was appended -/

theorem length_tableArgs (default : CodeLabel) (records : List (Cell × CodeLabel)) :
    (Call.tableArgs default records).length = 2 + 2 * records.length := by
  have hrecords : (records.flatMap fun r => [Arg.value r.1, Arg.label r.2]).length =
      2 * records.length := by
    induction records with
    | nil => rfl
    | cons r records ih =>
      rw [List.flatMap_cons, List.length_append, ih, List.length_cons, List.length_cons,
        List.length_cons, List.length_nil]
      omega
  rw [Call.tableArgs, List.length_cons, List.length_cons, hrecords]
  omega

/-- Whether the operands of an instruction that is emitted have the shape that its opcode asks
    for. -/
def Entry.fits (address : CodeLabel → Cell) (e : Entry) : Bool :=
  match e.call with
  | .emit op args => op.arity.fits (assembled address e.here op args).operands
  | _ => true

/-- The call for case tables appends well-formed ones. -/
theorem wellFormed_table {address : CodeLabel → Cell} {here : Cell} {default : CodeLabel}
    {records : List (Cell × CodeLabel)} (hsize : records.length < 0x80000000) :
    (assembled address here .casetbl (Call.tableArgs default records)).WellFormed := by
  have hlength := length_tableArgs default records
  rw [Call.tableArgs, List.length_cons, List.length_cons] at hlength
  show Arity.fits .caseTable (List.map _ (Call.tableArgs default records)) = true
  simp only [Call.tableArgs, List.map_cons, Arg.cell, Arity.fits, Bool.and_eq_true,
    decide_eq_true_eq, beq_iff_eq, List.length_map]
  rw [Cell.toInt_ofNat hsize, Cell.toNat_ofNat hsize]
  omega

theorem Records.wellFormed {t : List Entry} (h : b.Records t)
    (hsize : b.code.size * Cell.width < 0x80000000)
    (hfits : ∀ e ∈ t, e.fits (Entry.address t) = true) :
    ∀ i ∈ Entry.listing (Entry.address t) t, i.WellFormed := by
  intro i hi
  have hspan := h.span (by omega) (Entry.address t)
  have hle := hspan.size_le hi
  obtain ⟨e, he, hsome⟩ := List.mem_filterMap.mp hi
  obtain ⟨code, hcode, rfl⟩ := Option.map_eq_some_iff.mp hsome
  cases hcall : e.call with
  | emit op args =>
    rw [hcall] at hcode
    cases hcode
    have hoperands := hfits e he
    rwa [Entry.fits, hcall] at hoperands
  | caseTable default records =>
    rw [hcall] at hcode
    cases hcode
    refine wellFormed_table ?_
    rw [Instruction.size, assembled, List.length_map, length_tableArgs,
      show Cell.width = 4 from rfl] at hle
    rw [show Cell.width = 4 from rfl] at hsize
    omega
  | _ =>
    rw [hcall] at hcode
    cases hcode

theorem Records.decodes {t : List Entry} {code : Block} (h : b.Records t)
    (haddress : b.addressD = Entry.address t) (hsize : b.code.size * Cell.width < 0x80000000)
    (hfits : ∀ e ∈ t, e.fits (Entry.address t) = true)
    (hcode : code.toList = (b.filled b.addressD).toList.flatMap Cell.bytes) :
    Decodes code 0 (Entry.listing (Entry.address t) t) none := by
  have hstream : code.toList = Instruction.stream (Entry.listing (Entry.address t) t) := by
    rw [hcode, haddress, h.filled, List.flatMap_assoc]
    rfl
  exact .of_stream (h.wellFormed hsize hfits) (h.span (by omega) _) (Nat.le_of_lt hsize)
    (hstream.trans (List.append_nil _).symm) (.inl rfl)

end Builder

namespace Contents

variable {c : Contents}

theorem cell_of_block {vm : Instance} {v : Cell} {j : Nat} (hstp : c.stp < 0x80000000)
    (hheader : vm.header = c.header) (hblock : vm.block.toList = c.block)
    (hv : c.data[j]? = some v) : vm.cell (BitVec.ofNat 32 (j * Cell.width)) = .ok v := by
  obtain ⟨-, -, hcod, hdat, hhea, hle⟩ := c.offsets_le
  obtain ⟨hj, hget⟩ := List.getElem?_eq_some_iff.mp hv
  have hend : c.dat + c.data.length * 4 + c.stackSize = c.stp := rfl
  have hlt : j * Cell.width < 0x80000000 := show j * 4 < _ by omega
  have hdat' : c.header.dat.toNat = c.dat := Cell.toNat_ofNat (by omega)
  have hsize : vm.dataSize = c.data.length * 4 + c.stackSize := by
    rw [Instance.dataSize, hheader, Header.dataSize]
    simp only [header]
    rw [Cell.toInt_ofNat hstp, Cell.toInt_ofNat (by omega)]
    omega
  have hin : vm.inData (BitVec.ofNat 32 (j * Cell.width)) = true := by
    simp only [Instance.inData, Bool.and_eq_true, decide_eq_true_eq]
    rw [Cell.toInt_ofNat hlt, Cell.toNat_ofNat hlt, hsize, show Cell.width = 4 from rfl]
    omega
  have hcell : vm.block.cell? (vm.dataStart + j * Cell.width) = some v := by
    have hle : Cell.width * j ≤ (c.data.flatMap Cell.bytes).length := by
      rw [Cell.length_flatMap_bytes]
      exact Nat.mul_le_mul_left _ (Nat.le_of_lt hj)
    refine Block.cell?_eq_some_iff.mpr ⟨(c.data.drop (j + 1)).flatMap Cell.bytes ++ List.replicate
        c.stackSize 0, ?_⟩
    rw [Instance.dataStart, hheader, hdat', hblock, ← List.drop_drop, drop_dat, Nat.mul_comm,
      List.drop_append_of_le_length hle, drop_flatMap_of_length Cell.length_bytes,
      List.drop_eq_getElem_cons hj, hget, List.flatMap_cons, List.append_assoc]
  rw [Instance.cell, if_pos hin, Cell.toNat_ofNat hlt, hcell]

end Contents

/-! ## Section 4: Agreement -/

open Builder (Call Entry ofCalls transcriptOf)

/-- An instance holds what a transcript says. -/
structure Instance.Shows (vm : Instance) (t : List Entry) (stackSize : Nat) : Prop where
  /-- Decoding the code lists the instructions at the addresses at which they were appended, with
      the addresses of labels, or their distances from the next instruction, as operands. -/
  listing : ({ code := vm.code } : Cursor).remaining.1 = (Entry.listing (Entry.address t) t).map .ok
  /-- Data cells, and zeros behind them. -/
  data : vm.data.toList = (Entry.data t).flatMap Cell.bytes ++ List.replicate stackSize 0
  /-- The data of a call are read at the address that it returned. -/
  cells : ∀ e ∈ t, ∀ i v, e.call.data[i]? = some v →
    vm.cell (e.dataHere + BitVec.ofNat 32 (i * Cell.width)) = .ok v
  publics : ∃ sorted, vm.header.publicTable.Lists vm.block sorted ∧
    StableSort (·.2.toInt) ((Entry.publics t).map fun p => (p.1, Entry.address t p.2)) sorted
  /-- Natives are in order of declaration, and no handle is bound. -/
  natives : vm.header.nativeTable.Lists vm.block ((Entry.natives t).map fun s => (s, 0))
  entry : vm.regs.cip = (Entry.main? t).elim (-1) (Entry.address t) ∧ vm.header.cip = vm.regs.cip

/-- What a build holds, once every label that is referred to is bound. -/
theorem Builder.Records.shows {b : Builder} {t : List Entry} (h : b.Records t)
    (hfits : ∀ e ∈ t, e.fits (Entry.address t) = true)
    (hnul : ∀ s ∈ (Entry.publics t).map (·.1) ++ Entry.natives t, 0 ∉ Text.utf8 s)
    (hstack : 8 ≤ b.stackSize) (hextent : b.extent < 0x80000000) :
    ∃ vm, Instance.load b.contents.image.toArray = .ok vm ∧ vm.Shows t b.stackSize := by
  -- Addresses and functions of the builder are those that the transcript tells.
  have haddress : b.addressD = Entry.address t := funext fun l => by
    rw [Builder.addressD, h.address]
    rfl
  have hdeclared : b.declared = (Entry.publics t).map fun p => (p.1, Entry.address t p.2) := by
    rw [Builder.declared, h.publics, haddress]
  have hsorted := stableSort_mergeSort (fun p : String × Cell => p.2.toInt) b.declared
  have hstp : b.contents.stp < 0x80000000 := by
    rw [Builder.stp_contents]
    exact hextent
  have hcod : b.contents.cod < 0x80000000 := by
    obtain ⟨-, -, -, hdat, hhea, hle⟩ := b.contents.offsets_le
    omega
  have hnul' : ∀ s ∈ b.contents.names, 0 ∉ Text.utf8 s := by
    intro s hs
    refine hnul s ?_
    rcases List.mem_append.mp hs with hs | hs
    · have hmem := (hsorted.perm.map (·.1)).mem_iff.mp hs
      rw [hdeclared, List.map_map] at hmem
      exact List.mem_append_left _ hmem
    · exact List.mem_append_right _ (h.natives ▸ hs)
  obtain ⟨vm, hload, hheader, hcip, hblock⟩ := Contents.load_image (c := b.contents) hstack hstp
  refine ⟨vm, hload, ?_⟩
  constructor
  case listing =>
    have hsize : b.code.size * Cell.width < 0x80000000 := by
      rw [Builder.extent] at hextent
      omega
    exact (h.decodes haddress hsize hfits (Contents.code_of_block hstp hheader hblock)).remaining_eq
  case data =>
    rw [← h.data]
    exact Contents.data_of_block hstp hheader hblock
  case cells =>
    intro e he i v hv
    -- The data of the call stand between those of earlier and of later calls.
    obtain ⟨before, after, hdata, hhere⟩ := h.dataHere e he
    have hv' : b.contents.data[before.length + i]? = some v := by
      rw [Builder.contents, hdata, List.append_assoc,
        List.getElem?_append_right (Nat.le_add_right ..),
        Nat.add_sub_cancel_left, List.getElem?_append_left (List.getElem?_eq_some_iff.mp hv).1, hv]
    rw [hhere, ← BitVec.ofNat_add, ← Nat.add_mul]
    exact Contents.cell_of_block hstp hheader hblock hv'
  case publics =>
    refine ⟨b.contents.publics, ?_, hdeclared ▸ hsorted⟩
    rw [hheader]
    exact Contents.publicTable_lists hcod (hblock.trans b.contents.block_eq) hnul'
  case natives =>
    rw [hheader, ← h.natives]
    exact Contents.nativeTable_lists hcod (hblock.trans b.contents.block_eq) hnul'
  case entry =>
    rw [hheader, hcip, ← h.main, ← haddress]
    exact ⟨rfl, rfl⟩

/-- **Agreement.** The build of a sequence of calls names the first label that is referred
    to and not bound. If there is none, the instructions of `emit` have the operands of
    their opcodes, the names have no zero byte, and the sizes fit, it gives an image that
    loads and holds what was called. -/
theorem built_images_agree {calls : List Call} (hmade : Call.Made 0 calls) :
    (∀ l, (Entry.references (transcriptOf calls)).find?
        (fun l => (Entry.boundTo? (transcriptOf calls) l).isNone) = some l →
      (ofCalls calls).build = .error (.unboundLabel l)) ∧
    ((∀ l ∈ Entry.references (transcriptOf calls), (Entry.boundTo? (transcriptOf calls) l).isSome) →
      (∀ e ∈ transcriptOf calls, e.fits (Entry.address (transcriptOf calls)) = true) →
      (∀ s ∈ (Entry.publics (transcriptOf calls)).map (·.1) ++ Entry.natives (transcriptOf calls),
        0 ∉ Text.utf8 s) →
      8 ≤ (ofCalls calls).stackSize → (ofCalls calls).extent < 0x80000000 →
      ∃ image vm, (ofCalls calls).build = .ok image ∧ Instance.load image = .ok vm ∧
        vm.Shows (transcriptOf calls) (ofCalls calls).stackSize) := by
  have h := Builder.records_ofCalls hmade
  have hbuild := Builder.build_eq (ofCalls calls)
  have hunbound : ∀ ls, (ofCalls calls).unbound? ls =
      ls.find? fun l => (Entry.boundTo? (transcriptOf calls) l).isNone := by
    intro ls
    simp only [Builder.unbound?, h.address]
  rw [hunbound, h.labels, h.publics, h.main, ← Entry.references] at hbuild
  constructor
  · intro l hl
    rw [hbuild, hl]
    rfl
  · intro hbound hfits hnul hstack hextent
    obtain ⟨vm, hload, hshows⟩ := h.shows hfits hnul hstack hextent
    have hnone : (Entry.references (transcriptOf calls)).find?
        (fun l => (Entry.boundTo? (transcriptOf calls) l).isNone) = none := by
      rw [List.find?_eq_none]
      intro l hl
      rw [Option.isNone_iff_eq_none, ← Option.not_isSome_iff_eq_none, not_not]
      exact hbound l hl
    rw [hnone] at hbuild
    exact ⟨_, vm, hbuild, hload, hshows⟩

/-- A loop with a case table and a jump ahead, two public functions that are declared last one
    first, a native and data. -/
def sampleCalls : List Call :=
  [.newLabel, .newLabel, .addNative "print", .addPublic "last" ⟨1⟩, .addPublic "first" ⟨0⟩,
   .dataCells [7, 9], .bind ⟨0⟩, .emit .proc [], .emit .jrel [.relative ⟨1⟩],
   .caseTable ⟨0⟩ [(5, ⟨1⟩)], .bind ⟨1⟩, .emit .retn [], .setMain ⟨1⟩, .setStack 64]

theorem sampleCalls_agree : ∃ image vm, (ofCalls sampleCalls).build = .ok image ∧
    Instance.load image = .ok vm ∧ ({ code := vm.code } : Cursor).remaining.1 =
      [.ok { address := 0, opcode := .proc },
        .ok { address := 4, opcode := .jrel, operands := [20] },
       .ok { address := 12, opcode := .casetbl, operands := [1, 0, 5, 32] },
       .ok { address := 32, opcode := .retn }] ∧
    vm.cell 4 = .ok 9 ∧ vm.header.nativeTable.name? vm.block 0 = some "print" ∧
    vm.regs.cip = 32 := by
  have hmade : Call.Made 0 sampleCalls := ⟨by decide, by decide, trivial⟩
  obtain ⟨image, vm, hbuild, hload, hshows⟩ := (built_images_agree hmade).2 (by decide) (by decide)
    (by decide +kernel) (by decide) (by decide +kernel)
  have hnative := hshows.natives.name 0 ("print", 0) rfl
  have hcell := hshows.cells ⟨.dataCells [7, 9], 0, 0⟩ (by decide) 1 9 rfl
  exact ⟨image, vm, hbuild, hload, hshows.listing, hcell, hnative, hshows.entry.1⟩

end PawnNative
