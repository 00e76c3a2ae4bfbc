import Mathlib.Tactic.Common
import PawnNative.Proofs.Iterations
import PawnNative.Proofs.Patching
import PawnNative.Proofs.Streams

/-! # Markers

    An interpreter may replace the opcodes of its code by markers, and only them: an
    operand that happens to be a marker stays what it is. Which cells are opcodes is
    known only by decoding, so markers are put in place along a listing, and reading
    them again is a simulation, instruction by instruction.

    The two readings part where the listing ends in an error. The cell that could not be
    decoded has no marker, but it may be the marker of some other opcode, and then
    decoding goes on there.
-/

namespace PawnNative

/-! ## Section 1: Reading markers -/

theorem Opcode.all_eq_some_iff {n : Nat} {op : Opcode} : all[n]? = some op ↔ op.code.toNat = n := by
  constructor
  · intro h
    obtain ⟨hlt, rfl⟩ := Array.getElem?_eq_some_iff.mp h
    have hsize : all.size = 138 := size_all
    have hcode : all[n].code = BitVec.ofNat 32 n := code_all ⟨n, hlt⟩
    rw [hcode, BitVec.toNat_ofNat]
    omega
  · rintro rfl
    exact ofCode?_code op

theorem Opcode.toNat_code_lt (op : Opcode) : op.code.toNat < 138 := by
  obtain ⟨hlt, -⟩ := Array.getElem?_eq_some_iff.mp (all_eq_some_iff.mpr (rfl : op.code.toNat = _))
  exact size_all ▸ hlt

theorem find?_reverse_eq_some_iff {α : Type} {l : List α} {p : α → Bool} {x : α} :
    l.reverse.find? p = some x ↔
    p x = true ∧ ∃ n : Nat, l[n]? = some x ∧ ∀ m y, n < m → l[m]? = some y → p y = false := by
  rw [List.find?_eq_some_iff_append]
  refine and_congr_right fun _ => ⟨?_, ?_⟩
  · rintro ⟨after, before, hl, hafter⟩
    have hl' : l = before.reverse ++ x :: after.reverse := by
      rw [← List.reverse_reverse l, hl]
      simp
    subst hl'
    refine ⟨before.reverse.length, by simp, fun m y hm hy => ?_⟩
    rw [List.getElem?_append_right (Nat.le_of_lt hm)] at hy
    obtain ⟨k, hk⟩ : ∃ k, m - before.reverse.length = k + 1 :=
      ⟨m - before.reverse.length - 1, by omega⟩
    rw [hk, List.getElem?_cons_succ] at hy
    simpa using hafter y (List.mem_reverse.mp (List.mem_of_getElem? hy))
  · rintro ⟨n, hn, hlast⟩
    obtain ⟨hlt, hget⟩ := List.getElem?_eq_some_iff.mp hn
    refine ⟨(l.drop (n + 1)).reverse, (l.take n).reverse, ?_, fun y hy => ?_⟩
    · conv_lhs => rw [← List.take_append_drop n l, List.drop_eq_getElem_cons hlt, hget]
      simp
    · obtain ⟨k, hk⟩ := List.getElem?_of_mem (List.mem_reverse.mp hy)
      rw [List.getElem?_drop] at hk
      rw [hlast _ y (by omega) hk]
      rfl

namespace OpcodeTable

variable {table : List Cell} {v : Cell} {op : Opcode}

theorem lookup_markers_eq_some_iff : (markers table).lookup v = some op ↔
    table[op.code.toNat]? = some v ∧ ∀ op' : Opcode, table[op'.code.toNat]? = some v →
    op'.code.toNat ≤ op.code.toNat := by
  have hentry : ∀ n w (o : Opcode), (table.zip Opcode.all.toList)[n]? = some (w, o) ↔
      table[n]? = some w ∧ o.code.toNat = n := by
    intro n w o
    have hall : Opcode.all.toList[n]? = Opcode.all[n]? := Array.getElem?_toList
    rw [List.getElem?_zip_eq_some, hall, Opcode.all_eq_some_iff]
  simp only [lookup, Option.map_eq_some_iff, find?_reverse_eq_some_iff]
  constructor
  · rintro ⟨⟨w, o⟩, ⟨hw, n, hn, hlast⟩, rfl⟩
    obtain rfl : w = v := eq_of_beq hw
    obtain ⟨hget, rfl⟩ := (hentry _ _ _).mp hn
    refine ⟨hget, fun op' hop' => Nat.le_of_not_lt fun hlt => ?_⟩
    have hbeq := hlast _ (w, op') hlt ((hentry _ _ _).mpr ⟨hop', rfl⟩)
    exact absurd (beq_self_eq_true w) (by rw [hbeq]; exact Bool.false_ne_true)
  · rintro ⟨hget, hhighest⟩
    refine ⟨(v, op), ⟨beq_self_eq_true v, _, (hentry _ _ _).mpr ⟨hget, rfl⟩, ?_⟩, rfl⟩
    rintro m ⟨w, o⟩ hlt hm
    obtain ⟨hm, rfl⟩ := (hentry _ _ _).mp hm
    refine beq_eq_false_iff_ne.mpr ?_
    rintro rfl
    exact absurd (hhighest o hm) (Nat.not_le.mpr hlt)

theorem lookup_markers_eq_none (hv : v ∉ table.take 138) : (markers table).lookup v = none := by
  cases hlookup : (markers table).lookup v with
  | none => rfl
  | some op =>
    obtain ⟨hget, -⟩ := lookup_markers_eq_some_iff.mp hlookup
    have htake : (table.take 138)[op.code.toNat]? = some v := by
      rw [List.getElem?_take_of_lt op.toNat_code_lt, hget]
    exact absurd (List.mem_of_getElem? htake) hv

end OpcodeTable

/-- The marker of an opcode. -/
def Opcode.marker (table : List Cell) (op : Opcode) : Cell := table[op.code.toNat]?.getD 0

/-- In a table of different markers, each of them stands for its own opcode. -/
theorem OpcodeTable.lookup_marker {table : List Cell} (hlength : 138 ≤ table.length)
    (hdistinct : table.Nodup)
    (op : Opcode) : (markers table).lookup (op.marker table) = some op := by
  have hlt : op.code.toNat < table.length := Nat.lt_of_lt_of_le op.toNat_code_lt hlength
  have hmarker : table[op.code.toNat]? = some (op.marker table) := by
    rw [Opcode.marker, List.getElem?_eq_getElem hlt]
    rfl
  refine lookup_markers_eq_some_iff.mpr ⟨hmarker, fun op' hop' => ?_⟩
  exact Nat.le_of_eq ((List.getElem?_inj hlt hdistinct).mp (hmarker.trans hop'.symm)).symm

/-- A cell that is no marker is reported where it stands. -/
theorem Cursor.peek_eq_invalidOpcode {c : Cursor} {table : List Cell} {v : Cell}
    (htable : c.table = .markers table)
    (hip : 0 ≤ c.ip.toInt) (hcell : c.code.cell? c.ip.toNat = some v) (hv : v ∉ table.take 138) :
    c.peek = .error (.invalidOpcode c.ip v) := by
  have hsize : c.ip.toNat + 4 ≤ c.code.size := by
    unfold Block.cell? at hcell
    split_ifs at hcell with hfit
    exact hfit
  have hstart : ¬(c.ip.toInt < 0 ∨ c.code.size ≤ c.ip.toNat) := by omega
  rw [peek, if_neg hstart, read_eq_ok_iff.mpr ⟨Cell.nonneg_iff.mp hip, hcell⟩, ok_bind, htable,
    OpcodeTable.lookup_markers_eq_none hv]
  rfl

/-! ## Section 2: Putting markers in place -/

/-- The code with the opcode cell of each of these instructions replaced by its marker. -/
def Block.marked (table : List Cell) (is : List Instruction) (code : Block) : Block :=
  is.foldl (fun code i => code.overwrite i.address.toNat (i.opcode.marker table).bytes) code

/-- The cells of an instruction with a marker in the place of the opcode. -/
def Instruction.markedBytes (table : List Cell) (i : Instruction) : List Byte :=
  (i.opcode.marker table :: i.operands).flatMap Cell.bytes

theorem Instruction.length_markedBytes (table : List Cell) (i : Instruction) :
    (i.markedBytes table).length = i.size := by
  rw [markedBytes, Cell.length_flatMap_bytes, List.length_cons, size, Nat.add_comm]

open Instruction (Span stream)

/-- Markers are put in place along instructions that follow each other. -/
theorem Block.marked_stream (table : List Cell) {is : List Instruction}
    (before rest : List Byte) {stop : Nat}
    (hspan : Span before.length is stop) :
      Block.marked table is (before ++ (stream is ++ rest)).toArray =
      (before ++ (is.flatMap (Instruction.markedBytes table) ++ rest)).toArray := by
  induction is generalizing before with
  | nil => rfl
  | cons i is ih =>
    obtain ⟨haddress, hspan⟩ := hspan
    have hmark : Block.overwrite (before ++ (stream (i :: is) ++ rest)).toArray i.address.toNat
        (i.opcode.marker table).bytes =
          ((before ++ i.markedBytes table) ++ (stream is ++ rest)).toArray := by
      have hlength : i.opcode.code.bytes.length = (i.opcode.marker table).bytes.length := rfl
      have hover :=
        Block.overwrite_part before (i.operands.flatMap Cell.bytes ++ (stream is ++ rest)) hlength
      rw [haddress]
      simpa only [stream, Instruction.bytes, Instruction.cells, Instruction.markedBytes,
        List.flatMap_cons, List.append_assoc] using hover
    have hlength : (before ++ i.markedBytes table).length = before.length + i.size := by
      rw [List.length_append, i.length_markedBytes]
    have hrest := ih (before ++ i.markedBytes table) (hlength ▸ hspan)
    rw [marked, List.foldl_cons, hmark, ← marked, hrest, List.flatMap_cons]
    simp only [List.append_assoc]

/-! ## Section 3: Reading marked instructions -/

/-- **Simulation.** Marked instructions are read again one after the other, and decoding goes on
    behind them. -/
theorem Cursor.yields_marked {table : List Cell} {code : Block} {is : List Instruction}
    {ip last : Cell}
    {items : List (Except DecodeError Instruction)} {rest : List Byte} {c' : Cursor}
    (hlookup : ∀ op : Opcode, (OpcodeTable.markers table).lookup (op.marker table) = some op)
    (hwell : ∀ i ∈ is, i.WellFormed) (hspan : Span ip.toNat is last.toNat)
    (hlast : last.toNat < 0x80000004)
    (hcode : code.toList.drop ip.toNat = is.flatMap (Instruction.markedBytes table) ++ rest)
    (hrest : Yields { code, ip := last, table := .markers table } items c') :
    Yields { code, ip, table := .markers table } (is.map .ok ++ items) c' := by
  induction is generalizing ip with
  | nil =>
    obtain rfl : ip = last := BitVec.eq_of_toNat_eq hspan
    exact hrest
  | cons i is ih =>
    obtain ⟨haddress, hspan⟩ := hspan
    have hle := hspan.le
    rw [List.flatMap_cons, List.append_assoc] at hcode
    have hpeek : ({ code, ip, table := .markers table } : Cursor).peek = .ok (some i) :=
      peek_eq_some_iff_lookup.mpr ⟨BitVec.eq_of_toNat_eq haddress, hwell i List.mem_cons_self,
        Nat.lt_of_le_of_lt hle hlast, _, _, hlookup i.opcode, hcode⟩
    have hnext := toNat_next hpeek
    have hitem : ({ code, ip, table := .markers table } : Cursor).next =
        (some (.ok i), { code, ip := i.next, table := .markers table }) := by
      simp [next, decode, hpeek]
    refine .step hitem (ih (fun j hj => hwell j (List.mem_cons_of_mem _ hj)) (hnext ▸ hspan) ?_)
    rw [hnext, ← List.drop_drop, hcode]
    exact List.drop_left' (i.length_markedBytes table)

/-! ## Section 4: Decoding through the table -/

namespace Block

/-- The instructions that plain decoding finds. -/
def listed (code : Block) : List Instruction :=
  ({ code } : Cursor).remaining.1.filterMap Except.toOption

/-- A cursor that reads through the table the code in which the listed instructions are marked. -/
def markedCursor (table : List Cell) (code : Block) : Cursor :=
  ({ code := code.marked table code.listed } : Cursor).setMarkers table

theorem decodes_listed (code : Block) : ∃ stop, Decodes code 0 code.listed stop ∧
    ({ code } : Cursor).remaining.1 = code.listed.map .ok ++ stop.toList.map .error := by
  obtain ⟨is, stop, hlisting, hitems⟩ := Cursor.remaining_eq_listing code
  have hlisted : code.listed = is := by
    have hoks : ∀ is : List Instruction,
        (is.map (Except.ok : _ → Except DecodeError Instruction)).filterMap Except.toOption =
          is := by
      intro is
      rw [List.filterMap_map]
      exact List.filterMap_some
    rw [listed, hitems, List.filterMap_append, hoks]
    cases stop with
    | none => exact List.append_nil _
    | some e => exact List.append_nil _
  rw [hlisted]
  exact ⟨stop, hlisting, hitems⟩

variable {table : List Cell} {code : Block}

/-- The marked code: the marked instructions, and the rest as it was. -/
theorem marked_eq (table : List Cell) (last : Cell) (hspan : Span 0 code.listed last.toNat)
    (hstream : code.toList = stream code.listed ++ code.toList.drop last.toNat) :
    (code.marked table code.listed).toList =
        code.listed.flatMap (Instruction.markedBytes table) ++ code.toList.drop last.toNat ∧
      (code.marked table code.listed).toList.drop last.toNat = code.toList.drop last.toNat := by
  have hcode : code = ([] ++ (stream code.listed ++ code.toList.drop last.toNat)).toArray := by
    rw [List.nil_append, ← hstream]
  have hmarked : (code.marked table code.listed).toList =
      code.listed.flatMap (Instruction.markedBytes table) ++ code.toList.drop last.toNat := by
    have hrest := marked_stream table [] (code.toList.drop last.toNat) hspan
    rw [← hcode] at hrest
    rw [hrest, List.nil_append]
  have hlength := hspan.length_flatMap (Instruction.length_markedBytes table)
  rw [Nat.zero_add] at hlength
  exact ⟨hmarked, by rw [hmarked, List.drop_left' hlength]⟩

/-- Decoding through the table finds the listed instructions, and goes on where they end. -/
theorem remaining_markedCursor (hlength : 138 ≤ table.length) (hdistinct : table.Nodup)
    (code : Block) : ∃ (stop : Option DecodeError) (last : Cell),
      ({ code } : Cursor).remaining.1 = code.listed.map .ok ++ stop.toList.map .error ∧
      ({ code, ip := last } : Cursor).peek = stop.elim (.ok none) .error ∧
      (code.markedCursor table).code.toList.drop last.toNat = code.toList.drop last.toNat ∧
      (code.markedCursor table).remaining.1 =
        code.listed.map .ok ++ ((code.markedCursor table).setIp last).remaining.1 := by
  obtain ⟨stop, hlisting, hitems⟩ := code.decodes_listed
  obtain ⟨last, hlast, hwell, hspan, hstream, hstop⟩ := hlisting.stops (by decide)
  obtain ⟨hmarked, hleft⟩ := marked_eq table last hspan hstream
  have hyields := Cursor.yields_marked (OpcodeTable.lookup_marker hlength hdistinct) hwell
    hspan hlast hmarked ((code.markedCursor table).setIp last).yields_remaining
  exact ⟨stop, last, hitems, hstop, hleft, congrArg Prod.fst hyields.eq_remaining⟩

end Block

/-- **Markers.** In code whose listed instructions are marked, decoding through the table finds the
    same instructions. Where plain decoding reaches the end there is nothing more; where it stops at
    an error, decoding goes on there, and a cell that is no marker is reported. The last two parts
    are about any table: cells that are no markers, and markers that stand for several opcodes. -/
theorem marked_code_decodes_alike :
    (∀ (table : List Cell) (code : Block), 138 ≤ table.length → table.Nodup →
      ((∀ item ∈ ({ code } : Cursor).remaining.1, ∃ i, item = .ok i) →
        (code.markedCursor table).remaining.1 = ({ code } : Cursor).remaining.1) ∧
      ∀ e, .error e ∈ ({ code } : Cursor).remaining.1 →
        (code.markedCursor table).remaining.1 =
          code.listed.map .ok ++ ((code.markedCursor table).setIp e.address).remaining.1 ∧
        ∀ v, code.cell? e.address.toNat = some v → v ∉ table.take 138 →
          (code.markedCursor table).remaining.1 =
            code.listed.map .ok ++ [.error (.invalidOpcode e.address v)]) ∧
    (∀ (c : Cursor) (table : List Cell) (v : Cell), c.table = .markers table → 0 ≤ c.ip.toInt →
      c.code.cell? c.ip.toNat = some v → v ∉ table.take 138 →
      c.peek = .error (.invalidOpcode c.ip v)) ∧
    ∀ (table : List Cell) (v : Cell) (op : Opcode), (OpcodeTable.markers table).lookup v = some op ↔
      table[op.code.toNat]? = some v ∧
        ∀ op' : Opcode, table[op'.code.toNat]? = some v → op'.code.toNat ≤ op.code.toNat := by
  refine ⟨fun table code hlength hdistinct => ?_, fun c table v => Cursor.peek_eq_invalidOpcode,
    fun table v op => OpcodeTable.lookup_markers_eq_some_iff⟩
  obtain ⟨stop, last, hitems, hstop, hleft, hremaining⟩ :=
    Block.remaining_markedCursor hlength hdistinct code
  rw [hitems]
  -- Marked decoding is plain decoding up to where that stops; what is left is
  -- the same bytes in both.
  cases stop with
  | none =>
    have hend : last.toInt < 0 ∨ (code.markedCursor table).code.size ≤ last.toNat := by
      refine (Cursor.peek_none hstop).imp_right fun hend => ?_
      rw [← Array.length_toList, ← List.drop_eq_nil_iff, hleft, List.drop_eq_nil_iff,
        Array.length_toList]
      exact hend
    have hnil : ((code.markedCursor table).setIp last).Yields [] _ := Cursor.yields_nil hend
    rw [hnil.eq_remaining] at hremaining
    exact ⟨fun _ => hremaining, fun e he => by simp at he⟩
  | some e =>
    have haddress : e.address = last := Cursor.address_of_peek hstop
    have hnonneg : 0 ≤ last.toInt := Int.not_lt.mp fun hneg => by
      rw [show Cursor.peek _ = .ok none from if_pos (.inl hneg)] at hstop
      cases hstop
    refine ⟨fun hoks => ?_, fun e' he' => ?_⟩
    · obtain ⟨i, hi⟩ := hoks (.error e) (by simp)
      cases hi
    · obtain rfl : e' = e := by simpa using he'
      rw [haddress]
      refine ⟨hremaining, fun v hcell hv => ?_⟩
      have hcell' : (code.markedCursor table).code.cell? last.toNat = some v := by
        rw [Block.cell?_eq_some_iff, hleft]
        exact Block.cell?_eq_some_iff.mp hcell
      have hpeek : ((code.markedCursor table).setIp last).peek = .error (.invalidOpcode last v) :=
        Cursor.peek_eq_invalidOpcode rfl hnonneg hcell' hv
      rw [(Cursor.yields_error rfl hpeek).eq_remaining] at hremaining
      exact hremaining

/-- The markers 1000 to 1137. -/
def markerTable : List Cell := (List.range 138).map fun n => BitVec.ofNat 32 (1000 + n)

theorem markerTable_distinct : 138 ≤ markerTable.length ∧ markerTable.Nodup := by
  decide +kernel

/-- A constant that is the marker of another opcode, an instruction without operands, and the opcode
    of an instruction whose operand is missing. -/
def cutCode : Block :=
  ([Opcode.constPri.code, 1134, Opcode.nop.code, Opcode.push.code].flatMap Cell.bytes).toArray

/-- The constant is not taken for a marker, and the opcode that was left is none. -/
theorem cutCode_decodes_alike : (cutCode.markedCursor markerTable).remaining.1 =
    [.ok { address := 0, opcode := .constPri, operands := [1134] },
      .ok { address := 8, opcode := .nop }, .error (.invalidOpcode 12 Opcode.push.code)] := by
  have hplain : ({ code := cutCode } : Cursor).remaining.1 =
      [.ok { address := 0, opcode := .constPri, operands := [1134] },
        .ok { address := 8, opcode := .nop }, .error (.truncated 12)] := by
    decide +kernel
  have hlisted : cutCode.listed =
      [{ address := 0, opcode := .constPri, operands := [1134] },
        { address := 8, opcode := .nop }] := by
    rw [Block.listed, hplain]
    rfl
  have halike :=
    ((marked_code_decodes_alike.1 markerTable cutCode markerTable_distinct.1
        markerTable_distinct.2).2 (.truncated 12)
    (by rw [hplain]; simp)).2 Opcode.push.code (by decide +kernel) (by decide +kernel)
  rw [hlisted] at halike
  exact halike

/-- A cell that is no opcode, but the marker of one. -/
def strayCode : Block := (Cell.bytes 1134).toArray

/-- There is nothing to mark in this code, and decoding through the table finds an instruction. -/
theorem stray_marker_is_decoded : 138 ≤ markerTable.length ∧ markerTable.Nodup ∧
    ({ code := strayCode } : Cursor).remaining.1 = [.error (.invalidOpcode 0 1134)] ∧
    (strayCode.markedCursor markerTable).remaining.1 = [.ok { address := 0, opcode := .nop }] := by
  exact ⟨markerTable_distinct.1, markerTable_distinct.2, by decide +kernel, by decide +kernel⟩

end PawnNative
