import Mathlib.Tactic.Common
import PawnNative.Instance
import PawnNative.Proofs.Listing

/-! # Instruction streams

    A code segment is a stream of cells, and the operand cells of a case table or
    of a payload say themselves how many they are, so where an instruction starts
    depends on all the instructions before it. What keeps a stream together is
    that an instruction is decoded exactly when its bytes stand at the pointer
    (`Cursor.peek_eq_some_iff`): a list of well-formed instructions that follow
    each other is the listing of its bytes, and of no other bytes.
-/

namespace PawnNative

/-! ## Section 1: Cells in a block -/

/-- The bytes of a cell that is put together from four bytes are these bytes. -/
theorem Cell.bytes_ofBytes (b0 b1 b2 b3 : Byte) :
    (ofBytes b0 b1 b2 b3).bytes = [b0, b1, b2, b3] := by
  have lane : ∀ {k : Nat} {b : Byte},
      (∀ j < 8, (ofBytes b0 b1 b2 b3).getLsbD (8 * k + j) = b.getLsbD j) →
      byte (ofBytes b0 b1 b2 b3) k = b := by
    intro k b h
    refine BitVec.eq_of_getLsbD_eq fun j hj => ?_
    rw [byte, BitVec.getLsbD_extractLsb', h j hj]
    simp [hj]
  simp only [bytes, List.cons.injEq, and_true]
  refine ⟨lane fun j hj => ?_, lane fun j hj => ?_, lane fun j hj => ?_, lane fun j hj => ?_⟩ <;>
    simp only [ofBytes, BitVec.getLsbD_append]
  · simp [hj]
  · simp [hj, show ¬8 + j < 8 by omega]
  · simp [hj, show ¬16 + j < 8 by omega, show ¬16 + j - 8 < 8 by omega,
      show 16 + j - 8 - 8 = j by omega]
  · simp [show ¬24 + j < 8 by omega, show ¬24 + j - 8 < 8 by omega,
      show ¬24 + j - 8 - 8 < 8 by omega, show 24 + j - 8 - 8 - 8 = j by omega]

@[simp] theorem Cell.length_bytes (c : Cell) : c.bytes.length = Cell.width := rfl

theorem Cell.length_flatMap_bytes (cs : List Cell) :
    (cs.flatMap bytes).length = width * cs.length := by
  induction cs with
  | nil => rfl
  | cons c cs ih =>
    rw [List.flatMap_cons, List.length_append, length_bytes, ih, List.length_cons, Nat.mul_succ,
      Nat.add_comm]

theorem Block.cell?_eq_some_iff {b : Block} {o : Nat} {c : Cell} :
    b.cell? o = some c ↔ ∃ rest, b.toList.drop o = c.bytes ++ rest := by
  constructor
  · intro h
    unfold cell? at h
    split_ifs at h with hfit
    cases h
    refine ⟨b.toList.drop (o + 4), ?_⟩
    rw [Cell.bytes_ofBytes]
    apply List.ext_getElem?
    intro i
    rw [List.getElem?_drop]
    rcases Nat.lt_or_ge i 4 with hi | hi
    · rw [Array.getElem?_toList, Array.getElem?_eq_getElem (by omega)]
      obtain rfl | rfl | rfl | rfl : i = 0 ∨ i = 1 ∨ i = 2 ∨ i = 3 := by omega
      all_goals simp [show o < b.size by omega, show o + 1 < b.size by omega,
        show o + 2 < b.size by omega, show o + 3 < b.size by omega]
    · rw [List.getElem?_append_right hi, List.getElem?_drop]
      simp [Nat.add_assoc, Nat.add_sub_cancel' hi]
  · rintro ⟨rest, h⟩
    have hbyte : ∀ i < 4, b[o + i]? = some (c.byte i) := by
      intro i hi
      rw [← Array.getElem?_toList, ← List.getElem?_drop, h, List.getElem?_append_left hi]
      obtain rfl | rfl | rfl | rfl : i = 0 ∨ i = 1 ∨ i = 2 ∨ i = 3 := by omega
      all_goals rfl
    have hfit : o + 4 ≤ b.size := by
      obtain ⟨hlt, -⟩ := Array.getElem?_eq_some_iff.mp (hbyte 3 (by decide))
      omega
    rw [cell?, if_pos hfit]
    simp only [Array.getD_eq_getD_getElem?]
    rw [hbyte 1 (by decide), hbyte 2 (by decide), hbyte 3 (by decide),
      show b[o]? = some (c.byte 0) from hbyte 0 (by decide)]
    exact congrArg some c.ofBytes_bytes

namespace Cursor

variable {c : Cursor} {address at_ : Cell} {n : Nat}

/-- Cells are read one after the other exactly where their bytes stand. -/
theorem readCells_eq_ok_iff {cs : List Cell} (hat : at_.toNat + 4 * n < 0x80000004) :
    c.readCells address n at_ = .ok cs ↔
      cs.length = n ∧ ∃ rest, c.code.toList.drop at_.toNat = cs.flatMap Cell.bytes ++ rest := by
  induction n generalizing at_ cs with
  | zero =>
    rw [readCells, List.length_eq_zero_iff]
    constructor
    · rintro h
      cases h
      exact ⟨rfl, _, rfl⟩
    · rintro ⟨rfl, -⟩
      rfl
  | succ n ih =>
    have hlow : at_.toNat < 0x80000000 := by omega
    have hmove := toNat_add_four hlow
    rw [readCells]
    simp only [bind_eq_ok, read_eq_ok_iff, Block.cell?_eq_some_iff,
      @ih (at_ + 4) _ (by omega), hmove]
    constructor
    · rintro ⟨v, ⟨-, rest, hv⟩, vs, ⟨hlen, rest', hvs⟩, h⟩
      cases h
      -- What is left after the first cell is where the others are read.
      have hrest : rest = vs.flatMap Cell.bytes ++ rest' := by
        rw [← hvs, ← List.drop_drop, hv]
        rfl
      exact ⟨by rw [List.length_cons, hlen],
        rest', by rw [hv, hrest, List.flatMap_cons, List.append_assoc]⟩
    · rintro ⟨hlen, rest, h⟩
      obtain ⟨v, vs, rfl⟩ := List.exists_cons_of_length_eq_add_one hlen
      rw [List.flatMap_cons, List.append_assoc] at h
      refine ⟨v, ⟨hlow, _, h⟩, vs, ⟨Nat.succ_inj.mp hlen, rest, ?_⟩, rfl⟩
      rw [← List.drop_drop, h]
      rfl

end Cursor

set_option maxRecDepth 4000 in
theorem Opcode.code_all : ∀ n : Fin all.size, (all[n]).code = BitVec.ofNat 32 n := by
  decide +kernel

theorem Opcode.eq_code_of_ofCode? {c : Cell} {op : Opcode} (h : ofCode? c = some op) :
    c = op.code := by
  obtain ⟨hlt, rfl⟩ := Array.getElem?_eq_some_iff.mp h
  refine .trans ?_ (code_all ⟨c.toNat, hlt⟩).symm
  rw [BitVec.ofNat_toNat, BitVec.setWidth_eq]

/-! ## Section 2: Well-formed instructions -/

/-- Whether a list of operands has the shape. -/
def Arity.fits : Arity → List Cell → Bool
  | .fixed n, operands => operands.length == n
  | .caseTable, count :: _ :: records => decide (0 ≤ count.toInt) &&
    records.length == 2 * count.toNat
  | .payload, len :: words => decide (0 ≤ len.toInt) && words.length == (len.toNat + 3) / Cell.width
  | _, _ => false

theorem Instruction.length_bytes (i : Instruction) : i.bytes.length = i.size := by
  rw [bytes, Cell.length_flatMap_bytes, cells, List.length_cons, size, Nat.add_comm]

/-- An instruction is well formed when its operands have the shape that its opcode asks for. -/
def Instruction.WellFormed (i : Instruction) : Prop := i.opcode.arity.fits i.operands = true

instance (i : Instruction) : Decidable i.WellFormed := inferInstanceAs (Decidable (_ = true))

/-- The instructions of a list follow each other from one address up to another. -/
def Instruction.Span : Nat → List Instruction → Nat → Prop
  | start, [], stop => start = stop
  | start, i :: is, stop => i.address.toNat = start ∧ Span (start + i.size) is stop

instance Instruction.Span.decidable : (start : Nat) → (is : List Instruction) → (stop : Nat) →
    Decidable (Span start is stop)
  | start, [], stop => inferInstanceAs (Decidable (start = stop))
  | start, i :: is, stop =>
    have := decidable (start + i.size) is stop
    inferInstanceAs (Decidable (i.address.toNat = start ∧ Span (start + i.size) is stop))

theorem Instruction.Span.le {is : List Instruction} {start stop : Nat} (h : Span start is stop) :
    start ≤ stop := by
  induction is generalizing start with
  | nil => exact Nat.le_of_eq h
  | cons i is ih => exact Nat.le_trans (Nat.le_add_right ..) (ih h.2)

theorem Instruction.Span.length_flatMap {is : List Instruction} {start stop : Nat}
    {f : Instruction → List Byte}
    (hf : ∀ i, (f i).length = i.size) (h : Span start is stop) :
      start + (is.flatMap f).length = stop := by
  induction is generalizing start with
  | nil => exact h
  | cons i is ih => rw [List.flatMap_cons, List.length_append, hf, ← Nat.add_assoc, ih h.2]

/-- Sizes are multiples of a cell. -/
theorem Instruction.Span.aligned {is : List Instruction} {start stop : Nat}
    (h : Span start is stop) : stop % Cell.width = start % Cell.width := by
  induction is generalizing start with
  | nil => rw [← show start = stop from h]
  | cons i is ih => rw [ih h.2, size, Nat.add_mul_mod_self_left]

theorem Instruction.Span.size_le {is : List Instruction} {i : Instruction} {start stop : Nat}
    (h : Span start is stop) (hi : i ∈ is) : i.size ≤ stop := by
  induction is generalizing start with
  | nil => cases hi
  | cons j is ih =>
    rcases List.mem_cons.mp hi with rfl | hi
    · exact Nat.le_trans (Nat.le_add_left ..) h.2.le
    · exact ih h.2 hi

theorem Instruction.Span.concat {is : List Instruction} {i : Instruction}
    {start stop : Nat} (h : Span start is stop) (hi : i.address.toNat = stop) :
    Span start (is ++ [i]) (stop + i.size) := by
  induction is generalizing start with
  | nil =>
    cases h
    exact ⟨hi, rfl⟩
  | cons j is ih => exact ⟨h.1, ih h.2⟩

namespace Cursor

variable {c : Cursor} {i : Instruction}

/-- Operands that stand behind an opcode cell are counted in full exactly when they have its
    shape. -/
theorem operandCount_eq_ok_iff {address : Cell} {op : Opcode} {operands : List Cell}
    {rest : List Byte} (hbound : (address + 4).toNat + 4 * operands.length < 0x80000004)
    (hat : c.code.toList.drop (address + 4).toNat = operands.flatMap Cell.bytes ++ rest) :
    c.operandCount address op = .ok operands.length ↔ op.arity.fits operands = true := by
  -- The first operand, when there is one, is the cell that is read.
  have hfirst : ∀ {v : Cell} {vs : List Cell}, operands = v :: vs →
      c.read address (address + 4) = .ok v := by
    rintro v vs rfl
    rw [List.length_cons] at hbound
    exact read_eq_ok_iff.mpr ⟨by omega, Block.cell?_eq_some_iff.mpr ⟨_, by
      rw [hat, List.flatMap_cons, List.append_assoc]⟩⟩
  -- A counted shape has as many operands as its count says, and at least the count itself.
  have hcounted : ∀ {f : Cell → Nat}, (∀ v, 0 < f v) → ((do
      let v ← c.read address (address + 4)
      if v.toInt < 0 then throw (DecodeError.badCount address v)
      return f v : Except DecodeError Nat) = .ok operands.length ↔
      ∃ v vs, operands = v :: vs ∧ 0 ≤ v.toInt ∧ operands.length = f v) := by
    intro f hpos
    constructor
    · intro h
      obtain ⟨v, hread, h⟩ := bind_eq_ok.mp h
      split_ifs at h with hneg
      · cases h
      have hlen : f v = operands.length := Except.ok.inj h
      obtain ⟨w, ws, rfl⟩ := List.exists_cons_of_length_pos (hlen ▸ hpos v)
      cases hread.symm.trans (hfirst rfl)
      exact ⟨v, ws, rfl, Int.not_lt.mp hneg, hlen.symm⟩
    · rintro ⟨v, vs, hcons, hnonneg, hlen⟩
      refine bind_eq_ok.mpr ⟨v, hfirst hcons, ?_⟩
      rw [if_neg (Int.not_lt.mpr hnonneg), hlen]
      rfl
  unfold operandCount
  cases op.arity with
  | fixed n =>
    simp only [Arity.fits, Except.ok.injEq, beq_iff_eq]
    exact eq_comm
  | caseTable =>
    refine (hcounted fun v => Nat.lt_of_lt_of_le Nat.two_pos (Nat.le_add_right ..)).trans ?_
    constructor
    · rintro ⟨v, vs, rfl, hnonneg, hlen⟩
      rw [List.length_cons] at hlen
      obtain ⟨d, records, rfl⟩ := List.exists_cons_of_length_pos (l := vs) (by omega)
      rw [List.length_cons] at hlen
      simp only [Arity.fits, Bool.and_eq_true, decide_eq_true_eq, beq_iff_eq]
      exact ⟨hnonneg, by omega⟩
    · intro h
      rcases operands with _ | ⟨v, _ | ⟨d, records⟩⟩
      · cases h
      · cases h
      · simp only [Arity.fits, Bool.and_eq_true, decide_eq_true_eq, beq_iff_eq] at h
        exact ⟨v, d :: records, rfl, h.1, by rw [List.length_cons, List.length_cons, h.2]; omega⟩
  | payload =>
    refine (hcounted fun v => Nat.lt_of_lt_of_le Nat.one_pos (Nat.le_add_right ..)).trans ?_
    constructor
    · rintro ⟨v, vs, rfl, hnonneg, hlen⟩
      rw [List.length_cons] at hlen
      simp only [Arity.fits, Bool.and_eq_true, decide_eq_true_eq, beq_iff_eq]
      exact ⟨hnonneg, by omega⟩
    · intro h
      rcases operands with _ | ⟨v, words⟩
      · cases h
      · simp only [Arity.fits, Bool.and_eq_true, decide_eq_true_eq, beq_iff_eq] at h
        exact ⟨v, words, rfl, h.1, by rw [List.length_cons, h.2]; omega⟩

/-- An instruction is decoded exactly when it is well formed, none of its cells starts at a negative
    address and its operands stand at the pointer, behind a cell that the table reads as its
    opcode. -/
theorem peek_eq_some_iff_lookup : c.peek = .ok (some i) ↔
    i.address = c.ip ∧ i.WellFormed ∧ c.ip.toNat + i.size < 0x80000004 ∧
      ∃ v rest, c.table.lookup v = some i.opcode ∧
        c.code.toList.drop c.ip.toNat = (v :: i.operands).flatMap Cell.bytes ++ rest := by
  constructor
  · intro h
    obtain ⟨haddress, hlow, -, hend⟩ := peek_ok h
    obtain ⟨-, -, -, ⟨v, hvalue, hlookup⟩, hcount, hoperands⟩ := peek_eq_some_iff_reads.mp h
    have hmove := toNat_add_four hlow
    have hbound := readCells_bound (by omega) hoperands
    obtain ⟨bytes, hbytes⟩ := Block.cell?_eq_some_iff.mp (read_eq_ok_iff.mp hvalue).2
    obtain ⟨-, rest, hrest⟩ := (readCells_eq_ok_iff hbound).mp hoperands
    refine ⟨haddress, (operandCount_eq_ok_iff hbound hrest).mp hcount, hend, v, rest, hlookup, ?_⟩
    have hbytes' : bytes = i.operands.flatMap Cell.bytes ++ rest := by
      rw [← hrest, hmove, ← List.drop_drop, hbytes]
      rfl
    rw [hbytes, hbytes', List.flatMap_cons, List.append_assoc]
  · rintro ⟨haddress, hwell, hend, v, rest, hlookup, hat⟩
    have hpos := i.size_pos
    rw [Instruction.size, Cell.width] at hend
    have hlow : c.ip.toNat < 0x80000000 := by omega
    have hmove := toNat_add_four hlow
    have hbound : (c.ip + 4).toNat + 4 * i.operands.length < 0x80000004 := by omega
    -- The operands stand a cell further than the opcode.
    have hrest : c.code.toList.drop (c.ip + 4).toNat = i.operands.flatMap Cell.bytes ++ rest := by
      rw [hmove, ← List.drop_drop, hat, List.flatMap_cons]
      rfl
    have hlength : ((v :: i.operands).flatMap Cell.bytes).length = i.size := by
      rw [Cell.length_flatMap_bytes, List.length_cons, Instruction.size, Nat.add_comm]
    have hroom : c.ip.toNat + i.size ≤ c.code.size := by
      have hdrop := congrArg List.length hat
      rw [List.length_drop, List.length_append, hlength, Array.length_toList] at hdrop
      omega
    have hvalue : c.read c.ip c.ip = .ok v := read_eq_ok_iff.mpr ⟨hlow,
      Block.cell?_eq_some_iff.mpr ⟨_, by rw [hat, List.flatMap_cons, List.append_assoc]⟩⟩
    exact peek_eq_some_iff_reads.mpr ⟨haddress, hlow, hroom, ⟨v, hvalue, hlookup⟩,
      (operandCount_eq_ok_iff hbound hrest).mpr hwell,
      (readCells_eq_ok_iff hbound).mpr ⟨rfl, rest, hrest⟩⟩

/-- When opcodes are read by their codes, these are the bytes of the instruction. -/
theorem peek_eq_some_iff (htable : c.table = .codes) : c.peek = .ok (some i) ↔
    i.address = c.ip ∧ i.WellFormed ∧ c.ip.toNat + i.size < 0x80000004 ∧
      ∃ rest, c.code.toList.drop c.ip.toNat = i.bytes ++ rest := by
  have hlookup : ∀ v, c.table.lookup v = some i.opcode ↔ v = i.opcode.code := by
    intro v
    rw [htable]
    constructor
    · exact Opcode.eq_code_of_ofCode?
    · rintro rfl
      exact Opcode.ofCode?_code _
  rw [peek_eq_some_iff_lookup]
  simp only [hlookup, exists_and_left, exists_eq_left]
  rfl

end Cursor

/-! ## Section 3: Streams -/

namespace Instruction

/-- The bytes of a list of instructions, one after the other. -/
def stream (is : List Instruction) : List Byte := is.flatMap bytes

end Instruction

namespace Decodes

open Instruction (Span stream)

variable {code : Block} {ip : Cell} {is : List Instruction}

/-- The listing of well-formed instructions that follow each other is the list itself. What stands
    behind them is not decoded when they end where addresses become negative. -/
theorem of_stream {stop : Nat} {rest : List Byte} (hwell : ∀ i ∈ is, i.WellFormed)
    (hspan : Span ip.toNat is stop) (hstop : stop ≤ 0x80000000)
    (hcode : code.toList.drop ip.toNat = stream is ++ rest) (hend : rest = [] ∨ stop = 0x80000000) :
    Decodes code ip is none := by
  induction is generalizing ip with
  | nil =>
    refine .done (if_pos ?_)
    obtain rfl : ip.toNat = stop := hspan
    rcases hend with rfl | hlast
    · right
      rw [← Array.length_toList]
      exact List.drop_eq_nil_iff.mp hcode
    · left
      rw [← Int.not_le, Cell.nonneg_iff]
      exact Nat.not_lt.mpr (Nat.le_of_eq hlast.symm)
  | cons i is ih =>
    obtain ⟨haddress, hspan⟩ := hspan
    have hle : ip.toNat + i.size ≤ stop := hspan.le
    rw [stream, List.flatMap_cons, List.append_assoc, ← stream] at hcode
    have hpeek : ({ code, ip } : Cursor).peek = .ok (some i) :=
      (Cursor.peek_eq_some_iff rfl).mpr ⟨BitVec.eq_of_toNat_eq haddress,
        hwell i (List.mem_cons_self ..), show ip.toNat + i.size < 0x80000004 by omega, _, hcode⟩
    have hnext : i.next.toNat = ip.toNat + i.size := Cursor.toNat_next hpeek
    refine .step hpeek (ih (fun j hj => hwell j (List.mem_cons_of_mem _ hj)) (hnext ▸ hspan) ?_)
    rw [hnext, ← List.drop_drop, hcode]
    exact List.drop_left' i.length_bytes

/-- The listing of an instance whose block has instructions where the code stands. -/
theorem of_block {vm : Instance} {front : List Byte} {rest : Block} {n : Nat}
    (hblock : vm.block = (front ++ stream is).toArray ++ rest) (hspan : Span 0 is n)
    (hcod : vm.header.cod.toNat = front.length) (hdat : vm.header.dat.toNat = front.length + n)
    (hwell : ∀ i ∈ is, i.WellFormed) (hn : n < 0x80000000) : Decodes vm.code 0 is none := by
  have hlength := hspan.length_flatMap Instruction.length_bytes
  rw [Nat.zero_add] at hlength
  have hcode : vm.code.toList = stream is := by
    rw [Instance.code, Block.slice, Array.toList_extract, hblock, hcod, hdat,
      List.extract_eq_take_drop,
      Array.toList_append, List.append_assoc, List.drop_left, Nat.add_sub_cancel_left, ← hlength]
    exact List.take_left
  exact of_stream hwell hspan (Nat.le_of_lt hn) (hcode.trans (List.append_nil _).symm) (.inl rfl)

/-- What is decoded from the start of the code is its listing. -/
theorem remaining_eq (h : Decodes code 0 is none) :
    ({ code } : Cursor).remaining.1 = is.map .ok := by
  obtain ⟨js, stop, hlisting, hitems⟩ := Cursor.remaining_eq_listing code
  obtain ⟨rfl, rfl⟩ := h.unique hlisting
  rw [hitems]
  exact List.append_nil _

/-- A listing takes the code up to where it stops, and its bytes are those of the code. -/
theorem stops {stop : Option DecodeError} (h : Decodes code ip is stop)
    (hip : ip.toNat < 0x80000004) : ∃ last : Cell, last.toNat < 0x80000004 ∧
      (∀ i ∈ is, i.WellFormed) ∧ Span ip.toNat is last.toNat ∧
      code.toList.drop ip.toNat = stream is ++ code.toList.drop last.toNat ∧
      ({ code, ip := last } : Cursor).peek = stop.elim (.ok none) .error := by
  induction h with
  | done hpeek => exact ⟨_, hip, nofun, rfl, rfl, hpeek⟩
  | fail hpeek => exact ⟨_, hip, nofun, rfl, rfl, hpeek⟩
  | @step ip i is stop hpeek _ ih =>
    obtain ⟨haddress, hwell, hend, rest, hat⟩ := (Cursor.peek_eq_some_iff rfl).mp hpeek
    have hnext := Cursor.toNat_next hpeek
    dsimp only at haddress hend hat hnext
    obtain ⟨last, hlast, hwells, hspan, hstream, hstop⟩ := ih (hnext ▸ hend)
    refine ⟨last, hlast, List.forall_mem_cons.mpr ⟨hwell, hwells⟩,
      ⟨congrArg _ haddress, hnext ▸ hspan⟩, ?_, hstop⟩
    have hdrop : code.toList.drop i.next.toNat = rest := by
      rw [hnext, ← List.drop_drop, hat]
      exact List.drop_left' i.length_bytes
    rw [hat, stream, List.flatMap_cons, ← stream, List.append_assoc, ← hstream, hdrop]

/-- A listing without an error takes all of the code, as far as addresses are not negative. -/
theorem eq_stream (h : Decodes code 0 is none) : (∀ i ∈ is, i.WellFormed) ∧
    Span 0 is (min code.size 0x80000000) ∧ stream is = code.toList.take 0x80000000 := by
  obtain ⟨last, hlast, hwell, hspan, hstream, hstop⟩ := h.stops (by decide)
  have hend : last.toInt < 0 ∨ code.size ≤ last.toNat := Cursor.peek_none hstop
  rw [← Int.not_le, Cell.nonneg_iff] at hend
  have haligned : last.toNat % 4 = 0 := hspan.aligned
  replace hstream : code.toList = stream is ++ code.toList.drop last.toNat := hstream
  have hlength : (stream is).length = last.toNat := by
    rw [← hspan.length_flatMap Instruction.length_bytes]
    exact (Nat.zero_add _).symm
  have hle : last.toNat ≤ code.size := by
    have hlengths := congrArg List.length hstream
    rw [List.length_append, hlength, Array.length_toList] at hlengths
    exact Nat.le_of_add_right_le (Nat.le_of_eq hlengths.symm)
  -- It ends where the code does, or at the first multiple of a cell that is negative.
  have hmin : last.toNat = min code.size 0x80000000 := by omega
  refine ⟨hwell, hmin ▸ hspan, ?_⟩
  have htake := congrArg (List.take last.toNat) hstream
  rw [List.take_left' hlength, hmin] at htake
  rw [← htake]
  exact List.take_eq_take_iff.mpr (by rw [Array.length_toList]; omega)

end Decodes

open Instruction (Span stream)

end PawnNative
