import Mathlib.Tactic.Common
import PawnNative.Instruction.Cursor
import PawnNative.Proofs.Outcome

/-! # Listings

    A listing is what decoding finds from an address on: the instructions, each
    at the address where the one before it ends, and the error that ended the
    decoding, if the end of the code was not reached. `Decodes` says so one
    instruction at a time; the items of an iteration are the listing.

    The addresses of a listing ascend, and an error is at a higher address than all
    instructions.
-/

namespace PawnNative

theorem exists_split {α : Type} {xs : List α} {k : Nat} {x : α} (h : xs[k]? = some x) :
    ∃ before after, xs = before ++ x :: after ∧ before.length = k := by
  obtain ⟨hk, rfl⟩ := List.getElem?_eq_some_iff.mp h
  exact ⟨xs.take k, xs.drop (k + 1), by rw [List.getElem_cons_drop, List.take_append_drop],
    List.length_take_of_le (Nat.le_of_lt hk)⟩

/-! ## Section 1: One instruction -/

/-- Addresses are cells: those from 2³¹ on are negative. -/
theorem Cell.nonneg_iff {v : Cell} : 0 ≤ v.toInt ↔ v.toNat < 0x80000000 := by
  rw [BitVec.toInt_eq_toNat_cond]
  split_ifs <;> omega

theorem Instruction.size_pos (i : Instruction) : 0 < i.size := by
  unfold Instruction.size Cell.width
  omega

namespace Cursor

variable {c : Cursor} {i : Instruction} {e : DecodeError} {address at_ : Cell} {n : Nat}

theorem address_of_read (h : c.read address at_ = .error e) : e.address = address := by
  unfold read at h
  split_ifs at h with hneg
  · cases h
    rfl
  split at h
  · cases h
  · cases h
    rfl

/-- A cell is read where it stands, at an address that is not negative. -/
theorem read_eq_ok_iff {v : Cell} : c.read address at_ = .ok v ↔
    at_.toNat < 0x80000000 ∧ c.code.cell? at_.toNat = some v := by
  rw [read, ite_error_eq_ok, Int.not_lt, Cell.nonneg_iff]
  refine and_congr_right fun _ => ?_
  cases c.code.cell? at_.toNat with
  | none => simp
  | some w => simp

theorem address_of_operandCount {op : Opcode} (h : c.operandCount address op = .error e) :
    e.address = address := by
  unfold operandCount at h
  -- The two counted shapes read one cell and refuse it when it is negative.
  have counted : ∀ {f : Cell → Nat}, (do
      let n ← c.read address (address + 4)
      if n.toInt < 0 then throw (DecodeError.badCount address n)
      return f n : Except DecodeError Nat) = .error e → e.address = address := by
    intro f h
    rcases bind_eq_error.mp h with hread | ⟨n, hread, h⟩
    · exact address_of_read hread
    · split_ifs at h with hneg
      · cases h
        rfl
      · cases h
  split at h
  · cases h
  · exact counted h
  · exact counted h

theorem address_of_readCells (h : c.readCells address n at_ = .error e) :
    e.address = address := by
  induction n generalizing at_ with
  | zero => cases h
  | succ n ih =>
    rw [readCells] at h
    rcases bind_eq_error.mp h with hread | ⟨v, -, h⟩
    · exact address_of_read hread
    · rcases bind_eq_error.mp h with hrest | ⟨vs, -, h⟩
      · exact ih hrest
      · cases h

theorem length_readCells {cells : List Cell}
    (h : c.readCells address n at_ = .ok cells) : cells.length = n := by
  induction n generalizing at_ cells with
  | zero =>
    cases h
    rfl
  | succ n ih =>
    rw [readCells] at h
    obtain ⟨v, -, h⟩ := bind_eq_ok.mp h
    obtain ⟨vs, hvs, h⟩ := bind_eq_ok.mp h
    cases h
    rw [List.length_cons, ih hvs]

theorem toNat_add_four (h : at_.toNat < 0x80000000) : (at_ + 4).toNat = at_.toNat + 4 := by
  rw [BitVec.toNat_add, show BitVec.toNat (4 : Cell) = 4 from rfl]
  omega

/-- Cells are read at addresses that are not negative, so the last one ends near 2³¹ at most. -/
theorem readCells_bound {cells : List Cell} (hat : at_.toNat < 0x80000004)
    (h : c.readCells address n at_ = .ok cells) : at_.toNat + 4 * n < 0x80000004 := by
  induction n generalizing at_ cells with
  | zero => exact hat
  | succ n ih =>
    rw [readCells] at h
    obtain ⟨v, hv, h⟩ := bind_eq_ok.mp h
    obtain ⟨vs, hvs, -⟩ := bind_eq_ok.mp h
    have hlow := (read_eq_ok_iff.mp hv).1
    have hmove := toNat_add_four hlow
    have hrest := ih (by omega) hvs
    omega

/-- An instruction is decoded exactly when it lies inside the code and each of its parts is read at
    its place. -/
theorem peek_eq_some_iff_reads : c.peek = .ok (some i) ↔
    i.address = c.ip ∧ c.ip.toNat < 0x80000000 ∧ c.ip.toNat + i.size ≤ c.code.size ∧
      (∃ v, c.read c.ip c.ip = .ok v ∧ c.table.lookup v = some i.opcode) ∧
      c.operandCount c.ip i.opcode = .ok i.operands.length ∧
      c.readCells c.ip i.operands.length (c.ip + 4) = .ok i.operands := by
  have hsize : i.size = (1 + i.operands.length) * Cell.width := Nat.mul_comm ..
  constructor
  · intro h
    unfold peek at h
    split_ifs at h with hend
    · cases h
    rw [not_or, Int.not_lt, Cell.nonneg_iff] at hend
    obtain ⟨v, hread, h⟩ := bind_eq_ok.mp h
    split at h
    · cases h
    · next opcode hlookup =>
      obtain ⟨count, hcount, h⟩ := bind_eq_ok.mp h
      split_ifs at h with hroom
      · cases h
      obtain ⟨operands, hoperands, h⟩ := bind_eq_ok.mp h
      cases h
      obtain rfl := length_readCells hoperands
      exact ⟨rfl, hend.1, hsize ▸ Nat.not_lt.mp hroom, ⟨v, hread, hlookup⟩, hcount, hoperands⟩
  · rintro ⟨haddress, hlow, hroom, ⟨v, hread, hlookup⟩, hcount, hoperands⟩
    have hpos := i.size_pos
    have hstart : ¬(c.ip.toInt < 0 ∨ c.code.size ≤ c.ip.toNat) := by
      rw [not_or, Int.not_lt, Cell.nonneg_iff]
      omega
    rw [peek, if_neg hstart]
    refine bind_eq_ok.mpr ⟨v, hread, ?_⟩
    rw [hlookup]
    refine bind_eq_ok.mpr ⟨_, hcount, ?_⟩
    rw [if_neg (Nat.not_lt.mpr (hsize ▸ hroom))]
    refine bind_eq_ok.mpr ⟨_, hoperands, ?_⟩
    rw [← haddress]
    rfl

/-- An instruction that is decoded is the one at the pointer, and lies inside the code. None of its
    cells starts at a negative address. -/
theorem peek_ok (h : c.peek = .ok (some i)) :
    i.address = c.ip ∧ c.ip.toNat < 0x80000000 ∧ c.ip.toNat + i.size ≤ c.code.size ∧
      c.ip.toNat + i.size < 0x80000004 := by
  obtain ⟨haddress, hlow, hroom, -, -, hoperands⟩ := peek_eq_some_iff_reads.mp h
  have hmove := toNat_add_four hlow
  have hbound := readCells_bound (by omega) hoperands
  refine ⟨haddress, hlow, hroom, ?_⟩
  rw [Instruction.size, Cell.width]
  omega

theorem peek_none (h : c.peek = .ok none) : c.ip.toInt < 0 ∨ c.code.size ≤ c.ip.toNat := by
  unfold peek at h
  split_ifs at h with hend
  · exact hend
  · obtain ⟨value, -, h⟩ := bind_eq_ok.mp h
    split at h
    · cases h
    · obtain ⟨count, -, h⟩ := bind_eq_ok.mp h
      split_ifs at h
      · cases h
      obtain ⟨operands, -, h⟩ := bind_eq_ok.mp h
      cases h

theorem address_of_peek (h : c.peek = .error e) : e.address = c.ip := by
  unfold peek at h
  split_ifs at h
  rcases bind_eq_error.mp h with h | ⟨value, -, h⟩
  · exact address_of_read h
  split at h
  · cases h
    rfl
  · rcases bind_eq_error.mp h with h | ⟨count, -, h⟩
    · exact address_of_operandCount h
    split_ifs at h
    · cases h
      rfl
    · rcases bind_eq_error.mp h with h | ⟨operands, -, h⟩
      · exact address_of_readCells h
      · cases h

end Cursor

/-! ## Section 2: Listings -/

/-- What decoding finds from an address on. -/
inductive Decodes (code : Block) : Cell → List Instruction → Option DecodeError → Prop
  | done {ip : Cell} (h : ({ code, ip } : Cursor).peek = .ok none) : Decodes code ip [] none
  | fail {ip : Cell} {e : DecodeError} (h : ({ code, ip } : Cursor).peek = .error e) :
    Decodes code ip [] (some e)
  | step {ip : Cell} {i : Instruction} {is : List Instruction} {stop : Option DecodeError}
    (h : ({ code, ip } : Cursor).peek = .ok (some i)) (rest : Decodes code i.next is stop) :
    Decodes code ip (i :: is) stop

namespace Decodes

variable {code : Block} {ip : Cell} {is : List Instruction} {stop : Option DecodeError}

theorem unique {js : List Instruction} {stop' : Option DecodeError} (h : Decodes code ip is stop)
    (h' : Decodes code ip js stop') : is = js ∧ stop = stop' := by
  induction h generalizing js stop' with
  | done h =>
    cases h' with
    | done _ => exact ⟨rfl, rfl⟩
    | fail h' => cases h.symm.trans h'
    | step h' _ => cases h.symm.trans h'
  | fail h =>
    cases h' with
    | done h' => cases h.symm.trans h'
    | fail h' =>
      cases h.symm.trans h'
      exact ⟨rfl, rfl⟩
    | step h' _ => cases h.symm.trans h'
  | step h _ ih =>
    cases h' with
    | done h' => cases h.symm.trans h'
    | fail h' => cases h.symm.trans h'
    | step h' rest =>
      cases h.symm.trans h'
      obtain ⟨his, hstop⟩ := ih rest
      exact ⟨by rw [his], hstop⟩

end Decodes

/-- The address after an instruction does not wrap around, though it may be negative. -/
theorem Cursor.toNat_next {c : Cursor} {i : Instruction} (h : c.peek = .ok (some i)) :
    i.next.toNat = c.ip.toNat + i.size := by
  obtain ⟨haddress, -, -, hfit⟩ := peek_ok h
  rw [Instruction.next, haddress, BitVec.toNat_add, BitVec.toNat_ofNat]
  omega

/-- The items of an iteration are the listing. The number of items that are asked for is
    larger than the number of bytes that are left, and every item takes some. -/
theorem Cursor.go_eq_listing {n : Nat} {c : Cursor} (htable : c.table = .codes)
    (hfailed : c.failed = false) (hn : c.code.size - c.ip.toNat < n) :
    ∃ is stop, Decodes c.code c.ip is stop ∧
      (Cursor.remaining.go n c).1 = is.map .ok ++ stop.toList.map .error := by
  induction n generalizing c with
  | zero => omega
  | succ n ih =>
    have hpeek : ({ code := c.code, ip := c.ip } : Cursor).peek = c.peek := by
      cases c
      cases htable
      cases hfailed
      rfl
    cases hc : c.peek with
    | error e =>
      refine ⟨[], some e, .fail (hpeek.trans hc), ?_⟩
      have hnext : c.next = (some (.error e), { c with failed := true }) := by
        simp [next, hfailed, decode, hc]
      have hafter : (Cursor.remaining.go n { c with failed := true }).1 = [] := by
        cases n <;> rfl
      rw [remaining.go, hnext]
      simp [hafter]
    | ok found =>
      cases found with
      | none =>
        refine ⟨[], none, .done (hpeek.trans hc), ?_⟩
        have hnext : c.next = (none, c) := by
          simp [next, hfailed, decode, hc]
        rw [remaining.go, hnext]
        rfl
      | some i =>
        have hnext : c.next = (some (.ok i), { c with ip := i.next }) := by
          simp [next, hfailed, decode, hc]
        obtain ⟨-, -, hfit, -⟩ := peek_ok hc
        have hmove := toNat_next hc
        have hpos := i.size_pos
        obtain ⟨is, stop, hrest, hitems⟩ := ih (c := { c with ip := i.next }) htable hfailed
          (by show c.code.size - i.next.toNat < n; omega)
        refine ⟨i :: is, stop, .step (hpeek.trans hc) hrest, ?_⟩
        rw [remaining.go, hnext]
        simp [hitems]

theorem Cursor.remaining_eq_listing (code : Block) :
    ∃ is stop, Decodes code 0 is stop ∧
      ({ code : Cursor }).remaining.1 = is.map .ok ++ stop.toList.map .error :=
  go_eq_listing (c := { code }) rfl rfl (Nat.lt_succ_of_le (Nat.sub_le ..))

/-! ## Section 3: Addresses ascend -/

namespace Decodes

variable {code : Block} {ip : Cell} {is : List Instruction} {stop : Option DecodeError}

/-- Every instruction of a listing lies between its start and the end of the code. -/
theorem bounds (h : Decodes code ip is stop) {i : Instruction} (hi : i ∈ is) :
    ip.toNat ≤ i.address.toNat ∧ i.address.toNat + i.size ≤ code.size := by
  induction h with
  | done _ => cases hi
  | fail _ => cases hi
  | step h _ ih =>
    obtain ⟨haddress, -, hfit, -⟩ := Cursor.peek_ok h
    rcases List.mem_cons.mp hi with rfl | hi
    · rw [haddress]
      exact ⟨Nat.le_refl _, hfit⟩
    · have hmove := Cursor.toNat_next h
      have hrest := ih hi
      exact ⟨by dsimp only at hmove; omega, hrest.2⟩

theorem toInt_address (h : Decodes code ip is stop) (hsize : code.size < 0x80000000)
    {i : Instruction} (hi : i ∈ is) : i.address.toInt = i.address.toNat := by
  have hbounds := h.bounds hi
  have hpos := i.size_pos
  rw [BitVec.toInt_eq_toNat_of_lt (by omega)]

theorem ascending (h : Decodes code ip is stop) :
    is.Pairwise fun i j => i.address.toNat < j.address.toNat := by
  induction h with
  | done _ => exact .nil
  | fail _ => exact .nil
  | step h rest ih =>
    refine .cons (fun j hj => ?_) ih
    obtain ⟨haddress, -, -⟩ := Cursor.peek_ok h
    have hmove := Cursor.toNat_next h
    have hj' := (rest.bounds hj).1
    have hpos := Instruction.size_pos
    rw [haddress]
    exact Nat.lt_of_lt_of_le (by rw [hmove]; exact Nat.lt_add_of_pos_right (hpos _)) hj'

/-- The error that ends a listing is past all its instructions. -/
theorem address_lt_stop {e : DecodeError} (h : Decodes code ip is (some e)) :
    ip.toNat ≤ e.address.toNat ∧ ∀ i ∈ is, i.address.toNat < e.address.toNat := by
  generalize hstop : some e = stop at h
  induction h with
  | done _ => cases hstop
  | fail h =>
    cases hstop
    rw [Cursor.address_of_peek h]
    exact ⟨Nat.le_refl _, nofun⟩
  | @step ip i is stop h _ ih =>
    obtain ⟨haddress, -, -⟩ := Cursor.peek_ok h
    have hmove := Cursor.toNat_next h
    obtain ⟨hle, hrest⟩ := ih hstop
    have hlt : ip.toNat < e.address.toNat :=
      Nat.lt_of_lt_of_le (by rw [hmove]; exact Nat.lt_add_of_pos_right (Instruction.size_pos _)) hle
    refine ⟨Nat.le_of_lt hlt, fun j hj => ?_⟩
    rcases List.mem_cons.mp hj with rfl | hj
    · rw [haddress]
      exact hlt
    · exact hrest j hj

theorem aligned (h : Decodes code ip is stop) (hip : ip.toNat % Cell.width = 0) {i : Instruction}
    (hi : i ∈ is) : i.address.toNat % Cell.width = 0 := by
  induction h with
  | done _ => cases hi
  | fail _ => cases hi
  | step h _ ih =>
    obtain ⟨haddress, -, -⟩ := Cursor.peek_ok h
    rcases List.mem_cons.mp hi with rfl | hi
    · rw [haddress]
      exact hip
    · refine ih ?_ hi
      rw [Cursor.toNat_next h, Instruction.size, Nat.add_mul_mod_self_left]
      exact hip

end Decodes

end PawnNative
