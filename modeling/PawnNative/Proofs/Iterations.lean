import Mathlib.Tactic.Common
import PawnNative.Proofs.Listing

/-! # Iterations

    Decoding goes forward and never past the code, whatever its bytes are and however
    opcodes are read: a step gives the instruction at the pointer and moves past it, or
    it changes nothing. So an iteration comes to an end, and an error can only be its
    last item.

    `Yields` says what an iteration is without a bound on the number of items. A cursor
    is its pointer, as far as an iteration is concerned; that is why it can start again
    at any instruction, and why an earlier error is forgotten.
-/

namespace PawnNative

namespace Cursor

variable {c c' d : Cursor} {i : Instruction} {items items' : List (Except DecodeError Instruction)}

/-! ## Section 1: One step -/

/-- What decoding into a kept instruction comes to. -/
inductive Progress (c : Cursor) (kept : Instruction) :
    Except DecodeError Bool × Cursor × Instruction → Prop
  /-- The pointer is outside of the code, and nothing changes. -/
  | stop (h : c.ip.toInt < 0 ∨ c.code.size ≤ c.ip.toNat) : Progress c kept (.ok false, c, kept)
  /-- The instruction at the pointer cannot be decoded, and nothing changes. -/
  | refuse (e : DecodeError) (h : e.address = c.ip) : Progress c kept (.error e, c, kept)
  /-- The instruction at the pointer is decoded, and the pointer moves past it. In code of 2³¹ bytes
      or more it may become negative; in any other it is larger than before. -/
  | advance (i : Instruction) (ip : Cell) (haddress : i.address = c.ip)
    (hip : ip.toNat = c.ip.toNat + i.size) (hfit : ip.toNat ≤ c.code.size)
    (hmoves : c.code.size < 0x80000000 →
      ip.toInt = c.ip.toInt + i.size ∧ c.ip.toInt < ip.toInt ∧ ip.toInt ≤ c.code.size) :
    Progress c kept (.ok true, { c with ip }, i)

/-- The pointer moves forward by the size of the instruction, and stays inside the code. -/
theorem toInt_next (h : c.peek = .ok (some i)) (hsize : c.code.size < 0x80000000) :
    i.next.toInt = c.ip.toInt + i.size ∧ c.ip.toInt < i.next.toInt ∧
      i.next.toInt ≤ c.code.size := by
  obtain ⟨-, hlow, hfit, -⟩ := peek_ok h
  have hmove := toNat_next h
  have hpos := i.size_pos
  have hip : c.ip.toInt = c.ip.toNat := BitVec.toInt_eq_toNat_of_lt (by omega)
  have hnext : i.next.toInt = i.next.toNat := BitVec.toInt_eq_toNat_of_lt (by omega)
  omega

theorem progress_decodeInto (c : Cursor) (kept : Instruction) :
    c.Progress kept (c.decodeInto kept) := by
  unfold decodeInto decode
  cases hpeek : c.peek with
  | error e => exact .refuse e (address_of_peek hpeek)
  | ok found =>
    cases found with
    | none => exact .stop (peek_none hpeek)
    | some i =>
      obtain ⟨haddress, -, hfit, -⟩ := peek_ok hpeek
      have hmove := toNat_next hpeek
      exact .advance i i.next haddress hmove (hmove ▸ hfit) (toInt_next hpeek)

theorem next_cases (c : Cursor) :
    c.next = (none, c) ∨
    (c.failed = false ∧ ∃ e, c.peek = .error e ∧
      c.next = (some (.error e), { c with failed := true })) ∨
    (c.failed = false ∧ ∃ i, c.peek = .ok (some i) ∧
      c.next = (some (.ok i), { c with ip := i.next })) := by
  unfold next decode
  cases hfailed : c.failed with
  | true => exact .inl rfl
  | false =>
    cases hpeek : c.peek with
    | error e => exact .inr (.inl ⟨rfl, e, rfl, rfl⟩)
    | ok found =>
      cases found with
      | none => exact .inl rfl
      | some i => exact .inr (.inr ⟨rfl, i, rfl, rfl⟩)

theorem next_of_failed (h : c.failed = true) : c.next = (none, c) := by
  rw [next, if_pos h]

/-! ## Section 2: Iterations -/

/-- The items of an iteration, one after the other, and the cursor that is left when there are
    none. -/
inductive Yields : Cursor → List (Except DecodeError Instruction) → Cursor → Prop
  | done {c c' : Cursor} (h : c.next = (none, c')) : Yields c [] c'
  | step {c c₁ c' : Cursor} {item : Except DecodeError Instruction}
    {items : List (Except DecodeError Instruction)} (h : c.next = (some item, c₁))
    (rest : Yields c₁ items c') : Yields c (item :: items) c'

theorem Yields.unique (h : c.Yields items c') (h' : c.Yields items' d) :
    items = items' ∧ c' = d := by
  induction h generalizing items' with
  | done h =>
    cases h' with
    | done h' =>
      cases h.symm.trans h'
      exact ⟨rfl, rfl⟩
    | step h' _ => cases h.symm.trans h'
  | step h _ ih =>
    cases h' with
    | done h' => cases h.symm.trans h'
    | step h' rest =>
      cases h.symm.trans h'
      obtain ⟨hitems, hcursor⟩ := ih rest
      exact ⟨by rw [hitems], hcursor⟩

/-- Enough items are asked for: every instruction takes some of the bytes that are left. -/
theorem yields_go {n : Nat} (hn : c.failed = false → c.code.size - c.ip.toNat < n) (hpos : 0 < n) :
    c.Yields (remaining.go n c).1 (remaining.go n c).2 := by
  induction n generalizing c with
  | zero => omega
  | succ n ih =>
    rw [remaining.go]
    rcases next_cases c with hnext | ⟨hfailed, e, hpeek, hnext⟩ | ⟨hfailed, i, hpeek, hnext⟩
    · rw [hnext]
      exact .done hnext
    · rw [hnext]
      refine .step hnext ?_
      cases n with
      | zero => exact .done (next_of_failed rfl)
      | succ n => exact ih (fun h => by cases h) (Nat.succ_pos n)
    · rw [hnext]
      obtain ⟨-, -, hfit, -⟩ := peek_ok hpeek
      have hmove := toNat_next hpeek
      have hsize := i.size_pos
      have hleft := hn hfailed
      exact .step hnext (ih (fun _ => show c.code.size - i.next.toNat < n by omega) (by omega))

theorem yields_remaining (c : Cursor) : c.Yields c.remaining.1 c.remaining.2 :=
  yields_go (fun _ => by omega) (Nat.succ_pos _)

theorem Yields.eq_remaining (h : c.Yields items c') : c.remaining = (items, c') := by
  obtain ⟨hitems, hcursor⟩ := c.yields_remaining.unique h
  exact Prod.ext hitems hcursor

theorem yields_error {e : DecodeError} (hfailed : c.failed = false) (hpeek : c.peek = .error e) :
    c.Yields [.error e] { c with failed := true } := by
  have hnext : c.next = (some (.error e), { c with failed := true }) := by
    simp [next, decode, hfailed, hpeek]
  exact .step hnext (.done (next_of_failed rfl))

theorem yields_nil (h : c.ip.toInt < 0 ∨ c.code.size ≤ c.ip.toNat) : c.Yields [] c := by
  have hpeek : c.peek = .ok none := if_pos h
  refine .done ?_
  unfold next decode
  rw [hpeek]
  exact ite_self _

theorem Yields.next_eq_none (h : c.Yields items c') : c'.next = (none, c') := by
  induction h with
  | @done c c' h =>
    rcases next_cases c with hnext | ⟨-, e, -, hnext⟩ | ⟨-, i, -, hnext⟩
    · cases hnext.symm.trans h
      exact hnext
    · cases hnext.symm.trans h
    · cases hnext.symm.trans h
  | step _ _ ih => exact ih

/-- An iteration consists of instructions in the order of their addresses, from the pointer on, and
    of an error behind them or none. -/
theorem Yields.shape (h : c.Yields items c') :
    ∃ (is : List Instruction) (stop : Option DecodeError),
      items = is.map .ok ++ stop.toList.map .error ∧
      (is.Pairwise fun i j => i.address.toInt < j.address.toInt) ∧
      (∀ i ∈ is, c.ip.toNat ≤ i.address.toNat ∧ i.address.toNat < 0x80000000) ∧
      Cell.width * items.length ≤ c.code.size - c.ip.toNat + Cell.width := by
  induction h with
  | done _ => exact ⟨[], none, rfl, .nil, nofun, Nat.zero_le _⟩
  | @step c c₁ c' item items h rest ih =>
    rcases next_cases c with hnext | ⟨-, e, hpeek, hnext⟩ | ⟨-, i, hpeek, hnext⟩
    · cases hnext.symm.trans h
    · cases hnext.symm.trans h
      -- The rest of the iteration is empty.
      cases rest with
      | done _ => exact ⟨[], some e, rfl, .nil, nofun, by simp⟩
      | step h' _ => cases h'.symm.trans (next_of_failed rfl)
    · cases hnext.symm.trans h
      obtain ⟨is, stop, hitems, hascending, hfrom, hlength⟩ := ih
      obtain ⟨haddress, hlow, hfit, -⟩ := peek_ok hpeek
      have hmove := toNat_next hpeek
      have hpos := i.size_pos
      refine ⟨i :: is, stop, by rw [hitems]; rfl, .cons (fun j hj => ?_) hascending, ?_, ?_⟩
      · -- Addresses of instructions are not negative, so their order is that of numbers.
        obtain ⟨hle, hbelow⟩ := hfrom j hj
        dsimp only at hle
        rw [haddress, BitVec.toInt_eq_toNat_of_lt (x := c.ip) (by omega),
          BitVec.toInt_eq_toNat_of_lt (by omega)]
        omega
      · refine List.forall_mem_cons.mpr ⟨by rw [haddress]; exact ⟨Nat.le_refl _, hlow⟩,
          fun j hj => ?_⟩
        obtain ⟨hle, hbelow⟩ := hfrom j hj
        exact ⟨by dsimp only at hle; omega, hbelow⟩
      · dsimp only at hlength
        rw [Instruction.size, show Cell.width = 4 from rfl] at hmove hfit
        rw [List.length_cons, show Cell.width = 4 from rfl] at *
        omega

/-! ## Section 3: Starting again -/

/-- The items from an instruction on are an iteration that starts at its address. -/
theorem Yields.restart {before : List (Except DecodeError Instruction)}
    (h : c.Yields (before ++ .ok i :: items) c')
    (hcode : d.code = c.code) (htable : d.table = c.table) :
      (d.setIp i.address).Yields (.ok i :: items) c' := by
  induction before generalizing c with
  | nil =>
    have hstart : d.setIp i.address = c := by
      cases h with
      | step h _ =>
        rcases next_cases c with hnext | ⟨-, e, -, hnext⟩ | ⟨hfailed, j, hpeek, hnext⟩
        · cases hnext.symm.trans h
        · cases hnext.symm.trans h
        · cases hnext.symm.trans h
          rw [setIp, (peek_ok hpeek).1, hcode, htable, ← hfailed]
    rw [hstart]
    exact h
  | cons item before ih =>
    cases h with
    | step h rest =>
      -- Neither the code nor the way to read opcodes changes.
      rcases next_cases c with hnext | ⟨-, e, -, hnext⟩ | ⟨-, j, -, hnext⟩
      · cases hnext.symm.trans h
      · cases hnext.symm.trans h
        exact ih rest hcode htable
      · cases hnext.symm.trans h
        exact ih rest hcode htable

end Cursor

/-- **Restarting.** Decoding into an instruction either changes nothing or moves forward inside the
    code. An iteration from anywhere ends: its items are instructions at ascending addresses and
    then at most one error. The items from an instruction on are what any cursor over the code,
    whatever it did before, gives when it is set to the address of the instruction. -/
theorem decoding_restarts_at_instructions (c : Cursor) :
    (∀ kept, c.Progress kept (c.decodeInto kept)) ∧
    (c.Yields c.remaining.1 c.remaining.2 ∧ c.remaining.2.next = (none, c.remaining.2) ∧
      c.remaining.1.length ≤ c.code.size / Cell.width + 1 ∧
      ∃ (is : List Instruction) (stop : Option DecodeError), c.remaining.1 =
        is.map .ok ++ stop.toList.map .error ∧
        is.Pairwise fun i j => i.address.toInt < j.address.toInt) ∧
    ∀ start before i after, (c.setIp start).remaining.1 = before ++ .ok i :: after →
      ∀ d : Cursor, d.code = c.code → d.table = c.table →
        (d.setIp i.address).remaining = (.ok i :: after, (c.setIp start).remaining.2) := by
  refine ⟨c.progress_decodeInto, ?_, ?_⟩
  · have hyields := c.yields_remaining
    obtain ⟨is, stop, hitems, hascending, -, hlength⟩ := hyields.shape
    refine ⟨hyields, hyields.next_eq_none, ?_, is, stop, hitems, hascending⟩
    rw [show Cell.width = 4 from rfl] at hlength ⊢
    omega
  · intro start before i after hitems d hcode htable
    have hyields := (c.setIp start).yields_remaining
    rw [hitems] at hyields
    exact (hyields.restart hcode htable).eq_remaining

/-- An instruction without an operand and one with an operand, a cell that is no opcode, and an
    instruction that is never reached. -/
def brokenCode : Block :=
  ([Opcode.nop.code, Opcode.constAlt.code, 5, 999, Opcode.nop.code].flatMap Cell.bytes).toArray

/-- A cursor that has met the error goes on at the second instruction, and meets the error again. -/
theorem brokenCode_restarts : ∃ c : Cursor, c.code = brokenCode ∧ c.failed = true ∧
    (c.setIp 4).remaining.1 =
      [.ok { address := 4, opcode := .constAlt, operands := [5] },
        .error (.invalidOpcode 12 999)] := by
  have hitems : (({ code := brokenCode } : Cursor).setIp 0).remaining.1 =
      [.ok { address := 0, opcode := .nop }] ++
        .ok { address := 4, opcode := .constAlt, operands := [5] } ::
          [.error (.invalidOpcode 12 999)] := by
    decide +kernel
  have hrestart := (decoding_restarts_at_instructions { code := brokenCode }).2.2 0 _ _ _ hitems
    { code := brokenCode, ip := 12, failed := true } rfl rfl
  exact ⟨_, rfl, rfl, congrArg Prod.fst hrestart⟩

end PawnNative
