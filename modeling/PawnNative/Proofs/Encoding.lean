import Mathlib.Tactic.Common
import PawnNative.Code.Buffer
import PawnNative.X64.Decoding

/-! # Encoded instructions are read back

    The decoder undoes the encoder. An encoded instruction has up to four parts:
    leading byte and extension byte, opcode, operands, immediate. Each part has
    its own lemma that says what the decoder takes from the front of a list that
    starts with it, whatever follows:

    * `Shape.takeExtension_extensionBytes`: the extension byte, or its absence;
    * `takeOperands_encode`: operand byte, index byte and displacement;
    * `takeCell_bytes`, `takeSigned_byte`, `takeWord_bytes`: immediates.

    The bits of the extension byte come before the operands they belong to. What
    the operands need to know of them is collected in `Lead.Carries`.
-/

namespace PawnNative.X64

/-! ## Section 1: Bits of a byte -/

@[simp] theorem extractLsb'_fields_high (h : BitVec 2) (m l : BitVec 3) :
    (fields h m l).extractLsb' 6 2 = h :=
  (BitVec.extractLsb'_append_eq_of_le (show 3 ≤ 6 by decide)).trans
    BitVec.extractLsb'_append_eq_left

@[simp] theorem extractLsb'_fields_mid (h : BitVec 2) (m l : BitVec 3) :
    (fields h m l).extractLsb' 3 3 = m :=
  (BitVec.extractLsb'_append_eq_of_le (Nat.le_refl 3)).trans BitVec.extractLsb'_append_eq_right

@[simp] theorem extractLsb'_fields_low (h : BitVec 2) (m l : BitVec 3) :
    (fields h m l).extractLsb' 0 3 = l :=
  BitVec.extractLsb'_append_eq_right

@[simp] theorem extractLsb'_nibbles_high (h l : BitVec 4) :
    (h ++ l : Byte).extractLsb' 4 4 = h :=
  BitVec.extractLsb'_append_eq_left

@[simp] theorem extractLsb'_nibbles_low (h l : BitVec 4) :
    (h ++ l : Byte).extractLsb' 0 4 = l :=
  BitVec.extractLsb'_append_eq_right

/-- The four bits of an extension byte, and the mark it is known by. -/
theorem extension_bits (w r x b : Bool) :
    (extension w r x b).getLsbD 3 = w ∧ (extension w r x b).getLsbD 2 = r ∧
    (extension w r x b).getLsbD 1 = x ∧ (extension w r x b).getLsbD 0 = b ∧
    (extension w r x b).extractLsb' 4 4 = 0x4#4 := by
  revert w r x b; decide

theorem extension_eq_iff (w r x b : Bool) :
    extension w r x b = 0x40 ↔ w = false ∧ r = false ∧ x = false ∧ b = false := by
  revert w r x b; decide

theorem ofBool_msb_append (n : BitVec 4) :
    (BitVec.ofBool n.msb ++ n.extractLsb' 0 3 : BitVec 4) = n := by
  revert n; decide

@[simp] theorem extractLsb'_group (n : BitVec 3) : (group n).extractLsb' 0 3 = n := by
  revert n; decide

@[simp] theorem Scale.ofBits_bits (s : Scale) : Scale.ofBits s.bits = s := by
  cases s <;> rfl

@[simp] theorem Alu.ofNumber?_number (op : Alu) : Alu.ofNumber? op.number = some op := by
  cases op <;> rfl

@[simp] theorem Shift.ofNumber?_number (op : Shift) : Shift.ofNumber? op.number = some op := by
  cases op <;> rfl

@[simp] theorem FloatOp.ofOpcode?_opcode (op : FloatOp) :
    FloatOp.ofOpcode? op.opcode = some op := by
  cases op <;> rfl

/-! ## Section 2: Immediates -/

@[simp] theorem takeCell_bytes (c : Cell) (rest : List Byte) :
    takeCell (c.bytes ++ rest) = some (c, rest) := by
  simp only [Cell.bytes, List.cons_append, List.nil_append, takeCell, Cell.ofBytes_bytes]

/-- A value that fits in a byte is the sign extension of its lowest byte. -/
theorem signExtend_byte_of_fitsByte {c : Cell} (h : c.fitsByte = true) :
    (c.byte 0).signExtend 32 = c := by
  have hlow : c.byte 0 = c.setWidth 8 := by
    apply BitVec.eq_of_getLsbD_eq
    intro i hi
    simp [Cell.byte]
  rw [hlow]
  exact (eq_of_beq h).symm

theorem takeSigned_byte {c : Cell} (h : c.fitsByte = true) (rest : List Byte) :
    takeSigned (c.byte 0 :: rest) = some (c, rest) := by
  rw [takeSigned, signExtend_byte_of_fitsByte h]

theorem extractLsb'_of_half (w : Word) {s i : Nat} (h : i + 8 ≤ 32) :
    (w.extractLsb' s 32).extractLsb' i 8 = w.extractLsb' (s + i) 8 := by
  apply BitVec.eq_of_getLsbD_eq
  intro k hk
  simp [hk, show i + k < 32 by omega, Nat.add_assoc]

theorem Word.bytes_eq (w : Word) :
    Word.bytes w = Cell.bytes (w.extractLsb' 0 32) ++ Cell.bytes (w.extractLsb' 32 32) := by
  simp [Word.bytes, Cell.bytes, Cell.byte, extractLsb'_of_half]

@[simp] theorem takeWord_bytes (w : Word) (rest : List Byte) :
    takeWord (Word.bytes w ++ rest) = some (w, rest) := by
  have hw : (w.extractLsb' 32 32 ++ w.extractLsb' 0 32 : BitVec 64) = w := by
    apply BitVec.eq_of_getLsbD_eq
    intro i hi
    rw [BitVec.getLsbD_append]
    by_cases hlow : i < 32
    · simp [hlow]
    · simp [hlow, show 32 + (i - 32) = i by omega, show i - 32 < 32 by omega]
  rw [Word.bytes_eq, List.append_assoc, takeWord, takeCell_bytes]
  simp only [Option.bind_eq_bind, Option.bind_some, takeCell_bytes, hw, Option.pure_def]

/-! ## Section 3: Operands -/

/-- What the bits before an opcode say about the operands after it. -/
structure Lead.Carries (l : Lead) (f : Shape) (reg : BitVec 4) (rm : RegMem) : Prop where
  wide : l.bit 3 = f.wide
  regHigh : l.bit 2 = reg.msb
  indexHigh : l.bit 1 = rm.indexHigh
  baseHigh : l.bit 0 = rm.baseHigh
  /-- Byte operands are low bytes. -/
  lowReg : f.byte = true → l.namesLowByte reg = true
  lowRm : f.byte = true → ∀ r, rm = .reg r → l.namesLowByte r.number = true

section operands
variable {l : Lead} {f : Shape} {op : Byte} {reg : BitVec 4} {low : BitVec 3} {rm : RegMem}
  {r : Reg} {m : Mem} {rest : List Byte}

theorem Lead.Carries.size (h : l.Carries f reg rm) : l.size = if f.wide then .q else .d := by
  rw [Lead.size, h.wide]

/-- Three bits of a register number and its fourth bit give the register. -/
theorem Lead.ofNumber_number {i : Nat} (h : l.bit i = r.high) :
    Reg.ofNumber (l.number i r.low) = r := by
  rw [Lead.number, h, Reg.high, Reg.low, ofBool_msb_append, Reg.ofNumber_number]

theorem Mem.mode_ne_three (m : Mem) : m.mode ≠ 3#2 := by
  unfold Mem.mode
  split
  · decide
  · split <;> decide

/-- A displacement is left out only where there is a form without one. -/
theorem Mem.low_ne_of_mode_eq_zero (h : m.mode = 0) : m.base.low ≠ 0b101#3 := by
  unfold Mem.mode at h
  split at h
  next hz => exact hz.2
  next => split at h <;> simp at h

theorem takeDisp_dispBytes (m : Mem) (rest : List Byte) :
    takeDisp m.mode (m.dispBytes ++ rest) = some (m.disp, rest) := by
  unfold takeDisp Mem.dispBytes
  by_cases hz : m.disp = 0 ∧ m.base.low ≠ 0b101
  · have hm : m.mode = 0 := if_pos hz
    simp [hm, hz.1]
  · by_cases hf : m.disp.fitsByte
    · have hm : m.mode = 1 := by rw [Mem.mode, if_neg hz, if_pos hf]
      simp [hm, takeSigned_byte hf]
    · have hm : m.mode = 2 := by rw [Mem.mode, if_neg hz, if_neg hf]
      simp [hm]

theorem indexOf_number {i : Index} (h : l.bit 1 = i.reg.high) :
    indexOf (l.number 1 i.reg.low) (Scale.ofBits i.scale.bits) = some i := by
  rw [indexOf, Lead.ofNumber_number h, Scale.ofBits_bits, dif_pos i.ne_rsp]

theorem indexOf_none (h : l.bit 1 = false) (s : Scale) :
    indexOf (l.number 1 0b100#3) s = none := by
  rw [indexOf, Lead.number, h]
  exact dif_neg (by decide)

/-- A memory operand is read back. The three forms of the operand byte are tried in the order
    of the encoder: base alone, base that needs an index byte, base and index. -/
theorem takeOperands_mem (hreg : l.bit 2 = reg.msb)
    (hindex : l.bit 1 = m.indexHigh) (hbase : l.bit 0 = m.base.high) :
    takeOperands l (m.encode (reg.extractLsb' 0 3) ++ rest) = some (reg, .mem m, rest) := by
  have hnumber : l.number 2 (reg.extractLsb' 0 3) = reg := by
    rw [Lead.number, hreg, ofBool_msb_append]
  have hmode := m.mode_ne_three
  have hlow := Mem.low_ne_of_mode_eq_zero (m := m)
  have hdisp := takeDisp_dispBytes m rest
  have hreg' := Lead.ofNumber_number hbase
  obtain ⟨base, index, disp⟩ := m
  cases index with
  | none =>
    by_cases hb : base.low = 0b100#3
    · have hnone := indexOf_none hindex (Scale.ofBits 0)
      simp_all [Mem.encode, takeOperands]
    · simp_all [Mem.encode, takeOperands]
  | some i =>
    have hsome := indexOf_number hindex
    simp_all [Mem.encode, takeOperands]

/-- Operands are read back, when the bits before the opcode belong to them. -/
theorem takeOperands_encode (h : l.Carries f reg rm) :
    takeOperands l (rm.encode (reg.extractLsb' 0 3) ++ rest) = some (reg, rm, rest) := by
  cases rm with
  | mem m => exact takeOperands_mem h.regHigh h.indexHigh h.baseHigh
  | reg r =>
    have hnumber : l.number 2 (reg.extractLsb' 0 3) = reg := by
      rw [Lead.number, h.regHigh, ofBool_msb_append]
    have hr : Reg.ofNumber (l.number 0 r.low) = r := Lead.ofNumber_number h.baseHigh
    simp [RegMem.encode, takeOperands, hnumber, hr]

/-! ## Section 4: The bytes before the operands -/

/-- What the decoder knows when it comes to the opcode of an encoded instruction. -/
def Shape.before (f : Shape) (reg : BitVec 4) (rm : RegMem) : Lead :=
  { ext := (f.extensionBytes reg rm).head? }

theorem Shape.extensionBytes_cases (f : Shape) (reg : BitVec 4) (rm : RegMem) :
    f.extensionBytes reg rm = [extension f.wide reg.msb rm.indexHigh rm.baseHigh] ∨
    (f.extensionBytes reg rm = [] ∧
      extension f.wide reg.msb rm.indexHigh rm.baseHigh = 0x40 ∧
      (f.byte = true → needsExtension reg = false ∧
        ∀ r, rm = .reg r → needsExtension r.number = false)) := by
  simp only [Shape.extensionBytes]
  split_ifs with h
  · exact Or.inl rfl
  · have hext : extension f.wide reg.msb rm.indexHigh rm.baseHigh = 0x40 := by
      by_contra hne
      exact h (Or.inl hne)
    refine Or.inr ⟨rfl, hext, ?_⟩
    intro hbyte
    have hnamed := fun hn => h (Or.inr hn)
    cases rm with
    | mem m => simp_all
    | reg r => simp_all

theorem Shape.before_carries (f : Shape) (reg : BitVec 4) (rm : RegMem) :
    (f.before reg rm).Carries f reg rm := by
  obtain ⟨hw, hr, hx, hb, _⟩ := extension_bits f.wide reg.msb rm.indexHigh rm.baseHigh
  rcases f.extensionBytes_cases reg rm with h | ⟨h, hext, hbyte⟩
  · constructor <;> simp only [Shape.before, Lead.bit, Lead.namesLowByte, h, hw, hr, hx, hb,
      List.head?_cons, Option.map_some, Option.getD_some, Option.isSome_some, Bool.true_or,
      implies_true]
  · -- Without the byte all four bits are off, and no operand is a byte that needs it.
    obtain ⟨ew, er, ex, eb⟩ := (extension_eq_iff ..).mp hext
    constructor
    case lowReg =>
      intro hf
      simp [Shape.before, Lead.namesLowByte, h, (hbyte hf).1]
    case lowRm =>
      intro hf r hrm
      simp [Shape.before, Lead.namesLowByte, h, (hbyte hf).2 r hrm]
    all_goals simp [Shape.before, Lead.bit, h, ew, er, ex, eb]

theorem Shape.takeExtension_extensionBytes (hop : op.extractLsb' 4 4 ≠ 0x4#4) :
    takeExtension (f.extensionBytes reg rm ++ op :: rest) =
      ((f.before reg rm).ext, op :: rest) := by
  obtain ⟨_, _, _, _, hmark⟩ := extension_bits f.wide reg.msb rm.indexHigh rm.baseHigh
  rcases f.extensionBytes_cases reg rm with h | ⟨h, _⟩
  · simp [Shape.before, h, takeExtension, hmark]
  · simp [Shape.before, h, takeExtension, hop]

/-- Whether a byte may stand at the front of an instruction without a leading byte, and is no
    extension byte. -/
def startsOpcode (op : Byte) : Bool := op != 0x66 && op != 0xF3 && op.extractLsb' 4 4 != 0x4#4

theorem decode_extensionBytes (hop : startsOpcode op = true) :
    decode (f.extensionBytes reg rm ++ op :: rest) = decodeOpcode (f.before reg rm)
      (op :: rest) := by
  simp only [startsOpcode, Bool.and_eq_true, bne_iff_ne, ne_eq] at hop
  obtain ⟨⟨h66, hF3⟩, hmark⟩ := hop
  have htake : takeExtension (f.extensionBytes reg rm ++ op :: rest) = _ :=
    Shape.takeExtension_extensionBytes hmark
  obtain ⟨b, bytes, hb⟩ : ∃ b bytes, f.extensionBytes reg rm ++ op :: rest = b :: bytes :=
    List.exists_cons_of_ne_nil (by simp)
  have hfirst : b ≠ 0x66 ∧ b ≠ 0xF3 := by
    rcases f.extensionBytes_cases reg rm with h | ⟨h, _⟩
    · obtain ⟨_, _, _, _, he⟩ := extension_bits f.wide reg.msb rm.indexHigh rm.baseHigh
      rw [h] at hb
      obtain rfl : _ = b := (List.cons.inj hb).1
      constructor <;> intro hc <;> rw [hc] at he <;> exact absurd he (by decide)
    · rw [h] at hb
      obtain rfl : op = b := (List.cons.inj hb).1
      exact ⟨h66, hF3⟩
  rw [hb] at htake ⊢
  simp only [decode, hfirst.1, hfirst.2, ↓reduceIte, htake]

theorem decodeOpcode_one (hop : op ≠ 0x0F) :
    decodeOpcode l (op :: rest) = decodeOne l op rest := by
  unfold decodeOpcode
  split
  next heq => exact absurd (List.cons.inj heq).1 hop
  next heq =>
    obtain ⟨rfl, rfl⟩ := List.cons.inj heq
    rfl
  next heq => exact absurd heq (List.cons_ne_nil _ _)

/-! ## Section 5: Instructions with operands -/

theorem Shape.encode_append {lead ops : List Byte} (hlead : f.lead = lead)
    (hcode : f.opcode = op :: ops) : f.encode reg rm ++ rest =
      lead ++ (f.extensionBytes reg
        rm ++ op :: (ops ++ (rm.encode (reg.extractLsb' 0 3) ++ rest))) := by
  simp [Shape.encode, hlead, hcode]

theorem decode_one (hlead : f.lead = []) (hcode : f.opcode = [op]) (hop : startsOpcode op = true)
    (hone : op ≠ 0x0F) : decode (f.encode reg rm ++ rest) =
      decodeOne (f.before reg rm) op (rm.encode (reg.extractLsb' 0 3) ++ rest) := by
  rw [Shape.encode_append hlead hcode, List.nil_append, decode_extensionBytes hop,
    decodeOpcode_one hone]
  rfl

theorem decode_two (hlead : f.lead = []) (hcode : f.opcode = [0x0F, op]) :
    decode (f.encode reg rm ++ rest) =
      decodeTwo (f.before reg rm) op (rm.encode (reg.extractLsb' 0 3) ++ rest) := by
  rw [Shape.encode_append hlead hcode, List.nil_append, decode_extensionBytes (by decide)]
  rfl

theorem decode_lead66 {ops : List Byte} (hlead : f.lead = [0x66]) (hcode : f.opcode = op :: ops)
    (hop : op.extractLsb' 4 4 ≠ 0x4#4) : decode (f.encode reg rm ++ rest) =
      decode66 (f.before reg rm) (op :: ops ++ (rm.encode (reg.extractLsb' 0 3) ++ rest)) := by
  rw [Shape.encode_append hlead hcode, List.singleton_append]
  simp only [decode, ↓reduceIte, Shape.takeExtension_extensionBytes hop]
  rfl

theorem decode_leadF3 {ops : List Byte} (hlead : f.lead = [0xF3]) (hcode : f.opcode = op :: ops)
    (hop : op.extractLsb' 4 4 ≠ 0x4#4) : decode (f.encode reg rm ++ rest) =
      decodeF3 (f.before reg rm) (op :: ops ++ (rm.encode (reg.extractLsb' 0 3) ++ rest)) := by
  have hF3 : (0xF3 : Byte) ≠ 0x66 := by decide
  rw [Shape.encode_append hlead hcode, List.singleton_append]
  simp only [decode, hF3, ↓reduceIte, Shape.takeExtension_extensionBytes hop]
  rfl

@[simp] theorem takeOperands_before (hlow : reg.extractLsb' 0 3 = low) :
    takeOperands (f.before reg rm) (rm.encode low ++ rest) = some (reg, rm, rest) := by
  rw [← hlow]
  exact takeOperands_encode (f.before_carries reg rm)

@[simp] theorem takeRegReg_before (hlow : reg.extractLsb' 0 3 = low) :
    takeRegReg (f.before reg (.reg r)) ((RegMem.reg r).encode low ++ rest) =
      some (Reg.ofNumber reg, r, rest) := by
  simp [takeRegReg, hlow]

@[simp] theorem takeRegMem_before (hlow : reg.extractLsb' 0 3 = low) :
    takeRegMem (f.before reg (.mem m)) ((RegMem.mem m).encode low ++ rest) =
      some (reg, m, rest) := by
  simp [takeRegMem, hlow]

@[simp] theorem Shape.size_before :
    (f.before reg rm).size = if f.wide then .q else .d :=
  (f.before_carries reg rm).size

theorem Shape.namesLowByte_reg (hf : f.byte = true) :
    (f.before reg rm).namesLowByte reg = true :=
  (f.before_carries reg rm).lowReg hf

theorem Shape.namesLowByte_rm (hf : f.byte = true) :
    (f.before reg (.reg r)).namesLowByte r.number = true :=
  (f.before_carries reg (.reg r)).lowRm hf r rfl

end operands

@[simp] theorem Size.ite_wide (s : Size) : (if s.wide then Size.q else .d) = s := by
  cases s <;> rfl

theorem decodeOne_toMem (op : Alu) (l : Lead) (bytes : List Byte) :
    decodeOne l op.toMem bytes = (do
      let (src, dst, rest) ← takeRegReg l bytes
      return (.aluRR op l.size dst src, rest)) := by
  cases op <;> rfl

theorem decodeOne_ofMem (op : Alu) (l : Lead) (bytes : List Byte) :
    decodeOne l op.ofMem bytes = (do
      let (n, m, rest) ← takeRegMem l bytes
      if l.size = .d then return (.aluRM op (Reg.ofNumber n) m, rest) else none) := by
  cases op <;> rfl

/-- An operation with an immediate is read back, in its short and in its long form. -/
theorem decode_aluImm (op : Alu) (s : Size) (rm : RegMem) (imm : Cell) (rest : List Byte) :
    decode (aluImm op s rm imm ++ rest) =
      match rm with
      | .reg r => some (.aluRI op s r imm, rest)
      | .mem m => if s = .d then some (.aluMI op m imm, rest) else none := by
  unfold aluImm
  split
  next h =>
    rw [List.append_assoc, decode_one rfl rfl (by decide) (by decide)]
    cases rm <;> simp [decodeOne, decodeAluImm, takeSigned_byte h]
  next h =>
    rw [List.append_assoc, decode_one rfl rfl (by decide) (by decide)]
    cases rm <;> simp [decodeOne, decodeAluImm]

/-! ## Section 6: Instructions without operands -/

theorem regExtension_eq (wide : Bool) (r : Reg) :
    regExtension wide r =
      ({ wide, opcode := [] } : Shape).extensionBytes 0 (.reg r) := by
  cases wide <;> cases r <;> rfl

@[simp] theorem extractLsb'_withReg_high (h : BitVec 5) (r : Reg) :
    (withReg h r).extractLsb' 3 5 = h := by
  cases r <;> revert h <;> decide

@[simp] theorem extractLsb'_withReg_low (h : BitVec 5) (r : Reg) :
    (withReg h r).extractLsb' 0 3 = r.low := by
  cases r <;> revert h <;> decide

/-- An opcode that names a register, with its extension byte. -/
theorem decode_withReg (wide : Bool) {high : BitVec 5} {r : Reg}
    (hop : startsOpcode (withReg high r) = true) (hone : withReg high r ≠ 0x0F) {rest : List Byte} :
    decode (regExtension wide r ++ [withReg high r] ++ rest) =
      decodeOne (({ wide, opcode := [] } : Shape).before 0 (.reg r)) (withReg high r) rest := by
  rw [regExtension_eq, List.append_assoc, List.singleton_append, decode_extensionBytes hop,
    decodeOpcode_one hone]

@[simp] theorem Shape.ofNumber_before (f : Shape) (reg : BitVec 4) (r : Reg) :
    Reg.ofNumber ((f.before reg (.reg r)).number 0 r.low) = r :=
  Lead.ofNumber_number (f.before_carries reg (.reg r)).baseHigh

theorem decode_encode (i : Instr) (rest : List Byte) :
    decode (i.encode ++ rest) = some (i, rest) := by
  -- Cases are grouped by what leads the opcode and by what follows the operand byte.
  cases i
  case movRR | load | store | movsxd | lea | xchg | test | not | neg | incM | decM | idiv | div
      | shiftCl | jmpR | callR =>
    rw [Instr.encode, decode_one rfl rfl (by decide) (by decide)]
    simp [decodeOne]
  case loadByte | loadHalf | imulRR =>
    rw [Instr.encode, decode_two rfl rfl]
    simp [decodeTwo]
  case movzxByte | movsxByte =>
    rw [Instr.encode, decode_two rfl rfl]
    simp [decodeTwo, Shape.namesLowByte_rm]
  case store8 =>
    rw [Instr.encode, decode_one rfl rfl (by decide) (by decide)]
    simp [decodeOne, Shape.namesLowByte_reg]
  case storeImm | shiftImm =>
    rw [Instr.encode, List.append_assoc, decode_one rfl rfl (by decide) (by decide)]
    simp [decodeOne]
  case aluRR op s dst src =>
    rw [Instr.encode, decode_one rfl rfl (by cases op <;> decide) (by cases op <;> decide)]
    simp [decodeOne_toMem]
  case aluRM op dst src =>
    rw [Instr.encode, decode_one rfl rfl (by cases op <;> decide) (by cases op <;> decide)]
    simp [decodeOne_ofMem]
  case aluRI => simp [Instr.encode, decode_aluImm]
  case aluMI => simp [Instr.encode, decode_aluImm]
  case imulRRI dst src imm =>
    rw [Instr.encode]
    split
    next h =>
      rw [List.append_assoc, decode_one rfl rfl (by decide) (by decide)]
      simp [decodeOne, takeSigned_byte h]
    next h =>
      rw [List.append_assoc, decode_one rfl rfl (by decide) (by decide)]
      simp [decodeOne]
  case setcc c r =>
    rw [Instr.encode, decode_two rfl rfl]
    have hzero : (Reg.ofNumber 0#4).low = 0#3 := rfl
    simp [decodeTwo, Shape.namesLowByte_rm, hzero]
  case movdXR | movdRX | store16 =>
    rw [Instr.encode, decode_lead66 rfl rfl (by decide)]
    simp [decode66]
  case movss =>
    rw [Instr.encode, decode_leadF3 rfl rfl (by decide)]
    simp [decodeF3]
  case float op dst src =>
    rw [Instr.encode, decode_leadF3 rfl rfl (by decide)]
    have hop : op.opcode ≠ 0x10#8 := by cases op <;> decide
    simp [decodeF3, hop]
  case movRI64 r imm | movRI32 r imm =>
    rw [Instr.encode, List.append_assoc,
      decode_withReg _ (by cases r <;> decide) (by cases r <;> decide)]
    simp [decodeOne]
  case push r | pop r =>
    rw [Instr.encode, decode_withReg _ (by cases r <;> decide) (by cases r <;> decide)]
    simp [decodeOne]
  case cdq | cld | ret | int3 => rfl
  case repMovsb | repStosd | repeCmpsb => rfl
  case jmp rel | call rel =>
    simp [Instr.encode, decode, takeExtension, decodeOpcode_one, decodeOne]
  case jcc c rel => simp [Instr.encode, decode, takeExtension, decodeOpcode, decodeTwo]

theorem encode_ne_nil (i : Instr) : i.encode ≠ [] := by
  intro h
  have hread := decode_encode i []
  rw [h] at hread
  exact absurd hread (by simp [decode])

/-! ## Section 7: Lengths -/

theorem Mem.length_encode (reg : BitVec 3) (m : Mem) : (m.encode reg).length ≤ 6 := by
  have hdisp : m.dispBytes.length ≤ 4 := by
    unfold Mem.dispBytes
    split
    · simp
    · split <;> simp [Cell.bytes]
  unfold Mem.encode
  rw [List.length_append]
  split
  · split <;> simp <;> omega
  · simp; omega

theorem Shape.length_encode (f : Shape) (reg : BitVec 4) (rm : RegMem) :
    (f.encode reg rm).length ≤ f.lead.length + f.opcode.length + 7 := by
  have hext : (f.extensionBytes reg rm).length ≤ 1 := by
    rcases f.extensionBytes_cases reg rm with h | ⟨h, _⟩ <;> simp [h]
  have hrm : (rm.encode (reg.extractLsb' 0 3)).length ≤ 6 := by
    cases rm with
    | reg r => simp [RegMem.encode]
    | mem m => exact m.length_encode _
  simp only [Shape.encode, List.length_append]
  omega

theorem Shape.length_encode_append (f : Shape) (reg : BitVec 4) (rm : RegMem) {imm : List Byte}
    (h : f.lead.length + f.opcode.length + imm.length ≤ 8) :
    (f.encode reg rm ++ imm).length ≤ 15 := by
  have := f.length_encode reg rm
  rw [List.length_append]
  omega

theorem length_regExtension (wide : Bool) (r : Reg) : (regExtension wide r).length ≤ 1 := by
  unfold regExtension
  split <;> simp

theorem length_aluImm (op : Alu) (s : Size) (rm : RegMem) (imm : Cell) :
    (aluImm op s rm imm).length ≤ 15 := by
  unfold aluImm
  split
  · exact Shape.length_encode_append _ _ _ (by simp)
  · exact Shape.length_encode_append _ _ _ (by simp [Cell.bytes])

theorem length_encode (i : Instr) : i.encode.length ≤ 15 := by
  cases i
  case storeImm | shiftImm =>
    exact Shape.length_encode_append _ _ _ (by simp [Cell.bytes])
  case aluRI | aluMI => exact length_aluImm ..
  case imulRRI =>
    rw [Instr.encode]
    split
    · exact Shape.length_encode_append _ _ _ (by simp)
    · exact Shape.length_encode_append _ _ _ (by simp [Cell.bytes])
  case movRI64 r imm | movRI32 r imm =>
    have hwide := length_regExtension true r
    have hnarrow := length_regExtension false r
    simp only [Instr.encode, Word.bytes, Cell.bytes, List.length_append, List.length_cons,
      List.length_nil]
    omega
  case push r | pop r =>
    have hnarrow := length_regExtension false r
    simp only [Instr.encode, List.length_append, List.length_cons, List.length_nil]
    omega
  case cdq | cld | ret | int3 | repMovsb | repStosd | repeCmpsb => simp [Instr.encode]
  case jmp | jcc | call => simp [Instr.encode, Cell.bytes]
  all_goals exact Nat.le_trans (Shape.length_encode ..) (by simp)

/-! ## Section 8: Sequences of instructions -/

theorem decodeAll_go_flatMap (is : List Instr) {n : Nat} (h : is.length ≤ n) :
    decodeAll.go n (is.flatMap Instr.encode) = some is := by
  induction is generalizing n with
  | nil => cases n <;> rfl
  | cons i is ih =>
    obtain ⟨n, rfl⟩ : ∃ k, n = k + 1 := ⟨n - 1, by simp at h; omega⟩
    obtain ⟨b, bytes, hb⟩ := List.exists_cons_of_ne_nil (encode_ne_nil i)
    have hdecode := decode_encode i (is.flatMap Instr.encode)
    rw [hb, List.cons_append] at hdecode
    rw [List.flatMap_cons, hb, List.cons_append, decodeAll.go, hdecode]
    · simp [ih (by simpa using h)]
    · exact List.cons_ne_nil _ _

/-- The instructions of a piece of code are read back, one after the other. -/
theorem decodeAll_flatMap_encode (is : List Instr) :
    decodeAll (is.flatMap Instr.encode) = some is := by
  apply decodeAll_go_flatMap
  induction is with
  | nil => simp
  | cons i is ih =>
    have hpos := List.length_pos_iff.mpr (encode_ne_nil i)
    simp only [List.flatMap_cons, List.length_append, List.length_cons]
    omega

end PawnNative.X64

namespace PawnNative

open X64

/-! ## Section 9: Code buffers -/

/-- What can be appended to a code buffer: an instruction, or a branch to a label. -/
inductive Emission where
  | instr (i : Instr)
  | jmp (l : Label)
  | jcc (c : Cond) (l : Label)
  | call (l : Label)
  deriving DecidableEq, Repr

namespace Emission

/-- The instruction that the appended bytes are. The distance of a branch is still zero. -/
def reading : Emission → Instr
  | .instr i => i
  | .jmp _ => .jmp 0
  | .jcc c _ => .jcc c 0
  | .call _ => .call 0

/-- Where the appended bytes, from `offset` on, wait for the distance to a label: in the last
    four bytes of a branch. -/
def references (e : Emission) (offset : Nat) : List Reference :=
  match e with
  | .instr _ => []
  | .jmp l | .jcc _ l | .call l => [⟨offset + e.reading.encode.length - 4, l⟩]

end Emission

def CodeBuffer.append (b : CodeBuffer) : Emission → CodeBuffer
  | .instr i => b.instr i
  | .jmp l => b.jmp l
  | .jcc c l => b.jcc c l
  | .call l => b.call l

theorem CodeBuffer.code_append (b : CodeBuffer) (e : Emission) :
    (b.append e).code = b.code ++ e.reading.encode := by
  cases e <;> simp [append, instr, jmp, jcc, call, emit, reference, Emission.reading, Instr.encode]

theorem CodeBuffer.refs_append (b : CodeBuffer) (e : Emission) :
    (b.append e).refs = b.refs ++ e.references b.offset := by
  cases e <;> simp [append, instr, jmp, jcc, call, emit, reference, Emission.references,
    Emission.reading, Instr.encode, Cell.bytes, offset]

theorem CodeBuffer.code_foldl_append (b : CodeBuffer) (es : List Emission) :
    (es.foldl CodeBuffer.append b).code =
      b.code ++ (es.map Emission.reading).flatMap Instr.encode := by
  induction es generalizing b with
  | nil => simp
  | cons e es ih =>
    apply Array.ext'
    simp [ih, code_append]

/-- **Encoded instructions are read back.** Whatever is appended to a code buffer, and whatever
    follows it, the decoder reads the appended bytes as that instruction with its operands and
    takes exactly these bytes; a branch has its label noted for its last four bytes. So the bytes
    of any sequence of instructions and branches are read as that sequence. -/
theorem appended_code_decodes (b : CodeBuffer) :
    (∀ e : Emission, ∃ bytes : List Byte, (b.append e).code = b.code ++ bytes ∧
      (∀ rest, decode (bytes ++ rest) = some (e.reading, rest)) ∧
      (b.append e).refs = b.refs ++ e.references b.offset) ∧
    (∀ es : List Emission, ∃ bytes : List Byte,
      (es.foldl CodeBuffer.append b).code = b.code ++ bytes ∧
      decodeAll bytes = some (es.map Emission.reading)) := by
  constructor
  · intro e
    exact ⟨e.reading.encode, b.code_append e, decode_encode e.reading, b.refs_append e⟩
  · intro es
    exact ⟨_, b.code_foldl_append es, decodeAll_flatMap_encode _⟩

end PawnNative
