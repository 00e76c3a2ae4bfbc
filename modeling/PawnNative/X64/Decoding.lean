import PawnNative.X64.Encoding

/-! # Decoding

    Reads one instruction from a list of bytes by the rules of the architecture
    and gives the bytes that follow it. Bytes that are no instruction of this
    subset have no reading.
-/

namespace PawnNative.X64

/-- What stands before an opcode. -/
structure Lead where
  /-- The extension byte. -/
  ext : Option Byte := none

namespace Lead

/-- A bit of the extension byte, off if there is none. -/
def bit (l : Lead) (i : Nat) : Bool := (l.ext.map fun e => e.getLsbD i).getD false

/-- The operand size. -/
def size (l : Lead) : Size := if l.bit 3 then .q else .d

/-- A register number from an extension bit and three bits. -/
def number (l : Lead) (i : Nat) (low : BitVec 3) : BitVec 4 :=
  (BitVec.ofBool (l.bit i) ++ low : BitVec 4)

/-- Whether a number names a low byte. Without an extension byte the numbers 4 to 7 name
    the second byte of another register. -/
def namesLowByte (l : Lead) (n : BitVec 4) : Bool := l.ext.isSome || !needsExtension n

end Lead

/-- A cell at the front of a list. -/
def takeCell : List Byte → Option (Cell × List Byte)
  | b0 :: b1 :: b2 :: b3 :: rest => some (Cell.ofBytes b0 b1 b2 b3, rest)
  | _ => none

/-- A byte at the front of a list, extended by its sign. -/
def takeSigned : List Byte → Option (Cell × List Byte)
  | b :: rest => some (b.signExtend 32, rest)
  | [] => none

/-- A word at the front of a list. -/
def takeWord (bytes : List Byte) : Option (Word × List Byte) := do
  let (low, rest) ← takeCell bytes
  let (high, rest) ← takeCell rest
  return (high ++ low, rest)

/-- The displacement that a mode asks for. -/
def takeDisp (mode : BitVec 2) (bytes : List Byte) : Option (Cell × List Byte) :=
  if mode = 0 then some (0, bytes)
  else if mode = 1 then takeSigned bytes
  else takeCell bytes

/-- The index register with this number; the number of the stack pointer means none. -/
def indexOf (n : BitVec 4) (scale : Scale) : Option Index :=
  let r := Reg.ofNumber n
  if h : r ≠ .rsp then some ⟨r, scale, h⟩ else none

/-- An operand byte with what follows it: the number of the register operand, and the other
    operand. -/
def takeOperands (l : Lead) : List Byte → Option (BitVec 4 × RegMem × List Byte)
  | [] => none
  | b :: rest =>
    let mode := b.extractLsb' 6 2
    let reg := l.number 2 (b.extractLsb' 3 3)
    let low := b.extractLsb' 0 3
    if mode = 3 then some (reg, .reg (Reg.ofNumber (l.number 0 low)), rest)
    else if low = 0b100 then
      match rest with
      | [] => none
      | s :: rest =>
        let baseLow := s.extractLsb' 0 3
        if mode = 0 ∧ baseLow = 0b101 then none
        else do
          let (disp, rest) ← takeDisp mode rest
          let index := indexOf (l.number 1 (s.extractLsb' 3 3)) (Scale.ofBits (s.extractLsb' 6 2))
          return (reg, .mem { base := Reg.ofNumber (l.number 0 baseLow), index, disp }, rest)
    else if mode = 0 ∧ low = 0b101 then none
    else do
      let (disp, rest) ← takeDisp mode rest
      return (reg, .mem { base := Reg.ofNumber (l.number 0 low), disp }, rest)

/-- Operands of which the second is a register. -/
def takeRegReg (l : Lead) (bytes : List Byte) : Option (Reg × Reg × List Byte) := do
  match ← takeOperands l bytes with
  | (n, .reg r, rest) => return (Reg.ofNumber n, r, rest)
  | _ => none

/-- Operands of which the second is in memory. -/
def takeRegMem (l : Lead) (bytes : List Byte) : Option (BitVec 4 × Mem × List Byte) := do
  match ← takeOperands l bytes with
  | (n, .mem m, rest) => return (n, m, rest)
  | _ => none

/-- The first group: an operation with an immediate. -/
def decodeAluImm (l : Lead) (short : Bool) (bytes : List Byte) : Option (Instr × List Byte) := do
  let (n, rm, rest) ← takeOperands l bytes
  let op ← Alu.ofNumber? (n.extractLsb' 0 3)
  let (imm, rest) ← if short then takeSigned rest else takeCell rest
  match rm with
  | .reg r => return (.aluRI op l.size r imm, rest)
  | .mem m => if l.size = .d then return (.aluMI op m imm, rest) else none

/-- An opcode of one byte. -/
def decodeOne (l : Lead) (op : Byte) (bytes : List Byte) : Option (Instr × List Byte) :=
  if op.extractLsb' 3 5 = 0b10111#5 then do
    let r := Reg.ofNumber (l.number 0 (op.extractLsb' 0 3))
    if l.size = .q then
      let (imm, rest) ← takeWord bytes
      return (.movRI64 r imm, rest)
    else
      let (imm, rest) ← takeCell bytes
      return (.movRI32 r imm, rest)
  else if op.extractLsb' 3 5 = 0b01010#5 then
    some (.push (Reg.ofNumber (l.number 0 (op.extractLsb' 0 3))), bytes)
  else if op.extractLsb' 3 5 = 0b01011#5 then
    some (.pop (Reg.ofNumber (l.number 0 (op.extractLsb' 0 3))), bytes)
  else if op = 0x89 then do
    match ← takeOperands l bytes with
    | (n, .reg r, rest) => return (.movRR l.size r (Reg.ofNumber n), rest)
    | (n, .mem m, rest) => return (.store l.size m (Reg.ofNumber n), rest)
  else if op = 0x8B then do
    let (n, m, rest) ← takeRegMem l bytes
    return (.load l.size (Reg.ofNumber n) m, rest)
  else if op = 0x88 then do
    let (n, m, rest) ← takeRegMem l bytes
    if l.namesLowByte n then return (.store8 m (Reg.ofNumber n), rest) else none
  else if op = 0xC7 then do
    let (n, m, rest) ← takeRegMem l bytes
    let (imm, rest) ← takeCell rest
    if n.extractLsb' 0 3 = 0#3 ∧ l.size = .d then return (.storeImm m imm, rest) else none
  else if op = 0x63 then do
    let (a, b, rest) ← takeRegReg l bytes
    if l.size = .q then return (.movsxd a b, rest) else none
  else if op = 0x8D then do
    let (n, m, rest) ← takeRegMem l bytes
    return (.lea l.size (Reg.ofNumber n) m, rest)
  else if op = 0x87 then do
    let (a, b, rest) ← takeRegReg l bytes
    if l.size = .d then return (.xchg a b, rest) else none
  else if op = 0x85 then do
    let (b, a, rest) ← takeRegReg l bytes
    return (.test l.size a b, rest)
  else if op = 0x83 then decodeAluImm l true bytes
  else if op = 0x81 then decodeAluImm l false bytes
  else if op = 0xF7 then do
    let (n, rm, rest) ← takeOperands l bytes
    match rm with
    | .mem _ => none
    | .reg r =>
      if l.size = .q then none
      else if n.extractLsb' 0 3 = 2#3 then return (.not r, rest)
      else if n.extractLsb' 0 3 = 3#3 then return (.neg r, rest)
      else if n.extractLsb' 0 3 = 6#3 then return (.div r, rest)
      else if n.extractLsb' 0 3 = 7#3 then return (.idiv r, rest)
      else none
  else if op = 0xFF then do
    let (n, rm, rest) ← takeOperands l bytes
    match rm with
    | .mem m =>
      if l.size = .q then none
      else if n.extractLsb' 0 3 = 0#3 then return (.incM m, rest)
      else if n.extractLsb' 0 3 = 1#3 then return (.decM m, rest)
      else none
    | .reg r =>
      if n.extractLsb' 0 3 = 2#3 then return (.callR r, rest)
      else if n.extractLsb' 0 3 = 4#3 then return (.jmpR r, rest)
      else none
  else if op = 0x6B then do
    let (a, b, rest) ← takeRegReg l bytes
    let (imm, rest) ← takeSigned rest
    if l.size = .d then return (.imulRRI a b imm, rest) else none
  else if op = 0x69 then do
    let (a, b, rest) ← takeRegReg l bytes
    let (imm, rest) ← takeCell rest
    if l.size = .d then return (.imulRRI a b imm, rest) else none
  else if op = 0xD3 then do
    let (n, rm, rest) ← takeOperands l bytes
    let shift ← Shift.ofNumber? (n.extractLsb' 0 3)
    match rm with
    | .reg r => if l.size = .d then return (.shiftCl shift r, rest) else none
    | .mem _ => none
  else if op = 0xC1 then do
    let (n, rm, rest) ← takeOperands l bytes
    let shift ← Shift.ofNumber? (n.extractLsb' 0 3)
    match rm, rest with
    | .reg r, count :: rest => if l.size = .d then return (.shiftImm shift r count, rest) else none
    | _, _ => none
  else if op = 0x99 then some (.cdq, bytes)
  else if op = 0xFC then some (.cld, bytes)
  else if op = 0xC3 then some (.ret, bytes)
  else if op = 0xCC then some (.int3, bytes)
  else if op = 0xE9 then do
    let (rel, rest) ← takeCell bytes
    return (.jmp rel, rest)
  else if op = 0xE8 then do
    let (rel, rest) ← takeCell bytes
    return (.call rel, rest)
  else if op.extractLsb' 6 2 = 0#2 ∧ op.extractLsb' 0 3 = 0b001#3 then do
    let alu ← Alu.ofNumber? (op.extractLsb' 3 3)
    let (src, dst, rest) ← takeRegReg l bytes
    return (.aluRR alu l.size dst src, rest)
  else if op.extractLsb' 6 2 = 0#2 ∧ op.extractLsb' 0 3 = 0b011#3 then do
    let alu ← Alu.ofNumber? (op.extractLsb' 3 3)
    let (n, m, rest) ← takeRegMem l bytes
    if l.size = .d then return (.aluRM alu (Reg.ofNumber n) m, rest) else none
  else none

/-- An opcode of two bytes, without a leading byte. -/
def decodeTwo (l : Lead) (op : Byte) (bytes : List Byte) : Option (Instr × List Byte) :=
  if op.extractLsb' 4 4 = 0x8#4 then do
    let (rel, rest) ← takeCell bytes
    return (.jcc (Cond.ofNumber (op.extractLsb' 0 4)) rel, rest)
  else if op.extractLsb' 4 4 = 0x9#4 then do
    let (n, r, rest) ← takeRegReg l bytes
    if n.low = 0#3 ∧ l.namesLowByte r.number then
      return (.setcc (Cond.ofNumber (op.extractLsb' 0 4)) r, rest)
    else none
  else if l.size = .q then none
  else if op = 0xB6 then do
    match ← takeOperands l bytes with
    | (n, .mem m, rest) => return (.loadByte (Reg.ofNumber n) m, rest)
    | (n, .reg r, rest) =>
      if l.namesLowByte r.number then return (.movzxByte (Reg.ofNumber n) r, rest) else none
  else if op = 0xB7 then do
    let (n, m, rest) ← takeRegMem l bytes
    return (.loadHalf (Reg.ofNumber n) m, rest)
  else if op = 0xBE then do
    let (a, b, rest) ← takeRegReg l bytes
    if l.namesLowByte b.number then return (.movsxByte a b, rest) else none
  else if op = 0xAF then do
    let (a, b, rest) ← takeRegReg l bytes
    return (.imulRR a b, rest)
  else none

/-- An instruction after the leading byte 66. -/
def decode66 (l : Lead) : List Byte → Option (Instr × List Byte)
  | 0x0F#8 :: op :: bytes =>
    if op = 0x6E then do
      let (n, rm, rest) ← takeOperands l bytes
      match rm with
      | .reg r => if l.size = .d then return (.movdXR n r, rest) else none
      | .mem _ => none
    else if op = 0x7E then do
      let (n, rm, rest) ← takeOperands l bytes
      match rm with
      | .reg r => if l.size = .d then return (.movdRX r n, rest) else none
      | .mem _ => none
    else none
  | 0x89#8 :: bytes => do
    let (n, m, rest) ← takeRegMem l bytes
    if l.size = .d then return (.store16 m (Reg.ofNumber n), rest) else none
  | _ => none

/-- An instruction after the leading byte F3. -/
def decodeF3 (l : Lead) : List Byte → Option (Instr × List Byte)
  | 0x0F#8 :: op :: bytes => do
    let (n, m, rest) ← takeRegMem l bytes
    if l.size = .q then none
    else if op = 0x10 then return (.movss n m, rest)
    else
      let f ← FloatOp.ofOpcode? op
      return (.float f n m, rest)
  | 0xA4#8 :: rest => some (.repMovsb, rest)
  | 0xAB#8 :: rest => some (.repStosd, rest)
  | 0xA6#8 :: rest => some (.repeCmpsb, rest)
  | _ => none

/-- An extension byte at the front of a list. -/
def takeExtension : List Byte → Option Byte × List Byte
  | b :: rest => if b.extractLsb' 4 4 = 0x4#4 then (some b, rest) else (none, b :: rest)
  | [] => (none, [])

/-- An instruction without a leading byte, from its opcode on. -/
def decodeOpcode (l : Lead) : List Byte → Option (Instr × List Byte)
  | 0x0F#8 :: op :: rest => decodeTwo l op rest
  | op :: rest => decodeOne l op rest
  | [] => none

/-- The instruction at the front of a list, and the bytes after it. -/
def decode (bytes : List Byte) : Option (Instr × List Byte) :=
  match bytes with
  | [] => none
  | b :: rest =>
    if b = 0x66 then
      let (ext, rest) := takeExtension rest
      decode66 { ext } rest
    else if b = 0xF3 then
      let (ext, rest) := takeExtension rest
      decodeF3 { ext } rest
    else
      let (ext, rest) := takeExtension (b :: rest)
      decodeOpcode { ext } rest

/-- The instructions of a list of bytes, if it is a sequence of instructions. -/
def decodeAll (bytes : List Byte) : Option (List Instr) := go bytes.length bytes
where
  go : Nat → List Byte → Option (List Instr)
    | _, [] => some []
    | 0, _ :: _ => none
    | n + 1, bytes => do
      let (i, rest) ← decode bytes
      return i :: (← go n rest)

end PawnNative.X64
