import PawnNative.Cell

/-! # The register file

    The eight registers of the abstract machine. All addresses in them count
    from the start of the data segment. The register file lives in memory, eight
    cells in the order of the fields, so compiled code reaches a register at four
    times its number.
-/

namespace PawnNative

structure Registers where
  /-- Primary register. -/
  pri : Cell := 0
  /-- Alternate register. -/
  alt : Cell := 0
  /-- Frame of the running function. -/
  frm : Cell := 0
  /-- Top of the stack, which grows down. -/
  stk : Cell := 0
  /-- Top of the heap, which grows up. -/
  hea : Cell := 0
  /-- Bottom of the heap. -/
  hlw : Cell := 0
  /-- Bottom of the stack. -/
  stp : Cell := 0
  /-- Entry point of the program. -/
  cip : Cell := 0
  deriving DecidableEq, Repr, Inhabited

inductive RegisterName where
  | pri | alt | frm | stk | hea | hlw | stp | cip
  deriving DecidableEq, Repr

namespace RegisterName

/-- The registers in the order of the register file. -/
def all : List RegisterName := [.pri, .alt, .frm, .stk, .hea, .hlw, .stp, .cip]

def ofNumber? (n : Nat) : Option RegisterName := all[n]?

def number : RegisterName → Nat
  | .pri => 0
  | .alt => 1
  | .frm => 2
  | .stk => 3
  | .hea => 4
  | .hlw => 5
  | .stp => 6
  | .cip => 7

/-- The offset of a register in the register file. -/
def offset (r : RegisterName) : Nat := 4 * r.number

@[simp] theorem ofNumber?_number (r : RegisterName) : ofNumber? r.number = some r := by
  cases r <;> rfl

end RegisterName

namespace Registers

def get (r : Registers) : RegisterName → Cell
  | .pri => r.pri
  | .alt => r.alt
  | .frm => r.frm
  | .stk => r.stk
  | .hea => r.hea
  | .hlw => r.hlw
  | .stp => r.stp
  | .cip => r.cip

def set (r : Registers) (name : RegisterName) (v : Cell) : Registers :=
  match name with
  | .pri => { r with pri := v }
  | .alt => { r with alt := v }
  | .frm => { r with frm := v }
  | .stk => { r with stk := v }
  | .hea => { r with hea := v }
  | .hlw => { r with hlw := v }
  | .stp => { r with stp := v }
  | .cip => { r with cip := v }

def toList (r : Registers) : List Cell := RegisterName.all.map r.get

@[simp] theorem get_set_self (r : Registers) (n : RegisterName) (v : Cell) :
    (r.set n v).get n = v := by
  cases n <;> rfl

@[simp] theorem get_set_ne (r : Registers) {m n : RegisterName} (v : Cell) (h : m ≠ n) :
    (r.set n v).get m = r.get m := by
  cases n <;> cases m <;> first | rfl | exact absurd rfl h

end Registers

end PawnNative
