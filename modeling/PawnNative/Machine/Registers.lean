import PawnNative.X64.Instr

/-! # Processor registers

    The sixteen general registers, and the low lane of the sixteen vector
    registers, which is the part that single-precision instructions use.
-/

namespace PawnNative.X64

structure RegFile where
  rax : Word := 0
  rcx : Word := 0
  rdx : Word := 0
  rbx : Word := 0
  rsp : Word := 0
  rbp : Word := 0
  rsi : Word := 0
  rdi : Word := 0
  r8 : Word := 0
  r9 : Word := 0
  r10 : Word := 0
  r11 : Word := 0
  r12 : Word := 0
  r13 : Word := 0
  r14 : Word := 0
  r15 : Word := 0
  deriving DecidableEq, Repr, Inhabited

namespace RegFile

def get (f : RegFile) : Reg → Word
  | .rax => f.rax
  | .rcx => f.rcx
  | .rdx => f.rdx
  | .rbx => f.rbx
  | .rsp => f.rsp
  | .rbp => f.rbp
  | .rsi => f.rsi
  | .rdi => f.rdi
  | .r8 => f.r8
  | .r9 => f.r9
  | .r10 => f.r10
  | .r11 => f.r11
  | .r12 => f.r12
  | .r13 => f.r13
  | .r14 => f.r14
  | .r15 => f.r15

def set (f : RegFile) (r : Reg) (v : Word) : RegFile :=
  match r with
  | .rax => { f with rax := v }
  | .rcx => { f with rcx := v }
  | .rdx => { f with rdx := v }
  | .rbx => { f with rbx := v }
  | .rsp => { f with rsp := v }
  | .rbp => { f with rbp := v }
  | .rsi => { f with rsi := v }
  | .rdi => { f with rdi := v }
  | .r8 => { f with r8 := v }
  | .r9 => { f with r9 := v }
  | .r10 => { f with r10 := v }
  | .r11 => { f with r11 := v }
  | .r12 => { f with r12 := v }
  | .r13 => { f with r13 := v }
  | .r14 => { f with r14 := v }
  | .r15 => { f with r15 := v }

def ofFn (v : Reg → Word) : RegFile where
  rax := v .rax
  rcx := v .rcx
  rdx := v .rdx
  rbx := v .rbx
  rsp := v .rsp
  rbp := v .rbp
  rsi := v .rsi
  rdi := v .rdi
  r8 := v .r8
  r9 := v .r9
  r10 := v .r10
  r11 := v .r11
  r12 := v .r12
  r13 := v .r13
  r14 := v .r14
  r15 := v .r15

@[simp] theorem get_set_self (f : RegFile) (r : Reg) (v : Word) : (f.set r v).get r = v := by
  cases r <;> rfl

@[simp] theorem get_set_ne (f : RegFile) {r s : Reg} (v : Word) (h : s ≠ r) :
    (f.set r v).get s = f.get s := by
  cases r <;> cases s <;> first | rfl | exact absurd rfl h

end RegFile

/-- The low lanes of the vector registers. -/
structure XmmFile where
  lanes : Vector Cell 16 := Vector.replicate 16 0

namespace XmmFile

def get (f : XmmFile) (x : Xmm) : Cell :=
  have := x.isLt
  f.lanes[x.toNat]

def set (f : XmmFile) (x : Xmm) (v : Cell) : XmmFile :=
  have := x.isLt
  ⟨f.lanes.set x.toNat v⟩

@[simp] theorem get_set_self (f : XmmFile) (x : Xmm) (v : Cell) : (f.set x v).get x = v := by
  simp [get, set]

@[simp] theorem get_set_ne (f : XmmFile) {x y : Xmm} (v : Cell) (h : y ≠ x) :
    (f.set x v).get y = f.get y := by
  have hn : x.toNat ≠ y.toNat := fun e => h (BitVec.eq_of_toNat_eq e.symm)
  simp [get, set, Vector.getElem_set_ne, hn]

end XmmFile

end PawnNative.X64
