import Mathlib.Tactic.Common
import PawnNative.Compile.Convention
import PawnNative.Proofs.Memory

/-! # The native stack while programs run

    On the native stack everything is a word: return addresses, saved registers,
    the fields of a record except the last two. Words are numbered from the top of
    the stack down, so a push writes the next number, and what a deeper activation
    writes has larger numbers than what it has to leave alone.

    That an address is a place on the native stack, and no place in the image block
    or the register file, is a matter of the layout. `Layout.Separate` says that no
    address lies in two regions, and that the code lies apart from the addresses
    that mean something else: those of the helpers, and the one where the host goes
    on.
-/

namespace PawnNative

open X64 Convention

/-! ## Section 1: Words -/

namespace NativeStack

variable (s : NativeStack) {i j k : Nat}

/-- The word with this number; the cell with the larger index is its low half. -/
def word (j : Nat) : Word := s.get (2 * j) ++ s.get (2 * j + 1)

def setWord (j : Nat) (v : Word) : NativeStack :=
  (s.set (2 * j) (v.extractLsb' 32 32)).set (2 * j + 1) (v.extractLsb' 0 32)

theorem get_setWord_ne (v : Word) (hlow : i ≠ 2 * j + 1) (hhigh : i ≠ 2 * j) :
    (s.setWord j v).get i = s.get i := by
  rw [setWord, get_set_ne _ _ hlow, get_set_ne _ _ hhigh]

@[simp] theorem word_setWord_self (j : Nat) (v : Word) : (s.setWord j v).word j = v := by
  have hhigh : (s.setWord j v).get (2 * j) = v.extractLsb' 32 32 := by
    rw [setWord, get_set_ne _ _ (by omega), get_set_self]
  have hlow : (s.setWord j v).get (2 * j + 1) = v.extractLsb' 0 32 := by
    rw [setWord, get_set_self]
  rw [word, hhigh, hlow]
  apply BitVec.eq_of_getLsbD_eq
  intro n hn
  rw [BitVec.getLsbD_append]
  by_cases hhalf : n < 32
  · simp [hhalf]
  · simp [hhalf, show 32 + (n - 32) = n by omega, show n - 32 < 32 by omega]

theorem word_setWord_ne (v : Word) (h : k ≠ j) : (s.setWord j v).word k = s.word k := by
  rw [word, get_setWord_ne _ _ (by omega) (by omega), get_setWord_ne _ _ (by omega) (by omega)]
  rfl

theorem word_set_ne (v : Cell) (h : k ≠ i / 2) : (s.set i v).word k = s.word k := by
  rw [word, get_set_ne _ _ (by omega), get_set_ne _ _ (by omega)]
  rfl

/-- These words stand one after the other, the first with number `base`. -/
def Holds (base : Nat) (ws : List Word) : Prop :=
  ∀ i (h : i < ws.length), s.word (base + i) = ws[i]

variable {s} {base : Nat} {ws : List Word} {w : Word}

theorem Holds.head (h : s.Holds base (w :: ws)) : s.word base = w := h 0 (Nat.succ_pos _)

theorem Holds.tail (h : s.Holds base (w :: ws)) : s.Holds (base + 1) ws := by
  intro i hi
  have hword := h (i + 1) (Nat.succ_lt_succ hi)
  rw [← Nat.add_assoc, Nat.add_right_comm] at hword
  exact hword

theorem Holds.cons (hw : s.word base = w) (h : s.Holds (base + 1) ws) : s.Holds base (w :: ws) := by
  intro i hi
  cases i with
  | zero => exact hw
  | succ i =>
    have hword := h i (Nat.lt_of_succ_lt_succ hi)
    rwa [Nat.add_right_comm] at hword

theorem Holds.setWord (h : s.Holds base ws) (v : Word) (hj : j < base ∨ base + ws.length ≤ j) :
    (s.setWord j v).Holds base ws := by
  intro i hi
  rw [word_setWord_ne _ _ (by omega)]
  exact h i hi

theorem Holds.drop {ws' : List Word} (h : s.Holds base (ws ++ ws')) :
    s.Holds (base + ws.length) ws' := by
  intro i hi
  have hword := h (ws.length + i) (by rw [List.length_append]; omega)
  rw [List.getElem_append_right (by omega)] at hword
  rw [Nat.add_assoc, hword]
  congr 1
  omega

theorem Holds.concat (h : s.Holds base ws) (hw : s.word (base + ws.length) = w) :
    s.Holds base (ws ++ [w]) := by
  intro i hi
  rw [List.length_append, List.length_singleton] at hi
  by_cases hlast : i < ws.length
  · rw [List.getElem_append_left hlast]
    exact h i hlast
  · obtain rfl : i = ws.length := by omega
    rw [hw, List.getElem_concat_length rfl]

theorem Holds.init (h : s.Holds base (ws ++ [w])) : s.Holds base ws := by
  intro i hi
  rw [h i (by rw [List.length_append]; omega), List.getElem_append_left hi]

theorem Holds.last (h : s.Holds base (ws ++ [w])) : s.word (base + ws.length) = w := by
  rw [h ws.length (by simp), List.getElem_concat_length rfl]

/-- The first words are the same. -/
def Agrees (n : Nat) (s s' : NativeStack) : Prop := ∀ i, i < 2 * n → s'.get i = s.get i

variable {n n' : Nat} {s' s'' : NativeStack}

theorem Agrees.refl (n : Nat) (s : NativeStack) : Agrees n s s := fun _ _ => rfl

theorem Agrees.trans (h : Agrees n s s') (h' : Agrees n s' s'') : Agrees n s s'' := by
  intro i hi
  rw [h' i hi, h i hi]

theorem Agrees.mono (h : Agrees n s s') (hn : n' ≤ n) : Agrees n' s s' :=
  fun i hi => h i (by omega)

theorem Agrees.word (h : Agrees n s s') (hj : j < n) : s'.word j = s.word j := by
  rw [NativeStack.word, h _ (by omega), h _ (by omega)]
  rfl

theorem Agrees.holds (h : Agrees n s s') (hs : s.Holds base ws) (hn : base + ws.length ≤ n) :
    s'.Holds base ws := by
  intro i hi
  rw [h.word (by omega)]
  exact hs i hi

theorem agrees_setWord (s : NativeStack) (v : Word) (hj : n ≤ j) : Agrees n s (s.setWord j v) := by
  intro k hk
  exact get_setWord_ne _ _ (by omega) (by omega)

end NativeStack

/-! ## Section 2: Regions that lie apart -/

/-- Clearing the lowest four bits rounds down to a multiple of 16. -/
theorem Word.and_not_15 (a : Word) : a &&& ~~~ 15 = BitVec.ofNat 64 (a.toNat / 16 * 16) := by
  have hshift : a &&& (~~~ 15 : Word) = (a >>> 4) <<< 4 := by
    apply BitVec.eq_of_getLsbD_eq
    intro i hi
    have hmask : (15 : Word).getLsbD i = decide (i < 4) := by
      rw [show (15 : Word) = BitVec.ofNat 64 (2 ^ 4 - 1) from rfl, BitVec.getLsbD_ofNat,
        Nat.testBit_two_pow_sub_one]
      simp [hi]
    rw [BitVec.getLsbD_and, BitVec.getLsbD_not, hmask, BitVec.getLsbD_shiftLeft,
      BitVec.getLsbD_ushiftRight]
    by_cases hlow : i < 4
    · simp [hlow]
    · simp [hlow, hi, show 4 + (i - 4) = i by omega]
  rw [hshift]
  apply BitVec.eq_of_toNat_eq
  rw [BitVec.toNat_shiftLeft, BitVec.toNat_ushiftRight, Nat.shiftRight_eq_div_pow, Nat.shiftLeft_eq,
    BitVec.toNat_ofNat]

namespace Layout

/-- Whether an address lies on the native stack. -/
def OnStack (l : Layout) (a : Word) : Prop :=
  0 < l.stackTop.above a ∧ l.stackTop.above a ≤ l.stackSize

/-- The address of a word of the native stack. -/
def slot (l : Layout) (j : Nat) : Word := l.stackTop - BitVec.ofNat 64 (8 * (j + 1))

/-- No address lies in two regions, for an image block and compiled code of these sizes. -/
structure Separate (l : Layout) (size code : Nat) : Prop where
  stack_block : ∀ a : Word, l.OnStack a → ¬a.above l.block < size
  file_block : ∀ a : Word, a.above l.file < 32 → ¬a.above l.block < size
  file_stack : ∀ a : Word, a.above l.file < 32 → ¬l.OnStack a
  /-- The native stack starts at a multiple of 16, and there is more memory than it takes. -/
  aligned : l.stackTop.toNat % 16 = 0
  bounded : l.stackSize < 0x100000000000000
  /-- The code and its end lie above the addresses of the helpers. -/
  code_low : 3 < l.code.toNat
  code_high : l.code.toNat + code < 0x10000000000000000
  /-- The host does not go on in the code, at its end or in a helper. -/
  host_code : code < l.hostReturn.above l.code
  host_helper : 3 < l.hostReturn.toNat

variable {l : Layout} {size code : Nat} {i j : Nat}

theorem slot_sub (l : Layout) (j : Nat) : l.slot j - 8 = l.slot (j + 1) := by
  unfold slot
  generalize l.stackTop = t
  bv_omega

theorem slot_add (l : Layout) (i j : Nat) :
    l.slot (i + j) + BitVec.ofNat 64 (8 * j) = l.slot i := by
  unfold slot
  generalize l.stackTop = t
  bv_omega

theorem above_slot (l : Layout) (j : Nat) (hj : 8 * (j + 1) < 0x10000000000000000) :
    l.stackTop.above (l.slot j) = 8 * (j + 1) := by
  rw [Word.above_eq, slot]
  generalize l.stackTop = t
  bv_omega

theorem above_slot_high (l : Layout) (j : Nat) (hj : 8 * (j + 1) < 0x10000000000000000) :
    l.stackTop.above (l.slot j + 4) = 8 * j + 4 := by
  rw [Word.above_eq, slot]
  generalize l.stackTop = t
  bv_omega

/-- Below its last word the native stack has no place. -/
theorem place?_slot_ne (hj : l.stackSize < 8 * (j + 1))
    (hlt : 8 * (j + 1) < 0x10000000000000000) (d : Nat) :
    l.place? size (l.slot j) ≠ some (.stack d) := by
  have habove := l.above_slot j hlt
  unfold place?
  simp only [habove]
  split_ifs <;> simp
  omega

namespace Separate

variable (hs : l.Separate size code)
include hs

theorem place?_stack {a : Word} (ha : l.OnStack a) :
    l.place? size a = some (.stack (l.stackTop.above a)) := by
  have hblock := hs.stack_block a ha
  obtain ⟨hpos, hle⟩ := ha
  simp only [place?, if_neg hblock, if_pos (And.intro hpos hle)]

theorem place?_slot (hj : 8 * (j + 1) ≤ l.stackSize) :
    l.place? size (l.slot j) = some (.stack (8 * (j + 1))) := by
  have hbounded := hs.bounded
  have habove := l.above_slot j (by omega)
  rw [hs.place?_stack ⟨by omega, by omega⟩, habove]

theorem place?_slot_high (hj : 8 * (j + 1) ≤ l.stackSize) :
    l.place? size (l.slot j + 4) = some (.stack (8 * j + 4)) := by
  have hbounded := hs.bounded
  have habove := l.above_slot_high j (by omega)
  rw [hs.place?_stack ⟨by omega, by omega⟩, habove]

/-- Rounding an address down to a multiple of 16 leads to the same word or to the next one. -/
theorem slot_align (j : Nat) :
    ∃ j', j ≤ j' ∧ j' ≤ j + 1 ∧ l.slot j &&& ~~~ 15 = l.slot j' ∧ l.slot j' % 16 = 0 := by
  have haligned := hs.aligned
  have hslot : (l.slot j).toNat % 8 = 0 := by
    unfold slot
    rw [BitVec.toNat_sub, BitVec.toNat_ofNat]
    omega
  have hround := Word.and_not_15 (l.slot j)
  have hlt := (l.slot j).isLt
  have hzero : ∀ a : Word, a.toNat % 16 = 0 → a % 16 = 0 := by
    intro a ha
    apply BitVec.eq_of_toNat_eq
    rw [BitVec.toNat_umod]
    exact ha
  by_cases heven : (l.slot j).toNat % 16 = 0
  · refine ⟨j, by omega, by omega, ?_, hzero _ heven⟩
    rw [hround]
    apply BitVec.eq_of_toNat_eq
    rw [BitVec.toNat_ofNat]
    omega
  · have hnext : (l.slot (j + 1)).toNat = (l.slot j).toNat - 8 := by
      rw [← l.slot_sub, BitVec.toNat_sub]
      show (2 ^ 64 - 8 + _) % _ = _
      omega
    refine ⟨j + 1, by omega, by omega, ?_, hzero _ (by omega)⟩
    rw [hround]
    apply BitVec.eq_of_toNat_eq
    rw [BitVec.toNat_ofNat]
    omega

theorem place?_file (r : RegisterName) :
    l.place? size (l.file + BitVec.ofNat 64 r.offset) = some (.file r.offset) := by
  have hlt : r.offset < 32 := by cases r <;> decide
  have habove : (l.file + BitVec.ofNat 64 r.offset).above l.file = r.offset := by
    rw [Word.above_eq, BitVec.add_comm, BitVec.add_sub_cancel, BitVec.toNat_ofNat]
    exact Nat.mod_eq_of_lt (by omega)
  have hin : (l.file + BitVec.ofNat 64 r.offset).above l.file < 32 := by omega
  have hblock := hs.file_block _ hin
  have hstack := hs.file_stack _ hin
  unfold OnStack at hstack
  simp only [place?, if_neg hblock, if_neg hstack, habove, if_pos hlt]

end Separate

end Layout

/-! ## Section 3: Accesses of the host -/

namespace Host

variable {h : Host} {l : Layout} {code j : Nat} (hs : l.Separate h.vm.block.size code)
  (hj : 8 * (j + 1) ≤ l.stackSize)
include hs hj

theorem load64_slot :
    h.load64 l (l.slot j) = some (h.stack.word j) := by
  have hplace : h.place? l (l.slot j) = some (.stack (8 * (j + 1))) := hs.place?_slot hj
  rw [load64, hplace]
  simp only [show 8 * (j + 1) % 4 = 0 ∧ 8 ≤ 8 * (j + 1) by omega, and_self, if_true,
    show 8 * (j + 1) / 4 - 2 = 2 * j by omega, show 8 * (j + 1) / 4 - 1 = 2 * j + 1 by omega]
  rfl

theorem store64_slot (v : Word) :
    h.store64 l (l.slot j) v = some { h with stack := h.stack.setWord j v } := by
  obtain ⟨vm, stack, log⟩ := h
  have hplace : l.place? vm.block.size (l.slot j) = some (.stack (8 * (j + 1))) := hs.place?_slot hj
  simp only [store64, hplace, show 8 * (j + 1) % 4 = 0 ∧ 8 ≤ 8 * (j + 1) by omega,
    and_self, if_true,
    show 8 * (j + 1) / 4 - 2 = 2 * j by omega, show 8 * (j + 1) / 4 - 1 = 2 * j + 1 by omega]
  rfl

omit hs hj in
theorem store64_slot_eq_none (hj : l.stackSize < 8 * (j + 1))
    (hlt : 8 * (j + 1) < 0x10000000000000000) (v : Word) :
    h.store64 l (l.slot j) v = none := by
  cases hstore : h.store64 l (l.slot j) v with
  | none => rfl
  | some h' =>
    obtain ⟨d, hplace⟩ := place?_of_store64 hstore
    exact absurd hplace (l.place?_slot_ne hj hlt d)

theorem load32_slot :
    h.load32 l (l.slot j) = some (h.stack.get (2 * j + 1)) := by
  have hplace : h.place? l (l.slot j) = some (.stack (8 * (j + 1))) := hs.place?_slot hj
  rw [load32, hplace]
  simp only [show 8 * (j + 1) % 4 = 0 by omega, if_true,
    show 8 * (j + 1) / 4 - 1 = 2 * j + 1 by omega]

theorem load32_slot_high :
    h.load32 l (l.slot j + 4) = some (h.stack.get (2 * j)) := by
  have hplace : h.place? l (l.slot j + 4) = some (.stack (8 * j + 4)) := hs.place?_slot_high hj
  rw [load32, hplace]
  simp only [show (8 * j + 4) % 4 = 0 by omega, if_true, show (8 * j + 4) / 4 - 1 = 2 * j by omega]

theorem store32_slot (v : Cell) :
    h.store32 l (l.slot j) v = some { h with stack := h.stack.set (2 * j + 1) v } := by
  obtain ⟨⟨header, block, regs, pending, natives⟩, stack, log⟩ := h
  have hplace : l.place? block.size (l.slot j) = some (.stack (8 * (j + 1))) := hs.place?_slot hj
  simp only [store32, hplace, show 8 * (j + 1) % 4 = 0 by omega, if_true,
    show 8 * (j + 1) / 4 - 1 = 2 * j + 1 by omega]

theorem store32_slot_high (v : Cell) :
    h.store32 l (l.slot j + 4) v = some { h with stack := h.stack.set (2 * j) v } := by
  obtain ⟨⟨header, block, regs, pending, natives⟩, stack, log⟩ := h
  have hplace : l.place? block.size (l.slot j + 4) = some (.stack (8 * j + 4)) :=
    hs.place?_slot_high hj
  simp only [store32, hplace, show (8 * j + 4) % 4 = 0 by omega, if_true,
    show (8 * j + 4) / 4 - 1 = 2 * j by omega]

end Host

end PawnNative
