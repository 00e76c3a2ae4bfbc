import Mathlib.Tactic.Common
import PawnNative.Proofs.FloatNatives
import PawnNative.Proofs.HostOperations

/-! # The stack as natives see it

    A native pushes cells on the stack of the instance, pops them and drops several at
    once. These operations are checked against the heap below and the bottom of the
    stack above, so the stack behaves as a stack of cells with room for a number of
    cells more: `CellStack` is that stack, `Instance.cellStack` the view of an instance
    as one.

    The number of cells to drop is the exception. The new top of the stack is computed
    in a cell: only thirty bits of the number count, and a sum with the highest bit set
    is below everything, past any limit.
-/

namespace PawnNative

/-! ## Section 1: Stacks of cells -/

/-- An operation on a stack of cells. -/
inductive StackOperation where
  | push (value : Cell)
  | pop
  | drop (count : Nat)
  deriving DecidableEq, Repr

/-- A stack of cells, the one on top first, with room for some more. -/
structure CellStack where
  cells : List Cell
  room : Nat
  deriving DecidableEq, Repr

namespace CellStack

/-- **Rule.** What an operation answers and leaves: last in, first out. -/
def operate (s : CellStack) : StackOperation → Except Fault (Option Cell) × CellStack
  | .push v =>
    match s.room with
    | 0 => (.error .stackError, s)
    | room + 1 => (.ok none, ⟨v :: s.cells, room⟩)
  | .pop =>
    match s.cells with
    | [] => (.error .stackLow, s)
    | v :: cells => (.ok (some v), ⟨cells, s.room + 1⟩)
  | .drop n =>
    if s.cells.length < n then (.error .stackLow, s)
    else (.ok none, ⟨s.cells.drop n, s.room + n⟩)

/-- The answers to operations one after the other, and what they leave. -/
def operateAll (s : CellStack) : List StackOperation → List (Except Fault (Option Cell)) × CellStack
  | [] => ([], s)
  | op :: ops =>
    ((s.operate op).1 :: ((s.operate op).2.operateAll ops).1, ((s.operate op).2.operateAll ops).2)

end CellStack

namespace Instance

/-- Makes an operation on the stack of an instance. -/
def operateStack (vm : Instance) : StackOperation → Except Fault (Option Cell) × Instance
  | .push v =>
    match vm.pushCell v with
    | .ok vm' => (.ok none, vm')
    | .error f => (.error f, vm)
  | .pop =>
    match vm.popCell with
    | .ok (v, vm') => (.ok (some v), vm')
    | .error f => (.error f, vm)
  | .drop n =>
    match vm.dropCells n with
    | .ok vm' => (.ok none, vm')
    | .error f => (.error f, vm)

/-- The answers to operations one after the other, and the instance that they leave. -/
def operateStackAll (vm : Instance) :
    List StackOperation → List (Except Fault (Option Cell)) × Instance
  | [] => ([], vm)
  | op :: ops =>
    ((vm.operateStack op).1 :: ((vm.operateStack op).2.operateStackAll ops).1,
      ((vm.operateStack op).2.operateStackAll ops).2)

/-- The cells that start at a data address, one after the other. -/
def cellsAt (vm : Instance) (a : Int) : Nat → List Cell
  | 0 => []
  | n + 1 => vm.cellD a :: vm.cellsAt (a + 4) n

/-- The stack of an instance as a stack of cells: those from its top to its bottom, and the room
    down to the heap. -/
def cellStack (vm : Instance) : CellStack where
  cells := vm.cellsAt vm.regs.stk.toInt ((vm.regs.stp.toInt - vm.regs.stk.toInt).toNat / 4)
  room := (vm.regs.stk.toInt - vm.regs.hea.toInt).toNat / 4

/-- What an operation on the instance does is what it does on the stack of cells: the same answer,
    the same stack, and heap and bottom stay in their places. -/
structure Mirrors {α : Type} (vm : Instance) (concrete : α × Instance) (abstract : α × CellStack) :
    Prop where
  answer : concrete.1 = abstract.1
  view : concrete.2.cellStack = abstract.2
  order : concrete.2.HeapBelowStack
  hea : concrete.2.regs.hea = vm.regs.hea
  stp : concrete.2.regs.stp = vm.regs.stp

end Instance

/-- The sum of the bottom of the stack and the distance to drop is a cell. -/
def StackOperation.Fits (stp : Cell) : StackOperation → Prop
  | .push _ => True
  | .pop => True
  | .drop n => stp.toInt + 4 * n < 0x80000000

instance (stp : Cell) : DecidablePred (StackOperation.Fits stp)
  | .push _ => .isTrue trivial
  | .pop => .isTrue trivial
  | .drop n => inferInstanceAs (Decidable (stp.toInt + 4 * n < 0x80000000))

/-! ## Section 2: The cells in a row -/

namespace Instance

variable {vm vm' : Instance} {a : Int} {v : Cell} {n : Nat}

@[simp] theorem length_cellsAt (vm : Instance) (a : Int) (n : Nat) :
    (vm.cellsAt a n).length = n := by
  induction n generalizing a with
  | zero => rfl
  | succ n ih => rw [cellsAt, List.length_cons, ih]

theorem drop_cellsAt (vm : Instance) (a : Int) (n m : Nat) :
    (vm.cellsAt a (m + n)).drop m = vm.cellsAt (a + 4 * m) n := by
  induction m generalizing a with
  | zero => simp
  | succ m ih =>
    rw [Nat.add_right_comm, cellsAt, List.drop_succ_cons, ih]
    congr 1
    omega

theorem cellsAt_congr (h : ∀ b, a ≤ b → vm'.cellAt? b = vm.cellAt? b) :
    vm'.cellsAt a n = vm.cellsAt a n := by
  induction n generalizing a with
  | zero => rfl
  | succ n ih =>
    rw [cellsAt, cellsAt, cellD, cellD, h a (Int.le_refl _), ih]
    intro b hb
    exact h b (by omega)

/-! ## Section 3: What the operations do -/

def dropped (vm : Instance) (n : Nat) : Instance :=
  vm.put .stk (vm.regs.stk + BitVec.ofNat 32 (n * Cell.width))

/-- Only thirty bits of the number of cells count. -/
theorem dropCells_add (vm : Instance) (n : Nat) :
    vm.dropCells (n + 0x40000000) = vm.dropCells n := by
  have hdistance : (BitVec.ofNat 32 ((n + 0x40000000) * Cell.width) : Cell) =
      BitVec.ofNat 32 (n * Cell.width) := by
    rw [show Cell.width = 4 from rfl]
    apply BitVec.eq_of_toNat_eq
    rw [BitVec.toNat_ofNat, BitVec.toNat_ofNat]
    omega
  rw [dropCells, dropCells, hdistance]

theorem dropCells_eq : vm.dropCells n =
    if vm.regs.stp.toInt < (vm.dropped n).regs.stk.toInt then .error .stackLow
    else .ok (vm.dropped n) := rfl

section
variable (h : vm.HeapBelowStack)
include h

/-- Where the top of the stack is without the cells: as far up as they reach, or 2³² below that. -/
theorem HeapBelowStack.toInt_dropped_cases (hn : n < 0x40000000) :
    (vm.regs.stk.toInt + 4 * n < 0x80000000 →
      (vm.dropped n).regs.stk.toInt = vm.regs.stk.toInt + 4 * n) ∧
    (0x80000000 ≤ vm.regs.stk.toInt + 4 * n →
      (vm.dropped n).regs.stk.toInt = vm.regs.stk.toInt + 4 * n - 0x100000000) := by
  have hheap := h.heap
  have hgap := h.gap
  have hlt := h.stk_lt
  have hstk := Cell.toInt_eq_toNat (c := vm.regs.stk) (by omega)
  have hsum : (vm.dropped n).regs.stk.toNat = (vm.regs.stk.toNat + n * 4) % 0x100000000 := by
    show (vm.regs.stk + BitVec.ofNat 32 (n * Cell.width)).toNat = _
    rw [show Cell.width = 4 from rfl, BitVec.toNat_add, BitVec.toNat_ofNat]
    omega
  have hsign := BitVec.toInt_eq_toNat_cond (vm.dropped n).regs.stk
  split_ifs at hsign <;> omega

/-- A sum that is too large for a cell is negative, and no limit is checked there. -/
theorem HeapBelowStack.dropCells_eq_of_le (hlow : 0x80000000 ≤ vm.regs.stk.toInt + 4 * n)
    (hn : n < 0x40000000) : vm.dropCells n = .ok (vm.dropped n) ∧
      (vm.dropped n).regs.stk.toInt = vm.regs.stk.toInt + 4 * n - 0x100000000 := by
  have hheap := h.heap
  have hgap := h.gap
  have htop := h.top
  have hstk := (h.toInt_dropped_cases hn).2 hlow
  -- It is below the stack register, so the check against the bottom never fails.
  rw [dropCells_eq, if_neg (by omega)]
  exact ⟨rfl, hstk⟩

section
variable (hn : vm.regs.stk.toInt + 4 * n ≤ vm.regs.stp.toInt)
include hn

theorem HeapBelowStack.toInt_dropped :
    (vm.dropped n).regs.stk.toInt = vm.regs.stk.toInt + 4 * n := by
  have hheap := h.heap
  have hgap := h.gap
  have hstp := BitVec.toInt_lt (x := vm.regs.stp)
  exact (h.toInt_dropped_cases (by omega)).1 (by omega)

theorem HeapBelowStack.dropped : (vm.dropped n).HeapBelowStack := by
  have hstk := h.toInt_dropped hn
  have hgap := h.gap
  refine h.of_retains (vm.retains_put (Or.inr rfl) _) h.heap ?_ ?_
  · show vm.regs.hea.toInt ≤ (vm.dropped n).regs.stk.toInt
    omega
  · show (vm.dropped n).regs.stk.toInt ≤ _
    omega

/-- Dropping cells takes them off the stack and leaves more room. -/
theorem HeapBelowStack.cellStack_dropped :
    (vm.dropped n).cellStack = ⟨vm.cellStack.cells.drop n, vm.cellStack.room + n⟩ := by
  have hstk := h.toInt_dropped hn
  have hgap := h.gap
  have hdepth : (vm.regs.stp.toInt - vm.regs.stk.toInt).toNat / 4 =
      n + (vm.regs.stp.toInt - (vm.regs.stk.toInt + 4 * n)).toNat / 4 := by omega
  have hcells : (vm.dropped n).cellsAt = vm.cellsAt := by
    funext a k
    exact cellsAt_congr fun _ _ => rfl
  have hroom : (vm.regs.stk.toInt + 4 * n - vm.regs.hea.toInt).toNat / 4 =
      (vm.regs.stk.toInt - vm.regs.hea.toInt).toNat / 4 + n := by omega
  rw [cellStack, cellStack, hcells, hstk, hdepth, drop_cellsAt, ← hroom]
  rfl

end

section
variable (hroom : vm.regs.hea.toInt + 4 ≤ vm.regs.stk.toInt)
include hroom

theorem HeapBelowStack.stacks_topped : vm.Stacks [v] (vm.topped v) := by
  apply stacks_pushCell
  rw [h.pushCell_eq, if_neg (by omega)]

theorem HeapBelowStack.cellD_topped : (vm.topped v).cellD (vm.regs.stk.toInt - 4) = v := by
  have hheap := h.heap
  have hbelow := h.toInt_below hroom
  have hcell := (h.stacks_topped (v := v) hroom).cells 0 v rfl
  have hstk : (vm.topped v).topAddress = vm.regs.stk.toInt - 4 := by
    rw [topAddress, regs_topped, ← Cell.toInt_eq_toNat (by rw [hbelow]; omega)]
    exact hbelow
  rw [hstk, Int.natCast_zero, Int.mul_zero, Int.add_zero] at hcell
  rw [cellD, hcell, Option.getD_some]

/-- A pushed cell is the first one on the stack and takes the room of one. -/
theorem HeapBelowStack.cellStack_topped :
    (vm.topped v).cellStack = ⟨v :: vm.cellStack.cells, vm.cellStack.room - 1⟩ := by
  have hheap := h.heap
  have htop := h.top
  have hrest : ∀ n, (vm.topped v).cellsAt vm.regs.stk.toInt n = vm.cellsAt vm.regs.stk.toInt n := by
    intro n
    refine cellsAt_congr fun b hb => (h.stacks_topped hroom).above b ?_
    rw [topAddress, ← Cell.toInt_eq_toNat (by omega)]
    exact hb
  have hdepth : (vm.regs.stp.toInt - (vm.regs.stk.toInt - 4)).toNat / 4 =
      (vm.regs.stp.toInt - vm.regs.stk.toInt).toNat / 4 + 1 := by omega
  have hless : (vm.regs.stk.toInt - 4 - vm.regs.hea.toInt).toNat / 4 =
      (vm.regs.stk.toInt - vm.regs.hea.toInt).toNat / 4 - 1 := by omega
  rw [cellStack, cellStack, regs_topped]
  dsimp only
  rw [h.toInt_below hroom, hdepth, hless, cellsAt, h.cellD_topped hroom, Int.sub_add_cancel, hrest]

end

/-- **Pop.** The cell on top is read, and dropped unless it is the bottom of the stack. -/
theorem HeapBelowStack.popCell_eq : vm.popCell =
    if vm.regs.stp.toInt < vm.regs.stk.toInt + 4 then .error .stackLow
    else .ok (vm.cellD vm.regs.stk.toInt, vm.dropped 1) := by
  have hheap := h.heap
  have hgap := h.gap
  have htop := h.top
  have hbottom := h.bottom
  have hcell : vm.HasCell vm.regs.stk.toInt := ⟨by omega, by omega⟩
  obtain ⟨v, hv⟩ := h.sized.exists_cellAt hcell
  have hread : vm.cell vm.regs.stk = .ok v := by
    apply h.sized.cell_eq_ok
    rw [← Cell.toInt_eq_toNat (by omega)]
    exact hv
  have hlt := h.stk_lt
  have hstk := (h.toInt_dropped_cases (n := 1) (by decide)).1 (by omega)
  rw [popCell, hread, ok_bind, dropCells_eq, hstk, cellD, hv, Option.getD_some]
  by_cases hempty : vm.regs.stp.toInt < vm.regs.stk.toInt + 4
  · rw [if_pos hempty, if_pos (by omega)]
    rfl
  · rw [if_neg hempty, if_neg (by omega)]
    rfl

/-- What was pushed is popped, and the registers are what they were. -/
theorem HeapBelowStack.popCell_pushCell (hpush : vm.pushCell v = .ok vm') :
    ∃ vm'', vm'.popCell = .ok (v, vm'') ∧ vm''.regs = vm.regs := by
  have htop := h.top
  rw [h.pushCell_eq] at hpush
  by_cases hfull : vm.regs.stk.toInt < vm.regs.hea.toInt + 4
  · rw [if_pos hfull] at hpush
    cases hpush
  rw [if_neg hfull] at hpush
  cases hpush
  have hroom : vm.regs.hea.toInt + 4 ≤ vm.regs.stk.toInt := by omega
  have hbelow := h.toInt_below hroom
  have hpop := (h.topped (v := v) hroom).popCell_eq
  rw [regs_topped] at hpop
  dsimp only at hpop
  rw [hbelow, h.cellD_topped hroom, if_neg (by omega)] at hpop
  refine ⟨_, hpop, ?_⟩
  show ((vm.topped v).regs.set .stk ((vm.topped v).regs.stk + BitVec.ofNat 32 (1 * Cell.width))) =
      vm.regs
  rw [regs_topped]
  show { vm.regs with stk := vm.regs.stk - 4 + BitVec.ofNat 32 (1 * Cell.width) } = vm.regs
  rw [show (BitVec.ofNat 32 (1 * Cell.width) : Cell) = 4 from rfl, BitVec.sub_add_cancel]

theorem HeapBelowStack.mirrors_refl {α : Type} (r : α) : vm.Mirrors (r, vm) (r, vm.cellStack) :=
  ⟨rfl, rfl, h, rfl, rfl⟩

theorem HeapBelowStack.mirrors_dropped {α : Type} (r : α)
    (hn : vm.regs.stk.toInt + 4 * n ≤ vm.regs.stp.toInt) :
    vm.Mirrors (r, vm.dropped n) (r, ⟨vm.cellStack.cells.drop n, vm.cellStack.room + n⟩) :=
  ⟨rfl, h.cellStack_dropped hn, h.dropped hn, rfl, rfl⟩

theorem HeapBelowStack.mirrors_topped {α : Type} (r : α)
    (hroom : vm.regs.hea.toInt + 4 ≤ vm.regs.stk.toInt) :
    vm.Mirrors (r, vm.topped v) (r, ⟨v :: vm.cellStack.cells, vm.cellStack.room - 1⟩) := by
  refine ⟨rfl, h.cellStack_topped hroom, h.topped hroom, ?_, ?_⟩
  all_goals rw [regs_topped]

/-- **Step.** An operation on the instance is the operation on its stack of cells. -/
theorem HeapBelowStack.mirrors_operateStack (op : StackOperation) (hop : op.Fits vm.regs.stp) :
    vm.Mirrors (vm.operateStack op) (vm.cellStack.operate op) := by
  have hheap := h.heap
  have hgap := h.gap
  have htop := h.top
  -- The checks of the instance are on registers and those of the stack on numbers of cells: bytes
  -- left over at either end of the stack make no difference, as both divisions round down.
  cases op with
  | push v =>
    have hroom : vm.cellStack.room = (vm.regs.stk.toInt - vm.regs.hea.toInt).toNat / 4 := rfl
    rw [operateStack, CellStack.operate, h.pushCell_eq]
    by_cases hfull : vm.regs.stk.toInt < vm.regs.hea.toInt + 4
    · rw [if_pos hfull, show vm.cellStack.room = 0 by omega]
      exact h.mirrors_refl _
    · obtain ⟨room, hsucc⟩ := Nat.exists_eq_add_one_of_ne_zero (show vm.cellStack.room ≠ 0 by omega)
      have htopped := h.mirrors_topped (v := v) (.ok none : Except Fault (Option Cell)) (by omega)
      rw [hsucc, Nat.add_sub_cancel] at htopped
      rw [if_neg hfull, hsucc]
      exact htopped
  | pop =>
    rw [operateStack, CellStack.operate, h.popCell_eq]
    have hcells : vm.cellStack.cells =
        vm.cellsAt vm.regs.stk.toInt ((vm.regs.stp.toInt - vm.regs.stk.toInt).toNat / 4) := rfl
    by_cases hempty : vm.regs.stp.toInt < vm.regs.stk.toInt + 4
    · rw [show (vm.regs.stp.toInt - vm.regs.stk.toInt).toNat / 4 = 0 by omega, cellsAt] at hcells
      rw [if_pos hempty, hcells]
      exact h.mirrors_refl _
    · obtain ⟨depth, hdepth⟩ := Nat.exists_eq_add_one_of_ne_zero
        (show (vm.regs.stp.toInt - vm.regs.stk.toInt).toNat / 4 ≠ 0 by omega)
      have hdropped := h.mirrors_dropped (n := 1)
        (.ok (some (vm.cellD vm.regs.stk.toInt)) : Except Fault (Option Cell)) (by omega)
      rw [hdepth, cellsAt] at hcells
      rw [hcells, List.drop_succ_cons, List.drop_zero] at hdropped
      rw [if_neg hempty, hcells]
      exact hdropped
  | drop n =>
    have hfits : vm.regs.stp.toInt + 4 * n < 0x80000000 := hop
    have hlength : vm.cellStack.cells.length = (vm.regs.stp.toInt - vm.regs.stk.toInt).toNat / 4 :=
      vm.length_cellsAt ..
    have hstk := (h.toInt_dropped_cases (n := n) (by omega)).1 (by omega)
    rw [operateStack, CellStack.operate, dropCells_eq, hstk]
    by_cases hlow : vm.regs.stp.toInt < vm.regs.stk.toInt + 4 * n
    · rw [if_pos hlow, if_pos (by omega)]
      exact h.mirrors_refl _
    · rw [if_neg hlow, if_neg (by omega)]
      exact h.mirrors_dropped _ (by omega)

end

/-- **Run.** Operations one after the other are those on the stack of cells. -/
theorem HeapBelowStack.mirrors_operateStackAll (h : vm.HeapBelowStack) (ops : List StackOperation)
    (hops : ∀ op ∈ ops, op.Fits vm.regs.stp) :
    vm.Mirrors (vm.operateStackAll ops) (vm.cellStack.operateAll ops) := by
  induction ops generalizing vm with
  | nil => exact h.mirrors_refl []
  | cons op ops ih =>
    have hstep := h.mirrors_operateStack op (hops op List.mem_cons_self)
    -- The bottom of the stack has not moved, so the rest of the operations fit as before.
    have hrest := ih hstep.order (by
      rw [hstep.stp]
      exact fun o ho => hops o (List.mem_cons_of_mem _ ho))
    rw [hstep.view] at hrest
    refine ⟨?_, hrest.view, hrest.order, hrest.hea.trans hstep.hea, hrest.stp.trans hstep.stp⟩
    show _ :: _ = _ :: _
    rw [hstep.answer, hrest.answer]

end Instance

/-- **Stack.** As long as the sum of the stack register and the distance is a cell, dropping cells
    is exact: it fails below the bottom of the stack and moves the register by the distance
    otherwise. A larger sum wraps, and the register goes down unchecked; of the number of cells only
    thirty bits count. A pushed cell is popped again, nothing is popped from an empty stack, and
    operations one after the other are those on a stack of cells, with heap and stack apart. -/
theorem stack_view_exact_until_distance_wraps {vm : Instance} (h : vm.HeapBelowStack) :
    (∀ n : Nat, vm.regs.stk.toInt + 4 * n < 0x80000000 →
      (vm.regs.stp.toInt < vm.regs.stk.toInt + 4 * n → vm.dropCells n = .error .stackLow) ∧
      (vm.regs.stk.toInt + 4 * n ≤ vm.regs.stp.toInt → vm.dropCells n = .ok (vm.dropped n) ∧
        (vm.dropped n).regs.stk.toInt = vm.regs.stk.toInt + 4 * n)) ∧
    (∀ n : Nat, n + 0x40000000 < 0x4000000000000000 →
      vm.dropCells (n + 0x40000000) = vm.dropCells n) ∧
    (∀ n : Nat, 0x80000000 ≤ vm.regs.stk.toInt + 4 * n → n < 0x40000000 →
      vm.dropCells n = .ok (vm.dropped n) ∧
      (vm.dropped n).regs.stk.toInt = vm.regs.stk.toInt + 4 * n - 0x100000000) ∧
    (∀ v vm', vm.pushCell v = .ok vm' → ∃ vm'', vm'.popCell = .ok (v, vm'') ∧ vm''.regs = vm.regs) ∧
    (vm.regs.stp.toInt < vm.regs.stk.toInt + 4 → vm.popCell = .error .stackLow) ∧
    ∀ ops : List StackOperation, (∀ op ∈ ops, op.Fits vm.regs.stp) →
      vm.Mirrors (vm.operateStackAll ops) (vm.cellStack.operateAll ops) := by
  refine ⟨?_, ?_, ?_, ?_, ?_, h.mirrors_operateStackAll⟩
  · intro n hn
    have hheap := h.heap
    have hgap := h.gap
    have hstk := (h.toInt_dropped_cases (by omega)).1 hn
    rw [Instance.dropCells_eq, hstk]
    constructor
    · intro hlow
      rw [if_pos hlow]
    · intro hle
      rw [if_neg (by omega)]
      exact ⟨rfl, rfl⟩
  · intro n _
    exact vm.dropCells_add n
  · intro n hlow hhigh
    exact h.dropCells_eq_of_le hlow hhigh
  · intro v vm' hpush
    exact h.popCell_pushCell hpush
  · intro hempty
    rw [h.popCell_eq, if_pos hempty]

/-- On the empty stack of the image with an import, a pushed pair is popped in the reverse order and
    nothing after it. The smallest number that wraps to zero drops nothing and succeeds, and half of
    it leads below the data segment. -/
theorem importStack_wraps : ∃ vm, importInstance 0 #[] = vm ∧ vm.HeapBelowStack ∧
    (vm.operateStackAll [.push 7, .push 8, .pop, .drop 2, .drop 1, .pop]).1 =
      [.ok none, .ok none, .ok (some 8), .error .stackLow, .ok none, .error .stackLow] ∧
    vm.dropCells (0 + 0x40000000) = .ok (vm.dropped 0) ∧
    vm.dropCells 0x20000000 = .ok (vm.dropped 0x20000000) ∧
    (vm.dropped 0x20000000).regs.stk.toInt = 124 - 0x80000000 := by
  have h := (Instance.inOrder_of_load load_importImage).toHeapBelowStack
  obtain ⟨hexact, hwraps, hbelow, -, -, hmirrors⟩ := stack_view_exact_until_distance_wraps h
  have hrun := hmirrors [.push 7, .push 8, .pop, .drop 2, .drop 1, .pop] (by decide)
  obtain ⟨hdrop, hstk⟩ := hbelow 0x20000000 (by decide) (by decide)
  refine ⟨_, rfl, h, hrun.answer.trans rfl, ?_, hdrop, hstk.trans (by decide)⟩
  exact (hwraps 0 (by decide)).trans ((hexact 0 (by decide)).2 (by decide)).1

end PawnNative
