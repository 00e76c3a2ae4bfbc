import Mathlib.Tactic.Common
import PawnNative.Proofs.DataAccess
import PawnNative.Proofs.Invocations
import PawnNative.Proofs.Sections

/-! # Operations of the host

    Between calls a host works on the instance itself. It pushes arguments, copies
    texts to the heap, reserves heap and releases it, writes cells and binds natives.
    Each of these operations makes a check of its own: a push asks for the margin
    below the cell that it takes, an allotment for the margin above the room that it
    reserves, the push of the view that natives have asks for no margin, and a release
    stops at the bottom of the heap. Only together they keep heap and stack apart.

    `InOrder` is the order that they keep, `Retains` is what they leave alone. What an
    operation does to an instance in order is said once, in an equation for each of
    them; the order, the arguments that wait and the refusals are read off there.
-/

namespace PawnNative

/-! ## Section 1: Operations -/

/-- An operation of the host on an instance. -/
inductive HostOperation where
  | push (value : Cell)
  | pushText (s : String)
  | allot (cells : Nat)
  | release (address : Cell)
  | setCell (address value : Cell)
  | register (name : String) (native : Native)
  | registerAll (natives : List (String × Native))
  /-- The push of the view that natives have, which counts no argument. -/
  | pushCell (value : Cell)

/-- Whether an operation pushes an argument when it succeeds. -/
def HostOperation.pushesArgument : HostOperation → Bool
  | .push _ | .pushText _ => true
  | _ => false

/-- The attempt of an operation that either gives the next instance or leaves this one. -/
def Attempt.commit (vm : Instance) : Except Fault Instance → Attempt Unit
  | .ok vm' => ⟨.ok (), vm'⟩
  | .error f => ⟨.error f, vm⟩

namespace Instance

def operate (vm : Instance) : HostOperation → Attempt Unit
  | .push value => .commit vm (vm.push value)
  | .pushText s => ⟨(vm.pushText s).result.map fun _ => (), (vm.pushText s).vm⟩
  | .allot cells => .commit vm ((vm.allot cells).map Prod.snd)
  | .release address => ⟨.ok (), vm.release address⟩
  | .setCell address value => .commit vm (vm.setCell address value)
  | .register name native => .commit vm (vm.register name native)
  | .registerAll natives => ⟨.ok (), (vm.registerAll natives).2⟩
  | .pushCell value => .commit vm (vm.pushCell value)

/-- The instance after operations one after the other, whether they succeed or fail. -/
def afterAll (vm : Instance) : List HostOperation → Instance
  | [] => vm
  | op :: ops => (vm.operate op).vm.afterAll ops

/-- The arguments that an operation pushes: one, if it is a push of the host and succeeds. -/
def argumentsOf (vm : Instance) (op : HostOperation) : Nat :=
  if op.pushesArgument ∧ (vm.operate op).result.isOk then 1 else 0

/-- The arguments that operations push. -/
def argumentsOfAll (vm : Instance) : List HostOperation → Nat
  | [] => 0
  | op :: ops => vm.argumentsOf op + (vm.operate op).vm.argumentsOfAll ops

/-- An instance that a host comes to: a loaded image after operations of the host. -/
def Reachable (vm : Instance) : Prop :=
  ∃ image vm₀ ops, load image = .ok vm₀ ∧ vm₀.afterAll ops = vm

end Instance

/-! ## Section 2: Order -/

/-- Whether a byte of the block belongs to the handle in a record of an imported native. -/
def Header.InHandle (h : Header) (i : Nat) : Prop :=
  ∃ index o, h.nativeTable.recordOffset? index = some o ∧ o ≤ i ∧ i < o + Cell.width

namespace Instance

/-- The heap lies below the stack, and both in the data segment. -/
structure HeapBelowStack (vm : Instance) : Prop where
  sized : vm.Sized
  heap : 0 ≤ vm.regs.hea.toInt
  gap : vm.regs.hea.toInt ≤ vm.regs.stk.toInt
  top : vm.regs.stk.toInt ≤ vm.regs.stp.toInt
  bottom : vm.regs.stp.toInt = (vm.dataSize : Int) - Cell.width

/-- And the heap lies above its bottom. -/
structure InOrder (vm : Instance) : Prop extends vm.HeapBelowStack where
  low : 0 ≤ vm.regs.hlw.toInt
  reserved : vm.regs.hlw.toInt ≤ vm.regs.hea.toInt

/-- What operations of the host leave alone: all registers but those of heap and stack, and the
    block below the data segment but for the handles of natives. -/
structure Retains (vm vm' : Instance) : Prop where
  header : vm'.header = vm.header
  size : vm'.block.size = vm.block.size
  registers : ∀ r, r ≠ .hea → r ≠ .stk → vm'.regs.get r = vm.regs.get r
  below : ∀ i < vm.dataStart, ¬vm.header.InHandle i → vm'.block[i]? = vm.block[i]?

variable {u vm vm' : Instance} {a v : Cell}

theorem Retains.refl (vm : Instance) : vm.Retains vm :=
  ⟨rfl, rfl, fun _ _ _ => rfl, fun _ _ _ => rfl⟩

theorem Retains.trans (h : u.Retains vm) (h' : vm.Retains vm') : u.Retains vm' := by
  refine ⟨h'.header.trans h.header, h'.size.trans h.size, ?_, ?_⟩
  · intro r hhea hstk
    exact (h'.registers r hhea hstk).trans (h.registers r hhea hstk)
  · intro i hi hhandle
    have hstart : vm.dataStart = u.dataStart := by rw [dataStart, dataStart, h.header]
    rw [h'.below i (by omega) (by rw [h.header]; exact hhandle), h.below i hi hhandle]

theorem Retains.setPending (h : vm.Retains vm') (n : Nat) : vm.Retains { vm' with pending := n } :=
  ⟨h.header, h.size, h.registers, h.below⟩

theorem Retains.dataSize (h : vm.Retains vm') : vm'.dataSize = vm.dataSize := by
  rw [Instance.dataSize, Instance.dataSize, h.header]

theorem Retains.sized (h : vm.Retains vm') (hsized : vm.Sized) : vm'.Sized := by
  have hstart : vm'.dataStart = vm.dataStart := by rw [dataStart, dataStart, h.header]
  constructor
  · rw [hstart, h.dataSize, h.size]
    exact hsized.total
  · rw [h.size]
    exact hsized.bounded

theorem HeapBelowStack.of_retains (h : vm.HeapBelowStack) (hretains : vm.Retains vm')
    (hheap : 0 ≤ vm'.regs.hea.toInt) (hgap : vm'.regs.hea.toInt ≤ vm'.regs.stk.toInt)
    (htop : vm'.regs.stk.toInt ≤ vm.regs.stp.toInt) : vm'.HeapBelowStack := by
  have hstp : vm'.regs.stp = vm.regs.stp := hretains.registers .stp (by decide) (by decide)
  refine ⟨hretains.sized h.sized, hheap, hgap, ?_, ?_⟩
  · rw [hstp]
    exact htop
  · rw [hstp, hretains.dataSize]
    exact h.bottom

theorem InOrder.of_retains (h : vm.InOrder) (hretains : vm.Retains vm')
    (hlow : vm.regs.hlw.toInt ≤ vm'.regs.hea.toInt) (hgap : vm'.regs.hea.toInt ≤ vm'.regs.stk.toInt)
    (htop : vm'.regs.stk.toInt ≤ vm.regs.stp.toInt) : vm'.InOrder := by
  have hhlw : vm'.regs.hlw = vm.regs.hlw := hretains.registers .hlw (by decide) (by decide)
  have hpos := h.low
  refine ⟨h.toHeapBelowStack.of_retains hretains (by omega) hgap htop, ?_, ?_⟩
  · rw [hhlw]
    exact hpos
  · rw [hhlw]
    exact hlow

theorem InOrder.setPending (h : vm.InOrder) (n : Nat) : InOrder { vm with pending := n } :=
  ⟨⟨⟨h.sized.total, h.sized.bounded⟩, h.heap, h.gap, h.top, h.bottom⟩, h.low, h.reserved⟩

theorem inOrder_of_load {image : Block} (h : load image = .ok vm) : vm.InOrder := by
  have hsized := sized_of_load h
  obtain ⟨header, hparse, heq⟩ := bind_eq_ok.mp h
  obtain ⟨-, -, hvalid⟩ := Header.parse_eq_ok_iff.mp hparse
  obtain ⟨hhlw, hhea, hstk⟩ := hvalid.registers
  cases heq
  exact ⟨⟨hsized, hhlw, Int.le_of_lt hhea, Int.le_refl _, hstk⟩, hhlw, Int.le_refl _⟩

/-! ## Section 3: What the operations do -/

def write (vm : Instance) (a : Nat) (bytes : List Byte) : Instance :=
  { vm with block := vm.block.overwrite (vm.dataStart + a) bytes }

def topped (vm : Instance) (v : Cell) : Instance :=
  (vm.write (vm.regs.stk - 4).toNat v.bytes).put .stk (vm.regs.stk - 4)

def argued (vm : Instance) (v : Cell) : Instance :=
  { vm.topped v with pending := (vm.topped v).pending + 1 }

/-- The instance with room for a number of cells on top of its heap. -/
def roomier (vm : Instance) (n : Nat) : Instance :=
  vm.put .hea (vm.regs.hea + BitVec.ofNat 32 (n * Cell.width))

/-- The instance with cells on top of its heap. -/
def heaped (vm : Instance) (cs : List Cell) : Instance :=
  (vm.roomier cs.length).write vm.regs.hea.toNat (cs.flatMap Cell.bytes)

section
variable (vm)

@[simp] theorem regs_write (a : Nat) (bytes : List Byte) :
    (vm.write a bytes).regs = vm.regs := rfl

@[simp] theorem pending_write (a : Nat) (bytes : List Byte) :
    (vm.write a bytes).pending = vm.pending := rfl

@[simp] theorem pending_put (r : RegisterName) (v : Cell) :
    (vm.put r v).pending = vm.pending := rfl

@[simp] theorem regs_topped (v : Cell) :
    (vm.topped v).regs = { vm.regs with stk := vm.regs.stk - 4 } := by
  rw [topped, put, regs_write]
  rfl

@[simp] theorem pending_topped (v : Cell) : (vm.topped v).pending = vm.pending := by
  rw [topped, pending_put, pending_write]

@[simp] theorem block_topped (v : Cell) : (vm.topped v).block =
    vm.block.overwrite (vm.dataStart + (vm.regs.stk - 4).toNat) v.bytes := by
  rw [topped, put, write]

@[simp] theorem regs_argued (v : Cell) : (vm.argued v).regs = (vm.topped v).regs := by
  rw [argued]

@[simp] theorem block_argued (v : Cell) : (vm.argued v).block = (vm.topped v).block := by
  rw [argued]

@[simp] theorem block_heaped (cs : List Cell) : (vm.heaped cs).block =
    vm.block.overwrite (vm.dataStart + vm.regs.hea.toNat) (cs.flatMap Cell.bytes) := rfl

theorem retains_write (a : Nat) (bytes : List Byte) : vm.Retains (vm.write a bytes) := by
  refine ⟨rfl, Block.size_overwrite .., fun _ _ _ => rfl, ?_⟩
  intro i hi _
  exact Block.getElem?_overwrite_frame _ (Or.inl (by omega))

theorem retains_put {r : RegisterName} (hr : r = .hea ∨ r = .stk) (v : Cell) :
    vm.Retains (vm.put r v) := by
  refine ⟨rfl, rfl, ?_, fun _ _ _ => rfl⟩
  intro q hhea hstk
  apply Registers.get_set_ne
  rintro rfl
  exact hr.elim hhea hstk

theorem retains_topped (v : Cell) : vm.Retains (vm.topped v) :=
  (vm.retains_write _ _).trans (retains_put _ (Or.inr rfl) _)

theorem retains_argued (v : Cell) : vm.Retains (vm.argued v) :=
  (vm.retains_topped v).setPending _

theorem retains_roomier (n : Nat) : vm.Retains (vm.roomier n) :=
  retains_put _ (Or.inl rfl) _

theorem retains_heaped (cs : List Cell) : vm.Retains (vm.heaped cs) :=
  (vm.retains_roomier _).trans (retains_write _ _ _)

end

theorem inData_iff : vm.inData a = true ↔ vm.HasCell a.toInt := by
  have hwidth : Cell.width = 4 := rfl
  rw [inData, Bool.and_eq_true_iff, decide_eq_true_eq, decide_eq_true_eq, HasCell]
  constructor
  · rintro ⟨hpos, hle⟩
    rw [Cell.toInt_eq_toNat hpos]
    omega
  · rintro ⟨hpos, hle⟩
    rw [Cell.toInt_eq_toNat hpos] at hle
    omega

theorem Sized.setCell_eq (h : vm.Sized) : vm.setCell a v =
    if vm.HasCell a.toInt then .ok (vm.write a.toNat v.bytes) else .error .memoryAccess := by
  rw [setCell]
  by_cases ha : vm.HasCell a.toInt
  · have hle := h.cell_le ha
    rw [Cell.toInt_eq_toNat ha.1, Int.toNat_natCast] at hle
    rw [if_pos (inData_iff.mpr ha), if_pos ha, Block.setCell?_eq hle]
    rfl
  · rw [if_neg (mt inData_iff.mp ha), if_neg ha]

/-- **Run.** Cells are written one after the other when all of them lie in the data segment. -/
theorem Sized.setCells_eq (h : vm.Sized) (cs : List Cell) (hpos : 0 ≤ a.toInt)
    (hroom : a.toInt + 4 * cs.length ≤ vm.dataSize) :
    vm.setCells a cs = .ok (vm.write a.toNat (cs.flatMap Cell.bytes)) := by
  induction cs generalizing vm a with
  | nil => rfl
  | cons c cs ih =>
    rw [List.length_cons] at hroom
    have hcell : vm.HasCell a.toInt := ⟨hpos, by rw [show Cell.width = 4 from rfl]; omega⟩
    have hfirst := vm.retains_write a.toNat c.bytes
    have htotal := h.total
    have hbounded := h.bounded
    have hnat := Cell.toInt_eq_toNat hpos
    have hnext : (a + 4).toNat = a.toNat + 4 := by bv_omega
    have hnext' : (a + 4).toInt = a.toInt + 4 := by
      rw [BitVec.toInt_eq_toNat_cond, if_pos (by omega)]
      omega
    have hrest := ih (a := a + 4) (hfirst.sized h) (by omega)
      (by rw [hfirst.dataSize]; omega)
    rw [setCells, h.setCell_eq, if_pos hcell, ok_bind, hrest, hnext, List.flatMap_cons]
    simp only [write, dataStart, ← Block.overwrite_append]
    rfl

section
variable (h : vm.HeapBelowStack)
include h

theorem HeapBelowStack.stk_lt : vm.regs.stk.toInt < 0x80000000 - 4 := by
  have htop := h.top
  have hbottom := h.bottom
  have htotal := h.sized.total
  have hbounded := h.sized.bounded
  rw [show Cell.width = 4 from rfl] at hbottom
  omega

theorem HeapBelowStack.toInt_below (hroom : vm.regs.hea.toInt + 4 ≤ vm.regs.stk.toInt) :
    (vm.regs.stk - 4).toInt = vm.regs.stk.toInt - 4 := by
  have hheap := h.heap
  have hlt := h.stk_lt
  have hnat := Cell.toInt_eq_toNat (c := vm.regs.stk) (by omega)
  have hbelow : (vm.regs.stk - 4).toNat = vm.regs.stk.toNat - 4 := by bv_omega
  rw [BitVec.toInt_eq_toNat_cond, if_pos (by omega)]
  omega

theorem HeapBelowStack.setCell_below (hroom : vm.regs.hea.toInt + 4 ≤ vm.regs.stk.toInt) :
    vm.setCell (vm.regs.stk - 4) v = .ok (vm.write (vm.regs.stk - 4).toNat v.bytes) := by
  have hbelow := h.toInt_below hroom
  have hheap := h.heap
  have htop := h.top
  have hbottom := h.bottom
  have hcell : vm.HasCell (vm.regs.stk - 4).toInt := by
    rw [hbelow]
    constructor <;> omega
  rw [h.sized.setCell_eq, if_pos hcell]

/-- **Push.** A cell is pushed when the margin stays free below it. -/
theorem HeapBelowStack.push_eq : vm.push v =
    if vm.regs.stk.toInt < vm.regs.hea.toInt + margin + 4 then .error .stackError
    else .ok (vm.argued v) := by
  have hwidth : Cell.width = 4 := rfl
  by_cases hfull : vm.regs.stk.toInt < vm.regs.hea.toInt + margin + 4
  · rw [if_pos hfull, push, if_pos (by omega)]
    rfl
  · rw [if_neg hfull]
    refine Instance.push_eq_ok.mpr ⟨by omega, _, h.setCell_below (by omega), ?_⟩
    rw [argued, topped, pending_put]

/-- The push of the view that natives have needs no margin. -/
theorem HeapBelowStack.pushCell_eq : vm.pushCell v =
    if vm.regs.stk.toInt < vm.regs.hea.toInt + 4 then .error .stackError else .ok
      (vm.topped v) := by
  have hwidth : Cell.width = 4 := rfl
  by_cases hfull : vm.regs.stk.toInt < vm.regs.hea.toInt + 4
  · rw [if_pos hfull, pushCell, if_pos (by omega)]
    rfl
  · rw [if_neg hfull]
    exact Instance.pushCell_eq_ok.mpr ⟨by omega, _, h.setCell_below (by omega), rfl⟩

/-- **Allotment.** Room is reserved when the margin stays free above it. A number of cells that is
    too large for an address is refused in the same way as one that is too large for the
    instance. -/
theorem HeapBelowStack.allot_eq (n : Nat) : vm.allot n =
    if vm.regs.stk.toInt < vm.regs.hea.toInt + 4 * n + margin then .error .memory
    else .ok (vm.regs.hea, vm.roomier n) := by
  have hheap := h.heap
  have hlt := h.stk_lt
  have hbytes : n * Cell.width = 4 * n := Nat.mul_comm n 4
  rw [allot]
  by_cases hfull : vm.regs.stk.toInt < vm.regs.hea.toInt + 4 * n + margin
  · rw [if_pos hfull]
    by_cases hlarge : 0x80000000 ≤ n * Cell.width
    · rw [if_pos hlarge]
    · rw [if_neg hlarge, if_pos (by omega)]
  · rw [if_neg hfull, if_neg (by omega), if_neg (by omega)]
    rfl

theorem HeapBelowStack.toInt_roomier {n : Nat}
    (hroom : vm.regs.hea.toInt + 4 * n ≤ vm.regs.stk.toInt) :
    (vm.roomier n).regs.hea.toInt = vm.regs.hea.toInt + 4 * n := by
  have hheap := h.heap
  have hlt := h.stk_lt
  have hnat := Cell.toInt_eq_toNat hheap
  have hsum : (vm.roomier n).regs.hea.toNat = vm.regs.hea.toNat + 4 * n := by
    show (vm.regs.hea + BitVec.ofNat 32 (n * 4)).toNat = _
    rw [BitVec.toNat_add, BitVec.toNat_ofNat]
    omega
  rw [BitVec.toInt_eq_toNat_cond, if_pos (by omega)]
  omega

theorem HeapBelowStack.topped (hroom : vm.regs.hea.toInt + 4 ≤ vm.regs.stk.toInt) :
    (vm.topped v).HeapBelowStack := by
  have hbelow := h.toInt_below hroom
  have htop := h.top
  refine h.of_retains (vm.retains_topped v) ?_ ?_ ?_
  all_goals rw [regs_topped]
  · exact h.heap
  · show vm.regs.hea.toInt ≤ (vm.regs.stk - 4).toInt
    omega
  · show (vm.regs.stk - 4).toInt ≤ vm.regs.stp.toInt
    omega

theorem HeapBelowStack.heaped {cs : List Cell}
    (hroom : vm.regs.hea.toInt + 4 * cs.length ≤ vm.regs.stk.toInt) :
      (vm.heaped cs).HeapBelowStack := by
  have hhea : (vm.heaped cs).regs.hea.toInt = _ := h.toInt_roomier hroom
  have hheap := h.heap
  refine h.of_retains (vm.retains_heaped cs) (by omega) ?_ h.top
  rw [hhea]
  exact hroom

/-- **Texts.** A text goes to the heap and its address to the stack. The allotment leaves the margin
    free, and the push takes another cell: when that one is missing, the push fails after the room
    was reserved. -/
theorem HeapBelowStack.pushText_eq (s : String) : vm.pushText s =
    if vm.regs.stk.toInt < vm.regs.hea.toInt + 4 * (Text.cells s).length + margin then
      ⟨.error .memory, vm⟩
    else if vm.regs.stk.toInt < vm.regs.hea.toInt + 4 * (Text.cells s).length + margin + 4 then
      ⟨.error .stackError, vm.heaped (Text.cells s)⟩
    else ⟨.ok vm.regs.hea, (vm.heaped (Text.cells s)).argued vm.regs.hea⟩ := by
  rw [pushText, h.allot_eq]
  by_cases hfull : vm.regs.stk.toInt < vm.regs.hea.toInt + 4 * (Text.cells s).length + margin
  · rw [if_pos hfull, if_pos hfull]
  · have hroom : vm.regs.hea.toInt + 4 * (Text.cells s).length ≤ vm.regs.stk.toInt := by omega
    have hbottom := h.bottom
    have htop := h.top
    have hhea : (vm.heaped (Text.cells s)).regs.hea.toInt = _ := h.toInt_roomier hroom
    have hcells : (vm.roomier (Text.cells s).length).setCells vm.regs.hea (Text.cells s) =
        .ok (vm.heaped (Text.cells s)) :=
      ((vm.retains_roomier _).sized h.sized).setCells_eq _ h.heap
        (by rw [(vm.retains_roomier _).dataSize]; omega)
    rw [if_neg hfull, if_neg hfull]
    dsimp only
    rw [hcells]
    dsimp only
    rw [(h.heaped hroom).push_eq, hhea, show (vm.heaped (Text.cells s)).regs.stk =
        vm.regs.stk from rfl]
    by_cases hlast : vm.regs.stk.toInt < vm.regs.hea.toInt + 4 * (Text.cells s).length + margin + 4
    · rw [if_pos hlast, if_pos hlast]
    · rw [if_neg hlast, if_neg hlast]

end

/-! ## Section 4: What the operations keep -/

/-- From an instance to one in order that has this many more arguments waiting. -/
structure Advances (vm : Instance) (n : Nat) (vm' : Instance) : Prop where
  retains : vm.Retains vm'
  inOrder : vm'.InOrder
  pending : vm'.pending = vm.pending + n

theorem InOrder.advances_refl (h : vm.InOrder) : vm.Advances 0 vm := ⟨.refl vm, h, rfl⟩

theorem Advances.trans {m n : Nat} (h : u.Advances m vm) (h' : vm.Advances n vm') :
    u.Advances (m + n) vm' := by
  refine ⟨h.retains.trans h'.retains, h'.inOrder, ?_⟩
  rw [h'.pending, h.pending, Nat.add_assoc]

section
variable (h : vm.InOrder)
include h

section
variable (hroom : vm.regs.hea.toInt + 4 ≤ vm.regs.stk.toInt)
include hroom

theorem InOrder.topped : (vm.topped v).InOrder := by
  refine ⟨h.toHeapBelowStack.topped hroom, ?_, ?_⟩
  all_goals rw [regs_topped]
  · exact h.low
  · exact h.reserved

theorem InOrder.advances_topped :
    vm.Advances 0 (vm.topped v) :=
  ⟨vm.retains_topped v, h.topped hroom, vm.pending_topped v⟩

theorem InOrder.advances_argued :
    vm.Advances 1 (vm.argued v) := by
  have htopped : (vm.topped v).InOrder := h.topped hroom
  refine ⟨vm.retains_argued v, ?_, ?_⟩
  · exact htopped.setPending _
  · rw [argued, pending_topped]

end

theorem InOrder.advances_roomier {n : Nat} (hroom : vm.regs.hea.toInt + 4 * n ≤ vm.regs.stk.toInt) :
    vm.Advances 0 (vm.roomier n) := by
  have hhea := h.toInt_roomier hroom
  have hlow := h.reserved
  refine ⟨vm.retains_roomier n, h.of_retains (vm.retains_roomier n) (by omega) ?_ h.top, rfl⟩
  rw [hhea]
  exact hroom

theorem InOrder.advances_write (a : Nat) (bytes : List Byte) : vm.Advances 0 (vm.write a bytes) :=
  ⟨vm.retains_write a bytes, h.of_retains (vm.retains_write a bytes) h.reserved h.gap h.top, rfl⟩

theorem InOrder.advances_heaped (cs : List Cell)
    (hroom : vm.regs.hea.toInt + 4 * cs.length ≤ vm.regs.stk.toInt) :
      vm.Advances 0 (vm.heaped cs) := by
  have hfirst := h.advances_roomier hroom
  exact hfirst.trans (hfirst.inOrder.advances_write ..)

/-- A release gives back no more than was reserved. -/
theorem InOrder.advances_release (a : Cell) : vm.Advances 0 (vm.release a) := by
  have hgap := h.gap
  have hreserved := h.reserved
  rw [release]
  split_ifs with habove hbottom
  · -- Down to the bottom of the heap.
    have hretains := vm.retains_put (Or.inl rfl) vm.regs.hlw
    exact ⟨hretains, h.of_retains hretains (Int.le_refl _) (Int.le_trans hreserved hgap) h.top, rfl⟩
  · have hretains := vm.retains_put (Or.inl rfl) a
    refine ⟨hretains, h.of_retains hretains ?_ ?_ h.top, rfl⟩
    · show vm.regs.hlw.toInt ≤ a.toInt
      omega
    · show a.toInt ≤ vm.regs.stk.toInt
      omega
  · exact h.advances_refl

end

theorem getElem?_setCell? {b b' : Block} {o i : Nat} (hset : b.setCell? o v = some b')
    (hout : i < o ∨ o + 4 ≤ i) : b'[i]? = b[i]? := by
  by_cases hle : o + 4 ≤ b.size
  · rw [Block.setCell?_eq hle] at hset
    cases hset
    exact Block.getElem?_overwrite_frame _ hout
  · rw [Block.setCell?, if_neg hle] at hset
    cases hset

/-- A native is bound by a handle in its record, and nothing else of the block changes. -/
theorem InOrder.advances_register (h : vm.InOrder) {name : String} {native : Native}
    (hregister : vm.register name native = .ok vm') : vm.Advances 0 vm' := by
  unfold register at hregister
  split at hregister
  · cases hregister
  next index _ =>
  split at hregister
  · cases hregister
  next o ho =>
  dsimp only at hregister
  split at hregister
  · cases hregister
  next block hblock =>
  obtain rfl := Except.ok.inj hregister
  have hretains : vm.Retains { vm with block, natives := vm.natives.push native } := by
    refine ⟨rfl, Block.size_setCell? hblock, fun _ _ _ => rfl, ?_⟩
    intro i _ hhandle
    apply getElem?_setCell? hblock
    by_contra hin
    exact hhandle ⟨index, o, ho, by omega, by rw [show Cell.width = 4 from rfl]; omega⟩
  exact ⟨hretains, h.of_retains hretains h.reserved h.gap h.top, rfl⟩

/-- **Run.** The natives of a list are bound one after the other. -/
theorem InOrder.advances_registerAll (h : vm.InOrder) (natives : List (String × Native)) :
    vm.Advances 0 (vm.registerAll natives).2 := by
  refine List.foldlRecOn natives _ (motive := fun state : Nat × Instance => vm.Advances 0 state.2)
    h.advances_refl ?_
  rintro ⟨count, vm₁⟩ hstate ⟨name, native⟩ -
  dsimp only at hstate ⊢
  cases hregister : vm₁.register name native with
  | error f => exact hstate
  | ok vm₂ => exact hstate.trans (hstate.inOrder.advances_register hregister)

/-- **Step.** An operation leads from an instance in order to one in order. -/
theorem InOrder.advances_operate (h : vm.InOrder) (op : HostOperation) :
    vm.Advances (vm.argumentsOf op) (vm.operate op).vm := by
  unfold argumentsOf
  cases op with
  | push value =>
    rw [operate, h.push_eq]
    by_cases hfull : vm.regs.stk.toInt < vm.regs.hea.toInt + margin + 4
    · rw [if_pos hfull]
      exact h.advances_refl
    · rw [if_neg hfull]
      exact h.advances_argued (by omega)
  | pushText s =>
    rw [operate, h.pushText_eq]
    by_cases hfull : vm.regs.stk.toInt < vm.regs.hea.toInt + 4 * (Text.cells s).length + margin
    · rw [if_pos hfull]
      exact h.advances_refl
    rw [if_neg hfull]
    have hheaped := h.advances_heaped (Text.cells s) (by omega)
    -- The text is on the heap by now, whether its address still fits on the stack or not.
    by_cases hlast : vm.regs.stk.toInt < vm.regs.hea.toInt + 4 * (Text.cells s).length + margin + 4
    · rw [if_pos hlast]
      exact hheaped
    · rw [if_neg hlast]
      have hhea : (vm.heaped (Text.cells s)).regs.hea.toInt = _ := h.toInt_roomier (by omega)
      have hstk : (vm.heaped (Text.cells s)).regs.stk = vm.regs.stk := rfl
      exact hheaped.trans (hheaped.inOrder.advances_argued (by rw [hhea, hstk]; omega))
  | allot cells =>
    rw [operate, h.allot_eq]
    by_cases hfull : vm.regs.stk.toInt < vm.regs.hea.toInt + 4 * cells + margin
    · rw [if_pos hfull]
      exact h.advances_refl
    · rw [if_neg hfull]
      exact h.advances_roomier (by omega)
  | release address => exact h.advances_release address
  | setCell address value =>
    rw [operate, h.sized.setCell_eq]
    by_cases hcell : vm.HasCell address.toInt
    · rw [if_pos hcell]
      exact h.advances_write ..
    · rw [if_neg hcell]
      exact h.advances_refl
  | register name native =>
    rw [operate]
    cases hregister : vm.register name native with
    | error f => exact h.advances_refl
    | ok vm' => exact h.advances_register hregister
  | registerAll natives => exact h.advances_registerAll natives
  | pushCell value =>
    rw [operate, h.pushCell_eq]
    by_cases hfull : vm.regs.stk.toInt < vm.regs.hea.toInt + 4
    · rw [if_pos hfull]
      exact h.advances_refl
    · rw [if_neg hfull]
      exact h.advances_topped (by omega)

/-- **Run.** So do operations one after the other. -/
theorem InOrder.advances_afterAll (h : vm.InOrder) (ops : List HostOperation) :
    vm.Advances (vm.argumentsOfAll ops) (vm.afterAll ops) := by
  induction ops generalizing vm with
  | nil => exact h.advances_refl
  | cons op ops ih =>
    have hfirst := h.advances_operate op
    exact hfirst.trans (ih hfirst.inOrder)

theorem Reachable.inOrder (h : vm.Reachable) : vm.InOrder := by
  obtain ⟨image, vm₀, ops, hload, rfl⟩ := h
  exact ((inOrder_of_load hload).advances_afterAll ops).inOrder

/-! ## Section 5: Refusals and checks -/

end Instance

namespace HostOperation

/-- The operations that make all their checks before they change anything. -/
def IsAtomic : HostOperation → Prop
  | .push _ | .allot _ | .setCell .. | .pushCell _ => True
  | _ => False

/-- **Rule.** Why one of these operations is refused, in numbers that do not wrap. -/
def Refused (vm : Instance) : HostOperation → Fault → Prop
  | .push _, f => f = .stackError ∧ vm.regs.stk.toInt < vm.regs.hea.toInt + Instance.margin + 4
  | .allot n, f => f = .memory ∧ vm.regs.stk.toInt < vm.regs.hea.toInt + 4 * n + Instance.margin
  | .setCell address _, f => f = .memoryAccess ∧ ¬vm.HasCell address.toInt
  | .pushCell _, f => f = .stackError ∧ vm.regs.stk.toInt < vm.regs.hea.toInt + 4
  | _, _ => False

end HostOperation

namespace Instance

variable {vm : Instance}

theorem commit_of_error {x : Except Fault Instance} {f : Fault}
    (h : (Attempt.commit vm x).result = .error f) : (Attempt.commit vm x).vm = vm := by
  cases x with
  | ok vm' => cases h
  | error f => rfl

/-- An operation that is refused is refused by the rule, and leaves the instance as it was. -/
theorem HeapBelowStack.refused_iff (h : vm.HeapBelowStack) {op : HostOperation}
    (hop : op.IsAtomic) (f : Fault) : ((vm.operate op).result = .error f ↔ op.Refused vm f) ∧
      ((vm.operate op).result = .error f → (vm.operate op).vm = vm) := by
  -- A check that refuses with one fault and the operation behind it.
  have hcheck : ∀ {p : Prop} [Decidable p] {g : Fault} {vm' : Instance},
      (Attempt.commit vm (if p then .error g else .ok vm')).result = .error f ↔ f = g ∧ p := by
    intro p _ g vm'
    by_cases hp : p
    · simp [hp, Attempt.commit, eq_comm]
    · simp [hp, Attempt.commit]
  cases op with
  | push value =>
    refine ⟨?_, commit_of_error⟩
    rw [operate, h.push_eq]
    exact hcheck
  | allot cells =>
    refine ⟨?_, commit_of_error⟩
    rw [operate, h.allot_eq, apply_ite (Except.map Prod.snd)]
    exact hcheck
  | setCell address value =>
    refine ⟨?_, commit_of_error⟩
    rw [operate, h.sized.setCell_eq, ← ite_not]
    exact hcheck
  | pushCell value =>
    refine ⟨?_, commit_of_error⟩
    rw [operate, h.pushCell_eq]
    exact hcheck
  | pushText | release | register | registerAll => exact hop.elim

/-- The sums and differences of cells that the checks are made of do not wrap. -/
structure ChecksExact (vm : Instance) : Prop where
  below : ¬BitVec.ssubOverflow vm.regs.stk 4
  margin : ¬BitVec.saddOverflow vm.regs.hea (BitVec.ofNat 32 Instance.margin)
  gap : ¬BitVec.ssubOverflow vm.regs.stk vm.regs.hea
  room : ∀ bytes : Cell, 0 ≤ bytes.toInt → ¬BitVec.ssubOverflow (vm.regs.stk - vm.regs.hea) bytes

/-- The checks made on cells, which may wrap, decide what the operations decide on numbers. -/
structure ChecksAgree (vm : Instance) : Prop where
  push : (vm.regs.stk - 4).toInt < (vm.regs.hea + BitVec.ofNat 32 Instance.margin).toInt ↔
    vm.regs.stk.toInt - Cell.width < vm.regs.hea.toInt + Instance.margin
  pushCell : (vm.regs.stk - 4).toInt < vm.regs.hea.toInt ↔
    vm.regs.stk.toInt - Cell.width < vm.regs.hea.toInt
  allot : ∀ bytes : Cell, 0 ≤ bytes.toInt →
    ((vm.regs.stk - vm.regs.hea - bytes).toInt < Instance.margin ↔
      vm.regs.stk.toInt - vm.regs.hea.toInt - bytes.toInt < Instance.margin)

theorem ChecksExact.agree (h : vm.ChecksExact) : vm.ChecksAgree := by
  have hbelow : (vm.regs.stk - 4).toInt = vm.regs.stk.toInt - Cell.width :=
    BitVec.toInt_sub_of_not_ssubOverflow h.below
  have hmargin : (vm.regs.hea + BitVec.ofNat 32 Instance.margin).toInt =
      vm.regs.hea.toInt + Instance.margin := BitVec.toInt_add_of_not_saddOverflow h.margin
  refine ⟨by rw [hbelow, hmargin], by rw [hbelow], fun bytes hbytes => ?_⟩
  rw [BitVec.toInt_sub_of_not_ssubOverflow (h.room bytes hbytes),
    BitVec.toInt_sub_of_not_ssubOverflow h.gap]

theorem HeapBelowStack.checksExact (h : vm.HeapBelowStack)
    (hstp : vm.regs.stp.toInt < 0x80000000 - margin) : vm.ChecksExact := by
  have hheap := h.heap
  have hgap := h.gap
  have htop := h.top
  have hgap' : ¬BitVec.ssubOverflow vm.regs.stk vm.regs.hea :=
    Header.not_ssubOverflow_of_le hheap hgap
  constructor
  · have hfour : (4 : Cell).toInt = 4 := rfl
    simp only [BitVec.ssubOverflow, Bool.or_eq_true, decide_eq_true_eq, not_or]
    omega
  · have hmargin : (BitVec.ofNat 32 Instance.margin).toInt = Instance.margin := rfl
    simp only [BitVec.saddOverflow, Bool.or_eq_true, decide_eq_true_eq, not_or]
    omega
  · exact hgap'
  · intro bytes hbytes
    have hsub := BitVec.toInt_sub_of_not_ssubOverflow hgap'
    have hlt := BitVec.toInt_lt (x := bytes)
    have hstk := h.stk_lt
    simp only [BitVec.ssubOverflow, Bool.or_eq_true, decide_eq_true_eq, not_or]
    omega

end Instance

/-! ## Section 6: Loaded images -/

namespace Instance

variable {image : Block} {vm₀ vm : Instance}

theorem lt_cod_of_inHandle (hload : load image = .ok vm₀) {i : Nat} (hi : vm₀.header.InHandle i) :
    i < vm₀.header.cod.toNat := by
  obtain ⟨index, o, ho, -, hlt⟩ := hi
  obtain ⟨header, hparse, heq⟩ := bind_eq_ok.mp hload
  obtain ⟨-, -, hvalid⟩ := Header.parse_eq_ok_iff.mp hparse
  cases heq
  have hle := SymbolTable.recordOffset?_le ho
  have hend := hvalid.table_end (t := header.nativeTable) (by simp)
  rw [show Header.symbolLength = 8 from rfl] at hle hend
  rw [show Cell.width = 4 from rfl] at hlt
  dsimp only at hle ⊢
  omega

theorem Retains.code (h : vm₀.Retains vm) (hload : load image = .ok vm₀) : vm.code = vm₀.code := by
  apply Array.ext_getElem?
  intro i
  rw [Instance.code, Instance.code, h.header, Block.slice, Block.slice, Array.getElem?_extract,
    Array.getElem?_extract, h.size]
  split_ifs with hi
  · refine h.below _ ?_ fun hhandle => ?_
    · rw [dataStart]
      omega
    · have hlt := lt_cod_of_inHandle hload hhandle
      omega
  · rfl

theorem stp_le_of_load (hload : load image = .ok vm₀) :
    vm₀.regs.stp.toInt ≤ vm₀.header.stp.toInt := by
  have hbottom := (inOrder_of_load hload).bottom
  obtain ⟨⟨hcod, hdat, hhea, hstp, -⟩, -⟩ := load_ok hload
  have hlength : (Header.length : Int) = 56 := rfl
  rw [dataSize, Header.dataSize] at hbottom
  omega

end Instance

/-- **Order.** Whatever a host does with a loaded image, heap and stack are in order after each of
    its operations, no check of an operation has to compare a number that has wrapped, so that it
    may as well be made on cells, the registers but those of heap and stack are the ones that the
    image was loaded with, and so is the block below the data segment, but for the handles of
    natives; the code is all the same. The arguments that wait are the successful pushes, and an
    operation that is refused has changed nothing. -/
theorem host_operations_keep_order {image : Block} {vm₀ : Instance}
    (hload : Instance.load image = .ok vm₀)
    (hstp : vm₀.header.stp.toInt < 0x80000000 - Instance.margin) (ops : List HostOperation) :
    (vm₀.afterAll ops).InOrder ∧ (vm₀.afterAll ops).ChecksExact ∧ (vm₀.afterAll ops).ChecksAgree ∧
    vm₀.Retains (vm₀.afterAll ops) ∧
    (vm₀.afterAll ops).code = vm₀.code ∧ (vm₀.afterAll ops).pending = vm₀.argumentsOfAll ops ∧
    ∀ (op : HostOperation) (f : Fault), op.IsAtomic →
      (((vm₀.afterAll ops).operate op).result = .error f ↔ op.Refused (vm₀.afterAll ops) f) ∧
      (((vm₀.afterAll ops).operate op).result = .error f →
        ((vm₀.afterAll ops).operate op).vm = vm₀.afterAll ops) := by
  obtain ⟨hretains, hinOrder, hpending⟩ := (Instance.inOrder_of_load hload).advances_afterAll ops
  have hbottom : (vm₀.afterAll ops).regs.stp = vm₀.regs.stp :=
    hretains.registers .stp (by decide) (by decide)
  have hle := Instance.stp_le_of_load hload
  have hzero : vm₀.pending = 0 := by
    obtain ⟨header, -, heq⟩ := bind_eq_ok.mp hload
    cases heq
    rfl
  have hexact : (vm₀.afterAll ops).ChecksExact := by
    refine hinOrder.checksExact ?_
    rw [hbottom]
    omega
  refine ⟨hinOrder, hexact, hexact.agree, hretains, hretains.code hload, ?_, ?_⟩
  · rw [hpending, hzero, Nat.zero_add]
  · intro op f hop
    exact hinOrder.refused_iff hop f

/-- A session of the host: the import is bound, three arguments are pushed, one of them a text, heap
    is reserved and partly released, and an allotment fails. -/
def importSession : List HostOperation :=
  [.register "hostpush" fun _ => .done 0, .push 7, .pushText "hi", .allot 2, .setCell 100 1,
   .pushCell 9, .push 3, .release 8, .allot 1000]

theorem importInstance_eq (handle : Cell) (natives : Array Native) :
    importInstance handle natives = { importInstance handle natives with
      block := (importBytes handle ++ List.replicate 128 0).toArray } := by
  have hblock : (importInstance handle natives).block =
      (importBytes handle ++ List.replicate 128 0).toArray := by
    apply Array.toList_inj.mp
    show ((importBytes handle).toArray ++ Array.replicate 128 0).toList = _
    rw [Array.toList_append, Array.toList_replicate]
  rw [← hblock]

/-- After the session three arguments wait, heap and stack are in order, and there is no room for a
    hundred cells. -/
theorem importSession_keeps_order :
    ∃ vm, (importInstance 0 #[]).afterAll importSession = vm ∧ vm.InOrder ∧
    vm.pending = 3 ∧ vm.code = (importInstance 0 #[]).code ∧
    (vm.operate (.allot 100)).result = .error .memory ∧ (vm.operate (.allot 100)).vm = vm := by
  obtain ⟨hinOrder, -, -, -, hcode, hpending, hatomic⟩ :=
    host_operations_keep_order load_importImage (by decide) importSession
  obtain ⟨hiff, hunchanged⟩ := hatomic (.allot 100) .memory trivial
  obtain ⟨harguments, hrefused⟩ : (importInstance 0 #[]).argumentsOfAll importSession = 3 ∧
      HostOperation.Refused ((importInstance 0 #[]).afterAll importSession)
        (.allot 100) .memory := by
    rw [importInstance_eq]
    exact ⟨by decide +kernel, rfl, by decide +kernel⟩
  exact ⟨_, rfl, hinOrder, hpending.trans harguments, hcode, hiff.mpr hrefused,
    hunchanged (hiff.mpr hrefused)⟩

end PawnNative
