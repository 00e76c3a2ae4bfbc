import Mathlib.Tactic.Common
import PawnNative.Proofs.Blocks
import PawnNative.Proofs.FloatNatives
import PawnNative.Proofs.HostOperations

/-! # Texts on the heap

    A text that the host pushes is copied to the heap, one character in each cell and
    a zero cell behind them, and its address goes to the stack. It is read back up to
    the first zero cell, so a text without zeros is read back as it was.

    It also stays there. The heap grows above the text and the stack grows down towards
    it, and neither passes the top of the heap: `KeepsHeap` says that the bytes below
    it are the same. What a push of a text does not do is to give the heap back when
    the push of the address fails.
-/

namespace PawnNative

/-! ## Section 1: Reading back -/

namespace Text

theorem length_cells (s : String) : (cells s).length = s.length + 1 := by
  simp [cells, String.length_toList]

theorem toNat_ofNat_char (c : Char) : (BitVec.ofNat 32 c.toNat : Cell).toNat = c.toNat := by
  rw [BitVec.toNat_ofNat]
  exact Nat.mod_eq_of_lt c.val.toBitVec.isLt

theorem character_ofNat (c : Char) : character (BitVec.ofNat 32 c.toNat) = c := by
  rw [character, toNat_ofNat_char, if_pos (show c.toNat.isValidChar from c.valid)]
  exact Char.ofNat_toNat c

theorem ofNat_char_ne_zero {c : Char} (hc : c ≠ '\x00') : (BitVec.ofNat 32 c.toNat : Cell) ≠ 0 := by
  intro hzero
  have hnat := congrArg BitVec.toNat hzero
  rw [toNat_ofNat_char] at hnat
  exact hc (Char.toNat_inj.mp hnat)

end Text

theorem Block.cell?_overwrite_flatMap {b : Block} {o k : Nat} {cs : List Cell} {v : Cell}
    (hroom : o + 4 * cs.length ≤ b.size) (hk : cs[k]? = some v) :
    (b.overwrite o (cs.flatMap Cell.bytes)).cell? (o + 4 * k) = some v := by
  induction cs generalizing b o k with
  | nil => cases hk
  | cons c cs ih =>
    rw [List.length_cons] at hroom
    have hbytes : c.bytes.length = 4 := rfl
    rw [List.flatMap_cons, ← overwrite_append, hbytes]
    cases k with
    | zero =>
      obtain rfl : c = v := Option.some_inj.mp hk
      rw [cell?_congr (size_overwrite _ _ _) fun j hj => getElem?_overwrite_frame _
          (Or.inl (by omega))]
      exact cell?_setCell? (setCell?_eq (by omega) c)
    | succ k =>
      rw [show o + 4 * (k + 1) = o + 4 + 4 * k by omega]
      exact ih (by rw [size_overwrite]; omega) hk

namespace Instance

variable {u vm vm' : Instance} {a : Cell}

/-- **Run.** Characters are read up to the zero cell. -/
theorem Sized.text_go_eq_ok (h : vm.Sized) (cs : List Char) (hcs : '\x00' ∉ cs) {n : Nat}
    (hn : cs.length < n)
    (hholds : vm.Holds a.toNat (cs.map (fun c => BitVec.ofNat 32 c.toNat) ++ [0])) :
    text.go vm n a = .ok cs := by
  induction cs generalizing a n with
  | nil =>
    obtain ⟨n, rfl⟩ := Nat.exists_eq_succ_of_ne_zero (Nat.ne_of_gt hn)
    have hcell := hholds 0 0 rfl
    rw [Int.natCast_zero, Int.mul_zero, Int.add_zero] at hcell
    rw [text.go, h.cell_eq_ok hcell]
    rfl
  | cons c cs ih =>
    obtain ⟨n, rfl⟩ := Nat.exists_eq_succ_of_ne_zero (Nat.ne_of_gt (Nat.zero_lt_of_lt hn))
    obtain ⟨hc, hcs⟩ : '\x00' ≠ c ∧ '\x00' ∉ cs := by simpa using hcs
    have hcell := hholds 0 _ rfl
    rw [Int.natCast_zero, Int.mul_zero, Int.add_zero] at hcell
    -- The next cell has the next address, since the data segment ends below the largest one.
    have hle := h.cell_le (hasCell_of_cellAt hcell)
    have hbounded := h.bounded
    rw [Int.toNat_natCast] at hle
    have hnext : (a + 4).toNat = a.toNat + 4 := by bv_omega
    have hrest := ih hcs (a := a + 4) (n := n) (by rw [List.length_cons] at hn; omega)
      (by rw [hnext, Int.natCast_add]; exact hholds.tail)
    rw [text.go, h.cell_eq_ok hcell, ok_bind, if_neg (Text.ofNat_char_ne_zero (Ne.symm hc)), hrest,
      Text.character_ofNat]
    rfl

theorem Sized.text_eq_ok (h : vm.Sized) {s : String} (hs : '\x00' ∉ s.toList)
    (hholds : vm.Holds a.toNat (Text.cells s)) : vm.text a = .ok s := by
  have hlast := hholds s.toList.length 0 (by simp [Text.cells])
  have hle := (hasCell_of_cellAt hlast).2
  have hfuel : s.toList.length < vm.dataSize / Cell.width + 1 := by
    rw [show Cell.width = 4 from rfl] at hle ⊢
    omega
  rw [text, h.text_go_eq_ok s.toList hs hfuel hholds]
  exact congrArg Except.ok String.ofList_toList

/-! ## Section 2: What stays below the top of the heap -/

/-- The heap has not become smaller, and the bytes below its old top are the same. -/
structure KeepsHeap (vm vm' : Instance) : Prop where
  hea : vm.regs.hea.toNat ≤ vm'.regs.hea.toNat
  bytes : ∀ i < vm.dataStart + vm.regs.hea.toNat, vm'.block[i]? = vm.block[i]?

theorem KeepsHeap.refl (vm : Instance) : vm.KeepsHeap vm := ⟨Nat.le_refl _, fun _ _ => rfl⟩

theorem KeepsHeap.trans (h : u.KeepsHeap vm) (hretains : u.Retains vm) (h' : vm.KeepsHeap vm') :
    u.KeepsHeap vm' := by
  refine ⟨Nat.le_trans h.hea h'.hea, ?_⟩
  intro i hi
  have hstart : vm.dataStart = u.dataStart := by rw [dataStart, dataStart, hretains.header]
  have hhea := h.hea
  rw [h'.bytes i (by omega), h.bytes i hi]

/-- Cells below the top of the heap stay where they are. -/
theorem KeepsHeap.holds (h : vm.KeepsHeap vm') (hretains : vm.Retains vm') {x : Nat}
    {cs : List Cell}
    (hx : x + 4 * cs.length ≤ vm.regs.hea.toNat) (hholds : vm.Holds x cs) : vm'.Holds x cs := by
  intro k v hk
  have hcell := hholds k v hk
  have hin := hasCell_of_cellAt hcell
  have hin' : vm'.HasCell (x + 4 * k) := by
    unfold HasCell
    rw [hretains.dataSize]
    exact hin
  have hlt : k < cs.length := (List.getElem?_eq_some_iff.mp hk).1
  have hstart : vm'.dataStart = vm.dataStart := by rw [dataStart, dataStart, hretains.header]
  rw [cellAt?, if_pos hin] at hcell
  rw [cellAt?, if_pos hin', hstart, ← hcell]
  exact Block.cell?_congr hretains.size fun j hj => h.bytes _ (by omega)

section
variable (h : vm.InOrder)
include h

theorem InOrder.keepsHeap_argued (v : Cell) (hroom : vm.regs.hea.toInt + 4 ≤ vm.regs.stk.toInt) :
    vm.KeepsHeap (vm.argued v) := by
  have hbelow := h.toInt_below hroom
  have hheap := h.heap
  have hnat := Cell.toInt_eq_toNat hheap
  have hnat' := Cell.toInt_eq_toNat (c := vm.regs.stk - 4) (by omega)
  constructor
  · exact Nat.le_of_eq (by rw [regs_argued, regs_topped])
  · intro i hi
    rw [block_argued, block_topped]
    exact Block.getElem?_overwrite_frame _ (Or.inl (by omega))

theorem InOrder.keepsHeap_roomier {n : Nat}
    (hroom : vm.regs.hea.toInt + 4 * n ≤ vm.regs.stk.toInt) : vm.KeepsHeap (vm.roomier n) := by
  have hhea := h.toInt_roomier hroom
  have hheap := h.heap
  have hnat := Cell.toInt_eq_toNat hheap
  have hnat' := Cell.toInt_eq_toNat (c := (vm.roomier n).regs.hea) (by omega)
  exact ⟨by omega, fun _ _ => rfl⟩

theorem InOrder.keepsHeap_heaped (cs : List Cell)
    (hroom : vm.regs.hea.toInt + 4 * cs.length ≤ vm.regs.stk.toInt) :
      vm.KeepsHeap (vm.heaped cs) := by
  obtain ⟨hhea, -⟩ := h.keepsHeap_roomier hroom
  refine ⟨hhea, ?_⟩
  intro i hi
  rw [block_heaped]
  exact Block.getElem?_overwrite_frame _ (Or.inl hi)

end

end Instance

/-- The operations that take room on the heap or on the stack, as far as they keep the margin. -/
def HostOperation.Grows : HostOperation → Prop
  | .push _ | .pushText _ | .allot _ => True
  | _ => False

namespace Instance

variable {vm : Instance}

/-- **Step.** Such an operation keeps what is on the heap. -/
theorem InOrder.keepsHeap_operate (h : vm.InOrder) {op : HostOperation} (hop : op.Grows) :
    vm.KeepsHeap (vm.operate op).vm := by
  cases op with
  | push value =>
    rw [operate, h.push_eq]
    by_cases hfull : vm.regs.stk.toInt < vm.regs.hea.toInt + margin + 4
    · rw [if_pos hfull]
      exact .refl vm
    · rw [if_neg hfull]
      exact h.keepsHeap_argued value (by omega)
  | pushText s =>
    rw [operate, h.pushText_eq]
    by_cases hfull : vm.regs.stk.toInt < vm.regs.hea.toInt + 4 * (Text.cells s).length + margin
    · rw [if_pos hfull]
      exact .refl vm
    rw [if_neg hfull]
    have hheaped := h.keepsHeap_heaped (Text.cells s) (by omega)
    by_cases hlast : vm.regs.stk.toInt < vm.regs.hea.toInt + 4 * (Text.cells s).length + margin + 4
    · rw [if_pos hlast]
      exact hheaped
    · rw [if_neg hlast]
      have hadvances := h.advances_heaped (Text.cells s) (by omega)
      have hhea : (vm.heaped (Text.cells s)).regs.hea.toInt = _ := h.toInt_roomier (by omega)
      have hstk : (vm.heaped (Text.cells s)).regs.stk = vm.regs.stk := rfl
      exact hheaped.trans hadvances.retains
        (hadvances.inOrder.keepsHeap_argued vm.regs.hea (by rw [hhea, hstk]; omega))
  | allot cells =>
    rw [operate, h.allot_eq]
    by_cases hfull : vm.regs.stk.toInt < vm.regs.hea.toInt + 4 * cells + margin
    · rw [if_pos hfull]
      exact .refl vm
    · rw [if_neg hfull]
      exact h.keepsHeap_roomier (by omega)
  | release | setCell | register | registerAll | pushCell => exact hop.elim

/-- **Run.** So do operations of this kind one after the other. -/
theorem InOrder.keepsHeap_afterAll (h : vm.InOrder) {ops : List HostOperation}
    (hops : ∀ op ∈ ops, op.Grows) : vm.KeepsHeap (vm.afterAll ops) := by
  induction ops generalizing vm with
  | nil => exact .refl vm
  | cons op ops ih =>
    have hfirst := h.advances_operate op
    have hrest := ih hfirst.inOrder fun op' hop' => hops op' (List.mem_cons_of_mem _ hop')
    exact (h.keepsHeap_operate (hops op List.mem_cons_self)).trans hfirst.retains hrest

/-! ## Section 3: Pushing texts -/

theorem getElem?_data (vm : Instance) (i : Nat) : vm.data[i]? = vm.block[vm.dataStart + i]? := by
  rw [data, Block.slice, Array.getElem?_extract]
  split_ifs with hi
  · rfl
  · exact (Array.getElem?_eq_none (by omega)).symm

section
variable {s : String} (h : vm.InOrder)
include h

theorem InOrder.holds_heaped (cs : List Cell)
    (hroom : vm.regs.hea.toInt + 4 * cs.length ≤ vm.regs.stk.toInt) :
    (vm.heaped cs).Holds vm.regs.hea.toNat cs := by
  have hnat := Cell.toInt_eq_toNat h.heap
  have htop := h.top
  have hbottom := h.bottom
  have htotal := h.sized.total
  rw [show Cell.width = 4 from rfl] at hbottom
  intro k v hk
  have hlt : k < cs.length := (List.getElem?_eq_some_iff.mp hk).1
  have hcell : (vm.heaped cs).HasCell (vm.regs.hea.toNat + 4 * k) := by
    unfold HasCell
    rw [(vm.retains_heaped cs).dataSize, show Cell.width = 4 from rfl]
    constructor <;> omega
  have hstart : (vm.heaped cs).dataStart = vm.dataStart := rfl
  rw [cellAt?, if_pos hcell, hstart, block_heaped]
  rw [show vm.dataStart + ((vm.regs.hea.toNat : Int) + 4 * k).toNat =
    vm.dataStart + vm.regs.hea.toNat + 4 * k by omega]
  exact Block.cell?_overwrite_flatMap (by omega) hk

theorem InOrder.getElem?_data_heaped {cs : List Cell} {i : Nat}
    (hout : ¬(vm.regs.hea.toInt ≤ i ∧ i < vm.regs.hea.toInt + 4 * cs.length)) :
    (vm.heaped cs).data[i]? = vm.data[i]? := by
  have hnat := Cell.toInt_eq_toNat h.heap
  have hbytes : (cs.flatMap Cell.bytes).length = 4 * cs.length := by
    simp [List.length_flatMap, Cell.bytes, Nat.mul_comm]
  rw [getElem?_data, getElem?_data, block_heaped]
  exact Block.getElem?_overwrite_frame _
    (by rw [hbytes, show (vm.heaped cs).dataStart = vm.dataStart from rfl]; omega)

section
variable (hroom : vm.regs.hea.toInt + 4 ≤ vm.regs.stk.toInt)
include hroom

theorem InOrder.toInt_stk_argued (v : Cell) :
    (vm.argued v).regs.stk.toInt = vm.regs.stk.toInt - 4 := by
  rw [regs_argued, regs_topped]
  exact h.toInt_below hroom

theorem InOrder.getElem?_data_argued {v : Cell} {i : Nat}
    (hout : ¬(vm.regs.stk.toInt - 4 ≤ i ∧ i < vm.regs.stk.toInt)) :
      (vm.argued v).data[i]? = vm.data[i]? := by
  have hbelow := h.toInt_below hroom
  have hheap := h.heap
  have hnat := Cell.toInt_eq_toNat (c := vm.regs.stk - 4) (by omega)
  have hstart : (vm.argued v).dataStart = vm.dataStart := by
    rw [dataStart, dataStart, (vm.retains_argued v).header]
  have hbytes : v.bytes.length = 4 := rfl
  rw [getElem?_data, getElem?_data, block_argued, block_topped, hstart]
  exact Block.getElem?_overwrite_frame _ (by rw [hbytes]; omega)

theorem InOrder.cell_argued (v : Cell) : (vm.argued v).cell (vm.argued v).regs.stk = .ok v := by
  have hbelow := h.toInt_below hroom
  have hheap := h.heap
  have htop := h.top
  have hbottom := h.bottom
  have hnat := Cell.toInt_eq_toNat (c := vm.regs.stk - 4) (by omega)
  have hsized := (vm.retains_argued v).sized h.sized
  have hcell : vm.HasCell ((vm.regs.stk - 4).toNat : Int) := by
    constructor <;> omega
  have hcell' : (vm.argued v).HasCell ((vm.regs.stk - 4).toNat : Int) := by
    unfold HasCell
    rw [(vm.retains_argued v).dataSize]
    exact hcell
  have hstart : (vm.argued v).dataStart = vm.dataStart := by
    rw [dataStart, dataStart, (vm.retains_argued v).header]
  have hset := Block.setCell?_eq (h.sized.cell_le hcell) v
  rw [Int.toNat_natCast] at hset
  rw [regs_argued, regs_topped]
  apply hsized.cell_eq_ok
  rw [cellAt?, if_pos hcell', hstart, block_argued, block_topped, Int.toNat_natCast]
  exact Block.cell?_setCell? hset

end

/-- A text below the top of the heap can still be read after operations that keep the heap. -/
theorem InOrder.text_afterAll (hs : '\x00' ∉ s.toList) {a : Cell}
    (hholds : vm.Holds a.toNat (Text.cells s))
    (ha : a.toNat + 4 * (Text.cells s).length ≤ vm.regs.hea.toNat)
    {ops : List HostOperation} (hops : ∀ op ∈ ops, op.Grows) :
      (vm.afterAll ops).text a = .ok s := by
  obtain ⟨hretains, hinOrder, -⟩ := h.advances_afterAll ops
  exact hinOrder.sized.text_eq_ok hs ((h.keepsHeap_afterAll hops).holds hretains ha hholds)

/-- What a push of a text needs when it succeeds, and what it leaves. -/
theorem InOrder.pushText_eq_ok {address : Cell} (hpush : (vm.pushText s).result = .ok address) :
    vm.regs.hea.toInt + 4 * (Text.cells s).length + margin + 4 ≤ vm.regs.stk.toInt ∧
      address = vm.regs.hea ∧
      (vm.pushText s).vm = (vm.heaped (Text.cells s)).argued vm.regs.hea := by
  rw [h.pushText_eq] at hpush ⊢
  by_cases hfull : vm.regs.stk.toInt < vm.regs.hea.toInt + 4 * (Text.cells s).length + margin
  · rw [if_pos hfull] at hpush
    cases hpush
  rw [if_neg hfull] at hpush ⊢
  by_cases hlast : vm.regs.stk.toInt < vm.regs.hea.toInt + 4 * (Text.cells s).length + margin + 4
  · rw [if_pos hlast] at hpush
    cases hpush
  · rw [if_neg hlast] at hpush ⊢
    exact ⟨by omega, (Except.ok.inj hpush).symm, rfl⟩

end

end Instance

open Instance

/-- **Texts.** A text without zeros that is pushed lies where the heap ended, can be read there, and
    its address is on top of the stack; no other byte of the data segment has changed. It can still
    be read there after any pushes and allotments, whether they succeed or fail. -/
theorem pushed_texts_stay {vm : Instance} (hvm : vm.Reachable) {s : String} (hs : '\x00' ∉ s.toList)
    {address : Cell} (hpush : (vm.pushText s).result = .ok address) :
    ∃ vm', (vm.pushText s).vm = vm' ∧ address = vm.regs.hea ∧ vm'.text address = .ok s ∧
      vm'.cell vm'.regs.stk = .ok address ∧ vm'.regs.stk.toInt = vm.regs.stk.toInt - 4 ∧
      vm'.regs.hea.toInt = vm.regs.hea.toInt + 4 * (s.length + 1) ∧
      (∀ i : Nat, ¬(vm.regs.hea.toInt ≤ i ∧ i < vm'.regs.hea.toInt) →
        ¬(vm'.regs.stk.toInt ≤ i ∧ i < vm'.regs.stk.toInt + 4) → vm'.data[i]? = vm.data[i]?) ∧
      ∀ ops : List HostOperation, (∀ op ∈ ops, op.Grows) →
        (vm'.afterAll ops).text address = .ok s := by
  have h := hvm.inOrder
  obtain ⟨hroom, rfl, hvm'⟩ := h.pushText_eq_ok hpush
  have hlength := Text.length_cells s
  -- The instance with the text on its heap, before its address is pushed.
  have hheaped := h.advances_heaped (Text.cells s) (by omega)
  have hhea : (vm.heaped (Text.cells s)).regs.hea.toInt = _ := h.toInt_roomier (by omega)
  have hstk : (vm.heaped (Text.cells s)).regs.stk.toInt = vm.regs.stk.toInt := rfl
  have hholds := h.holds_heaped (Text.cells s) (by omega)
  have hdata : ∀ i : Nat, _ → (vm.heaped (Text.cells s)).data[i]? = vm.data[i]? :=
    fun _ => h.getElem?_data_heaped
  generalize vm.heaped (Text.cells s) = vm₁ at *
  have h₁ := hheaped.inOrder
  have hroom₁ : vm₁.regs.hea.toInt + 4 ≤ vm₁.regs.stk.toInt := by omega
  have hargued := h₁.advances_argued (v := vm.regs.hea) hroom₁
  have hkeeps := h₁.keepsHeap_argued vm.regs.hea hroom₁
  have hstk' := h₁.toInt_stk_argued hroom₁ vm.regs.hea
  have hcell := h₁.cell_argued hroom₁ vm.regs.hea
  have hdata' : ∀ i : Nat, _ → (vm₁.argued vm.regs.hea).data[i]? = vm₁.data[i]? :=
    fun _ => h₁.getElem?_data_argued hroom₁
  have hhea' : (vm₁.argued vm.regs.hea).regs.hea.toInt = vm₁.regs.hea.toInt := by
    rw [regs_argued, regs_topped]
  generalize vm₁.argued vm.regs.hea = vm' at *
  have hnat := Cell.toInt_eq_toNat h.heap
  have hnat₁ := Cell.toInt_eq_toNat h₁.heap
  have hnat' := Cell.toInt_eq_toNat hargued.inOrder.heap
  have hholds' := hkeeps.holds hargued.retains (by omega) hholds
  refine ⟨vm', hvm', rfl, ?_, hcell, by omega, by omega, ?_, ?_⟩
  · exact hargued.inOrder.sized.text_eq_ok hs hholds'
  · intro i hheap hstack
    rw [hdata' i (by omega), hdata i (by omega)]
  · intro ops hops
    exact hargued.inOrder.text_afterAll hs hholds' (by omega) hops

theorem reachable_importInstance : (importInstance 0 #[]).Reachable :=
  ⟨_, _, [], load_importImage, rfl⟩

/-- A text with a character that is more than one byte long in a file takes one cell for it. -/
theorem pushed_greeting_stays : ∃ vm, ((importInstance 0 #[]).pushText "grüezi").vm = vm ∧
    vm.text 0 = .ok "grüezi" ∧ vm.regs.hea.toInt = 28 ∧
    (vm.afterAll [.push 5, .pushText "x", .allot 1000]).text 0 = .ok "grüezi" := by
  have h := reachable_importInstance.inOrder
  have hpush : ((importInstance 0 #[]).pushText "grüezi").result = .ok 0 := by
    rw [h.pushText_eq, if_neg (by decide), if_neg (by decide)]
    rfl
  obtain ⟨vm, hvm, -, htext, -, -, hhea, -, hlater⟩ :=
    pushed_texts_stay reachable_importInstance (by decide) hpush
  exact ⟨vm, hvm, htext, hhea, hlater _ (by simp [HostOperation.Grows])⟩

/-- **Failures.** A push of a text fails in two ways. Without room for the text and the margin
    nothing changes. With room for these and not for the address as well, the address is not pushed,
    but the room for the text stays reserved: the heap has grown, and it is the only register that
    has changed. So the registers are as they were exactly when it was the allotment that failed. -/
theorem failed_texts_keep_registers_iff {vm : Instance} (hvm : vm.Reachable) (s : String) :
    (vm.regs.stk.toInt < vm.regs.hea.toInt + 4 * (s.length + 1) + margin →
      vm.pushText s = ⟨.error .memory, vm⟩) ∧
    (vm.regs.hea.toInt + 4 * (s.length + 1) + margin ≤ vm.regs.stk.toInt →
      vm.regs.stk.toInt < vm.regs.hea.toInt + 4 * (s.length + 1) + margin + 4 →
      (vm.pushText s).result = .error .stackError ∧
      (vm.pushText s).vm.regs.hea.toInt = vm.regs.hea.toInt + 4 * (s.length + 1)) ∧
    (vm.regs.hea.toInt + 4 * (s.length + 1) + margin + 4 ≤ vm.regs.stk.toInt →
      (vm.pushText s).result = .ok vm.regs.hea) ∧
    ∀ f, (vm.pushText s).result = .error f →
      (vm.pushText s).vm.pending = vm.pending ∧
      (∀ r, r ≠ .hea → (vm.pushText s).vm.regs.get r = vm.regs.get r) ∧
      ((vm.pushText s).vm.regs = vm.regs ↔ f = .memory) := by
  have h := hvm.inOrder
  have hlength : (((Text.cells s).length : Nat) : Int) = s.length + 1 := by
    rw [Text.length_cells]; rfl
  rw [h.pushText_eq, hlength]
  by_cases hfull : vm.regs.stk.toInt < vm.regs.hea.toInt + 4 * (s.length + 1) + margin
  · rw [if_pos hfull]
    refine ⟨fun _ => rfl, by omega, by omega, ?_⟩
    rintro f ⟨⟩
    exact ⟨rfl, fun _ _ => rfl, by simp⟩
  rw [if_neg hfull]
  have hhea : (vm.heaped (Text.cells s)).regs.hea.toInt = _ := h.toInt_roomier (by omega)
  -- There is room for the text. The heap has grown by now, and only the address can still fail.
  by_cases hlast : vm.regs.stk.toInt < vm.regs.hea.toInt + 4 * (s.length + 1) + margin + 4
  · rw [if_pos hlast]
    refine ⟨by omega, fun _ _ => ⟨rfl, by rw [hhea, hlength]⟩, by omega, ?_⟩
    rintro f ⟨⟩
    refine ⟨rfl, ?_, ?_⟩
    · intro r hr
      cases r with
      | hea => exact absurd rfl hr
      | pri | alt | frm | stk | hlw | stp | cip => rfl
    · simp only [reduceCtorEq, iff_false]
      intro hregs
      rw [hregs] at hhea
      omega
  · rw [if_neg hlast]
    refine ⟨by omega, by omega, fun _ => rfl, ?_⟩
    rintro f ⟨⟩

/-- A text of fourteen characters fits with the margin into the free space of the image, and its
    address does not: the push fails, and the room for the text is gone. -/
theorem failed_text_stays_reserved :
    ((importInstance 0 #[]).pushText "fourteen chars").result = .error .stackError ∧
    ((importInstance 0 #[]).pushText "fourteen chars").vm.regs.hea.toInt = 60 ∧
    ((importInstance 0 #[]).pushText "fourteen chars").vm.regs ≠ (importInstance 0 #[]).regs := by
  obtain ⟨-, hlast, -, hfails⟩ :=
    failed_texts_keep_registers_iff reachable_importInstance "fourteen chars"
  obtain ⟨hresult, hhea⟩ := hlast (by decide) (by decide)
  obtain ⟨-, -, hiff⟩ := hfails _ hresult
  exact ⟨hresult, hhea, fun hregs => absurd (hiff.mp hregs) (by decide)⟩

end PawnNative
