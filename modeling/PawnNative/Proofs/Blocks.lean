import Mathlib.Tactic.Common
import PawnNative.Proofs.Indirect

/-! # Block operations

    Three instructions work on blocks of the data segment: a move, a comparison and
    a fill. What they should do is said here in steps over the bytes and cells of the
    blocks, in increasing order of addresses, which matters where blocks overlap. The
    processor has one instruction for each of them, but these take their operands from
    fixed registers, two of which are the computing registers of the bytecode.
-/

namespace PawnNative

open X64 Convention Template

/-! ## Section 1: What the operations should do -/

namespace Block

variable {b : Block} {dst n : Nat} {v : Cell}

/-- Stores a cell a number of times, from the lowest address up. -/
def fillUp (b : Block) (dst : Nat) (v : Cell) (n : Nat) : Block :=
  (List.range n).foldl (fun b k => b.overwrite (dst + Cell.width * k) v.bytes) b

theorem fillUp_succ (b : Block) (dst : Nat) (v : Cell) (n : Nat) :
    b.fillUp dst v (n + 1) = (b.fillUp dst v n).overwrite (dst + Cell.width * n) v.bytes := by
  rw [fillUp, List.range_succ, List.foldl_append, List.foldl_cons, List.foldl_nil, fillUp]

theorem fillUp_eq (b : Block) (dst : Nat) (v : Cell) (n : Nat) :
    b.fillUp dst v n = b.overwrite dst (List.replicate n v.bytes).flatten := by
  induction n with
  | zero => rfl
  | succ n ih =>
    have hlength : (List.replicate n v.bytes).flatten.length = Cell.width * n := by
      simp [Cell.bytes, Cell.width, Nat.mul_comm]
    rw [List.replicate_succ', List.flatten_append, List.flatten_singleton,
      ← overwrite_append, hlength, ← ih, fillUp_succ]

theorem cell?_congr {b' : Block} {o : Nat} (hsize : b'.size = b.size)
    (h : ∀ j < 4, b'[o + j]? = b[o + j]?) : b'.cell? o = b.cell? o := by
  have hbyte : ∀ j < 4, b'.getD (o + j) 0 = b.getD (o + j) 0 := fun j hj => by
    rw [Array.getD_eq_getD_getElem?, h j hj, Array.getD_eq_getD_getElem?]
  unfold cell?
  rw [hsize, hbyte 1 (by decide), hbyte 2 (by decide), hbyte 3 (by decide),
    show b'.getD o 0 = b.getD o 0 from hbyte 0 (by decide)]

/-- Every cell that was stored is there in the end. -/
theorem cell?_fillUp {k : Nat} (hk : k < n) (hroom : dst + Cell.width * n ≤ b.size) :
    (b.fillUp dst v n).cell? (dst + Cell.width * k) = some v := by
  have hsize : ∀ n, (b.fillUp dst v n).size = b.size := fun n => by rw [fillUp_eq, size_overwrite]
  have hwidth : Cell.width = 4 := rfl
  induction n with
  | zero => exact absurd hk (Nat.not_lt_zero k)
  | succ n ih =>
    rw [fillUp_succ, hwidth]
    rw [hwidth] at ih hroom
    by_cases hlast : k = n
    · rw [hlast]
      exact cell?_setCell? (setCell?_eq (by rw [hsize]; omega) v)
    · rw [cell?_congr (size_overwrite _ _ _) fun j hj => getElem?_overwrite_frame _
          (Or.inl (by omega))]
      exact ih (by omega) (by omega)

end Block

/-- The instance after a block operation on this number of bytes. The block at the primary register
    is the source, the one at the alternate register the destination. -/
def Instance.afterBlock (vm : Instance) (op : Opcode) (len : Nat) : Instance :=
  let src := vm.regs.pri.toNat
  let dst := vm.regs.alt.toNat
  match op with
  | .movs => { vm with block := vm.block.copyUp (vm.dataStart + src) (vm.dataStart + dst) len }
  | .cmps => vm.put .pri (orderCell (lexOrder (vm.bytesAt dst len) (vm.bytesAt src len)))
  | .fill =>
    { vm with block := vm.block.fillUp (vm.dataStart + dst) vm.regs.pri (len / Cell.width) }
  | _ => vm

namespace Instance

variable (vm : Instance) (op : Opcode) (len : Nat)

theorem afterBlock_frame {k : Nat}
    (hk : k < vm.dataStart + vm.regs.alt.toNat ∨ vm.dataStart + vm.regs.alt.toNat + len ≤ k) :
    (vm.afterBlock op len).block[k]? = vm.block[k]? := by
  cases op with
  | movs =>
    obtain ⟨bytes, hlength, hcopy⟩ := vm.block.exists_copyUp (vm.dataStart + vm.regs.pri.toNat)
      (vm.dataStart + vm.regs.alt.toNat) len
    show (vm.block.copyUp _ _ _)[k]? = _
    rw [hcopy]
    exact Block.getElem?_overwrite_frame _ (by rw [hlength]; exact hk)
  | fill =>
    have hlength : (List.replicate (len / Cell.width) vm.regs.pri.bytes).flatten.length ≤ len := by
      simp only [List.length_flatten, List.map_replicate, List.sum_replicate_nat]
      exact Nat.div_mul_le_self len 4
    show (vm.block.fillUp _ _ _)[k]? = _
    rw [Block.fillUp_eq]
    exact Block.getElem?_overwrite_frame _ (by omega)
  | _ => rfl

end Instance

/-! ## Section 2: What the code does -/

/-- A machine has made a block operation. -/
structure Machine.Operated (op : Opcode) (len : Nat) (m m' : Machine) : Prop where
  layout : m'.layout = m.layout
  spilled : m'.spilled = m.spilled.afterBlock op len
  stack : m'.reg stk = m.reg stk
  frame : m'.reg frm = m.reg frm

namespace Machine

variable {m m' : Machine} {ws : List Reg} {h : Host}

theorem Becomes.spilled_block {b : Block}
    (hm : Becomes ws { m.host with vm := { m.host.vm with block := b } } m m')
    (hws : ∀ r ∈ held, r ∉ ws) : m'.spilled = { m.spilled with block := b } := by
  have hsame : ∀ r ∈ held, m'.reg32 r = m.reg32 r :=
    fun r hr => congrArg (BitVec.setWidth 32) (hm.regs r (hws r hr))
  unfold Machine.spilled
  rw [hm.host, hsame pri (by decide), hsame alt (by decide), hsame stk (by decide),
    hsame frm (by decide), hsame data (by decide)]
  rfl

theorem Becomes.spilled_pri (hm : Becomes ws m.host m m')
    (hws : ∀ r ∈ [alt, stk, frm, data], r ∉ ws) :
    m'.spilled = m.spilled.put .pri (m'.reg32 pri) := by
  have hsame : ∀ r ∈ [alt, stk, frm, data], m'.reg32 r = m.reg32 r := fun r hr =>
    congrArg (BitVec.setWidth 32) (hm.regs r (hws r hr))
  unfold Machine.spilled
  rw [hm.host, hsame alt (by decide), hsame stk (by decide), hsame frm (by decide),
    hsame data (by decide)]
  rfl

end Machine

section
variable {ctx : Context} {i : Instruction} {ls : List Line} {m : Machine} (hdata : m.HasData)
  (hsize : m.host.vm.dataSize = ctx.dataSize) (hup : m.down = false) (halt : m.Narrow alt)
  (hdst : (m.reg32 alt).toNat + i.arg.toNat ≤ ctx.dataSize)
include hdata hsize hup halt hdst

theorem comes_movs (hop : i.opcode = .movs) (hpri : m.Narrow pri)
    (hsrc : (m.reg32 pri).toNat + i.arg.toNat ≤ ctx.dataSize) (hls : template ctx i = .ok ls) :
    Comes ls m none (m.Operated .movs i.arg.toNat) := by
  rw [template, hop] at hls
  obtain ⟨rfl, -⟩ := eq_of_blockLength hls
  refine comes_checkTwo (Indirect.size_lt hdata hsize) rfl rfl hsrc hdst fun f => ?_
  rw [← hsize] at hsrc hdst
  refine (comes_move hdata hup halt hdst f hpri hsrc).mono fun m' hm' =>
    ⟨hm'.layout, ?_, hm'.regs stk (by decide), hm'.regs frm (by decide)⟩
  exact hm'.spilled_block (by decide)

theorem comes_cmps (hop : i.opcode = .cmps) (hpri : m.Narrow pri)
    (hsrc : (m.reg32 pri).toNat + i.arg.toNat ≤ ctx.dataSize) (hls : template ctx i = .ok ls) :
    Comes ls m none (m.Operated .cmps i.arg.toNat) := by
  rw [template, hop] at hls
  obtain ⟨rfl, -⟩ := eq_of_blockLength hls
  refine comes_checkTwo (Indirect.size_lt hdata hsize) rfl rfl hsrc hdst fun f => ?_
  rw [← hsize] at hsrc hdst
  refine (comes_compare hdata hup halt hdst f hpri hsrc).mono fun m' hm' => ?_
  obtain ⟨hm', hresult⟩ := hm'
  refine ⟨hm'.layout, ?_, hm'.regs stk (by decide), hm'.regs frm (by decide)⟩
  rw [hm'.spilled_pri (by decide), hresult]
  rfl

theorem comes_fills (hop : i.opcode = .fill) (hls : template ctx i = .ok ls) :
    Comes ls m none (m.Operated .fill i.arg.toNat) := by
  rw [template, hop] at hls
  obtain ⟨rfl, heven⟩ := eq_of_blockLength hls
  refine comes_checkRange (Indirect.size_lt hdata hsize) rfl hdst fun f => ?_
  rw [← hsize] at hdst
  refine (comes_fill hdata hup halt hdst f heven).mono fun m' hm' =>
    ⟨hm'.layout, ?_, hm'.regs stk (by decide), hm'.regs frm (by decide)⟩
  rw [Instance.afterBlock, Block.fillUp_eq]
  exact hm'.spilled_block (by decide)

end

/-- The instructions that work on blocks. -/
def Opcode.blocks : List Opcode := [.movs, .cmps, .fill]

/-! ### A small program -/

/-- A move of three bytes, and the end of the program. -/
def moveListing : List Instruction := [⟨0, .movs, [3]⟩, ⟨8, .halt, [0]⟩]

/-- There are four bytes of data. -/
def moveHeader : Header := { pushHeader with size := 76, hea := 76, stp := 92 }

def moveImage : Block :=
  (moveHeader.bytes ++ moveListing.flatMap Instruction.bytes ++ [1, 2, 3, 4]).toArray

def moveInstance : Instance where
  header := moveHeader
  block := moveImage ++ Array.replicate 16 0
  regs := { hlw := 4, hea := 4, stp := 16, stk := 16, cip := -1 }
  pending := 0
  natives := #[]

theorem load_moveImage : Instance.load moveImage = .ok moveInstance :=
  Instance.load_whole (by decide +kernel) rfl (by decide) rfl

theorem decodes_moveListing :
    Decodes moveInstance.code 0 ([] ++ ⟨0, .movs, [3]⟩ :: moveListing.drop 1) none := by
  have hcode : moveInstance.code = (moveListing.flatMap Instruction.bytes).toArray := by
    decide +kernel
  rw [hcode]
  refine .step ?_ (.step ?_ (.done ?_))
  all_goals decide +kernel

/-! ### The result -/

/-- **Main result.** A run is at a block operation whose blocks lie in the data segment, with zeros
    in the upper halves of the registers that hold their addresses; range checks may be compiled in
    or not. The run advances, and the instance is the one that the operation should leave: a move
    has copied its bytes one at a time from the lowest address up, a comparison has put minus one,
    zero or one into the primary register, and a fill has stored the primary register to each cell.
    Nothing outside the destination has changed, and neither have stack and frame. -/
theorem block_operations_follow_reference {env : Environment} {config : Config} {vm₀ : Instance}
    {a : Activation} {rets : List Word} {i : Instruction} {after : List Instruction} {m : Machine}
    (h : env.AtInstruction config vm₀ a rets i after m) (himage : vm₀.SameImage m.host.vm)
    (hop : i.opcode ∈ Opcode.blocks) (halt : m.Narrow alt) (hpri : i.opcode ≠ .fill → m.Narrow pri)
    (hdst : (m.reg32 alt).toNat + i.arg.toNat ≤ vm₀.dataSize)
    (hsrc : i.opcode ≠ .fill → (m.reg32 pri).toNat + i.arg.toNat ≤ vm₀.dataSize) :
    ∃ m', env.Advances after m m' ∧ m.Operated i.opcode i.arg.toNat m' ∧
      (∀ k, k < vm₀.dataStart + (m.reg32 alt).toNat ∨
        vm₀.dataStart + (m.reg32 alt).toNat + i.arg.toNat ≤ k →
        m'.host.vm.block[k]? = m.host.vm.block[k]?) ∧
      (i.opcode = .fill → ∀ k < i.arg.toNat / Cell.width,
        m'.host.vm.block.cell? (vm₀.dataStart + (m.reg32 alt).toNat + Cell.width * k) =
          some (m.reg32 pri)) := by
  have hdata := h.hasData himage
  have hsize := himage.dataSize_eq
  have hstart := himage.dataStart_eq
  obtain ⟨m', x, hoperated, hadvances⟩ :=
    h.advances (m.Operated i.opcode i.arg.toNat) (fun ls hls => by
      rcases List.mem_cons.mp hop with hmovs | hop
      · rw [hmovs]
        exact comes_movs hdata hsize h.upwards halt hdst hmovs (hpri (by simp [hmovs]))
          (hsrc (by simp [hmovs])) hls
      rcases List.mem_cons.mp hop with hcmps | hop
      · rw [hcmps]
        exact comes_cmps hdata hsize h.upwards halt hdst hcmps (hpri (by simp [hcmps]))
          (hsrc (by simp [hcmps])) hls
      · rw [List.mem_singleton.mp hop]
        exact comes_fills hdata hsize h.upwards halt hdst (List.mem_singleton.mp hop) hls)
    fun m' hm' => hm'.layout
  -- What is said of the spilled instance holds of the memory itself, for spilling
  -- writes registers only.
  have hblock : m'.host.vm.block = (m.spilled.afterBlock i.opcode i.arg.toNat).block := by
    rw [← hoperated.spilled]
    rfl
  refine ⟨_, hadvances, ⟨hoperated.layout, hoperated.spilled, hoperated.stack, hoperated.frame⟩,
    fun k hk => ?_, fun hfill k hk => ?_⟩
  · rw [← hstart] at hk
    show m'.host.vm.block[k]? = _
    rw [hblock]
    exact m.spilled.afterBlock_frame i.opcode i.arg.toNat hk
  · have hroom : i.arg.toNat / Cell.width * Cell.width ≤ i.arg.toNat := Nat.div_mul_le_self _ _
    have htotal := hdata.sized.total
    show m'.host.vm.block.cell? _ = _
    rw [hblock, hfill, ← hstart]
    refine Block.cell?_fillUp hk ?_
    show m.host.vm.dataStart + (m.reg32 alt).toNat + _ ≤ m.host.vm.block.size
    rw [Nat.mul_comm]
    omega

/-- A move to an address one above its source spreads the first byte. -/
theorem overlapping_move_spreads_first_byte :
    ∃ (p : Program) (a : Activation) (rets : List Word) (m m' : Machine),
      Environment.AtInstruction ⟨.standard, p⟩ {} moveInstance a rets ⟨0, .movs, [3]⟩
        (moveListing.drop 1) m ∧
      m.reg32 pri = 0 ∧ m.reg32 alt = 1 ∧ m.spilled.bytesAt 0 4 = [1, 2, 3, 4] ∧
      Environment.Advances ⟨.standard, p⟩ (moveListing.drop 1) m m' ∧
      m'.spilled.bytesAt 0 4 = [1, 1, 1, 1] := by
  obtain ⟨p, a, rets, m, hat, hpri, halt, hstart, hfixed⟩ :=
    atInstruction_callAt 0 1 load_moveImage decodes_moveListing
    (by decide +kernel) (by decide) (by decide +kernel)
  have hbytes : (moveInstance.started 0 1).map
      (fun vm => (vm.bytesAt 0 4, (vm.afterBlock .movs 3).bytesAt 0 4)) =
      .ok ([1, 2, 3, 4], [1, 1, 1, 1]) := by decide +kernel
  rw [hstart] at hbytes
  obtain ⟨hbefore, hafter⟩ := Prod.mk.inj (Except.ok.inj hbytes)
  have hpri₀ : m.reg32 pri = 0 := Machine.reg32_eq hpri
  have halt₁ : m.reg32 alt = 1 := Machine.reg32_eq halt
  obtain ⟨m', hadvances, hoperated, -⟩ := block_operations_follow_reference hat
    ⟨hfixed.header, hfixed.size⟩ (by decide) (Machine.narrow_of_eq halt)
      (fun _ => Machine.narrow_of_eq hpri)
    (by rw [halt₁]; decide) (fun _ => by rw [hpri₀]; decide)
  refine ⟨p, a, rets, m, m', hat, hpri₀, halt₁, hbefore, hadvances, ?_⟩
  rw [hoperated.spilled]
  exact hafter

end PawnNative
