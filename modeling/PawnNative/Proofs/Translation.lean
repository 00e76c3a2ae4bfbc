import Mathlib.Tactic.Common
import PawnNative.Proofs.Finishing
import PawnNative.Proofs.StraightLine
import PawnNative.Run.Activation

/-! # Straight-line instructions are translated faithfully

    A program has code for every instruction of its listing. For an instruction
    that stays on the straight line, a machine that runs this code does what the
    instruction set says: if the machine represents an instance at the start, then
    at the end it represents the instance that the instruction leaves, and nothing
    else has changed.

    What the templates carry out is put together here, one case for each opcode.
    The program then holds the lines of the template where the code map says.
-/

namespace PawnNative

open X64 Convention Template

/-! ## Section 1: Templates -/

section
variable {ctx : Context} {i : Instruction} {ls ls' : List Line} {m : Machine} {s : Surroundings}
  {vm : Instance} {effect : Option Instance}

theorem carries_of_ok (hls : (.ok ls' : Except CompileError (List Line)) = .ok ls)
    (h : Carries ls' m s effect) : Carries ls m s effect :=
  Except.ok.inj hls ▸ h

/-- A cell that the instruction names lies in the data segment, or there is no code. -/
theorem carries_direct {f : Mem → List Line}
    (hls : (ctx.directCell i >>= fun o => pure (f o)) = .ok ls) (hsize : ctx.dataSize = vm.dataSize)
    (hf : vm.HasCell i.arg.toInt → Carries (f (dataCell i.arg)) m s effect) :
    Carries ls m s effect := by
  obtain ⟨o, hdirect, hls⟩ := bind_eq_ok.mp hls
  unfold Context.directCell Context.direct at hdirect
  split_ifs at hdirect with hin
  · cases hdirect
    refine carries_of_ok hls (hf ?_)
    simp only [Context.inData, Bool.and_eq_true, decide_eq_true_eq, hsize] at hin
    have hnat := Cell.toInt_eq_toNat hin.1
    exact ⟨hin.1, by rw [hnat]; exact_mod_cast hin.2⟩
  · cases hdirect

/-- The template of a straight-line instruction carries out what the instruction does. -/
theorem carries_template (hstraight : i.IsStraight) (hls : template ctx i = .ok ls)
    (h : m.Represents s vm) (hcod : ctx.cod = vm.header.cod) (hdat : ctx.dat = vm.header.dat)
    (hsize : ctx.dataSize = vm.dataSize) (hx : ∀ a ∈ i.touched vm, vm.HasCell a) :
    Carries ls m s (i.effect? vm) := by
  obtain ⟨address, opcode, operands⟩ := i
  -- A direct operand was checked when the template was made; a cell of stack or frame is in `hx`.
  cases opcode with
  | loadPri => exact carries_direct hls hsize fun hd => carries_load h .pri (h.names_dataCell _) hd
  | loadAlt => exact carries_direct hls hsize fun hd => carries_load h .alt (h.names_dataCell _) hd
  | loadSPri =>
    exact carries_of_ok hls (carries_load h .pri (h.names_frameCell _) (hx _ List.mem_cons_self))
  | loadSAlt =>
    exact carries_of_ok hls (carries_load h .alt (h.names_frameCell _) (hx _ List.mem_cons_self))
  | constPri => exact carries_of_ok hls (yields_result h .pri rfl rfl rfl).carries
  | constAlt => exact carries_of_ok hls (yields_result h .alt rfl rfl rfl).carries
  | addrPri => exact carries_of_ok hls (yields_frameAddress h .pri _).carries
  | addrAlt => exact carries_of_ok hls (yields_frameAddress h .alt _).carries
  | storPri => exact carries_direct hls hsize fun hd => carries_store h .pri (h.names_dataCell _) hd
  | storAlt => exact carries_direct hls hsize fun hd => carries_store h .alt (h.names_dataCell _) hd
  | storSPri =>
    exact carries_of_ok hls (carries_store h .pri (h.names_frameCell _) (hx _ List.mem_cons_self))
  | storSAlt =>
    exact carries_of_ok hls (carries_store h .alt (h.names_frameCell _) (hx _ List.mem_cons_self))
  | idxaddr => exact carries_of_ok hls (yields_elementAddress h).carries
  | idxaddrB => exact carries_of_ok hls (yields_scaledAddress h _).carries
  | alignPri => exact carries_of_ok hls (yields_alignAddress h .pri _).carries
  | alignAlt => exact carries_of_ok hls (yields_alignAddress h .alt _).carries
  | lctrl => exact carries_readControl h hcod hdat hls
  | sctrl => exact carries_writeControl h hstraight hls
  | movePri => exact carries_of_ok hls (yields_result h .pri rfl rfl h.reg32_alt).carries
  | moveAlt => exact carries_of_ok hls (yields_result h .alt rfl rfl h.reg32_pri).carries
  | xchg => exact carries_of_ok hls (yields_xchg h).carries
  | pushPri =>
    exact carries_of_ok hls (carries_pushReg h (by decide) h.reg32_pri (hx _ List.mem_cons_self))
  | pushAlt =>
    exact carries_of_ok hls (carries_pushReg h (by decide) h.reg32_alt (hx _ List.mem_cons_self))
  | pushR =>
    refine carries_of_ok hls (carries_pushRepeated h _ fun k hk => hx _ ?_)
    exact List.mem_map_of_mem (List.mem_range.mpr hk)
  | pushC => exact carries_of_ok hls (carries_pushImm h _ (hx _ List.mem_cons_self))
  | push =>
    exact carries_direct hls hsize fun hd =>
      carries_pushMem h (h.names_dataCell _) hd (hx _ List.mem_cons_self)
  | pushS =>
    exact carries_of_ok hls (carries_pushMem h (h.names_frameCell _) (hx _ List.mem_cons_self)
      (hx _ (List.mem_cons_of_mem _ List.mem_cons_self)))
  | pushAdr => exact carries_of_ok hls (carries_pushFrameAddress h _ (hx _ List.mem_cons_self))
  | popPri => exact carries_of_ok hls (carries_popReg h .pri (hx _ List.mem_cons_self))
  | popAlt => exact carries_of_ok hls (carries_popReg h .alt (hx _ List.mem_cons_self))
  | swapPri => exact carries_of_ok hls (carries_swapTop h .pri (hx _ List.mem_cons_self))
  | swapAlt => exact carries_of_ok hls (carries_swapTop h .alt (hx _ List.mem_cons_self))
  | shl => exact carries_of_ok hls (yields_shiftCl h .shl).carries
  | shr => exact carries_of_ok hls (yields_shiftCl h .shr).carries
  | sshr => exact carries_of_ok hls (yields_shiftCl h .sar).carries
  | shlCPri => exact carries_of_ok hls (yields_shiftConst h .pri .shl _).carries
  | shlCAlt => exact carries_of_ok hls (yields_shiftConst h .alt .shl _).carries
  | shrCPri => exact carries_of_ok hls (yields_shiftConst h .pri .shr _).carries
  | shrCAlt => exact carries_of_ok hls (yields_shiftConst h .alt .shr _).carries
  | smul => exact carries_of_ok hls (yields_multiply h).carries
  | umul => exact carries_of_ok hls (yields_multiply h).carries
  | add => exact carries_of_ok hls (yields_operate h .add rfl).carries
  | sub => exact carries_of_ok hls (yields_operate h .sub rfl).carries
  | subAlt => exact carries_of_ok hls (yields_subAlt h).carries
  | and => exact carries_of_ok hls (yields_operate h .and rfl).carries
  | or => exact carries_of_ok hls (yields_operate h .or rfl).carries
  | xor => exact carries_of_ok hls (yields_operate h .xor rfl).carries
  | not => exact carries_of_ok hls (yields_isZero h).carries
  | neg => exact carries_of_ok hls (yields_neg h).carries
  | invert =>
    exact carries_of_ok hls (yields_result h .pri rfl rfl (congrArg (~~~·) h.reg32_pri)).carries
  | addC => exact carries_of_ok hls (yields_constant h .pri .add rfl _).carries
  | smulC => exact carries_of_ok hls (yields_multiplyConst h _).carries
  | zeroPri => exact carries_of_ok hls (yields_zero h .pri).carries
  | zeroAlt => exact carries_of_ok hls (yields_zero h .alt).carries
  | zero =>
    exact carries_direct hls hsize fun hd => carries_storeImm h 0 (h.names_dataCell _) hd
  | zeroS =>
    exact carries_of_ok hls (carries_storeImm h 0 (h.names_frameCell _) (hx _ List.mem_cons_self))
  | signPri => exact carries_of_ok hls (yields_sign h .pri).carries
  | signAlt => exact carries_of_ok hls (yields_sign h .alt).carries
  | eq => exact carries_of_ok hls (yields_compareAlt h (holds_unsigned _ _).1).carries
  | neq => exact carries_of_ok hls (yields_compareAlt h (holds_unsigned _ _).2.1).carries
  | less => exact carries_of_ok hls (yields_compareAlt h (holds_unsigned _ _).2.2.1).carries
  | leq => exact carries_of_ok hls (yields_compareAlt h (holds_unsigned _ _).2.2.2.1).carries
  | grtr => exact carries_of_ok hls (yields_compareAlt h (holds_unsigned _ _).2.2.2.2.1).carries
  | geq => exact carries_of_ok hls (yields_compareAlt h (holds_unsigned _ _).2.2.2.2.2).carries
  | sless => exact carries_of_ok hls (yields_compareAlt h (holds_signed _ _).1).carries
  | sleq => exact carries_of_ok hls (yields_compareAlt h (holds_signed _ _).2.1).carries
  | sgrtr => exact carries_of_ok hls (yields_compareAlt h (holds_signed _ _).2.2.1).carries
  | sgeq => exact carries_of_ok hls (yields_compareAlt h (holds_signed _ _).2.2.2).carries
  | eqCPri => exact carries_of_ok hls (yields_compareConst h .pri _).carries
  | eqCAlt => exact carries_of_ok hls (yields_compareConst h .alt _).carries
  | incPri => exact carries_of_ok hls (yields_constant h .pri .add rfl 1).carries
  | incAlt => exact carries_of_ok hls (yields_constant h .alt .add rfl 1).carries
  | inc =>
    exact carries_direct hls hsize fun hd =>
      carries_increment h .add rfl rfl (h.names_dataCell _) hd
  | incS =>
    exact carries_of_ok hls
      (carries_increment h .add rfl rfl (h.names_frameCell _) (hx _ List.mem_cons_self))
  | decPri => exact carries_of_ok hls (yields_constant h .pri .sub rfl 1).carries
  | decAlt => exact carries_of_ok hls (yields_constant h .alt .sub rfl 1).carries
  | dec =>
    exact carries_direct hls hsize fun hd =>
      carries_increment h .sub rfl rfl (h.names_dataCell _) hd
  | decS =>
    exact carries_of_ok hls
      (carries_increment h .sub rfl rfl (h.names_frameCell _) (hx _ List.mem_cons_self))
  -- The other operations leave the straight line.
  | _ => exact hstraight.elim

end

/-! ## Section 2: Programs -/

namespace Program.Finishes

variable {p : Program} {ctx : Context} {before after : List Instruction} {i j : Instruction}

/-- The code of an instruction ends where the code of the next one starts. -/
theorem offset_next (h : p.Finishes ctx (before ++ i :: j :: after)) {ls : List Line}
    (hls : template ctx i = .ok ls) {o : Nat} (hoffset : p.offset? i.address = some o) :
    p.offset? j.address = some (o + linesSize ls) := by
  obtain ⟨-, -, -, hi, -⟩ := h.holds_at
  have hshift : before ++ i :: j :: after = (before ++ [i]) ++ j :: after := by simp
  rw [hshift] at h
  obtain ⟨-, -, -, hj, -⟩ := h.holds_at
  have hbody : i.body ctx = .place (.code i.address) :: ls := by
    rw [Instruction.body, hls]
    rfl
  have hsize : linesSize (i.body ctx) = linesSize ls := by
    rw [hbody]
    exact Nat.zero_add _
  have hlength : (({} : Plan).templates (listingParts ctx (before ++ [i]))).code.length =
      (({} : Plan).templates (listingParts ctx before)).code.length + linesSize ls := by
    rw [Plan.length_templates, Plan.length_templates, listingParts, List.map_append,
      ← List.cons_append, ← listingParts, List.flatMap_append, linesSize_append, ← hsize,
      Nat.add_assoc, List.map_singleton, List.flatMap_singleton]
    rfl
  rw [hi, Option.some_inj] at hoffset
  rw [hj, hlength, hoffset]

theorem offset_head? (h : p.Finishes ctx (before ++ i :: after)) {ls : List Line}
    (hls : template ctx i = .ok ls) {o : Nat} (hoffset : p.offset? i.address = some o) :
    ∀ j ∈ after.head?, p.offset? j.address = some (o + linesSize ls) := by
  intro j hj
  cases after with
  | nil => cases hj
  | cons j' after =>
    cases hj
    exact h.offset_next hls hoffset

end Program.Finishes

/-- **Faithfulness.** A machine that runs the code of a straight-line instruction gets from where
    the code map has the instruction to where the next one is. If it represents an instance at the
    start, and the cells of stack and frame that the instruction touches are there, then at the end
    it represents what the instruction makes of the instance, and all surroundings are as they
    were. -/
theorem straight_line_code_faithful {image : Block} {vm₀ vm : Instance} {config : Config}
    {p : Program} {before after : List Instruction} {i : Instruction} {m : Machine}
    {s : Surroundings} (hload : Instance.load image = .ok vm₀)
    (hcompile : Program.ofInstance config vm₀ = .ok p)
    (hlisting : Decodes vm₀.code 0 (before ++ i :: after) none) (hstraight : i.IsStraight)
    (hheader : vm.header = vm₀.header) (hrep : m.Represents s vm)
    (hcells : ∀ a ∈ i.touched vm, vm.HasCell a) :
    ∃ (ls : List Line) (o : Nat) (vm' : Instance) (m' : Machine),
      template (.ofInstance config vm₀) i = .ok ls ∧ p.offset? i.address = some o ∧
      (∀ j ∈ after.head?, p.offset? j.address = some (o + linesSize ls)) ∧
      i.effect? vm = some vm' ∧ m'.Represents s vm' ∧
      Machine.Runs p.code (m.atOffset o) (m'.atOffset (o + linesSize ls)) := by
  have hfinishes := Program.finishes_of_listing hcompile hlisting
  obtain ⟨ls, hls, -, hoffset, hholds⟩ := hfinishes.holds_at
  -- Templates read code, data and sizes off the header only, which no run changes.
  have hdata : (Context.ofInstance config vm₀).dataSize = vm.dataSize := by
    rw [Instance.dataSize, hheader]
    rfl
  have hcarries : Carries ls m s (i.effect? vm) :=
    carries_template hstraight hls hrep (congrArg Header.cod hheader.symm)
      (congrArg Header.dat hheader.symm) hdata hcells
  obtain ⟨vm', heffect, hyields⟩ := hcarries
  obtain ⟨m', hm', hruns⟩ := hyields p.code _ _
    (Nat.lt_trans (hfinishes.size_lt hlisting (Instance.size_code hload).2) (by decide)) hholds
  refine ⟨ls, _, vm', m', hls, hoffset, ?_, heffect, hm', hruns⟩
  intro j hj
  cases after with
  | nil => cases hj
  | cons j' after =>
    cases hj
    exact hfinishes.offset_next hls hoffset

/-! ### A small program -/

def pushListing : List Instruction := [⟨0, .pushR, [2]⟩, ⟨8, .halt, [0]⟩]

def pushHeader : Header := { switchHeader with size := 72, dat := 72, hea := 72, stp := 88 }

def pushImage : Block := (pushHeader.bytes ++ pushListing.flatMap Instruction.bytes).toArray

def pushInstance : Instance where
  header := pushHeader
  block := pushImage ++ Array.replicate 16 0
  regs := { stp := 12, stk := 12, cip := -1 }
  pending := 0
  natives := #[]

theorem load_pushImage : Instance.load pushImage = .ok pushInstance :=
  Instance.load_whole (by decide +kernel) rfl (by decide) rfl

theorem decodes_pushListing : Decodes pushInstance.code 0 pushListing none :=
  .of_block (n := 16) rfl (by decide) rfl rfl (by decide) (by decide)

/-- The processor at the start, with seven in the primary register and the record of the call at the
    top of the native stack. -/
def pushMachine : Machine where
  layout := .standard
  regs := { rax := 7, rbx := 0x7F1000000048, r12 := 0x7FFCFFFFFFF0, r13 := 0x7F1000000054,
            r14 := 0x7F1000000048 }
  rip := 0
  host := { vm := pushInstance, stack := ⟨#[0x7F20, 0]⟩ }

/-- What the program leaves alone. -/
def pushSurroundings : Surroundings where
  layout := pushMachine.layout
  regs := pushMachine.regs
  xmm := pushMachine.xmm
  down := pushMachine.down
  file := pushInstance.regs
  stack := pushMachine.host.stack
  log := []

theorem represents_pushMachine :
    pushMachine.Represents pushSurroundings (pushInstance.put .pri 7) where
  sized := ⟨by decide +kernel, by decide +kernel⟩
  layout := rfl
  pri := by decide +kernel
  alt := by decide +kernel
  data := by decide +kernel
  stk := by decide +kernel
  frm := by decide +kernel
  others := fun r _ => rfl
  xmm := rfl
  down := rfl
  host := rfl
  record := by decide +kernel
  file := by
    intro r
    cases r <;> decide +kernel

/-- The processor pushes seven twice. -/
theorem pushMachine_pushes_twice :
    ∃ (p : Program) (o : Nat) (vm : Instance) (m : Machine),
      Program.ofInstance {} pushInstance = .ok p ∧ p.offset? 0 = some o ∧
      vm.cellAt? 4 = some 7 ∧ vm.cellAt? 8 = some 7 ∧ vm.regs.stk = 4 ∧
      m.Represents pushSurroundings vm ∧
      ∃ o', p.offset? 8 = some o' ∧
        Machine.Runs p.code (pushMachine.atOffset o) (m.atOffset o') := by
  obtain ⟨p, hp⟩ := Program.exists_ofInstance {} load_pushImage decodes_pushListing
    (by decide) (by decide)
  have hlisting : Decodes pushInstance.code 0 ([] ++ ⟨0, .pushR, [2]⟩ :: [⟨8, .halt, [0]⟩]) none :=
    decodes_pushListing
  have hheader : (pushInstance.put .pri 7).header = pushInstance.header := rfl
  have hcells : ∀ a ∈ Instruction.touched ⟨0, .pushR, [2]⟩ (pushInstance.put .pri 7),
      (pushInstance.put .pri 7).HasCell a := by decide +kernel
  obtain ⟨ls, o, vm, m, -, hoffset, hnext, heffect, hrep, hruns⟩ :=
    straight_line_code_faithful load_pushImage hp hlisting trivial hheader represents_pushMachine
      hcells
  have hvm : (Instruction.effect? ⟨0, .pushR, [2]⟩ (pushInstance.put .pri 7)).map
      (fun vm => (vm.cellAt? 4, vm.cellAt? 8, vm.regs.stk)) = some (some 7, some 7, 4) := by
    decide +kernel
  rw [heffect] at hvm
  simp only [Option.map_some, Option.some_inj, Prod.mk.injEq] at hvm
  exact ⟨p, o, vm, m, hp, hoffset, hvm.1, hvm.2.1, hvm.2.2, hrep, _, hnext _ rfl, hruns⟩

end PawnNative
