import Mathlib.Tactic.Common
import PawnNative.Proofs.Returns
import PawnNative.Proofs.Sections
import PawnNative.Proofs.Streams
import PawnNative.Proofs.Translation

/-! # Calls of compiled functions

    A call of the host pushes the byte count of the arguments and a cell that takes
    the place of a return address, and enters compiled code in an activation of its
    own. `Environment.Starts` says that a call has come that far, and
    `Environment.Executes` that its run has come to some instruction of the bytecode,
    however deep in calls of functions that is.
-/

namespace PawnNative

open X64 Convention

/-! ## Section 1: Calls that have started -/

/-- A call of a compiled function by the host: the registers of the host, with the number of words
    of the native stack that are in use, the address of the function and the host itself. -/
structure Invocation where
  regs : RegFile
  depth : Nat
  address : Cell
  host : Host

namespace Environment

/-- What a call comes to within a number of steps. -/
def answer (env : Environment) (steps : Nat) (c : Invocation) :
    Except Crash (Except Fault Cell × Host) :=
  (env.callbacks (env.run steps) c.regs).call c.address c.host

/-- A call has entered compiled code, with this instance and this machine: the byte count of the
    arguments and a cell for the return address were pushed. -/
structure Starts (env : Environment) (c : Invocation) (vm : Instance) (m : Machine) : Prop where
  rsp : c.regs.get .rsp = env.layout.slot (c.depth + 1)
  room : 8 * (c.depth + 2) ≤ env.layout.stackSize
  pushed : ∃ vm₁, Instance.pushCell { c.host.vm with pending := 0 }
    (BitVec.ofNat 32 (c.host.vm.pending * Cell.width)) = .ok vm₁ ∧ vm₁.pushCell 0 = .ok vm
  entered : ∃ target, env.codeAddress? c.address = some target ∧
    env.entry c.regs (c.host.setVm vm) target = .ok m

/-- The activation that a call has opened. -/
structure Opens (env : Environment) (c : Invocation) (m : Machine) (a : Activation) : Prop where
  starts : env.Starts c a.host.vm m
  regs : a.regs = c.regs
  outer : a.host.stack = c.host.stack
  base : c.depth + 2 ≤ a.base
  record : recordAddress (c.regs.get .rsp) = env.layout.slot (a.base + 4)
  entered : ∃ o, env.program.offset? c.address = some o ∧
    m.Entered env a (env.layout.code + BitVec.ofNat 64 o)

variable {env : Environment} {ctx : Context} {is : List Instruction} {c : Invocation}
  {vm : Instance} {m m' : Machine} {a : Activation} {n : Nat}

theorem Starts.fixed (hstart : env.Starts c vm m) : c.host.vm.Fixed vm := by
  obtain ⟨vm₁, hpush₁, hpush₂⟩ := hstart.pushed
  have hfirst := (Instance.operated_pushCell hpush₁).toFixed
  have hlast := (Instance.operated_pushCell hpush₂).toFixed
  have hsettle : c.host.vm.Fixed { c.host.vm with pending := 0 } := ⟨rfl, rfl, rfl⟩
  exact (hsettle.trans hfirst).trans hlast

theorem Starts.opens (hstart : env.Starts c vm m) (hr : env.Ready ctx is c.host.vm.block.size) :
    ∃ a, env.Opens c m a ∧ a.host.vm = vm := by
  have hr : env.Ready ctx is (c.host.setVm vm).vm.block.size := by
    show env.Ready ctx is vm.block.size
    rw [hstart.fixed.size]
    exact hr
  obtain ⟨target, htarget, hentry⟩ := hstart.entered
  obtain ⟨o, ho, rfl⟩ := Option.map_eq_some_iff.mp htarget
  obtain ⟨base, hlow, hrecord, hentered⟩ := exists_activation hr hstart.rsp hstart.room hentry
  exact ⟨⟨base, c.regs, c.host.setVm vm⟩, ⟨hstart, rfl, rfl, hlow, hrecord, o, ho, hentered⟩, rfl⟩

theorem Opens.ready (hopens : env.Opens c m a) (hr : env.Ready ctx is c.host.vm.block.size) :
    env.Ready ctx is a.host.vm.block.size := by
  rw [hopens.starts.fixed.size]
  exact hr

section
variable (hopens : env.Opens c m a) (hrun : env.run n m = .ok m')
include hopens

theorem Opens.answer_eq {r : Except Fault Cell} {h' : Host}
    (hactivate : ∀ target, env.entry c.regs (c.host.setVm a.host.vm) target = .ok m →
      env.activate (env.run n) c.regs (c.host.setVm a.host.vm) target = .ok (r, h')) :
    env.answer n c = .ok (r, c.host.putBack h') := by
  obtain ⟨vm₁, hpush₁, hpush₂⟩ := hopens.starts.pushed
  obtain ⟨target, htarget, hentry⟩ := hopens.starts.entered
  refine balanced_eq_ok.mpr ⟨h', ?_, rfl⟩
  rw [invoke, htarget]
  dsimp only [Host.setVm]
  rw [hpush₁]
  dsimp only
  rw [hpush₂]
  exact hactivate target hentry

include hrun

theorem Opens.answer_fault {f : Fault} (hrax : m'.reg32 .rax = f.code) :
    env.answer n c = .ok (.error f, c.host.putBack m'.host) := by
  refine hopens.answer_eq fun target hentry => ?_
  rw [activate, hentry, ok_bind, hrun, ok_bind, hrax, f.ofCode_code]
  rfl

theorem Opens.answer_value {v : Cell} (hrax : m'.reg32 .rax = 0)
    (hload : m'.load32 (env.layout.slot (a.base + 4) + BitVec.ofNat 64 CallField.retval.offset) =
      .ok v) : env.answer n c = .ok (.ok v, c.host.putBack m'.host) := by
  rw [← hopens.record] at hload
  refine hopens.answer_eq fun target hentry => ?_
  rw [activate, hentry, ok_bind, hrun, ok_bind, hrax, Fault.ofCode_eq_none_iff.mpr rfl]
  dsimp only
  rw [hload]
  rfl

end

end Environment

/-! ## Section 2: Instructions that a run comes to -/

/-- The number of words of the native stack that are in use. -/
def Machine.nativeWords (m : Machine) : Nat := m.layout.stackTop.above (m.reg .rsp) / 8

theorem Machine.Home.nativeWords {m : Machine} {env : Environment} {K : Instance → Instance → Prop}
    {a : Activation} {rets : List Word} (h : m.Home env K a rets)
    (hbounded : env.layout.stackSize < 0x100000000000000) :
    m.nativeWords = a.base + 14 + rets.length := by
  have hroom := h.room
  rw [Machine.nativeWords, h.layout, h.rsp, Layout.above_slot _ _ (by omega)]
  omega

namespace Environment

/-- The run of a call has come to an instruction of the bytecode: of `start` steps `left` are left,
    and the machine is at the code of `i`, which `after` follows in the listing. -/
structure Executes (env : Environment) (config : Config) (vm₀ : Instance) (c : Invocation)
    (start : Nat) (i : Instruction) (after : List Instruction) (left : Nat) (m : Machine) :
      Prop where
  loaded : ∃ image, Instance.load image = .ok vm₀
  compiled : Program.ofInstance config vm₀ = .ok env.program
  listing : ∃ before, Decodes vm₀.code 0 (before ++ i :: after) none
  separate : env.layout.Separate c.host.vm.block.size env.program.code.size
  reached : ∃ vm m₀, env.Starts c vm m₀ ∧ env.Reaches (start, m₀) (left, m)
  rip : ∃ o, env.program.offset? i.address = some o ∧ m.rip = env.layout.code + BitVec.ofNat 64 o

/-- Where a run is when it has come to an instruction: in which activation, after which calls of
    functions, and in what code. -/
structure Locates (env : Environment) (ctx : Context) (before : List Instruction) (i : Instruction)
    (after : List Instruction) (c : Invocation) (start left : Nat) (m₀ m : Machine) (a : Activation)
    (rets : List Word) (o : Nat) (ls rest : List Line) : Prop where
  ready : env.Ready ctx (before ++ i :: after) a.host.vm.block.size
  opens : env.Opens c m₀ a
  reaches : env.Reaches (start, m₀) (left, m)
  home : m.Home env Instance.Fixed a rets
  stations : env.Stations ctx (before ++ i :: after) [] rets
  trim : env.Trim m
  offset : env.program.offset? i.address = some o
  atOffset : m.atOffset o = m
  template : template ctx i = .ok ls
  lines : LinesFrom ctx (before ++ i :: after) o (ls ++ rest)

variable {env : Environment} {ctx : Context} {before after : List Instruction} {i : Instruction}
  {c : Invocation} {vm : Instance} {m₀ m : Machine} {a : Activation} {rets : List Word}
  {start left o : Nat} {ls rest : List Line}

theorem Executes.locates {config : Config} {vm₀ : Instance}
    (h : env.Executes config vm₀ c start i after left m)
    (hlisting : Decodes vm₀.code 0 (before ++ i :: after) none) :
    ∃ m₀ a rets o ls rest, env.Locates (.ofInstance config vm₀) before i after c start left m₀ m a
      rets o ls rest := by
  have hfinishes := Program.finishes_of_listing h.compiled hlisting
  obtain ⟨o, ho, hrip⟩ := h.rip
  obtain ⟨ls, hls, -⟩ := hfinishes.holds_at
  obtain ⟨rest, hat, -⟩ := hfinishes.linesFrom_template hls ho
  obtain ⟨vm, m₀, hstart, hreach⟩ := h.reached
  obtain ⟨a, hopens, -⟩ := hstart.opens ⟨hfinishes, h.separate⟩
  have hr := hopens.ready ⟨hfinishes, h.separate⟩
  have hb := hr.backs_fixed
  obtain ⟨o₀, ho₀, hentered⟩ := hopens.entered
  have hstation₀ := (hb 0).station_of_offset ho₀
  obtain ⟨⟨-, rets, -, -, hhome, hrets⟩, htrim⟩ :=
    (hb start).atStation_of_offset hentered hstation₀ (Nat.le_refl _) hreach ho hrip
  exact ⟨m₀, a, rets, o, ls, rest, hr, hopens, hreach, hhome, hrets, htrim, ho,
    Machine.atOffset_eq hhome.layout hrip, hls, hat⟩

namespace Locates

variable (h : env.Locates ctx before i after c start left m₀ m a rets o ls rest)
include h

theorem backs (n : Nat) : env.Backs ctx (before ++ i :: after) Instance.Fixed a n :=
  h.ready.backs_fixed n

theorem nativeWords : m.nativeWords = a.base + 14 + rets.length :=
  h.home.nativeWords h.ready.separate.bounded

theorem offset_next :
    ∀ i' ∈ after.head?, env.program.offset? i'.address = some (o + linesSize ls) :=
  h.ready.finishes.offset_head? h.template h.offset

end Locates

/-! ## Section 3: Starting a call -/

/-- Right after the registers were loaded, a machine holds what it was loaded with. -/
theorem spilled_of_loaded {d : Word} (h : m.Loaded d vm.regs) (hvm : m.host.vm = vm) :
    m.spilled = vm := by
  rw [Machine.spilled, Machine.reg32_sub_reg32 h.stk h.data, Machine.reg32_sub_reg32 h.frm h.data,
    Machine.reg32_eq h.pri, Machine.reg32_eq h.alt, hvm]
  rfl

/-- With room on both stacks a call comes to the function that it calls. -/
theorem Ready.exists_start {is : List Instruction} {K : Instance → Instance → Prop} {vm₁ : Instance}
    (hr : env.Ready ctx is c.host.vm.block.size) (hK : Steady K)
    (hrsp : c.regs.get .rsp = env.layout.slot (c.depth + 1))
    (hroom : 8 * (c.depth + 45) ≤ env.layout.stackSize)
    (ho : env.program.offset? c.address = some o)
    (hpush₁ : Instance.pushCell { c.host.vm with pending := 0 }
      (BitVec.ofNat 32 (c.host.vm.pending * Cell.width)) = .ok vm₁)
    (hpush₂ : vm₁.pushCell 0 = .ok vm) :
    ∃ (m₀ : Machine) (a : Activation) (m : Machine), env.Opens c m₀ a ∧ a.host.vm = vm ∧
      a.base ≤ c.depth + 30 ∧ env.Goes (env.Between ctx is) entrySteps m₀ (m.atOffset o) ∧
      m.Home env K a [] ∧ m.Loaded (a.data env.layout) vm.regs ∧ m.host.vm = vm := by
  have hfixed : c.host.vm.Fixed vm := by
    have hpushed := (Instance.operated_pushCell hpush₁).toFixed.trans
      (Instance.operated_pushCell hpush₂).toFixed
    exact ⟨hpushed.header, hpushed.natives, hpushed.size⟩
  have hr : env.Ready ctx is (c.host.setVm vm).vm.block.size := by
    show env.Ready ctx is vm.block.size
    rw [hfixed.size]
    exact hr
  -- The record is aligned, so it may start a few words below the host's stack.
  obtain ⟨base, hlow, hhigh, hrecord⟩ := hr.separate.recordAddress_slot (c.depth + 1)
  rw [← hrsp] at hrecord
  have hroom' : 8 * (base + 6) ≤ env.layout.stackSize := by omega
  obtain ⟨m₀, hentry, hentered⟩ :
      ∃ m₀, env.entry c.regs (c.host.setVm vm) (env.layout.code + BitVec.ofNat 64 o) = .ok m₀ ∧
        m₀.Entered env ⟨base, c.regs, c.host.setVm vm⟩ (env.layout.code + BitVec.ofNat 64 o) :=
    exists_entry hr.separate hrecord hroom'
  have hcode : env.codeAddress? c.address = some (env.layout.code + BitVec.ofNat 64 o) := by
    rw [codeAddress?, ho]
    rfl
  have hopens : env.Opens c m₀ ⟨base, c.regs, c.host.setVm vm⟩ :=
    ⟨⟨hrsp, by omega, ⟨vm₁, hpush₁, hpush₂⟩, _, hcode, hentry⟩, rfl, rfl, by dsimp only; omega,
      hrecord, o, ho, hentered⟩
  have hdeep : 8 * (base + 14) ≤ env.layout.stackSize := by omega
  obtain ⟨m, hgoes, hhome, hloaded, hvm, -⟩ := hr.goes_entry rfl hK hentered hdeep
  rw [Machine.jumpTo_code hhome.layout] at hgoes
  exact ⟨m₀, _, m, hopens, rfl, by dsimp only; omega, hgoes, hhome, hloaded, hvm⟩

/-- In the default address space, and whatever helpers leave behind, a call comes to the instruction
    at its address, with the registers of the instance that it has pushed two cells to. -/
theorem exists_executes_on (residue : Machine → Residue) (before : List Instruction)
    (i : Instruction)
    (after : List Instruction) {image : Block} {config : Config} {vm₀ vm₁ : Instance} {p : Program}
    (hload : Instance.load image = .ok vm₀) (hp : Program.ofInstance config vm₀ = .ok p)
    (hlisting : Decodes vm₀.code 0 (before ++ i :: after) none)
    (hsize : c.host.vm.block.size ≤ 0x1000000000)
    (hrsp : c.regs.get .rsp = Layout.standard.slot (c.depth + 1)) (hdepth : c.depth ≤ 1000)
    (haddress : c.address = i.address)
    (hpush₁ : Instance.pushCell { c.host.vm with pending := 0 }
      (BitVec.ofNat 32 (c.host.vm.pending * Cell.width)) = .ok vm₁)
    (hpush₂ : vm₁.pushCell 0 = .ok vm) :
    ∃ (d : Word) (m : Machine),
      (∀ left, Executes ⟨⟨.standard, residue⟩, p⟩ config vm₀ c (left + entrySteps) i after
      left m) ∧ m.Loaded d vm.regs ∧ m.host.vm = vm ∧
      m.nativeWords ≤ c.depth + 44 ∧ 8 * (m.nativeWords + 3) ≤ Layout.standard.stackSize := by
  have hfinishes := Program.finishes_of_listing hp hlisting
  have hmem : ∃ i' ∈ before ++ i :: after, i'.address = c.address := ⟨i, by simp, haddress.symm⟩
  obtain ⟨o, ho⟩ := Option.isSome_iff_exists.mp ((hfinishes.offset_isSome_iff c.address).mpr hmem)
  have hseparate := (serves_standard hload hp hsize).separate
  have hr : Ready ⟨⟨.standard, residue⟩, p⟩ (.ofInstance config vm₀) (before ++ i :: after)
    c.host.vm.block.size := ⟨hfinishes, hseparate⟩
  have hroom : 8 * (c.depth + 45) ≤ Layout.standard.stackSize := by
    show _ ≤ 0x800000
    omega
  obtain ⟨m₀, a, m, hopens, -, hbase, hgoes, hhome, hloaded, hm⟩ :=
    hr.exists_start Instance.steady_fixed hrsp hroom ho hpush₁ hpush₂
  have hwords : m.nativeWords = a.base + 14 + 0 :=
    hhome.nativeWords (show Layout.standard.stackSize < _ by decide)
  refine ⟨_, m.atOffset o, fun left => ?_,
    ⟨hloaded.data, hloaded.stk, hloaded.frm, hloaded.pri, hloaded.alt⟩, hm, ?_, ?_⟩
  · refine ⟨⟨image, hload⟩, hp, ⟨before, hlisting⟩, hseparate,
      ⟨a.host.vm, m₀, hopens.starts, hgoes.reaches left⟩, o,
      by rw [← haddress]; exact ho, Machine.rip_atOffset hhome.layout o⟩
  · show m.nativeWords ≤ _
    omega
  · show 8 * (m.nativeWords + 3) ≤ 0x800000
    omega

end Environment

/-! ### An image with an import -/

/-- The header of an image that imports one native and has no entry point. -/
def importHeader : Header where
  size := 144
  magic := Header.magicNumber
  fileVersion := 8
  machineVersion := 8
  flags := 0
  recordSize := 8
  cod := 76
  dat := 144
  hea := 144
  stp := 272
  cip := -1
  publics := 56
  natives := 56
  libraries := 64
  pubvars := 64
  tags := 64
  nametable := 64

/-- A function that calls the native and another function, each with one argument, and that other
    function, which answers its argument. -/
def importListing : List Instruction :=
  [⟨0, .proc, []⟩, ⟨4, .pushC, [7]⟩, ⟨12, .sysreqN, [0, 4]⟩, ⟨24, .pushC, [9]⟩, ⟨32, .pushC, [4]⟩,
   ⟨40, .call, [52]⟩, ⟨48, .retn, []⟩, ⟨52, .proc, []⟩, ⟨56, .loadSPri, [12]⟩, ⟨64, .retn, []⟩]

/-- The bytes of the image: the record of the import with this handle, its name and the code. -/
def importBytes (handle : Cell) : List Byte :=
  importHeader.bytes ++ handle.bytes ++ Cell.bytes 66 ++ Half.bytes 8 ++
    [0x68, 0x6F, 0x73, 0x74, 0x70, 0x75, 0x73, 0x68, 0, 0] ++ Instruction.stream importListing

def importImage : Block := (importBytes 0).toArray

/-- The image with its heap and stack, after the import was bound. -/
def importInstance (handle : Cell) (natives : Array Native) : Instance where
  header := importHeader
  block := (importBytes handle).toArray ++ Array.replicate 128 0
  regs := { stp := 124, stk := 124, cip := -1 }
  pending := 0
  natives := natives

theorem size_importInstance (handle : Cell) (natives : Array Native) :
    (importInstance handle natives).block.size = 272 := by
  show ((importBytes handle).toArray ++ Array.replicate 128 0).size = 272
  rw [Array.size_append, Array.size_replicate, List.size_toArray]
  rfl

theorem load_importImage : Instance.load importImage = .ok (importInstance 0 #[]) :=
  Instance.load_whole (by decide +kernel) rfl (by decide) rfl

theorem decodes_importListing : Decodes (importInstance 0 #[]).code 0 importListing none :=
  .of_block (n := 68) rfl (by decide) rfl rfl (by decide) (by decide)

theorem exists_importProgram : ∃ p, Program.ofInstance {} (importInstance 0 #[]) = .ok p :=
  Program.exists_ofInstance {} load_importImage decodes_importListing (by decide) (by decide)

end PawnNative
