import Mathlib.Tactic.Common
import PawnNative.Proofs.FloatNatives

/-! # Calls of float natives with and without code in their place

    Where the bytecode calls one of the eight float natives by its number, the
    compiler may put the work of the native into the code.

    For an instruction that pushes the byte count of the arguments itself this makes
    no difference, but for the cell below the arguments, where the count would have
    been. For an instruction that relies on a count that was pushed before, it does
    make one: the code never looks at the count, while the native refuses a count
    that is negative, that leads out of the data segment or that is too small.
-/

namespace PawnNative

open X64 Convention Template

/-! ## Section 1: Sites of calls -/

theorem join_natives_ofInstance {config : Config} {vm : Instance} {n : Nat} {name : String}
    (hname : vm.nativeName? n = some name) :
    ((Context.ofInstance config vm).natives[n]?).join = some name := by
  have hlt : n < vm.header.nativeTable.len := by
    by_contra hout
    rw [Instance.nativeName?, SymbolTable.name?,
      SymbolTable.get?_eq_none (Nat.not_lt.mp hout)] at hname
    cases hname
  show (((List.range _).map vm.nativeName?)[n]?).join = some name
  rw [List.getElem?_map, List.getElem?_range hlt, Option.map_some, hname]
  rfl

section
variable (checks : Bool) {vm : Instance} {f : FloatNative} {n : Cell}

/-- Which calls of a float native are replaced. -/
theorem inlined?_on (hname : vm.nativeName? n.toNat = some f.name) (hpos : 0 ≤ n.toInt) :
    inlined? (.ofInstance ⟨true, checks⟩ vm) (.const n) .pushed = some f ∧
    ∀ bytes, inlined? (.ofInstance ⟨true, checks⟩ vm) (.const n) (.const bytes) =
      if bytes = BitVec.ofNat 32 (Cell.width * f.arity) then some f else none := by
  have hon : ¬(!(Context.ofInstance ⟨true, checks⟩ vm).config.intrinsics ||
      decide (n.toInt < 0)) = true := by
    simpa [Context.ofInstance] using hpos
  unfold inlined?
  dsimp only
  refine ⟨?_, fun bytes => ?_⟩ <;>
    rw [if_neg hon, join_natives_ofInstance hname, Option.bind_some, FloatNative.ofName?_name]

theorem inlined?_off (index : NativeIndex) (count : ArgCount) :
    inlined? (.ofInstance ⟨false, checks⟩ vm) index count = none := by
  cases index <;> rfl

end

namespace Environment

/-- The code of an instruction finishes within `siteSteps` steps and leaves the instance `vm`:
    the run comes to the next instruction, in the same activation, or the call that the run
    belongs to ends with a fault. -/
inductive Completes (env : Environment) (c : Invocation) (start : Nat) (after : List Instruction)
    (left : Nat) (m : Machine) : Option Fault → Instance → Prop where
  | goesOn {next n : Nat} {m' : Machine} {vm : Instance} (hsteps : left ≤ n + siteSteps)
      (hnext : ∀ i' ∈ after.head?, env.program.offset? i'.address = some next)
      (hreaches : env.Reaches (left, m) (n, m'.atOffset next)) (hm' : m.Proceeds m' vm) :
      Completes env c start after left m none vm
  | ends {n : Nat} {m' : Machine} {f : Fault} (hsteps : left ≤ n + siteSteps)
      (hreaches : env.Reaches (left, m) (n, m'))
      (hanswer : env.answer start c = .ok (.error f, c.host.putBack m'.host)) :
      Completes env c start after left m (some f) m'.host.vm

variable {env : Environment} {config : Config} {vm₀ vm' : Instance} {c : Invocation}
  {start left : Nat}
  {i : Instruction} {after : List Instruction} {m : Machine} {index : NativeIndex}
  {count : ArgCount} {f : FloatNative} {s : Cell}

/-- A run that has come to a call with the work of a float native in its place. -/
theorem Locates.reaches_inPlace {ctx : Context} {before : List Instruction} {m₀ : Machine}
    {a : Activation} {rets : List Word} {o first : Nat} {ls' rest : List Line}
    (hl : env.Locates ctx before i after c start left m₀ m a rets o (f.lines first ++ ls') rest)
    (hsized : m.spilled.Sized) (hstk : m.HasStk s) (hfirst : first ≤ Cell.width)
    (hhigh : s.toNat + first + Cell.width * f.arity ≤ m.spilled.dataSize)
    (hdeep : 8 * (m.nativeWords + 3) ≤ env.layout.stackSize) :
    ∃ k m', k < siteSteps ∧
      (∀ n, env.Reaches (n + k, m) (n, m'.atOffset (o + linesSize (f.lines first)))) ∧
      m.Proceeds m' (m.spilled.put .pri (f.value m.spilled (s.toNat + first))) ∧ m'.HasStk s ∧
      m'.layout = env.layout := by
  have hwords := hl.nativeWords
  have hat := hl.lines
  rw [List.append_assoc] at hat
  have hwidth : Cell.width = 4 := rfl
  rw [hwidth] at hfirst hhigh
  -- An argument is a cell of the instance.
  have hcell : ∀ n, n < f.arity → m.host.vm.cellAt? (s.toNat + first + 4 * n) =
      some (m.spilled.cellD (s.toNat + first + 4 * n)) := by
    intro n hn
    obtain ⟨v, hv⟩ := hsized.exists_cellAt (a := s.toNat + first + 4 * n) ⟨by omega, by omega⟩
    rw [Instance.cellD, hv]
    exact hv
  have hsized' : m.host.vm.Sized := ⟨hsized.total, hsized.bounded⟩
  have hreads : ∀ n, n < f.arity → m.Reads (FloatNative.argument first n)
      (m.spilled.cellD (s.toNat + first + 4 * n)) := by
    intro n hn
    have htwo : f.arity ≤ 2 := by cases f <;> decide
    exact hl.home.reads_argument Instance.steady_fixed hsized' hstk (by omega) (hcell n hn)
  have hreached := hl.ready.reaches_inPlace Instance.steady_fixed rfl hat hl.home
    (by unfold Activation.top; omega) hstk (hreads 0 (by cases f <;> decide))
    (fun htwo => hreads 1 (by omega))
  rw [hl.atOffset] at hreached
  obtain ⟨k, m', hk, hreaches, hproceeds, hrest⟩ := hreached
  refine ⟨k, m', hk, hreaches, ?_, hrest⟩
  rwa [show (s.toNat : Int) + first + 4 * ((0 : Nat) : Int) = s.toNat + first by omega] at hproceeds

namespace Executes

variable (hm : env.Executes config vm₀ c start i after left m)
  (hdeep : 8 * (m.nativeWords + 3) ≤ env.layout.stackSize) (hfuel : siteSteps ≤ left)
include hm hdeep hfuel

/-- The call of a native that comes to the same in every host with this instance. -/
theorem completes_call (hcall : i.nativeCall? = some (index, count))
    (hgeneric : inlined? (.ofInstance config vm₀) index count = none)
    {ending : Ending Cell} (hd : ∀ (k : Callbacks) {h : Host}, h.vm = m.spilled →
      Dispatches k (index.value m) count.block h ending (h.setVm vm')) :
    (∀ v, ending.result = .ok v → env.Completes c start after left m none (vm'.put .pri v)) ∧
    (∀ fault, ending.result = .error fault →
      env.Completes c start after left m (some fault) vm') := by
  obtain ⟨next, m₁, hvm, -, -, hnext, hruns⟩ := hm.settles hcall hgeneric hdeep
  have hsteps : callSteps index count + 1 + (settleLines.length + leaveSteps + 4) ≤ siteSteps := by
    have hsame : callSteps index count = callSteps .pri .pushed := by
      cases index <;> cases count <;> rfl
    rw [hsame]
    decide
  obtain ⟨n, hn⟩ : ∃ n, left = n + 1 + callSteps index count :=
    ⟨left - 1 - callSteps index count, by omega⟩
  obtain ⟨hreach, hends⟩ := hruns n hn
  obtain ⟨hvalue, hfault⟩ := hends ending _ (hd _ hvm)
  constructor
  · intro v hv
    obtain ⟨m', hm', -, hgoes⟩ := hvalue v hv
    have hlast := hgoes (n - settleLines.length) (by omega)
    exact .goesOn (by omega) hnext (hreach.trans hlast) ⟨hm'.spilled, hm'.kept, hm'.stack⟩
  · intro fault hf
    obtain ⟨m', hm', -, -, hanswers⟩ := hfault fault hf
    obtain ⟨hlast, hanswer⟩ := hanswers (n - 1 - (settleLines.length + leaveSteps + 3)) (by omega)
    rw [show vm' = m'.host.vm from hm'.symm]
    exact .ends (by omega) (hreach.trans hlast) hanswer

/-- The work of a float native in place of a call whose byte count was pushed before. -/
theorem completes_pushed (hcall : i.nativeCall? = some (index, .pushed))
    (hinlined : inlined? (.ofInstance config vm₀) index .pushed = some f) (hsized : m.spilled.Sized)
    (hstk : m.HasStk s) (hhigh : s.toNat + Cell.width + Cell.width * f.arity ≤ m.spilled.dataSize) :
    env.Completes c start after left m none
      (m.spilled.put .pri (f.value m.spilled (s.toNat + Cell.width))) := by
  obtain ⟨before, hlisting⟩ := hm.listing
  obtain ⟨m₀, a, rets, o, ls, rest, hl⟩ := hm.locates hlisting
  have hnext := hl.offset_next
  obtain rfl : ls = f.lines Cell.width ++ [] := by
    rw [template_native hl.template hcall, native, hinlined, List.append_nil]
  obtain ⟨k, m', hk, hreaches, hproceeds, -, -⟩ :=
    hl.reaches_inPlace hsized hstk (Nat.le_refl _) hhigh hdeep
  rw [List.append_nil] at hnext
  have hlast := hreaches (left - k)
  rw [Nat.sub_add_cancel (by omega)] at hlast
  exact .goesOn (by omega) hnext hlast hproceeds

/-- The work of a float native in place of a call that drops the arguments. -/
theorem completes_counted {bytes : Cell} (hcall : i.nativeCall? = some (index, .const bytes))
    (hinlined : inlined? (.ofInstance config vm₀) index (.const bytes) = some f)
    (hbytes : bytes = BitVec.ofNat 32 (Cell.width * f.arity)) (hsized : m.spilled.Sized)
    (hstk : m.HasStk s) (hhigh : s.toNat + Cell.width * f.arity ≤ m.spilled.dataSize) :
    env.Completes c start after left m none
      ((m.spilled.put .pri (f.value m.spilled s.toNat)).put .stk (s + bytes)) := by
  obtain ⟨before, hlisting⟩ := hm.listing
  obtain ⟨m₀, a, rets, o, ls, rest, hl⟩ := hm.locates hlisting
  have hnext := hl.offset_next
  have hat := hl.lines
  obtain rfl : ls = f.lines 0 ++ [.op (.aluRI .add .q stk bytes)] := by
    rw [template_native hl.template hcall, native, hinlined]
  obtain ⟨k, m₁, hk, hreaches, hproceeds, hstk₁, hlayout⟩ :=
    hl.reaches_inPlace hsized hstk (Nat.zero_le _) hhigh hdeep
  -- The arguments are dropped.
  let m' := m₁.alu64 .add stk (bytes.signExtend 64)
  have hstk' : m'.HasStk (s + bytes) := by
    have htotal := hsized.total
    have hbounded := hsized.bounded
    have hwide : bytes.signExtend 64 = bytes.setWidth 64 := by
      rw [hbytes]
      cases f <;> rfl
    have hsmall : s.toNat + bytes.toNat < 0x100000000 := by
      have htoNat : bytes.toNat = Cell.width * f.arity := by
        rw [hbytes]
        cases f <;> rfl
      omega
    show m₁.reg stk + bytes.signExtend 64 = m₁.reg data + _
    rw [hstk₁, hwide]
    generalize m₁.reg data = d
    bv_omega
  have hspilled : m'.spilled = m₁.spilled.put .stk (m'.reg32 stk - m'.reg32 data) := rfl
  have hproceeds' :
      m.Proceeds m' ((m.spilled.put .pri (f.value m.spilled s.toNat)).put .stk (s + bytes)) := by
    refine ⟨?_, ?_, hproceeds.stack⟩
    · rw [hspilled, hproceeds.spilled, Machine.reg32_sub_reg32 hstk' rfl,
        show (s.toNat : Int) + (0 : Nat) = s.toNat by omega]
    · intro r hr
      rw [← hproceeds.kept r hr]
      refine RegFile.get_set_ne _ _ ?_
      rintro rfl
      revert hr
      decide
  rw [List.append_assoc] at hat
  have hdrop : Machine.execLines [.op (.aluRI .add .q stk bytes)] m₁ = .ok m' := rfl
  have hadd := hl.ready.goes_lines _ (List.cons_ne_nil _ _) rfl hat.drop hlayout hdrop
  rw [Nat.add_assoc, ← linesSize_append] at hadd
  have hlast := (hreaches (left - k - 1 + 1)).trans (hadd.reaches (left - k - 1))
  rw [show left - k - 1 + 1 + k = left by omega] at hlast
  exact .goesOn (by omega) hnext hlast hproceeds'

/-- The call of a float native that drops the arguments: the byte count is left below them, and the
    native refuses them only when they are too few. -/
theorem completes_dropping {n bytes : Cell} (hcall : i.nativeCall? = some (.const n, .const bytes))
    (hgeneric : inlined? (.ofInstance config vm₀) (.const n) (.const bytes) = none)
    (hnative : m.spilled.nativeAt n = .ok f.native) (hsized : m.spilled.Sized)
    (hapart : m.spilled.TablesApart) (hs : m.spilled.regs.stk = s)
    (hfits : m.spilled.regs.hea.toInt ≤ s.toInt - Cell.width)
    {vm₁ : Instance} (hset : m.spilled.setCell (s - 4) bytes = .ok vm₁)
    (hhigh : s.toNat + bytes.toNat ≤ m.spilled.dataSize) :
    (bytes.toNat / Cell.width < f.arity →
      env.Completes c start after left m (some .params) (vm₁.put .stk (s + bytes))) ∧
    (f.arity ≤ bytes.toNat / Cell.width → env.Completes c start after left m none
      ((vm₁.put .stk (s + bytes)).put .pri (f.value m.spilled s.toNat))) := by
  have hpush : m.spilled.pushCell bytes = .ok (vm₁.put .stk (s - 4)) := by
    refine Instance.pushCell_eq_ok.mpr ⟨by rw [hs]; exact hfits, vm₁, ?_, ?_⟩
    · rw [hs]
      exact hset
    · rw [hs]
  have hstacks := Instance.stacks_pushCell hpush
  have hfixed := (Instance.operated_pushCell hpush).toFixed
  have hsized₁ := hfixed.sized hsized
  have hbounded := hsized.bounded
  have htotal := hsized.total
  have hsmall := (Instance.setCellAt?_of_setCell hset).2
  have htop : (s - 4).toNat + 4 = s.toNat := by
    refine Instance.toNat_sub_four ?_
    bv_omega
  let context : CallContext := ⟨.push bytes, s, s - 4⟩
  have henter : CallContext.enter m.spilled (.push bytes) =
      .ok (context, vm₁.put .stk (s - 4)) := by
    dsimp only [CallContext.enter]
    rw [hpush, hs]
    rfl
  have hnative₁ : (vm₁.put .stk (s - 4)).nativeAt n = .ok f.native :=
    (hapart.nativeAt_setCell hset n).trans hnative
  have hcount : (vm₁.put .stk (s - 4)).cellAt? (s - 4).toNat = some bytes := by
    have hfirst := hstacks.cells 0 bytes rfl
    rwa [show Instance.topAddress (vm₁.put .stk (s - 4)) + 4 * ((0 : Nat) : Int) =
        (s - 4).toNat from
      Int.add_zero _] at hfirst
  have hending := FloatNative.dispatches henter hnative₁ hsized₁ hcount
  obtain ⟨hvalue, hfault⟩ := hm.completes_call hdeep hfuel hcall hgeneric hending
  -- The arguments are above the byte count, where they were.
  have hsame : f.value (vm₁.put .stk (s - 4)) ((s - 4).toNat + 4) = f.value m.spilled s.toNat := by
    have htop' : m.spilled.topAddress = s.toNat := by rw [Instance.topAddress, hs]
    unfold FloatNative.value Instance.cellD
    rw [show (((s - 4).toNat : Int) + 4) = s.toNat by omega, hstacks.above _ (by omega),
      hstacks.above _ (by omega)]
  have hdata : (vm₁.put .stk (s - 4)).dataSize = m.spilled.dataSize := by
    unfold Instance.dataSize
    rw [hfixed.header]
  have hpos : ¬bytes.toInt < 0 := by
    rw [BitVec.toInt_eq_toNat_cond, if_pos (by omega)]
    omega
  have hinside : ¬m.spilled.dataSize < (s - 4).toNat + Cell.width + bytes.toNat / Cell.width *
      Cell.width := by
    rw [show Cell.width = 4 from rfl]
    omega
  constructor
  · intro hfew
    refine hfault .params ?_
    unfold FloatNative.ending FloatNative.refusal?
    rw [hdata, if_neg hpos, if_neg hinside, if_pos hfew]
    rfl
  · intro henough
    rw [← hsame]
    refine hvalue _ ?_
    unfold FloatNative.ending FloatNative.refusal?
    rw [hdata, if_neg hpos, if_neg hinside, if_neg (by omega)]
    rfl

end Executes

end Environment

/-! ### An image that imports a float native -/

/-- The header of an image that imports one native with a short name. -/
def floatHeader : Header :=
  { importHeader with size := 96, cod := 72, dat := 96, hea := 96, stp := 224 }

/-- Both ways to call the native by its number. -/
def floatListing : List Instruction := [⟨0, .sysreqC, [0]⟩, ⟨8, .sysreqN, [0, 4]⟩, ⟨20, .retn, []⟩]

/-- The bytes of the image: the record of the import with this handle, the
    name `float` and the code. -/
def floatBytes (handle : Cell) : List Byte :=
  floatHeader.bytes ++ handle.bytes ++ Cell.bytes 66 ++ Half.bytes 5 ++
    [0x66, 0x6C, 0x6F, 0x61, 0x74, 0] ++ Instruction.stream floatListing

/-- The image with its heap and stack, after the import was bound. -/
def floatInstance (handle : Cell) (natives : Array Native) : Instance where
  header := floatHeader
  block := (floatBytes handle).toArray ++ Array.replicate 128 0
  regs := { stp := 124, stk := 124, cip := -1 }
  pending := 0
  natives := natives

theorem size_floatInstance (handle : Cell) (natives : Array Native) :
    (floatInstance handle natives).block.size = 224 := by
  show ((floatBytes handle).toArray ++ Array.replicate 128 0).size = 224
  rw [Array.size_append, Array.size_replicate, List.size_toArray]
  rfl

theorem load_floatImage : Instance.load (floatBytes 0).toArray = .ok (floatInstance 0 #[]) :=
  Instance.load_whole (by decide +kernel) rfl (by decide) rfl

theorem decodes_floatListing : Decodes (floatInstance 0 #[]).code 0 floatListing none :=
  .of_block (n := 24) rfl (by decide) rfl rfl (by decide) (by decide)

/-- The image is compiled with and without code in place of calls. -/
theorem exists_floatProgram (intrinsics : Bool) :
    ∃ p, Program.ofInstance { intrinsics } (floatInstance 0 #[]) = .ok p :=
  Program.exists_ofInstance _ load_floatImage decodes_floatListing (by decide) (by decide)

/-- A call of the host that starts at an instruction, with the native bound. -/
def floatCall (address : Cell) : Invocation where
  regs := { rsp := Layout.standard.stackTop - 64 }
  depth := 6
  address := address
  host := { vm := floatInstance 1 #[FloatNative.native .float] }

theorem nativeName?_floatInstance :
    (floatInstance 0 #[]).nativeName? (0 : Cell).toNat = some (FloatNative.name .float) := by
      decide +kernel

/-- Runs of both programs come to an instruction with the same instance: the native is bound, and
    there are two zeros on the stack. -/
theorem executes_floatCall (before : List Instruction) (i : Instruction) (after : List Instruction)
    (hlisting : floatListing = before ++ i :: after) :
    ∃ (p p' : Program) (m m' : Machine),
      Program.ofInstance { intrinsics := true } (floatInstance 0 #[]) = .ok p ∧
      Program.ofInstance { intrinsics := false } (floatInstance 0 #[]) = .ok p' ∧
      (∀ left, Environment.Executes ⟨.standard, p⟩ { intrinsics := true } (floatInstance 0 #[])
        (floatCall i.address) (left + entrySteps) i after left m) ∧
      (∀ left, Environment.Executes ⟨.standard, p'⟩ { intrinsics := false } (floatInstance 0 #[])
        (floatCall i.address) (left + entrySteps) i after left m') ∧
      m'.spilled = m.spilled ∧ m.HasStk 116 ∧
      8 * (m.nativeWords + 3) ≤ Layout.standard.stackSize ∧
      8 * (m'.nativeWords + 3) ≤ Layout.standard.stackSize ∧
      (floatInstance 0 #[]).SameImage m.spilled ∧
      m.spilled.nativeAt 0 = .ok (FloatNative.native .float) ∧
      m.spilled.regs.hea = 0 ∧ m.spilled.cell 116 = .ok 0 := by
  -- What the host does before the instruction is the same for both programs and is computed once.
  have hhost : (do
      let vm₁ ← (floatInstance 1 #[FloatNative.native .float]).pushCell 0
      let vm ← vm₁.pushCell 0
      let _ ← vm.nativeAt 0
      return (vm.regs.stk, vm.regs.hea, ← vm.cell 116) : Except Fault (Cell × Cell × Cell)) =
        .ok (116, 0, 0) := by
    decide +kernel
  obtain ⟨vm₁, hpush₁, hhost⟩ := bind_eq_ok.mp hhost
  obtain ⟨vm, hpush₂, hhost⟩ := bind_eq_ok.mp hhost
  obtain ⟨native, hnative, hhost⟩ := bind_eq_ok.mp hhost
  obtain ⟨count, hcount, hhost⟩ := bind_eq_ok.mp hhost
  obtain ⟨hstk, hrest⟩ := Prod.mk.inj (Except.ok.inj hhost)
  obtain ⟨hhea, rfl⟩ := Prod.mk.inj hrest
  have hfixed := (Instance.operated_pushCell hpush₁).toFixed.trans
    (Instance.operated_pushCell hpush₂).toFixed
  have hbound : native = FloatNative.native .float := by
    have hmem := Instance.mem_natives_of_nativeAt hnative
    rw [hfixed.natives] at hmem
    exact Array.mem_singleton.mp hmem
  have himage : (floatInstance 0 #[]).SameImage vm :=
    ⟨hfixed.header, by rw [hfixed.size, size_floatInstance, size_floatInstance]⟩
  have hdecodes := decodes_floatListing
  rw [hlisting] at hdecodes
  have hsize : (floatCall i.address).host.vm.block.size ≤ 0x1000000000 := by
    rw [floatCall, size_floatInstance]
    decide
  have hdepth : (floatCall i.address).depth ≤ 1000 := show 6 ≤ 1000 by decide
  obtain ⟨p, hp⟩ := exists_floatProgram true
  obtain ⟨p', hp'⟩ := exists_floatProgram false
  obtain ⟨d, m, hm, hloaded, hvm, -, hdeep⟩ :=
    Environment.exists_executes_on (c := floatCall i.address) (fun _ => {})
    before i after load_floatImage hp hdecodes hsize rfl hdepth rfl hpush₁ hpush₂
  obtain ⟨d', m', hm', hloaded', hvm', -, hdeep'⟩ :=
    Environment.exists_executes_on (c := floatCall i.address) (fun _ => {})
    before i after load_floatImage hp' hdecodes hsize rfl hdepth rfl hpush₁ hpush₂
  obtain rfl := Environment.spilled_of_loaded hloaded hvm
  exact ⟨p, p', m, m', hp, hp', hm, hm', Environment.spilled_of_loaded hloaded' hvm',
    hstk ▸ hloaded.hasStk, hdeep, hdeep', himage, hbound ▸ hnative, hhea, hcount⟩

/-! ## Section 2: With and without code in place of calls -/

section
variable {env env' : Environment} {checks : Bool} {vm₀ : Instance} {c c' : Invocation}
  {start start' left left' : Nat} {i : Instruction} {after : List Instruction} {m m' : Machine}
  {f : FloatNative} {s : Cell}

/-- **Calls that drop their arguments.** One program is compiled with code in place of calls of
    float natives and one without. Runs of both come to an instruction that calls a float native and
    drops the arguments, with the same instance: the natives are bound, the byte count fits on the
    stack and the arguments lie in the data segment. Then both finish in the same way, with the same
    registers and the same memory, but for the cell below the arguments. -/
theorem inlining_keeps_counted_calls
    (hm : env.Executes ⟨true, checks⟩ vm₀ c start i after left m)
    (hm' : env'.Executes ⟨false, checks⟩ vm₀ c' start' i after left' m')
    (hop : i.opcode = .sysreqN) (hname : vm₀.nativeName? i.arg.toNat = some f.name)
    (hbound : m.spilled.nativeAt i.arg = .ok f.native) (himage : vm₀.SameImage m.spilled)
    (hstate : m'.spilled = m.spilled) (hstk : m.HasStk s)
    (hfits : m.spilled.regs.hea.toInt ≤ s.toInt - Cell.width)
    (hblock : Cell.width ≤ s.toNat ∧ s.toNat + i.arg2.toNat ≤ m.spilled.dataSize)
    (hdeep : 8 * (m.nativeWords + 3) ≤ env.layout.stackSize)
    (hdeep' : 8 * (m'.nativeWords + 3) ≤ env'.layout.stackSize)
    (hfuel : Environment.siteSteps ≤ left) (hfuel' : Environment.siteSteps ≤ left') :
    ∃ r vm vm', env.Completes c start after left m r vm ∧
      env'.Completes c' start' after left' m' r vm' ∧
      vm'.regs = vm.regs ∧ (vm' = vm ∨ vm.setCell (s - 4) i.arg2 = .ok vm') := by
  obtain ⟨image, hload⟩ := hm.loaded
  have hsized := himage.sized hload
  have hapart := himage.tablesApart hload
  obtain ⟨hlow, hhigh⟩ := hblock
  have hcall : i.nativeCall? = some (.const i.arg, .const i.arg2) := by
    rw [Instruction.nativeCall?, hop]
  have htop : (s - 4).toNat + 4 = s.toNat := Instance.toNat_sub_four hlow
  obtain ⟨vm₁, hset⟩ := hsized.exists_setCell (c := s - 4)
    ⟨Int.natCast_nonneg _, by rw [show Cell.width = 4 from rfl]; omega⟩ i.arg2
  obtain ⟨block, -, hvm₁⟩ := Instance.setCell_eq_ok hset
  -- Without code in place the native is called.
  have hoff := hm'.completes_dropping hdeep' hfuel' (s := s) hcall (inlined?_off ..)
    (by rw [hstate]; exact hbound)
    (by rw [hstate]; exact hsized) (by rw [hstate]; exact hapart)
      (by rw [hstate]; exact hstk.spilled)
    (by rw [hstate]; exact hfits) (by rw [hstate]; exact hset) (by rw [hstate]; exact hhigh)
  rw [hstate] at hoff
  have hon := (inlined?_on checks hname (Instance.nonneg_of_nativeAt hbound)).2 i.arg2
  by_cases hbytes : i.arg2 = BitVec.ofNat 32 (Cell.width * f.arity)
  · -- With code in place the byte count is not stored.
    rw [if_pos hbytes] at hon
    have hcount : i.arg2.toNat = Cell.width * f.arity := by
      rw [hbytes]
      cases f <;> rfl
    have hdone := hm.completes_counted hdeep hfuel hcall hon hbytes hsized hstk (by omega)
    refine ⟨none, _, _, hdone, hoff.2 (by rw [hcount]; exact Nat.le_of_eq (by cases f <;> rfl)), ?_,
      Or.inr (Instance.setCell_put (Instance.setCell_put hset))⟩
    rw [hvm₁]
    rfl
  · rw [if_neg hbytes] at hon
    have hsame := hm.completes_dropping hdeep hfuel hcall hon hbound hsized hapart hstk.spilled
      hfits hset hhigh
    by_cases hfew : i.arg2.toNat / Cell.width < f.arity
    · exact ⟨_, _, _, hsame.1 hfew, hoff.1 hfew, rfl, Or.inl rfl⟩
    · exact ⟨_, _, _, hsame.2 (by omega), hoff.2 (by omega), rfl, Or.inl rfl⟩

/-- With one argument on the stack both programs go on. -/
theorem floatCall_counted :
    ∃ (p p' : Program) (m m' : Machine) (r : Option Fault) (vm vm' : Instance),
    Program.ofInstance { intrinsics := true } (floatInstance 0 #[]) = .ok p ∧
    Program.ofInstance { intrinsics := false } (floatInstance 0 #[]) = .ok p' ∧
    Environment.Completes ⟨.standard, p⟩ (floatCall 8) (Environment.siteSteps + entrySteps)
      (floatListing.drop 2) Environment.siteSteps m r vm ∧
    Environment.Completes ⟨.standard, p'⟩ (floatCall 8) (Environment.siteSteps + entrySteps)
      (floatListing.drop 2) Environment.siteSteps m' r vm' ∧
    vm'.regs = vm.regs ∧ (vm' = vm ∨ vm.setCell 112 4 = .ok vm') := by
  obtain ⟨p, p', m, m', hp, hp', hm, hm', hstate, hstk, hdeep, hdeep', himage, hbound, hhea, -⟩ :=
    executes_floatCall (floatListing.take 1) ⟨8, .sysreqN, [0, 4]⟩ (floatListing.drop 2) rfl
  obtain ⟨r, vm, vm', hon, hoff, hsame⟩ := inlining_keeps_counted_calls
    (f := .float) (hm Environment.siteSteps) (hm' Environment.siteSteps) rfl
      nativeName?_floatInstance
    hbound himage hstate hstk (by rw [hhea]; decide)
      ⟨by decide, by rw [Instance.dataSize, himage.header]; decide⟩
    hdeep hdeep' (Nat.le_refl _) (Nat.le_refl _)
  exact ⟨p, p', m, m', r, vm, vm', hp, hp', hon, hoff, hsame⟩

/-- **Calls with a byte count that was pushed.** The same for an instruction that leaves the
    arguments on the stack, below them whatever byte count was pushed. With code in place of the
    call the native computes in any case. Without, it only does so when it does not refuse the
    count, and then both finish in the same way; otherwise the call ends with a fault and the
    instance is left as it was. -/
theorem inlining_ignores_pushed_counts
    (hm : env.Executes ⟨true, checks⟩ vm₀ c start i after left m)
    (hm' : env'.Executes ⟨false, checks⟩ vm₀ c' start' i after left' m')
    (hop : i.opcode = .sysreqC) (hname : vm₀.nativeName? i.arg.toNat = some f.name)
    (hbound : m.spilled.nativeAt i.arg = .ok f.native) (himage : vm₀.SameImage m.spilled)
    (hstate : m'.spilled = m.spilled) (hstk : m.HasStk s)
    (hblock : s.toNat + Cell.width + Cell.width * f.arity ≤ m.spilled.dataSize)
    (hdeep : 8 * (m.nativeWords + 3) ≤ env.layout.stackSize)
    (hdeep' : 8 * (m'.nativeWords + 3) ≤ env'.layout.stackSize)
    (hfuel : Environment.siteSteps ≤ left) (hfuel' : Environment.siteSteps ≤ left') :
    ∃ count vm, m.spilled.cell s = .ok count ∧ env.Completes c start after left m none vm ∧
      (f.refusal? m.spilled s.toNat count = none →
        env'.Completes c' start' after left' m' none vm) ∧
      ∀ fault, f.refusal? m.spilled s.toNat count = some fault →
        env'.Completes c' start' after left' m' (some fault) m.spilled := by
  obtain ⟨image, hload⟩ := hm.loaded
  have hsized := himage.sized hload
  have hcall : i.nativeCall? = some (.const i.arg, .pushed) := by
    rw [Instruction.nativeCall?, hop]
  have hon := (inlined?_on checks hname (Instance.nonneg_of_nativeAt hbound)).1
  have hdone := hm.completes_pushed hdeep hfuel hcall hon hsized hstk hblock
  obtain ⟨count, hcount⟩ := hsized.exists_cellAt (a := s.toNat)
    ⟨Int.natCast_nonneg _, by rw [show Cell.width = 4 from rfl] at hblock ⊢; omega⟩
  refine ⟨count, _, hsized.cell_eq_ok hcount, hdone, ?_⟩
  have hs := hstk.spilled
  -- The byte count was pushed, so entering the call changes nothing and leaving
  -- it puts nothing back.
  have henter : CallContext.enter m'.spilled .onStack = .ok (⟨.onStack, s, s⟩, m.spilled) := by
    rw [hstate, ← hs]
    rfl
  have hending := FloatNative.dispatches henter hbound hsized hcount
  have hleave : CallContext.leave ⟨.onStack, s, s⟩ m.spilled = m.spilled := by
    rw [← hs]
    rfl
  rw [hleave] at hending
  obtain ⟨hvalue, hfault⟩ := hm'.completes_call hdeep' hfuel' hcall (inlined?_off ..) hending
  constructor
  · intro haccepted
    refine hvalue _ ?_
    unfold FloatNative.ending
    rw [haccepted]
    rfl
  · intro fault hrefused
    refine hfault fault ?_
    unfold FloatNative.ending
    rw [hrefused]
    rfl

/-- With a byte count of zero one program goes on, and the other one ends the call with a fault. -/
theorem floatCall_uncounted : ∃ (p p' : Program) (m m' : Machine) (vm : Instance),
    Program.ofInstance { intrinsics := true } (floatInstance 0 #[]) = .ok p ∧
    Program.ofInstance { intrinsics := false } (floatInstance 0 #[]) = .ok p' ∧
    m'.spilled = m.spilled ∧
    Environment.Completes ⟨.standard, p⟩ (floatCall 0) (Environment.siteSteps + entrySteps)
      (floatListing.drop 1) Environment.siteSteps m none vm ∧
    Environment.Completes ⟨.standard, p'⟩ (floatCall 0) (Environment.siteSteps + entrySteps)
      (floatListing.drop 1) Environment.siteSteps m' (some .params) m.spilled := by
  obtain ⟨p, p', m, m', hp, hp', hm, hm', hstate, hstk, hdeep, hdeep', himage, hbound, -, hzero⟩ :=
    executes_floatCall [] ⟨0, .sysreqC, [0]⟩ (floatListing.drop 1) rfl
  have hsize : m.spilled.dataSize = 128 := by rw [Instance.dataSize, himage.header]; decide
  obtain ⟨count, vm', hcount, hon, -, hoff⟩ := inlining_ignores_pushed_counts
    (f := .float) (hm Environment.siteSteps) (hm' Environment.siteSteps) rfl
      nativeName?_floatInstance
    hbound himage hstate hstk (by rw [hsize]; decide) hdeep hdeep' (Nat.le_refl _) (Nat.le_refl _)
  obtain rfl : 0 = count := Except.ok.inj (hzero.symm.trans hcount)
  refine ⟨p, p', m, m', vm', hp, hp', hstate, hon, hoff .params ?_⟩
  unfold FloatNative.refusal?
  rw [hsize]
  rfl

end

end PawnNative
