import Mathlib.Tactic.Common
import PawnNative.Proofs.Tracking

/-! # Range checks are transparent

    A program with range checks and the same program without them do the same as long
    as no check fails, with one exception. The code for failed checks is one of the
    stubs behind the last instruction. A run that goes past the last instruction goes
    on with the first stub, and which one is the first depends on whether there are
    range checks.

    So the statement about all images and all calls of the host has two conditions: no
    check fails, in the call itself and in the calls that natives make, and no run goes
    past the last instruction into the code for failed checks.
-/

namespace PawnNative

open X64 Convention Template

/-- What helpers leave above their results is the same whenever the instance is the same. -/
def Platform.Repeats (platform : Platform) : Prop :=
  ∀ x x' : Machine, x'.host.vm = x.host.vm →
    ((platform.residue x').regs.get .rax).upper = ((platform.residue x).regs.get .rax).upper

/-- Where the code for failed range checks is in the program of an image, if it has any. -/
def refusalOffset? (vm₀ : Instance) (config : Config) (is : List Instruction) : Option Nat :=
  (Plan.ofProgram (.ofInstance config vm₀) is).placed (.stub (.fault .memoryAccess))

theorem Event.isCall_iff {e : Event} : e.isCall = true ↔ e ≠ .refused ∧ e ≠ .overrun := by
  cases e <;> simp [Event.isCall]

theorem Erases.linesSize_le {e : Bool} {kn : Known} {xs ys : List (Nat × Line)}
    (h : Erases e kn xs ys) : linesSize (ys.map Prod.snd) ≤ linesSize (xs.map Prod.snd) := by
  induction h with
  | nil => exact Nat.le_refl _
  | line _ _ ih => exact Nat.add_le_add_left ih _
  | piece _ _ ih | fault _ _ ih =>
    simp only [List.map_append, map_snd_mk, linesSize_append]
    exact Nat.add_le_add_left ih _
  | check _ _ ih =>
    exact Nat.le_trans ih (Nat.le_trans (Nat.le_add_left _ _) (Nat.le_add_left _ _))
  | refuse _ _ ih => exact Nat.le_trans ih (Nat.le_add_left _ _)
  | stub _ _ ih =>
    rw [List.map_append, linesSize_append]
    exact Nat.le_trans ih (Nat.le_add_left _ _)

theorem Layout.Separate.mono {l : Layout} {size code code' : Nat} (h : l.Separate size code)
    (hle : code' ≤ code) : l.Separate size code' where
  stack_block := h.stack_block
  file_block := h.file_block
  file_stack := h.file_stack
  aligned := h.aligned
  bounded := h.bounded
  code_low := h.code_low
  code_high := Nat.lt_of_le_of_lt (Nat.add_le_add_left hle _) h.code_high
  host_code := Nat.lt_of_le_of_lt hle h.host_code
  host_helper := h.host_helper

section
variable {config : Config} {vm₀ : Instance} {is : List Instruction} {env env' : Environment}

/-- The programs of an image with and without range checks, on a platform where the
    first of them has its place. -/
theorem exists_twins {size : Nat} (hlisting : Decodes vm₀.code 0 is none)
    (hchecked : Program.ofInstance { config with memoryChecks := true } vm₀ = .ok env.program)
    (hunchecked : Program.ofInstance { config with memoryChecks := false } vm₀ = .ok env'.program)
    (hplatform : env'.platform = env.platform) (hrepeats : env.platform.Repeats)
    (hseparate : env.layout.Separate size env.program.code.size) :
    ∃ t : Twins, t.leader = env ∧ t.follower = env' ∧ t.size = size ∧
      t.stub = refusalOffset? vm₀ { config with memoryChecks := true } is := by
  have hfinishes := Program.finishes_of_listing hchecked hlisting
  have hfinishes' := Program.finishes_of_listing hunchecked hlisting
  -- Without the checks the code is shorter, so it lies apart from the other regions as well.
  have hsize : env'.program.code.size ≤ env.program.code.size := by
    have hprogram : ∀ {p : Program} {ctx : Context}, p.Finishes ctx is →
        p.code.size = linesSize prologue + linesSize ((bodyLines ctx is).map Prod.snd) := by
      intro p ctx h
      rw [h.size_eq, ← flatMap_programParts_eq h.passes, ← map_snd_numbered 0,
        numbered_programParts, List.map_append, linesSize_append, map_snd_mk]
    rw [hprogram hfinishes, hprogram hfinishes']
    exact Nat.add_le_add_left (erases_program (e := true) hfinishes.passes .held).linesSize_le _
  have hready' : env'.Ready ((Context.ofInstance { config with memoryChecks := true } vm₀).erased
      true) is size := by
    refine ⟨hfinishes', ?_⟩
    rw [Environment.layout, hplatform]
    exact hseparate.mono hsize
  exact ⟨⟨env, env', true, .ofInstance { config with memoryChecks := true } vm₀, is,
    size, hplatform, ⟨hfinishes, hseparate⟩, hready', hrepeats _ _⟩, rfl, rfl, rfl, rfl⟩

/-- **Transparency.** For every image and every call of the host: when no range check fails in the
    run of the program with range checks, at any depth of calls, and the run does not go past the
    last instruction into the code for failed checks, then the program without them comes to the
    same answer, by the same calls of natives, and leaves the same instance. -/
theorem range_checks_transparent (config : Config) (env env' : Environment) {regs : RegFile}
    {depth n n' : Nat} {host h : Host} {a : Action} {answer : a.Answer}
    (hlisting : Decodes vm₀.code 0 is none)
    (hchecked : Program.ofInstance { config with memoryChecks := true } vm₀ = .ok env.program)
    (hunchecked : Program.ofInstance { config with memoryChecks := false } vm₀ = .ok env'.program)
    (hplatform : env'.platform = env.platform) (hrepeats : env.platform.Repeats)
    (hseparate : env.layout.Separate host.vm.block.size env.program.code.size)
    (hrsp : regs.get .rsp = env.layout.slot (depth + 1))
    (hroom : 8 * (depth + 2) ≤ env.layout.stackSize)
    (hperform : (env.callbacks (env.run n) regs).perform a host = .ok (answer, h))
    (hchecks : .refused ∉
      env.hostEvents (refusalOffset? vm₀ { config with memoryChecks := true } is) n regs a host)
    (hend : .overrun ∉
      env.hostEvents (refusalOffset? vm₀ { config with memoryChecks := true } is) n regs a host)
    (hn : n ≤ n') :
    ∃ h', (env'.callbacks (env'.run n') regs).perform a host = .ok (answer, h') ∧ h'.vm = h.vm ∧
      env'.hostEvents none n' regs a host =
        env.hostEvents (refusalOffset? vm₀ { config with memoryChecks := true } is) n
          regs a host := by
  obtain ⟨t, rfl, rfl, hsize, hstub⟩ :=
    exists_twins hlisting hchecked hunchecked hplatform hrepeats hseparate
  rw [← hstub] at hchecks hend ⊢
  have hagree := t.agree_callbacks (fun n₁ _ => t.tracks n₁) hn hrsp rfl hroom
    (show host.vm.block.size = t.size from hsize.symm)
  refine hagree.perform a (.refl _) rfl hperform fun e he => Event.isCall_iff.mpr ⟨?_, ?_⟩
  · rintro rfl
    exact hchecks he
  · rintro rfl
    exact hend he

end

/-! ### A program that goes past its last instruction -/

/-- A load through the primary register and a return; behind them a comparison with a bound, which
    is the last instruction. -/
def tailListing : List Instruction := [⟨0, .loadI, []⟩, ⟨4, .ret, []⟩, ⟨8, .bounds, [5]⟩]

def tailImage : Block := (pushHeader.bytes ++ tailListing.flatMap Instruction.bytes).toArray

def tailInstance : Instance := { pushInstance with block := tailImage ++ Array.replicate 16 0 }

theorem load_tailImage : Instance.load tailImage = .ok tailInstance :=
  Instance.load_whole (by decide +kernel) rfl (by decide) rfl

theorem decodes_tailListing : Decodes tailInstance.code 0 tailListing none :=
  .of_block (n := 16) rfl (by decide) rfl rfl (by decide) (by decide)

/-- The load and the return with range checks, the last instruction with them,
    and the last one without. -/
theorem exists_tailPrograms : ∃ p p' :
    Program, Program.ofInstance { memoryChecks := true } tailInstance = .ok p ∧
    Program.ofInstance { memoryChecks := false } tailInstance = .ok p' ∧
    [0, 8].map (fun address => Environment.report ⟨.standard, p⟩
      (refusalOffset? tailInstance { memoryChecks := true } tailListing) 60
        (callAt tailInstance address 0 0)) =
    [some (.ok 0, []), some (.error .memoryAccess, [.overrun])] ∧
    Environment.report ⟨.standard, p'⟩ none 60 (callAt tailInstance 8 0 0) =
      some (.error .bounds, []) := by
  have hreports : ((Program.ofInstance { memoryChecks := true } tailInstance).toOption.map fun p =>
      [0, 8].map fun address => Environment.report ⟨.standard, p⟩
        (refusalOffset? tailInstance { memoryChecks := true } tailListing) 60
          (callAt tailInstance address 0 0)) =
      some [some (.ok 0, []), some (.error .memoryAccess, [.overrun])] := by decide +kernel
  have hreport : ((Program.ofInstance { memoryChecks := false } tailInstance).toOption.map fun p =>
      Environment.report ⟨.standard, p⟩ none 60 (callAt tailInstance 8 0 0)) =
        some (some (.error .bounds, [])) := by
    decide +kernel
  obtain ⟨p, hp, hreports⟩ := Option.map_eq_some_iff.mp hreports
  obtain ⟨p', hp', hreport⟩ := Option.map_eq_some_iff.mp hreport
  exact ⟨p, p', eq_ok_of_toOption hp, eq_ok_of_toOption hp', hreports, hreport⟩

theorem separate_tail {p : Program} {config : Config}
    (hp : Program.ofInstance config tailInstance = .ok p) :
    Layout.standard.Separate (callAt tailInstance 0 0 0).host.vm.block.size p.code.size :=
  (Environment.serves_standard load_tailImage hp (by decide +kernel)).separate

/-- Without range checks the load and the return come to the same. -/
theorem load_needs_no_check : ∃ (p p' : Program) (h : Host),
    Program.ofInstance { memoryChecks := true } tailInstance = .ok p ∧
    Program.ofInstance { memoryChecks := false } tailInstance = .ok p' ∧
    Environment.answer ⟨.standard, p⟩ 60 (callAt tailInstance 0 0 0) = .ok (.ok 0, h) ∧
    ∃ h', Environment.answer ⟨.standard, p'⟩ 60 (callAt tailInstance 0 0 0) = .ok (.ok 0, h') ∧
      h'.vm = h.vm := by
  obtain ⟨p, p', hp, hp', hreports, -⟩ := exists_tailPrograms
  obtain ⟨hreport, -⟩ := List.cons.inj hreports
  obtain ⟨⟨h, hanswer⟩, hevents⟩ := Environment.exists_of_report hreport
  have hrepeats : Platform.standard.Repeats := fun _ _ _ => rfl
  have hrsp : (callAt tailInstance 0 0 0).regs.get .rsp = Layout.standard.slot (6 + 1) := rfl
  obtain ⟨h', hanswer', hvm, -⟩ := range_checks_transparent {} ⟨.standard, p⟩ ⟨.standard, p'⟩
    (a := .call (callAt tailInstance 0 0 0).address) decodes_tailListing hp hp' rfl hrepeats
    (separate_tail hp) hrsp (show 8 * (6 + 2) ≤ Layout.standard.stackSize by decide) hanswer
    (by rw [hevents]; exact List.not_mem_nil) (by rw [hevents]; exact List.not_mem_nil)
      (Nat.le_refl 60)
  exact ⟨p, p', h, hp, hp', hanswer, h', hanswer', hvm⟩

/-- Past the last instruction the two programs differ, although no range check fails. -/
theorem past_the_end_checks_matter : Instance.load tailImage = .ok tailInstance ∧ ∃ p p' : Program,
    Program.ofInstance { memoryChecks := true } tailInstance = .ok p ∧
    Program.ofInstance { memoryChecks := false } tailInstance = .ok p' ∧
    .refused ∉ Environment.hostEvents ⟨.standard, p⟩
      (refusalOffset? tailInstance { memoryChecks := true } tailListing)
      60 (callAt tailInstance 8 0 0).regs (.call 8) (callAt tailInstance 8 0 0).host ∧
    (∃ h, Environment.answer ⟨.standard, p⟩ 60 (callAt tailInstance 8 0 0) = .ok
      (.error .memoryAccess, h)) ∧
    ∃ h', Environment.answer ⟨.standard, p'⟩ 60 (callAt tailInstance 8 0 0) =
      .ok (.error .bounds, h') := by
  obtain ⟨p, p', hp, hp', hreports, hreport'⟩ := exists_tailPrograms
  obtain ⟨-, hreports⟩ := List.cons.inj hreports
  obtain ⟨hreport, -⟩ := List.cons.inj hreports
  obtain ⟨hanswer, hevents⟩ := Environment.exists_of_report hreport
  refine ⟨load_tailImage, p, p', hp, hp', ?_, hanswer, (Environment.exists_of_report hreport').1⟩
  have hevents : Environment.hostEvents ⟨.standard, p⟩ _ 60 _ (.call 8) _ = _ := hevents
  rw [hevents]
  decide

end PawnNative
