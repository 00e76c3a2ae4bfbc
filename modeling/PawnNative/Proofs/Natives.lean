import Mathlib.Tactic.Common
import PawnNative.Proofs.Frames
import PawnNative.Run.Native

/-! # What natives keep

    A native acts on the host one action at a time, and only by calls of compiled
    functions does it reach the native stack. What an action keeps, a whole native
    keeps: `NativeProgram.exec_rel` says so for any relation between hosts.

    From it follows what holds for every native, whatever it does: the header, the
    natives and the size of the block stay, and so does the native stack as far as
    the calls that it makes leave it alone. More than that has to be asked of a
    native: `Native.Keeps` says that from its first action to its last one a native
    stays in a relation, if the functions that it calls do.
-/

namespace PawnNative

/-! ## Section 1: Operations of the host -/

namespace Instance

variable {vm vm' : Instance} {address value : Cell} {K : Instance → Instance → Prop}

theorem steady_fixed : Steady Fixed where
  refl := Fixed.refl
  trans := Fixed.trans
  fixed := id
  block _ _ hsize := ⟨rfl, rfl, hsize⟩
  register _ _ _ _ := ⟨rfl, rfl, rfl⟩
  settle _ := ⟨rfl, rfl, rfl⟩

theorem setCell_eq_ok (h : vm.setCell address value = .ok vm') :
    ∃ block : Block, block.size = vm.block.size ∧ vm' = { vm with block } := by
  unfold setCell at h
  split_ifs at h
  split at h
  · next block hblock =>
    cases h
    exact ⟨block, Block.size_setCell? hblock, rfl⟩
  · cases h

theorem steady_setCell (hK : Steady K) (h : vm.setCell address value = .ok vm') : K vm vm' := by
  obtain ⟨block, hsize, rfl⟩ := setCell_eq_ok h
  exact hK.block vm hsize

theorem guarded_eq_ok {p : Prop} [Decidable p] {f : Fault} {x : Except Fault Instance}
    {g : Instance → Instance} :
    (if p then .error f else x >>= fun vm => .ok (g vm)) = .ok vm' ↔ ¬p ∧ ∃ vm₁, x = .ok vm₁ ∧
    vm' = g vm₁ := by
  simp only [ite_error_eq_ok, bind_eq_ok, Except.ok.injEq, eq_comm (a := vm')]

theorem pushCell_eq_ok : vm.pushCell value = .ok vm' ↔
    vm.regs.hea.toInt ≤ vm.regs.stk.toInt - Cell.width ∧
      ∃ vm₁, vm.setCell (vm.regs.stk - 4) value = .ok vm₁ ∧
        vm' = vm₁.put .stk (vm.regs.stk - 4) := by
  rw [← Int.not_lt]
  exact guarded_eq_ok

theorem push_eq_ok : vm.push value = .ok vm' ↔
    vm.regs.hea.toInt + margin ≤ vm.regs.stk.toInt - Cell.width ∧
      ∃ vm₁, vm.setCell (vm.regs.stk - 4) value = .ok vm₁ ∧
        vm' = { vm₁.put .stk (vm.regs.stk - 4) with pending := vm₁.pending + 1 } := by
  rw [← Int.not_lt]
  exact guarded_eq_ok

theorem steady_pushCell (hK : Steady K) (h : vm.pushCell value = .ok vm') : K vm vm' := by
  obtain ⟨-, vm₁, hset, rfl⟩ := pushCell_eq_ok.mp h
  exact hK.trans (steady_setCell hK hset) (hK.register vm₁ _ (by decide))

/-- What the operations of the host leave alone: besides what no running code changes these are
    the alternate register, the frame and the bounds of heap and stack. -/
structure Operated (vm vm' : Instance) : Prop extends vm.Fixed vm' where
  alt : vm'.regs.alt = vm.regs.alt
  frm : vm'.regs.frm = vm.regs.frm
  hlw : vm'.regs.hlw = vm.regs.hlw
  stp : vm'.regs.stp = vm.regs.stp

theorem Operated.refl (vm : Instance) : vm.Operated vm := ⟨.refl vm, rfl, rfl, rfl, rfl⟩

theorem Operated.trans {u v w : Instance} (h : u.Operated v) (h' : v.Operated w) : u.Operated w :=
  ⟨h.toFixed.trans h'.toFixed, h'.alt.trans h.alt, h'.frm.trans h.frm, h'.hlw.trans h.hlw,
    h'.stp.trans h.stp⟩

theorem operated_setCell (h : vm.setCell address value = .ok vm') : vm.Operated vm' := by
  obtain ⟨block, hsize, rfl⟩ := setCell_eq_ok h
  exact ⟨⟨rfl, rfl, hsize⟩, rfl, rfl, rfl, rfl⟩

theorem operated_push (h : vm.push value = .ok vm') : vm.Operated vm' := by
  obtain ⟨-, vm₁, hset, rfl⟩ := push_eq_ok.mp h
  exact (operated_setCell hset).trans ⟨⟨rfl, rfl, rfl⟩, rfl, rfl, rfl, rfl⟩

theorem regs_pushCell (h : vm.pushCell value = .ok vm') :
    vm'.regs = { vm.regs with stk := vm.regs.stk - 4 } := by
  obtain ⟨-, vm₁, hset, rfl⟩ := pushCell_eq_ok.mp h
  obtain ⟨block, -, rfl⟩ := setCell_eq_ok hset
  rfl

theorem operated_pushCell (h : vm.pushCell value = .ok vm') : vm.Operated vm' := by
  obtain ⟨-, vm₁, hset, rfl⟩ := pushCell_eq_ok.mp h
  exact (operated_setCell hset).trans ⟨⟨rfl, rfl, rfl⟩, rfl, rfl, rfl, rfl⟩

theorem operated_allot {cells : Nat} (h : vm.allot cells = .ok (address, vm')) :
    vm.Operated vm' := by
  unfold allot at h
  dsimp only at h
  split_ifs at h
  cases h
  exact ⟨⟨rfl, rfl, rfl⟩, rfl, rfl, rfl, rfl⟩

theorem operated_setCells (cells : List Cell) (h : vm.setCells address cells = .ok vm') :
    vm.Operated vm' := by
  induction cells generalizing vm address with
  | nil =>
    cases h
    exact .refl _
  | cons c cells ih =>
    obtain ⟨vm₁, hset, h⟩ := bind_eq_ok.mp h
    exact (operated_setCell hset).trans (ih h)

theorem operated_pushText (vm : Instance) (s : String) : vm.Operated (vm.pushText s).vm := by
  unfold pushText
  dsimp only
  split
  · exact .refl vm
  · next address vm₁ hallot =>
    have hfirst := operated_allot hallot
    split
    · exact hfirst
    · next vm₂ hcells =>
      have hnext := hfirst.trans (operated_setCells _ hcells)
      split
      · exact hnext
      · next vm₃ hpush => exact hnext.trans (operated_push hpush)

theorem operated_dropCells {count : Nat} (h : vm.dropCells count = .ok vm') : vm.Operated vm' := by
  unfold dropCells at h
  dsimp only at h
  split_ifs at h
  cases h
  exact ⟨⟨rfl, rfl, rfl⟩, rfl, rfl, rfl, rfl⟩

theorem operated_popCell (h : vm.popCell = .ok (value, vm')) : vm.Operated vm' := by
  obtain ⟨v, -, h⟩ := bind_eq_ok.mp h
  obtain ⟨vm₁, hdrop, h⟩ := bind_eq_ok.mp h
  cases h
  exact operated_dropCells hdrop

theorem operated_release (vm : Instance) (address : Cell) : vm.Operated (vm.release address) := by
  unfold release
  split_ifs <;> exact ⟨⟨rfl, rfl, rfl⟩, rfl, rfl, rfl, rfl⟩

end Instance

/-! ## Section 2: Actions one after the other -/

/-- An action that calls compiled code. -/
def Action.isCall : Action → Bool
  | .call _ | .callPublic _ | .callMain => true
  | _ => false

/-- Every action that a native may take satisfies `P`. -/
def NativeProgram.Only {α : Type} (P : Action → Prop) : NativeProgram α → Prop
  | .done _ | .fail _ | .abort => True
  | .act a next => P a ∧ ∀ answer, (next answer).Only P

theorem NativeProgram.only_true {α : Type} (p : NativeProgram α) : p.Only fun _ => True := by
  induction p with
  | done _ => trivial
  | fail _ => trivial
  | abort => trivial
  | act a next ih => exact ⟨trivial, ih⟩

/-- **Run.** What the actions of a native keep, the native keeps. -/
theorem NativeProgram.exec_rel {α : Type} {k : Callbacks} {P : Action → Prop}
    {R : Host → Host → Prop} (hrefl : ∀ h, R h h) (htrans : ∀ {h₁ h₂ h₃}, R h₁ h₂ →
      R h₂ h₃ → R h₁ h₃)
    (hact : ∀ a h answer h', P a → k.perform a h = .ok (answer, h') → R h h')
    {p : NativeProgram α} (hp : p.Only P) {h h' : Host} {r : Except Fault α}
    (hexec : p.exec k h = .ok (r, h')) : R h h' := by
  induction p generalizing h with
  | done a =>
    cases hexec
    exact hrefl _
  | fail f =>
    cases hexec
    exact hrefl _
  | abort =>
    cases hexec
    exact hrefl _
  | act a next ih =>
    obtain ⟨⟨answer, h₁⟩, hperform, hexec⟩ := bind_eq_ok.mp hexec
    exact htrans (hact a h answer h₁ hp.1 hperform) (ih answer (hp.2 answer) hexec)

/-- Calls that natives make keep a relation, once no argument waits, and the first words of the
    native stack. They may rely on what no running code changes. -/
def Callbacks.Keep (k : Callbacks) (K : Instance → Instance → Prop) (n : Nat) (vm : Instance) :
    Prop :=
  ∀ address h r h', vm.Fixed h.vm → k.call address h = .ok (r, h') →
    K { h.vm with pending := 0 } h'.vm ∧ h.stack.Agrees n h'.stack

/-- A native stays in a relation when the calls that it makes do. -/
def Native.Keeps (K : Instance → Instance → Prop) (native : Native) : Prop :=
  ∀ k call h, k.Keep K 0 h.vm → ∀ r h', (native call).exec k h = .ok (r, h') → K h.vm h'.vm

/-- All natives of an instance stay in a relation. -/
def Instance.NativesKeep (vm : Instance) (K : Instance → Instance → Prop) : Prop :=
  ∀ native ∈ vm.natives, native.Keeps K

namespace Callbacks

variable {k : Callbacks} {K : Instance → Instance → Prop} {n : Nat} {vm : Instance}

theorem Keep.mono (h : k.Keep K n vm) {n' : Nat} (hn : n' ≤ n) {vm' : Instance}
    (hvm : vm.Fixed vm') : k.Keep K n' vm' := by
  intro address h₁ r h₂ hfixed hcall
  obtain ⟨hkeep, hagrees⟩ := h address h₁ r h₂ (hvm.trans hfixed) hcall
  exact ⟨hkeep, hagrees.mono hn⟩

/-- What an action does to a host: it calls a function, writes a register, or operates on the
    instance and leaves the native stack alone. -/
theorem perform_cases (a : Action) {h h' : Host} {answer : a.Answer}
    (hperform : k.perform a h = .ok (answer, h')) :
    (a.isCall = true ∧ ∃ address r, k.call address h = .ok (r, h')) ∨
    (∃ name value, a = .setRegister name value ∧ h' = { h with vm := h.vm.put name value }) ∨
    (h.vm.Operated h'.vm ∧ h'.stack = h.stack) := by
  -- Operations that can fail leave the instance alone when they do.
  have hcommit : ∀ {x : Except Fault Instance} {answer}, (∀ vm', x = .ok vm' → h.vm.Operated vm') →
      h.commit x = (answer, h') → h.vm.Operated h'.vm ∧ h'.stack = h.stack := by
    intro x answer hx heq
    cases x with
    | error f =>
      cases heq
      exact ⟨.refl _, rfl⟩
    | ok vm' =>
      cases heq
      exact ⟨hx vm' rfl, rfl⟩
  have hcommitCell : ∀ {x : Except Fault (Cell × Instance)} {answer},
      (∀ c vm', x = .ok (c, vm') → h.vm.Operated vm') → h.commitCell x = (answer, h') →
      h.vm.Operated h'.vm ∧ h'.stack = h.stack := by
    intro x answer hx heq
    cases x with
    | error f =>
      cases heq
      exact ⟨.refl _, rfl⟩
    | ok r =>
      cases heq
      exact ⟨hx r.1 r.2 rfl, rfl⟩
  cases a with
  | registers | cell | text | pending | findPublic | isInstruction | log =>
    cases hperform
    exact Or.inr (Or.inr ⟨.refl _, rfl⟩)
  | setRegister name value =>
    cases hperform
    exact Or.inr (Or.inl ⟨name, value, rfl, rfl⟩)
  | setCell address value =>
    exact Or.inr (Or.inr (hcommit (fun _ => Instance.operated_setCell) (Except.ok.inj hperform)))
  | push value =>
    exact Or.inr (Or.inr (hcommit (fun _ => Instance.operated_push) (Except.ok.inj hperform)))
  | pushText s =>
    cases hperform
    exact Or.inr (Or.inr ⟨Instance.operated_pushText h.vm s, rfl⟩)
  | allot cells =>
    exact Or.inr (Or.inr (hcommitCell (fun _ _ => Instance.operated_allot)
        (Except.ok.inj hperform)))
  | release address =>
    cases hperform
    exact Or.inr (Or.inr ⟨Instance.operated_release h.vm address, rfl⟩)
  | pushCell value =>
    exact Or.inr (Or.inr (hcommit (fun _ => Instance.operated_pushCell) (Except.ok.inj hperform)))
  | popCell =>
    exact Or.inr (Or.inr (hcommitCell (fun _ _ => Instance.operated_popCell)
      (Except.ok.inj hperform)))
  | dropCells count =>
    exact Or.inr (Or.inr (hcommit (fun _ => Instance.operated_dropCells) (Except.ok.inj hperform)))
  | call address => exact Or.inl ⟨rfl, address, answer, hperform⟩
  | callPublic index =>
    change k.callPublic index h = _ at hperform
    unfold callPublic at hperform
    split at hperform
    · cases hperform
      exact Or.inr (Or.inr ⟨.refl _, rfl⟩)
    · exact Or.inl ⟨rfl, _, answer, hperform⟩
  | callMain =>
    change k.callMain h = _ at hperform
    unfold callMain at hperform
    split_ifs at hperform
    · cases hperform
      exact Or.inr (Or.inr ⟨⟨⟨rfl, rfl, rfl⟩, rfl, rfl, rfl, rfl⟩, rfl⟩)
    · exact Or.inl ⟨rfl, _, answer, hperform⟩

/-- **Step.** No action changes what no running code changes. -/
theorem fixed_perform (hK : Steady K) (hk : k.Keep K n vm) (a : Action) {h h' : Host}
    {answer : a.Answer} (hvm : vm.Fixed h.vm) (hperform : k.perform a h = .ok (answer, h')) :
    h.vm.Fixed h'.vm ∧ h.stack.Agrees n h'.stack := by
  rcases perform_cases a hperform with ⟨-, address, r, hcall⟩ |
    ⟨name, value, -, rfl⟩ | ⟨hvm', hstack⟩
  · obtain ⟨hkeep, hagrees⟩ := hk address h r h' hvm hcall
    have hsettle : h.vm.Fixed { h.vm with pending := 0 } := ⟨rfl, rfl, rfl⟩
    exact ⟨hsettle.trans (hK.fixed hkeep), hagrees⟩
  · exact ⟨⟨rfl, rfl, rfl⟩, .refl _ _⟩
  · rw [hstack]
    exact ⟨hvm'.toFixed, .refl _ _⟩

/-- **Run.** No native changes what no running code changes. -/
theorem fixed_exec (hK : Steady K) (hk : k.Keep K n vm) {α : Type} {p : NativeProgram α}
    {h h' : Host} {r : Except Fault α} (hvm : vm.Fixed h.vm) (hexec : p.exec k h = .ok (r, h')) :
    h.vm.Fixed h'.vm ∧ h.stack.Agrees n h'.stack := by
  refine NativeProgram.exec_rel (P := fun _ => True)
    (R := fun h h' => vm.Fixed h.vm → h.vm.Fixed h'.vm ∧ h.stack.Agrees n h'.stack)
    (fun h _ => ⟨.refl _, .refl _ _⟩) ?_ ?_ p.only_true hexec hvm
  · intro h₁ h₂ h₃ hfirst hlast hvm
    obtain ⟨hfixed, hagrees⟩ := hfirst hvm
    obtain ⟨hfixed', hagrees'⟩ := hlast (hvm.trans hfixed)
    exact ⟨hfixed.trans hfixed', hagrees.trans hagrees'⟩
  · intro a h answer h' _ hperform hvm
    exact fixed_perform hK hk a hvm hperform

end Callbacks

theorem Native.keeps_fixed (native : Native) : native.Keeps Instance.Fixed := by
  intro k call h hk r h' hexec
  exact (Callbacks.fixed_exec Instance.steady_fixed hk (.refl _) hexec).1

/-! ## Section 3: Dispatch -/

theorem Instance.mem_natives_of_nativeAt {vm : Instance} {index : Cell} {native : Native}
    (h : vm.nativeAt index = .ok native) : native ∈ vm.natives := by
  unfold nativeAt at h
  split_ifs at h
  split at h
  · cases h
  · next handle _ =>
    split at h
    · cases h
    · next f hf =>
      cases h
      unfold nativeOf? at hf
      split_ifs at hf
      exact Array.mem_of_getElem? hf

/-- **Step.** The call of a native stays in a relation that the natives stay in. -/
theorem keep_dispatch {K : Instance → Instance → Prop} (hK : Steady K) {k : Callbacks} {n : Nat}
    {h h' : Host} {index : Cell} {block : ArgBlock} {r : Except Fault Cell}
    (hnatives : h.vm.NativesKeep K) (hk : k.Keep K n h.vm)
    (hdispatch : dispatch k index block h = .ok (r, h')) :
    K h.vm h'.vm ∧ h.stack.Agrees n h'.stack := by
  unfold dispatch at hdispatch
  split at hdispatch
  · cases hdispatch
    exact ⟨hK.refl _, .refl _ _⟩
  · next c vm henter =>
    -- Setting up the arguments pushes at most the byte count.
    have hvm : K h.vm vm := by
      cases block with
      | onStack =>
        cases henter
        exact hK.refl _
      | push bytes =>
        obtain ⟨vm₁, hpush, henter⟩ := bind_eq_ok.mp henter
        cases henter
        exact Instance.steady_pushCell hK hpush
    -- Whatever the native did to the stack, it is put back.
    have hleave : ∀ vm, K vm (c.leave vm) := fun vm => hK.register vm _ (r := .stk) (by decide)
    dsimp only at hdispatch
    split at hdispatch
    · cases hdispatch
      exact ⟨hK.trans hvm (hleave vm), .refl _ _⟩
    · next native params hfound =>
      obtain ⟨⟨result, h₁⟩, hexec, hdispatch⟩ := bind_eq_ok.mp hdispatch
      cases hdispatch
      obtain ⟨found, hnative, hparams⟩ := bind_eq_ok.mp hfound
      obtain ⟨ps, -, heq⟩ := bind_eq_ok.mp hparams
      obtain ⟨rfl, rfl⟩ := Prod.mk.inj (Except.ok.inj heq)
      have hfixed := hK.fixed hvm
      have hmem : found ∈ h.vm.natives := by
        rw [← hfixed.natives]
        exact Instance.mem_natives_of_nativeAt hnative
      have hk' := hk.mono (Nat.le_refl n) hfixed
      have hkeep : K vm h₁.vm :=
        hnatives found hmem k _ (h.setVm vm) (hk'.mono (Nat.zero_le n) (.refl _)) _ _ hexec
      obtain ⟨-, hagrees⟩ := Callbacks.fixed_exec hK hk' (.refl _) hexec
      exact ⟨hK.trans hvm (hK.trans hkeep (hleave h₁.vm)), hagrees⟩

end PawnNative
