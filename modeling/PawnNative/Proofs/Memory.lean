import Mathlib.Tactic.Common
import PawnNative.Machine.Basic
import PawnNative.Proofs.Outcome

/-! # Memory of the host

    What is stored at an address is what a later access there finds, and a store
    changes nothing of a machine but the host.
-/

namespace PawnNative

open X64

/-! ## Section 1: Reading back -/

namespace Host

variable {h h' : Host} {l : Layout} {a : Word} {v : Cell}

theorem place?_store32 (hstore : h.store32 l a v = some h') (b : Word) :
    h'.place? l b = h.place? l b := by
  obtain ⟨⟨header, block, regs, pending, natives⟩, stack, log⟩ := h
  simp only [store32] at hstore
  split at hstore
  · next o _ =>
    obtain ⟨block', hblock, rfl⟩ := Option.map_eq_some_iff.mp hstore
    simp only [place?, Block.size_setCell? hblock]
  · next o _ =>
    split_ifs at hstore
    obtain ⟨r, -, rfl⟩ := Option.map_eq_some_iff.mp hstore
    rfl
  · next d _ =>
    split_ifs at hstore
    cases hstore
    rfl
  · cases hstore

theorem load32_store32_self (hstore : h.store32 l a v = some h') : h'.load32 l a = some v := by
  have hplace := place?_store32 hstore a
  rw [load32, hplace]
  obtain ⟨⟨header, block, regs, pending, natives⟩, stack, log⟩ := h
  simp only [store32] at hstore
  simp only [place?]
  split at hstore
  · next o ho =>
    obtain ⟨block', hblock, rfl⟩ := Option.map_eq_some_iff.mp hstore
    simp only [Block.cell?_setCell? hblock]
  · next o ho =>
    split_ifs at hstore with haligned
    obtain ⟨r, hr, rfl⟩ := Option.map_eq_some_iff.mp hstore
    simp [haligned, hr]
  · next d hd =>
    split_ifs at hstore with haligned
    cases hstore
    simp [haligned]
  · cases hstore

end Host

/-! ## Section 2: Accesses by region -/

namespace Host

variable {h h' : Host} {l : Layout} {a : Word} {v : Cell} {o : Nat} {r : RegisterName}

theorem load32_block (hplace : h.place? l a = some (.block o)) :
    h.load32 l a = h.vm.block.cell? o := by
  rw [load32, hplace]

theorem load32_file (hplace : h.place? l a = some (.file r.offset)) :
    h.load32 l a = some (h.vm.regs.get r) := by
  have haligned : r.offset % 4 = 0 := by simp [RegisterName.offset]
  have hnumber : r.offset / 4 = r.number := by simp [RegisterName.offset]
  rw [load32, hplace]
  simp only [haligned, hnumber, if_true, RegisterName.ofNumber?_number, Option.map_some]

theorem store32_block {block : Block} (hplace : h.place? l a = some (.block o))
    (hblock : h.vm.block.setCell? o v = some block) :
    h.store32 l a v = some { h with vm := { h.vm with block } } := by
  obtain ⟨⟨header, old, regs, pending, natives⟩, stack, log⟩ := h
  have hplace : l.place? old.size a = some (.block o) := hplace
  have hblock : old.setCell? o v = some block := hblock
  simp only [store32, hplace, hblock, Option.map_some]

theorem store32_file (hplace : h.place? l a = some (.file r.offset)) :
    h.store32 l a v = some { h with vm := { h.vm with regs := h.vm.regs.set r v } } := by
  have haligned : r.offset % 4 = 0 := by simp [RegisterName.offset]
  have hnumber : r.offset / 4 = r.number := by simp [RegisterName.offset]
  obtain ⟨⟨header, block, regs, pending, natives⟩, stack, log⟩ := h
  have hplace : l.place? block.size a = some (.file r.offset) := hplace
  simp only [store32, hplace, haligned, hnumber, if_true, RegisterName.ofNumber?_number,
    Option.map_some]

theorem toBlock_eq_some {p : Option Place} {f : Nat → Option Block} {g : Block → Host} :
    (match p with
      | some (.block o) => (f o).map g
      | _ => none) = some h' ↔ ∃ o block, p = some (.block o) ∧ f o = some block ∧
        h' = g block := by
  split
  · simp [eq_comm (a := h')]
  · next hne => simpa using fun o hp => absurd hp (hne o)

theorem store8_eq_some {v : Byte} :
    h.store8 l a v = some h' ↔ ∃ o block, h.place? l a = some (.block o) ∧
    h.vm.block.setByte? o v = some block ∧ h' = { h with vm := { h.vm with block } } :=
    toBlock_eq_some

theorem store16_eq_some {v : Half} :
    h.store16 l a v = some h' ↔ ∃ o block, h.place? l a = some (.block o) ∧
    h.vm.block.setHalf? o v = some block ∧ h' = { h with vm := { h.vm with block } } :=
    toBlock_eq_some

/-- Words are read from and written to the native stack alone. -/
theorem place?_of_load64 {w : Word} (hload : h.load64 l a = some w) :
    ∃ d, h.place? l a = some (.stack d) := by
  unfold load64 at hload
  split at hload
  · next d hplace => exact ⟨d, hplace⟩
  · cases hload

theorem place?_of_store64 {w : Word} (hstore : h.store64 l a w = some h') :
    ∃ d, h.place? l a = some (.stack d) := by
  obtain ⟨vm, stack, log⟩ := h
  simp only [store64] at hstore
  split at hstore
  · next d hplace => exact ⟨d, hplace⟩
  · cases hstore

theorem load64_congr (hsize : h'.vm.block.size = h.vm.block.size) (hstack : h'.stack = h.stack) :
    h'.load64 l a = h.load64 l a := by
  rw [load64, load64, place?, place?, hsize, hstack]

end Host

/-! ## Section 3: Machines -/

namespace Machine

variable {m m' : Machine} {a : Word} {v : Cell}

theorem reached_eq_ok {α : Type} {x : Option α} {y : α} : reached a x = .ok y ↔ x = some y := by
  cases x <;> simp [reached]

/-- An operand names its address when that lies in the region of the base register. -/
theorem operand_eq_ok {o : Mem} : m.operand o = .ok a ↔
    m.address o = a ∧ ∃ p, m.host.place? m.layout a = some p ∧ p.region = pointsInto o.base := by
  simp only [operand]
  split_ifs with hregion
  · simp only [Except.ok.injEq]
    refine ⟨?_, And.left⟩
    rintro rfl
    exact ⟨rfl, Option.map_eq_some_iff.mp hregion⟩
  · simp only [false_iff, not_and]
    rintro rfl hplace
    exact hregion (Option.map_eq_some_iff.mpr hplace)

theorem stored_eq_ok {x : Option Host} : (reached a x >>= fun h => .ok (m.setHost h)) = .ok m' ↔
    ∃ h, x = some h ∧ m' = m.setHost h := by
  simp only [bind_eq_ok, reached_eq_ok, Except.ok.injEq, eq_comm (a := m')]

theorem store8_eq_ok {v : Byte} : m.store8 a v = .ok m' ↔
    ∃ h, m.host.store8 m.layout a v = some h ∧ m' = m.setHost h := stored_eq_ok

theorem store16_eq_ok {v : Half} : m.store16 a v = .ok m' ↔
    ∃ h, m.host.store16 m.layout a v = some h ∧ m' = m.setHost h := stored_eq_ok

theorem store32_eq_ok : m.store32 a v = .ok m' ↔
    ∃ h, m.host.store32 m.layout a v = some h ∧ m' = m.setHost h := stored_eq_ok

theorem store64_eq_ok {w : Word} : m.store64 a w = .ok m' ↔
    ∃ h, m.host.store64 m.layout a w = some h ∧ m' = m.setHost h := stored_eq_ok

theorem load32_store32_self (h : m.store32 a v = .ok m') : m'.load32 a = .ok v := by
  obtain ⟨host, hhost, rfl⟩ := store32_eq_ok.mp h
  exact reached_eq_ok.mpr (Host.load32_store32_self hhost)

end Machine

end PawnNative
