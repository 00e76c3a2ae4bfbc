/-! # Computations that can fail

    Decoding, compiling, finishing code and executing instructions are
    computations with an error. A sequence of them succeeds when all of its
    steps do, and fails with the error of the first step that does not succeed.
-/

namespace PawnNative

universe u

variable {ε : Type} {α β σ : Type u}

@[simp] theorem ok_bind (a : α) (f : α → Except ε β) : (Except.ok a >>= f) = f a := rfl

@[simp] theorem error_bind (e : ε) (f : α → Except ε β) :
    (Except.error e >>= f) = Except.error e := rfl

@[simp] theorem pure_eq_ok (a : α) : (pure a : Except ε α) = .ok a := rfl

@[simp] theorem throw_eq_error (e : ε) : (throw e : Except ε α) = .error e := rfl

theorem bind_eq_ok {x : Except ε α} {f : α → Except ε β} {b : β} :
    (x >>= f) = .ok b ↔ ∃ a, x = .ok a ∧ f a = .ok b := by
  cases x <;> simp

theorem bind_eq_error {x : Except ε α} {f : α → Except ε β} {e : ε} :
    (x >>= f) = .error e ↔ x = .error e ∨ ∃ a, x = .ok a ∧ f a = .error e := by
  cases x <;> simp

/-- What holds of every answer that a computation can give holds of the one that it gives. -/
@[elab_as_elim]
theorem holds_of_ok {motive : α → Prop} {a a' : α} (h : (.ok a' : Except ε α) = .ok a)
    (ha : motive a') : motive a :=
  Except.ok.inj h ▸ ha

theorem exists_of_bind {x : Except ε α} {f : α → β} {b : β}
    (h : (x >>= fun a => pure (f a)) = .ok b) : ∃ a, f a = b := by
  obtain ⟨a, -, h⟩ := bind_eq_ok.mp h
  exact ⟨a, Except.ok.inj h⟩

theorem ite_error_eq_ok {p : Prop} [Decidable p] {e : ε} {x : Except ε α} {a : α} :
    (if p then .error e else x) = .ok a ↔ ¬p ∧ x = .ok a := by
  by_cases h : p <;> simp [h]

theorem exists_ok_of_isSome {x : Except ε α} (h : x.toOption.isSome) :
    ∃ a, x = .ok a := by
  cases x with
  | ok a => exact ⟨a, rfl⟩
  | error e => cases h

end PawnNative
