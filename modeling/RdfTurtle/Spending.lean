/-! # Actions that use up their input

Actions on a state with a size, here the amount of input still to be read.

* **`Keeps`** — a run never makes the state larger, whether it succeeds or fails.
* **`Spends`** — moreover success makes it smaller.
* **`Spends.bind`**, **`Keeps.bind_spends`** — a sequence spends as soon as one part does. -/

namespace RdfTurtle

variable {ε σ α β : Type} {size : σ → Nat}

/-- The state that a run leaves. -/
def finalState : EStateM.Result ε σ α → σ
  | .ok _ s => s
  | .error _ s => s

/-- A success leaves its state. -/
@[simp] theorem finalState_ok (a : α) (s : σ) :
    finalState (.ok a s : EStateM.Result ε σ α) = s := rfl

/-- A failure leaves its state. -/
@[simp] theorem finalState_error (e : ε) (s : σ) :
    finalState (.error e s : EStateM.Result ε σ α) = s := rfl

/-- A run of `x` leaves a state that is no larger. -/
def Keeps (size : σ → Nat) (x : EStateM ε σ α) : Prop := ∀ s, size (finalState (x s)) ≤ size s

/-- A run of `x` leaves a state that is no larger, and a smaller one if it succeeds. -/
def Spends (size : σ → Nat) (x : EStateM ε σ α) : Prop :=
  Keeps size x ∧ ∀ ⦃s a s'⦄, x s = .ok a s' → size s' < size s

/-- What keeps its input does not add to it where it succeeds. -/
theorem Keeps.ok {x : EStateM ε σ α} (hx : Keeps size x) {s s' : σ} {a : α}
    (h : x s = .ok a s') : size s' ≤ size s := by
  simpa [h] using hx s

/-- What keeps its input does not add to it where it fails. -/
theorem Keeps.error {x : EStateM ε σ α} (hx : Keeps size x) {s s' : σ} {e : ε}
    (h : x s = .error e s') : size s' ≤ size s := by
  simpa [h] using hx s

/-- A result alone reads nothing. -/
theorem Keeps.pure (a : α) : Keeps size (Pure.pure a : EStateM ε σ α) := fun _ => Nat.le_refl _

/-- An error alone reads nothing. -/
theorem Keeps.throw (e : ε) : Keeps size (MonadExcept.throw e : EStateM ε σ α) :=
  fun _ => Nat.le_refl _

/-- Looking at the state reads nothing. -/
theorem Keeps.of_get : Keeps size (MonadState.get : EStateM ε σ σ) := fun _ => Nat.le_refl _

/-- A change of the state keeps the input if it does so on every state. -/
theorem Keeps.of_modify {f : σ → σ} (hf : ∀ s, size (f s) ≤ size s) :
    Keeps size (modify f : EStateM ε σ PUnit) := hf

/-- Reading the state changes nothing. -/
theorem get_apply (s : σ) : (get : EStateM ε σ σ) s = .ok s s := rfl

/-- A successful sequence consists of two successful parts. -/
theorem ok_of_bind {x : EStateM ε σ α} {f : α → EStateM ε σ β} {s s' : σ} {b : β}
    (h : (x >>= f) s = .ok b s') : ∃ a s₁, x s = .ok a s₁ ∧ f a s₁ = .ok b s' := by
  simp only [bind, EStateM.bind] at h
  split at h
  · next a s₁ hx => exact ⟨a, s₁, hx, h⟩
  · cases h

/-- A sequence fails in its first part, or in its second after the first succeeded. -/
theorem error_of_bind {x : EStateM ε σ α} {f : α → EStateM ε σ β} {s s' : σ} {e : ε}
    (h : (x >>= f) s = .error e s') :
    x s = .error e s' ∨ ∃ a s₁, x s = .ok a s₁ ∧ f a s₁ = .error e s' := by
  simp only [bind, EStateM.bind] at h
  split at h
  · next a s₁ hx => exact Or.inr ⟨a, s₁, hx, h⟩
  · next e₁ s₁ hx =>
    injection h with h₁ h₂
    subst h₁ h₂
    exact Or.inl hx

/-- A sequence keeps the input if both of its parts do. -/
theorem Keeps.bind {x : EStateM ε σ α} {f : α → EStateM ε σ β} (hx : Keeps size x)
    (hf : ∀ a, Keeps size (f a)) : Keeps size (x >>= f) := by
  intro s
  simp only [Bind.bind, EStateM.bind]
  split
  · next h => exact Nat.le_trans (hf _ _) (hx.ok h)
  · next h => exact hx.error h

/-- A sequence spends input if its first part does. -/
theorem Spends.bind {x : EStateM ε σ α} {f : α → EStateM ε σ β} (hx : Spends size x)
    (hf : ∀ a, Keeps size (f a)) : Spends size (x >>= f) := by
  refine ⟨hx.1.bind hf, fun s b s' h => ?_⟩
  obtain ⟨a, s₁, h₁, h₂⟩ := ok_of_bind h
  exact Nat.lt_of_le_of_lt ((hf a).ok h₂) (hx.2 h₁)

/-- A sequence spends input if its second part does. -/
theorem Keeps.bind_spends {x : EStateM ε σ α} {f : α → EStateM ε σ β} (hx : Keeps size x)
    (hf : ∀ a, Spends size (f a)) : Spends size (x >>= f) := by
  refine ⟨hx.bind fun a => (hf a).1, fun s b s' h => ?_⟩
  obtain ⟨a, s₁, h₁, h₂⟩ := ok_of_bind h
  exact Nat.lt_of_lt_of_le ((hf a).2 h₂) (hx.ok h₁)

end RdfTurtle
