import RdfTurtle.Spending

/-! # Simulation of actions

Two actions on two kinds of state are compared through three relations: on states, on results and on
errors. An action **simulates** another when related states lead to related outcomes.

* **`Alike`** — two outcomes of the same kind with related parts.
* **`Simulates`** — related states lead to alike outcomes.
* **`Simulates.bind`** — sequences simulate each other when their parts do.
* **`Matching`** — the same for results without a state.
* **`Follows`** — related states lead to alike outcomes unless the runs part, as a **`Parting`**
  says they may; **`Follows.bind`** for sequences. -/

namespace RdfTurtle

variable {ε ε' σ σ' α α' β β' : Type}
variable {E : ε → ε' → Prop} {R : σ → σ' → Prop} {V : α → α' → Prop} {W : β → β' → Prop}

/-- Two outcomes of the same kind, with related values or errors and related states. -/
inductive Alike (E : ε → ε' → Prop) (R : σ → σ' → Prop) (V : α → α' → Prop) :
    EStateM.Result ε σ α → EStateM.Result ε' σ' α' → Prop
  | ok {a : α} {a' : α'} {s : σ} {s' : σ'} (value : V a a') (state : R s s') :
    Alike E R V (.ok a s) (.ok a' s')
  | error {e : ε} {e' : ε'} {s : σ} {s' : σ'} (fault : E e e') (state : R s s') :
    Alike E R V (.error e s) (.error e' s')

/-- Related states lead to alike outcomes. -/
def Simulates (E : ε → ε' → Prop) (R : σ → σ' → Prop) (V : α → α' → Prop)
    (x : EStateM ε σ α) (x' : EStateM ε' σ' α') : Prop :=
  ∀ ⦃s s'⦄, R s s' → Alike E R V (x s) (x' s')

/-- What a successful outcome is alike to is successful. -/
theorem Alike.of_ok {a : α} {s : σ} {r : EStateM.Result ε' σ' α'} (h : Alike E R V (.ok a s) r) :
    ∃ a' s', r = .ok a' s' ∧ V a a' ∧ R s s' := by
  cases h with
  | ok value state => exact ⟨_, _, rfl, value, state⟩

/-- What a failure is alike to is a failure. -/
theorem Alike.of_error {e : ε} {s : σ} {r : EStateM.Result ε' σ' α'}
    (h : Alike E R V (.error e s) r) : ∃ e' s', r = .error e' s' ∧ E e e' ∧ R s s' := by
  cases h with
  | error fault state => exact ⟨_, _, rfl, fault, state⟩

/-- What holds of alike failures, and of what follows alike successes, holds of alike outcomes
together with what follows them. -/
theorem Alike.bind_of {Q : EStateM.Result ε σ β → EStateM.Result ε' σ' β' → Prop}
    {x : EStateM ε σ α} {x' : EStateM ε' σ' α'} {f : α → EStateM ε σ β}
    {f' : α' → EStateM ε' σ' β'} {s : σ} {s' : σ'} (hx : Alike E R V (x s) (x' s'))
    (herror : ∀ ⦃e e' t t'⦄, E e e' → R t t' → Q (.error e t) (.error e' t'))
    (hf : ∀ ⦃a a' t t'⦄, x s = .ok a t → V a a' → R t t' → Q (f a t) (f' a' t')) :
    Q ((x >>= f) s) ((x' >>= f') s') := by
  simp only [Bind.bind, EStateM.bind]
  cases hs : x s with
  | ok a t =>
    rw [hs] at hx
    obtain ⟨a', t', hs', hv, ht⟩ := hx.of_ok
    rw [hs']
    exact hf hs hv ht
  | error e t =>
    rw [hs] at hx
    obtain ⟨e', t', hs', he, ht⟩ := hx.of_error
    rw [hs']
    exact herror he ht

/-- Alike outcomes stay so when what follows a success does. -/
theorem Alike.bind {x : EStateM ε σ α} {x' : EStateM ε' σ' α'} {f : α → EStateM ε σ β}
    {f' : α' → EStateM ε' σ' β'} {s : σ} {s' : σ'} (hx : Alike E R V (x s) (x' s'))
    (hf : ∀ ⦃a a' t t'⦄, x s = .ok a t → V a a' → R t t' → Alike E R W (f a t) (f' a' t')) :
    Alike E R W ((x >>= f) s) ((x' >>= f') s') :=
  hx.bind_of (fun _ _ _ _ => .error) hf

/-- Sequences are alike if their parts are. -/
theorem Simulates.bind {x : EStateM ε σ α} {x' : EStateM ε' σ' α'} {f : α → EStateM ε σ β}
    {f' : α' → EStateM ε' σ' β'} (hx : Simulates E R V x x')
    (hf : ∀ ⦃a a'⦄, V a a' → Simulates E R W (f a) (f' a')) :
    Simulates E R W (x >>= f) (x' >>= f') :=
  fun _ _ hs => (hx hs).bind fun _ _ _ _ _ hv ht => hf hv ht

/-- Related values are given alike. -/
theorem Simulates.pure {a : α} {a' : α'} (h : V a a') :
    Simulates E R V (Pure.pure a : EStateM ε σ α) (Pure.pure a' : EStateM ε' σ' α') :=
  fun _ _ hs => .ok h hs

/-- Related errors are thrown alike. -/
theorem Simulates.throw {e : ε} {e' : ε'} (h : E e e') :
    Simulates E R V (MonadExcept.throw e : EStateM ε σ α)
      (MonadExcept.throw e' : EStateM ε' σ' α') :=
  fun _ _ hs => .error h hs

/-- The states that are read are related. -/
theorem Simulates.of_get :
    Simulates E R R (MonadState.get : EStateM ε σ σ) (MonadState.get : EStateM ε' σ' σ') :=
  fun _ _ hs => .ok hs hs

/-- Changes of the states are alike if they keep the states related. -/
theorem Simulates.of_modify {f : σ → σ} {f' : σ' → σ'} (h : ∀ ⦃s s'⦄, R s s' → R (f s) (f' s')) :
    Simulates E R Eq (modify f : EStateM ε σ PUnit) (modify f' : EStateM ε' σ' PUnit) :=
  fun _ _ hs => .ok rfl (h hs)

/-! ## Results without a state -/

/-- Two results of the same kind, with related values or errors. -/
inductive Matching (E : ε → ε' → Prop) (V : α → α' → Prop) : Except ε α → Except ε' α' → Prop
  | ok {a : α} {a' : α'} (value : V a a') : Matching E V (.ok a) (.ok a')
  | error {e : ε} {e' : ε'} (fault : E e e') : Matching E V (.error e) (.error e')

/-- Sequences match if their parts do. -/
theorem Matching.bind {x : Except ε α} {x' : Except ε' α'} {f : α → Except ε β}
    {f' : α' → Except ε' β'} (hx : Matching E V x x')
    (hf : ∀ ⦃a a'⦄, V a a' → Matching E W (f a) (f' a')) :
    Matching E W (x >>= f) (x' >>= f') := by
  cases hx with
  | ok value => exact hf value
  | error fault => exact .error fault

/-- Results that match also match when their errors are compared more loosely. -/
theorem Matching.mono {E' : ε → ε' → Prop} {x : Except ε α} {x' : Except ε' α'}
    (hx : Matching E V x x') (hE : ∀ ⦃e e'⦄, E e e' → E' e e') : Matching E' V x x' := by
  cases hx with
  | ok value => exact .ok value
  | error fault => exact .error (hE fault)

/-- Results that match are equal after functions that identify related values. -/
theorem Matching.map_eq {γ : Type} {x : Except ε α} {x' : Except ε α'} (hx : Matching Eq V x x')
    {f : α → γ} {f' : α' → γ} (hf : ∀ ⦃a a'⦄, V a a' → f a = f' a') : x.map f = x'.map f' := by
  cases hx with
  | ok value => exact congrArg Except.ok (hf value)
  | error fault => exact congrArg Except.error fault

/-- A function of a result is known only of a success. -/
theorem ok_of_map {x : Except ε α} {f : α → β} {b : β} (h : x.map f = .ok b) :
    ∃ a, x = .ok a ∧ f a = b := by
  cases x with
  | ok a => exact ⟨a, rfl, Except.ok.inj h⟩
  | error e => cases h

/-! ## Runs that may part -/

/-- What an outcome fails with, if it does. -/
def fault? : EStateM.Result ε σ α → Option ε
  | .ok .. => none
  | .error e _ => some e

/-- What holds after an action, and stays so, holds after what follows it. -/
theorem finalState_bind {I : σ → Prop} {x : EStateM ε σ α} {f : α → EStateM ε σ β} {s : σ}
    (hx : I (finalState (x s))) (hf : ∀ ⦃a t⦄, I t → I (finalState (f a t))) :
    I (finalState ((x >>= f) s)) := by
  simp only [Bind.bind, EStateM.bind]
  cases h : x s with
  | ok a t =>
    rw [h] at hx
    exact hf hx
  | error e t =>
    rw [h] at hx
    exact hx

/-- How two runs may part: the first comes to a state that is `Ended`, and what the second fails
with by then, if it does, satisfies `Parts`. Where the second may be under way still, nothing is
known of it. -/
structure Parting (σ ε : Type) where
  Ended : σ → Prop
  Parts : Option ε → Prop
  onward : Parts none → ∀ o, Parts o

/-- Runs that cannot part do not part later. -/
theorem Parting.never : False → Option ε → False := fun h _ => h

/-- Two outcomes are alike, or the runs have parted. -/
def AlikeUnless (d : Parting σ ε') (E : ε → ε' → Prop) (R : σ → σ' → Prop) (V : α → α' → Prop)
    (r : EStateM.Result ε σ α) (r' : EStateM.Result ε' σ' α') : Prop :=
  Alike E R V r r' ∨ d.Ended (finalState r) ∧ d.Parts (fault? r')

/-- Related states lead to alike outcomes, unless the runs part. Once ended, the first run stays
so. -/
structure Follows (d : Parting σ ε') (E : ε → ε' → Prop) (R : σ → σ' → Prop) (V : α → α' → Prop)
    (x : EStateM ε σ α) (x' : EStateM ε' σ' α') : Prop where
  stays : ∀ ⦃s⦄, d.Ended s → d.Ended (finalState (x s))
  alike : ∀ ⦃s s'⦄, R s s' → AlikeUnless d E R V (x s) (x' s')

/-- Every value on the left has one to be compared with. -/
class Serial (V : α → α' → Prop) : Prop where
  exists_related : ∀ a, ∃ a', V a a'

instance : Serial (Eq : α → α → Prop) := ⟨fun a => ⟨a, rfl⟩⟩

section Parting

variable {d : Parting σ ε'} {x : EStateM ε σ α} {x' : EStateM ε' σ' α'}
variable {f : α → EStateM ε σ β} {f' : α' → EStateM ε' σ' β'}

/-- What cannot part is alike. -/
theorem AlikeUnless.resolve {r : EStateM.Result ε σ α} {r' : EStateM.Result ε' σ' α'}
    (h : AlikeUnless d E R V r r') (hnever : ∀ o, ¬ d.Parts o) : Alike E R V r r' :=
  h.resolve_right fun hparted => hnever _ hparted.2

/-- Outcomes stay alike or parted when what follows a success does. -/
theorem AlikeUnless.bind {s : σ} {s' : σ'} (hx : AlikeUnless d E R V (x s) (x' s'))
    (hstays : ∀ ⦃a t⦄, d.Ended t → d.Ended (finalState (f a t)))
    (hf : ∀ ⦃a a' t t'⦄, x s = .ok a t → V a a' → R t t' →
      AlikeUnless d E R W (f a t) (f' a' t')) :
    AlikeUnless d E R W ((x >>= f) s) ((x' >>= f') s') := by
  rcases hx with hx | ⟨hended, hparts⟩
  · exact hx.bind_of (fun _ _ _ _ he ht => Or.inl (.error he ht)) hf
  · -- The first run has ended and stays so; the second has failed, or may go on to anything.
    refine Or.inr ⟨finalState_bind hended hstays, ?_⟩
    simp only [Bind.bind, EStateM.bind]
    cases hs' : x' s' with
    | ok a' t' =>
      rw [hs'] at hparts
      exact d.onward hparts _
    | error e' t' =>
      rw [hs'] at hparts
      exact hparts

/-- A sequence follows another if its parts follow the parts of the other. -/
theorem Follows.bind [hV : Serial V] (hx : Follows d E R V x x')
    (hf : ∀ ⦃a a'⦄, V a a' → Follows d E R W (f a) (f' a')) :
    Follows d E R W (x >>= f) (x' >>= f') := by
  have hstays ⦃a : α⦄ ⦃t : σ⦄ (ht : d.Ended t) : d.Ended (finalState (f a t)) := by
    obtain ⟨a', hv⟩ := hV.exists_related a
    exact (hf hv).stays ht
  exact ⟨fun _ hs => finalState_bind (hx.stays hs) hstays,
    fun _ _ hs => (hx.alike hs).bind hstays fun _ _ _ _ _ hv ht => (hf hv).alike ht⟩

/-- Related values are given alike. -/
theorem Follows.pure {a : α} {a' : α'} (h : V a a') :
    Follows d E R V (Pure.pure a : EStateM ε σ α) (Pure.pure a' : EStateM ε' σ' α') :=
  ⟨fun _ hs => hs, fun _ _ hs => Or.inl (.ok h hs)⟩

/-- Related errors are thrown alike. -/
theorem Follows.throw {e : ε} {e' : ε'} (h : E e e') :
    Follows d E R V (MonadExcept.throw e : EStateM ε σ α)
      (MonadExcept.throw e' : EStateM ε' σ' α') :=
  ⟨fun _ hs => hs, fun _ _ hs => Or.inl (.error h hs)⟩

/-- What reads the state first follows as it does from each state. -/
theorem Follows.of_get {g : σ → EStateM ε σ α} {g' : σ' → EStateM ε' σ' α'}
    (hstays : ∀ ⦃s⦄, d.Ended s → d.Ended (finalState (g s s)))
    (halike : ∀ ⦃s s'⦄, R s s' → AlikeUnless d E R V (g s s) (g' s' s')) :
    Follows d E R V (do g (← get)) (do g' (← get)) := ⟨hstays, halike⟩

/-- A change of the state follows another if the states stay related, and ended if they were. -/
theorem Follows.of_modify {g : σ → σ} {g' : σ' → σ'} (hstays : ∀ ⦃s⦄, d.Ended s → d.Ended (g s))
    (halike : ∀ ⦃s s'⦄, R s s' → R (g s) (g' s')) :
    Follows d E R Eq (modify g : EStateM ε σ PUnit) (modify g' : EStateM ε' σ' PUnit) :=
  ⟨hstays, fun _ _ hs => Or.inl (.ok rfl (halike hs))⟩

end Parting

end RdfTurtle
