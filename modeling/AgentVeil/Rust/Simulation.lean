import AgentVeil.Rust.Collections

/-!
# Calls on two states

A call with a closure is the same call with another closure when the closures return the same and keep
their states related.
-/

namespace AgentVeil.Rust

variable {σ τ ε α β : Type} {Q : σ → τ → Prop}

/-- From related states the two calls return the same and leave related states. -/
def Simulates (Q : σ → τ → Prop) (x : StateM σ α) (y : StateM τ α) : Prop :=
  ∀ s t, Q s t → (x s).1 = (y t).1 ∧ Q (x s).2 (y t).2

/-- The same of two calls that may fail. -/
def Effect.Simulates (Q : σ → τ → Prop) (x : Effect σ ε α) (y : Effect τ ε α) : Prop :=
  AgentVeil.Rust.Simulates (α := Except ε α) Q x y

namespace Effect.Simulates

theorem pure (a : α) :
    Effect.Simulates Q (Pure.pure a : Effect σ ε α) (Pure.pure a : Effect τ ε α) :=
  fun _ _ h => ⟨rfl, h⟩

theorem throw (e : ε) : Effect.Simulates Q (MonadExcept.throw e : Effect σ ε α)
    (MonadExcept.throw e : Effect τ ε α) :=
  fun _ _ h => ⟨rfl, h⟩

theorem ofExcept (x : Except ε α) : Effect.Simulates Q (Effect.ofExcept x) (Effect.ofExcept x) :=
  fun _ _ h => ⟨rfl, h⟩

theorem okOr (o : Option α) (e : ε) : Effect.Simulates Q (Effect.okOr o e) (Effect.okOr o e) := by
  cases o with
  | some a => exact .pure a
  | none => exact .throw e

theorem lift {x : StateM σ α} {y : StateM τ α} (h : AgentVeil.Rust.Simulates Q x y) :
    Effect.Simulates Q (liftM x : Effect σ ε α) (liftM y : Effect τ ε α) := by
  intro s t hst
  obtain ⟨hvalue, hstate⟩ := h s t hst
  exact ⟨congrArg Except.ok hvalue, hstate⟩

/-- The rule of sequence. -/
theorem bind {x : Effect σ ε α} {y : Effect τ ε α} {f : α → Effect σ ε β} {g : α → Effect τ ε β}
    (h : Effect.Simulates Q x y) (hfg : ∀ a, Effect.Simulates Q (f a) (g a)) :
    Effect.Simulates Q (x >>= f) (y >>= g) := by
  intro s t hst
  obtain ⟨hvalue, hstate⟩ := h s t hst
  rw [Effect.bind_eq, Effect.bind_eq]
  generalize x s = r at hvalue hstate
  generalize y t = r' at hvalue hstate
  obtain ⟨value, s'⟩ := r
  obtain ⟨value', t'⟩ := r'
  obtain rfl : value = value' := hvalue
  cases value with
  | error e => exact ⟨rfl, hstate⟩
  | ok a => exact hfg a s' t' hstate

theorem ite {c : Prop} [Decidable c] {x x' : Effect σ ε α} {y y' : Effect τ ε α}
    (h : Effect.Simulates Q x y) (h' : Effect.Simulates Q x' y') :
    Effect.Simulates Q (if c then x else x') (if c then y else y') := by
  split
  · exact h
  · exact h'

end Effect.Simulates

end AgentVeil.Rust
