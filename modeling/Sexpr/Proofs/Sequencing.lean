/-
Computations one after another.

Two computations in a row give a result if both do, and the first fault ends them. This is
said once for results alone and once for computations that move a state, such as productions
and evaluations.

* `Except.bind_eq_ok` — when two results in a row give one;
* `EStateM.bind_of_ok`, `EStateM.bind_of_error` — what the first computation decides;
* `EStateM.bind_eq_ok` — when two computations in a row give a result.
-/

/-- One result after another gives a result if both do. -/
theorem Except.bind_eq_ok {ε α β : Type} {x : Except ε α} {f : α → Except ε β} {b : β} :
    x >>= f = .ok b ↔ ∃ a, x = .ok a ∧ f a = .ok b := by
  cases x with
  | error e => simp [bind, Except.bind]
  | ok a => simp [bind, Except.bind]

namespace EStateM

variable {ε σ α β : Type} {p : EStateM ε σ α} {f g : α → EStateM ε σ β} {s s' : σ}

theorem bind_of_ok {a : α} (h : p s = .ok a s') : (p >>= f) s = f a s' := by
  show EStateM.bind p f s = _
  rw [EStateM.bind, h]

theorem bind_of_error {e : ε} (h : p s = .error e s') : (p >>= f) s = .error e s' := by
  show EStateM.bind p f s = _
  rw [EStateM.bind, h]

/-- One computation after another gives a result if both do. -/
theorem bind_eq_ok {b : β} :
    (p >>= f) s = .ok b s' ↔ ∃ a s₁, p s = .ok a s₁ ∧ f a s₁ = .ok b s' := by
  cases hp : p s with
  | ok a s₁ =>
    rw [bind_of_ok hp]
    constructor
    · intro h
      exact ⟨a, s₁, rfl, h⟩
    · rintro ⟨a', s₂, h, h'⟩
      cases h
      exact h'
  | error e s₁ => simp [bind_of_error hp]

/-- What comes second matters only where the first computation gives a result. -/
theorem bind_congr (h : ∀ a s', p s = .ok a s' → f a s' = g a s') :
    (p >>= f) s = (p >>= g) s := by
  cases hp : p s with
  | ok a s' => rw [bind_of_ok hp, bind_of_ok hp, h a s' hp]
  | error e s' => rw [bind_of_error hp, bind_of_error hp]

end EStateM
