import Mathlib.Data.Nat.Notation
import Mathlib.Logic.Basic
import Mathlib.Order.Basic

/-!
# Computations that do the same

A computation with fuel against one without: `Simulates stops n r q R` says that `r`, with fuel `n`
or more, does what `q` does. Either both stop with the same error, which is one of `stops`, or both
go on, and their results are related by `R`. Simulations compose along sequences
(`Simulates.bind`), so that a function is shown to do what another one does one step at a time.
-/

namespace Except

universe u v w

variable {ε : Type u} {α β γ δ : Type v}

/-- With enough fuel, `r` does what `q` does. -/
def Simulates (stops : ε → Prop) (n : ℕ) (r : ℕ → Except ε α) (q : Except ε β)
    (R : α → β → Prop) : Prop :=
  match q with
  | .error e => stops e ∧ ∀ fuel ≥ n, r fuel = .error e
  | .ok b => ∃ a, (∀ fuel ≥ n, r fuel = .ok a) ∧ R a b

section

variable {stops : ε → Prop} {n n' : ℕ} {r r' : ℕ → Except ε α} {q : Except ε β}
  {R : α → β → Prop} {S : γ → δ → Prop}

/-- A result simulates a result that it is related to, with any fuel. -/
theorem simulates_ok {a : α} {b : β} (h : R a b) :
    Simulates stops n (fun _ => .ok a) (.ok b) R := ⟨a, fun _ _ => rfl, h⟩

/-- An error of a kind that stops simulates the same error. -/
theorem simulates_error {e : ε} (h : stops e) :
    Simulates stops n (fun _ => .error e : ℕ → Except ε α) (.error e : Except ε β) R :=
  ⟨h, fun _ _ => rfl⟩

/-- A computation that is the same from some fuel on simulates the same. -/
theorem Simulates.congr (h : Simulates stops n r q R) (hn : n ≤ n')
    (heq : ∀ fuel ≥ n', r' fuel = r fuel) : Simulates stops n' r' q R := by
  cases q with
  | error e => exact ⟨h.1, fun fuel hf => (heq fuel hf).trans (h.2 fuel (Nat.le_trans hn hf))⟩
  | ok b =>
    obtain ⟨a, hr, ha⟩ := h
    exact ⟨a, fun fuel hf => (heq fuel hf).trans (hr fuel (Nat.le_trans hn hf)), ha⟩

/-- **One computation after the other** simulates the sequence when the second does after related
results. -/
theorem Simulates.bind (h : Simulates stops n r q R) {k : ℕ → α → Except ε γ} {k' : β → Except ε δ}
    (hk : ∀ a b, q = .ok b → R a b → Simulates stops n (fun fuel => k fuel a) (k' b) S) :
    Simulates stops n (fun fuel => r fuel >>= k fuel) (q >>= k') S := by
  cases q with
  | error e =>
    refine ⟨h.1, fun fuel hf => ?_⟩
    change r fuel >>= k fuel = _
    rw [h.2 fuel hf]
    rfl
  | ok b =>
    obtain ⟨a, hr, ha⟩ := h
    refine (hk a b rfl ha).congr (Nat.le_refl n) fun fuel hf => ?_
    rw [hr fuel hf]
    rfl

end

end Except
