import Mathlib.Logic.Basic

/-!
# Results

A sequence of computations that may stop with an error goes through when each of them does, on what
the ones before it have returned. A statement about a run that goes through is taken apart with
`Except.bind_ok_iff`, one computation at a time.
-/

namespace Except

universe u v

variable {ε : Type u} {α β : Type v}

/-- A computation, and one that goes on with its result. -/
theorem bind_ok_iff {x : Except ε α} {f : α → Except ε β} {b : β} :
    x >>= f = .ok b ↔ ∃ a, x = .ok a ∧ f a = .ok b := by
  cases x with
  | error e => exact iff_of_false (fun h => nomatch h) fun ⟨_, h, _⟩ => nomatch h
  | ok a => exact ⟨fun h => ⟨a, rfl, h⟩, fun ⟨_, ha, h⟩ => Except.ok.inj ha ▸ h⟩

/-- A computation whose result is mapped. -/
theorem map_ok_iff {x : Except ε α} {f : α → β} {b : β} :
    x.map f = .ok b ↔ ∃ a, x = .ok a ∧ f a = b := by
  cases x with
  | error e => exact iff_of_false (fun h => nomatch h) fun ⟨_, h, _⟩ => nomatch h
  | ok a => exact ⟨fun h => ⟨a, rfl, Except.ok.inj h⟩, fun ⟨_, ha, h⟩ => h ▸ Except.ok.inj ha ▸ rfl⟩

end Except
