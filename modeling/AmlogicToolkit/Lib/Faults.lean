import Mathlib.Data.Int.Notation
import Mathlib.Data.List.Basic
import Mathlib.Tactic.SplitIfs

/-!
# Operations that fail

A device whose operations are numbered, and fail where a script says so (`attempt`), and programs
described by their operations in order, each with what the program makes of its result (`Use`).
`Clear` says that a script fails no operation of a use.
-/

namespace AmlogicToolkit.Faults

/-- What a program makes of the result of an operation. -/
inductive Use where
  /-- It stops when the operation has failed. -/
  | checked
  /-- It goes on. -/
  | ignored
  deriving DecidableEq

section

variable {σ : Type}

/-- An operation that would return `r` on a device that has made `d.2` operations: when the script
has something for it, it returns `-1`, and leaves what the script says. -/
def attempt (fault : ℕ → Option (σ → σ)) (d : σ × ℕ) (r : ℤ × σ) : ℤ × σ × ℕ :=
  match fault d.2 with
  | some broken => (-1, broken d.1, d.2 + 1)
  | none => (r.1, r.2, d.2 + 1)

variable {fault : ℕ → Option (σ → σ)}

/-- An operation is counted whether it fails or not. -/
theorem attempt_count (d : σ × ℕ) (r : ℤ × σ) : (attempt fault d r).2.2 = d.2 + 1 := by
  unfold attempt
  cases fault d.2 <;> rfl

/-- An operation returns its own result, or -1 where it is made to fail. -/
theorem attempt_ret (d : σ × ℕ) (r : ℤ × σ) :
    (attempt fault d r).1 = if fault d.2 = none then r.1 else -1 := by
  unfold attempt
  cases fault d.2 <;> rfl

/-- The script fails none of the operations of a use, the first of which has the number `n`. -/
def Clear (fault : ℕ → Option (σ → σ)) (use : Use) (n : ℕ) (operations : List Use) : Prop :=
  ∀ k, operations[k]? = some use → fault (n + k) = none

variable {use : Use} {n : ℕ} {a b : List Use}

/-- No operations are clear of faults. -/
theorem clear_nil : Clear fault use n [] := fun _ h => nomatch h

/-- Two lists of operations in a row are clear when both are, the second counted from where the
first ends. -/
theorem clear_append :
    Clear fault use n (a ++ b) ↔ Clear fault use n a ∧ Clear fault use (n + a.length) b := by
  constructor
  · intro h
    refine ⟨fun k hk => h k ?_, fun k hk => ?_⟩
    · rw [List.getElem?_append_left (List.getElem?_eq_some_iff.mp hk).1]
      exact hk
    · rw [Nat.add_assoc]
      refine h (a.length + k) ?_
      rw [List.getElem?_append_right (Nat.le_add_right _ _), Nat.add_sub_cancel_left]
      exact hk
  · rintro ⟨ha, hb⟩ k hk
    rcases Nat.lt_or_ge k a.length with hlt | hge
    · rw [List.getElem?_append_left hlt] at hk
      exact ha k hk
    · rw [List.getElem?_append_right hge] at hk
      have := hb (k - a.length) hk
      rwa [Nat.add_assoc, Nat.add_sub_cancel' hge] at this

/-- A row of operations of the use in question is clear when none of its numbers is a fault. -/
theorem clear_replicate {m : ℕ} :
    Clear fault use n (List.replicate m use) ↔ ∀ k < m, fault (n + k) = none := by
  constructor
  · intro h k hk
    exact h k (by rw [List.getElem?_replicate, if_pos hk])
  · intro h k hk
    rw [List.getElem?_replicate] at hk
    split_ifs at hk with hlt
    exact h k hlt

/-- Operations of another use do not matter. -/
theorem clear_replicate_of_ne {m : ℕ} {other : Use} (h : other ≠ use) :
    Clear fault use n (List.replicate m other) := by
  intro k hk
  rw [List.getElem?_replicate] at hk
  split_ifs at hk
  exact absurd (Option.some.inj hk) h

/-- A script that fails no operation of either use fails none. -/
theorem Clear.none (hc : Clear fault .checked n a) (hi : Clear fault .ignored n a) {k : ℕ}
    (hk : k < a.length) : fault (n + k) = .none := by
  cases huse : a[k] with
  | checked => exact hc k (by rw [List.getElem?_eq_getElem hk, huse])
  | ignored => exact hi k (by rw [List.getElem?_eq_getElem hk, huse])

end

end AmlogicToolkit.Faults
