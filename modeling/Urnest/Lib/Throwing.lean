import Mathlib.Tactic.Common

/-!
# Computations that may throw

What it takes for a sequence of steps in `Except`, and in `Except` under a state, to return.
-/

namespace Lib

universe u

variable {ε σ α β : Type u}

/-- Each step of a sequence that returned has returned. -/
theorem bind_eq_ok {x : Except ε α} {f : α → Except ε β} {b : β} :
    x >>= f = .ok b ↔ ∃ a, x = .ok a ∧ f a = .ok b := by
  cases x with
  | error e => exact iff_of_false (fun h => nomatch h) (by rintro ⟨_, h, -⟩; cases h)
  | ok a =>
    refine ⟨fun h => ⟨a, rfl, h⟩, ?_⟩
    rintro ⟨_, ha, h⟩
    cases ha
    exact h

/-- The second step starts where the first has ended. -/
theorem run_bind_eq_ok {d : StateT σ (Except ε) α} {f : α → StateT σ (Except ε) β} {s s' : σ} {b : β} :
    (d >>= f) s = .ok (b, s') ↔ ∃ a s₁, d s = .ok (a, s₁) ∧ f a s₁ = .ok (b, s') := by
  change (d s >>= fun x => f x.1 x.2) = _ ↔ _
  rw [bind_eq_ok, Prod.exists]

end Lib
