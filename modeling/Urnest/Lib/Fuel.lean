import Mathlib.Tactic.Common

/-!
# Computations on fuel

A computation under a state that may throw, and that is given fuel. It reaches a result if
from some fuel on it returns it, so that more fuel changes nothing: `Reaches.bind` puts
steps together that each have their own fuel, and `Reaches.of_eventually` is what unfolding
needs, which may only be possible from some fuel on.

The fuel of a loop is what is left of that of the whole computation: a function of it that
grows (`Grows`).
-/

namespace Lib

universe u

/-- However much is asked for, there is some point from which on it is that much. -/
def Grows (g : Nat → Nat) : Prop := ∀ k, ∃ N, ∀ n ≥ N, k ≤ g n

theorem grows_id : Grows fun n => n := fun k => ⟨k, fun _ hn => hn⟩

theorem Grows.pred {g : Nat → Nat} (h : Grows g) : Grows fun n => g n - 1 := by
  intro k
  obtain ⟨N, hN⟩ := h (k + 1)
  refine ⟨N, fun n hn => ?_⟩
  have hle := hN n hn
  change k ≤ g n - 1
  omega

variable {ε σ α β : Type u}

/-- From some fuel on the computation returns the same, of which this holds. -/
def Reaches (m : Nat → StateT σ (Except ε) α) (s : σ) (Q : α → σ → Prop) : Prop :=
  ∃ a s', Q a s' ∧ ∃ N, ∀ n ≥ N, m n s = .ok (a, s')

namespace Reaches

variable {m m' : Nat → StateT σ (Except ε) α} {s : σ} {Q Q' : α → σ → Prop} {R : β → σ → Prop}

theorem mono (h : Reaches m s Q) (hQ : ∀ a s', Q a s' → Q' a s') : Reaches m s Q' := by
  obtain ⟨a, s', ha, hm⟩ := h
  exact ⟨a, s', hQ a s' ha, hm⟩

theorem of_eventually (N : Nat) (h : ∀ n ≥ N, m n s = m' n s) (h' : Reaches m' s Q) :
    Reaches m s Q := by
  obtain ⟨a, s', ha, M, hm⟩ := h'
  refine ⟨a, s', ha, max N M, fun n hn => ?_⟩
  rw [h n (Nat.le_trans (Nat.le_max_left ..) hn), hm n (Nat.le_trans (Nat.le_max_right ..) hn)]

theorem of_succ (h : Reaches (fun n => m (n + 1)) s Q) : Reaches m s Q := by
  obtain ⟨a, s', ha, N, hm⟩ := h
  refine ⟨a, s', ha, N + 1, fun n hn => ?_⟩
  have hone : m (n - 1 + 1) s = _ := hm (n - 1) (by omega)
  rwa [Nat.sub_add_cancel (by omega)] at hone

theorem bind {f : Nat → α → StateT σ (Except ε) β} (h : Reaches m s Q)
    (h' : ∀ a s', Q a s' → Reaches (fun n => f n a) s' R) :
    Reaches (fun n => m n >>= f n) s R := by
  obtain ⟨a, s', ha, N, hm⟩ := h
  obtain ⟨b, s'', hb, M, hf⟩ := h' a s' ha
  refine ⟨b, s'', hb, max N M, fun n hn => ?_⟩
  change (m n s >>= fun x => f n x.1 x.2) = _
  rw [hm n (Nat.le_trans (Nat.le_max_left ..) hn)]
  exact hf n (Nat.le_trans (Nat.le_max_right ..) hn)

theorem pure {a : α} (h : Q a s) : Reaches (fun _ => (Pure.pure a : StateT σ (Except ε) α)) s Q :=
  ⟨a, s, h, 0, fun _ _ => rfl⟩

/-- A step that leaves the state alone -/
theorem lift {x : Except ε α} {a : α} (h : x = .ok a) (hQ : Q a s) :
    Reaches (fun _ => (liftM x : StateT σ (Except ε) α)) s Q := by
  refine ⟨a, s, hQ, 0, fun _ _ => ?_⟩
  rw [h]
  rfl

theorem lift_bind {x : Except ε α} {a : α} {f : Nat → α → StateT σ (Except ε) β} (h : x = .ok a)
    (h' : Reaches (fun n => f n a) s R) :
    Reaches (fun n => (liftM x : StateT σ (Except ε) α) >>= f n) s R :=
  bind (lift (Q := fun b s' => b = a ∧ s' = s) h ⟨rfl, rfl⟩) fun _ _ hb => by
    obtain ⟨rfl, rfl⟩ := hb
    exact h'

end Reaches

end Lib
