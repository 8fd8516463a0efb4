import Mathlib

/-!
# Words that end by themselves

Where a word can be told from what is behind it, words one behind the other are compared word by
word.
-/

namespace Lib

/-- Words neither of which begins the other one, unless they are the same -/
theorem append_lt_append_iff {α : Type} [LinearOrder α] {u v : List α} (r s : List α)
    (huv : u <+: v → u = v) (hvu : v <+: u → u = v) :
    u ++ r < v ++ s ↔ u < v ∨ u = v ∧ r < s := by
  induction u generalizing v with
  | nil =>
    obtain rfl := huv (List.nil_prefix ..)
    simp
  | cons a u ih =>
    cases v with
    | nil => exact absurd (hvu (List.nil_prefix ..)) (by simp)
    | cons b v =>
      rw [List.cons_append, List.cons_append, List.cons_lt_cons_iff, List.cons_lt_cons_iff,
        List.cons.injEq]
      by_cases hab : a = b
      · subst hab
        have ih := ih (v := v) (fun h => (List.cons.inj (huv ((List.prefix_cons_inj a).mpr h))).2)
          fun h => (List.cons.inj (hvu ((List.prefix_cons_inj a).mpr h))).2
        rw [ih]
        simp
      · simp [hab]

/-- A word with its end -/
def terminated (u : List Nat) : List Nat := u.map (· + 1) ++ [0]

theorem terminated_cons (a : Nat) (u : List Nat) :
    terminated (a :: u) = (a + 1) :: terminated u := rfl

theorem eq_of_terminated_append {u v r s : List Nat}
    (h : terminated u ++ r = terminated v ++ s) : u = v ∧ r = s := by
  induction u generalizing v with
  | nil =>
    cases v with
    | nil => exact ⟨rfl, List.append_cancel_left h⟩
    | cons b v => cases h
  | cons a u ih =>
    cases v with
    | nil => cases h
    | cons b v =>
      rw [terminated_cons, terminated_cons, List.cons_append, List.cons_append] at h
      obtain ⟨hab, h⟩ := List.cons.inj h
      obtain ⟨rfl, rfl⟩ := ih h
      exact ⟨by rw [Nat.succ.inj hab], rfl⟩

theorem terminated_append_lt_iff (u v r s : List Nat) :
    terminated u ++ r < terminated v ++ s ↔ u < v ∨ u = v ∧ r < s := by
  induction u generalizing v with
  | nil =>
    cases v with
    | nil => simp [terminated]
    | cons b v => simp [terminated, List.cons_lt_cons_iff]
  | cons a u ih =>
    cases v with
    | nil => simp [terminated, List.cons_lt_cons_iff, -not_lt]
    | cons b v =>
      rw [terminated_cons, terminated_cons, List.cons_append, List.cons_append,
        List.cons_lt_cons_iff, List.cons_lt_cons_iff, ih, Nat.add_lt_add_iff_right,
        List.cons.injEq, Nat.add_right_cancel_iff, and_or_left, or_assoc, and_assoc]

end Lib
