import Mathlib

/-!
# Bisection

Where a value would have to be inserted into a sorted list: in front of what it is equal to,
or behind it. A slice between two such places has just what is between two values
(`cut_eq_filter`).
-/

namespace Lib

variable {α β : Type*} [LinearOrder α]

/-- How many are less than `x` -/
def bisectLeft (xs : List α) (x : α) : Nat := (xs.takeWhile (· < x)).length

/-- How many are not greater than `x` -/
def bisectRight (xs : List α) (x : α) : Nat := (xs.takeWhile (· ≤ x)).length

/-- `xs[i:j]` -/
def cut (xs : List β) (i j : Nat) : List β := (xs.take j).drop i

variable {f : β → α} {bs : List β}

theorem bisectLeft_eq_zero {x : α} (h : ∀ b ∈ bs, x ≤ f b) : bisectLeft (bs.map f) x = 0 := by
  cases bs with
  | nil => rfl
  | cons b bs =>
    have hb := h b (List.mem_cons_self ..)
    rw [bisectLeft, List.map_cons, List.takeWhile_cons_of_neg (by simpa using hb)]
    rfl

theorem cut_eq_filter (h : bs.Pairwise fun b c => f b ≤ f c) (x y : α) :
    cut bs (bisectLeft (bs.map f) x) (bisectRight (bs.map f) y)
      = bs.filter fun b => x ≤ f b ∧ f b ≤ y := by
  induction bs with
  | nil => rfl
  | cons b bs ih =>
    obtain ⟨hle, hbs⟩ := List.pairwise_cons.mp h
    by_cases hy : f b ≤ y
    · have hright : bisectRight ((b :: bs).map f) y = bisectRight (bs.map f) y + 1 := by
        rw [bisectRight, List.map_cons, List.takeWhile_cons_of_pos (by simpa using hy)]
        rfl
      rw [cut, hright, List.take_succ_cons]
      by_cases hx : f b < x
      · have hleft : bisectLeft ((b :: bs).map f) x = bisectLeft (bs.map f) x + 1 := by
          rw [bisectLeft, List.map_cons, List.takeWhile_cons_of_pos (by simpa using hx)]
          rfl
        rw [hleft, List.drop_succ_cons, List.filter_cons_of_neg (by simp [hx.not_ge])]
        exact ih hbs
      · -- The slice begins here.
        have hx := not_lt.mp hx
        have hleft : bisectLeft (bs.map f) x = 0 :=
          bisectLeft_eq_zero fun c hc => hx.trans (hle c hc)
        have hrest := ih hbs
        rw [cut, hleft, List.drop_zero] at hrest
        rw [bisectLeft_eq_zero (List.forall_mem_cons.mpr ⟨hx, fun c hc => hx.trans (hle c hc)⟩),
          List.drop_zero, List.filter_cons_of_pos (by simp [hx, hy]), hrest]
    · have hright : bisectRight ((b :: bs).map f) y = 0 := by
        rw [bisectRight, List.map_cons, List.takeWhile_cons_of_neg (by simpa using hy)]
        rfl
      have hnone : ∀ c ∈ b :: bs, ¬ f c ≤ y :=
        List.forall_mem_cons.mpr ⟨hy, fun c hc hcy => hy ((hle c hc).trans hcy)⟩
      rw [cut, hright, List.take_zero, List.drop_nil]
      symm
      rw [List.filter_eq_nil_iff]
      intro c hc hboth
      simp only [Bool.decide_and, Bool.and_eq_true, decide_eq_true_eq] at hboth
      exact hnone c hc hboth.2

end Lib
