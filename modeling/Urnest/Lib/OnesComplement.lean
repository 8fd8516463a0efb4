import Mathlib.Tactic.Common

/-!
# Sums with end-around carry

Digits in base `m + 1` are added so that a carry out of the digit comes back in at its lowest
place. What is left of a sum `n` in the end is `onesSum m n`: zero for zero, and otherwise the
number between 1 and `m` that is congruent to `n` modulo `m`. Zero and `m` are the two zeros of
one's complement.

The complement of a sum completes it to `m` (`onesSum_complement`), and a sum so completed
notices when one of its digits is replaced, unless by the other zero (`onesSum_replace`).
-/

namespace Lib

/-- The digit that is left of `n` once there is nothing to carry. -/
def onesSum (m n : Nat) : Nat := if n = 0 then 0 else (n - 1) % m + 1

variable {m n : Nat}

theorem onesSum_of_le (h : n ≤ m) : onesSum m n = n := by
  rw [onesSum]
  split_ifs with h0
  · exact h0.symm
  · rw [Nat.mod_eq_of_lt (by omega)]
    omega

theorem onesSum_le (hm : 0 < m) (n : Nat) : onesSum m n ≤ m := by
  rw [onesSum]
  split_ifs with h0
  · exact Nat.zero_le m
  · exact Nat.mod_lt _ hm

/-- Carrying once changes nothing. -/
theorem onesSum_carry (m n : Nat) : onesSum m (n % (m + 1) + n / (m + 1)) = onesSum m n := by
  have hsplit := Nat.mod_add_div n (m + 1)
  generalize n % (m + 1) = r at hsplit ⊢
  generalize n / (m + 1) = q at hsplit ⊢
  rw [Nat.add_mul, Nat.one_mul] at hsplit
  by_cases hzero : r + q = 0
  · obtain rfl : q = 0 := by omega
    rw [← hsplit]
    rfl
  · have hpred : n - 1 = r + q - 1 + m * q := by omega
    rw [onesSum, onesSum, if_neg hzero, if_neg (by omega), hpred, Nat.add_mul_mod_self_left]

/-- A carry makes the sum less. -/
theorem carry_lt (hm : 0 < m) (h : m < n) : n % (m + 1) + n / (m + 1) < n := by
  have hsplit := Nat.mod_add_div n (m + 1)
  have hpos : 0 < n / (m + 1) := Nat.div_pos h (Nat.succ_pos m)
  have hmul : n / (m + 1) < (m + 1) * (n / (m + 1)) := by
    rw [Nat.add_mul, Nat.one_mul]
    exact Nat.lt_add_of_pos_left (Nat.mul_pos hm hpos)
  omega

theorem onesSum_eq_max_iff (hm : 0 < m) : onesSum m n = m ↔ 0 < n ∧ m ∣ n := by
  rw [onesSum]
  split_ifs with h0
  · subst h0
    omega
  · obtain ⟨k, rfl⟩ : ∃ k, n = k + 1 := ⟨n - 1, by omega⟩
    rw [Nat.add_sub_cancel, Nat.dvd_iff_mod_eq_zero, ← Nat.mod_add_mod]
    have hlt := Nat.mod_lt k hm
    constructor
    · intro h
      rw [h, Nat.mod_self]
      exact ⟨Nat.succ_pos k, rfl⟩
    · rintro ⟨-, h⟩
      by_contra hne
      rw [Nat.mod_eq_of_lt (by omega)] at h
      omega

/-- A sum and its complement add up to the zero that is all ones. -/
theorem onesSum_complement (hm : 0 < m) (hn : 0 < n) :
    onesSum m (n + (m - onesSum m n)) = m := by
  rw [onesSum_eq_max_iff hm]
  refine ⟨by omega, ?_⟩
  rw [onesSum, if_neg (by omega)]
  obtain ⟨k, rfl⟩ : ∃ k, n = k + 1 := ⟨n - 1, by omega⟩
  have hlt := Nat.mod_lt k hm
  have hsplit := Nat.mod_add_div k m
  refine ⟨k / m + 1, ?_⟩
  rw [Nat.add_sub_cancel, Nat.mul_add, Nat.mul_one]
  omega

/-- No other digit in its place completes the sum, but the two zeros stand for each other. -/
theorem onesSum_replace {x y : Nat} (hm : 0 < m) (hx : x ≤ m) (hy : y ≤ m)
    (h : onesSum m (n + x) = m) (h' : onesSum m (n + y) = m) :
    x = y ∨ (x = 0 ∧ y = m) ∨ (x = m ∧ y = 0) := by
  obtain ⟨-, a, ha⟩ := (onesSum_eq_max_iff hm).mp h
  obtain ⟨-, b, hb⟩ := (onesSum_eq_max_iff hm).mp h'
  obtain hab | hab | hab := Nat.lt_trichotomy a b
  · have hle := Nat.mul_le_mul_left m (show a + 1 ≤ b from hab)
    rw [Nat.mul_add, Nat.mul_one] at hle
    omega
  · subst hab
    omega
  · have hle := Nat.mul_le_mul_left m (show b + 1 ≤ a from hab)
    rw [Nat.mul_add, Nat.mul_one] at hle
    omega

end Lib
