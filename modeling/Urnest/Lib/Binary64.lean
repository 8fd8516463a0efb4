import Mathlib.Algebra.Order.Floor.Ring
import Mathlib.Data.Int.Log
import Mathlib.Data.Rat.Floor
import Mathlib.Tactic.Linarith
import Mathlib.Tactic.Positivity
import Mathlib.Tactic.Ring

/-!
# Numbers of 53 bits

The finite numbers of the format are the integers of no more than 53 bits, times a power of
two that is not below the least. A sum or difference is rounded to the nearest of them, and to
the even one of two, so one that has 53 bits itself is exact (`round_eq`). There is no greatest
number here.

A number is the whole number below it and what is left, and nothing is lost of either
(`add_sub_cancel`). Below zero that is not so: what is left may have more bits than the number.
-/

namespace Lib

/-- The number has 53 bits. -/
def Has53Bits (x : ℚ) : Prop := ∃ m e : ℤ, |m| < 2 ^ 53 ∧ -1074 ≤ e ∧ x = m * 2 ^ e

/-- A finite number of the format -/
@[ext]
structure Binary64 where
  val : ℚ
  has53Bits : Has53Bits val

namespace Binary64

instance : DecidableEq Binary64 := fun x y => decidable_of_iff (x.val = y.val) Binary64.ext_iff.symm

/-- The exponent of the last bit -/
def lastBit (x : ℚ) : ℤ := max (Int.log 2 |x| - 52) (-1074)

/-- The nearest integer, the even one of two -/
def nearest (x : ℚ) : ℤ :=
  if x - x.floor < 1 / 2 ∨ x - x.floor = 1 / 2 ∧ x.floor % 2 = 0 then x.floor else x.floor + 1

def round (x : ℚ) : ℚ := nearest (x / 2 ^ lastBit x) * 2 ^ lastBit x

theorem nearest_intCast (m : ℤ) : nearest m = m := by
  rw [nearest, Rat.floor_intCast, if_pos]
  left
  norm_num

theorem abs_nearest_le {x : ℚ} {n : ℤ} (h : |x| ≤ n) : |nearest x| ≤ n := by
  obtain ⟨hlower, hupper⟩ := abs_le.mp h
  have hfloor : x.floor ≤ n := by
    have hle := (Rat.floor_le x).trans hupper
    exact_mod_cast hle
  have hfloor' : -n ≤ x.floor := Rat.le_floor_iff.mpr (by exact_mod_cast hlower)
  rw [nearest]
  split_ifs with hnear
  · exact abs_le.mpr ⟨hfloor', hfloor⟩
  · refine abs_le.mpr ⟨by linarith, ?_⟩
    by_contra hgt
    have heq : x.floor = n := by omega
    rw [heq] at hnear
    exact hnear (.inl (by linarith))

/-- The number is less than the power of two 53 bits above its last. -/
theorem abs_lt_zpow (x : ℚ) : |x| < 2 ^ (lastBit x + 53) := by
  have hlog := Int.lt_zpow_succ_log_self (b := 2) (by norm_num) |x|
  refine hlog.trans_le (zpow_le_zpow_right₀ (by norm_num) ?_)
  rw [lastBit]
  omega

theorem has53Bits_of_le {m e : ℤ} (hm : |m| ≤ 2 ^ 53) (he : -1074 ≤ e) :
    Has53Bits (m * 2 ^ e) := by
  rcases hm.lt_or_eq with hlt | heq
  · exact ⟨m, e, hlt, he, rfl⟩
  · rcases eq_or_eq_neg_of_abs_eq heq with rfl | rfl
    · refine ⟨2 ^ 52, e + 1, by norm_num, by omega, ?_⟩
      rw [zpow_add₀ (by norm_num)]
      norm_num
      ring
    · refine ⟨-2 ^ 52, e + 1, by norm_num, by omega, ?_⟩
      rw [zpow_add₀ (by norm_num)]
      norm_num
      ring

theorem two_zpow_pos (e : ℤ) : (0 : ℚ) < 2 ^ e := zpow_pos (by norm_num) e

theorem has53Bits_round (x : ℚ) : Has53Bits (round x) := by
  refine has53Bits_of_le (abs_nearest_le ?_) (le_max_right ..)
  have hlt := abs_lt_zpow x
  have hpos := two_zpow_pos (lastBit x)
  rw [zpow_add₀ (by norm_num), mul_comm] at hlt
  rw [abs_div, abs_of_pos hpos, div_le_iff₀ hpos]
  exact_mod_cast hlt.le

theorem lastBit_le {m e : ℤ} (hzero : m ≠ 0) (hm : |m| < 2 ^ 53) (he : -1074 ≤ e) :
    lastBit (m * 2 ^ e) ≤ e := by
  have habs : |(m * 2 ^ e : ℚ)| = |m| * 2 ^ e := by
    rw [abs_mul, abs_of_pos (two_zpow_pos e), Int.cast_abs]
  have hpos : (0 : ℚ) < |m| * 2 ^ e := by
    have hone : (0 : ℚ) < |m| := by exact_mod_cast abs_pos.mpr hzero
    exact mul_pos hone (two_zpow_pos e)
  have hlt : (|m| * 2 ^ e : ℚ) < ((2 : ℕ) : ℚ) ^ (53 + e) := by
    rw [zpow_add₀ (by norm_num)]
    refine mul_lt_mul_of_pos_right ?_ (two_zpow_pos e)
    exact_mod_cast hm
  have hlog := (Int.lt_zpow_iff_log_lt (by norm_num) hpos).mp hlt
  rw [lastBit, habs]
  omega

/-- What has 53 bits is not rounded. -/
theorem round_eq {x : ℚ} (h : Has53Bits x) : round x = x := by
  obtain ⟨m, e, hm, he, rfl⟩ := h
  rcases eq_or_ne m 0 with rfl | hzero
  · have hnearest := nearest_intCast 0
    rw [Int.cast_zero] at hnearest
    rw [Int.cast_zero, zero_mul, round, zero_div, hnearest, Int.cast_zero, zero_mul]
  · obtain ⟨k, hk⟩ := Int.eq_ofNat_of_zero_le (sub_nonneg.mpr (lastBit_le hzero hm he))
    have hinteger : (m * 2 ^ e : ℚ) / 2 ^ lastBit (m * 2 ^ e) = ((m * 2 ^ k : ℤ) : ℚ) := by
      rw [mul_div_assoc, ← zpow_sub₀ (by norm_num), hk]
      push_cast
      rfl
    rw [round, hinteger, nearest_intCast, ← hinteger,
      div_mul_cancel₀ _ (two_zpow_pos _).ne']

instance (x : ℚ) : Decidable (Has53Bits x) :=
  decidable_of_iff (round x = x) ⟨fun h => h ▸ has53Bits_round x, round_eq⟩

/-! ## Sums and differences -/

def rounded (x : ℚ) : Binary64 := ⟨round x, has53Bits_round x⟩

def ofInt (i : ℤ) : Binary64 := rounded i

instance : Add Binary64 := ⟨fun x y => rounded (x.val + y.val)⟩

instance : Sub Binary64 := ⟨fun x y => rounded (x.val - y.val)⟩

theorem add_val (x y : Binary64) : (x + y).val = round (x.val + y.val) := rfl

theorem sub_val (x y : Binary64) : (x - y).val = round (x.val - y.val) := rfl

theorem ofInt_val {i : ℤ} (h : |i| < 2 ^ 53) : (ofInt i).val = i :=
  round_eq ⟨i, 0, h, by norm_num, by simp⟩

/-- What is left of a number that is not negative, above a whole number below it, has 53 bits. -/
theorem has53Bits_sub {x : Binary64} {i : ℤ} (hi : 0 ≤ i) (hle : i ≤ x.val) (hlt : x.val < 2 ^ 53) :
    Has53Bits (x.val - i) := by
  obtain ⟨m, e, hm, he, hx⟩ := x.has53Bits
  rcases le_total 0 e with hwhole | hfraction
  · obtain ⟨k, rfl⟩ := Int.eq_ofNat_of_zero_le hwhole
    refine ⟨m * 2 ^ k - i, 0, ?_, by norm_num, ?_⟩
    · have hx' : x.val = ((m * 2 ^ k : ℤ) : ℚ) := by
        rw [hx]
        push_cast
        rfl
      rw [hx'] at hle hlt
      have hle' : i ≤ m * 2 ^ k := by exact_mod_cast hle
      have hlt' : m * 2 ^ k < 2 ^ 53 := by exact_mod_cast hlt
      rw [abs_of_nonneg (by omega)]
      omega
    · rw [hx]
      push_cast
      simp
  · obtain ⟨k, hk⟩ := Int.eq_ofNat_of_zero_le (neg_nonneg.mpr hfraction)
    have hfactor : (2 : ℚ) ^ k * 2 ^ e = 1 := by
      rw [← zpow_natCast, ← zpow_add₀ (by norm_num), ← hk, neg_add_cancel, zpow_zero]
    have hdiff : x.val - i = ((m - i * 2 ^ k : ℤ) : ℚ) * 2 ^ e := by
      rw [hx]
      push_cast
      rw [sub_mul, mul_assoc, hfactor, mul_one]
    refine ⟨m - i * 2 ^ k, e, ?_, he, hdiff⟩
    have hnonneg : 0 ≤ m - i * 2 ^ k := by
      have hprod : (0 : ℚ) ≤ ((m - i * 2 ^ k : ℤ) : ℚ) * 2 ^ e := hdiff ▸ sub_nonneg.mpr hle
      exact_mod_cast nonneg_of_mul_nonneg_left hprod (two_zpow_pos e)
    have hsub : m - i * 2 ^ k ≤ m := by
      have hmul : 0 ≤ i * 2 ^ k := by positivity
      omega
    rw [abs_of_nonneg hnonneg]
    exact hsub.trans_lt ((le_abs_self m).trans_lt hm)

/-- A number is the whole number below it and what is left above that. -/
theorem add_sub_cancel {x : Binary64} {i : ℤ} (hi : 0 ≤ i) (hle : i ≤ x.val)
    (hlt : x.val < 2 ^ 53) : ofInt i + (x - ofInt i) = x := by
  have hsmall : i < 2 ^ 53 := by exact_mod_cast hle.trans_lt hlt
  have hval := ofInt_val (abs_lt.mpr ⟨by omega, hsmall⟩)
  have hsum : (i : ℚ) + (x.val - i) = x.val := by ring
  ext
  rw [add_val, sub_val, hval, round_eq (has53Bits_sub hi hle hlt), hsum, round_eq x.has53Bits]

end Binary64

end Lib
