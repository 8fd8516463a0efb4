import Mathlib.Data.List.Range
import Mathlib.Tactic.Common

/-!
# Arrays that wrap

A window of an array that goes on at the start where the array ends. What is stored behind a
window, in cells that follow each other, comes behind it in a longer window
(`window_store`); dropping from a window moves its start (`drop_window`).
-/

namespace Lib

variable {α : Type} {n : Nat}

/-- The cell that is `i` cells on from `start`. -/
def slot (start : Fin n) (i : Nat) : Fin n :=
  ⟨(start + i) % n, Nat.mod_lt _ (Nat.zero_lt_of_lt start.isLt)⟩

theorem slot_val (start : Fin n) {i : Nat} (h : i ≤ n) :
    (slot start i).val = if start + i < n then start + i else start + i - n := by
  have hstart := start.isLt
  change (start.val + i) % n = _
  split_ifs with hlt
  · exact Nat.mod_eq_of_lt hlt
  · rw [Nat.mod_eq_sub_mod (Nat.not_lt.mp hlt), Nat.mod_eq_of_lt (by omega)]

@[simp] theorem slot_zero (start : Fin n) : slot start 0 = start :=
  Fin.ext (Nat.mod_eq_of_lt start.isLt)

theorem slot_slot (start : Fin n) (i j : Nat) : slot (slot start i) j = slot start (i + j) := by
  refine Fin.ext ?_
  simp only [slot, Nat.mod_add_mod, Nat.add_assoc]

section Cells

variable (cells : Fin n → α)

/-- `len` cells from `start` on -/
def window (start : Fin n) (len : Nat) : List α := (List.range len).map fun i => cells (slot start i)

@[simp] theorem length_window (start : Fin n) (len : Nat) : (window cells start len).length = len := by
  rw [window, List.length_map, List.length_range]

theorem getElem_window {start : Fin n} {len i : Nat} (h : i < (window cells start len).length) :
    (window cells start len)[i] = cells (slot start i) := by
  simp only [window, List.getElem_map, List.getElem_range]

theorem drop_window (start : Fin n) (len k : Nat) :
    (window cells start len).drop k = window cells (slot start k) (len - k) := by
  refine List.ext_getElem (by simp) fun i hi hi' => ?_
  rw [List.getElem_drop, getElem_window, getElem_window, slot_slot]

/-- `xs` in the cells from `offset` on -/
def store (offset : Nat) (xs : List α) : Fin n → α := fun j =>
  if h : offset ≤ j ∧ j < offset + xs.length then xs.get ⟨j.val - offset, by omega⟩ else cells j

variable {cells}

theorem store_of_lt {offset : Nat} {xs : List α} {j : Fin n} (h : j.val < offset) :
    store cells offset xs j = cells j := dif_neg fun hin => by omega

theorem store_of_le {offset : Nat} {xs : List α} {j : Fin n} (h : offset + xs.length ≤ j.val) :
    store cells offset xs j = cells j := dif_neg fun hin => by omega

theorem store_add {offset i : Nat} {xs : List α} (hi : i < xs.length) {j : Fin n}
    (hj : j.val = offset + i) : store cells offset xs j = xs[i] := by
  rw [store, dif_pos (by omega), List.get_eq_getElem]
  congr 1
  exact Nat.sub_eq_of_eq_add' hj

theorem window_store {start : Fin n} {len : Nat} {xs : List α}
    (hend : (slot start len).val + xs.length ≤ n) (hlen : len + xs.length ≤ n) :
    window (store cells (slot start len) xs) start (len + xs.length) =
      window cells start len ++ xs := by
  have hstart := start.isLt
  have hslot := slot_val start (i := len) (by omega)
  refine List.ext_getElem (by simp) fun i hi hi' => ?_
  rw [length_window] at hi
  have hi'' := slot_val start (i := i) (by omega)
  rw [getElem_window]
  by_cases hbefore : i < len
  · rw [List.getElem_append_left (by simpa using hbefore), getElem_window]
    -- a cell of the window is not among those that are stored to
    by_cases hlt : (slot start i).val < (slot start len).val
    · exact store_of_lt hlt
    · refine store_of_le ?_
      split_ifs at hslot hi'' <;> omega
  · rw [List.getElem_append_right (by simpa using hbefore)]
    refine store_add _ ?_
    rw [length_window]
    split_ifs at hslot hi'' <;> omega

theorem take_window_of_le {start : Fin n} {len k : Nat} (h : k ≤ len) :
    (window cells start len).take k = window cells start k := by
  refine List.ext_getElem (by simp [h]) fun i hi hi' => ?_
  rw [List.getElem_take, getElem_window, getElem_window]

end Cells

end Lib
