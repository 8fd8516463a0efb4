import Mathlib.Data.List.Basic

/-!
# Taking until told to stop

`takeUntil` takes elements of a list one by one, and stops after the one with which what has
been taken is enough. What it takes is the longest beginning of the list of which no shorter
part was enough (`longest_takeUntil`).
-/

namespace Lib

variable {α : Type}

/-- The longest beginning of a list that has a property. -/
structure Longest (P : List α → Prop) (taken l : List α) : Prop where
  begins : taken <+: l
  has : P taken
  longest : ∀ other, other <+: l → P other → other <+: taken

theorem Longest.congr {P Q : List α → Prop} (h : ∀ l, P l ↔ Q l) {taken l : List α}
    (hlongest : Longest P taken l) : Longest Q taken l :=
  ⟨hlongest.begins, (h _).mp hlongest.has, fun other hother hq =>
    hlongest.longest other hother ((h _).mpr hq)⟩

/-- Take elements after those that are taken already, and tell if it was enough. -/
def takeUntil (enough : List α → Bool) (taken : List α) : List α → List α × Bool
  | [] => (taken, false)
  | a :: l => if enough (taken ++ [a]) then (taken ++ [a], true)
    else takeUntil enough (taken ++ [a]) l

/-- No part of it was enough, before the last element. -/
def NotBefore (enough : List α → Bool) (l : List α) : Prop :=
  ∀ front back, l = front ++ back → front ≠ [] → back ≠ [] → enough front = false

variable {enough : List α → Bool}

theorem takeUntil_append (taken l l' : List α) : takeUntil enough taken (l ++ l')
    = if (takeUntil enough taken l).2 then takeUntil enough taken l
      else takeUntil enough (takeUntil enough taken l).1 l' := by
  induction l generalizing taken with
  | nil => rfl
  | cons a l ih =>
    rw [List.cons_append, takeUntil, takeUntil]
    by_cases henough : enough (taken ++ [a])
    · simp only [henough, if_true]
    · rw [if_neg henough, if_neg henough, ih]

theorem longest_takeUntil_append {taken l : List α} (htaken : NotBefore enough taken)
    (hnot : taken ≠ [] → enough taken = false) :
    Longest (NotBefore enough) (takeUntil enough taken l).1 (taken ++ l) := by
  induction l generalizing taken with
  | nil =>
    rw [List.append_nil]
    exact ⟨List.prefix_rfl, htaken, fun other hother _ => hother⟩
  | cons a l ih =>
    have hnext : NotBefore enough (taken ++ [a]) := by
      intro front back heq hfront hback
      obtain ⟨back, b, rfl⟩ := (List.eq_nil_or_concat back).resolve_left hback
      rw [List.concat_eq_append, ← List.append_assoc] at heq
      obtain rfl := (List.append_inj' heq rfl).1
      by_cases hlast : back = []
      · rw [hlast, List.append_nil] at hnot
        exact hnot hfront
      · exact htaken front back rfl hfront hlast
    rw [takeUntil]
    split_ifs with henough
    · refine ⟨⟨l, by simp⟩, hnext, fun other hother hhas => ?_⟩
      rw [List.append_cons] at hother
      rcases List.prefix_or_prefix_of_prefix hother (List.prefix_append _ _) with h | h
      · exact h
      · obtain ⟨back, rfl⟩ := h
        by_cases hback : back = []
        · simp [hback]
        · rw [hhas _ back rfl (by simp) hback] at henough
          cases henough
    · have hcons : taken ++ a :: l = taken ++ [a] ++ l := List.append_cons ..
      rw [hcons]
      exact ih hnext fun _ => by simpa using henough

/-- What is taken is the longest beginning that was not enough before its end. -/
theorem longest_takeUntil (enough : List α → Bool) (l : List α) :
    Longest (NotBefore enough) (takeUntil enough [] l).1 l := by
  refine longest_takeUntil_append (fun front back heq hfront _ => ?_) fun hne => absurd rfl hne
  exact absurd (List.append_eq_nil_iff.mp heq.symm).1 hfront

end Lib
