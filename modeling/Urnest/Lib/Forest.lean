import Mathlib.Data.List.Perm.Basic
import Mathlib.Data.List.Nodup
import Mathlib.Logic.Function.Basic
import Mathlib.Logic.Relation

/-!
# Forests in two directions

A forest is kept twice over: each node knows its parent, and each has a list of its children.
`Forest` says that the two agree and that following parents never comes round.

Nodes are cut off (`Forest.cut`, `Forest.clear`) and grafted (`Forest.graft`). What is grafted
must have been a root, once, and not one that the target is below.
-/

namespace Lib

open Function (update)

variable {ν : Type}

/-- `a` is above `n`. -/
def Above (parent : ν → Option ν) : ν → ν → Prop :=
  Relation.TransGen fun n p => parent n = some p

structure Forest (parent : ν → Option ν) (children : ν → List ν) : Prop where
  nodup : ∀ p, (children p).Nodup
  mem_children : ∀ n p, n ∈ children p ↔ parent n = some p
  acyclic : ∀ n, ¬ Above parent n n

variable {parent parent' : ν → Option ν} {children : ν → List ν}

theorem Above.mono (h : ∀ n p, parent' n = some p → parent n = some p) {n a : ν}
    (ha : Above parent' n a) : Above parent n a :=
  Relation.TransGen.mono h _ _ ha

theorem not_above_root {n a : ν} (hn : parent n = none) : ¬ Above parent n a := by
  intro h
  obtain ⟨p, hp, -⟩ := Relation.TransGen.head'_iff.mp h
  rw [hn] at hp
  cases hp

variable [DecidableEq ν]

/-- Parents with those of the roots `S` set. -/
def under (parent : ν → Option ν) (S : List ν) (t : ν) (n : ν) : Option ν :=
  if n ∈ S then some t else parent n

/-- A way up is a way up as before, or it goes through what was grafted. -/
theorem above_under {S : List ν} {t : ν} (hfree : ∀ n ∈ S, n ≠ t ∧ ¬ Above parent t n) {n a : ν}
    (h : Above (under parent S t) n a) : Above parent n a ∨
      (∃ m ∈ S, n = m ∨ Above parent n m) ∧ (a = t ∨ Above parent t a) := by
  induction h with
  | @single a hstep =>
    rw [under] at hstep
    split_ifs at hstep with hn
    · exact .inr ⟨⟨n, hn, .inl rfl⟩, .inl (Option.some.inj hstep).symm⟩
    · exact .inl (.single hstep)
  | @tail b a _ hstep ih =>
    rw [under] at hstep
    split_ifs at hstep with hb
    · obtain rfl := Option.some.inj hstep
      rcases ih with ih | ⟨-, rfl | ih⟩
      · exact .inr ⟨⟨b, hb, .inr ih⟩, .inl rfl⟩
      · exact absurd rfl (hfree b hb).1
      · exact absurd ih (hfree b hb).2
    · rcases ih with ih | ⟨hm, rfl | ih⟩
      · exact .inl (ih.tail hstep)
      · exact .inr ⟨hm, .inr (.single hstep)⟩
      · exact .inr ⟨hm, .inr (ih.tail hstep)⟩

namespace Forest

variable (h : Forest parent children)
include h

omit [DecidableEq ν] in
theorem not_mem_of_root {n p : ν} (hn : parent n = none) : n ∉ children p := by
  rw [h.mem_children, hn]
  exact (nomatch ·)

/-- The roots `S` are put among the children of `t`. -/
theorem graft {S l : List ν} {t : ν} (hl : l.Perm (S ++ children t)) (hnodup : S.Nodup)
    (hroots : ∀ n ∈ S, parent n = none) (hfree : ∀ n ∈ S, n ≠ t ∧ ¬ Above parent t n) :
    Forest (under parent S t) (update children t l) := by
  refine ⟨fun p => ?_, fun n p => ?_, fun n hn => ?_⟩
  · by_cases hp : p = t
    · rw [hp, Function.update_self, hl.nodup_iff, List.nodup_append]
      refine ⟨hnodup, h.nodup t, fun a ha b hb hab => ?_⟩
      exact h.not_mem_of_root (hroots a ha) (hab ▸ hb)
    · rw [Function.update_of_ne hp]
      exact h.nodup p
  · by_cases hp : p = t
    · rw [hp, Function.update_self, hl.mem_iff, List.mem_append, h.mem_children, under]
      split_ifs with hn
      · exact iff_of_true (.inl hn) rfl
      · exact ⟨fun h => h.resolve_left hn, .inr⟩
    · rw [Function.update_of_ne hp, h.mem_children, under]
      split_ifs with hn
      · rw [hroots n hn]
        exact iff_of_false (nomatch ·) fun h => hp (Option.some.inj h).symm
      · exact Iff.rfl
  · rcases above_under hfree hn with hn | ⟨⟨m, hm, hnm⟩, hnt⟩
    · exact h.acyclic n hn
    · obtain ⟨hne, hnot⟩ := hfree m hm
      rcases hnt with rfl | hnt
      · rcases hnm with rfl | hnm
        · exact hne rfl
        · exact hnot hnm
      · rcases hnm with rfl | hnm
        · exact hnot hnt
        · exact hnot (hnt.trans hnm)

/-- A node is taken from among the children of its parent. -/
theorem cut {n p : ν} (hn : parent n = some p) :
    Forest (update parent n none) (update children p ((children p).erase n)) := by
  refine ⟨fun q => ?_, fun m q => ?_, fun m hm => h.acyclic m (hm.mono fun a b hab => ?_)⟩
  · by_cases hq : q = p
    · rw [hq, Function.update_self]
      exact (h.nodup p).erase n
    · rw [Function.update_of_ne hq]
      exact h.nodup q
  · by_cases hm : m = n
    · rw [hm, Function.update_self]
      refine iff_of_false (fun hmem => ?_) (nomatch ·)
      by_cases hq : q = p
      · rw [hq, Function.update_self] at hmem
        exact (h.nodup p).not_mem_erase hmem
      · rw [Function.update_of_ne hq, h.mem_children, hn] at hmem
        exact hq (Option.some.inj hmem).symm
    · rw [Function.update_of_ne hm]
      by_cases hq : q = p
      · rw [hq, Function.update_self, List.mem_erase_of_ne hm, h.mem_children]
      · rw [Function.update_of_ne hq, h.mem_children]
  · by_cases ha : a = n
    · rw [ha, Function.update_self] at hab
      cases hab
    · rwa [Function.update_of_ne ha] at hab

/-- All the children of a node are taken from it. -/
theorem clear (t : ν) : Forest (fun n => if n ∈ children t then none else parent n)
    (update children t []) := by
  refine ⟨fun q => ?_, fun m q => ?_, fun m hm => h.acyclic m (hm.mono fun a b hab => ?_)⟩
  · by_cases hq : q = t
    · rw [hq, Function.update_self]
      exact List.nodup_nil
    · rw [Function.update_of_ne hq]
      exact h.nodup q
  · by_cases hq : q = t
    · rw [hq, Function.update_self]
      refine iff_of_false (nomatch ·) fun hm => ?_
      split_ifs at hm with hmem
      exact hmem ((h.mem_children m t).mpr hm)
    · rw [Function.update_of_ne hq, h.mem_children]
      split_ifs with hmem
      · rw [(h.mem_children m t).mp hmem]
        exact iff_of_false (fun hm => hq (Option.some.inj hm).symm) (nomatch ·)
      · exact Iff.rfl
  · split_ifs at hab
    exact hab

end Forest

end Lib
