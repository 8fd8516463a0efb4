import Mathlib.Order.Defs.Unbundled
import Mathlib.Tactic.Common

/-!
# Comparing by one key after another

Where each key's `<` is a strict weak order, so is that of the first key that tells two values
apart. A strict weak order is an asymmetric one in which nothing fits between two values without
being above the one or below the other (`strictWeak_iff`); in this form it is kept key by key.
-/

namespace Lib

variable {α : Type}

/-- As the class of Mathlib, for a `<` that is computed. -/
def StrictWeak (less : α → α → Bool) : Prop := IsStrictWeakOrder α (less · · = true)

theorem strictWeak_iff {less : α → α → Bool} : StrictWeak less ↔
    (∀ x y, less x y = true → less y x = false) ∧
      ∀ x y z, less x z = true → less x y = true ∨ less y z = true := by
  constructor
  · intro h
    have htrans : ∀ {x y z}, less x y = true → less y z = true → less x z = true :=
      fun {x y z} => h.trans x y z
    refine ⟨fun x y hxy => Bool.eq_false_iff.mpr fun hyx => h.irrefl x (htrans hxy hyx), ?_⟩
    intro x y z hxz
    by_contra hne
    rw [not_or] at hne
    obtain ⟨hxy, hyz⟩ := hne
    have hyx : ¬ less y x = true := fun hyx => hyz (htrans hyx hxz)
    have hzy : ¬ less z y = true := fun hzy => hxy (htrans hxz hzy)
    exact (h.incomp_trans x y z ⟨hxy, hyx⟩ ⟨hyz, hzy⟩).1 hxz
  · rintro ⟨hasymm, hbetween⟩
    have hnot : ∀ x y, less x y = true → ¬ less y x = true :=
      fun x y hxy => Bool.eq_false_iff.mp (hasymm x y hxy)
    exact
      { irrefl := fun x hx => hnot x x hx hx
        trans := fun x y z hxy hyz => (hbetween x z y hxy).resolve_right (hnot y z hyz)
        incomp_trans := fun x y z hxy hyz =>
          ⟨fun hxz => (hbetween x y z hxz).elim hxy.1 hyz.1,
            fun hzx => (hbetween z y x hzx).elim hyz.2 hxy.2⟩ }

/-- The `<` of the first key that tells the values apart -/
def lexLess : List (α → α → Bool) → α → α → Bool
  | [], _, _ => false
  | less :: keys, x, y => if less x y then true else if less y x then false else lexLess keys x y

theorem lexLess_iff {keys : List (α → α → Bool)} {x y : α} : lexLess keys x y = true ↔
    ∃ before less after, keys = before ++ less :: after ∧
      (∀ k ∈ before, k x y = false ∧ k y x = false) ∧ less x y = true := by
  induction keys with
  | nil =>
    refine iff_of_false Bool.false_ne_true ?_
    rintro ⟨before, less, after, heq, -⟩
    cases before <;> cases heq
  | cons key keys ih =>
    rw [lexLess]
    split_ifs with hxy hyx
    · exact iff_of_true rfl ⟨[], key, keys, rfl, nofun, hxy⟩
    · refine iff_of_false not_false ?_
      rintro ⟨before, less, after, heq, hbefore, hless⟩
      rcases before with _ | ⟨k, before⟩ <;> cases heq
      · exact hxy hless
      · exact absurd hyx (Bool.eq_false_iff.mp (hbefore key (.head _)).2)
    · rw [ih]
      constructor
      · rintro ⟨before, less, after, rfl, hbefore, hless⟩
        refine ⟨key :: before, less, after, rfl, List.forall_mem_cons.mpr ⟨?_, hbefore⟩, hless⟩
        exact ⟨Bool.eq_false_iff.mpr hxy, Bool.eq_false_iff.mpr hyx⟩
      · rintro ⟨before, less, after, heq, hbefore, hless⟩
        rcases before with _ | ⟨k, before⟩ <;> cases heq
        · exact absurd hless hxy
        · exact ⟨before, less, after, rfl, fun k hk => hbefore k (.tail _ hk), hless⟩

/-- Where the keys are strict weak orders, so is the whole. -/
theorem strictWeak_lexLess {keys : List (α → α → Bool)} (h : ∀ k ∈ keys, StrictWeak k) :
    StrictWeak (lexLess keys) := by
  induction keys with
  | nil => exact strictWeak_iff.mpr ⟨nofun, nofun⟩
  | cons key keys ih =>
    obtain ⟨hasymm, hbetween⟩ := strictWeak_iff.mp (h key (.head _))
    obtain ⟨hasymm', hbetween'⟩ := strictWeak_iff.mp (ih fun k hk => h k (.tail _ hk))
    have hcons : ∀ x y, lexLess (key :: keys) x y = true ↔
        key x y = true ∨ key y x = false ∧ lexLess keys x y = true := by
      intro x y
      rw [lexLess]
      by_cases hxy : key x y = true
      · simp [hxy]
      · by_cases hyx : key y x = true <;> simp [hxy, hyx]
    refine strictWeak_iff.mpr ⟨fun x y hxy => ?_, fun x y z hxz => ?_⟩
    · rw [Bool.eq_false_iff]
      intro hyx
      rcases (hcons x y).mp hxy with hk | ⟨hk, hrest⟩
      · rcases (hcons y x).mp hyx with hk' | ⟨hk', -⟩
        · exact Bool.eq_false_iff.mp (hasymm x y hk) hk'
        · exact Bool.eq_false_iff.mp hk' hk
      · rcases (hcons y x).mp hyx with hk' | ⟨-, hrest'⟩
        · exact Bool.eq_false_iff.mp hk hk'
        · exact Bool.eq_false_iff.mp (hasymm' x y hrest) hrest'
    · rw [hcons, hcons]
      rcases (hcons x z).mp hxz with hk | ⟨hk, hrest⟩
      · exact (hbetween x y z hk).imp .inl .inl
      -- no key is above another here, or `z` would be below `x`
      · by_cases hxy : key x y = true
        · exact .inl (.inl hxy)
        by_cases hyz : key y z = true
        · exact .inr (.inl hyz)
        have hyx : key y x = false := by
          rw [Bool.eq_false_iff]
          intro hyx
          rcases hbetween y z x hyx with hyz' | hzx
          · exact hyz hyz'
          · exact Bool.eq_false_iff.mp hk hzx
        have hzy : key z y = false := by
          rw [Bool.eq_false_iff]
          intro hzy
          rcases hbetween z x y hzy with hzx | hxy'
          · exact Bool.eq_false_iff.mp hk hzx
          · exact hxy hxy'
        exact (hbetween' x y z hrest).imp (fun h => .inr ⟨hyx, h⟩) fun h => .inr ⟨hzy, h⟩

end Lib
