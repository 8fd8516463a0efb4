import Urnest.Lib.Throwing

/-!
# Recalling what was recorded

A computation with a table of entries may look in it for its outcome and enter the outcome if
it is not there (`recalling`), or evaluate each time and only make the entry (`recording`).

`Follows F x y`: whatever `y` returns, entering no more than `F`, `x` returns with no more
entries. It goes through sequences of steps, and from `recording` to `recalling` wherever `F`
has one outcome for a key.
-/

namespace Lib

variable {K V ε α β : Type}

abbrev Tabled (K V ε : Type) := StateT (List (K × V)) (Except ε)

/-- One outcome for a key -/
def Functional (t : List (K × V)) : Prop := ∀ k v v', (k, v) ∈ t → (k, v') ∈ t → v = v'

def recording (k : K) (x : Tabled K V ε V) : Tabled K V ε V := do
  let v ← x
  modify fun t => (k, v) :: t
  return v

def recalling [BEq K] (k : K) (x : Tabled K V ε V) : Tabled K V ε V := do
  match (← get).lookup k with
  | some v => return v
  | none => recording k x

structure Follows (F : List (K × V)) (x y : Tabled K V ε α) : Prop where
  run : ∀ {t v t'}, y t = .ok (v, t') → t ⊆ t' ∧
    (t' ⊆ F → ∀ s, s ⊆ t → ∃ s', x s = .ok (v, s') ∧ s' ⊆ t')

namespace Follows

variable {F : List (K × V)}

theorem pure (a : α) : Follows F (Pure.pure a : Tabled K V ε α) (Pure.pure a) := by
  refine ⟨fun {t v t'} h => ?_⟩
  cases h
  exact ⟨fun _ h => h, fun _ s hs => ⟨s, rfl, hs⟩⟩

theorem throw (e : ε) : Follows F (MonadExcept.throw e : Tabled K V ε α) (MonadExcept.throw e) :=
  ⟨fun h => nomatch h⟩

theorem lift (x : Except ε α) : Follows F (liftM x : Tabled K V ε α) (liftM x) := by
  refine ⟨fun {t v t'} h => ?_⟩
  cases x with
  | error e => cases h
  | ok a =>
    cases h
    exact ⟨fun _ h => h, fun _ s hs => ⟨s, rfl, hs⟩⟩

theorem bind {x y : Tabled K V ε α} {f g : α → Tabled K V ε β} (h : Follows F x y)
    (hf : ∀ a, Follows F (f a) (g a)) : Follows F (x >>= f) (y >>= g) := by
  refine ⟨fun {t v t'} hrun => ?_⟩
  obtain ⟨a, t₁, hy, hg⟩ := run_bind_eq_ok.mp hrun
  obtain ⟨ht₁, hx⟩ := h.run hy
  obtain ⟨ht', hfa⟩ := (hf a).run hg
  refine ⟨List.Subset.trans ht₁ ht', fun hF s hs => ?_⟩
  obtain ⟨s₁, hxs, hs₁⟩ := hx (List.Subset.trans ht' hF) s hs
  obtain ⟨s', hfs, hs'⟩ := hfa hF s₁ hs₁
  exact ⟨s', run_bind_eq_ok.mpr ⟨a, s₁, hxs, hfs⟩, hs'⟩

theorem recording {x y : Tabled K V ε V} (k : K) (h : Follows F x y) :
    Follows F (Lib.recording k x) (Lib.recording k y) := by
  refine h.bind fun v => ⟨fun {t w t'} hrun => ?_⟩
  cases hrun
  exact ⟨List.subset_cons_self _ _, fun _ s hs => ⟨(k, v) :: s, rfl, List.cons_subset_cons _ hs⟩⟩

end Follows

theorem mem_of_lookup [BEq K] [LawfulBEq K] {k : K} {v : V} {t : List (K × V)}
    (h : t.lookup k = some v) : (k, v) ∈ t := by
  obtain ⟨front, back, rfl, -⟩ := List.lookup_eq_some_iff.mp h
  exact List.mem_append_right _ List.mem_cons_self

/-- What is found in the table is what evaluating again would record. -/
theorem Follows.recalling [BEq K] [LawfulBEq K] {F : List (K × V)} {x y : Tabled K V ε V} {k : K}
    (hF : Functional F) (h : Follows F x y) : Follows F (recalling k x) (Lib.recording k y) := by
  refine ⟨fun {t v t'} hrun => ?_⟩
  obtain ⟨hgrows, hfollows⟩ := (h.recording k).run hrun
  refine ⟨hgrows, fun hsub s hs => ?_⟩
  have hentry : (k, v) ∈ t' := by
    obtain ⟨a, t₁, -, hg⟩ := run_bind_eq_ok.mp hrun
    cases hg
    exact List.mem_cons_self
  rcases hlookup : s.lookup k with _ | w
  · obtain ⟨s', hx, hs'⟩ := hfollows hsub s hs
    refine ⟨s', ?_, hs'⟩
    rw [Lib.recalling]
    exact run_bind_eq_ok.mpr ⟨s, s, rfl, by rw [hlookup]; exact hx⟩
  · have hsame : w = v := hF k w v (hsub (hgrows (hs (mem_of_lookup hlookup)))) (hsub hentry)
    refine ⟨s, ?_, List.Subset.trans hs hgrows⟩
    rw [Lib.recalling]
    exact run_bind_eq_ok.mpr ⟨s, s, rfl, by rw [hlookup, hsame]; rfl⟩

end Lib
