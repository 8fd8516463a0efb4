import Mathlib.Data.Fintype.Pigeonhole
import Urnest.Lib.Throwing

/-!
# Runs that may throw or die

A `Run` is a computation that hands back a value, throws an exception its caller
may catch, or dies: an assertion aborts the process, or a loop never ends. The
distinction that matters to a server is the last one, so `Survives` is the
property of a run that did anything but die, and it is computed compositionally
(`survives_bind`).

Loops that collect items while moving through a finite set of positions are run
by `collect` on fuel. `survives_collect` says what the fuel is worth: given as many
turns as there are positions, the run dies of exhaustion only where the loop would
have gone round forever.
-/

namespace Lib

universe u

/-- Why a run stopped without a value. -/
inductive Stop (ε φ : Type u) : Type u where
  /-- an exception, on its way to a handler -/
  | threw : ε → Stop ε φ
  /-- a fault that no handler sees -/
  | died : φ → Stop ε φ
  deriving DecidableEq, Repr

/-- A computation that returns, throws an `ε` or dies of a `φ`. -/
abbrev Run (ε φ : Type u) (α : Type u) : Type u := Except (Stop ε φ) α

namespace Run

variable {ε φ α β : Type u}

/-- The run that throws. -/
abbrev throws (e : ε) : Run ε φ α := .error (.threw e)

/-- The run that dies. -/
abbrev dies (f : φ) : Run ε φ α := .error (.died f)

@[simp] theorem ok_bind (a : α) (f : α → Run ε φ β) :
    ((Except.ok a : Run ε φ α) >>= f) = f a := rfl

@[simp] theorem pure_eq_ok (a : α) : (pure a : Run ε φ α) = .ok a := rfl

@[simp] theorem error_bind (s : Stop ε φ) (f : α → Run ε φ β) :
    ((Except.error s : Run ε φ α) >>= f) = .error s := rfl

/-- What a sequenced run that returned must have done. -/
theorem bind_eq_ok {x : Run ε φ α} {f : α → Run ε φ β} {b : β} :
    x >>= f = .ok b ↔ ∃ a, x = .ok a ∧ f a = .ok b :=
  Lib.bind_eq_ok

/-- Where a sequenced run stopped -/
theorem bind_eq_error {x : Run ε φ α} {f : α → Run ε φ β} {s : Stop ε φ} :
    x >>= f = .error s ↔ x = .error s ∨ ∃ a, x = .ok a ∧ f a = .error s := by
  cases x with
  | error s' => simp
  | ok a => simp

/-! ## Surviving -/

/-- The run did not die: it returned or it threw. -/
def Survives : Run ε φ α → Prop
  | .error (.died _) => False
  | .error (.threw _) => True
  | .ok _ => True

instance : DecidablePred fun r : Run ε φ α => Survives r
  | .error (.died _) => .isFalse id
  | .error (.threw _) => .isTrue trivial
  | .ok _ => .isTrue trivial

@[simp] theorem survives_ok (a : α) : Survives (.ok a : Run ε φ α) := trivial

@[simp] theorem survives_throws (e : ε) : Survives (throws e : Run ε φ α) := trivial

@[simp] theorem not_survives_dies (f : φ) : ¬ Survives (dies f : Run ε φ α) := id

/-- A sequence survives when its first part does and, where that returns, the rest does. -/
theorem survives_bind {x : Run ε φ α} {f : α → Run ε φ β} :
    Survives (x >>= f) ↔ Survives x ∧ ∀ a, x = .ok a → Survives (f a) := by
  rcases x with (e | g) | a
  · exact ⟨fun _ => ⟨trivial, fun a h => by cases h⟩, fun _ => trivial⟩
  · exact ⟨fun h => h.elim, fun h => h.1.elim⟩
  · exact ⟨fun h => ⟨trivial, fun a' ha => by cases ha; exact h⟩, fun h => h.2 a rfl⟩

/-- What cannot die does not matter to survival. -/
theorem survives_bind_of {x : Run ε φ α} {f : α → Run ε φ β} (hf : ∀ a, Survives (f a)) :
    Survives (x >>= f) ↔ Survives x := by
  rw [survives_bind]
  exact and_iff_left fun a _ => hf a

end Run

/-! ## Loops that collect -/

section Collect

variable {ε φ π ι : Type u}

/-- One turn of a loop: leave it, or hand over an item and go on from a new position. -/
inductive Turn (π ι : Type u) : Type u where
  | leave : Turn π ι
  | item : ι → π → Turn π ι

/-- Run `body` from `p`, collecting the items in order, until it leaves the loop;
the position it left at is returned with them. Fuel `0` counts as never leaving. -/
def collect (endless : φ) (body : π → Run ε φ (Turn π ι)) :
    Nat → π → Run ε φ (List ι × π)
  | 0, _ => .dies endless
  | n + 1, p => do
    match ← body p with
    | .leave => pure ([], p)
    | .item x q =>
      let r ← collect endless body n q
      pure (x :: r.1, r.2)

variable {endless : φ} {body : π → Run ε φ (Turn π ι)}

theorem collect_succ_leave {n : Nat} {p : π} (h : body p = .ok .leave) :
    collect endless body (n + 1) p = .ok ([], p) := by
  simp [collect, h]

theorem collect_succ_item {n : Nat} {p q : π} {x : ι} (h : body p = .ok (.item x q)) :
    collect endless body (n + 1) p
      = collect endless body n q >>= fun r => .ok (x :: r.1, r.2) := by
  simp [collect, h]

theorem collect_succ_error {n : Nat} {p : π} {s : Stop ε φ} (h : body p = .error s) :
    collect endless body (n + 1) p = .error s := by
  simp [collect, h]

/-- The turn at the end leaves. -/
theorem collect_leaves {n : Nat} {p : π} {r : List ι × π} (h : collect endless body n p = .ok r) :
    body r.2 = .ok .leave := by
  induction n generalizing p r with
  | zero => cases h
  | succ n ih =>
    rcases hb : body p with s | t
    · rw [collect_succ_error hb] at h
      cases h
    · cases t with
      | leave =>
        rw [collect_succ_leave hb] at h
        cases h
        exact hb
      | item x q =>
        rw [collect_succ_item hb] at h
        obtain ⟨r', hr', h⟩ := bind_eq_ok.mp h
        have hleave := ih hr'
        cases h
        exact hleave

/-- The loop gets from `p` to a turn that leaves or throws. -/
inductive Lasts (body : π → Run ε φ (Turn π ι)) : π → Prop where
  | leave {p : π} : body p = .ok .leave → Lasts body p
  | threw {p : π} {e : ε} : body p = .throws e → Lasts body p
  | item {p q : π} {x : ι} : body p = .ok (.item x q) → Lasts body q → Lasts body p

/-- Where the loop goes next, if it goes on. -/
def Turn.next? : Run ε φ (Turn π ι) → Option π
  | .ok (.item _ q) => some q
  | _ => none

/-- `n` turns later. -/
def afterTurns (body : π → Run ε φ (Turn π ι)) : Nat → π → Option π
  | 0, p => some p
  | n + 1, p => (Turn.next? (body p)).bind (afterTurns body n)

variable (body) in
theorem afterTurns_add (m n : Nat) (p : π) :
    afterTurns body (m + n) p = (afterTurns body m p).bind (afterTurns body n) := by
  induction m generalizing p with
  | zero => simp [afterTurns]
  | succ m ih =>
    rw [Nat.succ_add]
    simp only [afterTurns]
    cases Turn.next? (body p) with
    | none => rfl
    | some q => exact ih q

/-- A loop that comes back to a position never leaves: it can be followed for any
number of turns. -/
theorem afterTurns_of_cycle {k : Nat} {p : π} (hk : 0 < k)
    (hp : afterTurns body k p = some p) (n : Nat) : (afterTurns body n p).isSome := by
  induction n using Nat.strong_induction_on with
  | _ n ih =>
    by_cases hn : n < k
    · have hsplit := afterTurns_add body n (k - n) p
      rw [Nat.add_sub_cancel' hn.le, hp] at hsplit
      cases h : afterTurns body n p with
      | none => simp [h] at hsplit
      | some q => rfl
    · have hsplit := afterTurns_add body k (n - k) p
      rw [Nat.add_sub_cancel' (Nat.le_of_not_lt hn), hp] at hsplit
      rw [hsplit]
      exact ih (n - k) (by omega)

variable (body) in
/-- Pigeonhole: a loop followed for as many turns as there are positions can be
followed for any number. -/
theorem afterTurns_forever [Fintype π] {p : π}
    (h : (afterTurns body (Fintype.card π) p).isSome) (n : Nat) :
    (afterTurns body n p).isSome := by
  have prefix_some : ∀ m, m ≤ Fintype.card π → (afterTurns body m p).isSome := by
    intro m hm
    have hsplit := afterTurns_add body m (Fintype.card π - m) p
    rw [Nat.add_sub_cancel' hm] at hsplit
    cases hq : afterTurns body m p with
    | none =>
      rw [hq] at hsplit
      simp [hsplit] at h
    | some q => rfl
  have hlt : Fintype.card π < Fintype.card (Fin (Fintype.card π + 1)) := by simp
  obtain ⟨i, j, hij, heq⟩ := Fintype.exists_ne_map_eq_of_card_lt
    (fun i : Fin (Fintype.card π + 1) =>
      (afterTurns body i p).get (prefix_some i (Nat.le_of_lt_succ i.2))) hlt
  -- order the two visits of the same position
  wlog hlt' : i < j generalizing i j with H
  · exact H j i hij.symm heq.symm (lt_of_le_of_ne (not_lt.mp hlt') hij.symm)
  obtain ⟨q, hi, hj⟩ : ∃ q, afterTurns body i p = some q ∧ afterTurns body j p = some q :=
    ⟨_, (Option.some_get _).symm, by rw [heq]; exact (Option.some_get _).symm⟩
  have hcycle := afterTurns_add body i (j - i) p
  rw [Nat.add_sub_cancel' (Fin.lt_def.mp hlt').le, hj, hi, Option.bind_some] at hcycle
  by_cases hn : n ≤ i
  · exact prefix_some n (hn.trans (Nat.le_of_lt_succ i.2))
  · have hsplit := afterTurns_add body i (n - i) p
    rw [Nat.add_sub_cancel' (by omega), hi, Option.bind_some] at hsplit
    rw [hsplit]
    exact afterTurns_of_cycle (Nat.sub_pos_of_lt (Fin.lt_def.mp hlt')) hcycle.symm (n - i)

theorem Lasts.exists_none {p : π} (h : Lasts body p) : ∃ n, afterTurns body n p = none := by
  induction h with
  | leave h => exact ⟨1, by simp [afterTurns, Turn.next?, h]⟩
  | threw h => exact ⟨1, by simp [afterTurns, Turn.next?, h]⟩
  | item h _ ih =>
    obtain ⟨n, hn⟩ := ih
    exact ⟨n + 1, by simp [afterTurns, Turn.next?, h, hn]⟩

/-- A loop that lasts survives whenever the fuel outlasts its turns. -/
theorem Lasts.survives {p : π} (h : Lasts body p) :
    ∀ n, afterTurns body n p = none → Run.Survives (collect endless body n p) := by
  induction h with
  | leave h =>
    intro n hn
    cases n with
    | zero => cases hn
    | succ n =>
      rw [collect_succ_leave h]
      trivial
  | threw h =>
    intro n hn
    cases n with
    | zero => cases hn
    | succ n =>
      rw [collect_succ_error h]
      trivial
  | item h _ ih =>
    intro n hn
    cases n with
    | zero => cases hn
    | succ n =>
      rw [collect_succ_item h, Run.survives_bind]
      refine ⟨ih n ?_, fun _ _ => trivial⟩
      simpa [afterTurns, Turn.next?, h] using hn

/-- A loop whose run survives lasts. -/
theorem lasts_of_survives {n : Nat} {p : π}
    (h : Run.Survives (collect endless body n p)) : Lasts body p := by
  induction n generalizing p with
  | zero => exact h.elim
  | succ n ih =>
    rcases hb : body p with (e | f) | t
    · exact .threw hb
    · rw [collect_succ_error hb] at h
      exact h.elim
    · cases t with
      | leave => exact .leave hb
      | item x q =>
        rw [collect_succ_item hb, Run.survives_bind] at h
        exact .item hb (ih h.1)

/-- With a turn for every position, the loop survives exactly when it lasts. -/
theorem survives_collect [Fintype π] {n : Nat} {p : π} (hn : Fintype.card π ≤ n) :
    Run.Survives (collect endless body n p) ↔ Lasts body p := by
  refine ⟨lasts_of_survives, fun h => h.survives n ?_⟩
  obtain ⟨k, hk⟩ := h.exists_none
  have hcard : afterTurns body (Fintype.card π) p = none := by
    cases hc : afterTurns body (Fintype.card π) p with
    | none => rfl
    | some q =>
      have hever := afterTurns_forever body (p := p) (by rw [hc]; rfl) k
      simp [hk] at hever
  have hsplit := afterTurns_add body (Fintype.card π) (n - Fintype.card π) p
  rw [Nat.add_sub_cancel' hn, hcard] at hsplit
  exact hsplit

end Collect

end Lib
