import Mathlib.Order.Basic

/-!
# Actions

An `Action` is a method of an object with a state: it returns a value or raises an
exception, and leaves a state either way. Nothing is undone by an exception, so what
an action changed before it raised one stays changed.

`Keeps I` says that an action leaves the invariant `I` true, however it ends, and is
proved along the action's parts.
-/

namespace Lib

/-- A computation over a state, which may raise. -/
def Action (σ ε α : Type) : Type := σ → Except ε α × σ

namespace Action

variable {σ τ ε α β : Type}

protected def pure (a : α) : Action σ ε α := fun s => (.ok a, s)

protected def bind (x : Action σ ε α) (f : α → Action σ ε β) : Action σ ε β := fun s =>
  match x s with
  | (.ok a, s') => f a s'
  | (.error e, s') => (.error e, s')

instance : Monad (Action σ ε) where
  pure := Action.pure
  bind := Action.bind

/-- `raise e` -/
def raise (e : ε) : Action σ ε α := fun s => (.error e, s)

/-- The state as it is. -/
def read : Action σ ε σ := fun s => (.ok s, s)

def change (f : σ → σ) : Action σ ε Unit := fun s => (.ok (), f s)

/-- `try: x` `except Exception as e: h(e)` -/
def handle (x : Action σ ε α) (h : ε → Action σ ε α) : Action σ ε α := fun s =>
  match x s with
  | (.ok a, s') => (.ok a, s')
  | (.error e, s') => h e s'

/-- An action of a part of the state. -/
def on (get : τ → σ) (put : σ → τ → τ) (x : Action σ ε α) : Action τ ε α := fun t =>
  ((x (get t)).1, put (x (get t)).2 t)

/-- `except Exception as e: raise f(e)` -/
def mapError {ε' : Type} (f : ε → ε') (x : Action σ ε α) : Action σ ε' α := fun s =>
  ((x s).1.mapError f, (x s).2)

@[simp] theorem pure_apply (a : α) (s : σ) : (pure a : Action σ ε α) s = (.ok a, s) := rfl

@[simp] theorem raise_apply (e : ε) (s : σ) : (raise e : Action σ ε α) s = (.error e, s) := rfl

@[simp] theorem read_apply (s : σ) : (read : Action σ ε σ) s = (.ok s, s) := rfl

@[simp] theorem change_apply (f : σ → σ) (s : σ) :
    (change f : Action σ ε Unit) s = (.ok (), f s) := rfl

@[simp] theorem on_apply (get : τ → σ) (put : σ → τ → τ) (x : Action σ ε α) (t : τ) :
    on get put x t = ((x (get t)).1, put (x (get t)).2 t) := rfl

theorem bind_ok {x : Action σ ε α} {f : α → Action σ ε β} {s t : σ} {a : α}
    (h : x s = (.ok a, t)) : (x >>= f) s = f a t := by
  change Action.bind x f s = _
  rw [Action.bind, h]

theorem bind_error {x : Action σ ε α} {f : α → Action σ ε β} {s t : σ} {e : ε}
    (h : x s = (.error e, t)) : (x >>= f) s = (.error e, t) := by
  change Action.bind x f s = _
  rw [Action.bind, h]

theorem handle_ok {x : Action σ ε α} {h : ε → Action σ ε α} {s t : σ} {a : α}
    (hx : x s = (.ok a, t)) : handle x h s = (.ok a, t) := by
  rw [handle, hx]

theorem handle_error {x : Action σ ε α} {h : ε → Action σ ε α} {s t : σ} {e : ε}
    (hx : x s = (.error e, t)) : handle x h s = h e t := by
  rw [handle, hx]

@[simp] theorem read_bind (f : σ → Action σ ε β) (s : σ) : (read >>= f) s = f s s := rfl

@[simp] theorem change_bind (g : σ → σ) (f : Unit → Action σ ε β) (s : σ) :
    (change g >>= f) s = f () (g s) := rfl

@[simp] theorem raise_bind (e : ε) (f : α → Action σ ε β) (s : σ) :
    (raise e >>= f) s = (.error e, s) := rfl

@[simp] theorem pure_bind (a : α) (f : α → Action σ ε β) : (pure a >>= f) = f a := rfl

/-! ## Invariants -/

/-- The invariant is true afterwards, whether the action returned or raised. -/
def Keeps (I : σ → Prop) (x : Action σ ε α) : Prop := ∀ s, I s → I (x s).2

namespace Keeps

variable {I : σ → Prop}

theorem pure (a : α) : Keeps I (pure a : Action σ ε α) := fun _ h => h

theorem raise (e : ε) : Keeps I (raise e : Action σ ε α) := fun _ h => h

theorem change {f : σ → σ} (hf : ∀ s, I s → I (f s)) : Keeps I (change f : Action σ ε Unit) := hf

theorem bind {x : Action σ ε α} {f : α → Action σ ε β} (hx : Keeps I x)
    (hf : ∀ a, Keeps I (f a)) : Keeps I (x >>= f) := by
  intro s hs
  have hs' := hx s hs
  rcases h : x s with ⟨e | a, s'⟩
  · rw [bind_error h]
    rwa [h] at hs'
  · rw [bind_ok h]
    rw [h] at hs'
    exact hf a s' hs'

/-- What is done with the state may depend on it. -/
theorem read_bind {f : σ → Action σ ε β} (hf : ∀ s, I s → I (f s s).2) :
    Keeps I (Action.read >>= f) := hf

theorem handle {x : Action σ ε α} {h : ε → Action σ ε α} (hx : Keeps I x)
    (hh : ∀ e, Keeps I (h e)) : Keeps I (handle x h) := by
  intro s hs
  have hs' := hx s hs
  rcases hxs : x s with ⟨e | a, s'⟩
  · rw [handle_error hxs]
    rw [hxs] at hs'
    exact hh e s' hs'
  · rw [handle_ok hxs]
    rwa [hxs] at hs'

end Keeps

end Action

/-! ## Weakest preconditions -/

namespace Action

variable {σ ε α β : Type}

/-- The action returns as `Q` says, or raises and leaves the state as `E` says. -/
def wp (x : Action σ ε α) (Q : α → σ → Prop) (E : σ → Prop) (s : σ) : Prop :=
  match x s with
  | (.ok a, s') => Q a s'
  | (.error _, s') => E s'

variable {Q Q' : α → σ → Prop} {E : σ → Prop} {s : σ}

@[simp] theorem wp_pure (a : α) : wp (pure a : Action σ ε α) Q E s ↔ Q a s := Iff.rfl

@[simp] theorem wp_raise (e : ε) : wp (raise e : Action σ ε α) Q E s ↔ E s := Iff.rfl

@[simp] theorem wp_read {Q : σ → σ → Prop} : wp (read : Action σ ε σ) Q E s ↔ Q s s := Iff.rfl

@[simp] theorem wp_change {Q : Unit → σ → Prop} (f : σ → σ) :
    wp (change f : Action σ ε Unit) Q E s ↔ Q () (f s) := Iff.rfl

@[simp] theorem wp_bind {Q : β → σ → Prop} (x : Action σ ε α) (f : α → Action σ ε β) :
    wp (x >>= f) Q E s ↔ wp x (fun a => wp (f a) Q E) E s := by
  rcases h : x s with ⟨e | a, s'⟩
  · simp only [wp, bind_error h, h]
  · simp only [wp, bind_ok h, h]

theorem wp.mono {x : Action σ ε α} (hx : wp x Q E s) (h : ∀ a s', Q a s' → Q' a s') :
    wp x Q' E s := by
  rcases hr : x s with ⟨e | a, s'⟩
  · simp only [wp, hr] at hx ⊢
    exact hx
  · simp only [wp, hr] at hx ⊢
    exact h a s' hx

/-- What is true however the action ends is true afterwards. -/
theorem wp.after {I : σ → Prop} {x : Action σ ε α} (hx : wp x (fun _ => I) I s) : I (x s).2 := by
  rcases hr : x s with ⟨e | a, s'⟩
  · simpa only [wp, hr] using hx
  · simpa only [wp, hr] using hx

end Action

/-! ## Runs -/

namespace Action

variable {σ ε ι : Type} (step : ι → Action σ ε Unit)

/-- The state after some operations, each of which may have raised. -/
def after (s : σ) : List ι → σ
  | [] => s
  | op :: ops => after (step op s).2 ops

/-- `P` is true of every operation and the state it finds. -/
def AllSteps (P : σ → ι → Prop) (s : σ) : List ι → Prop
  | [] => True
  | op :: ops => P s op ∧ AllSteps P (step op s).2 ops

variable {step} {P Q : σ → ι → Prop} {I : σ → Prop}

theorem allSteps_iff_forall {s : σ} {ops : List ι} : AllSteps step P s ops ↔
    ∀ done op rest, ops = done ++ op :: rest → P (after step s done) op := by
  induction ops generalizing s with
  | nil => simp [AllSteps]
  | cons op ops ih =>
    rw [AllSteps, ih]
    constructor
    · rintro ⟨hop, hops⟩ (_ | ⟨op', done⟩) op₁ rest h
      · cases h
        exact hop
      · cases h
        exact hops done op₁ rest rfl
    · intro h
      exact ⟨h [] op ops rfl, fun done op₁ rest hops => h (op :: done) op₁ rest (by simp [hops])⟩

/-- What every step keeps is true of every state reached. -/
theorem after_keeps (hstep : ∀ s op, I s → I (step op s).2) {s : σ} (hs : I s) (ops : List ι) :
    I (after step s ops) := by
  induction ops generalizing s with
  | nil => exact hs
  | cons op ops ih => exact ih (hstep s op hs)

/-- Two ways to say that a run goes well are the same if they are the same in each state
that the run reaches while it goes well, for operations of the kind it has. -/
theorem allSteps_congr_of {R : ι → Prop} (hiff : ∀ s op, R op → I s → (P s op ↔ Q s op))
    (hstep : ∀ s op, R op → I s → Q s op → I (step op s).2) {s : σ} {ops : List ι}
    (hops : ∀ op ∈ ops, R op) (hs : I s) : AllSteps step P s ops ↔ AllSteps step Q s ops := by
  induction ops generalizing s with
  | nil => exact Iff.rfl
  | cons op ops ih =>
    obtain ⟨hop, hops⟩ := List.forall_mem_cons.mp hops
    rw [AllSteps, AllSteps, hiff s op hop hs]
    exact and_congr_right fun hq => ih hops (hstep s op hop hs hq)

theorem allSteps_congr (hiff : ∀ s op, I s → (P s op ↔ Q s op))
    (hstep : ∀ s op, I s → Q s op → I (step op s).2) {s : σ} (hs : I s) (ops : List ι) :
    AllSteps step P s ops ↔ AllSteps step Q s ops :=
  allSteps_congr_of (R := fun _ => True) (fun s op _ => hiff s op) (fun s op _ => hstep s op)
    (fun _ _ => trivial) hs

end Action

/-! ## Histories -/

namespace Action

variable {σ τ ε α ι : Type}

/-- What each of some operations answered, and the state it left. -/
def history (step : ι → Action σ ε α) (s : σ) : List ι → List (Except ε α × σ)
  | [] => []
  | op :: ops => step op s :: history step (step op s).2 ops

/-- Where each operation is another one seen through `view`, so is the history. -/
theorem history_view {step : ι → Action σ ε α} {step' : ι → Action τ ε α} {view : σ → τ}
    (h : ∀ s op, step' op (view s) = ((step op s).1, view (step op s).2)) (s : σ) (ops : List ι) :
    history step' (view s) ops = (history step s ops).map fun r => (r.1, view r.2) := by
  induction ops generalizing s with
  | nil => rfl
  | cons op ops ih => rw [history, history, List.map_cons, h, ih]

end Action

end Lib
