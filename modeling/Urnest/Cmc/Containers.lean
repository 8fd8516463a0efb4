import Urnest.Lib.Action
import Urnest.Lib.Dict

/-!
# Dictionaries of context managers

`Dict` enters its values and exits them, by means of an exit stack, which exits what was pushed
last first. `AsyncDict` is written a second time, and pushes the values in reverse.

A value is what its manager makes of it: `enter` and `exit` answer or raise, in a world that they
may change. Each call is recorded.
-/

namespace Urnest.Cmc.Containers

open Lib Action

/-- What a call raises. -/
inductive Exc where
  | keyError
  | other (n : Nat)
  deriving DecidableEq

/-- How values are entered and exited. An exit is told what has been raised, and answers whether
that is to be dropped. -/
structure Manager (V Ω : Type) where
  enter : V → Ω → Except Exc Unit × Ω
  exit : V → Option Exc → Ω → Except Exc Bool × Ω

structure ExitCall (V : Type) where
  value : V
  outcome : Except Exc Bool

inductive Call (V : Type) where
  | enter (value : V) (outcome : Except Exc Unit)
  | exit (call : ExitCall V)

structure State (K V Ω : Type) where
  x : Lib.Dict K V
  entered : Bool
  world : Ω
  calls : List (Call V)

variable {K V Ω : Type}

abbrev Act (K V Ω α : Type) : Type := Action (State K V Ω) Exc α

/-! ## `contextlib.ExitStack` -/

section

variable [DecidableEq K] [DecidableEq V] (m : Manager V Ω)

/-- `v.__enter__()` -/
def enterValue (v : V) : Act K V Ω Unit := fun s =>
  ((m.enter v s.world).1,
    { s with
      world := (m.enter v s.world).2
      calls := s.calls ++ [.enter v (m.enter v s.world).1] })

/-- `v.__exit__(*exc_details)` -/
def exitValue (v : V) (exc : Option Exc) : Act K V Ω Bool := fun s =>
  ((m.exit v exc s.world).1,
    { s with
      world := (m.exit v exc s.world).2
      calls := s.calls ++ [.exit ⟨v, (m.exit v exc s.world).1⟩] })

/-- Leave a stack that has these values, the last pushed first. An exit that raises does not keep
the others from being called. -/
def unwind : List V → Option Exc → Act K V Ω Unit
  | [], none => pure ()
  | [], some e => raise e
  | v :: vs, exc => fun s =>
    match exitValue m v exc s with
    | (.ok true, s) => unwind vs none s
    | (.ok false, s) => unwind vs exc s
    | (.error e, s) => unwind vs (some e) s

/-- Enter values, pushing each; a failure leaves the stack. -/
def enterAll : List V → List V → Act K V Ω Unit
  | [], _ => pure ()
  | v :: vs, stack => fun s =>
    match enterValue m v s with
    | (.ok (), s) => enterAll vs (v :: stack) s
    | (.error e, s) => unwind m stack (some e) s

/-! ## What both have -/

/-- Enter all values in the order they were inserted. -/
def enterValues : Act K V Ω Unit := do
  let s ← read
  enterAll m s.x.values []
  change fun s => { s with entered := true }

/-- Exit a value that was taken out, if the dictionary has been entered. -/
def exitOld (v : V) : Act K V Ω Unit := do
  let s ← read
  if s.entered then unwind m [v] none else pure ()

def put (key : K) (value : V) : Act K V Ω Unit :=
  change fun s => { s with x := s.x.set key value }

/-- Enter the new value, replace the old one by it and exit that. -/
def replace (key : K) (value : V) : Act K V Ω Unit := do
  let s ← read
  if s.x.get? key = some value then pure ()
  else if s.entered then do
    enterValue m value
    match s.x.get? key with
    | none => put key value
    | some old => do
      put key value
      unwind m [old] none
  else put key value

/-- `self.x.pop(key)`, and exit the value. -/
def popKey (key : K) : Act K V Ω V := do
  let s ← read
  match s.x.get? key with
  | none => raise .keyError
  | some v => do
    change fun s => { s with x := s.x.erase key }
    exitOld m v
    pure v

/-- The same where a `KeyError` is answered by the default, the value's own too. -/
def popOr (key : K) (default : V) : Act K V Ω V :=
  handle (popKey m key) fun e => if e = .keyError then pure default else raise e

/-- The last item, which is popped -/
def popLast : Act K V Ω (K × V) := do
  let s ← read
  match s.x.items.getLast? with
  | none => raise .keyError
  | some (k, v) => do
    change fun s => { s with x := s.x.erase k }
    exitOld m v
    pure (k, v)

/-- `while len(self): self.popitem()`, which goes round as often as there are items. -/
def popAll : Nat → Act K V Ω Unit
  | 0 => pure ()
  | n + 1 => do
    let _ ← popLast m
    popAll n

def clearAll : Act K V Ω Unit := do
  let s ← read
  popAll m s.x.length

def setIfNew (key : K) (default : Option V) : Act K V Ω (Option V) := do
  match default with
  | none => pure ()
  | some v => do
    let s ← read
    if key ∈ s.x then pure () else replace m key v
  let s ← read
  pure (s.x.get? key)

def replaceAll : List (K × V) → Act K V Ω Unit
  | [] => pure ()
  | (k, v) :: x => do
    replace m k v
    replaceAll x

/-- Leave the stack that the values have been pushed to in this order. -/
def leave (pushed : State K V Ω → List V) : Act K V Ω Unit := do
  let s ← read
  if s.entered then unwind m (pushed s).reverse none else pure ()

/-! ## Each of them -/

namespace Dict

abbrev enter : Act K V Ω Unit := enterValues m

def exit : Act K V Ω Unit := leave m fun s => s.x.values

def delitem (key : K) : Act K V Ω Unit := do
  let _ ← popKey m key

def setitem (key : K) (value : V) : Act K V Ω Unit := replace m key value

def clear : Act K V Ω Unit := clearAll m

/-- Without a default that is a value, `KeyError` is raised. -/
def pop (key : K) : Option V → Act K V Ω V
  | none => popKey m key
  | some default => popOr m key default

def popitem : Act K V Ω (K × V) := popLast m

def setdefault (key : K) (default : Option V) : Act K V Ω (Option V) := setIfNew m key default

def update (x : List (K × V)) : Act K V Ω Unit := replaceAll m x

end Dict

namespace AsyncDict

def aenter : Act K V Ω Unit := enterValues m

def aexit : Act K V Ω Unit := leave m fun s => s.x.values.reverse

def set (key : K) (value : V) : Act K V Ω Unit := replace m key value

def clear : Act K V Ω Unit := clearAll m

def pop (key : K) : Option V → Act K V Ω V
  | none => popKey m key
  | some default => popOr m key default

def popitem : Act K V Ω (K × V) := popLast m

def setdefault (key : K) (default : Option V) : Act K V Ω (Option V) := setIfNew m key default

def update (x : List (K × V)) : Act K V Ω Unit := replaceAll m x

end AsyncDict

/-! ## Histories -/

/-- What is done with a dictionary -/
inductive Op (K V : Type) where
  | enter
  | exit
  | set (key : K) (value : V)
  | clear
  | pop (key : K) (default : Option V)
  | popitem
  | setdefault (key : K) (default : Option V)
  | update (x : List (K × V))

inductive Dict.Op (K V : Type) where
  | delitem (key : K)
  | op (op : Containers.Op K V)

/-- Do something, and let what it answers go. -/
def drop {α : Type} (x : Act K V Ω α) : Act K V Ω Unit := do
  let _ ← x

def Dict.step : Dict.Op K V → Act K V Ω Unit
  | .delitem key => delitem m key
  | .op .enter => enter m
  | .op .exit => exit m
  | .op (.set key value) => setitem m key value
  | .op .clear => clear m
  | .op (.pop key default) => drop (pop m key default)
  | .op .popitem => drop (popitem m)
  | .op (.setdefault key default) => drop (setdefault m key default)
  | .op (.update x) => update m x

def AsyncDict.step : Op K V → Act K V Ω Unit
  | .enter => aenter m
  | .exit => aexit m
  | .set key value => set m key value
  | .clear => clear m
  | .pop key default => drop (pop m key default)
  | .popitem => drop (popitem m)
  | .setdefault key default => drop (setdefault m key default)
  | .update x => update m x

end

/-- A new dictionary, in some world -/
def State.new (x : Lib.Dict K V) (world : Ω) : State K V Ω := ⟨x, false, world, []⟩

/-! ## Leaving -/

/-- What has been raised gets out, unless an exit called later drops it. -/
def Reported (made : List (ExitCall V)) (result : Except Exc Unit) : Prop :=
  (∃ d ∈ made, d.outcome = .ok true) ∨ ∃ e, result = .error e

/-- The values are exited in the order they were inserted, each once, and what an exit raises is
reported. -/
def ExitsAsDocumented (exitAll : Act K V Ω Unit) (s : State K V Ω) : Prop :=
  s.entered = true → ∃ made : List (ExitCall V),
    (exitAll s).2.calls = s.calls ++ made.map .exit ∧ made.map ExitCall.value = s.x.values ∧
      ∀ done c rest e, made = done ++ c :: rest → c.outcome = .error e →
        Reported rest (exitAll s).1

variable {m : Manager V Ω}

theorem calls_exitValue {v : V} {exc : Option Exc} {s s' : State K V Ω} {r : Except Exc Bool}
    (h : exitValue m v exc s = (r, s')) : s'.calls = s.calls ++ [.exit ⟨v, r⟩] := by
  have hr : (m.exit v exc s.world).1 = r := congrArg Prod.fst h
  have hs : (exitValue m v exc s).2 = s' := congrArg Prod.snd h
  rw [← hs, ← hr]
  rfl

/-- All values are exited, whatever their exits raise. -/
theorem unwind_spec (vs : List V) (exc : Option Exc) (s : State K V Ω) :
    ∃ made : List (ExitCall V), (unwind m vs exc s).2.calls = s.calls ++ made.map .exit ∧
      made.map ExitCall.value = vs ∧
      (∀ e, exc = some e → Reported made (unwind m vs exc s).1) ∧
      ∀ done c rest e, made = done ++ c :: rest → c.outcome = .error e →
        Reported rest (unwind m vs exc s).1 := by
  induction vs generalizing exc s with
  | nil =>
    refine ⟨[], ?_, rfl, ?_, ?_⟩
    · cases exc <;> exact (List.append_nil _).symm
    · rintro e rfl
      exact .inr ⟨e, rfl⟩
    · intro done c rest e h
      simp at h
  | cons v vs ih =>
    -- what is pending for the rest, after this exit
    have hrest : ∀ (r : Except Exc Bool) (exc' : Option Exc) (s' : State K V Ω),
        s'.calls = s.calls ++ [.exit ⟨v, r⟩] →
        (∀ e, exc = some e → r = .ok true ∨ ∃ e', exc' = some e') →
        (∀ e, r = .error e → exc' = some e) →
        ∃ made : List (ExitCall V), (unwind m vs exc' s').2.calls = s.calls ++ made.map .exit ∧
          made.map ExitCall.value = v :: vs ∧
          (∀ e, exc = some e → Reported made (unwind m vs exc' s').1) ∧
          ∀ done c rest e, made = done ++ c :: rest → c.outcome = .error e →
            Reported rest (unwind m vs exc' s').1 := by
      intro r exc' s' hcalls hpending hraised
      obtain ⟨made, hmade, hvalues, hreported, hlater⟩ := ih exc' s'
      refine ⟨⟨v, r⟩ :: made, ?_, ?_, ?_, ?_⟩
      · rw [hmade, hcalls, List.map_cons, List.append_assoc]
        rfl
      · rw [List.map_cons, hvalues]
      · intro e he
        rcases hpending e he with rfl | ⟨e', he'⟩
        · exact .inl ⟨_, List.mem_cons_self .., rfl⟩
        · exact (hreported e' he').imp_left fun ⟨d, hd, hdrop⟩ =>
            ⟨d, List.mem_cons_of_mem _ hd, hdrop⟩
      · rintro (_ | ⟨d, done⟩) c rest e h hc
        · obtain ⟨rfl, rfl⟩ := List.cons.inj h
          exact hreported e (hraised e hc)
        · exact hlater done c rest e (List.cons.inj h).2 hc
    rcases hexit : exitValue m v exc s with ⟨e | _ | _, s'⟩
    · have hunwind : unwind m (v :: vs) exc s = unwind m vs (some e) s' := by
        simp only [unwind, hexit]
      rw [hunwind]
      exact hrest _ (some e) s' (calls_exitValue hexit) (fun _ _ => .inr ⟨e, rfl⟩)
        fun _ he => congrArg some (Except.error.inj he)
    · have hunwind : unwind m (v :: vs) exc s = unwind m vs exc s' := by simp only [unwind, hexit]
      rw [hunwind]
      exact hrest _ exc s' (calls_exitValue hexit) (fun e he => .inr ⟨e, he⟩)
        fun _ he => nomatch he
    · have hunwind : unwind m (v :: vs) exc s = unwind m vs none s' := by simp only [unwind, hexit]
      rw [hunwind]
      exact hrest _ none s' (calls_exitValue hexit) (fun _ _ => .inl rfl) fun _ he => nomatch he

theorem leave_entered {pushed : State K V Ω → List V} {s : State K V Ω} (h : s.entered = true) :
    leave m pushed s = unwind m (pushed s).reverse none s := by
  rw [leave, read_bind, if_pos h]

/-- What was pushed is exited from the last on. -/
theorem documented_iff (pushed : State K V Ω → List V) (s : State K V Ω) :
    ExitsAsDocumented (leave m pushed) s ↔
      (s.entered = true → (pushed s).reverse = s.x.values) := by
  refine forall_congr' fun hentered => ?_
  rw [leave_entered hentered]
  obtain ⟨made, hcalls, hvalues, -, hreported⟩ := unwind_spec (m := m) (pushed s).reverse none s
  constructor
  · rintro ⟨made', hcalls', hvalues', -⟩
    have hsame : made.map Call.exit = made'.map Call.exit :=
      List.append_cancel_left (hcalls.symm.trans hcalls')
    have hmade : made = made' :=
      List.map_injective_iff.mpr (fun _ _ h => Call.exit.inj h) hsame
    rw [← hvalues, hmade, hvalues']
  · intro h
    exact ⟨made, hcalls, hvalues.trans h, hreported⟩

/-- After any history an `AsyncDict` exits its values in the order they were inserted. A `Dict`
does so where the reverse order is the same. -/
theorem exits_in_order_iff [DecidableEq K] [DecidableEq V] (m : Manager V Ω) (x : Lib.Dict K V)
    (world : Ω) :
    (∀ ops, ExitsAsDocumented (AsyncDict.aexit m)
      (after (AsyncDict.step m) (State.new x world) ops)) ∧
    ∀ ops, ExitsAsDocumented (Dict.exit m) (after (Dict.step m) (State.new x world) ops) ↔
      ((after (Dict.step m) (State.new x world) ops).entered = true →
        (after (Dict.step m) (State.new x world) ops).x.values.reverse
          = (after (Dict.step m) (State.new x world) ops).x.values) := by
  refine ⟨fun ops => ?_, fun ops => documented_iff _ _⟩
  rw [AsyncDict.aexit, documented_iff]
  exact fun _ => List.reverse_reverse _

/-! ## Two values -/

/-- Values that do nothing when they are entered and exited -/
def quiet : Manager Nat Unit := ⟨fun _ _ => (.ok (), ()), fun _ _ _ => (.ok false, ())⟩

/-- Two values are inserted, and the dictionary is entered. -/
def entersTwo : List (Op String Nat) := [.set "a" 1, .set "b" 2, .enter]

theorem not_exits_in_order :
    ¬ ∀ ops, ExitsAsDocumented (Dict.exit quiet)
      (after (Dict.step quiet) (State.new .empty ()) (ops : List (Dict.Op String Nat))) := by
  intro h
  have hreverse := (documented_iff _ _).mp (h (entersTwo.map .op)) (by decide)
  revert hreverse
  decide

end Urnest.Cmc.Containers
