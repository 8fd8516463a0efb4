import Urnest.Dion.Ids

/-!
# Nodes

A node is brought up to date by `update`, which brings its inputs up to date first, and starts a
job where its own state needs one. `jobsDone` brings the result of a job to the node that has
started it.

A node that is out of date and awaits nothing fails an assertion of `update`: the test for jobs
that are no longer in progress asks for some that were awaited. Nothing is ever awaited by a node
that has been awaiting nothing, so the first call of `update` that has something to do is the last
(`meets_iff`).
-/

namespace Urnest.Dion

abbrev Date := UInt64

/-- What `updateInputsAndState` throws to have a job started -/
structure Spec where
  deriving DecidableEq

structure Node where
  awaiting_ : Ids
  verifiedAt_ : Date
  calculatingAt_ : Option Date

/-- The constructor -/
def Node.make (awaiting : Ids) (verifiedAt : Date) : Node := ⟨awaiting, verifiedAt, .none⟩

/-- What a derived class has of its own, in states of type `δ`. It updates all of its inputs, and
throws the ids they await if there are any. -/
structure Derived (δ : Type) where
  /-- brings its own state up to date, or throws -/
  updateState : Date → δ → Option Spec × δ
  collectResultOfJob : Id → δ → δ

/-- A node with its inputs -/
inductive Tree (δ : Type) where
  | mk (node : Node) (own : δ) (inputs : List (Tree δ))

namespace Tree

variable {δ : Type}

def node : Tree δ → Node
  | .mk n _ _ => n

def inputs : Tree δ → List (Tree δ)
  | .mk _ _ inputs => inputs

end Tree

/-- An `Executor` with states of type `σ` -/
structure Executor (σ : Type) where
  executorNotBusyJob : Ids
  jobsInProgress : σ → Ids
  /-- none if it throws `executorNotBusyJob()` -/
  startJob : Date → Spec → σ → Option Id × σ

/-- The way from the root to a node -/
abbrev Path := List Nat

inductive Event where
  | started (path : Path) (j : Id)
  | collected (path : Path) (j : Id)
  deriving DecidableEq

/-- The executor, and what has happened to jobs -/
structure World (σ : Type) where
  executor : σ
  log : List Event

/-- What a call of `update` leaves when it does not fail: the ids it has thrown, if it has thrown
any, the tree, and the world -/
abbrev Updated (δ σ : Type) := Option Ids × Tree δ × World σ

variable {δ σ : Type} (E : Executor σ) (D : Derived δ)

/-- `update` after `updateInputsAndState` has updated the inputs, which await some ids -/
def updateSelf (now : Date) (path : Path) (n : Node) (own : δ) (inputs : List (Tree δ))
    (awaited : Ids) (w : World σ) : Except Failure (Updated δ σ) :=
  if awaited ≠ Ids.none then
    .ok (some awaited, .mk { n with awaiting_ := awaited } own inputs, w)
  else
    match D.updateState now own with
    | (none, own) =>
      .ok (none, .mk { n with awaiting_ := Ids.none, verifiedAt_ := now } own inputs, w)
    | (some s, own) =>
      match E.startJob now s w.executor with
      | (none, executor) =>
        .ok (some E.executorNotBusyJob, .mk { n with awaiting_ := E.executorNotBusyJob } own inputs,
          { w with executor := executor })
      | (some i, executor) => do
        let j ← Ids.ofId i
        let j ← Ids.some j
        return (some j, .mk { n with calculatingAt_ := some now, awaiting_ := j } own inputs,
          ⟨executor, w.log ++ [.started path i]⟩)

mutual

/-- `Node::update`, of the node at the end of a path -/
def update (now : Date) (path : Path) : Tree δ → World σ → Except Failure (Updated δ σ)
  | .mk n own inputs, w =>
    if n.verifiedAt_ < now then
      if n.calculatingAt_.isSome then .error .assertFailed
      else
        let noLongerInProgress := n.awaiting_.remove (E.jobsInProgress w.executor)
        if noLongerInProgress ≠ Ids.none then do
          let (awaited, inputs, w) ← updateInputs now path 0 inputs w
          updateSelf E D now path n own inputs awaited w
        else if n.awaiting_ = Ids.none then .error .assertFailed
        else .ok (some n.awaiting_, .mk n own inputs, w)
    else .ok (none, .mk n own inputs, w)

/-- Each input is updated, also after one that throws. -/
def updateInputs (now : Date) (path : Path) :
    Nat → List (Tree δ) → World σ → Except Failure (Ids × List (Tree δ) × World σ)
  | _, [], w => .ok (Ids.none, [], w)
  | k, t :: rest, w => do
    let (thrown, t, w) ← update now (path ++ [k]) t w
    let (awaited, rest, w) ← updateInputs now path (k + 1) rest w
    return ((thrown.getD Ids.none).union awaited, t :: rest, w)

end

mutual

/-- `Node::jobsDone`, of the node at the end of a path -/
def jobsDone (j : Ids) (path : Path) : Tree δ → World σ → Except Failure (Tree δ × World σ)
  | .mk n own inputs, w =>
    let relevant := n.awaiting_.inter j
    if relevant ≠ Ids.none then
      let awaiting := n.awaiting_.remove relevant
      match n.calculatingAt_ with
      | some calculatingAt =>
        if awaiting ≠ Ids.none then .error .assertFailed
        else do
          let i ← relevant.onlyJob
          return (.mk ⟨awaiting, calculatingAt, none⟩ (D.collectResultOfJob i own) inputs,
            { w with log := w.log ++ [.collected path i] })
      | none => do
        let (inputs, w) ← tellInputsThatJobsAreDone relevant path 0 inputs w
        return (.mk { n with awaiting_ := awaiting.add E.executorNotBusyJob } own inputs, w)
    else .ok (.mk n own inputs, w)

def tellInputsThatJobsAreDone (js : Ids) (path : Path) :
    Nat → List (Tree δ) → World σ → Except Failure (List (Tree δ) × World σ)
  | _, [], w => .ok ([], w)
  | k, t :: rest, w => do
    let (t, w) ← jobsDone js (path ++ [k]) t w
    let (rest, w) ← tellInputsThatJobsAreDone js path (k + 1) rest w
    return (t :: rest, w)

end

/-! ## Runs -/

/-- What happens to a tree -/
inductive Call (σ : Type) where
  | update (now : Date)
  | jobsDone (j : Ids)
  /-- the executor goes on by itself -/
  | executor (s : σ)

def step : Call σ → Tree δ × World σ → Except Failure (Tree δ × World σ)
  | .update now, (t, w) => do
    let (_, t, w) ← update E D now [] t w
    return (t, w)
  | .jobsDone j, (t, w) => jobsDone E D j [] t w
  | .executor s, (t, w) => .ok (t, { w with executor := s })

/-! ## What is expected of them -/

/-- The jobs that have been started and not collected, with the nodes that have started them -/
def outstanding : List Event → List (Path × Id)
  | [] => []
  | .started path j :: rest => outstanding rest ++ [(path, j)]
  | .collected path j :: rest => (outstanding rest).erase (path, j)

/-- `awaiting()` holds ids of jobs started in the subtree, and that of `executorNotBusyJob()`. -/
inductive Awaits (w : World σ) : Path → Tree δ → Prop where
  | mk {path : Path} {n : Node} {own : δ} {inputs : List (Tree δ)}
      (hawaiting : ∀ j, n.awaiting_.mem j = true → E.executorNotBusyJob.mem j = true ∨
        ∃ below, (path ++ below, j) ∈ outstanding w.log.reverse)
      (hinputs : ∀ k t, inputs[k]? = some t → Awaits w (path ++ [k]) t) :
      Awaits w path (.mk n own inputs)

/-- What a call must do -/
def CallMeets : Call σ → Tree δ × World σ → Prop
  | .update now, (t, w) => ∃ thrown t' w', update E D now [] t w = .ok (thrown, t', w') ∧
      (thrown = none → t'.node.awaiting_ = Ids.none ∧ now ≤ t'.node.verifiedAt_) ∧
      (∀ awaited, thrown = some awaited →
        awaited = t'.node.awaiting_ ∧ t'.node.awaiting_ ≠ Ids.none) ∧
      ∃ events, w'.log = w.log ++ events ∧ ∀ e ∈ events, ∃ path j, e = .started path j
  | .jobsDone js, (t, w) => ∃ t' w', jobsDone E D js [] t w = .ok (t', w') ∧
      ∃ events, w'.log = w.log ++ events ∧
        events.Perm (((outstanding w.log.reverse).filter fun x => js.mem x.2).map
          fun x => .collected x.1 x.2)
  | .executor _, _ => True

/-- No assertion fails in a run, each call does what it must, and at any time nodes await nothing
else than they should. -/
def Meets : List (Call σ) → Tree δ × World σ → Prop
  | [], s => Awaits E s.2 [] s.1
  | c :: rest, s => Awaits E s.2 [] s.1 ∧ CallMeets E D c s ∧
      ∀ s', step E D c s = .ok s' → Meets rest s'

/-- Nodes that have just been made, awaiting nothing -/
inductive Initial : Tree δ → Prop where
  | mk {verifiedAt : Date} {own : δ} {inputs : List (Tree δ)}
      (hinputs : ∀ t ∈ inputs, Initial t) :
      Initial (.mk (.make Ids.none verifiedAt) own inputs)

variable {E D}

theorem Initial.awaits {t : Tree δ} (h : Initial t) (w : World σ) (path : Path) :
    Awaits E w path t := by
  induction h generalizing path with
  | mk hinputs ih =>
    refine .mk ?_ ?_
    · intro j hj
      rw [Node.make, Ids.mem_none] at hj
      cases hj
    · intro k t ht
      exact ih t (List.mem_of_getElem? ht) _

/-- A node that is up to date stays as it is. -/
theorem Initial.update_of_le {t : Tree δ} (h : Initial t) {now : Date}
    (hnow : now ≤ t.node.verifiedAt_) (path : Path) (w : World σ) :
    update E D now path t w = .ok (none, t, w) := by
  cases h with
  | mk hinputs =>
    rw [update]
    exact if_neg (UInt64.not_lt.mpr hnow)

/-- One that is not, and awaits nothing, fails. -/
theorem Initial.update_of_lt {t : Tree δ} (h : Initial t) {now : Date}
    (hnow : t.node.verifiedAt_ < now) (path : Path) (w : World σ) :
    update E D now path t w = .error .assertFailed := by
  cases h with
  | mk hinputs =>
    rw [update]
    refine (if_pos hnow).trans ?_
    simp [Node.make]

theorem Initial.jobsDone {t : Tree δ} (h : Initial t) (j : Ids) (path : Path) (w : World σ) :
    jobsDone E D j path t w = .ok (t, w) := by
  cases h with
  | mk hinputs =>
    rw [Dion.jobsDone]
    simp [Node.make]

/-- A run of a tree of new nodes does what it must when no call of `update` has anything to do, and
only then. -/
theorem meets_iff (E : Executor σ) (D : Derived δ) {t : Tree δ} (h : Initial t) (executor : σ)
    (calls : List (Call σ)) :
    Meets E D calls (t, ⟨executor, []⟩) ↔
      ∀ now, Call.update now ∈ calls → now ≤ t.node.verifiedAt_ := by
  induction calls generalizing executor with
  | nil =>
    refine ⟨fun _ now hnow => ?_, fun _ => h.awaits _ _⟩
    cases hnow
  | cons c rest ih =>
    rw [Meets]
    cases c with
    | update now =>
      refine ⟨?_, ?_⟩
      · rintro ⟨-, ⟨thrown, t', w', hupdate, -⟩, hrest⟩
        -- had the call something to do, it would fail
        have hnow : now ≤ t.node.verifiedAt_ := by
          by_contra hlt
          rw [h.update_of_lt (UInt64.not_le.mp hlt)] at hupdate
          cases hupdate
        have hstep : step E D (.update now) (t, ⟨executor, []⟩) = .ok (t, ⟨executor, []⟩) := by
          rw [step, h.update_of_le hnow]
          rfl
        intro now' hmem
        cases hmem with
        | head => exact hnow
        | tail _ hmem => exact (ih executor).mp (hrest _ hstep) now' hmem
      · intro hall
        have hupdate := h.update_of_le (E := E) (D := D) (hall now (.head _)) [] ⟨executor, []⟩
        refine ⟨h.awaits _ _, ⟨none, t, _, hupdate, ?_, ?_, [], rfl, ?_⟩, ?_⟩
        · intro _
          refine ⟨?_, hall now (.head _)⟩
          cases h with
          | mk hinputs => rfl
        · exact fun _ h => nomatch h
        · exact fun _ h => nomatch h
        · intro s' hstep
          rw [step, hupdate] at hstep
          cases hstep
          exact (ih executor).mpr fun now' hmem => hall now' (.tail _ hmem)
    | jobsDone j =>
      have hdone := h.jobsDone (E := E) (D := D) j [] ⟨executor, []⟩
      have hmem : (∀ now, Call.update now ∈ Call.jobsDone j :: rest → now ≤ t.node.verifiedAt_) ↔
          ∀ now, Call.update now ∈ rest → now ≤ t.node.verifiedAt_ := by simp
      rw [hmem, ← ih executor]
      refine ⟨fun hall => hall.2.2 _ hdone, fun hrest => ⟨h.awaits _ _, ?_, ?_⟩⟩
      · exact ⟨t, _, hdone, [], rfl, .refl _⟩
      · intro s' hstep
        rw [step, hdone] at hstep
        cases hstep
        exact hrest
    | executor s =>
      have hmem : (∀ now, Call.update now ∈ Call.executor s :: rest → now ≤ t.node.verifiedAt_) ↔
          ∀ now, Call.update now ∈ rest → now ≤ t.node.verifiedAt_ := by simp
      rw [hmem, ← ih s]
      refine ⟨fun hall => hall.2.2 _ rfl, fun hrest => ⟨h.awaits _ _, trivial, ?_⟩⟩
      intro s' hstep
      cases hstep
      exact hrest

/-- An executor that always starts job 1, and whose `executorNotBusyJob` is 0 -/
def idle : Executor Unit := ⟨⟨1⟩, fun _ => Ids.none, fun _ _ s => (some 1, s)⟩

/-- A derived class that needs no jobs -/
def jobless : Derived Unit := ⟨fun _ s => (none, s), fun _ s => s⟩

theorem meets_iff_upToDate :
    Initial (.mk (.make Ids.none 1) () []) ∧
      Meets idle jobless [.update 1, .jobsDone ⟨2⟩, .update 1]
        (.mk (.make Ids.none 1) () [], ⟨(), []⟩) := by
  have h : Initial (.mk (.make Ids.none 1) () []) := .mk fun _ h => nomatch h
  exact ⟨h, (meets_iff idle jobless h () _).mpr (by simp [Tree.node, Node.make])⟩

/-- A new node with no inputs, verified at 0, is asked to be up to date at 1. -/
theorem update_aborts :
    Initial (.mk (.make Ids.none 0) () []) ∧
      update idle jobless 1 [] (.mk (.make Ids.none 0) () []) ⟨(), []⟩ = .error .assertFailed ∧
      ¬ Meets idle jobless [.update 1] (.mk (.make Ids.none 0) () [], ⟨(), []⟩) := by
  have hinitial : Initial (.mk (.make Ids.none 0) () []) := .mk fun _ h => nomatch h
  have hfails := hinitial.update_of_lt (E := idle) (D := jobless)
    (by decide : (0 : Date) < 1) [] ⟨(), []⟩
  refine ⟨hinitial, hfails, ?_⟩
  rintro ⟨-, ⟨thrown, t, w, hupdate, -⟩, -⟩
  rw [hfails] at hupdate
  cases hupdate

end Urnest.Dion
