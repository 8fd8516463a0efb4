import Mathlib.Data.List.Perm.Basic
import Mathlib.Data.List.Range

/-!
# Arrays

The elements of an `Array` are constructed in raw storage, one after the other, by a pointer
that moves on in `new(*i++)`: it is behind the cell when the element's constructor runs. Where
that throws, the handler goes back from the pointer to the first cell and destroys what it comes
to (`unwind`), so the cell whose constructor failed is among them.
-/

namespace Urnest.Xju.Array

variable {ε τ υ : Type}

/-- What is done to the cells, by their numbers -/
inductive Event where
  | constructed (cell : Nat)
  | destroyed (cell : Nat)
  deriving DecidableEq

/-- What an `Array` constructor throws: what an element's constructor has thrown, or an
`xju::Exception` of its own. -/
inductive Thrown (ε : Type) where
  | element (e : ε)
  | size (message : String)
  deriving DecidableEq

inductive Outcome (ε τ : Type) where
  | returned (elements : List τ)
  | threw (e : Thrown ε)
  /-- an exception gets out of a `noexcept` function -/
  | terminated
  deriving DecidableEq

structure Construction (ε τ : Type) where
  events : List Event
  outcome : Outcome ε τ
  deriving DecidableEq

/-- `throw xju::Exception` when the sizes differ. -/
def ArrayCheckEqual (n Size : Nat) : Except String Nat :=
  if n ≠ Size then
    .error (toString n ++ " elements cannot be placed in Array of size " ++ toString Size)
  else .ok n

/-! ## The loops -/

/-- The loop of all constructors from the cell `i` on, for what constructing each of the elements
that are left comes to: the events, and the elements, or what was thrown and where `i` is then. -/
def fill : List (Except ε τ) → Nat → List Event × Except (ε × Nat) (List τ)
  | [], _ => ([], .ok [])
  | .error e :: _, i => ([], .error (e, i + 1))
  | .ok x :: elements, i =>
    let (events, r) := fill elements (i + 1)
    (.constructed i :: events, r.map (x :: ·))

/-- `while(i!=&to[0]) (*--i)->~T();` -/
def unwind : Nat → List Event
  | 0 => []
  | i + 1 => .destroyed i :: unwind i

/-- The loop in the `try` block -/
def fillOrUnwind (elements : List (Except ε τ)) : Construction ε τ :=
  match fill elements 0 with
  | (events, .ok xs) => ⟨events, .returned xs⟩
  | (events, .error (e, i)) => ⟨events ++ unwind i, .threw (.element e)⟩

/-- The loop in a `noexcept` function -/
def fillOrTerminate (elements : List (Except ε τ)) : Construction ε τ :=
  match fill elements 0 with
  | (events, .ok xs) => ⟨events, .returned xs⟩
  | (events, .error _) => ⟨events, .terminated⟩

/-- The two specialisations -/
def ArrayCopyElements (noexcept_ : Bool) (elements : List (Except ε τ)) : Construction ε τ :=
  if noexcept_ then fillOrTerminate elements else fillOrUnwind elements

/-! ## The constructors -/

/-- A constructor of `Array`, with its arguments, what the element's constructor does when it is
called for each of the cells, and whether that is known not to throw. -/
inductive Constructor (ε τ υ : Type) (Size : Nat) where
  | default (noexcept_ : Bool) (T : Nat → Except ε τ)
  | init (noexcept_ : Bool) (T : Nat → τ → Except ε τ) (initialValueOfAllElements : τ)
  | ofList (T : Nat → υ → Except ε τ) (x : List υ)
  | copy (noexcept_ : Bool) (T : Nat → τ → Except ε τ) (b : Vector τ Size)
  | move (noexcept_ : Bool) (T : Nat → τ → Except ε τ) (b : Vector τ Size)

variable {Size : Nat}

namespace Constructor

/-- What constructing each of the elements comes to -/
def elements : Constructor ε τ υ Size → List (Except ε τ)
  | default _ T => (List.range Size).map T
  | init _ T initialValueOfAllElements =>
    (List.range Size).map fun i => T i initialValueOfAllElements
  | ofList T x => x.mapIdx T
  | copy _ T b | move _ T b => b.toList.mapIdx T

def run : Constructor ε τ υ Size → Construction ε τ
  | c@(ofList _ x) =>
    match ArrayCheckEqual x.length Size with
    | .error message => ⟨[], .threw (.size message)⟩
    | .ok _ => fillOrUnwind c.elements
  | c@(default noexcept_ _) | c@(init noexcept_ _ _) | c@(copy noexcept_ _ _)
  | c@(move noexcept_ _ _) => ArrayCopyElements noexcept_ c.elements

end Constructor

/-! ## What the loops do -/

def Event.constructed? : Event → Option Nat
  | constructed cell => some cell
  | destroyed _ => none

def Event.destroyed? : Event → Option Nat
  | constructed _ => none
  | destroyed cell => some cell

/-- The cells whose elements' constructors have returned -/
def Construction.constructed (c : Construction ε τ) : List Nat :=
  c.events.filterMap Event.constructed?

/-- The cells whose elements' destructors have run -/
def Construction.destroyed (c : Construction ε τ) : List Nat :=
  c.events.filterMap Event.destroyed?

/-- Either every element can be constructed, or there is a first that cannot. -/
theorem all_or_first (elements : List (Except ε τ)) :
    (∃ xs : List τ, elements = xs.map .ok) ∨
      ∃ (before : List τ) (e : ε) (after : List (Except ε τ)),
        elements = before.map .ok ++ .error e :: after := by
  induction elements with
  | nil => exact .inl ⟨[], rfl⟩
  | cons element elements ih =>
    cases element with
    | error e => exact .inr ⟨[], e, elements, rfl⟩
    | ok x =>
      obtain ⟨xs, rfl⟩ | ⟨before, e, after, rfl⟩ := ih
      · exact .inl ⟨x :: xs, rfl⟩
      · exact .inr ⟨x :: before, e, after, rfl⟩

theorem fill_ok (xs : List τ) (i : Nat) :
    fill (xs.map .ok : List (Except ε τ)) i
      = ((List.range' i xs.length).map .constructed, .ok xs) := by
  induction xs generalizing i with
  | nil => rfl
  | cons x xs ih =>
    rw [List.map_cons, fill, ih]
    rfl

theorem fill_error (before : List τ) (e : ε) (after : List (Except ε τ)) (i : Nat) :
    fill (before.map .ok ++ .error e :: after) i
      = ((List.range' i before.length).map .constructed, .error (e, i + before.length + 1)) := by
  induction before generalizing i with
  | nil => rfl
  | cons x before ih =>
    rw [List.map_cons, List.cons_append, fill, ih, List.length_cons, Nat.add_right_comm i]
    rfl

theorem constructed_map (cells : List Nat) :
    (cells.map Event.constructed).filterMap Event.constructed? = cells := by
  rw [List.filterMap_map]
  exact List.filterMap_some

theorem destroyed_map (cells : List Nat) :
    (cells.map Event.constructed).filterMap Event.destroyed? = [] := by
  rw [List.filterMap_map]
  exact List.filterMap_eq_nil_iff.mpr fun _ _ => rfl

theorem constructed_unwind (i : Nat) : (unwind i).filterMap Event.constructed? = [] := by
  induction i with
  | zero => rfl
  | succ i ih => exact ih

theorem length_destroyed_unwind (i : Nat) :
    ((unwind i).filterMap Event.destroyed?).length = i := by
  induction i with
  | zero => rfl
  | succ i ih => exact congrArg (· + 1) ih

/-- The loop gets to the end. -/
theorem fillOrUnwind_ok (xs : List τ) :
    fillOrUnwind (xs.map .ok : List (Except ε τ))
      = ⟨(List.range xs.length).map .constructed, .returned xs⟩ := by
  rw [fillOrUnwind, fill_ok, List.range_eq_range']

/-- The handler destroys one element more than were constructed: the one that failed. -/
theorem fillOrUnwind_error (before : List τ) (e : ε) (after : List (Except ε τ)) :
    fillOrUnwind (before.map .ok ++ .error e :: after)
      = ⟨(List.range before.length).map .constructed ++ unwind (before.length + 1),
        .threw (.element e)⟩ := by
  rw [fillOrUnwind, fill_error, Nat.zero_add, List.range_eq_range']

/-! ## Exception safety -/

/-- Either all elements are there, or the exception gets out that was thrown and as many elements
were destroyed as had been constructed, the same ones. -/
def ExceptionSafe (c : Constructor ε τ υ Size) : Prop :=
  match c.run.outcome with
  | .returned xs =>
    c.elements = xs.map .ok ∧ c.run.constructed = List.range Size ∧ c.run.destroyed = []
  | .threw (.element e) =>
    (∃ (before : List τ) (after : List (Except ε τ)),
      c.elements = before.map .ok ++ .error e :: after) ∧
      c.run.destroyed.Perm c.run.constructed
  | .threw (.size _) => c.run.events = []
  | .terminated => False

/-- The initializer list has another size than the array. -/
def Constructor.SizeDiffers : Constructor ε τ υ Size → Prop
  | ofList _ x => x.length ≠ Size
  | default .. | init .. | copy .. | move .. => False

/-- No element's constructor throws. -/
def Constructor.NoneThrows (c : Constructor ε τ υ Size) : Prop := ∀ e, .error e ∉ c.elements

theorem Constructor.length_elements {c : Constructor ε τ υ Size} (h : ¬c.SizeDiffers) :
    c.elements.length = Size := by
  cases c with
  | ofList T x => exact List.length_mapIdx.trans (not_not.mp h)
  | default _ T => exact (List.length_map ..).trans List.length_range
  | init _ T v => exact (List.length_map ..).trans List.length_range
  | copy _ T b | move _ T b => exact List.length_mapIdx.trans b.length_toList

theorem Constructor.run_of_sizeDiffers {c : Constructor ε τ υ Size} (h : c.SizeDiffers) :
    ∃ message, c.run = ⟨[], .threw (.size message)⟩ := by
  cases c with
  | ofList T x =>
    have hne : x.length ≠ Size := h
    exact ⟨_, by rw [run, ArrayCheckEqual, if_pos hne]⟩
  | default _ _ | init _ _ _ | copy _ _ _ | move _ _ _ => exact h.elim

theorem Constructor.run_of_not_sizeDiffers {c : Constructor ε τ υ Size} (h : ¬c.SizeDiffers) :
    c.run = fillOrUnwind c.elements ∨ c.run = fillOrTerminate c.elements := by
  cases c with
  | ofList T x =>
    have heq : ¬x.length ≠ Size := h
    exact .inl (by rw [run, ArrayCheckEqual, if_neg heq])
  | default noexcept_ _ | init noexcept_ _ _ | copy noexcept_ _ _ | move noexcept_ _ _ =>
    rw [run, ArrayCopyElements]
    split_ifs
    · exact .inr rfl
    · exact .inl rfl

/-- Constructing an array is exception safe if and only if nothing is thrown, but perhaps for the
size of an initializer list. -/
theorem exceptionSafe_iff (c : Constructor ε τ υ Size) :
    ExceptionSafe c ↔ c.SizeDiffers ∨ c.NoneThrows := by
  by_cases hsize : c.SizeDiffers
  · obtain ⟨message, hrun⟩ := Constructor.run_of_sizeDiffers hsize
    refine iff_of_true ?_ (.inl hsize)
    rw [ExceptionSafe, hrun]
  rw [or_iff_right hsize]
  have hlength := Constructor.length_elements hsize
  have hrun := Constructor.run_of_not_sizeDiffers hsize
  obtain ⟨xs, hxs⟩ | ⟨before, e, after, hfirst⟩ := all_or_first c.elements
  · -- both loops do the same as long as nothing is thrown
    have hdone : c.run = ⟨(List.range xs.length).map .constructed, .returned xs⟩ := by
      rw [hxs, fillOrUnwind_ok, fillOrTerminate, fill_ok, ← List.range_eq_range'] at hrun
      exact hrun.elim id id
    refine iff_of_true ?_ fun e he => ?_
    · rw [ExceptionSafe, hdone]
      rw [hxs, List.length_map] at hlength
      refine ⟨hxs, ?_, destroyed_map _⟩
      rw [← hlength]
      exact constructed_map _
    · rw [hxs] at he
      obtain ⟨x, -, hx⟩ := List.mem_map.mp he
      cases hx
  · have hthrows : ¬c.NoneThrows := fun h => h e (by simp [hfirst])
    refine iff_of_false ?_ hthrows
    rw [hfirst, fillOrUnwind_error, fillOrTerminate, fill_error] at hrun
    obtain hrun | hrun := hrun
    · rw [ExceptionSafe, hrun]
      rintro ⟨-, hperm⟩
      have hlen := hperm.length_eq
      rw [Construction.destroyed, Construction.constructed, List.filterMap_append,
        List.filterMap_append, constructed_map, destroyed_map, constructed_unwind,
        List.nil_append, List.append_nil, length_destroyed_unwind, List.length_range] at hlen
      exact absurd hlen (Nat.succ_ne_self _)
    · rw [ExceptionSafe, hrun]
      exact id

/-- Copy two elements, the second of which cannot be copied. -/
def copyThatThrows : Constructor String Nat Unit 2 :=
  .copy false (fun i x => if i = 1 then .error "second" else .ok x) #v[7, 8]

/-- The element that was not constructed is destroyed. -/
theorem copyThatThrows_not_exceptionSafe :
    copyThatThrows.run.events = [.constructed 0, .destroyed 1, .destroyed 0] ∧
      ¬ExceptionSafe copyThatThrows := by
  have hrun : copyThatThrows.run
      = ⟨[.constructed 0, .destroyed 1, .destroyed 0], .threw (.element "second")⟩ := by decide
  refine ⟨congrArg Construction.events hrun, ?_⟩
  rw [ExceptionSafe, hrun]
  rintro ⟨-, hperm⟩
  exact absurd hperm.length_eq (by decide)

end Urnest.Xju.Array
