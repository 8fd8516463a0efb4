import Mathlib.Data.UInt
import Mathlib.Data.List.Basic

/-!
# Sets of job ids

A set of ids is a word with a bit for each. `1 << x` is a shift of an `int`: from 32 it is
undefined, and 31 gives a negative number, which fills the upper half of the word.
-/

namespace Urnest.Dion

/-- Why a call does not go on -/
inductive Failure where
  | assertFailed
  | undefined
  deriving DecidableEq

abbrev Id := UInt32

structure Ids where
  value_ : UInt64
  deriving DecidableEq

namespace Ids

/-- `Ids()` -/
def none : Ids := ⟨0⟩

def maxId_ : Id := 63

/-- `Ids(x)`. The word is made before the bound is checked. -/
def ofId (x : Id) : Except Failure Ids :=
  if 32 ≤ x then .error .undefined
  else if x = 31 then .ok ⟨0xffffffff80000000⟩
  else if x ≤ maxId_ then .ok ⟨1 <<< x.toUInt64⟩
  else .error .assertFailed

def onlyJobLoop : Nat → Id → UInt64 → Except Failure Id
  | 0, _, _ => .error .assertFailed
  | fuel + 1, i, value =>
    if i ≤ maxId_ then
      if value &&& 1 ≠ 0 then if value = 1 then .ok i else .error .assertFailed
      else onlyJobLoop fuel (i + 1) (value >>> 1)
    else .error .assertFailed

/-- At most 64 turns, and then `assert_never_reached` -/
def onlyJob (x : Ids) : Except Failure Id := onlyJobLoop (maxId_.toNat + 1) 0 x.value_

def remove (x y : Ids) : Ids := ⟨x.value_ &&& ~~~y.value_⟩

/-- A sum: a bit that is there already carries into the next. -/
def add (x y : Ids) : Ids := ⟨x.value_ + y.value_⟩

def union (a b : Ids) : Ids := ⟨a.value_ ||| b.value_⟩

def inter (a b : Ids) : Ids := ⟨a.value_ &&& b.value_⟩

/-- Whether an id is in the set -/
def mem (i : Id) (x : Ids) : Bool := (x.value_ >>> i.toUInt64) &&& 1 == 1 && i ≤ maxId_

@[simp] theorem none_remove (x : Ids) : none.remove x = none := by
  simp [none, remove]

@[simp] theorem none_inter (x : Ids) : none.inter x = none := by
  simp [none, inter]

theorem mem_none (i : Id) : none.mem i = false := by
  simp [mem, none]

/-- `SomeIds(x)` -/
def some (x : Ids) : Except Failure Ids := if x = none then .error .assertFailed else .ok x

end Ids

end Urnest.Dion
