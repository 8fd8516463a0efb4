import Mathlib.Data.List.Basic
import Mathlib.Data.UInt
import Mathlib.Tactic.Common

/-!
# Lists that notify

An iterator into a `NotifyingList` is the number of the element that it points to, or `none`
where it is `end()`. What the list tells its observers is kept in a log, each event with the
elements that were in the list when it fired.

The inserts of `n` copies and of a range run off their end without a `return`
(`Outcome.flowsOff`). What they have done by then is what the loops have done: the range is
inserted as it should be, but `n` is counted up, to where it wraps (`copies`).
-/

namespace Urnest.Xju.NotifyingList

variable {α : Type}

/-! ## The list -/

/-- An element, and which one it is -/
structure Item (α : Type) where
  id : Nat
  value : α
  deriving DecidableEq

/-- An iterator -/
abbrev Position := Option Nat

inductive Event where
  | newPredecessor (item : Nat)
  | addedAtEnd
  | removing (item : Nat)
  deriving DecidableEq

structure State (α : Type) where
  m_items : List (Item α)
  /-- how many elements there have been -/
  items : Nat
  /-- the events, and the elements when they fired -/
  log : List (Event × List (Item α))

def State.empty : State α := ⟨[], 0, []⟩

/-- `std::list::insert` -/
def insertBefore (position : Position) (x : Item α) : List (Item α) → List (Item α)
  | [] => [x]
  | y :: ys => if position = some y.id then x :: y :: ys else y :: insertBefore position x ys

/-- `std::list::erase` -/
def eraseItem (item : Nat) (m_items : List (Item α)) : List (Item α) :=
  m_items.eraseP fun x => x.id = item

/-- What an iterator points to after `++`. -/
def next (item : Nat) : List (Item α) → Position
  | [] => none
  | x :: xs => if x.id = item then (xs.head?).map Item.id else next item xs

/-- `newPredecessor` of a position -/
def newPredecessor : Position → Event
  | none => .addedAtEnd
  | some item => .newPredecessor item

namespace State

variable (s : State α)

def insert (position : Position) (x : α) : State α :=
  let m_items := insertBefore position ⟨s.items, x⟩ s.m_items
  ⟨m_items, s.items + 1, s.log ++ [(newPredecessor position, m_items)]⟩

end State

/-- How many elements the insert of `n` copies inserts. -/
def copies (n : UInt64) : Nat := if n = 0 then 0 else 2 ^ 64 - n.toNat

theorem copies_of_ne_zero {n : UInt64} (h : n ≠ 0) : copies n = copies (n + 1) + 1 := by
  have hlt := n.toNat_lt
  have hpos : n.toNat ≠ 0 := fun hzero => h (UInt64.toNat_inj.mp hzero)
  have hnext : (n + 1).toNat = (n.toNat + 1) % 2 ^ 64 := UInt64.toNat_add n 1
  have hwraps : n + 1 = 0 ↔ (n.toNat + 1) % 2 ^ 64 = 0 := by
    rw [← hnext]
    exact UInt64.toNat_inj.symm
  rw [copies, copies, if_neg h, hnext]
  split_ifs with hzero
  · have := hwraps.mp hzero
    omega
  · have := mt hwraps.mpr hzero
    omega

namespace State

variable (s : State α)

/-- The loop of the insert of `n` copies, with a `size_type` of 64 bits -/
def insertCopies (s : State α) (position : Position) (n : UInt64) (x : α) : State α :=
  if n = 0 then s else insertCopies (s.insert position x) position (n + 1) x
termination_by copies n
decreasing_by
  exact (copies_of_ne_zero ‹¬n = 0›).symm ▸ Nat.lt_succ_self _

/-- The loop of the insert of a range, for the values in the range -/
def insertRange (s : State α) (position : Position) : List α → State α
  | [] => s
  | x :: xs => insertRange (s.insert position x) position xs

def erase (item : Nat) : State α :=
  { s with m_items := eraseItem item s.m_items
           log := s.log ++ [(.removing item, s.m_items)] }

/-- The loop of the erase of a range. There is no result where the range has no end. -/
def eraseRange (s : State α) (first last : Position) : Option (State α) :=
  if first = last then some s
  else
    match first with
    | none => none
    | some item =>
      if _h : ∃ x ∈ s.m_items, x.id = item then
        eraseRange (s.erase item) (next item s.m_items) last
      else none
termination_by s.m_items.length
decreasing_by
  obtain ⟨x, hx, hid⟩ := _h
  change (eraseItem item s.m_items).length < _
  rw [eraseItem, List.length_eraseP_of_mem hx (by simpa using hid)]
  exact Nat.sub_one_lt_of_lt (List.length_pos_of_mem hx)

end State

/-! ## Calls -/

inductive Call (α : Type) where
  | insert (position : Position) (x : α)
  | insertCopies (position : Position) (n : UInt64) (x : α)
  | insertRange (position : Position) (values : List α)
  | erase (position : Nat)
  | eraseRange (first last : Position)

inductive Outcome (α : Type) where
  | returned (s : State α) (result : Option Position)
  /-- the end of a function is reached that is to return an iterator: undefined behaviour -/
  | flowsOff (s : State α)
  /-- an iterator is used that points to nothing -/
  | undefined

def State.run (s : State α) : Call α → Outcome α
  | .insert position x => .returned (s.insert position x) (some (some s.items))
  | .insertCopies position n x => .flowsOff (s.insertCopies position n x)
  | .insertRange position values => .flowsOff (s.insertRange position values)
  | .erase position => .returned (s.erase position) none
  | .eraseRange first last =>
    match s.eraseRange first last with
    | some s => .returned s none
    | none => .undefined

/-- The position is where the one part of the elements ends and the other begins. -/
def Splits (position : Position) (m_items before after : List (Item α)) : Prop :=
  m_items = before ++ after ∧ position = after.head?.map Item.id

/-- The iterators point into the list, and a range is one. -/
def Call.Valid (m_items : List (Item α)) : Call α → Prop
  | insert position _ | insertCopies position _ _ | insertRange position _ =>
    ∃ before after, Splits position m_items before after
  | erase position => ∃ x ∈ m_items, x.id = position
  | eraseRange first last => ∃ before range after,
    Splits first m_items before (range ++ after) ∧ Splits last m_items (before ++ range) after

/-- What sequences of calls that return lead to from an empty list. -/
inductive Reached : State α → Prop where
  | empty : Reached .empty
  | call {s s' : State α} {call : Call α} {result : Option Position} :
    Reached s → call.Valid s.m_items → s.run call = .returned s' result → Reached s'

/-! ## Observers -/

/-- What comes before an element -/
def predecessor (item : Nat) : List (Item α) → Option (Item α)
  | x :: y :: ys => if y.id = item then some x else predecessor item (y :: ys)
  | _ => none

/-- What an observer makes of an event: it looks up which element is new. -/
def observe (view : List (Item α)) : Event × List (Item α) → List (Item α)
  | (.addedAtEnd, m_items) => view ++ m_items.getLast?.toList
  | (.newPredecessor item, m_items) =>
    match predecessor item m_items with
    | some x => insertBefore (some item) x view
    | none => view
  | (.removing item, _) => view.filter fun x => x.id ≠ item

/-- The elements as an observer knows them from the events -/
def observed (log : List (Event × List (Item α))) : List (Item α) := log.foldl observe []

/-- The new elements for values -/
def newItems (items : Nat) (values : List α) : List (Item α) :=
  values.mapIdx fun i x => ⟨items + i, x⟩

/-- Values have been inserted in order, each with one event when it was in. -/
structure Inserted (s : State α) (position : Position) (values : List α) (s' : State α) : Prop where
  m_items : ∀ before after, Splits position s.m_items before after →
    s'.m_items = before ++ newItems s.items values ++ after
  events : s'.log.map Prod.fst
    = s.log.map Prod.fst ++ List.replicate values.length (newPredecessor position)
  observed : observed s'.log = s'.m_items

/-- The elements of a range have gone in order, each with one event before it went. -/
structure Erased (s : State α) (first last : Position) (s' : State α) : Prop where
  m_items : ∀ before range after, Splits first s.m_items before (range ++ after) →
    Splits last s.m_items (before ++ range) after → s'.m_items = before ++ after ∧
      s'.log.map Prod.fst = s.log.map Prod.fst ++ range.map fun x => .removing x.id
  observed : observed s'.log = s'.m_items

/-- The call returns, with what `std::list` returns, has its effect, and observers see it. -/
def Faithful (s : State α) (call : Call α) : Prop :=
  match call, s.run call with
  | .insert position x, .returned s' result =>
    Inserted s position [x] s' ∧ result = some (some s.items)
  | .insertCopies position n x, .returned s' _ =>
    Inserted s position (List.replicate n.toNat x) s'
  | .insertRange position values, .returned s' _ => Inserted s position values s'
  | .erase position, .returned s' result =>
    Erased s (some position) (next position s.m_items) s' ∧ result = none
  | .eraseRange first last, .returned s' result => Erased s first last s' ∧ result = none
  | _, .flowsOff _ | _, .undefined => False

/-- One element is inserted, or something is erased. -/
def Call.Returns : Call α → Prop
  | insert .. | erase _ | eraseRange .. => True
  | insertCopies .. | insertRange .. => False

/-! ## Where elements are -/

/-- The elements are numbered by when they came, and observers know them. -/
structure Sound (s : State α) : Prop where
  nodup : (s.m_items.map Item.id).Nodup
  lt_items : ∀ x ∈ s.m_items, x.id < s.items
  observed : observed s.log = s.m_items

theorem insertBefore_append {position : Position} {before after : List (Item α)} (x : Item α)
    (hposition : position = after.head?.map Item.id)
    (hnodup : ((before ++ after).map Item.id).Nodup) :
    insertBefore position x (before ++ after) = before ++ x :: after := by
  induction before with
  | nil =>
    cases after with
    | nil => rfl
    | cons y ys => exact if_pos hposition
  | cons y ys ih =>
    obtain ⟨hy, hnodup⟩ := List.nodup_cons.mp hnodup
    have hne : position ≠ some y.id := by
      rintro rfl
      obtain ⟨z, hz, hid⟩ := Option.map_eq_some_iff.mp hposition.symm
      rw [← hid] at hy
      exact hy (List.mem_map_of_mem (List.mem_append_right _ (List.mem_of_mem_head? hz)))
    rw [List.cons_append, insertBefore, if_neg hne, ih hnodup, List.cons_append]

theorem predecessor_append {before after : List (Item α)} {x y : Item α}
    (hnodup : ((before ++ x :: y :: after).map Item.id).Nodup) :
    predecessor y.id (before ++ x :: y :: after) = some x := by
  induction before with
  | nil => exact if_pos rfl
  | cons z before ih =>
    obtain ⟨-, hnodup⟩ := List.nodup_cons.mp hnodup
    rw [← ih hnodup]
    cases before with
    | nil =>
      have hne : x.id ≠ y.id := by
        intro heq
        exact (List.nodup_cons.mp hnodup).1 (heq ▸ List.mem_cons_self)
      exact if_neg hne
    | cons w before =>
      have hne : w.id ≠ y.id := by
        intro heq
        refine (List.nodup_cons.mp hnodup).1 (heq ▸ ?_)
        exact List.mem_map_of_mem (by simp)
      exact if_neg hne

theorem eraseItem_append {before after : List (Item α)} {x : Item α}
    (hnodup : ((before ++ x :: after).map Item.id).Nodup) :
    eraseItem x.id (before ++ x :: after) = before ++ after ∧
      (before ++ x :: after).filter (fun y => y.id ≠ x.id) = before ++ after := by
  have hperm : (before ++ x :: after).Perm (x :: (before ++ after)) := List.perm_middle
  have hx := (List.nodup_cons.mp ((hperm.map Item.id).nodup_iff.mp hnodup)).1
  have hne : ∀ y ∈ before ++ after, y.id ≠ x.id := fun y hy heq =>
    hx (heq ▸ List.mem_map_of_mem hy)
  constructor
  · rw [eraseItem, List.eraseP_append_right _ fun y hy => by
      simpa using hne y (List.mem_append_left _ hy), List.eraseP_cons_of_pos (by simp)]
  · rw [List.filter_append, List.filter_cons_of_neg (by simp), ← List.filter_append]
    exact List.filter_eq_self.mpr fun y hy => decide_eq_true (hne y hy)

theorem next_append {before after : List (Item α)} {x : Item α}
    (hnodup : ((before ++ x :: after).map Item.id).Nodup) :
    next x.id (before ++ x :: after) = after.head?.map Item.id := by
  induction before with
  | nil => exact if_pos rfl
  | cons y before ih =>
    obtain ⟨hy, hnodup⟩ := List.nodup_cons.mp hnodup
    have hne : y.id ≠ x.id := fun heq => hy (heq ▸ List.mem_map_of_mem (by simp))
    rw [List.cons_append, next, if_neg hne, ih hnodup]

/-- Before a position there are the elements that it does not point to. -/
theorem Splits.eq_takeWhile {position : Position} {m_items before after : List (Item α)}
    (hnodup : (m_items.map Item.id).Nodup) (h : Splits position m_items before after) :
    before = m_items.takeWhile fun y => position ≠ some y.id := by
  obtain ⟨rfl, rfl⟩ := h
  have hbefore : ∀ y ∈ before, after.head?.map Item.id ≠ some y.id := by
    intro y hy heq
    obtain ⟨z, hz, hid⟩ := Option.map_eq_some_iff.mp heq
    rw [List.map_append, List.nodup_append] at hnodup
    refine hnodup.2.2 y.id (List.mem_map_of_mem hy) z.id ?_ hid.symm
    exact List.mem_map_of_mem (List.mem_of_mem_head? hz)
  rw [List.takeWhile_append_of_pos fun y hy => decide_eq_true (hbefore y hy)]
  cases after with
  | nil => exact (List.append_nil _).symm
  | cons z after => rw [List.takeWhile_cons_of_neg (by simp), List.append_nil]

theorem Splits.unique {position : Position} {m_items before after before' after' : List (Item α)}
    (hnodup : (m_items.map Item.id).Nodup) (h : Splits position m_items before after)
    (h' : Splits position m_items before' after') : before = before' ∧ after = after' := by
  have heq : before = before' := (h.eq_takeWhile hnodup).trans (h'.eq_takeWhile hnodup).symm
  exact ⟨heq, List.append_cancel_left ((h.1.symm.trans h'.1).trans (by rw [heq]))⟩

/-! ## What the calls do -/

theorem observed_append (log : List (Event × List (Item α))) (e : Event × List (Item α)) :
    observed (log ++ [e]) = observe (observed log) e := List.foldl_concat ..

theorem newItems_cons (items : Nat) (x : α) (values : List α) :
    newItems items (x :: values) = ⟨items, x⟩ :: newItems (items + 1) values := by
  rw [newItems, List.mapIdx_cons, newItems]
  refine congrArg _ (congrArg (List.mapIdx · values) ?_)
  funext i x
  rw [Nat.add_right_comm, Nat.add_assoc]

theorem Sound.empty : Sound (State.empty : State α) := ⟨.nil, List.forall_mem_nil _, rfl⟩

namespace Sound

variable {s : State α} {position : Position} {before after : List (Item α)}

theorem m_items_insert (h : Sound s) (hsplits : Splits position s.m_items before after) (x : α) :
    (s.insert position x).m_items = before ++ ⟨s.items, x⟩ :: after := by
  obtain ⟨heq, hposition⟩ := hsplits
  have hnodup := h.nodup
  rw [heq] at hnodup
  change insertBefore position _ s.m_items = _
  rw [heq, insertBefore_append _ hposition hnodup]

theorem insert (h : Sound s) (hsplits : Splits position s.m_items before after) (x : α) :
    Sound (s.insert position x) := by
  have hm_items := h.m_items_insert hsplits x
  obtain ⟨heq, hposition⟩ := hsplits
  have hold := h.nodup
  have hlt := h.lt_items
  have hperm : (before ++ ⟨s.items, x⟩ :: after).Perm (⟨s.items, x⟩ :: s.m_items) := by
    rw [heq]
    exact List.perm_middle
  have hnew : s.items ∉ s.m_items.map Item.id := by
    intro hmem
    obtain ⟨y, hy, hid⟩ := List.mem_map.mp hmem
    exact (hlt y hy).ne hid
  have hnodup : ((before ++ ⟨s.items, x⟩ :: after).map Item.id).Nodup :=
    (hperm.map Item.id).nodup_iff.mpr (List.nodup_cons.mpr ⟨hnew, hold⟩)
  refine ⟨hm_items ▸ hnodup, fun y hy => ?_, ?_⟩
  · rw [hm_items] at hy
    obtain rfl | hy := List.mem_cons.mp (hperm.mem_iff.mp hy)
    · exact Nat.lt_succ_self _
    · exact (hlt y hy).trans (Nat.lt_succ_self _)
  · change NotifyingList.observed (s.log ++ [(_, (s.insert position x).m_items)]) = _
    rw [observed_append, h.observed, hm_items]
    cases after with
    | nil =>
      subst hposition
      rw [heq, List.append_nil]
      exact congrArg (before ++ ·) (by rw [List.getLast?_concat]; rfl)
    | cons y after =>
      subst hposition
      change (match predecessor y.id (before ++ ⟨s.items, x⟩ :: y :: after) with
        | some x => insertBefore (some y.id) x s.m_items
        | none => s.m_items) = _
      rw [predecessor_append hnodup, heq]
      rw [heq] at hold
      exact insertBefore_append _ rfl hold

theorem m_items_erase {x : Item α} (h : Sound s) (heq : s.m_items = before ++ x :: after) :
    (s.erase x.id).m_items = before ++ after := by
  have hnodup := h.nodup
  rw [heq] at hnodup
  change eraseItem x.id s.m_items = _
  rw [heq]
  exact (eraseItem_append hnodup).1

theorem erase {x : Item α} (h : Sound s) (heq : s.m_items = before ++ x :: after) :
    Sound (s.erase x.id) := by
  have hm_items := h.m_items_erase heq
  have hnodup := h.nodup
  have hsub : (before ++ after).Sublist s.m_items := by
    rw [heq]
    exact (List.sublist_cons_self x after).append_left before
  refine ⟨?_, ?_, ?_⟩
  · rw [hm_items]
    exact hnodup.sublist (hsub.map Item.id)
  · rw [hm_items]
    exact fun y hy => h.lt_items y (hsub.subset hy)
  · rw [heq] at hnodup
    change NotifyingList.observed (s.log ++ [(_, s.m_items)]) = _
    rw [observed_append, h.observed, hm_items, heq]
    exact (eraseItem_append hnodup).2

theorem insertRange (h : Sound s) (hsplits : Splits position s.m_items before after)
    (values : List α) : Sound (s.insertRange position values) ∧
      (s.insertRange position values).m_items = before ++ newItems s.items values ++ after ∧
      (s.insertRange position values).log.map Prod.fst
        = s.log.map Prod.fst ++ List.replicate values.length (newPredecessor position) := by
  induction values generalizing s before with
  | nil =>
    refine ⟨h, ?_, (List.append_nil _).symm⟩
    rw [newItems, List.mapIdx_nil, List.append_nil]
    exact hsplits.1
  | cons x values ih =>
    have hm_items := h.m_items_insert hsplits x
    have hsplits' : Splits position (s.insert position x).m_items
        (before ++ [⟨s.items, x⟩]) after := by
      refine ⟨?_, hsplits.2⟩
      rw [hm_items, List.append_assoc, List.singleton_append]
    obtain ⟨hsound, hitems, hevents⟩ := ih (h.insert hsplits x) hsplits'
    refine ⟨hsound, ?_, ?_⟩
    · rw [newItems_cons, List.append_cons before]
      exact hitems
    · rw [List.length_cons, List.replicate_succ, List.append_cons]
      refine hevents.trans (congrArg (· ++ _) ?_)
      exact List.map_append

theorem eraseRange {first last : Position} {range : List (Item α)} (h : Sound s)
    (hfirst : Splits first s.m_items before (range ++ after))
    (hlast : Splits last s.m_items (before ++ range) after) :
    ∃ s', s.eraseRange first last = some s' ∧ Sound s' ∧ s'.m_items = before ++ after ∧
      s'.log.map Prod.fst = s.log.map Prod.fst ++ range.map fun x => .removing x.id := by
  induction range generalizing s first with
  | nil =>
    have heq : first = last := hfirst.2.trans hlast.2.symm
    refine ⟨s, ?_, h, hfirst.1, (List.append_nil _).symm⟩
    rw [State.eraseRange.eq_def, if_pos heq]
  | cons x range ih =>
    obtain ⟨heq, hposition⟩ := hfirst
    have hfirst : first = some x.id := hposition
    subst hfirst
    have hnodup := h.nodup
    rw [heq] at hnodup
    have hne : some x.id ≠ last := by
      rw [hlast.2]
      intro hid
      obtain ⟨y, hy, hid⟩ := Option.map_eq_some_iff.mp hid.symm
      rw [List.map_append, List.cons_append, List.map_cons] at hnodup
      refine (List.nodup_cons.mp (List.nodup_append.mp hnodup).2.1).1 ?_
      rw [← hid]
      exact List.mem_map_of_mem (List.mem_append_right _ (List.mem_of_mem_head? hy))
    have hmem : ∃ y ∈ s.m_items, y.id = x.id := ⟨x, by rw [heq]; simp, rfl⟩
    have hm_items := h.m_items_erase heq
    have hnext : Splits (next x.id s.m_items) (s.erase x.id).m_items before (range ++ after) := by
      refine ⟨hm_items, ?_⟩
      rw [heq]
      exact next_append hnodup
    obtain ⟨s', hrun, hsound, hitems, hevents⟩ := ih (h.erase heq) hnext
      ⟨hm_items.trans (List.append_assoc ..).symm, hlast.2⟩
    refine ⟨s', ?_, hsound, hitems, ?_⟩
    · rw [State.eraseRange.eq_def, if_neg hne]
      exact (dif_pos hmem).trans hrun
    · rw [hevents, List.map_cons, List.append_cons]
      exact congrArg (· ++ _) List.map_append

end Sound

theorem insertCopies_eq (s : State α) (position : Position) (n : UInt64) (x : α) :
    s.insertCopies position n x = s.insertRange position (List.replicate (copies n) x) := by
  fun_induction State.insertCopies s position n x with
  | case1 s => rfl
  | case2 s n hn ih =>
    rw [ih, copies_of_ne_zero hn, List.replicate_succ]
    rfl

namespace Sound

variable {s : State α}

theorem inserted (h : Sound s) {position : Position} {before after : List (Item α)}
    (hsplits : Splits position s.m_items before after) (values : List α) :
    Inserted s position values (s.insertRange position values) where
  m_items _ _ hsplits := (h.insertRange hsplits values).2.1
  events := (h.insertRange hsplits values).2.2
  observed := (h.insertRange hsplits values).1.observed

theorem erased {item : Nat} (h : Sound s) (hitem : ∃ x ∈ s.m_items, x.id = item) :
    Erased s (some item) (next item s.m_items) (s.erase item) := by
  obtain ⟨x, hx, rfl⟩ := hitem
  obtain ⟨before, after, heq⟩ := List.append_of_mem hx
  have hnodup := h.nodup
  have hnext : next x.id s.m_items = after.head?.map Item.id := by
    rw [heq] at hnodup ⊢
    exact next_append hnodup
  refine ⟨fun before' range after' hfirst hlast => ?_, (h.erase heq).observed⟩
  obtain ⟨rfl, -⟩ := hfirst.unique hnodup ⟨heq, rfl⟩
  obtain ⟨hrange, rfl⟩ := hlast.unique hnodup ⟨heq.trans (List.append_cons ..), hnext⟩
  obtain rfl := List.append_cancel_left hrange
  exact ⟨h.m_items_erase heq, List.map_append⟩

theorem faithful_of_returns (h : Sound s) {call : Call α} (hvalid : call.Valid s.m_items)
    (hreturns : call.Returns) : Faithful s call := by
  cases call with
  | insert position x =>
    obtain ⟨before, after, hsplits⟩ := hvalid
    exact ⟨h.inserted hsplits [x], rfl⟩
  | insertCopies _ _ _ | insertRange _ _ => exact hreturns.elim
  | erase item => exact ⟨h.erased hvalid, rfl⟩
  | eraseRange first last =>
    obtain ⟨before, range, after, hfirst, hlast⟩ := hvalid
    obtain ⟨s', hrun, hsound, -⟩ := h.eraseRange hfirst hlast
    simp only [Faithful, State.run, hrun]
    refine ⟨⟨fun before range after hfirst hlast => ?_, hsound.observed⟩, trivial⟩
    obtain ⟨s'', hrun', -, hitems, hevents⟩ := h.eraseRange hfirst hlast
    obtain rfl := Option.some.inj (hrun.symm.trans hrun')
    exact ⟨hitems, hevents⟩

theorem run {s' : State α} {call : Call α} {result : Option Position} (h : Sound s)
    (hvalid : call.Valid s.m_items) (hrun : s.run call = .returned s' result) : Sound s' := by
  cases call with
  | insert position x =>
    obtain ⟨before, after, hsplits⟩ := hvalid
    cases hrun
    exact h.insert hsplits x
  | insertCopies _ _ _ | insertRange _ _ => cases hrun
  | erase item =>
    obtain ⟨x, hx, rfl⟩ := hvalid
    obtain ⟨before, after, heq⟩ := List.append_of_mem hx
    cases hrun
    exact h.erase heq
  | eraseRange first last =>
    obtain ⟨before, range, after, hfirst, hlast⟩ := hvalid
    obtain ⟨s'', hsome, hsound, -⟩ := h.eraseRange hfirst hlast
    simp only [State.run, hsome] at hrun
    cases hrun
    exact hsound

end Sound

theorem Reached.sound {s : State α} (h : Reached s) : Sound s := by
  induction h with
  | empty => exact .empty
  | call _ hvalid hrun ih => exact ih.run hvalid hrun

/-! ## What observers see -/

/-- What the inserts of `n` copies and of a range have done when they run off their end -/
def Bulk (s : State α) : Call α → Prop
  | .insertCopies position n x => ∃ s', s.run (.insertCopies position n x) = .flowsOff s' ∧
    Inserted s position (List.replicate (copies n) x) s'
  | .insertRange position values => ∃ s', s.run (.insertRange position values) = .flowsOff s' ∧
    Inserted s position values s'
  | .insert .. | .erase _ | .eraseRange .. => True

/-- Observers know what is in the list after every sequence of calls that return. A call returns,
has its effect and is seen if and only if it inserts one element or erases. The other inserts do
not return: by then the one has inserted its range, the other up to 2^64 copies. -/
theorem observers_see_every_change {s : State α} (h : Reached s) :
    observed s.log = s.m_items ∧ ∀ call : Call α, call.Valid s.m_items →
      (Faithful s call ↔ call.Returns) ∧ Bulk s call := by
  refine ⟨h.sound.observed, fun call hvalid => ⟨⟨fun hfaithful => ?_, ?_⟩, ?_⟩⟩
  · cases call with
    | insert _ _ | erase _ | eraseRange _ _ => trivial
    | insertCopies _ _ _ | insertRange _ _ => exact hfaithful.elim
  · exact h.sound.faithful_of_returns hvalid
  · cases call with
    | insert _ _ | erase _ | eraseRange _ _ => trivial
    | insertCopies position n x =>
      obtain ⟨before, after, hsplits⟩ := hvalid
      refine ⟨_, rfl, ?_⟩
      rw [insertCopies_eq]
      exact h.sound.inserted hsplits _
    | insertRange position values =>
      obtain ⟨before, after, hsplits⟩ := hvalid
      exact ⟨_, rfl, h.sound.inserted hsplits values⟩

theorem observers_see_every_change_empty :
    observed (State.empty : State Nat).log = [] ∧ ∀ call : Call Nat, call.Valid [] →
      (Faithful .empty call ↔ call.Returns) ∧ Bulk .empty call :=
  observers_see_every_change .empty

/-- One copy that is to be inserted in an empty list becomes 2^64 - 1 copies. -/
theorem insert_one_copy_not_faithful :
    (Call.insertCopies none 1 7).Valid (State.empty : State Nat).m_items ∧
      ¬Faithful (State.empty : State Nat) (.insertCopies none 1 7) ∧
      ((State.empty : State Nat).insertCopies none 1 7).m_items.length = 2 ^ 64 - 1 := by
  have hsplits : Splits none (State.empty : State Nat).m_items [] [] := ⟨rfl, rfl⟩
  refine ⟨⟨[], [], hsplits⟩, id, ?_⟩
  rw [insertCopies_eq, (Sound.empty.insertRange hsplits _).2.1, List.nil_append, List.append_nil,
    newItems, List.length_mapIdx, List.length_replicate]
  rfl

end Urnest.Xju.NotifyingList
