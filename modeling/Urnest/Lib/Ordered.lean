import Mathlib.Order.Lattice
import Mathlib.Data.List.Pairwise

/-!
# Sorted containers

`OrderedBy key` is a container whose items are kept in strictly ascending order
of `key`: a sorted set when `key` is the identity, a sorted map when the items
are pairs and `key` is the first component. The order is carried by the value,
so two items never share a key.

`insert` keeps the item already there, as the insert of a sorted container does;
`ofList` inserts a list front to back, and gives back any container whose items it
is handed in order (`ofList_toList`).
-/

namespace Lib

variable {α κ : Type} [LinearOrder κ]

/-- Items in strictly ascending order of `key`. -/
structure OrderedBy (key : α → κ) where
  /-- the items, in order -/
  toList : List α
  /-- no two items share a key, and smaller keys come first -/
  sorted : toList.Pairwise (fun a b => key a < key b)

namespace OrderedBy

variable {key : α → κ}

@[ext] theorem ext {s t : OrderedBy key} (h : s.toList = t.toList) : s = t := by
  cases s
  cases t
  cases h
  rfl

instance [DecidableEq α] : DecidableEq (OrderedBy key) := fun s t =>
  decidable_of_iff (s.toList = t.toList) ⟨ext, fun h => h ▸ rfl⟩

instance : Membership α (OrderedBy key) := ⟨fun s a => a ∈ s.toList⟩

theorem mem_def {s : OrderedBy key} {a : α} : a ∈ s ↔ a ∈ s.toList := Iff.rfl

/-- The container with no items. -/
def empty : OrderedBy key := ⟨[], .nil⟩

/-- The keys, ascending. -/
def keys (s : OrderedBy key) : List κ := s.toList.map key

theorem keys_sorted (s : OrderedBy key) : s.keys.Pairwise (· < ·) :=
  List.pairwise_map.mpr s.sorted

/-- Put `x` in its place, unless its key is taken. -/
def insertInto (key : α → κ) (x : α) : List α → List α
  | [] => [x]
  | y :: ys =>
    if key x < key y then x :: y :: ys
    else if key y < key x then y :: insertInto key x ys
    else y :: ys

theorem mem_of_mem_insertInto {x z : α} {ys : List α} (h : z ∈ insertInto key x ys) :
    z = x ∨ z ∈ ys := by
  induction ys with
  | nil => exact .inl (by simpa [insertInto] using h)
  | cons y ys ih =>
    simp only [insertInto] at h
    split_ifs at h with h₁ h₂
    · simpa using h
    · rcases List.mem_cons.mp h with rfl | h
      · simp
      · rcases ih h with rfl | h
        · exact .inl rfl
        · exact .inr (List.mem_cons_of_mem _ h)
    · exact .inr h

theorem sorted_insertInto {x : α} {ys : List α}
    (h : ys.Pairwise (fun a b => key a < key b)) :
    (insertInto key x ys).Pairwise (fun a b => key a < key b) := by
  induction ys with
  | nil => simp [insertInto]
  | cons y ys ih =>
    obtain ⟨hy, hys⟩ := List.pairwise_cons.mp h
    simp only [insertInto]
    split_ifs with h₁ h₂
    · refine List.pairwise_cons.mpr ⟨?_, h⟩
      intro z hz
      rcases List.mem_cons.mp hz with rfl | hz
      · exact h₁
      · exact h₁.trans (hy z hz)
    · refine List.pairwise_cons.mpr ⟨?_, ih hys⟩
      intro z hz
      rcases mem_of_mem_insertInto hz with rfl | hz
      · exact h₂
      · exact hy z hz
    · exact h

/-- A key above all the others goes to the end. -/
theorem insertInto_of_gt {x : α} {ys : List α} (h : ∀ y ∈ ys, key y < key x) :
    insertInto key x ys = ys ++ [x] := by
  induction ys with
  | nil => rfl
  | cons y ys ih =>
    have hy := h y (List.mem_cons_self ..)
    rw [insertInto, if_neg (not_lt.mpr hy.le), if_pos hy,
      ih fun z hz => h z (List.mem_cons_of_mem _ hz)]
    rfl

/-- Insert `x` unless its key is taken. -/
def insert (s : OrderedBy key) (x : α) : OrderedBy key :=
  ⟨insertInto key x s.toList, sorted_insertInto s.sorted⟩

/-- Insert the items of a list, front to back. -/
def ofList (xs : List α) : OrderedBy key := xs.foldl insert empty

theorem foldl_insert_toList (xs : List α) (s : OrderedBy key)
    (hs : (s.toList ++ xs).Pairwise (fun a b => key a < key b)) :
    (xs.foldl insert s).toList = s.toList ++ xs := by
  induction xs generalizing s with
  | nil => simp
  | cons x xs ih =>
    have hx : (s.insert x).toList = s.toList ++ [x] :=
      insertInto_of_gt fun y hy =>
        (List.pairwise_append.mp hs).2.2 y hy x (List.mem_cons_self ..)
    rw [List.foldl_cons, ih (s.insert x) (by rw [hx]; simpa using hs), hx]
    simp

/-- Items that come in order stay in order. -/
theorem toList_ofList {xs : List α} (h : xs.Pairwise (fun a b => key a < key b)) :
    (ofList xs : OrderedBy key).toList = xs :=
  foldl_insert_toList xs empty h

/-! A function that keeps the keys may be applied before or after. -/

section Map

variable {f : α → α} (hf : ∀ a, key (f a) = key a)

include hf

theorem insertInto_map (x : α) (ys : List α) :
    insertInto key (f x) (ys.map f) = (insertInto key x ys).map f := by
  induction ys with
  | nil => rfl
  | cons y ys ih =>
    rw [List.map_cons, insertInto, insertInto, hf, hf, ih]
    split_ifs <;> rfl

theorem foldl_insert_map (xs : List α) {s t : OrderedBy key} (h : t.toList = s.toList.map f) :
    ((xs.map f).foldl insert t).toList = (xs.foldl insert s).toList.map f := by
  induction xs generalizing s t with
  | nil => exact h
  | cons x xs ih =>
    rw [List.map_cons, List.foldl_cons, List.foldl_cons]
    refine ih ?_
    change insertInto key (f x) t.toList = (insertInto key x s.toList).map f
    rw [h, insertInto_map hf]

theorem toList_ofList_map (xs : List α) :
    (ofList (xs.map f) : OrderedBy key).toList = (ofList xs : OrderedBy key).toList.map f :=
  foldl_insert_map hf xs rfl

end Map

/-- A container is rebuilt from its items. -/
@[simp] theorem ofList_toList (s : OrderedBy key) : (ofList s.toList : OrderedBy key) = s :=
  ext (toList_ofList s.sorted)

/-! ## Lookup -/

/-- The item with the given key. -/
def find? (s : OrderedBy key) (k : κ) : Option α := s.toList.find? fun a => key a = k

/-- Lookup finds every item by its key. -/
theorem find?_of_mem {s : OrderedBy key} {a : α} (h : a ∈ s.toList) :
    s.find? (key a) = some a := by
  obtain ⟨xs, hs⟩ := s
  change xs.find? _ = _
  change a ∈ xs at h
  induction xs with
  | nil => cases h
  | cons x xs ih =>
    obtain ⟨hx, hxs⟩ := List.pairwise_cons.mp hs
    rcases List.mem_cons.mp h with rfl | h
    · simp
    · rw [List.find?_cons_of_neg (by simpa using (hx a h).ne)]
      exact ih hxs h

theorem find?_isSome {s : OrderedBy key} {k : κ} : (s.find? k).isSome ↔ k ∈ s.keys := by
  simp [find?, keys]

theorem find?_insert (s : OrderedBy key) (x : α) (k : κ) :
    (s.insert x).find? k = (s.find? k).or (if key x = k then some x else none) := by
  obtain ⟨ys, hs⟩ := s
  change (insertInto key x ys).find? _ = (ys.find? _).or _
  induction ys with
  | nil => by_cases hk : key x = k <;> simp [insertInto, hk]
  | cons y ys ih =>
    obtain ⟨hy, hys⟩ := List.pairwise_cons.mp hs
    rw [insertInto]
    rcases lt_trichotomy (key x) (key y) with hlt | heq | hgt
    · rw [if_pos hlt]
      by_cases hk : key x = k
      · -- All that are there have a greater key.
        have hnone : (y :: ys).find? (fun a => decide (key a = k)) = none := by
          refine List.find?_eq_none.mpr fun z hz => ?_
          have hz : key y ≤ key z := by
            rcases List.mem_cons.mp hz with rfl | hz
            · exact le_rfl
            · exact (hy z hz).le
          simpa [← hk] using (hlt.trans_le hz).ne'
        rw [hnone]
        simp [hk]
      · simp [List.find?_cons_of_neg, hk]
    · rw [if_neg heq.not_lt, if_neg heq.not_gt]
      by_cases hk : key y = k <;> simp [heq, hk]
    · rw [if_neg hgt.not_gt, if_pos hgt]
      by_cases hk : key y = k
      · simp [hk]
      · simpa [hk] using ih hys

theorem find?_foldl_insert (xs : List α) (s : OrderedBy key) (k : κ) :
    (xs.foldl insert s).find? k = (s.find? k).or (xs.find? fun a => key a = k) := by
  induction xs generalizing s with
  | nil => simp
  | cons x xs ih =>
    rw [List.foldl_cons, ih, find?_insert, Option.or_assoc]
    by_cases hk : key x = k <;> simp [hk]

/-- Of the items with a key, the first one is there. -/
theorem find?_ofList (xs : List α) (k : κ) :
    (ofList xs : OrderedBy key).find? k = xs.find? fun a => key a = k :=
  find?_foldl_insert xs empty k

/-! ## Successors -/

/-- A list whose front satisfies `p` and whose rest does not is its two filters. -/
theorem filter_append_filter_not {p : α → Bool} {xs : List α}
    (h : xs.Pairwise fun a b => p b = true → p a = true) :
    xs.filter p ++ xs.filter (fun x => !p x) = xs := by
  induction xs with
  | nil => rfl
  | cons x xs ih =>
    obtain ⟨hx, hxs⟩ := List.pairwise_cons.mp h
    by_cases hp : p x = true
    · rw [List.filter_cons_of_pos hp, List.filter_cons_of_neg (by simp [hp]), List.cons_append,
        ih hxs]
    · have hnone : ∀ y ∈ x :: xs, ¬ p y = true := by
        intro y hy hpy
        rcases List.mem_cons.mp hy with rfl | hy
        · exact hp hpy
        · exact hp (hx y hy hpy)
      rw [List.filter_eq_nil_iff.mpr hnone, List.nil_append,
        List.filter_eq_self.mpr fun y hy => by simp [hnone y hy]]

/-- The first item above `k`. -/
def next? (s : OrderedBy key) (k : κ) : Option α := s.toList.find? fun a => k < key a

theorem next?_of_split {s : OrderedBy key} {k : κ} {xs ys : List α} (h : s.toList = xs ++ ys)
    (hxs : ∀ x ∈ xs, key x ≤ k) (hys : ∀ y ∈ ys, k < key y) : s.next? k = ys.head? := by
  have hnone : xs.find? (fun a => decide (k < key a)) = none :=
    List.find?_eq_none.mpr fun x hx => by simpa using hxs x hx
  rw [next?, h, List.find?_append, hnone, Option.none_or]
  cases ys with
  | nil => rfl
  | cons y ys =>
    have hy := hys y (List.mem_cons_self ..)
    simp [hy]

/-- The first item above an item is the one behind it. -/
theorem next?_after {s : OrderedBy key} {x : α} {xs ys : List α} (h : s.toList = xs ++ x :: ys) :
    s.next? (key x) = ys.head? := by
  have hsorted := s.sorted
  rw [h] at hsorted
  obtain ⟨-, hys, hcross⟩ := List.pairwise_append.mp hsorted
  have hsplit : s.toList = (xs ++ [x]) ++ ys := by simp [h]
  refine next?_of_split hsplit ?_ (List.pairwise_cons.mp hys).1
  intro y hy
  rcases List.mem_append.mp hy with hy | hy
  · exact (hcross y hy x (List.mem_cons_self ..)).le
  · rw [List.mem_singleton.mp hy]

/-- The items above `k` that satisfy `p`, if they come first among those above `k`, lie
between the items up to `k` and the others. -/
theorem split_run (s : OrderedBy key) (k : κ) (p : α → Bool)
    (habove : ∀ x ∈ s.toList, p x = true → k < key x)
    (hfirst : ∀ x ∈ s.toList, ∀ y ∈ s.toList, k < key x → key x < key y → p y = true →
      p x = true) :
    s.toList = s.toList.filter (fun x => decide (key x ≤ k)) ++
      (s.toList.filter p ++ s.toList.filter fun x => decide (k < key x) && !p x) := by
  have hlow : s.toList.Pairwise fun a b => decide (key b ≤ k) = true → decide (key a ≤ k) = true :=
    s.sorted.imp fun h hb => by
      simp only [decide_eq_true_eq] at hb ⊢
      exact h.le.trans hb
  conv_lhs => rw [← filter_append_filter_not hlow]
  congr 1
  have hhigh : (s.toList.filter fun x => !decide (key x ≤ k)).Pairwise
      fun a b => p b = true → p a = true := by
    refine (s.sorted.filter _).imp_of_mem fun {a b} ha hb hlt hpb => ?_
    simp only [List.mem_filter, Bool.not_eq_true', decide_eq_false_iff_not, not_le] at ha hb
    exact hfirst a ha.1 b hb.1 ha.2 hlt hpb
  conv_lhs => rw [← filter_append_filter_not hhigh]
  rw [List.filter_filter, List.filter_filter]
  congr 1
  · refine List.filter_congr fun x hx => ?_
    by_cases hp : p x = true
    · simp [hp, habove x hx hp]
    · simp [hp]
  · refine List.filter_congr fun x _ => ?_
    by_cases hle : key x ≤ k
    · simp [hle, not_lt.mpr hle]
    · simp [hle, not_le.mp hle]

end OrderedBy

/-- A sorted map: pairs in strictly ascending order of their first components. -/
abbrev SortedMap (κ β : Type) [LinearOrder κ] := OrderedBy (Prod.fst : κ × β → κ)

/-- A sorted set. -/
abbrev SortedSet (κ : Type) [LinearOrder κ] := OrderedBy (id : κ → κ)

end Lib
