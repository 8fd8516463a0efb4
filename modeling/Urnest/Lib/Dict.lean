import Mathlib

/-!
# Dictionaries

`Dict κ α` maps keys to values and remembers the order its keys came in: `set` changes
the value of a key where it is, and puts a new key at the end. That no key comes twice
is carried by the value.

What a dictionary is a map of is said by `get?_set` and `get?_erase`; what it adds up
to, for a measure of its values, by `total_set` and `total_erase`.
-/

namespace Lib

/-- A map from keys to values, in the order the keys were put in. -/
structure Dict (κ α : Type) where
  items : List (κ × α)
  /-- no key comes twice -/
  nodup : (items.map Prod.fst).Nodup

namespace Dict

variable {κ α : Type}

@[ext] theorem ext {d d' : Dict κ α} (h : d.items = d'.items) : d = d' := by
  cases d
  cases d'
  cases h
  rfl

instance [DecidableEq κ] [DecidableEq α] : DecidableEq (Dict κ α) := fun d d' =>
  decidable_of_iff (d.items = d'.items) ⟨ext, fun h => h ▸ rfl⟩

def empty : Dict κ α := ⟨[], .nil⟩

@[simp] theorem items_empty : (empty : Dict κ α).items = [] := rfl

def keys (d : Dict κ α) : List κ := d.items.map Prod.fst

theorem nodup_keys (d : Dict κ α) : d.keys.Nodup := d.nodup

def values (d : Dict κ α) : List α := d.items.map Prod.snd

instance : Membership κ (Dict κ α) := ⟨fun d k => k ∈ d.keys⟩

theorem mem_def {d : Dict κ α} {k : κ} : k ∈ d ↔ k ∈ d.keys := Iff.rfl

theorem mem_of_mem_items {d : Dict κ α} {x : κ × α} (h : x ∈ d.items) : x.1 ∈ d :=
  List.mem_map_of_mem h

theorem exists_mem_items {d : Dict κ α} {k : κ} (h : k ∈ d) : ∃ a, (k, a) ∈ d.items := by
  obtain ⟨x, hx, rfl⟩ := List.mem_map.mp h
  exact ⟨x.2, hx⟩

@[simp] theorem not_mem_empty (k : κ) : k ∉ (empty : Dict κ α) := List.not_mem_nil

/-- A key has one value. -/
theorem value_unique {d : Dict κ α} {k : κ} {a b : α} (ha : (k, a) ∈ d.items)
    (hb : (k, b) ∈ d.items) : a = b :=
  (Prod.mk.inj (List.inj_on_of_nodup_map d.nodup ha hb rfl)).2

/-- The number of keys. -/
def length (d : Dict κ α) : Nat := d.items.length

/-- What the values add up to. -/
def total (f : α → Nat) (d : Dict κ α) : Nat := (d.items.map fun x => f x.2).sum

@[simp] theorem total_empty (f : α → Nat) : (empty : Dict κ α).total f = 0 := rfl

theorem length_eq_total (d : Dict κ α) : d.length = d.total fun _ => 1 := by
  simp [length, total]

variable [DecidableEq κ]

instance (d : Dict κ α) (k : κ) : Decidable (k ∈ d) := inferInstanceAs (Decidable (k ∈ d.keys))

/-! ## Lookup -/

def get? (d : Dict κ α) (k : κ) : Option α := (d.items.find? fun x => x.1 = k).map Prod.snd

theorem get?_eq_some {d : Dict κ α} {k : κ} {a : α} : d.get? k = some a ↔ (k, a) ∈ d.items := by
  constructor
  · intro h
    obtain ⟨x, hx, rfl⟩ := Option.map_eq_some_iff.mp h
    have hk : x.1 = k := by simpa using List.find?_some hx
    rw [← hk]
    exact List.mem_of_find?_eq_some hx
  · intro h
    obtain ⟨x, hx⟩ : ∃ x, d.items.find? (fun x => x.1 = k) = some x := by
      rw [← Option.isSome_iff_exists, List.find?_isSome]
      exact ⟨(k, a), h, by simp⟩
    have hk : x.1 = k := by simpa using List.find?_some hx
    have hmem : (k, x.2) ∈ d.items := hk ▸ List.mem_of_find?_eq_some hx
    rw [get?, hx, Option.map_some, value_unique hmem h]

theorem get?_eq_none {d : Dict κ α} {k : κ} : d.get? k = none ↔ k ∉ d := by
  rw [Option.eq_none_iff_forall_ne_some]
  constructor
  · intro hnone h
    obtain ⟨a, ha⟩ := exists_mem_items h
    exact hnone a (get?_eq_some.mpr ha)
  · intro h a ha
    exact h (mem_of_mem_items (get?_eq_some.mp ha))

theorem mem_of_get? {d : Dict κ α} {k : κ} {a : α} (h : d.get? k = some a) : k ∈ d :=
  mem_of_mem_items (get?_eq_some.mp h)

theorem exists_get? {d : Dict κ α} {k : κ} (h : k ∈ d) : ∃ a, d.get? k = some a := by
  obtain ⟨a, ha⟩ := exists_mem_items h
  exact ⟨a, get?_eq_some.mpr ha⟩

@[simp] theorem get?_empty (k : κ) : (empty : Dict κ α).get? k = none := rfl

/-! ## Changing -/

/-- `d[k] = a` -/
def set (d : Dict κ α) (k : κ) (a : α) : Dict κ α :=
  if h : k ∈ d then
    { items := d.items.map fun x => if x.1 = k then (k, a) else x
      nodup := by
        have hkeys : (d.items.map fun x => if x.1 = k then (k, a) else x).map Prod.fst
            = d.items.map Prod.fst := by
          rw [List.map_map]
          refine List.map_congr_left fun x _ => ?_
          by_cases hx : x.1 = k
          · simp [hx]
          · simp [hx]
        rw [hkeys]
        exact d.nodup }
  else
    { items := d.items ++ [(k, a)]
      nodup := by
        rw [List.map_append]
        exact d.nodup.append (List.nodup_singleton _) (List.disjoint_singleton.mpr h) }

/-- `del d[k]`, where it is known to be there. -/
def erase (d : Dict κ α) (k : κ) : Dict κ α where
  items := d.items.filter fun x => x.1 ≠ k
  nodup := d.nodup.sublist (List.filter_sublist.map _)

theorem mem_items_set {d : Dict κ α} {k : κ} {a : α} {x : κ × α} :
    x ∈ (d.set k a).items ↔ x = (k, a) ∨ x ∈ d.items ∧ x.1 ≠ k := by
  rw [set]
  split_ifs with h
  · simp only [List.mem_map]
    constructor
    · rintro ⟨y, hy, rfl⟩
      by_cases hk : y.1 = k
      · exact .inl (by simp [hk])
      · exact .inr (by simpa [hk] using hy)
    · rintro (rfl | ⟨hx, hne⟩)
      · obtain ⟨b, hb⟩ := exists_mem_items h
        exact ⟨(k, b), hb, by simp⟩
      · exact ⟨x, hx, by simp [hne]⟩
  · have hne : ∀ y ∈ d.items, y.1 ≠ k := fun y hy hk => h (hk ▸ mem_of_mem_items hy)
    simp only [List.mem_append, List.mem_singleton]
    constructor
    · rintro (hx | rfl)
      · exact .inr ⟨hx, hne x hx⟩
      · exact .inl rfl
    · rintro (rfl | ⟨hx, -⟩)
      · exact .inr rfl
      · exact .inl hx

/-- A new key goes to the end. -/
theorem items_set_new {d : Dict κ α} {k : κ} (h : k ∉ d) (a : α) :
    (d.set k a).items = d.items ++ [(k, a)] := by
  simp [set, h]

theorem items_foldl_set (f : κ → α) {ks : List κ} {d : Dict κ α} (hnodup : ks.Nodup)
    (hnew : ∀ k ∈ ks, k ∉ d) :
    (ks.foldl (fun d k => d.set k (f k)) d).items = d.items ++ ks.map fun k => (k, f k) := by
  induction ks generalizing d with
  | nil => simp
  | cons k ks ih =>
    obtain ⟨hnot, hnodup⟩ := List.nodup_cons.mp hnodup
    have hitems := items_set_new (hnew k (List.mem_cons_self ..)) (f k)
    rw [List.foldl_cons, ih hnodup, hitems, List.append_assoc]
    · rfl
    · intro k' hk' hmem
      rw [mem_def, keys, hitems, List.map_append, List.mem_append] at hmem
      rcases hmem with hold | hlast
      · exact hnew k' (List.mem_cons_of_mem _ hk') hold
      · obtain rfl : k' = k := by simpa using hlast
        exact hnot hk'

theorem mem_items_erase {d : Dict κ α} {k : κ} {x : κ × α} :
    x ∈ (d.erase k).items ↔ x ∈ d.items ∧ x.1 ≠ k := by
  simp [erase]

theorem get?_set (d : Dict κ α) (k k' : κ) (a : α) :
    (d.set k a).get? k' = if k' = k then some a else d.get? k' := by
  apply Option.ext
  intro b
  rw [get?_eq_some, mem_items_set]
  split_ifs with h
  · subst h
    simp [eq_comm]
  · simp [get?_eq_some, h]

@[simp] theorem get?_set_self (d : Dict κ α) (k : κ) (a : α) : (d.set k a).get? k = some a := by
  rw [get?_set, if_pos rfl]

theorem get?_erase (d : Dict κ α) (k k' : κ) :
    (d.erase k).get? k' = if k' = k then none else d.get? k' := by
  apply Option.ext
  intro b
  rw [get?_eq_some, mem_items_erase]
  split_ifs with h
  · simp [h]
  · simp [get?_eq_some, h]

theorem mem_set {d : Dict κ α} {k k' : κ} {a : α} : k' ∈ d.set k a ↔ k' = k ∨ k' ∈ d := by
  rw [← not_iff_not, ← get?_eq_none, get?_set, not_or, ← get?_eq_none]
  split_ifs with h <;> simp [h]

theorem mem_erase {d : Dict κ α} {k k' : κ} : k' ∈ d.erase k ↔ k' ≠ k ∧ k' ∈ d := by
  rw [← not_iff_not, ← get?_eq_none, get?_erase, not_and_or, not_not, ← get?_eq_none]
  split_ifs with h <;> simp [h]

/-! ## Counting -/

/-- Taking a key away takes its value off. -/
theorem total_erase (f : α → Nat) {d : Dict κ α} {k : κ} {a : α} (h : d.get? k = some a) :
    (d.erase k).total f + f a = d.total f := by
  obtain ⟨as, bs, hsplit⟩ := List.append_of_mem (get?_eq_some.mp h)
  have hnodup := d.nodup
  rw [hsplit, List.map_append, List.map_cons] at hnodup
  obtain ⟨-, hbs, hcross⟩ := List.pairwise_append.mp hnodup
  have has : ∀ x ∈ as, x.1 ≠ k := fun x hx =>
    hcross x.1 (List.mem_map_of_mem hx) k (List.mem_cons_self ..)
  have hbs : ∀ x ∈ bs, x.1 ≠ k := fun x hx =>
    ((List.pairwise_cons.mp hbs).1 x.1 (List.mem_map_of_mem hx)).symm
  have hfilter : (d.erase k).items = as ++ bs := by
    change d.items.filter (fun x => decide (x.1 ≠ k)) = _
    rw [hsplit, List.filter_append, List.filter_cons_of_neg (by simp),
      List.filter_eq_self.mpr (by simpa using has), List.filter_eq_self.mpr (by simpa using hbs)]
  simp only [total, hfilter, hsplit, List.map_append, List.map_cons, List.sum_append,
    List.sum_cons]
  omega

/-- A new key adds its value. -/
theorem total_set_new (f : α → Nat) {d : Dict κ α} {k : κ} (h : k ∉ d) (a : α) :
    (d.set k a).total f = d.total f + f a := by
  simp [total, set, h]

/-- A new value of a key is added for the old one. -/
theorem total_set (f : α → Nat) {d : Dict κ α} {k : κ} {a : α} (h : d.get? k = some a) (b : α) :
    (d.set k b).total f + f a = d.total f + f b := by
  have herase : ((d.set k b).erase k).items = (d.erase k).items := by
    simp only [set, mem_of_get? h, dif_pos, erase]
    rw [List.filter_map]
    have hmap : ∀ x ∈ d.items.filter fun x => x.1 ≠ k, (if x.1 = k then (k, b) else x) = x := by
      intro x hx
      simp only [ne_eq, decide_not, List.mem_filter, Bool.not_eq_true', decide_eq_false_iff_not]
        at hx
      rw [if_neg hx.2]
    have hfilter : d.items.filter ((fun x => decide (x.1 ≠ k)) ∘
        fun x => if x.1 = k then (k, b) else x) = d.items.filter fun x => x.1 ≠ k := by
      refine List.filter_congr fun x _ => ?_
      by_cases hx : x.1 = k
      · simp [hx]
      · simp [hx]
    rw [hfilter]
    conv_rhs => rw [← List.map_id (d.items.filter fun x => x.1 ≠ k)]
    exact List.map_congr_left hmap
  have hnew := total_erase f (get?_set_self d k b)
  have hold := total_erase f h
  rw [total, herase] at hnew
  change (d.erase k).total f + f b = _ at hnew
  omega

theorem length_erase {d : Dict κ α} {k : κ} (h : k ∈ d) : (d.erase k).length + 1 = d.length := by
  obtain ⟨a, ha⟩ := exists_get? h
  rw [length_eq_total, length_eq_total]
  exact total_erase (fun _ => 1) ha

theorem length_erase_le (d : Dict κ α) (k : κ) : (d.erase k).length ≤ d.length :=
  List.length_filter_le ..

theorem length_set_new {d : Dict κ α} {k : κ} (h : k ∉ d) (a : α) :
    (d.set k a).length = d.length + 1 := by
  rw [length_eq_total, length_eq_total]
  exact total_set_new (fun _ => 1) h a

end Dict

end Lib
