import Mathlib
import Urnest.Pq.Selection

/-!
# What the methods do to trees
-/

namespace Urnest.Pq

open Lib Lib.Action

open Function (update)

/-- The documents are trees, of nodes and lists that there are; no document is a part of
anything. -/
structure Heap.Sound (s : Heap) : Prop where
  trees : s.Trees
  children_lt : ∀ p, (s.kind p).hasChildren = true → s.children p < s.listCount
  kinds_lt : ∀ p, (s.kind p).hasChildren = true → p < s.nodeCount
  lists_lt : ∀ l, ∀ n ∈ s.lists l, n < s.nodeCount
  not_root : ∀ l, ∀ n ∈ s.lists l, s.kind n ≠ .Root

/-- No other node has the list of a node's children. -/
def Heap.Unshared (s : Heap) (p : Nat) : Prop :=
  (s.kind p).hasChildren = true ∧
    ∀ q, (s.kind q).hasChildren = true → s.children q = s.children p → q = p

variable {s s' : Heap} {E : Heap → Prop}

/-! ## Children -/

theorem Heap.childrenOf_of_has {p : Nat} (h : (s.kind p).hasChildren = true) :
    s.childrenOf p = s.lists (s.children p) := if_pos h

theorem Heap.childrenOf_of_not {p : Nat} (h : (s.kind p).hasChildren = false) :
    s.childrenOf p = [] := if_neg (by rw [h]; decide)

theorem Heap.Sound.child_of_parent (h : s.Sound) {n p : Nat} (hn : s.parent n = some p) :
    n ∈ s.childrenOf p ∧ (s.kind p).hasChildren = true ∧ n ∈ s.lists (s.children p) := by
  have hmem := (h.trees.mem_children n p).mpr hn
  rcases hp : (s.kind p).hasChildren
  · rw [Heap.childrenOf_of_not hp] at hmem
    cases hmem
  · exact ⟨hmem, rfl, Heap.childrenOf_of_has hp ▸ hmem⟩

theorem Heap.Sound.parent_lt (h : s.Sound) {n p : Nat} (hn : s.parent n = some p) :
    n < s.nodeCount ∧ p < s.nodeCount := by
  obtain ⟨-, hp, hmem⟩ := h.child_of_parent hn
  exact ⟨h.lists_lt _ n hmem, h.kinds_lt p hp⟩

/-- A list that is not empty is of the children of one node at most. -/
theorem Heap.Sound.unshared (h : s.Sound) {n p : Nat} (hn : s.parent n = some p) : s.Unshared p := by
  obtain ⟨-, hp, hmem⟩ := h.child_of_parent hn
  refine ⟨hp, fun q hq hsame => ?_⟩
  rw [← hsame, ← Heap.childrenOf_of_has hq, h.trees.mem_children, hn] at hmem
  exact (Option.some.inj hmem).symm

theorem wp_children {p : Nat} {Q : List Nat → Heap → Prop} :
    wp (children p) Q E s ↔
      if (s.kind p).hasChildren then Q (s.childrenOf p) s else E s := by
  rw [children]
  simp only [wp_bind, wp_read]
  split_ifs with h
  · rw [Heap.childrenOf_of_has h]
    rfl
  · rfl

theorem wp_newList {xs : List Nat} {Q : Nat → Heap → Prop} :
    wp (newList xs) Q E s ↔ Q s.listCount
      { s with lists := update s.lists s.listCount xs, listCount := s.listCount + 1 } := Iff.rfl

/-- The children of nodes after a list is changed, or made. -/
theorem childrenOf_update (s : Heap) (l : Nat) (xs : List Nat) (count q : Nat) :
    ({ s with lists := update s.lists l xs, listCount := count } : Heap).childrenOf q =
      if (s.kind q).hasChildren = true ∧ s.children q = l then xs else s.childrenOf q := by
  change (if (s.kind q).hasChildren = true then update s.lists l xs (s.children q) else []) = _
  rcases hkind : (s.kind q).hasChildren
  · rw [Heap.childrenOf_of_not hkind, if_neg Bool.false_ne_true,
      if_neg fun h => Bool.false_ne_true h.1]
  · rw [Heap.childrenOf_of_has hkind, if_pos rfl]
    by_cases hl : s.children q = l
    · rw [if_pos ⟨rfl, hl⟩, hl, Function.update_self]
    · rw [if_neg fun h => hl h.2, Function.update_of_ne hl]

/-- The node's children as they are after a change of its list where it is. -/
theorem Heap.Unshared.childrenOf_update {p : Nat} (h : s.Unshared p) (xs : List Nat) :
    ({ s with lists := update s.lists (s.children p) xs } : Heap).childrenOf =
      update s.childrenOf p xs := by
  funext q
  rw [Pq.childrenOf_update s _ xs s.listCount q]
  by_cases hq : q = p
  · rw [hq, Function.update_self, if_pos ⟨h.1, rfl⟩]
  · rw [Function.update_of_ne hq, if_neg fun hsame => hq (h.2 q hsame.1 hsame.2)]

/-- A new list is of no node's children, yet. -/
theorem Heap.Sound.childrenOf_newList (h : s.Sound) (xs : List Nat) :
    ({ s with lists := update s.lists s.listCount xs, listCount := s.listCount + 1 } :
      Heap).childrenOf = s.childrenOf := by
  funext q
  rw [Pq.childrenOf_update]
  exact if_neg fun hsame => Nat.ne_of_lt (h.children_lt q hsame.1) hsame.2

theorem Heap.Sound.newList (h : s.Sound) {xs : List Nat}
    (hxs : ∀ n ∈ xs, n < s.nodeCount ∧ s.kind n ≠ .Root) :
    ({ s with lists := update s.lists s.listCount xs, listCount := s.listCount + 1 } :
      Heap).Sound := by
  have hlists : ∀ l, ∀ n ∈ update s.lists s.listCount xs l, n < s.nodeCount ∧ s.kind n ≠ .Root := by
    intro l n hn
    by_cases hl : l = s.listCount
    · rw [hl, Function.update_self] at hn
      exact hxs n hn
    · rw [Function.update_of_ne hl] at hn
      exact ⟨h.lists_lt l n hn, h.not_root l n hn⟩
  refine ⟨?_, fun p hp => Nat.lt_succ_of_lt (h.children_lt p hp), h.kinds_lt,
    fun l n hn => (hlists l n hn).1, fun l n hn => (hlists l n hn).2⟩
  rw [Heap.Trees, h.childrenOf_newList]
  exact h.trees

/-! ## Grafting -/

/-- The nodes `S` may become children of `t`: each was a root, once, and not one that `t` is
below. -/
structure Heap.Graftable (s : Heap) (S : List Nat) (t : Nat) : Prop where
  nodup : S.Nodup
  roots : ∀ n ∈ S, s.parent n = none
  free : ∀ n ∈ S, n ≠ t ∧ ¬ Above s.parent t n

theorem Heap.Sound.graft (h : s.Sound) {S l : List Nat} {t : Nat} (ht : s.Unshared t)
    (hS : ∀ n ∈ S, n < s.nodeCount ∧ s.kind n ≠ .Root) (hgraft : s.Graftable S t)
    (hl : l.Perm (S ++ s.childrenOf t)) :
    ({ s with
      parent := under s.parent S t
      lists := update s.lists (s.children t) l } : Heap).Sound := by
  have hlists : ∀ k, ∀ n ∈ update s.lists (s.children t) l k,
      n < s.nodeCount ∧ s.kind n ≠ .Root := by
    intro k n hn
    by_cases hk : k = s.children t
    · rw [hk, Function.update_self, hl.mem_iff, List.mem_append,
        Heap.childrenOf_of_has ht.1] at hn
      rcases hn with hn | hn
      · exact hS n hn
      · exact ⟨h.lists_lt _ n hn, h.not_root _ n hn⟩
    · rw [Function.update_of_ne hk] at hn
      exact ⟨h.lists_lt k n hn, h.not_root k n hn⟩
  refine ⟨?_, h.children_lt, h.kinds_lt, fun k n hn => (hlists k n hn).1,
    fun k n hn => (hlists k n hn).2⟩
  have htrees := h.trees.graft hl hgraft.nodup hgraft.roots hgraft.free
  rw [← ht.childrenOf_update l] at htrees
  exact htrees

theorem under_single (parent : Nat → Option Nat) (n t : Nat) :
    under parent [n] t = update parent n (some t) := by
  funext m
  rw [under]
  by_cases hm : m = n
  · rw [hm, if_pos List.mem_cons_self, Function.update_self]
  · rw [if_neg fun h => hm (List.mem_singleton.mp h), Function.update_of_ne hm]

theorem under_cons (parent : Nat → Option Nat) (n : Nat) (S : List Nat) (t : Nat) :
    under (update parent n (some t)) S t = under parent (n :: S) t := by
  funext m
  rw [under, under]
  by_cases hm : m ∈ S
  · rw [if_pos hm, if_pos (List.mem_cons_of_mem n hm)]
  · rw [if_neg hm]
    by_cases hn : m = n
    · rw [hn, Function.update_self, if_pos List.mem_cons_self]
    · rw [Function.update_of_ne hn, if_neg fun h => (List.mem_cons.mp h).elim hn hm]

theorem wp_attach {n t : Nat} (ht : (s.kind t).hasChildren = true) {Q : Unit → Heap → Prop} :
    wp (attach n t) Q E s ↔ Q () { s with
      parent := update s.parent n (some t)
      lists := update s.lists (s.children t) (s.childrenOf t ++ [n]) } := by
  simp only [attach, setParent, append, changeChildren, wp_bind, wp_change, wp_children]
  rw [if_pos ht]
  exact Iff.rfl

theorem Heap.Sound.attach (h : s.Sound) {n t : Nat} (ht : s.Unshared t) (hn : n < s.nodeCount)
    (hkind : s.kind n ≠ .Root) (hroot : s.parent n = none) (hne : n ≠ t)
    (hfree : ¬ Above s.parent t n) :
    ({ s with
      parent := update s.parent n (some t)
      lists := update s.lists (s.children t) (s.childrenOf t ++ [n]) } : Heap).Sound := by
  have hgraft : s.Graftable [n] t := by
    refine ⟨List.nodup_singleton n, fun m hm => ?_, fun m hm => ?_⟩
    · rw [List.mem_singleton.mp hm]
      exact hroot
    · rw [List.mem_singleton.mp hm]
      exact ⟨hne, hfree⟩
  have hperm : (s.childrenOf t ++ [n]).Perm ([n] ++ s.childrenOf t) := List.perm_append_comm
  have hsound := h.graft ht (fun m hm => List.mem_singleton.mp hm ▸ ⟨hn, hkind⟩) hgraft hperm
  rwa [under_single] at hsound

/-! ## What is growing -/

/-- What has been made since `s₀` hangs together, and the rest is as it was. -/
structure Heap.Growing (s₀ s : Heap) : Prop where
  start : s₀.Sound
  sound : s.Sound
  nodeCount_le : s₀.nodeCount ≤ s.nodeCount
  listCount_le : s₀.listCount ≤ s.listCount
  kept : ∀ n < s₀.nodeCount,
    s.kind n = s₀.kind n ∧ s.parent n = s₀.parent n ∧ s.children n = s₀.children n
  lists : ∀ l < s₀.listCount, s.lists l = s₀.lists l
  own : ∀ p, s₀.nodeCount ≤ p → (s.kind p).hasChildren = true →
    s.Unshared p ∧ s₀.listCount ≤ s.children p
  parents : ∀ n p, s₀.nodeCount ≤ n → s.parent n = some p → s₀.nodeCount ≤ p

theorem Heap.Sound.growing (h : s.Sound) : s.Growing s := by
  refine ⟨h, h, Nat.le_refl _, Nat.le_refl _, fun _ _ => ⟨rfl, rfl, rfl⟩, fun _ _ => rfl,
    fun p hp hkind => ?_, fun n p hn hparent => ?_⟩
  · exact absurd (h.kinds_lt p hkind) (Nat.not_lt_of_le hp)
  · exact absurd (h.parent_lt hparent).1 (Nat.not_lt_of_le hn)

theorem Heap.Sound.root_of_le (h : s.Sound) {n : Nat} (hn : s.nodeCount ≤ n) :
    s.parent n = none := by
  rcases hparent : s.parent n with _ | p
  · rfl
  · exact absurd (h.parent_lt hparent).1 (Nat.not_lt_of_le hn)

theorem Heap.Sound.not_above (h : s.Sound) {n t : Nat} (hn : s.nodeCount ≤ n) :
    ¬ Above s.parent t n := by
  intro habove
  obtain ⟨m, -, hm⟩ := Relation.TransGen.tail'_iff.mp habove
  exact absurd (h.parent_lt hm).2 (Nat.not_lt_of_le hn)

theorem childrenOf_withNode (h : s.Sound) (kind : Kind) : (s.withNode kind).childrenOf = s.childrenOf := by
  funext q
  change (if ((update s.kind s.nodeCount kind) q).hasChildren = true then
    update s.lists s.listCount [] (update s.children s.nodeCount s.listCount q) else []) = _
  by_cases hq : q = s.nodeCount
  · rw [hq, Function.update_self, Function.update_self, Function.update_self, ite_self]
    refine (Heap.childrenOf_of_not ?_).symm
    by_contra hkind
    exact absurd (h.kinds_lt _ (Bool.of_not_eq_false hkind)) (Nat.lt_irrefl _)
  · rw [Function.update_of_ne hq, Function.update_of_ne hq]
    rcases hkind : (s.kind q).hasChildren
    · exact (Heap.childrenOf_of_not hkind).symm
    · rw [if_pos rfl, Function.update_of_ne (Nat.ne_of_lt (h.children_lt q hkind)),
        Heap.childrenOf_of_has hkind]

theorem parent_withNode (h : s.Sound) (kind : Kind) : (s.withNode kind).parent = s.parent := by
  funext n
  by_cases hn : n = s.nodeCount
  · rw [hn, h.root_of_le (Nat.le_refl _)]
    exact Function.update_self ..
  · exact Function.update_of_ne hn ..

theorem Heap.Growing.withNode {s₀ : Heap} (h : s₀.Growing s) (kind : Kind) :
    s₀.Growing (s.withNode kind) := by
  have hs := h.sound
  have hkept : ∀ {p}, p ≠ s.nodeCount → (s.withNode kind).kind p = s.kind p :=
    fun hp => Function.update_of_ne hp ..
  have hkind : ∀ p, ((s.withNode kind).kind p).hasChildren = true →
      p = s.nodeCount ∨ p ≠ s.nodeCount ∧ (s.kind p).hasChildren = true := by
    intro p hp
    by_cases hn : p = s.nodeCount
    · exact .inl hn
    · exact .inr ⟨hn, hkept hn ▸ hp⟩
  have hlists : ∀ l, ∀ n ∈ (s.withNode kind).lists l, n ∈ s.lists l := by
    intro l n hn
    have hn' : n ∈ update s.lists s.listCount [] l := hn
    by_cases hl : l = s.listCount
    · rw [hl, Function.update_self] at hn'
      cases hn'
    · rwa [Function.update_of_ne hl] at hn'
  have hsame : ∀ {p}, p ≠ s.nodeCount → (s.withNode kind).children p = s.children p :=
    fun hp => Function.update_of_ne hp ..
  -- The new node has the new list for its children, which no other node has.
  have hnew : (s.withNode kind).children s.nodeCount = s.listCount := Function.update_self ..
  refine ⟨h.start, ⟨?_, fun p hp => ?_, fun p hp => ?_, fun l n hn => ?_, fun l n hn => ?_⟩,
    Nat.le_succ_of_le h.nodeCount_le, Nat.le_succ_of_le h.listCount_le, fun n hn => ?_,
    fun l hl => ?_, fun p hp hk => ⟨⟨hk, fun q hq hqp => ?_⟩, ?_⟩, fun n p hn hp => ?_⟩
  · rw [Heap.Trees, childrenOf_withNode hs, parent_withNode hs]
    exact hs.trees
  · rcases hkind p hp with rfl | ⟨hne, hp⟩
    · exact hnew ▸ Nat.lt_succ_self _
    · exact hsame hne ▸ Nat.lt_succ_of_lt (hs.children_lt p hp)
  · rcases hkind p hp with rfl | ⟨-, hp⟩
    · exact Nat.lt_succ_self _
    · exact Nat.lt_succ_of_lt (hs.kinds_lt p hp)
  · exact Nat.lt_succ_of_lt (hs.lists_lt l n (hlists l n hn))
  · have hlt := hs.lists_lt l n (hlists l n hn)
    rw [hkept (Nat.ne_of_lt hlt)]
    exact hs.not_root l n (hlists l n hn)
  · have hne := Nat.ne_of_lt (Nat.lt_of_lt_of_le hn h.nodeCount_le)
    obtain ⟨hk, hp, hc⟩ := h.kept n hn
    exact ⟨(hkept hne).trans hk, (congrFun (parent_withNode hs kind) n).trans hp,
      (hsame hne).trans hc⟩
  · rw [← h.lists l hl]
    exact Function.update_of_ne (Nat.ne_of_lt (Nat.lt_of_lt_of_le hl h.listCount_le)) ..
  · rcases hkind p hk with rfl | ⟨hne, hk⟩
    · rcases hkind q hq with rfl | ⟨hne', hq⟩
      · rfl
      · rw [hnew, hsame hne'] at hqp
        exact absurd hqp (Nat.ne_of_lt (hs.children_lt q hq))
    · rcases hkind q hq with rfl | ⟨hne', hq⟩
      · rw [hnew, hsame hne] at hqp
        exact absurd hqp.symm (Nat.ne_of_lt (hs.children_lt p hk))
      · rw [hsame hne, hsame hne'] at hqp
        exact (h.own p hp hk).1.2 q hq hqp
  · rcases hkind p hk with rfl | ⟨hne, hk⟩
    · exact hnew ▸ h.listCount_le
    · exact hsame hne ▸ (h.own p hp hk).2
  · rw [parent_withNode hs] at hp
    exact h.parents n p hn hp

theorem Heap.Growing.attach {s₀ : Heap} (h : s₀.Growing s) {n t : Nat} (ht : s₀.nodeCount ≤ t)
    (hkind : (s.kind t).hasChildren = true) (hle : s₀.nodeCount ≤ n)
    (hsound : ({ s with
      parent := update s.parent n (some t)
      lists := update s.lists (s.children t) (s.childrenOf t ++ [n]) } : Heap).Sound) :
    s₀.Growing { s with
      parent := update s.parent n (some t)
      lists := update s.lists (s.children t) (s.childrenOf t ++ [n]) } := by
  refine ⟨h.start, hsound, h.nodeCount_le, h.listCount_le, fun m hm => ?_, fun l hl => ?_, h.own,
    fun m p hm hp => ?_⟩
  · obtain ⟨hk, hp, hc⟩ := h.kept m hm
    exact ⟨hk, (Function.update_of_ne (Nat.ne_of_lt (Nat.lt_of_lt_of_le hm hle)) ..).trans hp, hc⟩
  · rw [← h.lists l hl]
    exact Function.update_of_ne (Nat.ne_of_lt (Nat.lt_of_lt_of_le hl (h.own t ht hkind).2)) ..
  · have hp' : update s.parent n (some t) m = some p := hp
    by_cases hmn : m = n
    · rw [hmn, Function.update_self] at hp'
      exact Option.some.inj hp' ▸ ht
    · rw [Function.update_of_ne hmn] at hp'
      exact h.parents m p hm hp'

/-- A new node is one more, below a parent that is new itself. -/
theorem wp_newNode {s₀ : Heap} (h : s₀.Growing s) {kind : Kind} {parent : Option Nat}
    (hparent : ∀ p ∈ parent, s₀.nodeCount ≤ p ∧ (s.kind p).hasChildren = true)
    (hroot : kind = .Root → parent = none) :
    wp (newNode kind parent) (fun n s' => s₀.Growing s' ∧ n = s.nodeCount ∧
      s'.kind = update s.kind n kind ∧ s'.nodeCount = n + 1) E s := by
  have hgrowing := h.withNode kind
  have hnone := (congrFun (parent_withNode h.sound kind) s.nodeCount).trans
    (h.sound.root_of_le (Nat.le_refl _))
  simp only [newNode, wp_bind, wp_read, wp_change]
  cases parent with
  | none => exact ⟨hgrowing, rfl, rfl, rfl⟩
  | some p =>
    obtain ⟨hp, hhas⟩ := hparent p rfl
    have hne : p ≠ s.nodeCount := Nat.ne_of_lt (h.sound.kinds_lt p hhas)
    have hsame : (s.withNode kind).kind p = s.kind p := Function.update_of_ne hne ..
    have hnew : (s.withNode kind).kind s.nodeCount = kind := Function.update_self ..
    have hhas' : ((s.withNode kind).kind p).hasChildren = true := hsame ▸ hhas
    rw [wp_bind, wp_attach hhas']
    refine ⟨hgrowing.attach hp hhas' h.nodeCount_le ?_, rfl, rfl, rfl⟩
    refine hgrowing.sound.attach (hgrowing.own p hp hhas').1 (Nat.lt_succ_self _) ?_ hnone
      hne.symm ?_
    · rw [hnew]
      exact fun hkind => by cases hroot hkind
    · rw [parent_withNode h.sound]
      exact h.sound.not_above (Nat.le_refl _)

/-! ## Detaching -/

/-- The nodes `S` have been taken from their parents. -/
structure Heap.Detached (s : Heap) (S : List Nat) (s' : Heap) : Prop where
  sound : s'.Sound
  kind : s'.kind = s.kind
  nodeCount : s'.nodeCount = s.nodeCount
  listCount_le : s.listCount ≤ s'.listCount
  lists : ∀ l < s.listCount, s'.lists l = s.lists l
  parent : ∀ n, s'.parent n = if n ∈ S then none else s.parent n

theorem Heap.Sound.detached_nil (h : s.Sound) : s.Detached [] s :=
  ⟨h, rfl, rfl, Nat.le_refl _, fun _ _ => rfl, fun _ => rfl⟩

theorem Heap.Detached.cons {n : Nat} {S : List Nat} {s'' : Heap} (h : s.Detached [n] s')
    (h' : s'.Detached S s'') : s.Detached (n :: S) s'' := by
  refine ⟨h'.sound, h'.kind.trans h.kind, h'.nodeCount.trans h.nodeCount,
    Nat.le_trans h.listCount_le h'.listCount_le, fun l hl => ?_, fun m => ?_⟩
  · rw [h'.lists l (Nat.lt_of_lt_of_le hl h.listCount_le), h.lists l hl]
  · rw [h'.parent, h.parent]
    by_cases hm : m ∈ S
    · rw [if_pos hm, if_pos (List.mem_cons_of_mem n hm)]
    · by_cases hn : m = n
      · rw [if_neg hm, if_pos (hn ▸ List.mem_cons_self), if_pos (hn ▸ List.mem_cons_self)]
      · rw [if_neg hm, if_neg fun h => hn (List.mem_singleton.mp h),
          if_neg fun h => (List.mem_cons.mp h).elim hn hm]

/-- The node gets a list of its own, and nodes may get other parents. -/
def Heap.withChildren (s : Heap) (p : Nat) (xs : List Nat) (parent : Nat → Option Nat) : Heap :=
  { s with
    parent := parent
    children := update s.children p s.listCount
    lists := update s.lists s.listCount xs
    listCount := s.listCount + 1 }

theorem Heap.Sound.childrenOf_withChildren (h : s.Sound) {p : Nat}
    (hp : (s.kind p).hasChildren = true) (xs : List Nat) (parent : Nat → Option Nat) :
    (s.withChildren p xs parent).childrenOf = update s.childrenOf p xs := by
  funext q
  change (if (s.kind q).hasChildren = true then
    update s.lists s.listCount xs (update s.children p s.listCount q) else []) = _
  by_cases hq : q = p
  · rw [hq, if_pos hp, Function.update_self, Function.update_self, Function.update_self]
  · rw [Function.update_of_ne hq, Function.update_of_ne hq]
    rcases hkind : (s.kind q).hasChildren
    · exact (Heap.childrenOf_of_not hkind).symm
    · rw [if_pos rfl, Function.update_of_ne (Nat.ne_of_lt (h.children_lt q hkind)),
        Heap.childrenOf_of_has hkind]

theorem Heap.Sound.withChildren (h : s.Sound) {p : Nat} (hp : (s.kind p).hasChildren = true)
    {xs : List Nat} (hxs : xs ⊆ s.childrenOf p) {parent : Nat → Option Nat}
    (htrees : Forest parent (update s.childrenOf p xs)) : (s.withChildren p xs parent).Sound := by
  have hlists : ∀ l, ∀ n ∈ (s.withChildren p xs parent).lists l, ∃ k, n ∈ s.lists k := by
    intro l n hn
    have hn' : n ∈ update s.lists s.listCount xs l := hn
    by_cases hl : l = s.listCount
    · rw [hl, Function.update_self] at hn'
      exact ⟨_, Heap.childrenOf_of_has hp ▸ hxs hn'⟩
    · rw [Function.update_of_ne hl] at hn'
      exact ⟨l, hn'⟩
  refine ⟨?_, fun q hq => ?_, h.kinds_lt, fun l n hn => ?_, fun l n hn => ?_⟩
  · rw [← h.childrenOf_withChildren hp xs parent] at htrees
    exact htrees
  · change update s.children p s.listCount q < s.listCount + 1
    by_cases hqp : q = p
    · rw [hqp, Function.update_self]
      exact Nat.lt_succ_self _
    · rw [Function.update_of_ne hqp]
      exact Nat.lt_succ_of_lt (h.children_lt q hq)
  · obtain ⟨k, hk⟩ := hlists l n hn
    exact h.lists_lt k n hk
  · obtain ⟨k, hk⟩ := hlists l n hn
    exact h.not_root k n hk

theorem take_drop_idxOf (xs : List Nat) (n : Nat) :
    xs.take (xs.idxOf n) ++ xs.drop (xs.idxOf n + 1) = xs.erase n := by
  rw [List.erase_eq_eraseIdx_of_idxOf rfl, List.eraseIdx_eq_take_drop_succ]

theorem wp_indexOf {p n : Nat} (hp : (s.kind p).hasChildren = true) (hn : n ∈ s.childrenOf p)
    {Q : Nat → Heap → Prop} : wp (indexOf p n) Q E s ↔ Q ((s.childrenOf p).idxOf n) s := by
  have hidx : (s.childrenOf p).idxOf? n = some ((s.childrenOf p).idxOf n) := by
    rw [List.idxOf?, List.findIdx?_eq_some_iff_findIdx_eq]
    exact ⟨List.idxOf_lt_length_of_mem hn, rfl⟩
  simp only [indexOf, wp_bind, wp_children]
  rw [if_pos hp, hidx]
  exact Iff.rfl

theorem wp_indexOf_of_not_mem {p n : Nat} (hn : n ∉ s.childrenOf p) {Q : Nat → Heap → Prop} :
    wp (indexOf p n) Q E s ↔ E s := by
  have hidx : (s.childrenOf p).idxOf? n = none := by
    rw [List.idxOf?_eq_none_iff]
    exact hn
  simp only [indexOf, wp_bind, wp_children]
  split_ifs
  · rw [hidx]
    exact Iff.rfl
  · exact Iff.rfl

theorem wp_detachNode (h : s.Sound) (n : Nat) :
    wp (detachNode n) (fun _ s' => s.Detached [n] s') E s := by
  simp only [detachNode, wp_bind, wp_read]
  rcases hn : s.parent n with _ | p
  · refine ⟨h, rfl, rfl, Nat.le_refl _, fun _ _ => rfl, fun m => ?_⟩
    by_cases hm : m = n
    · rw [hm, if_pos List.mem_cons_self, hn]
    · rw [if_neg fun h => hm (List.mem_singleton.mp h)]
  · obtain ⟨hmem, hp, -⟩ := h.child_of_parent hn
    simp only [remove, wp_bind, wp_indexOf hp hmem, wp_children, if_pos hp, wp_newList, setChildren,
      setParent, wp_change, take_drop_idxOf]
    have hsound := h.withChildren hp List.erase_subset (h.trees.cut hn)
    refine ⟨hsound, rfl, rfl, Nat.le_succ _, fun l hl => ?_, fun m => ?_⟩
    · exact Function.update_of_ne (Nat.ne_of_lt hl) ..
    · by_cases hm : m = n
      · rw [hm, if_pos List.mem_cons_self]
        exact Function.update_self ..
      · rw [if_neg fun h => hm (List.mem_singleton.mp h)]
        exact Function.update_of_ne hm ..

theorem wp_forEach_detach (h : s.Sound) (ns : List Nat) :
    wp (forEach ns detachNode) (fun _ s' => s.Detached ns s') E s := by
  induction ns generalizing s with
  | nil => exact h.detached_nil
  | cons n ns ih =>
    rw [forEach, wp_bind]
    refine (wp_detachNode h n).mono fun _ s' hs' => ?_
    exact (ih hs'.sound).mono fun _ s'' hs'' => hs'.cons hs''

/-- The nodes that there were are of the classes they were of. -/
def Heap.More (s s' : Heap) : Prop :=
  s.nodeCount ≤ s'.nodeCount ∧ ∀ n < s.nodeCount, s'.kind n = s.kind n

theorem Heap.More.refl (s : Heap) : s.More s := ⟨Nat.le_refl _, fun _ _ => rfl⟩

theorem Heap.More.trans {s'' : Heap} (h : s.More s') (h' : s'.More s'') : s.More s'' := by
  refine ⟨Nat.le_trans h.1 h'.1, fun n hn => ?_⟩
  rw [h'.2 n (Nat.lt_of_lt_of_le hn h.1), h.2 n hn]

/-- A node that there is, and not the root of a text. -/
def Heap.Has (s : Heap) (n : Nat) : Prop := n < s.nodeCount ∧ s.kind n ≠ .Root

theorem Heap.More.has {n : Nat} (h : s.More s') (hn : s.Has n) : s'.Has n :=
  ⟨Nat.lt_of_lt_of_le hn.1 h.1, h.2 n hn.1 ▸ hn.2⟩

/-! ## Parsing -/

section Parsing

variable {s₀ : Heap}

/-- Where a `Parser` is: at a node with children, of those that it has made. -/
def Heap.Current (s₀ s : Heap) (current : Option Nat) : Prop :=
  ∀ c ∈ current, s₀.nodeCount ≤ c ∧ (s.kind c).hasChildren = true

theorem Heap.Growing.current_parent (h : s₀.Growing s) {c : Nat} (hc : s₀.nodeCount ≤ c) :
    s₀.Current s (s.parent c) := by
  intro p hp
  exact ⟨h.parents c p hc hp, (h.sound.child_of_parent hp).2.1⟩

theorem openTag_new (h : s₀.Growing s) {tag : String} {limit c d : Nat} (hc : s₀.nodeCount ≤ c)
    (hd : openTag s tag limit c = some d) : s₀.nodeCount ≤ d := by
  induction limit generalizing c with
  | zero => cases hd
  | succ limit ih =>
    rw [openTag] at hd
    split at hd
    · cases hd
    · split_ifs at hd with hkind
      · cases hd
        exact hc
      · split at hd
        next p hp => exact ih (h.parents c p hc hp) hd
        · cases hd

theorem Heap.Current.more {current : Option Nat} (hcurrent : s₀.Current s current) (h : s.Sound)
    (hmore : s.More s') : s₀.Current s' current := by
  intro c hc
  obtain ⟨hle, hhas⟩ := hcurrent c hc
  rw [hmore.2 c (h.kinds_lt c hhas)]
  exact ⟨hle, hhas⟩

theorem wp_newNode_more (h : s₀.Growing s) {parent : Option Nat} (hparent : s₀.Current s parent)
    {kind : Kind} (hkind : kind ≠ .Root) : wp (newNode kind parent) (fun n s' =>
      s₀.Growing s' ∧ s.More s' ∧ s'.Has n ∧ s₀.nodeCount ≤ n ∧ s'.kind n = kind) E s := by
  refine (wp_newNode h hparent fun hroot => absurd hroot hkind).mono fun n s' hs' => ?_
  obtain ⟨hgrowing, hn, hkinds, hcount⟩ := hs'
  have hnew : s'.kind n = kind := by
    rw [hkinds, Function.update_self]
  refine ⟨hgrowing, ⟨?_, fun m hm => ?_⟩, ⟨?_, hnew ▸ hkind⟩, hn ▸ h.nodeCount_le, hnew⟩
  · rw [hcount, hn]
    exact Nat.le_succ _
  · rw [hkinds, Function.update_of_ne (Nat.ne_of_lt (hn ▸ hm))]
  · rw [hcount]
    exact Nat.lt_succ_self n

theorem wp_handle (h : s₀.Growing s) {current : Option Nat} (hcurrent : s₀.Current s current)
    (e : Event) :
    wp (handle current e) (fun next s' => s₀.Growing s' ∧ s₀.Current s' next) E s := by
  cases e with
  | data | comment | decl | pi =>
    simp only [handle, wp_bind]
    exact (wp_newNode_more h hcurrent (by decide)).mono fun n s' hs' =>
      ⟨hs'.1, hcurrent.more h.sound hs'.2.1⟩
  | starttag tag =>
    have htag : Kind.Tag tag ≠ .Root := by rintro ⟨⟩
    simp only [handle, handle_starttag]
    split_ifs
    · simp only [wp_bind]
      exact (wp_newNode_more h hcurrent htag).mono fun n s' hs' =>
        ⟨hs'.1, hcurrent.more h.sound hs'.2.1⟩
    · simp only [wp_bind, wp_read]
      refine (wp_newNode_more h ?_ htag).mono fun n s' hs' => ?_
      · rcases current with _ | c
        · exact fun c hc => by cases hc
        · simp only
          split_ifs
          · exact h.current_parent (hcurrent c rfl).1
          · exact hcurrent
      · obtain ⟨hgrowing, -, -, hn, hkind⟩ := hs'
        refine ⟨hgrowing, fun c hc => ?_⟩
        cases hc
        exact ⟨hn, hkind ▸ rfl⟩
  | endtag tag =>
    simp only [handle, handle_endtag, wp_bind, wp_read]
    rcases hopen : current.bind (openTag s tag s.nodeCount) with _ | d
    · exact ⟨h, hcurrent⟩
    · obtain ⟨c, hc, hd⟩ := Option.bind_eq_some_iff.mp hopen
      exact ⟨h, h.current_parent (openTag_new h (hcurrent c hc).1 hd)⟩

theorem wp_feed (h : s₀.Growing s) {current : Option Nat} (hcurrent : s₀.Current s current)
    (es : List Event) :
    wp (feed current es) (fun _ s' => s₀.Growing s' ∧ (es = [] → s' = s)) E s := by
  induction es generalizing s current with
  | nil => exact ⟨h, fun _ => rfl⟩
  | cons e es ih =>
    rw [feed, wp_bind]
    refine (wp_handle h hcurrent e).mono fun next s₁ hs₁ => ?_
    exact (ih hs₁.1 hs₁.2).mono fun _ s' hs' => ⟨hs'.1, fun hnil => nomatch hnil⟩

/-- What parsing leaves: the rest as it was, and a list of nodes that are new and in nothing. -/
structure Heap.Parsed (s₀ s : Heap) (result : Nat) : Prop where
  sound : s.Sound
  nodeCount_le : s₀.nodeCount ≤ s.nodeCount
  listCount_le : s₀.listCount ≤ s.listCount
  kind : ∀ n < s₀.nodeCount, s.kind n = s₀.kind n
  parent : ∀ n < s₀.nodeCount, s.parent n = s₀.parent n
  parents : ∀ n p, s₀.nodeCount ≤ n → s.parent n = some p → s₀.nodeCount ≤ p
  lists : ∀ l < s₀.listCount, s.lists l = s₀.lists l
  lt : result < s.listCount
  nodup : (s.lists result).Nodup
  new : ∀ n ∈ s.lists result, s₀.nodeCount ≤ n
  roots : ∀ n ∈ s.lists result, s.parent n = none

theorem Heap.Growing.parsed (h : s₀.Growing s) {root : Nat} (hroot : s₀.nodeCount ≤ root) :
    wp (do let result ← newList (s.childrenOf root); detach result; pure result)
      (fun result s' => s₀.Parsed s' result ∧ s'.lists result = s.childrenOf root) E s := by
  have hmem : ∀ n ∈ s.childrenOf root, s₀.nodeCount ≤ n ∧ n < s.nodeCount ∧ s.kind n ≠ .Root := by
    intro n hn
    have hparent := (h.sound.trees.mem_children n root).mp hn
    obtain ⟨-, -, hlist⟩ := h.sound.child_of_parent hparent
    refine ⟨?_, (h.sound.parent_lt hparent).1, h.sound.not_root _ n hlist⟩
    -- an old node has an old parent
    by_contra hlt
    rw [(h.kept n (Nat.lt_of_not_le hlt)).2.1] at hparent
    exact absurd hroot (Nat.not_le_of_lt (h.start.parent_lt hparent).2)
  have hsound := h.sound.newList fun n hn => (hmem n hn).2
  rw [wp_bind, wp_newList, wp_bind, detach, wp_bind, wp_read]
  refine (wp_forEach_detach hsound _).mono fun _ s' hs' => ?_
  have hresult : s'.lists s.listCount = s.childrenOf root :=
    (hs'.lists _ (Nat.lt_succ_self _)).trans (Function.update_self ..)
  have hns : (update s.lists s.listCount (s.childrenOf root)) s.listCount = s.childrenOf root :=
    Function.update_self ..
  refine ⟨⟨hs'.sound, ?_, ?_, fun n hn => ?_, fun n hn => ?_, fun n p hn hp => ?_, fun l hl => ?_, ?_,
    ?_, fun n hn => ?_, fun n hn => ?_⟩, hresult⟩
  · rw [hs'.nodeCount]
    exact h.nodeCount_le
  · exact Nat.le_trans (Nat.le_succ_of_le h.listCount_le) hs'.listCount_le
  · rw [hs'.kind]
    exact (h.kept n hn).1
  · rw [hs'.parent, if_neg fun hmem' => ?_]
    · exact (h.kept n hn).2.1
    · exact absurd (hmem n (hns ▸ hmem')).1 (Nat.not_le_of_lt hn)
  · rw [hs'.parent] at hp
    split_ifs at hp
    exact h.parents n p hn hp
  · rw [hs'.lists l (Nat.lt_succ_of_lt (Nat.lt_of_lt_of_le hl h.listCount_le)), ← h.lists l hl]
    exact Function.update_of_ne (Nat.ne_of_lt (Nat.lt_of_lt_of_le hl h.listCount_le)) ..
  · exact Nat.lt_of_lt_of_le (Nat.lt_succ_self _) hs'.listCount_le
  · rw [hresult]
    exact h.sound.trees.nodup root
  · rw [hresult] at hn
    exact (hmem n hn).1
  · rw [hresult] at hn
    rw [← hns] at hn
    exact (hs'.parent n).trans (if_pos hn)

theorem wp_parse (h : s.Sound) (text : List Event) : wp (parse text) (fun result s' =>
    s.Parsed s' result ∧ (text = [] → s'.lists result = [])) E s := by
  rw [parse, wp_bind]
  refine (wp_newNode h.growing ?_ fun _ => rfl).mono fun root s₁ hs₁ => ?_
  · exact fun _ hp => absurd hp (Option.not_mem_none _)
  obtain ⟨hgrowing₁, hroot, hkind, hcount⟩ := hs₁
  have hempty : s₁.childrenOf root = [] := by
    refine List.eq_nil_iff_forall_not_mem.mpr fun m hm => ?_
    have hparent := (hgrowing₁.sound.trees.mem_children m root).mp hm
    rcases Nat.lt_or_ge m s.nodeCount with hlt | hle
    · rw [(hgrowing₁.kept m hlt).2.1] at hparent
      exact absurd (h.parent_lt hparent).2 (hroot ▸ Nat.lt_irrefl _)
    · have hlt := (hgrowing₁.sound.parent_lt hparent).1
      obtain rfl : m = root := by omega
      exact hgrowing₁.sound.trees.acyclic m (.single hparent)
  rw [wp_bind]
  refine (wp_feed hgrowing₁ (fun c hc => ?_) text).mono fun _ s₂ hs₂ => ?_
  · cases hc
    rw [hkind, Function.update_self, hroot]
    exact ⟨Nat.le_refl _, rfl⟩
  · rw [wp_bind, wp_read]
    refine (hs₂.1.parsed (Nat.le_of_eq hroot.symm)).mono fun result s' hs' => ?_
    exact ⟨hs'.1, fun hnil => by rw [hs'.2, hs₂.2 hnil, hempty]⟩

theorem Heap.Parsed.not_above (h : s₀.Parsed s' n) (hs : s₀.Sound) {t m : Nat}
    (ht : t < s₀.nodeCount) (hm : s₀.nodeCount ≤ m) : ¬ Above s'.parent t m := by
  intro habove
  suffices hlt : m < s₀.nodeCount from absurd hm (Nat.not_le_of_lt hlt)
  induction habove with
  | single hp =>
    rw [h.parent t ht] at hp
    exact (hs.parent_lt hp).2
  | @tail b c _ hp ih =>
    rcases Nat.lt_or_ge b s₀.nodeCount with hb | hb
    · rw [h.parent b hb] at hp
      exact (hs.parent_lt hp).2
    · exact absurd (ih hb) (Nat.not_lt_of_le hb)

end Parsing

/-! ## Putting nodes somewhere -/

theorem wp_setParents (S : List Nat) (t : Nat) {Q : Unit → Heap → Prop} :
    wp (forEach S fun n => setParent n (some t)) Q E s ↔
      Q () { s with parent := under s.parent S t } := by
  induction S generalizing s with
  | nil => exact Iff.rfl
  | cons n S ih =>
    rw [forEach, wp_bind, setParent, wp_change, ih]
    simp only [under_cons]

/-- The first node, if it has children, gets those of a list instead: the list, where what it had
is in it. -/
theorem wp_html_first (h : s.Sound) {t nodes : Nat} (ht : (s.kind t).hasChildren = true)
    (hlt : nodes < s.listCount) (hempty : s.childrenOf t = [])
    (hgraft : s.Graftable (s.lists nodes) t) :
    wp (do setChildren t nodes; forEach (s.lists nodes) fun c => setParent c (some t))
      (fun _ s' => s'.Sound ∧ s'.kind = s.kind ∧ s'.nodeCount = s.nodeCount ∧
        s'.listCount = s.listCount ∧ s'.lists = s.lists ∧
        s'.parent = under s.parent (s.lists nodes) t) E s := by
  rw [wp_bind, setChildren, wp_change, wp_setParents]
  refine ⟨?_, rfl, rfl, rfl, rfl, rfl⟩
  have hchildren : ({ s with
      parent := under s.parent (s.lists nodes) t
      children := update s.children t nodes } : Heap).childrenOf =
        update s.childrenOf t (s.lists nodes) := by
    funext q
    change (if (s.kind q).hasChildren = true then s.lists (update s.children t nodes q) else []) = _
    by_cases hq : q = t
    · rw [hq, if_pos ht, Function.update_self, Function.update_self]
    · rw [Function.update_of_ne hq, Function.update_of_ne hq]
      rfl
  refine ⟨?_, fun p hp => ?_, h.kinds_lt, h.lists_lt, h.not_root⟩
  · rw [Heap.Trees, hchildren]
    refine h.trees.graft ?_ hgraft.nodup hgraft.roots hgraft.free
    rw [hempty, List.append_nil]
  · change update s.children t nodes p < s.listCount
    by_cases hpt : p = t
    · rw [hpt, Function.update_self]
      exact hlt
    · rw [Function.update_of_ne hpt]
      exact h.children_lt p hp

/-! ## The conditions -/

/-- A node with children may get those of a list: each is in it once, what the node has is
among them, and the node is not in one of them. -/
structure Heap.Receives (s : Heap) (t : Nat) (ns : List Nat) : Prop where
  nodup : ns.Nodup
  subset : ∀ c ∈ s.childrenOf t, c ∈ ns
  free : ∀ n ∈ ns, n ≠ t ∧ ¬ Above s.parent t n

/-- What `html` leaves, where it returns. -/
structure Heap.Filled (s : Heap) (selection nodes : Nat) (s' : Heap) : Prop where
  sound : s'.Sound
  kind : s'.kind = s.kind
  nodeCount : s'.nodeCount = s.nodeCount
  parent : ∀ m p, s'.parent m = some p →
    s.parent m = some p ∨ m ∈ s.lists nodes ∧ (s.lists selection).head? = some p
  target : ∀ t ∈ (s.lists selection).head?, (s.kind t).hasChildren = true

theorem wp_html (h : s.Sound) {self nodes : Nat} (hself : self < s.listCount)
    (hnodes : nodes < s.listCount)
    (hreceives : ∀ t ∈ (s.lists self).head?, (s.kind t).hasChildren = true →
      s.Receives t (s.lists nodes)) :
    wp (html self nodes) (fun _ s' => s.Filled self nodes s') Heap.Sound s := by
  rw [html, wp_bind, wp_read, wp_bind]
  refine (wp_forEach_detach h _).mono fun _ s₁ hs₁ => ?_
  have hparent : ∀ m p, s₁.parent m = some p → s.parent m = some p := by
    intro m p hm
    rw [hs₁.parent] at hm
    split_ifs at hm
    exact hm
  rw [wp_bind, wp_read, hs₁.lists self hself, hs₁.lists nodes hnodes, hs₁.kind]
  rcases hhead : (s.lists self).head? with _ | t
  · refine ⟨hs₁.sound, hs₁.kind, hs₁.nodeCount, fun m p hm => .inl (hparent m p hm), fun t ht => ?_⟩
    rw [hhead] at ht
    cases ht
  · simp only
    split_ifs with ht
    · obtain ⟨hnodup, hsubset, hfree⟩ := hreceives t hhead ht
      have hempty : s₁.childrenOf t = [] := by
        refine List.eq_nil_iff_forall_not_mem.mpr fun c hc => ?_
        rw [hs₁.sound.trees.mem_children, hs₁.parent] at hc
        split_ifs at hc with hmem
        exact hmem (hsubset c ((h.trees.mem_children c t).mpr hc))
      have hgraft : s₁.Graftable (s.lists nodes) t := by
        refine ⟨hnodup, fun n hn => ?_, fun n hn => ⟨(hfree n hn).1, fun habove => ?_⟩⟩
        · rw [hs₁.parent, if_pos hn]
        · exact (hfree n hn).2 (habove.mono hparent)
      have hlt := Nat.lt_of_lt_of_le hnodes hs₁.listCount_le
      have hlist := hs₁.lists nodes hnodes
      have hfirst := wp_html_first (E := Heap.Sound) hs₁.sound (hs₁.kind ▸ ht) hlt hempty
        (hlist ▸ hgraft)
      rw [hlist] at hfirst
      refine hfirst.mono fun _ s' hs' => ?_
      obtain ⟨hsound, hkind, hcount, -, -, hparent'⟩ := hs'
      refine ⟨hsound, hkind.trans hs₁.kind, hcount.trans hs₁.nodeCount, fun m p hm => ?_,
        fun t' ht' => ?_⟩
      · rw [hparent', under] at hm
        split_ifs at hm with hmem
        · exact .inr ⟨hmem, hhead.trans hm⟩
        · exact .inl (hparent m p hm)
      · rw [hhead] at ht'
        cases ht'
        exact ht
    · exact hs₁.sound

/-- The nodes that a text is parsed to may be put in a node that is empty. -/
theorem Heap.Parsed.receives {s₀ : Heap} {result t : Nat} (h : s₀.Parsed s result) (hs : s₀.Sound)
    (ht : t < s₀.nodeCount) (hempty : s₀.childrenOf t = []) : s.Receives t (s.lists result) := by
  refine ⟨h.nodup, fun c hc => ?_, fun n hn => ?_⟩
  · rw [h.sound.trees.mem_children] at hc
    rcases Nat.lt_or_ge c s₀.nodeCount with hlt | hle
    · rw [h.parent c hlt, ← hs.trees.mem_children, hempty] at hc
      cases hc
    · exact absurd (h.parents c t hle hc) (Nat.not_le_of_lt ht)
  · have hle := h.new n hn
    exact ⟨Nat.ne_of_gt (Nat.lt_of_lt_of_le ht hle), h.not_above hs ht hle⟩

theorem wp_htmlText (h : s.Sound) {self : Nat} (hself : self < s.listCount)
    {text : List Event} (hempty : ∀ t ∈ (s.lists self).head?, (s.kind t).hasChildren = true →
      s.childrenOf t = []) :
    wp (htmlText self text) (fun _ s' => s'.Sound) Heap.Sound s := by
  rw [htmlText, wp_bind]
  refine (wp_parse h text).mono fun result s₁ hs₁ => ?_
  obtain ⟨hparsed, -⟩ := hs₁
  refine (wp_html hparsed.sound (Nat.lt_of_lt_of_le hself hparsed.listCount_le) hparsed.lt
    fun t ht hkind => ?_).mono fun _ s' hs' => hs'.sound
  rw [hparsed.lists self hself] at ht
  have hlt := h.lists_lt self t (List.mem_of_mem_head? ht)
  rw [hparsed.kind t hlt] at hkind
  exact hparsed.receives h hlt (hempty t ht hkind)

theorem wp_addBeside (h : s.Sound) {self nodes offset : Nat}
    (hgraft : ∀ x ∈ (s.lists nodes).head?, ∀ p ∈ s.parent x, s.Graftable (s.lists self) p) :
    wp (addBeside self nodes offset) (fun _ s' => s'.Sound) Heap.Sound s := by
  rw [addBeside, wp_bind, wp_read]
  rcases hhead : (s.lists nodes).head? with _ | x
  · exact h
  · simp only
    rcases hx : s.parent x with _ | p
    · exact h
    · obtain ⟨hmem, hp, -⟩ := h.child_of_parent hx
      have hchildren : ({ s with parent := under s.parent (s.lists self) p } : Heap).childrenOf =
          s.childrenOf := rfl
      simp only [wp_bind, wp_indexOf hp hmem, wp_setParents, wp_children, changeChildren, wp_change,
        if_pos hp, hchildren]
      refine h.graft (h.unshared hx) (fun n hn => ⟨h.lists_lt _ n hn, h.not_root _ n hn⟩)
        (hgraft x hhead p hx) ?_
      refine (List.Perm.append_right _ List.perm_append_comm).trans ?_
      rw [List.append_assoc, List.take_append_drop]

/-- The target that nodes are appended to has children, in a list that no other node has, and
the nodes may become its children. -/
structure Heap.Appendable (s : Heap) (S : List Nat) (t : Nat) : Prop where
  unshared : s.Unshared t
  graftable : s.Graftable S t

theorem Heap.Graftable.tail {n t : Nat} {S : List Nat} (h : s.Graftable (n :: S) t) :
    ({ s with
      parent := update s.parent n (some t)
      lists := update s.lists (s.children t) (s.childrenOf t ++ [n]) } : Heap).Graftable S t := by
  obtain ⟨hn, hS⟩ := List.nodup_cons.mp h.nodup
  have hfree := h.free n List.mem_cons_self
  refine ⟨hS, fun m hm => ?_, fun m hm => ?_⟩
  · have hne : m ≠ n := fun hmn => hn (hmn ▸ hm)
    exact (Function.update_of_ne hne ..).trans (h.roots m (List.mem_cons_of_mem n hm))
  · obtain ⟨hne, hnot⟩ := h.free m (List.mem_cons_of_mem n hm)
    refine ⟨hne, fun habove => ?_⟩
    change Above (update s.parent n (some t)) t m at habove
    rw [← under_single] at habove
    rcases above_under (fun k hk => List.mem_singleton.mp hk ▸ hfree) habove with
      habove | ⟨⟨k, hk, htk⟩, -⟩
    · exact hnot habove
    · rw [List.mem_singleton.mp hk] at htk
      rcases htk with htn | habove
      · exact hfree.1 htn.symm
      · exact hfree.2 habove

theorem wp_forEach_attach (h : s.Sound) {S : List Nat} {t : Nat}
    (hS : ∀ n ∈ S, n < s.nodeCount ∧ s.kind n ≠ .Root) (happend : s.Appendable S t) :
    wp (forEach S fun n => attach n t) (fun _ s' => s'.Sound) Heap.Sound s := by
  induction S generalizing s with
  | nil => exact h
  | cons n S ih =>
    obtain ⟨hunshared, hgraft⟩ := happend
    obtain ⟨hlt, hkind⟩ := hS n List.mem_cons_self
    obtain ⟨hne, hnot⟩ := hgraft.free n List.mem_cons_self
    rw [forEach, wp_bind, wp_attach hunshared.1]
    exact ih (h.attach hunshared hlt hkind (hgraft.roots n List.mem_cons_self) hne hnot)
      (fun m hm => hS m (List.mem_cons_of_mem n hm)) ⟨hunshared, hgraft.tail⟩

theorem wp_appendTo (h : s.Sound) {self nodes : Nat}
    (happend : s.lists self ≠ [] → ∀ t ∈ (s.lists nodes).head?, s.Appendable (s.lists self) t) :
    wp (appendTo self nodes) (fun _ s' => s'.Sound) Heap.Sound s := by
  rw [appendTo, wp_bind, wp_read]
  rcases hself : s.lists self with _ | ⟨n, ns⟩
  · exact h
  · rcases hhead : (s.lists nodes).head? with _ | t
    · exact h
    · rw [hself] at happend
      have hns : ∀ m ∈ n :: ns, m < s.nodeCount ∧ s.kind m ≠ .Root := by
        intro m hm
        rw [← hself] at hm
        exact ⟨h.lists_lt _ m hm, h.not_root _ m hm⟩
      simp only
      rw [wp_bind]
      refine (wp_forEach_attach h hns (happend (List.cons_ne_nil n ns) t hhead)).mono
        fun _ s' hs' => ?_
      split_ifs
      · exact hs'
      · exact hs'

theorem Kind.hasChildren_of_isTag {kind : Kind} (h : kind.isTag = true) :
    kind.hasChildren = true := by
  cases kind with
  | Tag tagName => rfl
  | Root | Data | Comment | Decl | PI => cases h

/-- A node replaced by itself is only taken from where it was. -/
theorem wp_replace (h : s.Sound) {self nodes : Nat}
    (hsame : ∀ x ∈ (s.lists nodes).head?, ∀ p ∈ s.parent x, (s.kind p).isTag = true →
      ∀ y ∈ (s.lists self).head?, y = x) :
    wp (replace self nodes) (fun _ s' => s'.Sound) Heap.Sound s := by
  rw [replace, wp_bind, wp_read]
  rcases hhead : (s.lists nodes).head? with _ | x
  · exact h
  · simp only
    rcases hx : s.parent x with _ | p
    · exact h
    · simp only
      split_ifs with htag
      · rcases hhead' : (s.lists self).head? with _ | y
        · exact h
        · obtain rfl := hsame x hhead p hx htag y hhead'
          simp only [replaceChild, wp_bind]
          refine (wp_detachNode h y).mono fun _ s' hs' => ?_
          have hnot : y ∉ s'.childrenOf p := by
            rw [hs'.sound.trees.mem_children, hs'.parent, if_pos List.mem_cons_self]
            rintro ⟨⟩
          rw [wp_bind]
          exact (wp_indexOf_of_not_mem hnot).mpr hs'.sound
      · exact h

/-! ## Emptying and cloning -/

theorem wp_clearParents (S : List Nat) {Q : Unit → Heap → Prop} :
    wp (forEach S fun n => setParent n none) Q E s ↔
      Q () { s with parent := fun n => if n ∈ S then none else s.parent n } := by
  induction S generalizing s with
  | nil => exact Iff.rfl
  | cons n S ih =>
    have hparent : (fun m => if m ∈ S then none else update s.parent n none m) =
        fun m => if m ∈ n :: S then none else s.parent m := by
      funext m
      by_cases hm : m ∈ S
      · rw [if_pos hm, if_pos (List.mem_cons_of_mem n hm)]
      · by_cases hn : m = n
        · rw [if_neg hm, hn, Function.update_self, if_pos List.mem_cons_self]
        · rw [if_neg hm, Function.update_of_ne hn,
            if_neg fun h => (List.mem_cons.mp h).elim hn hm]
    rw [forEach, wp_bind, setParent, wp_change, ih]
    simp only [hparent]

theorem wp_empty (h : s.Sound) (self : Nat) :
    wp (empty self) (fun _ s' => s'.Sound) Heap.Sound s := by
  rw [empty, wp_bind, wp_read]
  generalize s.lists self = ns
  induction ns generalizing s with
  | nil => exact h
  | cons n ns ih =>
    rw [forEach, wp_bind, wp_bind, wp_read]
    split_ifs with htag
    · rw [wp_bind, wp_clearParents, wp_bind, wp_newList, setChildren, wp_change]
      exact ih (h.withChildren (Kind.hasChildren_of_isTag htag) (List.nil_subset _)
        (h.trees.clear n))
    · exact ih h

section Cloning

variable {s₀ : Heap}

theorem wp_cloneNode (h : s₀.Growing s) (limit : Nat) {n : Nat} (hn : s.kind n ≠ .Root)
    {newParent : Option Nat} (hparent : s₀.Current s newParent) :
    wp (cloneNode limit n newParent) (fun r s' => s₀.Growing s' ∧ s.More s' ∧ s'.Has r)
      Heap.Sound s := by
  induction limit generalizing s n newParent with
  | zero => exact h.sound
  | succ limit ih =>
    rw [cloneNode, wp_bind, wp_read]
    rcases hkind : s.kind n with _ | tagName | _ | _ | _ | _
    · exact absurd hkind hn
    · simp only [wp_bind]
      refine (wp_newNode_more h hparent (by rw [← hkind]; exact hn)).mono fun r s₁ hs₁ => ?_
      obtain ⟨hgrowing, hmore, hr, hle, hnew⟩ := hs₁
      have hcurrent : s₀.Current s₁ (some r) := by
        intro c hc
        cases hc
        exact ⟨hle, hnew ▸ rfl⟩
      generalize s.childrenOf n = cs
      -- each child is cloned below the clone
      suffices hloop : ∀ s₂, s₀.Growing s₂ → s₁.More s₂ →
          wp (forEach cs (cloneBelow (cloneNode limit) r))
            (fun _ s' => s₀.Growing s' ∧ s₁.More s') Heap.Sound s₂ by
        rw [wp_bind]
        refine (hloop s₁ hgrowing (.refl s₁)).mono fun _ s' hs' => ?_
        exact ⟨hs'.1, hmore.trans hs'.2, hs'.2.has hr⟩
      induction cs with
      | nil => exact fun s₂ hs₂ hmore₂ => ⟨hs₂, hmore₂⟩
      | cons c cs ihcs =>
        intro s₂ hs₂ hmore₂
        rw [forEach, wp_bind, cloneBelow, wp_bind, wp_read]
        split_ifs with hroot
        · exact hs₂.sound
        · rw [ignore, wp_bind]
          refine (ih hs₂ hroot (hcurrent.more hgrowing.sound hmore₂)).mono fun _ s₃ hs₃ => ?_
          exact ihcs s₃ hs₃.1 (hmore₂.trans hs₃.2.1)
    · exact (wp_newNode_more h hparent (by decide)).mono fun r s' hs' => ⟨hs'.1, hs'.2.1, hs'.2.2.1⟩
    · exact (wp_newNode_more h hparent (by decide)).mono fun r s' hs' => ⟨hs'.1, hs'.2.1, hs'.2.2.1⟩
    · exact (wp_newNode_more h hparent (by decide)).mono fun r s' hs' => ⟨hs'.1, hs'.2.1, hs'.2.2.1⟩
    · exact (wp_newNode_more h hparent (by decide)).mono fun r s' hs' => ⟨hs'.1, hs'.2.1, hs'.2.2.1⟩

theorem wp_clone (h : s.Sound) (limit self : Nat) :
    wp (clone limit self) (fun _ s' => s'.Sound) Heap.Sound s := by
  rw [clone, wp_bind, wp_read, wp_bind]
  have hns : ∀ n ∈ s.lists self, s.Has n := fun n hn => ⟨h.lists_lt _ n hn, h.not_root _ n hn⟩
  generalize s.lists self = ns at hns
  suffices hloop : ∀ s₁, s.Growing s₁ → s.More s₁ → wp (mapEach ns fun n => cloneNode limit n none)
      (fun rs s' => s.Growing s' ∧ s₁.More s' ∧ ∀ r ∈ rs, s'.Has r) Heap.Sound s₁ by
    refine (hloop s h.growing (.refl s)).mono fun rs s' hs' => ?_
    exact hs'.1.sound.newList hs'.2.2
  induction ns with
  | nil => exact fun s₁ hs₁ _ => ⟨hs₁, .refl s₁, fun _ hr => nomatch hr⟩
  | cons n ns ih =>
    intro s₁ hs₁ hmore₁
    obtain ⟨hn, hns⟩ := List.forall_mem_cons.mp hns
    rw [mapEach, wp_bind]
    refine (wp_cloneNode hs₁ limit (hmore₁.has hn).2 ?_).mono fun r s₂ hs₂ => ?_
    · exact fun c hc => nomatch hc
    · obtain ⟨hgrowing₂, hmore₂, hr⟩ := hs₂
      rw [wp_bind]
      refine (ih hns s₂ hgrowing₂ (hmore₁.trans hmore₂)).mono fun rs s₃ hs₃ => ?_
      obtain ⟨hgrowing₃, hmore₃, hrs⟩ := hs₃
      exact ⟨hgrowing₃, hmore₂.trans hmore₃, List.forall_mem_cons.mpr ⟨hmore₃.has hr, hrs⟩⟩

end Cloning

/-! ## Text -/

/-- `text` comes to nodes that have no children, and to each once, unless the text is nothing:
as far as it gets, that is up to the first that can have none. -/
def Heap.Writable (s : Heap) (ns : List Nat) (text : List Event) : Prop :=
  ∀ reached n rest, ns = reached ++ n :: rest →
    (∀ m ∈ reached, (s.kind m).hasChildren = true) → (s.kind n).hasChildren = true →
      s.childrenOf n = [] ∧ (n ∈ reached → text = [])

theorem wp_forEach_text (h : s.Sound) {ns : List Nat} (hns : ∀ n ∈ ns, s.Has n)
    {text : List Event} (hwritable : s.Writable ns text) :
    wp (forEach ns fun n => do
      let ss ← parse text
      let one ← newList [n]
      html one ss) (fun _ s' => s'.Sound) Heap.Sound s := by
  -- That the rest is writable has to be shown again after each node, since writing changes
  -- the children.
  induction ns generalizing s with
  | nil => exact h
  | cons n ns ih =>
    obtain ⟨hn, hns⟩ := List.forall_mem_cons.mp hns
    rw [forEach, wp_bind, wp_bind]
    refine (wp_parse h text).mono fun ss s₁ hs₁ => ?_
    obtain ⟨hparsed, hnothing⟩ := hs₁
    have hmore : s.More s₁ := ⟨hparsed.nodeCount_le, hparsed.kind⟩
    have hn₁ := hmore.has hn
    rw [wp_bind, wp_newList]
    have honly : ∀ m ∈ [n], m < s₁.nodeCount ∧ s₁.kind m ≠ .Root :=
      fun m hm => List.mem_singleton.mp hm ▸ hn₁
    have hsound₂ := hparsed.sound.newList honly
    have hone : update s₁.lists s₁.listCount [n] s₁.listCount = [n] := Function.update_self ..
    have hss : update s₁.lists s₁.listCount [n] ss = s₁.lists ss :=
      Function.update_of_ne (Nat.ne_of_lt hparsed.lt) ..
    refine (wp_html hsound₂ (Nat.lt_succ_self _) (Nat.lt_succ_of_lt hparsed.lt)
      fun t ht hkind => ?_).mono fun _ s₃ hs₃ => ?_
    · obtain rfl : n = t := by
        change t ∈ (update s₁.lists s₁.listCount [n] s₁.listCount).head? at ht
        rw [hone] at ht
        exact Option.some.inj ht
      change (s₁.kind n).hasChildren = true at hkind
      rw [hparsed.kind n hn.1] at hkind
      have hempty := (hwritable [] n ns rfl (fun _ hm => nomatch hm) hkind).1
      obtain ⟨hnodup, hsubset, hfree⟩ := hparsed.receives h hn.1 hempty
      change Heap.Receives _ n (update s₁.lists s₁.listCount [n] ss)
      rw [hss]
      refine ⟨hnodup, fun c hc => hsubset c ?_, hfree⟩
      rwa [hparsed.sound.childrenOf_newList] at hc
    · have hkind₃ : ∀ m < s.nodeCount, s₃.kind m = s.kind m := fun m hm =>
        (congrFun hs₃.kind m).trans (hparsed.kind m hm)
      have hmore₃ : s.More s₃ := ⟨hs₃.nodeCount ▸ hparsed.nodeCount_le, hkind₃⟩
      have htarget := hs₃.target n (by
        change (update s₁.lists s₁.listCount [n] s₁.listCount).head? = some n
        rw [hone]
        rfl)
      change (s₁.kind n).hasChildren = true at htarget
      rw [hparsed.kind n hn.1] at htarget
      refine ih hs₃.sound (fun m hm => hmore₃.has (hns m hm)) fun reached m rest hsplit hreached hm => ?_
      have hold : ∀ k ∈ ns, s₃.kind k = s.kind k := fun k hk => hkind₃ k (hns k hk).1
      have hmem : m ∈ ns := hsplit ▸ List.mem_append_right _ List.mem_cons_self
      have hbefore := hwritable (n :: reached) m rest (by rw [hsplit]; rfl)
        (List.forall_mem_cons.mpr ⟨htarget, fun k hk => ?_⟩) (hold m hmem ▸ hm)
      · obtain ⟨hempty, hagain⟩ := hbefore
        refine ⟨List.eq_nil_iff_forall_not_mem.mpr fun c hc => ?_,
          fun hm => hagain (List.mem_cons_of_mem n hm)⟩
        rcases hs₃.parent c m ((hs₃.sound.trees.mem_children c m).mp hc) with
          hparent | ⟨hmem', hhead⟩
        · change s₁.parent c = some m at hparent
          rcases Nat.lt_or_ge c s.nodeCount with hlt | hle
          · rw [hparsed.parent c hlt, ← h.trees.mem_children, hempty] at hparent
            cases hparent
          · exact absurd (hparsed.parents c m hle hparent) (Nat.not_le_of_lt (hns m hmem).1)
        -- The same node again: the text was empty, or it would not be reached.
        · change (update s₁.lists s₁.listCount [n] s₁.listCount).head? = some m at hhead
          rw [hone] at hhead
          obtain rfl := Option.some.inj hhead
          change c ∈ update s₁.lists s₁.listCount [n] ss at hmem'
          rw [hss, hnothing (hagain List.mem_cons_self)] at hmem'
          cases hmem'
      · have hk' : k ∈ ns := hsplit ▸ List.mem_append_left _ hk
        exact hold k hk' ▸ hreached k hk

theorem wp_text (h : s.Sound) {self : Nat} {text : List Event}
    (hwritable : s.Writable (s.lists self) text) :
    wp (Pq.text self text) (fun _ s' => s'.Sound) Heap.Sound s := by
  rw [Pq.text, wp_bind, wp_read]
  exact wp_forEach_text h (fun n hn => ⟨h.lists_lt _ n hn, h.not_root _ n hn⟩) hwritable

end Urnest.Pq
