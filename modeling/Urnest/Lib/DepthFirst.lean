import Mathlib.Data.List.Nodup
import Mathlib.Data.List.Pairwise
import Mathlib.Logic.Relation
import Mathlib.Tactic.Common

/-!
# Depth-first walks

A walk from a node lists what it comes to, each node behind those that it depends on, and leaves
out what has been seen (`walk`). What a walk, or one walk after the other, amounts to is
`Walked`: walks are put together by `Walked.append`, and `Walked.closed_of_closed` and
`Walked.reached` say what they find.
-/

namespace Lib

open Relation (ReflTransGen TransGen)

variable {ν : Type} [DecidableEq ν]

/-- What a walk does with a dependency. The state: the nodes that it has listed, and those that
have been seen -/
def visit (walk : ν → List ν → Option (List ν × List ν)) (s : List ν × List ν) (node : ν) :
    Option (List ν × List ν) :=
  if node ∈ s.2 then some s else (walk node s.2).map fun r => (s.1 ++ r.1, r.2)

/-- The nodes in the order that a depth-first walk from `node` leaves them in, and all that have
been seen then. There is no result at a node that is not in the graph, or without enough fuel. -/
def walk (deps : ν → Option (List ν)) : Nat → ν → List ν → Option (List ν × List ν)
  | 0, _, _ => none
  | fuel + 1, node, seen =>
    (deps node).bind fun nodes =>
      (nodes.foldlM (visit (walk deps fuel)) ([], node :: seen)).map fun s => (s.1 ++ [node], s.2)

section Walks

variable (deps : ν → Option (List ν))

omit [DecidableEq ν] in
def DependsOn (x y : ν) : Prop := ∃ nodes, deps x = some nodes ∧ y ∈ nodes

omit [DecidableEq ν] in
/-- No node depends on itself by way of another. -/
def Acyclic : Prop := ∀ x y, x ≠ y → DependsOn deps x y → ¬ReflTransGen (DependsOn deps) y x

/-- From `starts` the nodes of `result` have been reached, and are seen now. -/
structure Walked (starts seen result seen' : List ν) : Prop where
  nodup : result.Nodup
  mem_seen : ∀ x, x ∈ seen' ↔ x ∈ seen ∨ x ∈ result
  not_mem : ∀ x ∈ result, x ∉ seen
  reached : ∀ x ∈ result, ∃ start ∈ starts, ReflTransGen (DependsOn deps) start x
  closed : ∀ x ∈ result, ∀ y, DependsOn deps x y → y ∈ seen'
  ordered : Acyclic deps → result.Pairwise fun x y => ¬DependsOn deps x y

end Walks

namespace Walked

variable {deps : ν → Option (List ν)} {starts starts' seen result seen' result' seen'' : List ν}

omit [DecidableEq ν]

theorem nil (starts seen : List ν) : Walked deps starts seen [] seen where
  nodup := .nil
  mem_seen _ := (or_iff_left List.not_mem_nil).symm
  not_mem := List.forall_mem_nil _
  reached := List.forall_mem_nil _
  closed := List.forall_mem_nil _
  ordered _ := .nil

/-- Only which nodes have been seen matters. -/
theorem congr {seenBefore seenAfter : List ν} (h : Walked deps starts seen result seen')
    (hbefore : ∀ x, x ∈ seenBefore ↔ x ∈ seen) (hafter : ∀ x, x ∈ seenAfter ↔ x ∈ seen') :
    Walked deps starts seenBefore result seenAfter where
  nodup := h.nodup
  mem_seen x := by rw [hbefore, hafter, h.mem_seen]
  not_mem x hx := mt (hbefore x).mp (h.not_mem x hx)
  reached := h.reached
  closed x hx y hy := (hafter y).mpr (h.closed x hx y hy)
  ordered := h.ordered

/-- One walk after the other -/
theorem append (h : Walked deps starts seen result seen')
    (h' : Walked deps starts' seen' result' seen'') :
    Walked deps (starts ++ starts') seen (result ++ result') seen'' where
  nodup := List.nodup_append'.mpr ⟨h.nodup, h'.nodup, fun x hx hx' =>
    h'.not_mem x hx' ((h.mem_seen x).mpr (.inr hx))⟩
  mem_seen x := by rw [h'.mem_seen, h.mem_seen, List.mem_append, or_assoc]
  not_mem x hx := by
    obtain hx | hx := List.mem_append.mp hx
    · exact h.not_mem x hx
    · exact fun hseen => h'.not_mem x hx ((h.mem_seen x).mpr (.inl hseen))
  reached x hx := by
    obtain hx | hx := List.mem_append.mp hx
    · obtain ⟨start, hstart, hreaches⟩ := h.reached x hx
      exact ⟨start, List.mem_append_left _ hstart, hreaches⟩
    · obtain ⟨start, hstart, hreaches⟩ := h'.reached x hx
      exact ⟨start, List.mem_append_right _ hstart, hreaches⟩
  closed x hx y hy := by
    obtain hx | hx := List.mem_append.mp hx
    · exact (h'.mem_seen y).mpr (.inl (h.closed x hx y hy))
    · exact h'.closed x hx y hy
  ordered hacyclic := List.pairwise_append.mpr ⟨h.ordered hacyclic, h'.ordered hacyclic,
    -- what the first walk has come to depends only on what had been seen by then
    fun x hx y hy hxy => h'.not_mem y hy (h.closed x hx y hxy)⟩

/-- Walks that begin with nothing seen come to all that can be reached from what they come to. -/
theorem mem_of_reaches (h : Walked deps starts [] result result) {x y : ν} (hx : x ∈ result)
    (hreaches : ReflTransGen (DependsOn deps) x y) : y ∈ result := by
  induction hreaches with
  | refl => exact hx
  | tail _ hstep ih => exact h.closed _ ih _ hstep

end Walked

/-! ## What walks come to -/

section Spec

variable {deps : ν → Option (List ν)} {keys : List ν}

/-- How many nodes have not been seen -/
def unseen (keys seen : List ν) : Nat := (keys.filter fun x => x ∉ seen).length

theorem unseen_le {seen seen' : List ν} (h : ∀ x ∈ seen, x ∈ seen') :
    unseen keys seen' ≤ unseen keys seen := by
  refine List.Sublist.length_le (List.monotone_filter_right keys fun x hx => ?_)
  simp only [decide_eq_true_eq] at hx ⊢
  exact mt (h x) hx

theorem unseen_cons_lt {node : ν} {seen : List ν} (hkey : node ∈ keys) (hnew : node ∉ seen) :
    unseen keys (node :: seen) < unseen keys seen := by
  have heq : keys.filter (fun x => x ∉ node :: seen)
      = (keys.filter fun x => x ∉ seen).filter fun x => x ≠ node := by
    rw [List.filter_filter]
    refine List.filter_congr fun x _ => ?_
    simp [not_or]
  rw [unseen, heq]
  refine List.length_filter_lt_length_iff_exists.mpr ⟨node, ?_, by simp⟩
  exact List.mem_filter.mpr ⟨hkey, decide_eq_true hnew⟩

/-- A walk from a node that is new comes to an end. -/
def Walks (deps : ν → Option (List ν)) (keys : List ν) (fuel : Nat)
    (w : ν → List ν → Option (List ν × List ν)) : Prop :=
  ∀ node seen, node ∈ keys → node ∉ seen → unseen keys seen < fuel →
    ∃ result seen', w node seen = some (result, seen') ∧ node ∈ result ∧
      Walked deps [node] seen result seen'

theorem foldlM_visit {w : ν → List ν → Option (List ν × List ν)} {fuel : Nat}
    (hw : Walks deps keys fuel w) (nodes : List ν) (hnodes : ∀ x ∈ nodes, x ∈ keys)
    (acc seen : List ν) (hfuel : unseen keys seen < fuel) :
    ∃ result seen', nodes.foldlM (visit w) (acc, seen) = some (acc ++ result, seen') ∧
      (∀ x ∈ nodes, x ∈ seen') ∧ Walked deps nodes seen result seen' := by
  induction nodes generalizing acc seen with
  | nil =>
    exact ⟨[], seen, by rw [List.append_nil]; rfl, List.forall_mem_nil _, .nil [] seen⟩
  | cons node nodes ih =>
    obtain ⟨hkey, hnodes⟩ := List.forall_mem_cons.mp hnodes
    by_cases hseen : node ∈ seen
    · obtain ⟨result, seen', hrun, hmem, hwalked⟩ := ih hnodes acc seen hfuel
      refine ⟨result, seen', ?_, ?_, (Walked.nil [node] seen).append hwalked⟩
      · rw [List.foldlM_cons, visit, if_pos hseen]
        exact hrun
      · refine List.forall_mem_cons.mpr ⟨?_, hmem⟩
        exact (hwalked.mem_seen node).mpr (.inl hseen)
    · obtain ⟨r, seen₁, hr, hnode, hwalked₁⟩ := hw node seen hkey hseen hfuel
      have hsub : ∀ x ∈ seen, x ∈ seen₁ := fun x hx => (hwalked₁.mem_seen x).mpr (.inl hx)
      obtain ⟨result, seen', hrun, hmem, hwalked⟩ :=
        ih hnodes (acc ++ r) seen₁ (Nat.lt_of_le_of_lt (unseen_le hsub) hfuel)
      refine ⟨r ++ result, seen', ?_, ?_, hwalked₁.append hwalked⟩
      · rw [List.foldlM_cons, visit, if_neg hseen, hr, ← List.append_assoc]
        exact hrun
      · refine List.forall_mem_cons.mpr ⟨(hwalked.mem_seen node).mpr (.inl ?_), hmem⟩
        exact (hwalked₁.mem_seen node).mpr (.inr hnode)

/-- Walks in a graph come to an end: there is enough fuel as long as there is more than nodes
that have not been seen. -/
theorem walks_walk (hkeys : ∀ x ∈ keys, ∃ nodes, deps x = some nodes ∧ ∀ y ∈ nodes, y ∈ keys)
    (fuel : Nat) : Walks deps keys fuel (walk deps fuel) := by
  induction fuel with
  | zero => exact fun _ _ _ _ h => absurd h (Nat.not_lt_zero _)
  | succ fuel ih =>
    intro node seen hkey hnew hfuel
    obtain ⟨nodes, hdeps, hnodes⟩ := hkeys node hkey
    have hless := Nat.lt_of_lt_of_le (unseen_cons_lt hkey hnew) (Nat.lt_succ_iff.mp hfuel)
    obtain ⟨result, seen', hrun, hmem, h⟩ := foldlM_visit ih nodes hnodes [] _ hless
    have hne : ∀ x ∈ result, x ≠ node := fun x hx heq =>
      h.not_mem x hx (heq ▸ List.mem_cons_self)
    have hdepends : ∀ x ∈ nodes, DependsOn deps node x := fun x hx => ⟨nodes, hdeps, hx⟩
    have hreached : ∀ x ∈ result, ReflTransGen (DependsOn deps) node x := by
      intro x hx
      obtain ⟨start, hstart, hreaches⟩ := h.reached x hx
      exact .head (hdepends start hstart) hreaches
    refine ⟨result ++ [node], seen', ?_, List.mem_append_right _ List.mem_cons_self, ?_⟩
    · rw [walk, hdeps, Option.bind_some, hrun]
      rfl
    refine ⟨?_, fun x => ?_, fun x hx => ?_, fun x hx => ?_, fun x hx y hy => ?_, fun hac => ?_⟩
    · exact List.nodup_append'.mpr ⟨h.nodup, List.nodup_singleton _, fun x hx hx' =>
        hne x hx (List.mem_singleton.mp hx')⟩
    · rw [h.mem_seen, List.mem_cons, List.mem_append, List.mem_singleton]
      tauto
    · obtain hx | hx := List.mem_append.mp hx
      · exact fun hseen => h.not_mem x hx (List.mem_cons_of_mem _ hseen)
      · exact List.mem_singleton.mp hx ▸ hnew
    · refine ⟨node, List.mem_cons_self, ?_⟩
      obtain hx | hx := List.mem_append.mp hx
      · exact hreached x hx
      · rw [List.mem_singleton.mp hx]
    · obtain hx | hx := List.mem_append.mp hx
      · exact h.closed x hx y hy
      · obtain rfl := List.mem_singleton.mp hx
        obtain ⟨nodes', hdeps', hy⟩ := hy
        obtain rfl := Option.some.inj (hdeps.symm.trans hdeps')
        exact hmem y hy
    · -- nothing that the node depends on can depend on it
      refine List.pairwise_append.mpr ⟨h.ordered hac, List.pairwise_singleton .., ?_⟩
      intro x hx y hy hxy
      rw [List.mem_singleton.mp hy] at hxy
      exact hac x node (hne x hx) hxy (hreached x hx)

end Spec

end Lib
