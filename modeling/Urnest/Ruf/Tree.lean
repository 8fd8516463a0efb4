import Mathlib.Data.List.Lex
import Mathlib.Tactic.Common
import Urnest.Lib.Throwing

/-!
# Trees

The trees of ruf_tree, whose nodes are named by their paths: the indices from the root down.
`Node.remove` takes a node out of the children of its parent, which moves its younger
siblings up; `Node.without` is the tree that is left when all nodes at some paths, and what
is below them, are gone.

The paths of a list are ordered as the nodes stand in the document, parents first. Taken out
from the last one on, no node is in the way of those that are still to go
(`remove_without`).
-/

namespace Urnest.Ruf

/-- A path from the root -/
abbrev Path := List Nat

inductive Node (T : Type) where
  | mk (value : T) (children : List (Node T))

inductive Panic where
  | assertion
  | index
  deriving DecidableEq

abbrev Result := Except Panic

namespace Node

variable {T : Type}

def value : Node T → T
  | mk value _ => value

def children : Node T → List (Node T)
  | mk _ children => children

/-- The node at a path -/
def at? : Node T → Path → Option (Node T)
  | n, [] => some n
  | n, i :: p => n.children[i]?.bind fun c => c.at? p

/-- The indexing of `remove`: the tree that is left, and the node -/
def remove : Node T → Path → Result (Node T × Node T)
  | _, [] => .error .index
  | n, i :: p =>
    match n.children[i]? with
    | none => .error .index
    | some c =>
      if p = [] then .ok (mk n.value (n.children.eraseIdx i), c)
      else do
        let (c', removed) ← c.remove p
        return (mk n.value (n.children.set i c'), removed)

/-- The paths below child number `i` -/
def pathsBelow (i : Nat) (ps : List Path) : List Path :=
  ps.filterMap fun
    | [] => none
    | j :: p => if j = i then some p else none

mutual

/-- The tree without the nodes at the paths -/
def without (ps : List Path) : Node T → Node T
  | mk value children => mk value (withoutFrom ps 0 children)

/-- The children from number `i` on -/
def withoutFrom (ps : List Path) (i : Nat) : List (Node T) → List (Node T)
  | [] => []
  | c :: cs =>
    if [i] ∈ ps then withoutFrom ps (i + 1) cs
    else without (pathsBelow i ps) c :: withoutFrom ps (i + 1) cs

end

theorem mem_pathsBelow {i : Nat} {p : Path} {ps : List Path} : p ∈ pathsBelow i ps ↔ i :: p ∈ ps := by
  simp only [pathsBelow, List.mem_filterMap]
  constructor
  · rintro ⟨q, hq, hp⟩
    cases q with
    | nil => cases hp
    | cons j q =>
      simp only [Option.ite_none_right_eq_some, Option.some.injEq] at hp
      obtain ⟨rfl, rfl⟩ := hp
      exact hq
  · intro h
    exact ⟨i :: p, h, by simp⟩

mutual

theorem without_congr {ps qs : List Path} (h : ∀ p, p ∈ ps ↔ p ∈ qs) :
    (n : Node T) → n.without ps = n.without qs
  | mk value children => by
    rw [without, without, withoutFrom_congr (fun j p _ => h (j :: p)) children]

/-- The children from number `i` on depend on the paths from there on. -/
theorem withoutFrom_congr {ps qs : List Path} {i : Nat}
    (h : ∀ j p, i ≤ j → (j :: p ∈ ps ↔ j :: p ∈ qs)) :
    (cs : List (Node T)) → withoutFrom ps i cs = withoutFrom qs i cs
  | [] => by rw [withoutFrom, withoutFrom]
  | c :: cs => by
    have hrest : withoutFrom ps (i + 1) cs = withoutFrom qs (i + 1) cs :=
      withoutFrom_congr (fun j p hj => h j p (Nat.le_of_succ_le hj)) cs
    have hc : c.without (pathsBelow i ps) = c.without (pathsBelow i qs) :=
      without_congr (fun p => by rw [mem_pathsBelow, mem_pathsBelow, h i p le_rfl]) c
    rw [withoutFrom, withoutFrom, hrest, hc]
    simp only [h i [] le_rfl]

end

mutual

theorem without_nil : (n : Node T) → n.without [] = n
  | mk value children => by rw [without, withoutFrom_nil 0 children]

theorem withoutFrom_nil (i : Nat) : (cs : List (Node T)) → withoutFrom [] i cs = cs
  | [] => by rw [withoutFrom]
  | c :: cs => by
    rw [withoutFrom, if_neg List.not_mem_nil, withoutFrom_nil (i + 1) cs]
    exact congrArg (· :: cs) (without_nil c)

end

/-- The children before all paths stay as they are. -/
theorem withoutFrom_append {ps : List Path} {i : Nat} (front back : List (Node T))
    (h : ∀ j p, j :: p ∈ ps → i + front.length ≤ j) :
    withoutFrom ps i (front ++ back) = front ++ withoutFrom ps (i + front.length) back := by
  induction front generalizing i with
  | nil => rfl
  | cons c front ih =>
    have hnone : ∀ p, i :: p ∉ ps := by
      intro p hp
      have hle := h i p hp
      simp only [List.length_cons] at hle
      omega
    have hbelow : pathsBelow i ps = [] :=
      List.eq_nil_iff_forall_not_mem.mpr fun p hp => hnone p (mem_pathsBelow.mp hp)
    rw [List.cons_append, withoutFrom, if_neg (hnone []), hbelow, without_nil, ih]
    · simp only [List.length_cons, Nat.add_assoc, Nat.add_comm 1]
      rfl
    · intro j p hp
      have hle := h j p hp
      simp only [List.length_cons] at hle
      omega

/-- A node that comes before all that is gone, and is not above any of it, is removed as it
was. -/
theorem remove_without {p : Path} (n : Node T) {ps : List Path} {x : Node T} (hp : p ≠ [])
    (hx : n.at? p = some x) (h : ∀ q ∈ ps, p < q ∧ ¬ p <+: q) :
    (n.without ps).remove p = .ok (n.without (p :: ps), x) := by
  induction p generalizing n ps with
  | nil => exact absurd rfl hp
  | cons i p ih =>
    obtain ⟨value, cs⟩ := n
    obtain ⟨c, hc, hinside⟩ := Option.bind_eq_some_iff.mp hx
    change cs[i]? = some c at hc
    obtain ⟨hi, hget⟩ := List.getElem?_eq_some_iff.mp hc
    have hsplit : cs = cs.take i ++ c :: cs.drop (i + 1) := by
      rw [← hget, List.getElem_cons_drop, List.take_append_drop]
    have hlength : (cs.take i).length = i := List.length_take_of_le hi.le
    have hafter : ∀ j q, j :: q ∈ ps → i ≤ j := by
      intro j q hq
      rcases List.cons_lt_cons_iff.mp (h _ hq).1 with hlt | ⟨heq, -⟩
      · exact hlt.le
      · exact heq.le
    generalize hfront : cs.take i = front at hsplit hlength
    generalize cs.drop (i + 1) = back at hsplit
    obtain rfl := hlength
    subst hsplit
    have hstart : [front.length] ∉ ps := fun hmem => by
      have hlt := (h _ hmem).1
      rcases List.cons_lt_cons_iff.mp hlt with hlt | ⟨-, hlt⟩
      · exact lt_irrefl _ hlt
      · exact List.not_lt_nil _ hlt
    have hleft : withoutFrom ps 0 (front ++ c :: back) = front ++
        c.without (pathsBelow front.length ps) :: withoutFrom ps (front.length + 1) back := by
      rw [withoutFrom_append front _ (by simpa using hafter), Nat.zero_add, withoutFrom,
        if_neg hstart]
    have hbefore : ∀ j q, j :: q ∈ (front.length :: p) :: ps → front.length ≤ j := by
      intro j q hq
      rcases List.mem_cons.mp hq with hq | hq
      · exact (List.cons.inj hq).1.ge
      · exact hafter j q hq
    have hlast : withoutFrom ((front.length :: p) :: ps) (front.length + 1) back =
        withoutFrom ps (front.length + 1) back := by
      refine withoutFrom_congr (fun j q hj => ?_) back
      rw [List.mem_cons, or_iff_right]
      intro heq
      have hj' := (List.cons.inj heq).1
      omega
    rw [without, without, hleft, withoutFrom_append front _ (by simpa using hbefore), Nat.zero_add,
      withoutFrom, hlast, remove]
    simp only [children, List.getElem?_append_right le_rfl, Nat.sub_self, List.getElem?_cons_zero]
    by_cases hnil : p = []
    · subst hnil
      obtain rfl : c = x := Option.some.inj hinside
      -- all that goes is below younger siblings
      have hnone : pathsBelow front.length ps = [] := by
        refine List.eq_nil_iff_forall_not_mem.mpr fun q hq => ?_
        exact (h _ (mem_pathsBelow.mp hq)).2 ⟨q, rfl⟩
      rw [if_pos rfl, if_pos (List.mem_cons_self ..), hnone, without_nil,
        List.eraseIdx_append_of_length_le le_rfl, Nat.sub_self, List.eraseIdx_cons_zero]
      rfl
    · have hinner : (c.without (pathsBelow front.length ps)).remove p =
          .ok (c.without (p :: pathsBelow front.length ps), x) := ih c hnil hinside fun q hq => by
        obtain ⟨hlt, hnot⟩ := h _ (mem_pathsBelow.mp hq)
        refine ⟨?_, fun hstarts => hnot (List.cons_prefix_cons.mpr ⟨rfl, hstarts⟩)⟩
        rcases List.cons_lt_cons_iff.mp hlt with hlt | ⟨-, hlt⟩
        · exact absurd hlt (lt_irrefl _)
        · exact hlt
      have hmem : [front.length] ∉ (front.length :: p) :: ps := by
        rw [List.mem_cons, not_or]
        exact ⟨fun heq => hnil (List.cons.inj heq).2.symm, hstart⟩
      have hbelow : c.without (pathsBelow front.length ((front.length :: p) :: ps)) =
          c.without (p :: pathsBelow front.length ps) := by
        refine without_congr (fun q => ?_) c
        rw [mem_pathsBelow, List.mem_cons, List.mem_cons, mem_pathsBelow]
        exact or_congr_left ⟨fun heq => (List.cons.inj heq).2, fun heq => heq ▸ rfl⟩
      have hset : (front ++ c.without (pathsBelow front.length ps) ::
          withoutFrom ps (front.length + 1) back).set front.length
            (c.without (p :: pathsBelow front.length ps)) =
          front ++ c.without (p :: pathsBelow front.length ps) ::
            withoutFrom ps (front.length + 1) back := by
        rw [List.set_append_right _ _ le_rfl, Nat.sub_self, List.set_cons_zero]
      rw [if_neg hnil, if_neg hmem, hinner, hbelow]
      exact congrArg (fun cs => (.ok (mk value cs, x) : Result (Node T × Node T))) hset

end Node

end Urnest.Ruf
