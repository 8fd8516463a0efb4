import Mathlib.Data.List.Dedup
import Mathlib.Data.List.Sort
import Mathlib.Data.Finset.Card
import Mathlib.Data.Fintype.List
import Urnest.Ruf.Tree

/-!
# Selections

A `MutableSelection` is a list of paths, which `extend_by_path` and `refine_by_path` find by
asking a selector about the nodes; every path that is selected is that of a node below the
root (`selectable_of_run`). `prune` sorts the paths and removes the nodes from the last one
on, but for those that the one before contains.

`contains` compares the lengths the wrong way round. It panics when the path before is the
longer one, and does not know a node from what is above it (`contains_eq_ok`).
-/

namespace Urnest.Ruf

open Node

variable {T : Type}

/-! ## Selecting -/

structure Disposition where
  /-- paths from the node -/
  select : List Path
  recurse : Bool

/-- `select_this_node_and_recurse` -/
def Disposition.selectThisNodeAndRecurse (selectThisNode recurse : Bool) : Disposition :=
  ⟨if selectThisNode then [[]] else [], recurse⟩

/-- What a selector makes of the ancestors, the path, how many of the ancestors are outside
of the search, and the node -/
abbrev Selector (T : Type) := List T → Path → Nat → Node T → Disposition

mutual

/-- `select_by_path` -/
def selectByPath (selector : Selector T) (ancestors : List T) (path : Path) (startingFrom : Nat) :
    Node T → Result (List Path)
  | mk value children =>
    let node := mk value children
    if ancestors = [] ∨ path = [] then .error .assertion
    else
      let disposition := selector ancestors path startingFrom node
      -- `assert_path_valid`
      if disposition.select.any fun p => (node.at? p).isNone then .error .assertion
      else
        let selected := disposition.select.map (path ++ ·)
        if disposition.recurse then do
          let inside ← selectChildren selector (ancestors ++ [value]) path startingFrom 0 children
          return selected ++ inside
        else .ok selected

/-- The loop over the children, from number `i` on -/
def selectChildren (selector : Selector T) (ancestors : List T) (path : Path)
    (startingFrom i : Nat) : List (Node T) → Result (List Path)
  | [] => .ok []
  | c :: cs => do
    let selected ← selectByPath selector ancestors (path ++ [i]) startingFrom c
    let others ← selectChildren selector ancestors path startingFrom (i + 1) cs
    return selected ++ others

end

/-- `follow_path`: the values of the nodes on the way, and the last node -/
def followPath : Node T → Path → Result (List T × Node T)
  | n, [] => .ok ([], n)
  | n, i :: p =>
    match n.children[i]? with
    | none => .error .index
    | some c => do
      let (ancestors, last) ← followPath c p
      return (n.value :: ancestors, last)

/-- `extend_by_path` -/
def extendByPath (root : Node T) (selector : Selector T) (selected : List Path) :
    Result (List Path) := do
  let more ← selectChildren selector [root.value] [] 1 0 root.children
  return selected ++ more

/-- `refine_by_path`, of one path -/
def refinePath (root : Node T) (selector : Selector T) (path : Path) : Result (List Path) := do
  if path = [] then throw .assertion
  let (ancestors, node) ← followPath root path
  if ancestors.length ≠ path.length then throw .assertion
  selectByPath selector ancestors path ancestors.length node

/-- `refine_by_path` -/
def refineByPath (root : Node T) (selector : Selector T) : List Path → Result (List Path)
  | [] => .ok []
  | path :: was => do
    let refined ← refinePath root selector path
    let others ← refineByPath root selector was
    return refined ++ others

/-- A selector that looks at the value of the node only -/
def byValue (f : T → Bool) : Selector T := fun _ _ _ node =>
  .selectThisNodeAndRecurse (f node.value) true

/-- `select_by_value`, and what an iterator over the selection gives -/
def selectByValue (root : Node T) (f : T → Bool) : Result (List (Node T)) := do
  let paths ← extendByPath root (byValue f) []
  paths.mapM fun path => do return (← followPath root path).2

/-- A call that changes the selection; `mut_select_by_path` and `mut_select_by_value` extend
an empty one. -/
inductive Call (T : Type) where
  | extend (selector : Selector T)
  | refine (selector : Selector T)

def Call.apply (root : Node T) : Call T → List Path → Result (List Path)
  | extend selector => extendByPath root selector
  | refine selector => refineByPath root selector

/-- The selection after the calls -/
def run (root : Node T) (calls : List (Call T)) : Result (List Path) :=
  calls.foldlM (fun selected call => call.apply root selected) []

/-! ## Pruning -/

/-- `contains`, with the slice `b[0..a.len()]` -/
def contains (a b : Path) : Result Bool :=
  if a.length ≥ b.length then
    if a.length ≤ b.length then .ok (a = b.take a.length) else .error .index
  else .ok false

/-- The loop of `prune`, on the paths from the last one on -/
def pruneLoop : List Path → Node T → List (Node T) → Result (Node T × List (Node T))
  | [], root, result => .ok (root, result)
  | [p], root, result => do
    let (root, removed) ← root.remove p
    return (root, result ++ [removed])
  | p :: q :: ps, root, result => do
    if ← contains q p then pruneLoop (q :: ps) root result
    else
      let (root, removed) ← root.remove p
      pruneLoop (q :: ps) root (result ++ [removed])

/-- `sort_unstable` -/
def sort (selected : List Path) : List Path := selected.insertionSort (· ≤ ·)

/-- `prune`: the tree that is left, and the nodes that were removed -/
def prune (root : Node T) (selected : List Path) : Result (Node T × List (Node T)) := do
  let (root, result) ← pruneLoop (sort selected).reverse root []
  return (root, result.reverse)

/-! ## What is selected -/

/-- The path of a node below the root -/
def Selectable (root : Node T) (p : Path) : Prop := p ≠ [] ∧ (root.at? p).isSome

theorem at?_append (n : Node T) (p q : Path) : n.at? (p ++ q) = (n.at? p).bind fun m => m.at? q := by
  induction p generalizing n with
  | nil => rfl
  | cons i p ih =>
    rw [List.cons_append, at?, at?]
    cases n.children[i]? with
    | none => rfl
    | some c => exact ih c

/-- What a disposition selects -/
theorem selectable_of_disposition {root node : Node T} {path : Path} {select : List Path}
    (hnode : root.at? path = some node) (hpath : path ≠ [])
    (hvalid : ¬ (select.any fun p => (node.at? p).isNone) = true) :
    ∀ p ∈ select.map (path ++ ·), Selectable root p := by
  intro p hp
  obtain ⟨q, hq, rfl⟩ := List.mem_map.mp hp
  refine ⟨by simp [hpath], ?_⟩
  rw [at?_append, hnode, Option.bind_some]
  rw [List.any_eq_true] at hvalid
  by_contra hnone
  exact hvalid ⟨q, hq, by simpa using hnone⟩

mutual

theorem selectable_of_selectByPath {root : Node T} {selector : Selector T} {ancestors : List T}
    {path : Path} {startingFrom : Nat} {selected : List Path} :
    (node : Node T) → root.at? path = some node →
      selectByPath selector ancestors path startingFrom node = .ok selected →
        ∀ p ∈ selected, Selectable root p
  | mk value children, hnode, h => by
    rw [selectByPath] at h
    simp only at h
    split_ifs at h with hempty hvalid hrecurse
    · obtain ⟨-, hpath⟩ := not_or.mp hempty
      obtain ⟨inside, hinside, h⟩ := Lib.bind_eq_ok.mp h
      cases h
      intro p hp
      rcases List.mem_append.mp hp with hp | hp
      · exact selectable_of_disposition hnode hpath hvalid p hp
      · exact selectable_of_selectChildren _ hnode children rfl hinside p hp
    · cases h
      exact selectable_of_disposition hnode (not_or.mp hempty).2 hvalid

theorem selectable_of_selectChildren {root : Node T} {selector : Selector T} {ancestors : List T}
    {path : Path} {startingFrom i : Nat} {selected : List Path} (node : Node T)
    (hnode : root.at? path = some node) :
    (cs : List (Node T)) → node.children.drop i = cs →
      selectChildren selector ancestors path startingFrom i cs = .ok selected →
        ∀ p ∈ selected, Selectable root p
  | [], _, h => by
    cases h
    exact fun _ hp => nomatch hp
  | c :: cs, hdrop, h => by
    obtain ⟨xs, hxs, h⟩ := Lib.bind_eq_ok.mp h
    obtain ⟨ys, hys, h⟩ := Lib.bind_eq_ok.mp h
    cases h
    have hchild : node.children[i]? = some c := by
      rw [← List.head?_drop, hdrop, List.head?_cons]
    have hc : root.at? (path ++ [i]) = some c := by
      rw [at?_append, hnode, Option.bind_some, at?, hchild]
      rfl
    have hrest : node.children.drop (i + 1) = cs := by
      rw [← List.drop_drop, hdrop]
      rfl
    intro p hp
    rcases List.mem_append.mp hp with hp | hp
    · exact selectable_of_selectByPath c hc hxs p hp
    · exact selectable_of_selectChildren node hnode cs hrest hys p hp

end

theorem at?_of_followPath {n last : Node T} {p : Path} {ancestors : List T}
    (h : followPath n p = .ok (ancestors, last)) : n.at? p = some last := by
  induction p generalizing n ancestors with
  | nil => cases h; rfl
  | cons i p ih =>
    rw [followPath] at h
    rw [at?]
    cases hc : n.children[i]? with
    | none => rw [hc] at h; cases h
    | some c =>
      rw [hc] at h
      obtain ⟨⟨values, node⟩, hfollow, h⟩ := Lib.bind_eq_ok.mp h
      cases h
      exact ih hfollow

theorem followPath_of_at? {n last : Node T} {p : Path} (h : n.at? p = some last) :
    ∃ ancestors, followPath n p = .ok (ancestors, last) := by
  induction p generalizing n with
  | nil =>
    cases h
    exact ⟨[], rfl⟩
  | cons i p ih =>
    rw [at?] at h
    obtain ⟨c, hc, hlast⟩ := Option.bind_eq_some_iff.mp h
    obtain ⟨ancestors, hfollow⟩ := ih hlast
    exact ⟨n.value :: ancestors, by rw [followPath, hc]; simp only [hfollow]; rfl⟩

mutual

/-- The node, if its value is selected, and then its descendants that are -/
def chosen (f : T → Bool) : Node T → List (Node T)
  | mk value children => (if f value then [mk value children] else []) ++ chosenAmong f children

def chosenAmong (f : T → Bool) : List (Node T) → List (Node T)
  | [] => []
  | c :: cs => chosen f c ++ chosenAmong f cs

end

mutual

theorem selectByPath_byValue {root : Node T} {f : T → Bool} {ancestors : List T} {path : Path}
    {k : Nat} (hancestors : ancestors ≠ []) (hpath : path ≠ []) : (node : Node T) →
    root.at? path = some node → ∃ paths,
      selectByPath (byValue f) ancestors path k node = .ok paths ∧
        paths.map root.at? = (chosen f node).map some
  | mk value children, hnode => by
    obtain ⟨inside, hinside, hmap⟩ := selectChildren_byValue (f := f) (k := k)
      (List.append_ne_nil_of_right_ne_nil ancestors (List.cons_ne_nil value [])) 0 children
      fun j c hc => by
        rw [at?_append, hnode, Option.bind_some, Nat.zero_add, at?]
        exact Option.bind_eq_some_iff.mpr ⟨c, hc, rfl⟩
    cases hf : f value with
    | true =>
      refine ⟨path :: inside, ?_, ?_⟩
      · rw [selectByPath, if_neg (by simp [hancestors, hpath])]
        simp [byValue, Disposition.selectThisNodeAndRecurse, Node.value, hf, at?, hinside]
      · rw [List.map_cons, hnode, hmap, chosen, if_pos hf, List.map_append]
        rfl
    | false =>
      refine ⟨inside, ?_, ?_⟩
      · rw [selectByPath, if_neg (by simp [hancestors, hpath])]
        simp [byValue, Disposition.selectThisNodeAndRecurse, Node.value, hf, hinside]
      · rw [hmap, chosen, if_neg (by simp [hf]), List.nil_append]

theorem selectChildren_byValue {root : Node T} {f : T → Bool} {ancestors : List T} {path : Path}
    {k : Nat} (hancestors : ancestors ≠ []) (i : Nat) : (children : List (Node T)) →
    (∀ j c, children[j]? = some c → root.at? (path ++ [i + j]) = some c) → ∃ paths,
      selectChildren (byValue f) ancestors path k i children = .ok paths ∧
        paths.map root.at? = (chosenAmong f children).map some
  | [], _ => ⟨[], rfl, rfl⟩
  | c :: cs, hchildren => by
    obtain ⟨paths, hpaths, hmap⟩ := selectByPath_byValue (f := f) (k := k) hancestors
      (List.append_ne_nil_of_right_ne_nil path (List.cons_ne_nil i [])) c (hchildren 0 c rfl)
    obtain ⟨others, hothers, hmap'⟩ := selectChildren_byValue (f := f) (k := k) hancestors (i + 1)
      cs fun j d hd => by
        rw [Nat.add_assoc, Nat.add_comm 1]
        exact hchildren (j + 1) d hd
    refine ⟨paths ++ others, ?_, ?_⟩
    · rw [selectChildren, hpaths]
      simp only [hothers]
      rfl
    · rw [List.map_append, hmap, hmap', chosenAmong, List.map_append]

end

theorem mapM_followPath {root : Node T} {paths : List Path} {nodes : List (Node T)}
    (h : paths.map root.at? = nodes.map some) :
    (paths.mapM fun path => do return (← followPath root path).2 : Result (List (Node T))) =
      .ok nodes := by
  induction paths generalizing nodes with
  | nil =>
    obtain rfl := List.map_eq_nil_iff.mp h.symm
    rfl
  | cons path paths ih =>
    cases nodes with
    | nil => cases h
    | cons node nodes =>
      obtain ⟨hnode, hmap⟩ := List.cons.inj h
      obtain ⟨ancestors, hfollow⟩ := followPath_of_at? hnode
      rw [List.mapM_cons, hfollow, ih hmap]
      rfl

/-- Selection by value never fails, and finds what is chosen below the root. -/
theorem selectByValue_eq (root : Node T) (f : T → Bool) :
    selectByValue root f = .ok (chosenAmong f root.children) := by
  obtain ⟨paths, hpaths, hmap⟩ := @selectChildren_byValue T root f [root.value] [] 1
    (List.cons_ne_nil _ _) 0 root.children fun j c hc => by
      rw [List.nil_append, Nat.zero_add, at?]
      exact Option.bind_eq_some_iff.mpr ⟨c, hc, rfl⟩
  have hextend : extendByPath root (byValue f) [] = .ok paths := by
    rw [extendByPath, hpaths]
    rfl
  rw [selectByValue, hextend]
  exact mapM_followPath hmap

theorem selectable_of_refineByPath {root : Node T} {selector : Selector T} {was : List Path}
    {selected : List Path} (h : refineByPath root selector was = .ok selected) :
    ∀ p ∈ selected, Selectable root p := by
  induction was generalizing selected with
  | nil =>
    cases h
    exact fun _ hp => nomatch hp
  | cons path was ih =>
    obtain ⟨refined, hrefined, h⟩ := Lib.bind_eq_ok.mp h
    obtain ⟨others, hothers, h⟩ := Lib.bind_eq_ok.mp h
    cases h
    intro p hp
    rcases List.mem_append.mp hp with hp | hp
    · rw [refinePath] at hrefined
      split_ifs at hrefined with hpath
      · cases hrefined
      · obtain ⟨⟨ancestors, node⟩, hfollow, hrefined⟩ := Lib.bind_eq_ok.mp hrefined
        simp only at hrefined
        split_ifs at hrefined with hlength
        · cases hrefined
        · exact selectable_of_selectByPath node (at?_of_followPath hfollow) hrefined p hp
    · exact ih hothers p hp

/-- A call keeps that all that is selected is below the root. -/
theorem selectable_of_apply {root : Node T} {call : Call T} {selected selected' : List Path}
    (hsel : ∀ p ∈ selected, Selectable root p) (h : call.apply root selected = .ok selected') :
    ∀ p ∈ selected', Selectable root p := by
  cases call with
  | extend selector =>
    obtain ⟨more, hmore, h⟩ := Lib.bind_eq_ok.mp h
    cases h
    intro p hp
    rcases List.mem_append.mp hp with hp | hp
    · exact hsel p hp
    · exact selectable_of_selectChildren root rfl root.children rfl hmore p hp
  | refine selector => exact selectable_of_refineByPath h

theorem selectable_of_run {root : Node T} {calls : List (Call T)} {selected : List Path}
    (h : run root calls = .ok selected) : ∀ p ∈ selected, Selectable root p := by
  have hfold : ∀ (start : List Path), (∀ p ∈ start, Selectable root p) →
      calls.foldlM (fun selected (call : Call T) => call.apply root selected) start =
        .ok selected → ∀ p ∈ selected, Selectable root p := by
    clear h
    induction calls with
    | nil =>
      intro start hstart h
      cases h
      exact hstart
    | cons call calls ih =>
      intro start hstart h
      rw [List.foldlM_cons] at h
      obtain ⟨next, hnext, h⟩ := Lib.bind_eq_ok.mp h
      exact ih next (selectable_of_apply hstart hnext) h
  exact hfold [] (fun _ hp => nomatch hp) h

/-! ## What is pruned -/

/-- The first of each -/
def firsts (ps : List Path) : List Path := ps.reverse.dedup.reverse

/-- The paths that are not below others, in their order -/
def outermost (ps : List Path) : List Path :=
  firsts (ps.filter fun p => ps.all fun q => !decide (q <+: p) || q = p)

/-- Pruning leaves the tree without the selected nodes, and returns the outermost of them, as
they were, in the order of the selection. -/
def Prunes (root : Node T) (selected : List Path) : Prop :=
  ∃ removed, prune root selected = .ok (root.without selected, removed) ∧
    removed.map some = (outermost selected).map root.at?

theorem contains_eq_ok {a b : Path} {x : Bool} :
    contains a b = .ok x ↔ a.length ≤ b.length ∧ x = decide (a = b) := by
  rw [contains]
  split_ifs with hge hle
  · have hlength : a.length = b.length := le_antisymm hle hge
    rw [hlength, List.take_length]
    exact ⟨fun h => ⟨le_rfl, (Except.ok.inj h).symm⟩, fun h => h.2 ▸ rfl⟩
  · exact iff_of_false (fun h => nomatch h) (fun h => hle h.1)
  · have hne : a ≠ b := fun h => hge (h ▸ le_rfl)
    rw [decide_eq_false hne]
    exact ⟨fun h => ⟨(not_le.mp hge).le, (Except.ok.inj h).symm⟩, fun h => h.2 ▸ rfl⟩

/-- No node is inside of another, and in the order of the document none is deeper than one
behind it. -/
structure Level (ps : List Path) : Prop where
  apart : ∀ p ∈ ps, ∀ q ∈ ps, p <+: q → p = q
  depth : ∀ p ∈ ps, ∀ q ∈ ps, p < q → p.length ≤ q.length

/-- From the last path on, the loop removes each node once, as it was. -/
theorem pruneLoop_eq_ok (root : Node T) {ps : List Path} (gone : List Path) (result : List (Node T))
    (hsorted : ps.Pairwise fun p q => q ≤ p) (hlevel : Level ps)
    (hselectable : ∀ p ∈ ps, Selectable root p)
    (hgone : ∀ p ∈ ps, ∀ q ∈ gone, p < q ∧ ¬ p <+: q) :
    ∃ removed, pruneLoop ps (root.without gone) result =
        .ok (root.without (ps ++ gone), result ++ removed) ∧
      removed.map some = ps.dedup.map root.at? := by
  induction ps generalizing gone result with
  | nil => exact ⟨[], by rw [pruneLoop, List.append_nil]; rfl, rfl⟩
  | cons p ps ih =>
    obtain ⟨hfirst, hsorted'⟩ := List.pairwise_cons.mp hsorted
    have hlevel' : Level ps :=
      ⟨fun a ha b hb => hlevel.apart a (.tail _ ha) b (.tail _ hb),
        fun a ha b hb => hlevel.depth a (.tail _ ha) b (.tail _ hb)⟩
    obtain ⟨hne, hat⟩ := hselectable p (List.mem_cons_self ..)
    obtain ⟨x, hx⟩ := Option.isSome_iff_exists.mp hat
    have hremove := remove_without root hne hx (hgone p (List.mem_cons_self ..))
    -- behind `p` are smaller paths, if it does not come again
    have hgone' : p ∉ ps → ∀ q ∈ ps, ∀ r ∈ p :: gone, q < r ∧ ¬ q <+: r := by
      intro hp q hq r hr
      rcases List.mem_cons.mp hr with rfl | hr
      · have hqr : q ≠ r := fun h => hp (h ▸ hq)
        exact ⟨lt_of_le_of_ne (hfirst q hq) hqr, fun h =>
          hqr (hlevel.apart q (.tail _ hq) r (List.mem_cons_self ..) h)⟩
      · exact hgone q (.tail _ hq) r hr
    have hperm : root.without (ps ++ p :: gone) = root.without (p :: ps ++ gone) :=
      without_congr (fun q => by simp only [List.mem_append, List.mem_cons]; tauto) root
    cases ps with
    | nil =>
      refine ⟨[x], ?_, by simp [hx]⟩
      rw [pruneLoop, hremove]
      rfl
    | cons q ps =>
      have hle := hfirst q (List.mem_cons_self ..)
      by_cases hpq : q = p
      · subst hpq
        have hcontains : contains q q = .ok true := contains_eq_ok.mpr ⟨le_rfl, by simp⟩
        obtain ⟨removed, hloop, hremoved⟩ := ih gone result hsorted' hlevel'
          (fun a ha => hselectable a (.tail _ ha)) fun a ha => hgone a (.tail _ ha)
        refine ⟨removed, ?_, ?_⟩
        · rw [pruneLoop, hcontains]
          change pruneLoop (q :: ps) (root.without gone) result = _
          have hsame : root.without (q :: ps ++ gone) = root.without (q :: q :: ps ++ gone) :=
            without_congr (fun a => by simp) root
          rw [hloop, hsame]
        · rw [hremoved, List.dedup_cons_of_mem (List.mem_cons_self ..)]
      · have hlt : q < p := lt_of_le_of_ne hle hpq
        have hcontains : contains q p = .ok false := contains_eq_ok.mpr
          ⟨hlevel.depth q (by simp) p (by simp) hlt, (decide_eq_false hpq).symm⟩
        have hnot : p ∉ q :: ps := by
          intro hp
          rcases List.mem_cons.mp hp with rfl | hp
          · exact hpq rfl
          · exact absurd ((List.pairwise_cons.mp hsorted').1 p hp) (not_le.mpr hlt)
        obtain ⟨removed, hloop, hremoved⟩ := ih (p :: gone) (result ++ [x]) hsorted' hlevel'
          (fun a ha => hselectable a (.tail _ ha)) (hgone' hnot)
        refine ⟨x :: removed, ?_, ?_⟩
        · rw [pruneLoop, hcontains]
          change (root.without gone).remove p >>= (fun y => pruneLoop (q :: ps) y.1 (result ++ [y.2])) = _
          rw [hremove]
          change pruneLoop (q :: ps) (root.without (p :: gone)) (result ++ [x]) = _
          rw [hloop, hperm, List.append_assoc]
          rfl
        · rw [List.dedup_cons_of_notMem hnot, List.map_cons, List.map_cons, hremoved, hx]

/-- Where the loop comes to its end no path is longer than one before it, and each is taken
once. -/
theorem of_pruneLoop_eq_ok {root root' : Node T} {ps : List Path} {result removed : List (Node T)}
    (hsorted : ps.Pairwise fun p q => q ≤ p)
    (h : pruneLoop ps root result = .ok (root', removed)) :
    ps.Pairwise (fun p q => q.length ≤ p.length) ∧
      removed.length = result.length + ps.dedup.length := by
  induction ps generalizing root result with
  | nil =>
    cases h
    exact ⟨.nil, rfl⟩
  | cons p ps ih =>
    obtain ⟨hfirst, hsorted'⟩ := List.pairwise_cons.mp hsorted
    cases ps with
    | nil =>
      obtain ⟨y, -, h⟩ := Lib.bind_eq_ok.mp h
      cases h
      exact ⟨List.pairwise_singleton .., by simp⟩
    | cons q ps =>
      obtain ⟨x, hx, h⟩ := Lib.bind_eq_ok.mp h
      obtain ⟨hle, hx⟩ := contains_eq_ok.mp hx
      have hall (hrest : (q :: ps).Pairwise fun p q => q.length ≤ p.length) :
          (p :: q :: ps).Pairwise fun p q => q.length ≤ p.length := by
        refine List.pairwise_cons.mpr ⟨fun r hr => ?_, hrest⟩
        rcases List.mem_cons.mp hr with rfl | hr
        · exact hle
        · exact ((List.pairwise_cons.mp hrest).1 r hr).trans hle
      -- Of equal paths, which are neighbours, the last is taken.
      by_cases hpq : q = p
      · rw [if_pos (by simp [hx, hpq])] at h
        obtain ⟨hrest, hlength⟩ := ih hsorted' h
        refine ⟨hall hrest, ?_⟩
        have hmem : p ∈ q :: ps := by simp [hpq]
        rw [hlength, List.dedup_cons_of_mem hmem]
      · rw [if_neg (by simp [hx, hpq])] at h
        obtain ⟨y, -, h⟩ := Lib.bind_eq_ok.mp h
        obtain ⟨hrest, hlength⟩ := ih hsorted' h
        have hnot : p ∉ q :: ps := by
          intro hp
          have hqp := hfirst q (List.mem_cons_self ..)
          rcases List.mem_cons.mp hp with rfl | hp
          · exact hpq rfl
          · exact hpq (le_antisymm hqp ((List.pairwise_cons.mp hsorted').1 p hp))
        refine ⟨hall hrest, ?_⟩
        rw [hlength, List.dedup_cons_of_notMem hnot, List.length_append, List.length_singleton,
          List.length_cons, Nat.add_right_comm, Nat.add_assoc]

theorem mem_sort {p : Path} {selected : List Path} : p ∈ sort selected ↔ p ∈ selected :=
  (List.perm_insertionSort ..).mem_iff

theorem sorted_reverse_sort (selected : List Path) :
    (sort selected).reverse.Pairwise fun p q => q ≤ p :=
  List.pairwise_reverse.mpr (List.pairwise_insertionSort (· ≤ ·) selected)

theorem mem_outermost {p : Path} {selected : List Path} :
    p ∈ outermost selected ↔ p ∈ selected ∧ ∀ q ∈ selected, q <+: p → q = p := by
  rw [outermost, firsts, List.mem_reverse, List.mem_dedup, List.mem_reverse, List.mem_filter,
    List.all_eq_true]
  refine and_congr_right fun _ => forall₂_congr fun q _ => ?_
  simp only [Bool.or_eq_true, Bool.not_eq_true', decide_eq_false_iff_not, decide_eq_true_eq]
  tauto

theorem outermost_eq_firsts {selected : List Path}
    (h : ∀ p ∈ selected, ∀ q ∈ selected, p <+: q → p = q) :
    outermost selected = firsts selected := by
  rw [outermost, List.filter_eq_self.mpr]
  intro p hp
  refine List.all_eq_true.mpr fun q hq => ?_
  by_cases hstarts : q <+: p
  · simp [h q hq p hp hstarts]
  · simp [hstarts]

/-- What is pruned stands in the order of the document. -/
theorem prune_of_level {root : Node T} {selected : List Path} (hlevel : Level selected)
    (hselectable : ∀ p ∈ selected, Selectable root p) :
    ∃ removed, prune root selected = .ok (root.without selected, removed) ∧
      removed.map some = (firsts (sort selected)).map root.at? := by
  have hmem : ∀ p, p ∈ (sort selected).reverse ↔ p ∈ selected := fun p => by
    rw [List.mem_reverse, mem_sort]
  have hlevel' : Level (sort selected).reverse :=
    ⟨fun p hp q hq => hlevel.apart p ((hmem p).mp hp) q ((hmem q).mp hq),
      fun p hp q hq => hlevel.depth p ((hmem p).mp hp) q ((hmem q).mp hq)⟩
  obtain ⟨removed, hloop, hremoved⟩ := pruneLoop_eq_ok root [] []
    (sorted_reverse_sort selected) hlevel' (fun p hp => hselectable p ((hmem p).mp hp))
    fun _ _ _ hq => nomatch hq
  rw [without_nil, List.append_nil, without_congr hmem root] at hloop
  refine ⟨removed.reverse, ?_, ?_⟩
  · rw [prune, hloop]
    rfl
  · rw [List.map_reverse, hremoved, ← List.map_reverse]
    rfl

theorem level_of_prunes {root : Node T} {selected : List Path} (h : Prunes root selected) :
    Level selected := by
  obtain ⟨removed, hprune, hremoved⟩ := h
  obtain ⟨⟨root', result⟩, hloop, hprune⟩ := Lib.bind_eq_ok.mp hprune
  cases hprune
  obtain ⟨hdepth, hlength⟩ := of_pruneLoop_eq_ok (sorted_reverse_sort selected) hloop
  refine ⟨?_, fun p hp q hq hlt => ?_⟩
  · -- as many nodes were removed as paths were selected, so all of these are outermost
    have hcard : (outermost selected).toFinset.card = selected.toFinset.card := by
      have hnodup : (outermost selected).Nodup := by
        rw [outermost, firsts, List.nodup_reverse]
        exact List.nodup_dedup _
      have hcount : (outermost selected).length = result.length := by
        rw [← List.length_map (f := root.at?), ← hremoved, List.length_map, List.length_reverse]
      have hdedup : (sort selected).reverse.dedup.length = selected.toFinset.card := by
        rw [← List.toFinset_card_of_nodup (List.nodup_dedup _)]
        congr 1
        ext p
        simp [mem_sort]
      rw [List.toFinset_card_of_nodup hnodup, hcount, hlength, List.length_nil, Nat.zero_add, hdedup]
    have hsub : (outermost selected).toFinset ⊆ selected.toFinset := by
      intro p hp
      rw [List.mem_toFinset] at hp ⊢
      exact (mem_outermost.mp hp).1
    have heq := Finset.eq_of_subset_of_card_le hsub hcard.ge
    intro p hp q hq hstarts
    have hout : q ∈ outermost selected := by
      rw [← List.mem_toFinset, heq, List.mem_toFinset]
      exact hq
    exact (mem_outermost.mp hout).2 p hp hstarts
  · have hboth := hdepth.and (sorted_reverse_sort selected)
    have hp' : p ∈ (sort selected).reverse := List.mem_reverse.mpr (mem_sort.mpr hp)
    have hq' : q ∈ (sort selected).reverse := List.mem_reverse.mpr (mem_sort.mpr hq)
    obtain ⟨i, hi, rfl⟩ := List.getElem_of_mem hp'
    obtain ⟨j, hj, rfl⟩ := List.getElem_of_mem hq'
    rcases lt_trichotomy i j with hij | rfl | hij
    · exact absurd (List.pairwise_iff_getElem.mp hboth i j hi hj hij).2 (not_le.mpr hlt)
    · exact absurd hlt (lt_irrefl _)
    · exact (List.pairwise_iff_getElem.mp hboth j i hj hi hij).1

/-- Pruning does what it says when the selected nodes are apart and, in the order of the
document, none is deeper than one behind it, and when that order is the order they were
selected in, as far as the nodes can be told apart. -/
theorem prunes_iff (root : Node T) (calls : List (Call T)) (selected : List Path)
    (h : run root calls = .ok selected) :
    Prunes root selected ↔ Level selected ∧
      (firsts selected).map root.at? = (firsts (sort selected)).map root.at? := by
  have hselectable := selectable_of_run h
  constructor
  · intro hprunes
    have hlevel := level_of_prunes hprunes
    obtain ⟨removed, hprune, hremoved⟩ := hprunes
    obtain ⟨removed', hprune', hremoved'⟩ := prune_of_level hlevel hselectable
    rw [hprune] at hprune'
    cases hprune'
    exact ⟨hlevel, by rw [← outermost_eq_firsts hlevel.apart, ← hremoved, hremoved']⟩
  · rintro ⟨hlevel, horder⟩
    obtain ⟨removed, hprune, hremoved⟩ := prune_of_level hlevel hselectable
    refine ⟨removed, hprune, ?_⟩
    rw [hremoved, outermost_eq_firsts hlevel.apart, horder]

/-- A root with two children, the first of which has a child -/
def threeBelow : Node Nat := mk 0 [mk 1 [mk 2 []], mk 3 []]

/-- The calls that select the first child and then the second -/
theorem prunes_iff_siblings :
    Prunes threeBelow [[0], [1]] ↔ Level [[0], [1]] ∧
      (firsts [[0], [1]]).map threeBelow.at? = (firsts (sort [[0], [1]])).map threeBelow.at? :=
  prunes_iff threeBelow [.extend (byValue (· = 1)), .extend (byValue (· = 3))] [[0], [1]] (by rfl)

/-- With the child of the first child and the second child selected, the lengths are the wrong
way round. -/
theorem not_prunes :
    run threeBelow [.extend (byValue (· ≥ 2))] = .ok [[0, 0], [1]] ∧
    prune threeBelow [[0, 0], [1]] = .error .index ∧ ¬ Prunes threeBelow [[0, 0], [1]] := by
  have hpanic : prune threeBelow [[0, 0], [1]] = .error .index := by rfl
  refine ⟨by rfl, hpanic, fun ⟨removed, h, _⟩ => ?_⟩
  rw [hpanic] at h
  cases h

end Urnest.Ruf
