import Mathlib
import Urnest.Ruf.Selection

/-!
# The traversal of a selection

`select_by_path` of ruf_tree once more, as it is written: with one stack of ancestors and one
path, which are pushed to and popped from on the way, and with the calls of the selector
(`Visit`). A search visits the nodes that are reached from its start once each, in the order of
their paths, which is the order of the document; the selector is told of each where it is
(`Search`).

`Selection` and `MutableSelection` have code of their own for a chain of steps. Both select the
same (`selections_traverse`).
-/

namespace Urnest.Ruf

open Node

variable {T : Type}

/-! ## The code -/

/-- A call of the selector -/
structure Visit (T : Type) where
  ancestors : List T
  path : Path
  startingFrom : Nat
  node : Node T

namespace Visit

variable (selector : Selector T) (v : Visit T)

def disposition : Disposition := selector v.ancestors v.path v.startingFrom v.node

/-- `assert_path_valid` of what is selected -/
def valid : Bool := (v.disposition selector).select.all fun p => (v.node.at? p).isSome

/-- What is selected, as paths from the root -/
def chosen : List Path := (v.disposition selector).select.map (v.path ++ ·)

end Visit

/-- `ancestors` and `path`, and the calls so far -/
structure Stacks (T : Type) where
  ancestors : List T
  path : Path
  visits : List (Visit T)

mutual

/-- `select_by_path` -/
def selectByPathOn (selector : Selector T) (startingFrom : Nat) (s : Stacks T) :
    Node T → Result (List Path × Stacks T)
  | mk value children =>
    if s.ancestors = [] ∨ s.path = [] then .error .assertion
    else
      let visit : Visit T := ⟨s.ancestors, s.path, startingFrom, mk value children⟩
      let s := { s with visits := s.visits ++ [visit] }
      if visit.valid selector then
        if (visit.disposition selector).recurse then
          selectDescendants selector startingFrom value 0 (visit.chosen selector) s children
        else .ok (visit.chosen selector, s)
      else .error .assertion

/-- The loop over the children, from number `i` on -/
def selectDescendants (selector : Selector T) (startingFrom : Nat) (value : T) (i : Nat)
    (result : List Path) (s : Stacks T) : List (Node T) → Result (List Path × Stacks T)
  | [] => .ok (result, s)
  | c :: cs =>
    match selectByPathOn selector startingFrom
      { s with path := s.path ++ [i], ancestors := s.ancestors ++ [value] } c with
    | .error e => .error e
    | .ok (selected, s) =>
      selectDescendants selector startingFrom value (i + 1) (result ++ selected)
        { s with ancestors := s.ancestors.dropLast, path := s.path.dropLast } cs

end

/-- The loop of `extend_by_path`, from child number `i` of the root on -/
def extendChildren (selector : Selector T) (i : Nat) (selected : List Path) (s : Stacks T) :
    List (Node T) → Result (List Path × Stacks T)
  | [] => .ok (selected, s)
  | c :: cs =>
    match selectByPathOn selector 1 { s with path := s.path ++ [i] } c with
    | .error e => .error e
    | .ok (more, s) =>
      extendChildren selector (i + 1) (selected ++ more) { s with path := s.path.dropLast } cs

/-- The loop of `refine_by_path`, with what is selected and called so far -/
def refinePaths (root : Node T) (selector : Selector T) (selected : List Path)
    (visits : List (Visit T)) : List Path → Result (List Path × List (Visit T))
  | [] => .ok (selected, visits)
  | path :: was =>
    if path = [] then .error .assertion
    else
      match followPath root path with
      | .error e => .error e
      | .ok (ancestors, node) =>
        if ancestors.length ≠ path.length then .error .assertion
        else
          match selectByPathOn selector ancestors.length ⟨ancestors, path, visits⟩ node with
          | .error e => .error e
          | .ok (more, s) => refinePaths root selector (selected ++ more) s.visits was

/-- `copy_value` -/
def copyValue : Node T → Path → Result T
  | n, [] => .ok n.value
  | n, i :: p =>
    match n.children[i]? with
    | none => .error .index
    | some c => copyValue c p

/-- The nodes that `Iter` gives -/
def iterate (root : Node T) : List Path → Result (List (Node T))
  | [] => .ok []
  | p :: ps => do
    let (_, node) ← followPath root p
    let nodes ← iterate root ps
    return node :: nodes

/-- `copy_selected_values` -/
def copySelectedValues (root : Node T) : List Path → Result (List T)
  | [] => .ok []
  | p :: ps => do
    let value ← copyValue root p
    let values ← copySelectedValues root ps
    return value :: values

structure Selection (T : Type) where
  root : Node T
  selectedPaths : List Path

structure MutableSelection (T : Type) where
  root : Node T
  selectedPaths : List Path

/-- `extend_by_path` clones what is selected, and `refine_by_path` starts with nothing. -/
def Selection.apply (x : Selection T) : Call T → Result (Selection T × List (Visit T))
  | .extend selector => do
    let (selected, s) ← extendChildren selector 0 x.selectedPaths ⟨[x.root.value], [], []⟩
      x.root.children
    return (⟨x.root, selected⟩, s.visits)
  | .refine selector => do
    let (selected, visits) ← refinePaths x.root selector [] [] x.selectedPaths
    return (⟨x.root, selected⟩, visits)

/-- The same in place: what was selected is swapped with nothing before it is refined. -/
def MutableSelection.apply (x : MutableSelection T) :
    Call T → Result (MutableSelection T × List (Visit T))
  | .extend selector => do
    let (selected, s) ← extendChildren selector 0 x.selectedPaths ⟨[x.root.value], [], []⟩
      x.root.children
    return ({ x with selectedPaths := selected }, s.visits)
  | .refine selector => do
    let was := x.selectedPaths
    let x := { x with selectedPaths := [] }
    let (selected, visits) ← refinePaths x.root selector x.selectedPaths [] was
    return ({ x with selectedPaths := selected }, visits)

/-- The selection after a chain of steps -/
def select (root : Node T) (calls : List (Call T)) : Result (Selection T) :=
  calls.foldlM (fun x call => do return (← x.apply call).1) ⟨root, []⟩

def mutSelect (root : Node T) (calls : List (Call T)) : Result (MutableSelection T) :=
  calls.foldlM (fun x call => do return (← x.apply call).1) ⟨root, []⟩

/-! ## What is asked of it -/

/-- The values along a path, without that of the node at its end -/
def valuesAlong (root : Node T) (p : Path) : List T :=
  (List.range p.length).filterMap fun k => (root.at? (p.take k)).map Node.value

/-- What is reached from a node: itself, and what is reached from its children when the selector
says to recurse -/
inductive Reached (root : Node T) (selector : Selector T) (startingFrom : Nat) :
    Path → Path → Prop where
  | here (p : Path) : Reached root selector startingFrom p p
  | child {p q : Path} {node : Node T} {i : Nat} : root.at? p = some node →
    (selector (valuesAlong root p) p startingFrom node).recurse = true →
    i < node.children.length → Reached root selector startingFrom (p ++ [i]) q →
    Reached root selector startingFrom p q

/-- The calls of a search: one for each path that is reached, in their order -/
structure Search (root : Node T) (startingFrom : Nat) (reached : Path → Prop)
    (visits : List (Visit T)) : Prop where
  sorted : (visits.map Visit.path).Pairwise (· < ·)
  mem_iff : ∀ p, p ∈ visits.map Visit.path ↔ reached p
  told : ∀ v ∈ visits, root.at? v.path = some v.node ∧ v.ancestors = valuesAlong root v.path ∧
    v.startingFrom = startingFrom

/-- What was chosen is selected, behind what was selected before; and nothing is when the
selector has chosen a path that is not there. -/
def Selects (selector : Selector T) (before : List Path) (visits : List (Visit T))
    (result : Result (List Path × List (Visit T))) : Prop :=
  result = if visits.all (Visit.valid selector) then
    .ok (before ++ visits.flatMap (Visit.chosen selector), visits) else .error .assertion

/-- A step of a chain. All that is below the root is searched to extend a selection, with the
root outside of the search; to refine it, what is selected is searched, one after the other. -/
def Traverses (root : Node T) (selected : List Path)
    (result : Result (List Path × List (Visit T))) : Call T → Prop
  | .extend selector => ∃ visits, Search root 1
      (fun p => ∃ i < root.children.length, Reached root selector 1 [i] p) visits ∧
    Selects selector selected visits result
  | .refine selector => ∃ searches : List (List (Visit T)),
    List.Forall₂ (fun start => Search root start.length
      (Reached root selector start.length start)) selected searches ∧
    Selects selector [] searches.flatten result

/-- `iter` gives the nodes at the paths, and `copy_selected_values` their values. -/
def Lists (root : Node T) (selected : List Path) : Prop :=
  ∃ nodes, iterate root selected = .ok nodes ∧ nodes.map some = selected.map root.at? ∧
    copySelectedValues root selected = .ok (nodes.map Node.value)

/-! ## The calls, without the stacks -/

mutual

/-- The calls for a node and what is searched below it -/
def visits (selector : Selector T) (startingFrom : Nat) (ancestors : List T) (path : Path) :
    Node T → List (Visit T)
  | mk value children =>
    let visit : Visit T := ⟨ancestors, path, startingFrom, mk value children⟩
    visit :: if (visit.disposition selector).recurse then
      visitsBelow selector startingFrom (ancestors ++ [value]) path 0 children else []

/-- The calls for the children from number `i` on -/
def visitsBelow (selector : Selector T) (startingFrom : Nat) (ancestors : List T) (path : Path)
    (i : Nat) : List (Node T) → List (Visit T)
  | [] => []
  | c :: cs => visits selector startingFrom ancestors (path ++ [i]) c ++
      visitsBelow selector startingFrom ancestors path (i + 1) cs

end

/-- What the calls make of what is selected so far -/
def collect (selector : Selector T) (selected : List Path) (s : Stacks T)
    (vs : List (Visit T)) : Result (List Path × Stacks T) :=
  if vs.all (Visit.valid selector) then
    .ok (selected ++ vs.flatMap (Visit.chosen selector), { s with visits := s.visits ++ vs })
  else .error .assertion

section Stacks

variable (selector : Selector T)

theorem collect_nil (selected : List Path) (s : Stacks T) :
    collect selector selected s [] = .ok (selected, s) := by
  simp [collect]

theorem collect_of_valid {vs : List (Visit T)} (h : vs.all (Visit.valid selector) = true)
    (selected : List Path) (s : Stacks T) (ws : List (Visit T)) :
    collect selector selected s (vs ++ ws) =
      collect selector (selected ++ vs.flatMap (Visit.chosen selector))
        { s with visits := s.visits ++ vs } ws := by
  simp [collect, h]

theorem collect_of_not_valid {vs : List (Visit T)} (h : ¬ vs.all (Visit.valid selector) = true)
    (selected : List Path) (s : Stacks T) (ws : List (Visit T)) :
    collect selector selected s (vs ++ ws) = .error .assertion := by
  rw [collect, if_neg]
  rw [List.all_append, Bool.and_eq_true]
  exact fun hboth => h hboth.1

mutual

/-- What is pushed is popped. -/
theorem selectByPathOn_eq (startingFrom : Nat) (s : Stacks T) (hancestors : s.ancestors ≠ [])
    (hpath : s.path ≠ []) : (node : Node T) →
      selectByPathOn selector startingFrom s node =
        collect selector [] s (visits selector startingFrom s.ancestors s.path node)
  | mk value children => by
    have hempty : ¬ (s.ancestors = [] ∨ s.path = []) := not_or.mpr ⟨hancestors, hpath⟩
    rw [selectByPathOn, if_neg hempty, visits, ← List.singleton_append]
    simp only
    split_ifs with hvalid hrecurse
    · rw [selectDescendants_eq startingFrom value children,
        collect_of_valid selector (by simpa using hvalid)]
      simp
    · rw [collect_of_valid selector (by simpa using hvalid), collect_nil]
      simp
    · rw [collect_of_not_valid selector (by simpa using hvalid)]
    · rw [collect_of_not_valid selector (by simpa using hvalid)]

theorem selectDescendants_eq (startingFrom : Nat) (value : T) : (cs : List (Node T)) →
    ∀ (i : Nat) (selected : List Path) (s : Stacks T),
      selectDescendants selector startingFrom value i selected s cs =
        collect selector selected s
          (visitsBelow selector startingFrom (s.ancestors ++ [value]) s.path i cs)
  | [], i, selected, s => by rw [selectDescendants, visitsBelow, collect_nil]
  | c :: cs, i, selected, s => by
    rw [selectDescendants, visitsBelow,
      selectByPathOn_eq startingFrom { s with path := _, ancestors := _ } (by simp) (by simp) c]
    simp only
    by_cases hvalid : (visits selector startingFrom (s.ancestors ++ [value]) (s.path ++ [i])
        c).all (Visit.valid selector) = true
    · rw [collect_of_valid selector hvalid, collect, if_pos hvalid]
      simp only [List.nil_append, List.dropLast_concat]
      exact selectDescendants_eq startingFrom value cs ..
    · rw [collect_of_not_valid selector hvalid, collect, if_neg hvalid]

end

/-- The children of the root are searched with one ancestor. -/
theorem extendChildren_eq (cs : List (Node T)) (i : Nat) (selected : List Path) (s : Stacks T)
    (hancestors : s.ancestors ≠ []) :
    extendChildren selector i selected s cs =
      collect selector selected s (visitsBelow selector 1 s.ancestors s.path i cs) := by
  induction cs generalizing i selected s with
  | nil => rw [extendChildren, visitsBelow, collect_nil]
  | cons c cs ih =>
    rw [extendChildren, visitsBelow,
      selectByPathOn_eq selector 1 { s with path := s.path ++ [i] } hancestors (by simp) c]
    simp only
    by_cases hvalid : (visits selector 1 s.ancestors (s.path ++ [i]) c).all
        (Visit.valid selector) = true
    · rw [collect_of_valid selector hvalid, collect, if_pos hvalid]
      simp only [List.nil_append, List.dropLast_concat]
      exact ih (i + 1) _ { s with visits := _ } hancestors
    · rw [collect_of_not_valid selector hvalid, collect, if_neg hvalid]

end Stacks

/-- What the calls select -/
def collected (selector : Selector T) (vs : List (Visit T)) : Result (List Path) :=
  if vs.all (Visit.valid selector) then .ok (vs.flatMap (Visit.chosen selector))
  else .error .assertion

section Values

variable (selector : Selector T)

theorem collected_append (vs ws : List (Visit T)) :
    collected selector (vs ++ ws) =
      (do
        let xs ← collected selector vs
        let ys ← collected selector ws
        return xs ++ ys) := by
  rw [collected, List.all_append, List.flatMap_append, collected, collected]
  cases vs.all (Visit.valid selector) <;> cases ws.all (Visit.valid selector) <;> rfl

theorem collected_cons (v : Visit T) (vs : List (Visit T)) :
    collected selector (v :: vs) =
      if v.valid selector then (do
        let more ← collected selector vs
        return v.chosen selector ++ more)
      else .error .assertion := by
  rw [collected, List.all_cons, List.flatMap_cons, collected]
  cases v.valid selector <;> cases vs.all (Visit.valid selector) <;> rfl

theorem not_valid_iff (v : Visit T) :
    ((v.disposition selector).select.any fun p => (v.node.at? p).isNone) = !v.valid selector := by
  rw [Visit.valid, List.any_eq_not_all_not]
  simp only [Option.not_isNone]

mutual

/-- The search of `selectByPath`, which has no stacks, is the same. -/
theorem selectByPath_eq (startingFrom : Nat) {ancestors : List T} {path : Path}
    (hancestors : ancestors ≠ []) (hpath : path ≠ []) : (node : Node T) →
      selectByPath selector ancestors path startingFrom node =
        collected selector (visits selector startingFrom ancestors path node)
  | mk value children => by
    have hempty : ¬ (ancestors = [] ∨ path = []) := not_or.mpr ⟨hancestors, hpath⟩
    have hinvalid := not_valid_iff selector ⟨ancestors, path, startingFrom, mk value children⟩
    rw [Visit.disposition] at hinvalid
    rw [selectByPath, if_neg hempty, visits, collected_cons]
    simp only [hinvalid]
    cases Visit.valid selector ⟨ancestors, path, startingFrom, mk value children⟩ with
    | false => rfl
    | true =>
      simp only [Visit.disposition, selectChildren_eq startingFrom
        (List.concat_ne_nil value ancestors) path children 0]
      by_cases hrecurse : (selector ancestors path startingFrom (mk value children)).recurse = true
      · simp only [hrecurse, if_true]
        rfl
      · simp only [hrecurse]
        exact congrArg Except.ok (List.append_nil _).symm

theorem selectChildren_eq (startingFrom : Nat) {ancestors : List T} (hancestors : ancestors ≠ [])
    (path : Path) : (cs : List (Node T)) → (i : Nat) →
      selectChildren selector ancestors path startingFrom i cs =
        collected selector (visitsBelow selector startingFrom ancestors path i cs)
  | [], i => by rw [selectChildren, visitsBelow]; rfl
  | c :: cs, i => by
    rw [selectChildren, visitsBelow, collected_append,
      selectByPath_eq startingFrom hancestors (by simp) c,
      selectChildren_eq startingFrom hancestors path cs (i + 1)]

end

end Values

/-! ## Where the calls are -/

section Search

variable {root : Node T} {selector : Selector T} {startingFrom : Nat}

theorem at?_concat {p : Path} {node c : Node T} {i : Nat} (hnode : root.at? p = some node)
    (hc : node.children[i]? = some c) : root.at? (p ++ [i]) = some c := by
  rw [at?_append, hnode, Option.bind_some, at?, hc]
  rfl

theorem valuesAlong_concat {p : Path} {node : Node T} (hnode : root.at? p = some node) (i : Nat) :
    valuesAlong root (p ++ [i]) = valuesAlong root p ++ [node.value] := by
  rw [valuesAlong, valuesAlong, List.length_append, List.length_singleton, List.range_succ,
    List.filterMap_append]
  congr 1
  · refine List.filterMap_congr fun k hk => ?_
    rw [List.take_append_of_le_length (List.mem_range.mp hk).le]
  · rw [List.filterMap_cons, List.take_left', hnode]
    · rfl
    · rfl

theorem valuesAlong_cons {c : Node T} {i : Nat} (hc : root.children[i]? = some c) (p : Path) :
    valuesAlong root (i :: p) = root.value :: valuesAlong c p := by
  have hat (q : Path) : root.at? (i :: q) = c.at? q := by
    rw [at?, hc]
    rfl
  rw [valuesAlong, List.length_cons, List.range_succ_eq_map, List.filterMap_cons,
    List.filterMap_map]
  simp only [List.take_zero, Function.comp_def, List.take_succ_cons, hat]
  rfl

/-- Where there is a node, `follow_path` finds it. -/
theorem followPath_eq {p : Path} {node : Node T} (hnode : root.at? p = some node) :
    followPath root p = .ok (valuesAlong root p, node) ∧
      (valuesAlong root p).length = p.length := by
  induction p generalizing root with
  | nil =>
    cases hnode
    exact ⟨rfl, rfl⟩
  | cons i p ih =>
    rw [at?] at hnode
    obtain ⟨c, hc, hnode⟩ := Option.bind_eq_some_iff.mp hnode
    obtain ⟨hfollow, hlength⟩ := ih hnode
    rw [followPath, hc, valuesAlong_cons hc]
    simp only [hfollow, List.length_cons, hlength]
    exact ⟨rfl, trivial⟩

theorem copyValue_eq {p : Path} {node : Node T} (hnode : root.at? p = some node) :
    copyValue root p = .ok node.value := by
  induction p generalizing root with
  | nil =>
    cases hnode
    rfl
  | cons i p ih =>
    rw [at?] at hnode
    obtain ⟨c, hc, hnode⟩ := Option.bind_eq_some_iff.mp hnode
    rw [copyValue, hc]
    exact ih hnode

theorem Reached.starts {p q : Path} (h : Reached root selector startingFrom p q) : p <+: q := by
  induction h with
  | here p => exact List.prefix_refl p
  | child _ _ _ _ ih => exact (List.prefix_append ..).trans ih

theorem lt_append (p : Path) (i : Nat) (q : Path) : p < p ++ i :: q := by
  induction p with
  | nil => exact List.nil_lt_cons i q
  | cons j p ih => exact List.cons_lt_cons_iff.mpr (.inr ⟨rfl, ih⟩)

/-- What is below a node comes behind it. -/
theorem lt_of_below {p q : Path} {i : Nat} (h : p ++ [i] <+: q) : p < q := by
  obtain ⟨rest, rfl⟩ := h
  rw [List.append_assoc]
  exact lt_append p i rest

/-- What is below an elder sibling comes first. -/
theorem lt_of_siblings {p q r : Path} {i j : Nat} (hq : p ++ [i] <+: q) (hr : p ++ [j] <+: r)
    (hij : i < j) : q < r := by
  obtain ⟨front, rfl⟩ := hq
  obtain ⟨back, rfl⟩ := hr
  rw [List.append_assoc, List.append_assoc]
  induction p with
  | nil => exact List.cons_lt_cons_iff.mpr (.inl hij)
  | cons k p ih => exact List.cons_lt_cons_iff.mpr (.inr ⟨rfl, ih⟩)

theorem reached_iff {p q : Path} {node : Node T} (hnode : root.at? p = some node) :
    Reached root selector startingFrom p q ↔
      q = p ∨ (selector (valuesAlong root p) p startingFrom node).recurse = true ∧
        ∃ i < node.children.length, Reached root selector startingFrom (p ++ [i]) q := by
  constructor
  · intro h
    cases h with
    | here => exact .inl rfl
    | child hat hrecurse hi h =>
      rw [hnode] at hat
      cases hat
      exact .inr ⟨hrecurse, _, hi, h⟩
  · rintro (rfl | ⟨hrecurse, i, hi, h⟩)
    · exact .here q
    · exact .child hnode hrecurse hi h

theorem Search.congr {reached reached' : Path → Prop} {vs : List (Visit T)}
    (h : Search root startingFrom reached vs) (hiff : ∀ p, reached p ↔ reached' p) :
    Search root startingFrom reached' vs :=
  ⟨h.sorted, fun p => (h.mem_iff p).trans (hiff p), h.told⟩

theorem Search.nil {reached : Path → Prop} (h : ∀ p, ¬ reached p) :
    Search root startingFrom reached [] :=
  ⟨.nil, fun p => iff_of_false List.not_mem_nil (h p), fun _ hv => nomatch hv⟩

theorem Search.single {p : Path} {node : Node T} (hnode : root.at? p = some node) :
    Search root startingFrom (· = p) [⟨valuesAlong root p, p, startingFrom, node⟩] where
  sorted := List.pairwise_singleton ..
  mem_iff _ := List.mem_singleton
  told v hv := by
    cases List.mem_singleton.mp hv
    exact ⟨hnode, rfl, rfl⟩

/-- A search behind another one -/
theorem Search.append {reached reached' : Path → Prop} {vs ws : List (Visit T)}
    (h : Search root startingFrom reached vs) (h' : Search root startingFrom reached' ws)
    (hlt : ∀ p q, reached p → reached' q → p < q) :
    Search root startingFrom (fun p => reached p ∨ reached' p) (vs ++ ws) where
  sorted := by
    rw [List.map_append]
    refine List.pairwise_append.mpr ⟨h.sorted, h'.sorted, fun p hp q hq => ?_⟩
    exact hlt p q ((h.mem_iff p).mp hp) ((h'.mem_iff q).mp hq)
  mem_iff p := by rw [List.map_append, List.mem_append, h.mem_iff, h'.mem_iff]
  told v hv := (List.mem_append.mp hv).elim (h.told v) (h'.told v)

mutual

/-- By induction on the node: it comes first, and each child with what is below it behind its
elder siblings. -/
theorem search_visits : (node : Node T) → (path : Path) → root.at? path = some node →
    Search root startingFrom (Reached root selector startingFrom path)
      (visits selector startingFrom (valuesAlong root path) path node)
  | mk value children, path, hnode => by
    have hbelow : Search root startingFrom
        (fun q => (selector (valuesAlong root path) path startingFrom (mk value children)).recurse
          = true ∧ ∃ i < children.length, Reached root selector startingFrom (path ++ [i]) q)
        (if (selector (valuesAlong root path) path startingFrom (mk value children)).recurse then
          visitsBelow selector startingFrom (valuesAlong root path ++ [value]) path 0 children
        else []) := by
      split_ifs with hrecurse
      · refine (search_visitsBelow (mk value children) path hnode children 0 rfl).congr fun q => ?_
        exact ⟨fun ⟨i, _, hi⟩ => ⟨hrecurse, i, hi⟩, fun ⟨_, i, hi⟩ => ⟨i, Nat.zero_le i, hi⟩⟩
      · exact .nil fun _ h => hrecurse h.1
    rw [visits, ← List.singleton_append]
    refine ((Search.single hnode).append hbelow ?_).congr fun q => (reached_iff hnode).symm
    rintro p q rfl ⟨-, i, -, hreached⟩
    exact lt_of_below hreached.starts

theorem search_visitsBelow (node : Node T) (path : Path) (hnode : root.at? path = some node) :
    (cs : List (Node T)) → (i : Nat) → node.children.drop i = cs →
      Search root startingFrom
        (fun q => ∃ k, i ≤ k ∧ k < node.children.length ∧
          Reached root selector startingFrom (path ++ [k]) q)
        (visitsBelow selector startingFrom (valuesAlong root path ++ [node.value]) path i cs)
  | [], i, hdrop => by
    have hle := List.drop_eq_nil_iff.mp hdrop
    exact .nil fun q ⟨k, hik, hk, _⟩ => absurd (hle.trans hik) (not_le.mpr hk)
  | c :: cs, i, hdrop => by
    have hchild : node.children[i]? = some c := by
      rw [← List.head?_drop, hdrop, List.head?_cons]
    have hrest : node.children.drop (i + 1) = cs := by
      rw [← List.drop_drop, hdrop]
      rfl
    have hfirst := search_visits c (path ++ [i]) (at?_concat hnode hchild)
    have hothers := search_visitsBelow node path hnode cs (i + 1) hrest
    rw [valuesAlong_concat hnode] at hfirst
    rw [visitsBelow]
    refine (hfirst.append hothers ?_).congr fun q => ?_
    · rintro p q hp ⟨k, hik, -, hq⟩
      exact lt_of_siblings hp.starts hq.starts hik
    · constructor
      · rintro (h | ⟨k, hik, h⟩)
        · exact ⟨i, le_rfl, (List.getElem?_eq_some_iff.mp hchild).1, h⟩
        · exact ⟨k, (Nat.le_succ i).trans hik, h⟩
      · rintro ⟨k, hik, hk, h⟩
        rcases hik.eq_or_lt with rfl | hlt
        · exact .inl h
        · exact .inr ⟨k, hlt, hk, h⟩

end

end Search

/-! ## The steps of a chain -/

/-- The calls of a search that starts at what is selected -/
def visitsFrom (root : Node T) (selector : Selector T) (start : Path) : List (Visit T) :=
  match root.at? start with
  | none => []
  | some node => visits selector start.length (valuesAlong root start) start node

section Steps

variable {root : Node T} {selector : Selector T}

theorem visitsFrom_eq {path : Path} {node : Node T} (hnode : root.at? path = some node) :
    visitsFrom root selector path =
      visits selector path.length (valuesAlong root path) path node := by
  rw [visitsFrom, hnode]

theorem valuesAlong_ne_nil {path : Path} {node : Node T} (hpath : path ≠ [])
    (hnode : root.at? path = some node) : valuesAlong root path ≠ [] := by
  obtain ⟨-, hlength⟩ := followPath_eq hnode
  rwa [← List.length_pos_iff, hlength, List.length_pos_iff]

/-- What comes of refining: the searches one after the other -/
theorem refinePaths_eq {was : List Path} (hwas : ∀ p ∈ was, Selectable root p)
    (selected : List Path) (vs : List (Visit T)) :
    refinePaths root selector selected vs was =
      if (was.flatMap (visitsFrom root selector)).all (Visit.valid selector) then
        .ok (selected ++ (was.flatMap (visitsFrom root selector)).flatMap
          (Visit.chosen selector), vs ++ was.flatMap (visitsFrom root selector))
      else .error .assertion := by
  induction was generalizing selected vs with
  | nil => simp [refinePaths]
  | cons path was ih =>
    obtain ⟨hpath, hsome⟩ := hwas path List.mem_cons_self
    obtain ⟨node, hnode⟩ := Option.isSome_iff_exists.mp hsome
    obtain ⟨hfollow, hlength⟩ := followPath_eq hnode
    have hne := valuesAlong_ne_nil hpath hnode
    rw [refinePaths, if_neg hpath, hfollow]
    simp only [hlength, ne_eq, not_true_eq_false, if_false]
    rw [selectByPathOn_eq selector _ _ hne hpath, ← visitsFrom_eq hnode, collect,
      List.flatMap_cons]
    by_cases hvalid : (visitsFrom root selector path).all (Visit.valid selector) = true
    · rw [if_pos hvalid]
      simp only [List.nil_append, ih fun p hp => hwas p (.tail _ hp)]
      simp [hvalid]
    · rw [if_neg hvalid, if_neg]
      rw [List.all_append, Bool.and_eq_true]
      exact fun hboth => hvalid hboth.1

/-- The same without the stacks -/
theorem refineByPath_eq {was : List Path} (hwas : ∀ p ∈ was, Selectable root p) :
    refineByPath root selector was =
      collected selector (was.flatMap (visitsFrom root selector)) := by
  induction was with
  | nil => rfl
  | cons path was ih =>
    obtain ⟨hpath, hsome⟩ := hwas path List.mem_cons_self
    obtain ⟨node, hnode⟩ := Option.isSome_iff_exists.mp hsome
    obtain ⟨hfollow, hlength⟩ := followPath_eq hnode
    have hne := valuesAlong_ne_nil hpath hnode
    have hrefine : refinePath root selector path =
        collected selector (visitsFrom root selector path) := by
      rw [visitsFrom_eq hnode, ← selectByPath_eq selector path.length hne hpath node, refinePath,
        if_neg hpath, hfollow]
      change (if (valuesAlong root path).length ≠ path.length then _ else _) = _
      rw [if_neg (not_not_intro hlength), hlength]
    rw [refineByPath, hrefine, ih fun p hp => hwas p (.tail _ hp), List.flatMap_cons,
      collected_append]

end Steps

/-- The calls of a step -/
def Call.visits (root : Node T) (selected : List Path) : Call T → List (Visit T)
  | .extend selector => visitsBelow selector 1 [root.value] [] 0 root.children
  | .refine selector => selected.flatMap (visitsFrom root selector)

section Chain

variable {root : Node T} {selected : List Path}

/-- To extend a selection: what comes of the stacks that either starts with -/
theorem extendChildren_root (selector : Selector T) :
    extendChildren selector 0 selected ⟨[root.value], [], []⟩ root.children =
      ((Call.extend selector).apply root selected).map fun more =>
        (more, ⟨[root.value], [], (Call.extend selector).visits root selected⟩) := by
  rw [extendChildren_eq selector _ _ _ _ (by simp), Call.apply, extendByPath,
    selectChildren_eq selector 1 (by simp), collect, collected, Call.visits]
  simp only
  split_ifs <;> rfl

/-- To refine one -/
theorem refinePaths_root (hselected : ∀ p ∈ selected, Selectable root p)
    (selector : Selector T) :
    refinePaths root selector [] [] selected =
      ((Call.refine selector).apply root selected).map fun more =>
        (more, (Call.refine selector).visits root selected) := by
  rw [refinePaths_eq hselected, Call.apply, refineByPath_eq hselected, collected, Call.visits]
  split_ifs <;> rfl

theorem Selection.apply_eq (hselected : ∀ p ∈ selected, Selectable root p) (call : Call T) :
    (⟨root, selected⟩ : Selection T).apply call =
      (call.apply root selected).map fun more => (⟨root, more⟩, call.visits root selected) := by
  cases call with
  | extend selector =>
    rw [Selection.apply, extendChildren_root]
    cases (Call.extend selector).apply root selected <;> rfl
  | refine selector =>
    rw [Selection.apply, refinePaths_root hselected]
    cases (Call.refine selector).apply root selected <;> rfl

theorem MutableSelection.apply_eq (hselected : ∀ p ∈ selected, Selectable root p)
    (call : Call T) :
    (⟨root, selected⟩ : MutableSelection T).apply call =
      (call.apply root selected).map fun more => (⟨root, more⟩, call.visits root selected) := by
  cases call with
  | extend selector =>
    rw [MutableSelection.apply, extendChildren_root]
    cases (Call.extend selector).apply root selected <;> rfl
  | refine selector =>
    simp only [MutableSelection.apply]
    rw [refinePaths_root hselected]
    cases (Call.refine selector).apply root selected <;> rfl

/-- The calls of a step are those of its searches. -/
theorem traverses_apply (hselected : ∀ p ∈ selected, Selectable root p) (call : Call T) :
    Traverses root selected
      ((call.apply root selected).map fun more => (more, call.visits root selected)) call := by
  cases call with
  | extend selector =>
    refine ⟨visitsBelow selector 1 [root.value] [] 0 root.children, ?_, ?_⟩
    · refine (search_visitsBelow root [] rfl root.children 0 rfl).congr fun p => ?_
      exact exists_congr fun i => and_iff_right (Nat.zero_le i)
    · rw [Selects, Call.apply, extendByPath, selectChildren_eq selector 1 (by simp), collected]
      split_ifs <;> rfl
  | refine selector =>
    refine ⟨selected.map (visitsFrom root selector), ?_, ?_⟩
    · refine List.forall₂_map_right_iff.mpr (List.forall₂_same.mpr fun start hstart => ?_)
      obtain ⟨node, hnode⟩ := Option.isSome_iff_exists.mp (hselected start hstart).2
      rw [visitsFrom_eq hnode]
      exact search_visits node start hnode
    · rw [Selects, Call.apply, refineByPath_eq hselected, collected, Call.visits,
        List.flatMap_def]
      split_ifs <;> rfl

theorem lists_of_selectable (hselected : ∀ p ∈ selected, Selectable root p) :
    Lists root selected := by
  induction selected with
  | nil => exact ⟨[], rfl, rfl, rfl⟩
  | cons p selected ih =>
    obtain ⟨node, hnode⟩ := Option.isSome_iff_exists.mp (hselected p List.mem_cons_self).2
    obtain ⟨nodes, hiterate, hat, hcopy⟩ := ih fun q hq => hselected q (.tail _ hq)
    refine ⟨node :: nodes, ?_, ?_, ?_⟩
    · rw [iterate, (followPath_eq hnode).1, hiterate]
      rfl
    · rw [List.map_cons, List.map_cons, hat, hnode]
    · rw [copySelectedValues, copyValue_eq hnode, hcopy]
      rfl

/-- Steps that do the same to what is selected do so one after the other. -/
theorem foldlM_eq {S : Type} (toSelection : List Path → S) (apply : S → Call T → Result S)
    (happly : ∀ selected, (∀ p ∈ selected, Selectable root p) → ∀ call,
      apply (toSelection selected) call = (call.apply root selected).map toSelection)
    (calls : List (Call T)) (hselected : ∀ p ∈ selected, Selectable root p) :
    calls.foldlM apply (toSelection selected) =
      (calls.foldlM (fun selected (call : Call T) => call.apply root selected) selected).map
        toSelection := by
  induction calls generalizing selected with
  | nil => rfl
  | cons call calls ih =>
    rw [List.foldlM_cons, List.foldlM_cons, happly selected hselected]
    cases hcall : call.apply root selected with
    | error e => rfl
    | ok next => exact ih (selectable_of_apply hselected hcall)

theorem select_eq (root : Node T) (calls : List (Call T)) :
    select root calls = (run root calls).map fun selected => ⟨root, selected⟩ := by
  refine foldlM_eq (fun selected => (⟨root, selected⟩ : Selection T)) _
    (fun selected hselected call => ?_) calls fun _ hp => by cases hp
  rw [Selection.apply_eq hselected]
  cases call.apply root selected <;> rfl

theorem mutSelect_eq (root : Node T) (calls : List (Call T)) :
    mutSelect root calls = (run root calls).map fun selected => ⟨root, selected⟩ := by
  refine foldlM_eq (fun selected => (⟨root, selected⟩ : MutableSelection T)) _
    (fun selected hselected call => ?_) calls fun _ hp => by cases hp
  rw [MutableSelection.apply_eq hselected]
  cases call.apply root selected <;> rfl

end Chain

/-- What a selection lists, and what comes of each step that can follow -/
structure Follows (root : Node T) (selected : List Path)
    (step : Call T → Result (List Path × List (Visit T))) : Prop where
  lists : Lists root selected
  traverses : ∀ call, Traverses root selected (step call) call

theorem follows_of_eq {root : Node T} {selected : List Path} {S : Type} {paths : S → List Path}
    {toSelection : List Path → S} {step : Call T → Result (S × List (Visit T))}
    (hselected : ∀ p ∈ selected, Selectable root p)
    (hpaths : ∀ more, paths (toSelection more) = more)
    (hstep : ∀ call : Call T, step call = (call.apply root selected).map fun more =>
      (toSelection more, call.visits root selected)) :
    Follows root selected fun call => (step call).map fun y => (paths y.1, y.2) := by
  refine ⟨lists_of_selectable hselected, fun call => ?_⟩
  have htraverses := traverses_apply hselected call
  rw [hstep]
  cases hcall : call.apply root selected with
  | error e => rwa [hcall] at htraverses
  | ok more =>
    rw [hcall] at htraverses
    simpa only [Except.map, hpaths] using htraverses

/-- After whichever steps, both have selected the same, which they list, and each further step
of either is a traversal. -/
theorem selections_traverse (root : Node T) (calls : List (Call T)) :
    (mutSelect root calls).map MutableSelection.selectedPaths =
      (select root calls).map Selection.selectedPaths ∧
    (∀ x, select root calls = .ok x → Follows root x.selectedPaths fun call =>
      (x.apply call).map fun y => (y.1.selectedPaths, y.2)) ∧
    ∀ x, mutSelect root calls = .ok x → Follows root x.selectedPaths fun call =>
      (x.apply call).map fun y => (y.1.selectedPaths, y.2) := by
  rw [select_eq, mutSelect_eq]
  cases hrun : run root calls with
  | error e => exact ⟨rfl, fun x h => (nomatch h), fun x h => (nomatch h)⟩
  | ok selected =>
    have hselected := selectable_of_run hrun
    refine ⟨rfl, fun x h => ?_, fun x h => ?_⟩
    · cases h
      exact follows_of_eq hselected (fun _ => rfl) (Selection.apply_eq hselected)
    · cases h
      exact follows_of_eq hselected (fun _ => rfl) (MutableSelection.apply_eq hselected)

/-- The nodes of two or more, and each step that follows -/
theorem selections_traverse_two : Follows threeBelow [[0, 0], [1]] fun call =>
    ((⟨threeBelow, [[0, 0], [1]]⟩ : Selection Nat).apply call).map fun y =>
      (y.1.selectedPaths, y.2) :=
  (selections_traverse threeBelow [.extend (byValue (· ≥ 2))]).2.1 ⟨threeBelow, [[0, 0], [1]]⟩ (by rfl)

end Urnest.Ruf
