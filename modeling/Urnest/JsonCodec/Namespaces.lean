import Urnest.Lib.DepthFirst
import Urnest.Lib.Dict

/-!
# TypeScript namespaces, sorted

The definitions of a tree of namespaces are written namespace by namespace, so that a namespace
comes behind those it depends on. The order comes from depth-first walks that begin where
nothing else depends on (`roots`).

The namespaces that are listed are those that such a walk reaches: all of them if there are no
cycles. Where the classes of two modules refer to each other, and no third module to either,
there is no walk that reaches the two, and what they define is not written.
-/

namespace Urnest.JsonCodec.TypeScript

open Lib (Dict DependsOn Acyclic Walked)
open Relation (ReflTransGen)

abbrev UQN := List Char
abbrev FQN := List UQN
abbrev SourceCode := List Char

/-- The namespaces, and those that each depends on -/
abbrev Nodes := Dict FQN (List FQN)

/-! ## Sorting -/

/-- There is no result without enough fuel, or where `nodes[node]` is a `KeyError`. -/
def walkTypescriptNodeDepthFirst (nodes : Nodes) (fuel : Nat) (node : FQN) (seen : List FQN) :
    Option (List FQN × List FQN) := Lib.walk nodes.get? fuel node seen

/-- The namespaces that no other depends on -/
def roots (nodes : Nodes) : List FQN :=
  nodes.items.foldl (fun roots x =>
    let dep_set := x.2.filter fun dep => dep ≠ x.1
    roots.filter fun root => root ∉ dep_set) nodes.keys

def sortStep (nodes : Nodes) (result : List FQN) (node : FQN) : Option (List FQN) :=
  if node ∈ roots nodes then
    (walkTypescriptNodeDepthFirst nodes (nodes.length + 1) node result).map fun r => result ++ r.1
  else some result

def sortTypescriptNamespaces (nodes : Nodes) : Option (List FQN) :=
  nodes.keys.foldlM (sortStep nodes) []

/-! ## What is listed -/

/-- Every dependency is a key. -/
def Closed (nodes : Nodes) : Prop := ∀ x ∈ nodes.items, ∀ dep ∈ x.2, dep ∈ nodes

/-- Each namespace can be reached from one that no other depends on. -/
def AllReached (nodes : Nodes) : Prop :=
  ∀ node ∈ nodes, ∃ root ∈ nodes, (∀ x, x ≠ root → ¬DependsOn nodes.get? x root) ∧
    ReflTransGen (DependsOn nodes.get?) root node

/-- No namespace depends on a later one. -/
def Ordered (nodes : Nodes) (result : List FQN) : Prop :=
  result.Pairwise fun x y => ¬DependsOn nodes.get? x y

section Sorting

variable {nodes : Nodes}

theorem dependsOn_iff {x y : FQN} :
    DependsOn nodes.get? x y ↔ ∃ deps, (x, deps) ∈ nodes.items ∧ y ∈ deps :=
  exists_congr fun _ => and_congr_left fun _ => Dict.get?_eq_some

theorem mem_roots {root : FQN} :
    root ∈ roots nodes ↔ root ∈ nodes ∧ ∀ x, x ≠ root → ¬DependsOn nodes.get? x root := by
  have hfold (items : List (FQN × List FQN)) (start : List FQN) :
      root ∈ items.foldl (fun roots x =>
        let dep_set := x.2.filter fun dep => dep ≠ x.1
        roots.filter fun root => root ∉ dep_set) start
        ↔ root ∈ start ∧ ∀ x ∈ items, x.1 ≠ root → root ∉ x.2 := by
    induction items generalizing start with
    | nil => simp
    | cons x items ih =>
      rw [List.foldl_cons, ih, List.mem_filter, List.forall_mem_cons, and_assoc]
      refine and_congr_right fun _ => and_congr_left fun _ => ?_
      simp only [List.mem_filter, decide_eq_true_eq, not_and', ne_eq, @eq_comm _ root]
  rw [roots, hfold]
  refine and_congr_right fun _ => ⟨fun h x hne hdepends => ?_, fun h x hx hne hmem => ?_⟩
  · obtain ⟨deps, hx, hmem⟩ := dependsOn_iff.mp hdepends
    exact h (x, deps) hx hne hmem
  · exact h x.1 hne (dependsOn_iff.mpr ⟨x.2, hx, hmem⟩)

theorem Closed.get? (h : Closed nodes) {node : FQN} (hnode : node ∈ nodes.keys) :
    ∃ deps, nodes.get? node = some deps ∧ ∀ dep ∈ deps, dep ∈ nodes.keys := by
  obtain ⟨deps, hdeps⟩ := Dict.exists_get? hnode
  exact ⟨deps, hdeps, h _ (Dict.get?_eq_some.mp hdeps)⟩

theorem Closed.mem_of_reaches (h : Closed nodes) {x y : FQN} (hx : x ∈ nodes.keys)
    (hreaches : ReflTransGen (DependsOn nodes.get?) x y) : y ∈ nodes.keys := by
  induction hreaches with
  | refl => exact hx
  | tail _ hstep ih =>
    obtain ⟨deps, hdeps, hmem⟩ := dependsOn_iff.mp hstep
    exact h _ hdeps _ hmem

/-- A root is reached from no other namespace. -/
theorem eq_of_reaches_root {x root : FQN}
    (hroot : ∀ x, x ≠ root → ¬DependsOn nodes.get? x root)
    (hreaches : ReflTransGen (DependsOn nodes.get?) x root) : x = root := by
  induction hreaches using ReflTransGen.head_induction_on with
  | refl => rfl
  | head hstep _ ih =>
    subst ih
    by_contra hne
    exact hroot _ hne hstep

/-- The walk from a root that is not listed yet -/
theorem sortStep_root (h : Closed nodes) {node : FQN} {starts result : List FQN}
    (hnode : node ∈ nodes.keys) (hroot : node ∈ roots nodes) (hunseen : node ∉ result)
    (hwalked : Walked nodes.get? starts [] result result) :
    ∃ result', sortStep nodes result node = some result' ∧
      Walked nodes.get? (starts ++ [node]) [] result' result' ∧ node ∈ result' ∧
      ∀ x ∈ result, x ∈ result' := by
  have hfuel : Lib.unseen nodes.keys result < nodes.length + 1 := by
    rw [Dict.length, ← List.length_map Prod.fst]
    exact Nat.lt_succ_of_le (List.length_filter_le ..)
  obtain ⟨r, seen', hrun, hmem, hr⟩ :=
    Lib.walks_walk (fun x hx => h.get? hx) _ node result hnode hunseen hfuel
  refine ⟨result ++ r, ?_, ?_, List.mem_append_right _ hmem, fun x hx => List.mem_append_left _ hx⟩
  · rw [sortStep, if_pos hroot, walkTypescriptNodeDepthFirst, hrun]
    rfl
  · refine (hwalked.append hr).congr (fun _ => Iff.rfl) fun x => ?_
    rw [hr.mem_seen, List.mem_append]

/-- The walks from the roots among some keys, one after the other -/
theorem foldlM_sortStep (h : Closed nodes) {keys : List FQN} (hkeys : ∀ x ∈ keys, x ∈ nodes.keys)
    (hnodup : keys.Nodup) {starts result : List FQN}
    (hwalked : Walked nodes.get? starts [] result result)
    (hstarts : ∀ x ∈ starts, x ∈ result ∧ x ∈ roots nodes ∧ x ∉ keys) :
    ∃ starts' result', keys.foldlM (sortStep nodes) result = some result' ∧
      Walked nodes.get? starts' [] result' result' ∧
      (∀ x ∈ starts', x ∈ result' ∧ x ∈ roots nodes) ∧
      (∀ x ∈ starts, x ∈ starts') ∧ ∀ x ∈ keys, x ∈ roots nodes → x ∈ starts' := by
  induction keys generalizing starts result with
  | nil =>
    refine ⟨starts, result, rfl, hwalked, fun x hx => ?_, fun x hx => hx, List.forall_mem_nil _⟩
    exact ⟨(hstarts x hx).1, (hstarts x hx).2.1⟩
  | cons node keys ih =>
    obtain ⟨hnode, hkeys⟩ := List.forall_mem_cons.mp hkeys
    obtain ⟨hnew, hnodup⟩ := List.nodup_cons.mp hnodup
    rw [List.foldlM_cons]
    by_cases hroot : node ∈ roots nodes
    · -- only a walk from the root itself could have seen it
      have hunseen : node ∉ result := by
        intro hmem
        obtain ⟨start, hstart, hreaches⟩ := hwalked.reached node hmem
        obtain rfl := eq_of_reaches_root (mem_roots.mp hroot).2 hreaches
        exact (hstarts start hstart).2.2 List.mem_cons_self
      obtain ⟨result', hstep, hwalked', hmem, hkept⟩ := sortStep_root h hnode hroot hunseen hwalked
      rw [hstep]
      obtain ⟨starts', result'', hfold, hall, hstarts', hsub, hroots⟩ :=
        ih hkeys hnodup hwalked' fun x hx => by
          obtain hx | hx := List.mem_append.mp hx
          · obtain ⟨hx', hxroot, hxkeys⟩ := hstarts x hx
            exact ⟨hkept x hx', hxroot, mt (List.mem_cons_of_mem _) hxkeys⟩
          · obtain rfl := List.mem_singleton.mp hx
            exact ⟨hmem, hroot, hnew⟩
      refine ⟨starts', result'', hfold, hall, hstarts',
        fun x hx => hsub x (List.mem_append_left _ hx), ?_⟩
      refine List.forall_mem_cons.mpr ⟨fun _ => ?_, hroots⟩
      exact hsub node (List.mem_append_right _ List.mem_cons_self)
    · rw [sortStep, if_neg hroot]
      obtain ⟨starts', result', hfold, hwalked', hstarts', hsub, hroots⟩ :=
        ih hkeys hnodup hwalked fun x hx => by
          obtain ⟨hx', hxroot, hxkeys⟩ := hstarts x hx
          exact ⟨hx', hxroot, mt (List.mem_cons_of_mem _) hxkeys⟩
      refine ⟨starts', result', hfold, hwalked', hstarts', hsub, ?_⟩
      exact List.forall_mem_cons.mpr ⟨fun hx => absurd hx hroot, hroots⟩

/-- The namespaces that are listed are those that can be reached from a root, each once; without
cycles none depends on a later one. -/
theorem sortTypescriptNamespaces_eq_some (h : Closed nodes) :
    ∃ result, sortTypescriptNamespaces nodes = some result ∧ result.Nodup ∧
      (∀ x, x ∈ result ↔ ∃ root ∈ roots nodes, ReflTransGen (DependsOn nodes.get?) root x) ∧
      (Acyclic nodes.get? → Ordered nodes result) := by
  obtain ⟨starts, result, hrun, hwalked, hstarts, -, hroots⟩ :=
    foldlM_sortStep h (fun _ hx => hx) nodes.nodup_keys (Walked.nil [] [])
      (List.forall_mem_nil _)
  refine ⟨result, hrun, hwalked.nodup, fun x => ⟨fun hx => ?_, ?_⟩, hwalked.ordered⟩
  · obtain ⟨start, hstart, hreaches⟩ := hwalked.reached x hx
    exact ⟨start, (hstarts start hstart).2, hreaches⟩
  · rintro ⟨root, hroot, hreaches⟩
    have hstart := hroots root (mem_roots.mp hroot).1 hroot
    exact hwalked.mem_of_reaches (hstarts root hstart).1 hreaches

/-- Every namespace is listed if and only if each can be reached from a root. -/
theorem perm_keys_iff (h : Closed nodes) {result : List FQN}
    (hrun : sortTypescriptNamespaces nodes = some result) :
    result.Perm nodes.keys ↔ AllReached nodes := by
  obtain ⟨result', hrun', hnodup, hmem, -⟩ := sortTypescriptNamespaces_eq_some h
  obtain rfl := Option.some.inj (hrun.symm.trans hrun')
  rw [List.perm_ext_iff_of_nodup hnodup nodes.nodup_keys]
  have hreached (x : FQN) : x ∈ result ↔ ∃ root ∈ nodes,
      (∀ x, x ≠ root → ¬DependsOn nodes.get? x root) ∧
        ReflTransGen (DependsOn nodes.get?) root x := by
    simp only [hmem, mem_roots, and_assoc]
  constructor
  · exact fun hall node hnode => (hreached node).mp ((hall node).mpr hnode)
  · refine fun hall node => ⟨fun hnode => ?_, fun hnode => (hreached node).mpr (hall node hnode)⟩
    obtain ⟨root, hroot, -, hreaches⟩ := (hreached node).mp hnode
    exact h.mem_of_reaches hroot hreaches

/-- Without cycles each namespace can be reached from a root: go back to one that depends on it,
until nothing does. -/
theorem allReached_of_acyclic (h : Acyclic nodes.get?) : AllReached nodes := by
  classical
  intro node hnode
  generalize hn : (nodes.keys.filter fun x => ReflTransGen (DependsOn nodes.get?) x node).length = n
  induction n using Nat.strongRecOn generalizing node with
  | ind n ih =>
    by_cases hroot : ∀ x, x ≠ node → ¬DependsOn nodes.get? x node
    · exact ⟨node, hnode, hroot, .refl⟩
    · push Not at hroot
      obtain ⟨x, hne, hdepends⟩ := hroot
      have hx : x ∈ nodes := by
        obtain ⟨deps, hitem, -⟩ := dependsOn_iff.mp hdepends
        exact Dict.mem_of_mem_items hitem
      have hlt :
          (nodes.keys.filter fun y => ReflTransGen (DependsOn nodes.get?) y x).length < n := by
        have heq : nodes.keys.filter (fun y => ReflTransGen (DependsOn nodes.get?) y x)
            = (nodes.keys.filter fun y => ReflTransGen (DependsOn nodes.get?) y node).filter
              fun y => ReflTransGen (DependsOn nodes.get?) y x := by
          rw [List.filter_filter]
          refine List.filter_congr fun y _ => ?_
          have hafter : ReflTransGen (DependsOn nodes.get?) y x →
              ReflTransGen (DependsOn nodes.get?) y node := fun hreaches => hreaches.tail hdepends
          simpa using hafter
        rw [heq, ← hn]
        refine List.length_filter_lt_length_iff_exists.mpr ⟨node, ?_, ?_⟩
        · exact List.mem_filter.mpr ⟨hnode, decide_eq_true .refl⟩
        · simpa using h x node hne hdepends
      obtain ⟨root, hrootmem, hroot, hreaches⟩ := ih _ hlt x hx rfl
      exact ⟨root, hrootmem, hroot, hreaches.tail hdepends⟩

end Sorting

/-! ## The tree of namespaces -/

/-- What a name is defined as -/
inductive Def where
  | source (src : SourceCode)
  | ns (defs : List (UQN × Def)) (namespaces_this_namespace_depends_on : List FQN)

/-- The definitions of a namespace itself -/
def sources (defs : List (UQN × Def)) : List (UQN × SourceCode) :=
  defs.filterMap fun x =>
    match x.2 with
    | .source src => some (x.1, src)
    | .ns .. => none

abbrev Flat := Dict FQN (List (UQN × SourceCode)) × Nodes

/-- `dict.update` -/
def update {α : Type} (d d' : Dict FQN α) : Dict FQN α :=
  d'.items.foldl (fun d x => d.set x.1 x.2) d

def updateFlat (flat flat' : Flat) : Flat := (update flat.1 flat'.1, update flat.2 flat'.2)

namespace Def

mutual

def getFlatDefs (parent : FQN) : Def → Flat
  | source _ => (.empty, .empty)
  | ns defs deps =>
    (nestedFlatDefs parent defs).foldl updateFlat
      (Dict.empty.set parent (sources defs), Dict.empty.set parent deps)

def nestedFlatDefs (parent : FQN) : List (UQN × Def) → List Flat
  | [] => []
  | (name, x) :: rest =>
    match x with
    | source _ => nestedFlatDefs parent rest
    | ns .. => x.getFlatDefs (parent ++ [name]) :: nestedFlatDefs parent rest

end

mutual

/-- All namespaces of the tree, by their paths: what each defines, and what it depends on -/
def namespaces (parent : FQN) : Def → List (FQN × List (UQN × SourceCode) × List FQN)
  | source _ => []
  | ns defs deps => (parent, sources defs, deps) :: nestedNamespaces parent defs

def nestedNamespaces (parent : FQN) :
    List (UQN × Def) → List (FQN × List (UQN × SourceCode) × List FQN)
  | [] => []
  | (name, x) :: rest => x.namespaces (parent ++ [name]) ++ nestedNamespaces parent rest

end

mutual

/-- The definitions of each namespace are a `dict`: no name comes twice. -/
def Dicts : Def → Prop
  | source _ => True
  | ns defs _ => (defs.map Prod.fst).Nodup ∧ AllDicts defs

def AllDicts : List (UQN × Def) → Prop
  | [] => True
  | (_, x) :: rest => x.Dicts ∧ AllDicts rest

end

/-- The paths below different names of a namespace are different. -/
theorem paths_append {name : UQN} {parent path path' : FQN} {name' : UQN}
    (h : parent ++ [name] <+: path) (h' : parent ++ [name'] <+: path') (heq : path = path') :
    name = name' := by
  obtain ⟨rest, rfl⟩ := h
  obtain ⟨rest', rfl⟩ := h'
  rw [List.append_assoc, List.append_assoc] at heq
  exact (List.cons.inj (List.append_cancel_left heq)).1

mutual

theorem starts_of_mem_namespaces {parent : FQN} {n : FQN × List (UQN × SourceCode) × List FQN} :
    (x : Def) → n ∈ x.namespaces parent → parent <+: n.1
  | source _, hn => absurd hn List.not_mem_nil
  | ns defs deps, hn => by
    obtain rfl | hn := List.mem_cons.mp hn
    · exact List.prefix_rfl
    · obtain ⟨name, -, hstarts⟩ := starts_of_mem_nestedNamespaces defs hn
      exact (List.prefix_append ..).trans hstarts

theorem starts_of_mem_nestedNamespaces {parent : FQN}
    {n : FQN × List (UQN × SourceCode) × List FQN} :
    (defs : List (UQN × Def)) → n ∈ nestedNamespaces parent defs →
      ∃ name ∈ defs.map Prod.fst, parent ++ [name] <+: n.1
  | [], hn => absurd hn List.not_mem_nil
  | (name, x) :: rest, hn => by
    obtain hn | hn := List.mem_append.mp hn
    · exact ⟨name, List.mem_cons_self, starts_of_mem_namespaces x hn⟩
    · obtain ⟨name', hname', hstarts⟩ := starts_of_mem_nestedNamespaces rest hn
      exact ⟨name', List.mem_cons_of_mem _ hname', hstarts⟩

end

mutual

theorem nodup_namespaces (parent : FQN) :
    (x : Def) → x.Dicts → ((x.namespaces parent).map Prod.fst).Nodup
  | source _, _ => .nil
  | ns defs deps, h => by
    refine List.nodup_cons.mpr ⟨fun hmem => ?_, nodup_nestedNamespaces parent defs h.1 h.2⟩
    obtain ⟨n, hn, hparent⟩ := List.mem_map.mp hmem
    obtain ⟨name, -, hstarts⟩ := starts_of_mem_nestedNamespaces defs hn
    have hlength := hstarts.length_le
    rw [hparent, List.length_append] at hlength
    exact absurd hlength (Nat.not_succ_le_self _)

theorem nodup_nestedNamespaces (parent : FQN) : (defs : List (UQN × Def)) →
    (defs.map Prod.fst).Nodup → AllDicts defs → ((nestedNamespaces parent defs).map Prod.fst).Nodup
  | [], _, _ => .nil
  | (name, x) :: rest, hnodup, h => by
    obtain ⟨hname, hnodup⟩ := List.nodup_cons.mp hnodup
    rw [nestedNamespaces, List.map_append]
    refine List.nodup_append'.mpr ⟨nodup_namespaces _ x h.1,
      nodup_nestedNamespaces parent rest hnodup h.2, fun path hpath hpath' => ?_⟩
    obtain ⟨n, hn, rfl⟩ := List.mem_map.mp hpath
    obtain ⟨n', hn', heq⟩ := List.mem_map.mp hpath'
    obtain ⟨name', hname', hstarts⟩ := starts_of_mem_nestedNamespaces rest hn'
    refine hname ?_
    rw [paths_append (starts_of_mem_namespaces x hn) hstarts heq.symm]
    exact hname'

end

end Def

theorem items_update {α : Type} {d d' : Dict FQN α} (hnew : ∀ k ∈ d'.keys, k ∉ d) :
    (update d d').items = d.items ++ d'.items := by
  have hfold (items : List (FQN × α)) (hnodup : (items.map Prod.fst).Nodup) (d : Dict FQN α)
      (hnew : ∀ k ∈ items.map Prod.fst, k ∉ d) :
      (items.foldl (fun d x => d.set x.1 x.2) d).items = d.items ++ items := by
    induction items generalizing d with
    | nil => exact (List.append_nil _).symm
    | cons x items ih =>
      obtain ⟨hx, hnodup⟩ := List.nodup_cons.mp hnodup
      obtain ⟨hxnew, hnew⟩ := List.forall_mem_cons.mp hnew
      rw [List.foldl_cons, ih hnodup, Dict.items_set_new hxnew, List.append_assoc]
      · rfl
      · intro k hk hmem
        obtain rfl | hmem := Dict.mem_set.mp hmem
        · exact hx hk
        · exact hnew k hk hmem
  exact hfold d'.items d'.nodup d hnew

/-- The `dict`s have the entries of these namespaces, in this order. -/
structure FlatOf (flat : Flat) (l : List (FQN × List (UQN × SourceCode) × List FQN)) : Prop where
  src : flat.1.items = l.map fun n => (n.1, n.2.1)
  deps : flat.2.items = l.map fun n => (n.1, n.2.2)

theorem FlatOf.update {flat flat' : Flat} {l l' : List (FQN × List (UQN × SourceCode) × List FQN)}
    (h : FlatOf flat l) (h' : FlatOf flat' l') (hnodup : ((l ++ l').map Prod.fst).Nodup) :
    FlatOf (updateFlat flat flat') (l ++ l') := by
  rw [List.map_append, List.nodup_append'] at hnodup
  have hkeys : flat.1.keys = l.map Prod.fst ∧ flat.2.keys = l.map Prod.fst := by
    rw [Dict.keys, Dict.keys, h.src, h.deps, List.map_map, List.map_map]
    exact ⟨rfl, rfl⟩
  have hkeys' : flat'.1.keys = l'.map Prod.fst ∧ flat'.2.keys = l'.map Prod.fst := by
    rw [Dict.keys, Dict.keys, h'.src, h'.deps, List.map_map, List.map_map]
    exact ⟨rfl, rfl⟩
  constructor
  · rw [List.map_append, ← h.src, ← h'.src]
    refine items_update fun k hk hmem => ?_
    exact hnodup.2.2 (hkeys.1 ▸ Dict.mem_def.mp hmem) (hkeys'.1 ▸ hk)
  · rw [List.map_append, ← h.deps, ← h'.deps]
    refine items_update fun k hk hmem => ?_
    exact hnodup.2.2 (hkeys.2 ▸ Dict.mem_def.mp hmem) (hkeys'.2 ▸ hk)

mutual

theorem flatOf_getFlatDefs (parent : FQN) :
    (x : Def) → x.Dicts → FlatOf (x.getFlatDefs parent) (x.namespaces parent)
  | .source _, _ => ⟨rfl, rfl⟩
  | .ns defs deps, h => by
    rw [Def.getFlatDefs, Def.namespaces]
    have hself : FlatOf (Dict.empty.set parent (sources defs), Dict.empty.set parent deps)
        [(parent, sources defs, deps)] :=
      ⟨Dict.items_set_new (Dict.not_mem_empty parent) _,
        Dict.items_set_new (Dict.not_mem_empty parent) _⟩
    exact flatOf_nestedFlatDefs parent defs h.1 h.2 hself
      (Def.nodup_namespaces parent (.ns defs deps) h)

theorem flatOf_nestedFlatDefs (parent : FQN) : (defs : List (UQN × Def)) →
    (defs.map Prod.fst).Nodup → Def.AllDicts defs → {flat : Flat} →
    {l : List (FQN × List (UQN × SourceCode) × List FQN)} → FlatOf flat l →
    ((l ++ Def.nestedNamespaces parent defs).map Prod.fst).Nodup →
    FlatOf ((Def.nestedFlatDefs parent defs).foldl updateFlat flat)
      (l ++ Def.nestedNamespaces parent defs)
  | [], _, _, flat, l, hflat, _ => by
    rw [Def.nestedNamespaces, List.append_nil]
    exact hflat
  | (name, .source src) :: rest, hnames, h, flat, l, hflat, hnodup =>
    flatOf_nestedFlatDefs parent rest (List.nodup_cons.mp hnames).2 h.2 hflat hnodup
  | (name, .ns defs deps) :: rest, hnames, h, flat, l, hflat, hnodup => by
    have hx := flatOf_getFlatDefs (parent ++ [name]) (.ns defs deps) h.1
    rw [Def.nestedNamespaces, ← List.append_assoc] at hnodup ⊢
    have hfirst := hflat.update hx
      (hnodup.sublist ((List.sublist_append_left _ _).map Prod.fst))
    exact flatOf_nestedFlatDefs parent rest (List.nodup_cons.mp hnames).2 h.2 hfirst hnodup

end

/-! ## What is written -/

/-- What ends a line for `splitlines`, other than a carriage return -/
def isLineBoundary (c : Char) : Bool :=
  c ∈ ['\n', '\x0b', '\x0c', '\x1c', '\x1d', '\x1e', '\u0085', '\u2028', '\u2029']

/-- `str.splitlines`, with what has been read of a line -/
def splitlines : (line : List Char) → List Char → List (List Char)
  | [], [] => []
  | line, [] => [line]
  | line, '\r' :: '\n' :: rest => line :: splitlines [] rest
  | line, c :: rest =>
    if c = '\r' ∨ isLineBoundary c then line :: splitlines [] rest
    else splitlines (line ++ [c]) rest

/-- `'\n'.join` -/
def joinLines (lines : List SourceCode) : SourceCode := List.intercalate ['\n'] lines

def indent (n : Nat) (s : SourceCode) : SourceCode :=
  match splitlines [] s with
  | [] => []
  | line :: lines => joinLines (line :: lines.map fun l => List.replicate n ' ' ++ l)

def formatTypescriptDefs : FQN → List (UQN × SourceCode) → (exported : SourceCode) → SourceCode
  | [], defs, exported => joinLines (defs.map fun v => exported ++ v.2)
  | n :: rest, defs, exported =>
    exported ++ "namespace ".toList ++ n ++ " \x7b\n    ".toList ++
      indent 4 (formatTypescriptDefs rest defs "export ".toList) ++ "\n\x7d".toList

/-- The `result` of `get_formatted_defs`, before it is joined -/
def formattedDefs (self : Def) (exported : SourceCode) : Option (List SourceCode) :=
  let (flat, deps) := self.getFlatDefs []
  (sortTypescriptNamespaces deps).bind fun ordered =>
    ordered.mapM fun ns_name =>
      (flat.get? ns_name).map fun defs => formatTypescriptDefs ns_name defs exported

def getFormattedDefs (self : Def) (exported : SourceCode) : Option SourceCode :=
  (formattedDefs self exported).map joinLines

/-- What is to be written of each namespace of the tree -/
def allDefs (self : Def) (exported : SourceCode) : List SourceCode :=
  (self.namespaces []).map fun n => formatTypescriptDefs n.1 n.2.1 exported

theorem mapM_eq_some_map {α β : Type} {f : α → Option β} {g : α → β} {l : List α}
    (h : ∀ x ∈ l, f x = some (g x)) : l.mapM f = some (l.map g) := by
  induction l with
  | nil => rfl
  | cons x l ih =>
    obtain ⟨hx, hl⟩ := List.forall_mem_cons.mp h
    rw [List.mapM_cons, hx, ih hl]
    rfl

/-- Everything is written, namespace by namespace, if and only if every namespace is reached. -/
theorem formattedDefs_perm_iff {self : Def} (hdicts : self.Dicts)
    (hclosed : Closed (self.getFlatDefs []).2) (exported : SourceCode) :
    ∃ pieces, formattedDefs self exported = some pieces ∧
      (pieces.Perm (allDefs self exported) ↔ AllReached (self.getFlatDefs []).2) := by
  have hflat := flatOf_getFlatDefs [] self hdicts
  obtain ⟨ordered, hsort, hnodup, hmem, -⟩ := sortTypescriptNamespaces_eq_some hclosed
  have hkeys : (self.getFlatDefs []).2.keys = (self.namespaces []).map Prod.fst := by
    rw [Dict.keys, hflat.deps, List.map_map]
    rfl
  have hsub : ∀ x ∈ ordered, x ∈ (self.getFlatDefs []).2.keys := by
    intro x hx
    obtain ⟨root, hroot, hreaches⟩ := (hmem x).mp hx
    exact hclosed.mem_of_reaches (mem_roots.mp hroot).1 hreaches
  let piece (x : FQN) : SourceCode :=
    formatTypescriptDefs x (((self.getFlatDefs []).1.get? x).getD []) exported
  have hget (n) (hn : n ∈ self.namespaces []) : (self.getFlatDefs []).1.get? n.1 = some n.2.1 := by
    rw [Dict.get?_eq_some, hflat.src]
    exact List.mem_map_of_mem (f := fun n : FQN × List (UQN × SourceCode) × List FQN =>
      (n.1, n.2.1)) hn
  have hall : allDefs self exported = ((self.namespaces []).map Prod.fst).map piece := by
    rw [allDefs, List.map_map]
    refine List.map_congr_left fun n hn => ?_
    simp only [piece, Function.comp_apply, hget n hn, Option.getD_some]
  refine ⟨ordered.map piece, ?_, ?_⟩
  · change (sortTypescriptNamespaces (self.getFlatDefs []).2).bind _ = _
    rw [hsort]
    refine mapM_eq_some_map fun x hx => ?_
    have hxmem := hsub x hx
    rw [hkeys] at hxmem
    obtain ⟨n, hn, rfl⟩ := List.mem_map.mp hxmem
    simp only [piece, hget n hn, Option.map_some, Option.getD_some]
  · rw [← perm_keys_iff hclosed hsort, hall, ← hkeys]
    refine ⟨fun hperm => ?_, fun hperm => hperm.map piece⟩
    have hlength := hperm.length_eq
    rw [List.length_map, List.length_map] at hlength
    exact (List.subperm_of_subset hnodup hsub).perm_of_length_le (Nat.le_of_eq hlength.symm)

/-- Every namespace is listed once, and every definition of a tree of namespaces written, if and
only if each namespace can be reached from one that no other depends on. Without cycles each can
be, and none depends on a later one. -/
theorem sorted_and_written_iff (nodes : Nodes) (hclosed : Closed nodes) (self : Def)
    (hdicts : self.Dicts) (hdefs : Closed (self.getFlatDefs []).2) (exported : SourceCode) :
    (∃ result, sortTypescriptNamespaces nodes = some result ∧
      (result.Perm nodes.keys ↔ AllReached nodes) ∧
      (Acyclic nodes.get? → AllReached nodes ∧ Ordered nodes result)) ∧
    ∃ pieces, formattedDefs self exported = some pieces ∧
      (pieces.Perm (allDefs self exported) ↔ AllReached (self.getFlatDefs []).2) := by
  refine ⟨?_, formattedDefs_perm_iff hdicts hdefs exported⟩
  obtain ⟨result, hsort, -, -, hordered⟩ := sortTypescriptNamespaces_eq_some hclosed
  exact ⟨result, hsort, perm_keys_iff hclosed hsort,
    fun hacyclic => ⟨allReached_of_acyclic hacyclic, hordered hacyclic⟩⟩

/-- Two modules whose classes refer to each other -/
def twoModules : Def := .ns [
  (['a'], .ns [(['X'], .source ['x'])] [[['b']]]),
  (['b'], .ns [(['Y'], .source ['y'])] [[['a']]])] []

theorem twoModules_dicts : twoModules.Dicts := by
  simp [twoModules, Def.Dicts, Def.AllDicts]

theorem twoModules_closed : Closed (twoModules.getFlatDefs []).2 := by
  change ∀ x ∈ (twoModules.getFlatDefs []).2.items, ∀ dep ∈ x.2,
    dep ∈ (twoModules.getFlatDefs []).2
  decide

theorem sorted_and_written_iff_twoModules :
    (∃ result, sortTypescriptNamespaces (twoModules.getFlatDefs []).2 = some result ∧
      (result.Perm (twoModules.getFlatDefs []).2.keys ↔ AllReached (twoModules.getFlatDefs []).2)) ∧
    ∃ pieces, formattedDefs twoModules [] = some pieces ∧
      (pieces.Perm (allDefs twoModules []) ↔ AllReached (twoModules.getFlatDefs []).2) := by
  obtain ⟨⟨result, hsort, hperm, -⟩, hwritten⟩ := sorted_and_written_iff _ twoModules_closed
    twoModules twoModules_dicts twoModules_closed []
  exact ⟨⟨result, hsort, hperm⟩, hwritten⟩

/-- Of the two only the namespace above them is written. -/
theorem twoModules_not_written :
    sortTypescriptNamespaces (twoModules.getFlatDefs []).2 = some [[]] ∧
      ¬(([[]] : List FQN).Perm (twoModules.getFlatDefs []).2.keys) ∧
      formattedDefs twoModules [] = some [[]] ∧
      ¬(([[]] : List SourceCode).Perm (allDefs twoModules [])) := by
  refine ⟨by decide, fun hperm => ?_, by decide, fun hperm => ?_⟩
  · exact absurd hperm.length_eq (by decide)
  · exact absurd hperm.length_eq (by decide)

end Urnest.JsonCodec.TypeScript
