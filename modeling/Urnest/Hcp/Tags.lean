import Mathlib.Data.List.Infix
import Mathlib.Order.Lattice
import Mathlib.Data.List.Lex
import Mathlib.Data.Char
import Urnest.Lib.Throwing

/-!
# Tags

A `Namespace` of the tag lookup service is a tree: a namespace has symbols, with where they
were found, and child namespaces. `addSymbol` grows it, and `lookup` searches it from a scope
outwards, by recursion into the children and, where that throws, from the namespace itself.

What a tree knows is what was added to it (`find?_grown`), and a lookup finds what the
longest prefix of the scope has (`lookup_eq_ok`). The two maps of a namespace are sorted
lists here; where a key is in them matters to `completions` only.
-/

namespace Urnest.Hcp.Tags

/-- `NamespaceName`, `UnqualifiedSymbol` -/
abbrev Name := List Char

structure Location where
  directory : List Char
  file : List Char
  line : Nat
  deriving DecidableEq, Repr

abbrev Header := List Char

structure FoundIn where
  locations : List Location
  headers : List Header
  deriving DecidableEq, Repr

structure ScopedName where
  scope : List Name
  name : Name
  deriving DecidableEq, Repr

/-! ## Maps -/

section Map

variable {α : Type}

/-- A key that is not there goes before the first one above it. -/
def insertInto (k : Name) (a : α) : List (Name × α) → List (Name × α)
  | [] => [(k, a)]
  | x :: xs => if k < x.1 then (k, a) :: x :: xs else x :: insertInto k a xs

/-- The value of a key, which is `fresh` if it is not there, is changed. -/
def alter (k : Name) (fresh : α) (f : α → α) (xs : List (Name × α)) : List (Name × α) :=
  if (xs.lookup k).isSome then xs.map fun x => if x.1 = k then (k, f x.2) else x
  else insertInto k (f fresh) xs

theorem lookup_cons_eq (k k' : Name) (a : α) (xs : List (Name × α)) :
    ((k', a) :: xs).lookup k = if k = k' then some a else xs.lookup k := by
  by_cases h : k = k'
  · simp [h]
  · rw [if_neg h, List.lookup_cons, beq_false_of_ne h]

theorem lookup_insertInto {k : Name} (k' : Name) (a : α) {xs : List (Name × α)}
    (h : xs.lookup k = none) :
    (insertInto k a xs).lookup k' = if k' = k then some a else xs.lookup k' := by
  induction xs with
  | nil => rw [insertInto, lookup_cons_eq]
  | cons x xs ih =>
    rw [lookup_cons_eq] at h
    obtain ⟨hx, hxs⟩ : k ≠ x.1 ∧ xs.lookup k = none := by
      split_ifs at h with hx
      exact ⟨hx, h⟩
    by_cases hlt : k < x.1
    · rw [insertInto, if_pos hlt, lookup_cons_eq]
    · rw [insertInto, if_neg hlt, lookup_cons_eq, lookup_cons_eq, ih hxs]
      by_cases hk : k' = k
      · rw [if_pos hk, if_pos hk, if_neg (hk ▸ hx)]
      · rw [if_neg hk, if_neg hk]

theorem lookup_map_if (k k' : Name) (f : α → α) (xs : List (Name × α)) :
    (xs.map fun x => if x.1 = k then (k, f x.2) else x).lookup k' =
      if k' = k then (xs.lookup k).map f else xs.lookup k' := by
  induction xs with
  | nil => simp
  | cons x xs ih =>
    rw [List.map_cons, lookup_cons_eq, lookup_cons_eq]
    by_cases hx : x.1 = k
    · rw [if_pos hx, lookup_cons_eq, ih, if_pos hx.symm, hx]
      by_cases hk : k' = k
      · rw [if_pos hk, if_pos hk, Option.map_some]
      · rw [if_neg hk, if_neg hk, if_neg hk, if_neg hk]
    · rw [if_neg hx, lookup_cons_eq, ih, if_neg (Ne.symm hx)]
      by_cases hk : k' = k
      · rw [if_pos hk, if_pos hk, hk, if_neg (Ne.symm hx)]
      · rw [if_neg hk, if_neg hk]

theorem lookup_alter (k k' : Name) (fresh : α) (f : α → α) (xs : List (Name × α)) :
    (alter k fresh f xs).lookup k' =
      if k' = k then some (f ((xs.lookup k).getD fresh)) else xs.lookup k' := by
  rw [alter]
  by_cases hsome : (xs.lookup k).isSome
  · obtain ⟨a, ha⟩ := Option.isSome_iff_exists.mp hsome
    rw [if_pos hsome, lookup_map_if, ha, Option.map_some, Option.getD_some]
  · have hnone := Option.not_isSome_iff_eq_none.mp hsome
    rw [if_neg hsome, lookup_insertInto k' _ hnone, hnone, Option.getD_none]

theorem exists_lookup {x : Name × α} {xs : List (Name × α)} (h : x ∈ xs) :
    ∃ a, xs.lookup x.1 = some a := by
  induction xs with
  | nil => cases h
  | cons y ys ih =>
    rw [lookup_cons_eq]
    split_ifs with hxy
    · exact ⟨y.2, rfl⟩
    · rcases List.mem_cons.mp h with rfl | h
      · exact absurd rfl hxy
      · exact ih h

end Map

/-! ## Scopes -/

section Scope

variable {α : Type}

/-- What the longest prefix of a scope has that has anything -/
def innermost? (f : List Name → Option α) : List Name → Option α
  | [] => f []
  | name :: scope => (innermost? (fun p => f (name :: p)) scope).or (f [])

theorem innermost?_eq_none {f : List Name → Option α} {scope : List Name} :
    innermost? f scope = none ↔ ∀ p, p <+: scope → f p = none := by
  induction scope generalizing f with
  | nil => simp [innermost?]
  | cons name scope ih =>
    rw [innermost?, Option.or_eq_none_iff, ih]
    constructor
    · rintro ⟨hinner, houter⟩ p hp
      cases p with
      | nil => exact houter
      | cons name' p =>
        obtain ⟨rfl, hp'⟩ := List.cons_prefix_cons.mp hp
        exact hinner p hp'
    · intro h
      exact ⟨fun p hp => h _ (List.cons_prefix_cons.mpr ⟨rfl, hp⟩), h [] List.nil_prefix⟩

theorem innermost?_eq_some {f : List Name → Option α} {scope : List Name} {a : α} :
    innermost? f scope = some a ↔
      ∃ p, p <+: scope ∧ f p = some a ∧ ∀ q, q <+: scope → p.length < q.length → f q = none := by
  induction scope generalizing f with
  | nil =>
    constructor
    · intro h
      exact ⟨[], List.prefix_rfl, h, fun q hq hlt => by simp [List.prefix_nil.mp hq] at hlt⟩
    · rintro ⟨p, hp, h, -⟩
      rwa [List.prefix_nil.mp hp] at h
  | cons name scope ih =>
    rw [innermost?, Option.or_eq_some_iff, ih, innermost?_eq_none]
    constructor
    · rintro (⟨p, hp, h, hlong⟩ | ⟨hinner, h⟩)
      · refine ⟨name :: p, List.cons_prefix_cons.mpr ⟨rfl, hp⟩, h, fun q hq hlt => ?_⟩
        cases q with
        | nil => simp at hlt
        | cons name' q =>
          obtain ⟨rfl, hq'⟩ := List.cons_prefix_cons.mp hq
          exact hlong q hq' (by simpa using hlt)
      · refine ⟨[], List.nil_prefix, h, fun q hq hlt => ?_⟩
        cases q with
        | nil => simp at hlt
        | cons name' q =>
          obtain ⟨rfl, hq'⟩ := List.cons_prefix_cons.mp hq
          exact hinner q hq'
    · rintro ⟨p, hp, h, hlong⟩
      cases p with
      | nil =>
        refine .inr ⟨fun q hq => ?_, h⟩
        exact hlong _ (List.cons_prefix_cons.mpr ⟨rfl, hq⟩) (by simp)
      | cons name' p =>
        obtain ⟨rfl, hp'⟩ := List.cons_prefix_cons.mp hp
        refine .inl ⟨p, hp', h, fun q hq hlt => ?_⟩
        exact hlong _ (List.cons_prefix_cons.mpr ⟨rfl, hq⟩) (by simpa using hlt)

end Scope

/-! ## Namespaces -/

inductive Namespace where
  | mk (children : List (Name × Namespace)) (symbols : List (Name × FoundIn))

inductive Unknown where
  | unknownNamespace
  | unknownSymbol
  deriving DecidableEq

/-- An `UnknownNamespace` or an `UnknownSymbol`, with its cause and the context, the
innermost first. -/
structure Failure where
  unknown : Unknown
  cause : List Char
  context : List (List Char)
  deriving DecidableEq

abbrev Result := Except Failure

/-- `xju::format::join` -/
def join (separator : String) (names : List Name) : List Char :=
  separator.toList.intercalate names

/-- `catch (xju::Exception& e) { e.addContext(s); throw; }` -/
def withContext {α : Type} (s : List Char) : Result α → Result α
  | .ok a => .ok a
  | .error e => .error { e with context := e.context ++ [s] }

namespace Namespace

def empty : Namespace := mk [] []

def children : Namespace → List (Name × Namespace)
  | mk children _ => children

def symbols : Namespace → List (Name × FoundIn)
  | mk _ symbols => symbols

/-- `findNamespace`, which adds children where necessary: `f` changes what it refers to. -/
def atNamespace (f : Namespace → Namespace) : List Name → Namespace → Namespace
  | [], n => f n
  | name :: path, n => mk (alter name empty (atNamespace f path) n.children) n.symbols

def addSymbol (namespace_ : List Name) (symbol : Name) (locations : List Location)
    (headers : List Header) (n : Namespace) : Namespace :=
  n.atNamespace (fun n => mk n.children (alter symbol ⟨[], []⟩
    (fun x => ⟨x.locations ++ locations, x.headers ++ headers⟩) n.symbols)) namespace_

/-- The `findNamespace` that is `const` -/
def findNamespace : List Name → Namespace → Result Namespace
  | [], n => .ok n
  | name :: path, n => withContext ("find namespace ".toList ++ join "::" (name :: path))
    (match n.children.lookup name with
    | none => .error ⟨.unknownNamespace, "unknown namespace ".toList ++ name ++
        ", not one of ".toList ++ join "," (n.children.map Prod.fst), []⟩
    | some child => findNamespace path child)

def findSymbol (symbol : Name) (n : Namespace) : Result FoundIn :=
  withContext ("find symbol ".toList ++ symbol ++ " amongst ".toList ++
      join "," (n.symbols.map Prod.fst))
    (match n.symbols.lookup symbol with
    | none => .error ⟨.unknownSymbol, "unknown symbol".toList, []⟩
    | some found => .ok found)

def lookup_ (namespace_ : List Name) (symbol : Name) : List Name → Namespace → Result FoundIn
  | [], n => do findSymbol symbol (← findNamespace namespace_ n)
  | name :: fromScope, n =>
    match n.children.lookup name with
    | none => do findSymbol symbol (← findNamespace namespace_ n)
    | some child =>
      match lookup_ namespace_ symbol fromScope child with
      | .ok found => .ok found
      | .error _ => do findSymbol symbol (← findNamespace namespace_ n)

def lookup (fromScope namespace_ : List Name) (symbol : Name) (n : Namespace) : Result FoundIn :=
  withContext ("lookup locations of ".toList ++ join "::" namespace_ ++ "::".toList ++ symbol ++
      " when it is referenced from ".toList ++ join "::" fromScope ++ "::".toList)
    (lookup_ namespace_ symbol fromScope n)

/-- From `lower_bound` on, while `startsWith` -/
def startingWith {α : Type} (symbol : Name) (xs : List (Name × α)) : List (Name × α) :=
  (xs.dropWhile fun x => x.1 < symbol).takeWhile fun x => symbol <+: x.1

/-- A completion that is a symbol -/
def symbolCompletion {α : Type} (x : Name × α) : ScopedName := ⟨[], x.1⟩

/-- and one that is a namespace -/
def namespaceCompletion {α : Type} (x : Name × α) : ScopedName := ⟨[x.1], []⟩

/-- The `completions` of a symbol in the namespace itself -/
def completionsOf (symbol : Name) (n : Namespace) : List ScopedName :=
  let result := (startingWith symbol n.symbols).map symbolCompletion ++
    (startingWith symbol n.children).map namespaceCompletion
  if result.length = 0 ∧ 1 < symbol.length then
    (n.symbols.filter fun x => symbol <:+: x.1).map symbolCompletion ++
      (n.children.filter fun x => symbol <:+: x.1).map namespaceCompletion
  else result

def completions_ (symbol : Name) : List Name → Namespace → List ScopedName
  | [], n => completionsOf symbol n
  | name :: namespace_, n =>
    match n.children.lookup name with
    | none => []
    | some child => (completions_ symbol namespace_ child).map fun x => ⟨name :: x.scope, x.name⟩

/-- What is offered from a scope -/
def completionsFrom (namespace_ : List Name) (symbol : Name) (n : Namespace) (scope : List Name) :
    List ScopedName :=
  match findNamespace scope n with
  | .ok inner => completions_ symbol namespace_ inner
  | .error _ => []

def completions (fromScope namespace_ : List Name) (symbol : Name) (n : Namespace) :
    List ScopedName :=
  ((List.range fromScope.length).reverse.flatMap fun i =>
    completionsFrom namespace_ symbol n (fromScope.take (i + 1))) ++
  completions_ symbol namespace_ n

/-! ## What a tree knows -/

theorem withContext_eq_ok {α : Type} {s : List Char} {r : Result α} {a : α} :
    withContext s r = .ok a ↔ r = .ok a := by
  cases r with
  | ok b => exact Iff.rfl
  | error e => exact iff_of_false (fun h => nomatch h) (fun h => nomatch h)

/-- What is found at a path -/
def find? (path : List Name) (symbol : Name) (n : Namespace) : Option FoundIn :=
  match path with
  | [] => n.symbols.lookup symbol
  | name :: path =>
    match n.children.lookup name with
    | none => none
    | some child => find? path symbol child

theorem findSymbol_eq_ok {symbol : Name} {n : Namespace} {found : FoundIn} :
    findSymbol symbol n = .ok found ↔ n.symbols.lookup symbol = some found := by
  rw [findSymbol, withContext_eq_ok]
  cases n.symbols.lookup symbol with
  | none => exact iff_of_false (fun h => nomatch h) (fun h => nomatch h)
  | some x => exact ⟨fun h => by cases h; rfl, fun h => by cases h; rfl⟩

theorem findNamespace_eq_ok {name : Name} {path : List Name} {n inner : Namespace} :
    findNamespace (name :: path) n = .ok inner ↔
      ∃ child, n.children.lookup name = some child ∧ findNamespace path child = .ok inner := by
  rw [findNamespace, withContext_eq_ok]
  cases n.children.lookup name with
  | none => exact iff_of_false (fun h => nomatch h) (by rintro ⟨_, h, _⟩; cases h)
  | some child =>
    exact ⟨fun h => ⟨child, rfl, h⟩, by rintro ⟨_, h, h'⟩; cases h; exact h'⟩

/-- Without a scope the path is followed from the namespace itself. -/
theorem findHere_eq_ok {path : List Name} {symbol : Name} {n : Namespace} {found : FoundIn} :
    (findNamespace path n >>= findSymbol symbol) = .ok found ↔
      find? path symbol n = some found := by
  induction path generalizing n with
  | nil => exact findSymbol_eq_ok
  | cons name path ih =>
    rw [Lib.bind_eq_ok, find?]
    simp only [findNamespace_eq_ok]
    cases hchild : n.children.lookup name with
    | none => exact iff_of_false (by rintro ⟨_, ⟨_, h, _⟩, _⟩; cases h) (fun h => nomatch h)
    | some child =>
      rw [← ih, Lib.bind_eq_ok]
      constructor
      · rintro ⟨inner, ⟨_, h, hinner⟩, hfound⟩
        cases h
        exact ⟨inner, hinner, hfound⟩
      · rintro ⟨inner, hinner, hfound⟩
        exact ⟨inner, ⟨child, rfl, hinner⟩, hfound⟩

theorem toOption_findHere (path : List Name) (symbol : Name) (n : Namespace) :
    (findNamespace path n >>= findSymbol symbol).toOption = find? path symbol n := by
  apply Option.ext
  intro found
  rw [← findHere_eq_ok]
  cases findNamespace path n >>= findSymbol symbol with
  | ok x => exact ⟨fun h => by cases h; rfl, fun h => by cases h; rfl⟩
  | error e => exact iff_of_false (fun h => nomatch h) (fun h => nomatch h)

@[simp] theorem find?_empty (path : List Name) (symbol : Name) : find? path symbol empty = none := by
  cases path with
  | nil => rfl
  | cons name path => rfl

theorem find?_addSymbol (path path' : List Name) (symbol symbol' : Name)
    (locations : List Location) (headers : List Header) (n : Namespace) :
    find? path' symbol' (n.addSymbol path symbol locations headers) =
      if path' = path ∧ symbol' = symbol then
        let x := (find? path symbol n).getD ⟨[], []⟩
        some ⟨x.locations ++ locations, x.headers ++ headers⟩
      else find? path' symbol' n := by
  induction path generalizing path' n with
  | nil =>
    cases path' with
    | nil =>
      simp only [addSymbol, atNamespace, find?, symbols, lookup_alter, true_and]
    | cons name' path' => simp [addSymbol, atNamespace, find?, children]
  | cons name path ih =>
    cases path' with
    | nil => simp [addSymbol, atNamespace, find?, symbols]
    | cons name' path' =>
      have hadd : (n.addSymbol (name :: path) symbol locations headers).children =
          alter name empty (fun child => child.addSymbol path symbol locations headers)
            n.children := rfl
      rw [find?, hadd, lookup_alter]
      by_cases hname : name' = name
      · rw [if_pos hname]
        simp only [ih, hname, find?, List.cons.injEq, true_and]
        cases n.children.lookup name with
        | none => simp
        | some child => rfl
      · rw [if_neg hname, if_neg (fun h => hname (List.cons.inj h.1).1), find?]

end Namespace

/-! ## Histories -/

/-- A call of `addSymbol` -/
structure Added where
  namespace_ : List Name
  symbol : Name
  locations : List Location
  headers : List Header

/-- The root after the calls -/
def grown (calls : List Added) : Namespace :=
  calls.foldl (fun n x => n.addSymbol x.namespace_ x.symbol x.locations x.headers) .empty

/-- Those that are for the symbol at the path -/
def recorded (path : List Name) (symbol : Name) (calls : List Added) : List Added :=
  calls.filter fun x => path = x.namespace_ ∧ symbol = x.symbol

/-- All locations and headers of the calls, in their order -/
def gathered (calls : List Added) : FoundIn :=
  ⟨calls.flatMap Added.locations, calls.flatMap Added.headers⟩

theorem recorded_concat (path : List Name) (symbol : Name) (calls : List Added) (x : Added) :
    recorded path symbol (calls ++ [x]) =
      if path = x.namespace_ ∧ symbol = x.symbol then recorded path symbol calls ++ [x]
      else recorded path symbol calls := by
  rw [recorded, recorded, List.filter_append]
  split_ifs with hx
  · rw [List.filter_cons_of_pos (by simpa using hx), List.filter_nil]
  · rw [List.filter_cons_of_neg (by simpa using hx), List.filter_nil, List.append_nil]

namespace Namespace

theorem find?_grown (path : List Name) (symbol : Name) (calls : List Added) :
    find? path symbol (grown calls) =
      if recorded path symbol calls = [] then none
      else some (gathered (recorded path symbol calls)) := by
  induction calls using List.reverseRecOn with
  | nil => rw [grown, List.foldl_nil, find?_empty]; rfl
  | append_singleton calls x ih =>
    have hgrown : grown (calls ++ [x]) =
        (grown calls).addSymbol x.namespace_ x.symbol x.locations x.headers := by
      rw [grown, List.foldl_append]
      rfl
    rw [hgrown, find?_addSymbol, recorded_concat]
    by_cases hx : path = x.namespace_ ∧ symbol = x.symbol
    · have hbefore : (find? path symbol (grown calls)).getD ⟨[], []⟩ =
          gathered (recorded path symbol calls) := by
        rw [ih]
        split_ifs with hnone
        · rw [hnone]
          rfl
        · rfl
      rw [if_pos hx, if_pos hx, if_neg (by simp), ← hx.1, ← hx.2, hbefore]
      simp [gathered]
    · rw [if_neg hx, if_neg hx, ih]

theorem find?_grown_eq_none {path : List Name} {symbol : Name} {calls : List Added} :
    find? path symbol (grown calls) = none ↔ recorded path symbol calls = [] := by
  rw [find?_grown]
  split_ifs with h
  · exact iff_of_true rfl h
  · exact iff_of_false (fun h => nomatch h) h

/-! ## Lookup -/

theorem lookup_cons (namespace_ : List Name) (symbol name : Name) (fromScope : List Name)
    (n : Namespace) :
    (lookup_ namespace_ symbol (name :: fromScope) n).toOption =
      ((n.children.lookup name).bind fun child =>
        (lookup_ namespace_ symbol fromScope child).toOption).or (find? namespace_ symbol n) := by
  have hhere : (findNamespace namespace_ n >>= findSymbol symbol).toOption =
      find? namespace_ symbol n := toOption_findHere ..
  rw [lookup_]
  cases n.children.lookup name with
  | none => exact hhere
  | some child =>
    rw [Option.bind_some]
    cases hinner : lookup_ namespace_ symbol fromScope child with
    | ok found => simp only [hinner]; rfl
    | error e => simp only [hinner]; exact hhere

theorem toOption_lookup_ (namespace_ : List Name) (symbol : Name) (fromScope : List Name)
    (n : Namespace) :
    (lookup_ namespace_ symbol fromScope n).toOption =
      innermost? (fun p => find? (p ++ namespace_) symbol n) fromScope := by
  induction fromScope generalizing n with
  | nil => exact toOption_findHere ..
  | cons name fromScope ih =>
    rw [lookup_cons, innermost?]
    congr 1
    simp only [List.cons_append, find?]
    cases n.children.lookup name with
    | none => exact (innermost?_eq_none.mpr fun _ _ => rfl).symm
    | some child => exact ih child

end Namespace

/-- The prefix of the scope that a lookup stops at -/
structure Innermost (calls : List Added) (fromScope namespace_ : List Name) (symbol : Name)
    (p : List Name) : Prop where
  within : p <+: fromScope
  added : recorded (p ++ namespace_) symbol calls ≠ []
  longest : ∀ q, q <+: fromScope → p.length < q.length →
    recorded (q ++ namespace_) symbol calls = []

namespace Namespace

theorem lookup_eq_ok {calls : List Added} {fromScope namespace_ : List Name} {symbol : Name}
    {found : FoundIn} :
    (grown calls).lookup fromScope namespace_ symbol = .ok found ↔
      ∃ p, Innermost calls fromScope namespace_ symbol p ∧
        found = gathered (recorded (p ++ namespace_) symbol calls) := by
  have hoption : lookup_ namespace_ symbol fromScope (grown calls) = .ok found ↔
      (lookup_ namespace_ symbol fromScope (grown calls)).toOption = some found := by
    cases lookup_ namespace_ symbol fromScope (grown calls) with
    | ok x => exact ⟨fun h => by cases h; rfl, fun h => by cases h; rfl⟩
    | error e => exact iff_of_false (fun h => nomatch h) (fun h => nomatch h)
  rw [lookup, withContext_eq_ok, hoption, toOption_lookup_, innermost?_eq_some]
  simp only [find?_grown_eq_none]
  constructor
  · rintro ⟨p, hp, hfound, hlong⟩
    rw [find?_grown] at hfound
    split_ifs at hfound with hnone
    cases hfound
    exact ⟨p, ⟨hp, hnone, hlong⟩, rfl⟩
  · rintro ⟨p, ⟨hp, hadded, hlong⟩, rfl⟩
    exact ⟨p, hp, by rw [find?_grown, if_neg hadded], hlong⟩

theorem lookup_eq_error {calls : List Added} {fromScope namespace_ : List Name} {symbol : Name} :
    (∃ e, (grown calls).lookup fromScope namespace_ symbol = .error e) ↔
      ∀ p, p <+: fromScope → recorded (p ++ namespace_) symbol calls = [] := by
  have hoption : (∃ e, (grown calls).lookup fromScope namespace_ symbol = .error e) ↔
      (lookup_ namespace_ symbol fromScope (grown calls)).toOption = none := by
    rw [lookup]
    cases lookup_ namespace_ symbol fromScope (grown calls) with
    | ok x => exact iff_of_false (by rintro ⟨_, h⟩; cases h) (fun h => nomatch h)
    | error e => exact iff_of_true ⟨_, rfl⟩ rfl
  rw [hoption, toOption_lookup_, innermost?_eq_none]
  simp only [find?_grown_eq_none]

/-! ## Completions -/

theorem mem_of_mem_startingWith {α : Type} {symbol : Name} {x : Name × α} {xs : List (Name × α)}
    (h : x ∈ startingWith symbol xs) : x ∈ xs :=
  (List.dropWhile_sublist _).mem ((List.takeWhile_sublist _).mem h)

/-- A completion with a name is a symbol of the namespace. -/
theorem find?_of_mem_completionsOf {symbol : Name} {n : Namespace} {x : ScopedName}
    (h : x ∈ completionsOf symbol n) (hname : x.name ≠ []) :
    x.scope = [] ∧ ∃ found, find? [] x.name n = some found := by
  have hsymbols : ∀ y ∈ n.symbols, x = symbolCompletion y →
      x.scope = [] ∧ ∃ found, find? [] x.name n = some found := by
    rintro y hy rfl
    exact ⟨rfl, exists_lookup hy⟩
  rw [completionsOf] at h
  split_ifs at h
  · rcases List.mem_append.mp h with h | h
    · obtain ⟨y, hy, rfl⟩ := List.mem_map.mp h
      exact hsymbols y (List.mem_of_mem_filter hy) rfl
    · obtain ⟨y, -, rfl⟩ := List.mem_map.mp h
      exact absurd rfl hname
  · rcases List.mem_append.mp h with h | h
    · obtain ⟨y, hy, rfl⟩ := List.mem_map.mp h
      exact hsymbols y (mem_of_mem_startingWith hy) rfl
    · obtain ⟨y, -, rfl⟩ := List.mem_map.mp h
      exact absurd rfl hname

theorem find?_of_mem_completions_ {symbol : Name} {namespace_ : List Name} {n : Namespace}
    {x : ScopedName} (h : x ∈ completions_ symbol namespace_ n) (hname : x.name ≠ []) :
    ∃ found, find? x.scope x.name n = some found := by
  induction namespace_ generalizing n x with
  | nil =>
    obtain ⟨hscope, hfound⟩ := find?_of_mem_completionsOf h hname
    rwa [hscope]
  | cons name namespace_ ih =>
    rw [completions_] at h
    cases hchild : n.children.lookup name with
    | none => simp [hchild] at h
    | some child =>
      rw [hchild] at h
      obtain ⟨y, hy, rfl⟩ := List.mem_map.mp h
      obtain ⟨found, hfound⟩ := ih hy hname
      refine ⟨found, ?_⟩
      simp only [find?, hchild, hfound]

/-- What is found below an inner namespace is found by the whole path. -/
theorem find?_append {scope path : List Name} {symbol : Name} {n inner : Namespace}
    (h : findNamespace scope n = .ok inner) :
    find? (scope ++ path) symbol n = find? path symbol inner := by
  induction scope generalizing n with
  | nil => cases h; rfl
  | cons name scope ih =>
    obtain ⟨child, hchild, h⟩ := findNamespace_eq_ok.mp h
    rw [List.cons_append, find?, hchild]
    exact ih h

theorem exists_scope_of_mem_completions {fromScope namespace_ : List Name} {symbol : Name}
    {n : Namespace} {x : ScopedName} (h : x ∈ n.completions fromScope namespace_ symbol)
    (hname : x.name ≠ []) :
    ∃ p, p <+: fromScope ∧ ∃ found, find? (p ++ x.scope) x.name n = some found := by
  rcases List.mem_append.mp h with h | h
  · obtain ⟨i, -, h⟩ := List.mem_flatMap.mp h
    rw [completionsFrom] at h
    cases hinner : findNamespace (fromScope.take (i + 1)) n with
    | error e => simp [hinner] at h
    | ok inner =>
      rw [hinner] at h
      obtain ⟨found, hfound⟩ := find?_of_mem_completions_ h hname
      exact ⟨_, List.take_prefix .., found, (find?_append hinner).trans hfound⟩
  · exact ⟨[], List.nil_prefix, find?_of_mem_completions_ h hname⟩

/-- Where some prefix of the scope has a symbol, a lookup finds one. -/
theorem exists_lookup_eq_ok {calls : List Added} {fromScope namespace_ p : List Name}
    {symbol : Name} (hp : p <+: fromScope) (h : recorded (p ++ namespace_) symbol calls ≠ []) :
    ∃ found, (grown calls).lookup fromScope namespace_ symbol = .ok found := by
  cases hlookup : (grown calls).lookup fromScope namespace_ symbol with
  | ok found => exact ⟨found, rfl⟩
  | error e => exact absurd (lookup_eq_error.mp ⟨e, hlookup⟩ p hp) h

/-- A lookup finds all that was added for the symbol at the longest prefix of the scope that
has it, and throws if none has; and the symbols that are offered are found. -/
theorem lookup_scoping (calls : List Added) (fromScope namespace_ : List Name) (symbol : Name) :
    (∀ found, (grown calls).lookup fromScope namespace_ symbol = .ok found ↔
      ∃ p, Innermost calls fromScope namespace_ symbol p ∧
        found = gathered (recorded (p ++ namespace_) symbol calls)) ∧
    ((∃ e, (grown calls).lookup fromScope namespace_ symbol = .error e) ↔
      ∀ p, p <+: fromScope → recorded (p ++ namespace_) symbol calls = []) ∧
    ∀ x ∈ (grown calls).completions fromScope namespace_ symbol, x.name ≠ [] →
      ∃ found, (grown calls).lookup fromScope x.scope x.name = .ok found := by
  refine ⟨fun found => lookup_eq_ok, lookup_eq_error, fun x hx hname => ?_⟩
  obtain ⟨p, hp, found, hfound⟩ := exists_scope_of_mem_completions hx hname
  refine exists_lookup_eq_ok hp fun hnone => ?_
  rw [find?_grown_eq_none.mpr hnone] at hfound
  cases hfound

end Namespace

end Urnest.Hcp.Tags
