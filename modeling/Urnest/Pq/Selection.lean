import Urnest.Lib.Action
import Urnest.Lib.Forest

/-!
# Documents and selections

The nodes of pq.py and the lists they are in, as the objects they are: a node has a list of
its children, and a `Selection` has one of its nodes, and it may be the same list
(`n.children=nodes`). What a node has besides its place in a document is left out, as far as
no function here looks at it.

`HTMLParser` calls the handlers of `Parser` as it goes through a text; a text is what it calls.
-/

namespace Urnest.Pq

open Lib Lib.Action

open Function (update)

/-- The classes of nodes, and the names of tags. -/
inductive Kind where
  | Root
  | Tag (tagName : String)
  | Data
  | Comment
  | Decl
  | PI
  deriving DecidableEq, Repr

/-- Does a node of the class have children? -/
def Kind.hasChildren : Kind → Bool
  | Root | Tag _ => true
  | _ => false

def Kind.isTag : Kind → Bool
  | Tag _ => true
  | _ => false

inductive PyError where
  | AssertionError
  | AttributeError
  | IndexError
  | MemoryError
  | NameError
  | RecursionError
  deriving DecidableEq, Repr

/-- Nodes and lists are numbered as they are made. -/
structure Heap where
  kind : Nat → Kind
  parent : Nat → Option Nat
  /-- which list it is -/
  children : Nat → Nat
  lists : Nat → List Nat
  nodeCount : Nat
  listCount : Nat

def Heap.empty : Heap where
  kind _ := .Data
  parent _ := none
  children _ := 0
  lists _ := []
  nodeCount := 0
  listCount := 0

/-- The nodes that are children of a node. -/
def Heap.childrenOf (s : Heap) (p : Nat) : List Nat :=
  if (s.kind p).hasChildren then s.lists (s.children p) else []

abbrev Method := Action Heap PyError

/-- `for x in xs: f(x)` -/
def forEach (xs : List Nat) (f : Nat → Method Unit) : Method Unit :=
  match xs with
  | [] => pure ()
  | x :: xs => do
    f x
    forEach xs f

/-- `[f(x) for x in xs]` -/
def mapEach (xs : List Nat) (f : Nat → Method Nat) : Method (List Nat) :=
  match xs with
  | [] => pure []
  | x :: xs => do
    let y ← f x
    let ys ← mapEach xs f
    pure (y :: ys)

/-! ## Nodes -/

/-- A list of its own. -/
def newList (xs : List Nat) : Method Nat := fun s =>
  (.ok s.listCount, { s with lists := update s.lists s.listCount xs, listCount := s.listCount + 1 })

def setParent (n : Nat) (parent : Option Nat) : Method Unit :=
  change fun s => { s with parent := update s.parent n parent }

/-- `n.children=l` -/
def setChildren (n l : Nat) : Method Unit :=
  change fun s => { s with children := update s.children n l }

/-- The list of a node's children is changed where it is. -/
def changeChildren (n : Nat) (xs : List Nat) : Method Unit :=
  change fun s => { s with lists := update s.lists (s.children n) xs }

/-- `p.children`, which only some nodes have. -/
def children (p : Nat) : Method (List Nat) := do
  let s ← read
  if (s.kind p).hasChildren then pure (s.lists (s.children p)) else raise .AttributeError

/-- `p.children.append(n)` -/
def append (p n : Nat) : Method Unit := do
  let xs ← children p
  changeChildren p (xs ++ [n])

/-- A node with a list of children. (Where the class has none, nobody has the list.) -/
def Heap.withNode (s : Heap) (kind : Kind) : Heap where
  kind := update s.kind s.nodeCount kind
  parent := update s.parent s.nodeCount none
  children := update s.children s.nodeCount s.listCount
  lists := update s.lists s.listCount []
  nodeCount := s.nodeCount + 1
  listCount := s.listCount + 1

/-- `n.parent=p`, and `p.children.append(n)` -/
def attach (n p : Nat) : Method Unit := do
  setParent n (some p)
  append p n

/-- A new node of a class, and `Node.__init__` -/
def newNode (kind : Kind) (parent : Option Nat) : Method Nat := do
  let n := (← read).nodeCount
  change fun s => s.withNode kind
  match parent with
  | none => pure n
  | some p => do
    attach n p
    pure n

/-- `indexOf` -/
def indexOf (p child : Nat) : Method Nat := do
  let xs ← children p
  match xs.idxOf? child with
  | some i => pure i
  | none => raise .IndexError

/-- `remove` -/
def remove (p n : Nat) : Method Unit := do
  let i ← indexOf p n
  let xs ← children p
  setChildren p (← newList (xs.take i ++ xs.drop (i + 1)))
  setParent n none

/-- `if n.parent: n.parent.remove(n)` -/
def detachNode (n : Nat) : Method Unit := do
  match (← read).parent n with
  | none => pure ()
  | some p => remove p n

/-- `Tag.replace` -/
def replaceChild (p node newNode : Nat) : Method Unit := do
  detachNode newNode
  let i ← indexOf p node
  let xs ← children p
  changeChildren p (xs.set i newNode)
  setParent newNode (some p)

/-- What is done for its effect. -/
def ignore {α : Type} (x : Method α) : Method Unit := do
  let _ ← x
  pure ()

/-- A child cloned below its parent's clone: the child of a tag is not a root. -/
def cloneBelow (clone : Nat → Option Nat → Method Nat) (result c : Nat) : Method Unit := do
  if (← read).kind c = .Root then raise .AssertionError
  else ignore (clone c (some result))

/-- `clone`, within Python's limit on calls. -/
def cloneNode : Nat → Nat → Option Nat → Method Nat
  | 0, _, _ => raise .RecursionError
  | limit + 1, n, newParent => do
    let s ← read
    match s.kind n with
    | .Root =>
      if newParent.isSome then raise .AssertionError
      let result ← newNode .Root none
      let clones ← mapEach (s.childrenOf n) fun c => cloneNode limit c (some result)
      setChildren result (← newList clones)
      pure result
    | .Tag tagName => do
      let result ← newNode (.Tag tagName) newParent
      forEach (s.childrenOf n) (cloneBelow (cloneNode limit) result)
      pure result
    | kind => newNode kind newParent

/-! ## Parsing -/

/-- What `HTMLParser` finds in a text. -/
inductive Event where
  | starttag (tag : String)
  | endtag (tag : String)
  | data
  | comment
  | decl
  | pi
  deriving DecidableEq, Repr

def endOptional : List String :=
  ["body", "colgroup", "dd", "dt", "head", "html", "li", "option", "p", "tbody", "td", "tfoot",
    "th", "thead", "tr"]

def emptyTags : List String :=
  ["area", "base", "basefont", "br", "col", "frame", "hr", "img", "input", "isindex", "link",
    "meta", "param"]

/-- `handle_starttag`, from one `current` to the next. -/
def handle_starttag (tag : String) (current : Option Nat) : Method (Option Nat) := do
  if tag ∈ emptyTags then
    let _ ← newNode (.Tag tag) current
    pure current
  else
    let s ← read
    let current := match current with
      | some c => if tag ∈ endOptional ∧ s.kind c = .Tag tag then s.parent c else some c
      | none => none
    let n ← newNode (.Tag tag) current
    pure (some n)

/-- The tag of a name that `current` is in, if there is one, over so many nodes. (In what a
`Parser` has made, the way up ends at the root.) -/
def openTag (s : Heap) (tag : String) : Nat → Nat → Option Nat
  | 0, _ => none
  | limit + 1, current =>
    match s.kind current with
    | .Root => none
    | kind =>
      if kind = .Tag tag then some current
      else
        match s.parent current with
        | some p => openTag s tag limit p
        | none => none

/-- `handle_endtag` -/
def handle_endtag (tag : String) (current : Option Nat) : Method (Option Nat) := do
  let s ← read
  match current.bind (openTag s tag s.nodeCount) with
  | some c => pure (s.parent c)
  | none => pure current

def handle (current : Option Nat) : Event → Method (Option Nat)
  | .starttag tag => handle_starttag tag current
  | .endtag tag => handle_endtag tag current
  | .data => do
    let _ ← newNode .Data current
    pure current
  | .comment => do
    let _ ← newNode .Comment current
    pure current
  | .decl => do
    let _ ← newNode .Decl current
    pure current
  | .pi => do
    let _ ← newNode .PI current
    pure current

def feed (current : Option Nat) : List Event → Method Unit
  | [] => pure ()
  | e :: es => do
    let next ← handle current e
    feed next es

/-- `detach` -/
def detach (self : Nat) : Method Unit := do
  forEach ((← read).lists self) detachNode

/-- `parse` -/
def parse (text : List Event) : Method Nat := do
  let root ← newNode .Root none
  feed (some root) text
  let result ← newList ((← read).childrenOf root)
  detach result
  pure result

/-! ## Selections -/

/-- The list exists. -/
def have_ (l : Nat) : Method Unit := do
  if (← read).listCount ≤ l then raise .NameError

/-- A list of nodes that one has, wherever they are from. (Nobody has the root that a text is
parsed below.) -/
def select (nodes : List Nat) : Method Nat := do
  let s ← read
  newList (nodes.filter fun n => n < s.nodeCount ∧ s.kind n ≠ .Root)

/-- `html` -/
def html (self nodes : Nat) : Method Unit := do
  forEach ((← read).lists nodes) detachNode
  let s ← read
  match (s.lists self).head? with
  | none => pure ()
  | some n =>
    if (s.kind n).hasChildren then
      setChildren n nodes
      forEach (s.lists nodes) fun c => setParent c (some n)
    else raise .AssertionError

/-- `html` of a string -/
def htmlText (self : Nat) (text : List Event) : Method Unit := do
  let nodes ← parse text
  html self nodes

/-- `text`, where the string is given -/
def text (self : Nat) (s : List Event) : Method Unit := do
  forEach ((← read).lists self) fun n => do
    let ss ← parse s
    let one ← newList [n]
    html one ss

/-- `replace`: only a `Tag` has such a method. -/
def replace (self nodes : Nat) : Method Unit := do
  let s ← read
  match (s.lists nodes).head? with
  | none => raise .IndexError
  | some node =>
    match s.parent node with
    | none => raise .AttributeError
    | some p =>
      if (s.kind p).isTag then
        match (s.lists self).head? with
        | none => raise .IndexError
        | some newNode => replaceChild p node newNode
      else raise .AttributeError

/-- `appendTo`. Where `self` has the very list that is appended to, the loop takes up what it
appends, and goes on until the memory is used up; here it stops after each node's first time. -/
def appendTo (self nodes : Nat) : Method Unit := do
  let s ← read
  match s.lists self, (s.lists nodes).head? with
  | [], _ => pure ()
  | _ :: _, none => raise .IndexError
  | ns, some t => do
    forEach ns fun n => attach n t
    if s.children t = self then raise .MemoryError

/-- `addAfter` and `addBefore`: so far behind the first of the nodes. -/
def addBeside (self nodes offset : Nat) : Method Unit := do
  let s ← read
  match (s.lists nodes).head? with
  | none => raise .IndexError
  | some node =>
    match s.parent node with
    | none => raise .AttributeError
    | some p =>
      let i ← indexOf p node
      let ns := s.lists self
      forEach ns fun n => setParent n (some p)
      let xs ← children p
      changeChildren p (xs.take (i + offset) ++ ns ++ xs.drop (i + offset))

def addAfter (self nodes : Nat) : Method Unit := addBeside self nodes 1

def addBefore (self nodes : Nat) : Method Unit := addBeside self nodes 0

/-- `empty` -/
def empty (self : Nat) : Method Unit := do
  forEach ((← read).lists self) fun n => do
    let s ← read
    if (s.kind n).isTag then
      forEach (s.childrenOf n) fun c => setParent c none
      setChildren n (← newList [])

/-- `clone` -/
def clone (limit self : Nat) : Method Nat := do
  let clones ← mapEach ((← read).lists self) fun n => cloneNode limit n none
  newList clones

/-! ## Operations -/

inductive Op where
  | parse (text : List Event)
  | select (nodes : List Nat)
  | html (self nodes : Nat)
  | htmlText (self : Nat) (text : List Event)
  | text (self : Nat) (s : List Event)
  | replace (self nodes : Nat)
  | appendTo (self nodes : Nat)
  | addAfter (self nodes : Nat)
  | addBefore (self nodes : Nat)
  | detach (self : Nat)
  | empty (self : Nat)
  | clone (limit self : Nat)

/-- One operation, of selections that there are. -/
def step : Op → Method Unit
  | .parse text => ignore (parse text)
  | .select nodes => ignore (select nodes)
  | .html self nodes => do have_ self; have_ nodes; html self nodes
  | .htmlText self text => do have_ self; htmlText self text
  | .text self s => do have_ self; text self s
  | .replace self nodes => do have_ self; have_ nodes; replace self nodes
  | .appendTo self nodes => do have_ self; have_ nodes; appendTo self nodes
  | .addAfter self nodes => do have_ self; have_ nodes; addAfter self nodes
  | .addBefore self nodes => do have_ self; have_ nodes; addBefore self nodes
  | .detach self => do have_ self; detach self
  | .empty self => do have_ self; empty self
  | .clone limit self => do have_ self; ignore (clone limit self)

/-- The documents are trees. -/
def Heap.Trees (s : Heap) : Prop := Forest s.parent s.childrenOf

end Urnest.Pq
