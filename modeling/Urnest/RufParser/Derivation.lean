import Urnest.RufParser.Transparent

/-!
# The derivation

What the grammar says, read as ordered choice, with neither outcomes nor cache: how much of a
text a parser matches, and the nodes of the tagged parsers that succeeded on the way, outside of
look-ahead (`derive`). Of those nodes `lost` counts the ones that the AST will not have: of a
tagged parser that `backref` or `backrefs` goes straight to, and of what is between the brackets
of a balanced pair.

A parser `Reads` a derivation if what it returns has matched the same, and gives an AST that has
all of the nodes but the lost ones (`Kept`).
-/

namespace Urnest.RufParser

open Lib

/-! ## Sums and alternatives -/

/-- `Operator` -/
inductive Operator where
  | none
  | and (firstTerm : Ref) (otherTerms : List Ref)
  | or (firstTerm : Ref) (otherTerms : List Ref)

/-- The `Ref` of mod.rs: where a parser is, and its terms if it was made by `+` or `|` -/
structure Operand where
  x : Ref
  op : Operator

/-- `new_and`, `new_or` and `new`, of a parser that is then at `x` -/
def Parser.operand (p : Parser) (x : Ref) : Operand where
  x := x
  op := match p with
    | .and first others => .and first others
    | .or first others => .or first others
    | _ => .none

namespace Operand

/-- The parser that `a + b` makes -/
def add (a b : Operand) : Parser :=
  match a.op, b.op with
  | .and first others, .and first₂ others₂ => .and first (others ++ [first₂] ++ others₂)
  | .and first others, _ => .and first (others ++ [b.x])
  | _, .and first₂ others₂ => .and a.x ([first₂] ++ others₂)
  | _, _ => .and a.x [b.x]

/-- The parser that `a | b` makes -/
def bitor (a b : Operand) : Parser :=
  match a.op, b.op with
  | .or first others, .or first₂ others₂ => .or first (others ++ [first₂] ++ others₂)
  | .or first others, _ => .or first (others ++ [b.x])
  | _, .or first₂ others₂ => .or a.x ([first₂] ++ others₂)
  | _, _ => .or a.x [b.x]

theorem add_assoc (a b c : Operand) (x y : Ref) :
    ((a.add b).operand x).add c = a.add ((b.add c).operand y) := by
  obtain ⟨ax, _ | _ | _⟩ := a <;> obtain ⟨bx, _ | _ | _⟩ := b <;> obtain ⟨cx, _ | _ | _⟩ := c <;>
    simp [add, Parser.operand]

theorem bitor_assoc (a b c : Operand) (x y : Ref) :
    ((a.bitor b).operand x).bitor c = a.bitor ((b.bitor c).operand y) := by
  obtain ⟨ax, _ | _ | _⟩ := a <;> obtain ⟨bx, _ | _ | _⟩ := b <;> obtain ⟨cx, _ | _ | _⟩ := c <;>
    simp [bitor, Parser.operand]

end Operand

/-! ## Counting nodes -/

mutual

def nodeCount : AST → Nat
  | .mk _ children => forestCount children + 1

def forestCount : List AST → Nat
  | [] => 0
  | node :: nodes => nodeCount node + forestCount nodes

end

theorem forestCount_append (xs ys : List AST) :
    forestCount (xs ++ ys) = forestCount xs + forestCount ys := by
  induction xs with
  | nil => exact (Nat.zero_add _).symm
  | cons x xs ih => rw [List.cons_append, forestCount, ih, forestCount, Nat.add_assoc]

/-! ## The derivation -/

structure Derived where
  /-- `none` if the parser fails; then there are no nodes -/
  matched : Option Str
  nodes : List AST
  lost : Nat

/-- How a parser is read -/
abbrev Read := Ref → Str → List BackReffable → Result Derived

def Derived.failed : Derived := ⟨none, [], 0⟩

/-- A parser that has no parts -/
def deriveLeaf (outcome : Result Outcome) : Result Derived := do
  return ⟨(← outcome).matched?, [], 0⟩

/-- What `backref` and `backrefs` make of the parser that they go to -/
def Derived.behind (program : Program) (parser : Ref) (d : Derived) : Derived :=
  if (program parser).tag.isSome ∧ d.matched.isSome then { d with lost := d.lost + 1 } else d

section

variable (read : Read) (backrefs : List BackReffable)

/-- Each term behind the one before -/
def deriveAnd (text : Str) : List Ref → Str → List AST → Nat → Result Derived
  | [], rest, nodes, lost => do return ⟨some (← text.upTo rest), nodes, lost⟩
  | term :: terms, rest, nodes, lost => do
    let d ← read term rest backrefs
    match d.matched with
    | none => return .failed
    | some matched => deriveAnd text terms (← rest.after matched) (nodes ++ d.nodes) (lost + d.lost)

/-- The first term that succeeds -/
def deriveOr (text : Str) : List Ref → Result Derived
  | [] => return .failed
  | term :: terms => do
    let d ← read term text backrefs
    match d.matched with
    | some _ => return d
    | none => deriveOr text terms

def deriveTagged (tag : String) (content : Ref) (text : Str) : Result Derived := do
  let d ← read content text backrefs
  match d.matched with
  | none => return .failed
  | some matched => return ⟨some matched, [.mk ⟨tag, matched⟩ d.nodes], d.lost⟩

/-- As often as it succeeds -/
def deriveMore (x : Ref) (text : Str) : Nat → Str → List AST → Nat → Result Derived
  | 0, _, _, _ => throw .outOfFuel
  | n + 1, rest, nodes, lost => do
    let d ← read x rest backrefs
    match d.matched with
    | none => return ⟨some (← text.upTo rest), nodes, lost⟩
    | some matched => deriveMore x text n (← rest.after matched) (nodes ++ d.nodes) (lost + d.lost)

def deriveAtLeastOne (fuel : Nat) (x : Ref) (text : Str) : Result Derived := do
  let d ← read x text backrefs
  match d.matched with
  | none => return .failed
  | some matched => deriveMore read backrefs x text fuel (← text.after matched) d.nodes d.lost

/-- Items up to what closes them -/
def deriveXUntilY (x y : Ref) (text : Str) : Nat → Str → List AST → Nat → Result Derived
  | 0, _, _, _ => throw .outOfFuel
  | n + 1, rest, nodes, lost => do
    let close ← read y rest backrefs
    match close.matched with
    | some matched =>
      return ⟨some (← text.through matched), nodes ++ close.nodes, lost + close.lost⟩
    | none =>
      let item ← read x rest backrefs
      match item.matched with
      | none => return .failed
      | some matched =>
        deriveXUntilY x y text n (← rest.after matched) (nodes ++ item.nodes) (lost + item.lost)

/-- What comes of the pairs of brackets: none opens, or the first that opens fails, or it
closes. -/
inductive DerivedNested where
  | unopened
  | failed
  | closed (rest : Str) (nodes : List AST) (lost : Nat)

def deriveBalanced (toY : Ref → Str → Result Derived) (rest : Str) :
    List (Ref × Ref) → Result DerivedNested
  | [] => return .unopened
  | (pOpen, pClose) :: pairs => do
    let opened ← read pOpen rest backrefs
    match opened.matched with
    | none => deriveBalanced toY rest pairs
    | some matched =>
      let t ← rest.after matched
      let inner ← toY pClose t
      match inner.matched with
      | none => return .failed
      | some matched =>
        let t ← t.after matched
        let close ← read pClose t backrefs
        match close.matched with
        | none => throw (.panic .neverReached)
        | some matched =>
          return .closed (← t.after matched) (opened.nodes ++ inner.nodes ++ close.nodes)
            (opened.lost + forestCount inner.nodes + close.lost)

def deriveToY (pairs : List (Ref × Ref)) (content : Ref) :
    Nat → (y : Ref) → (text rest : Str) → List AST → Nat → Result Derived
  | 0, _, _, _, _, _ => throw .outOfFuel
  | n + 1, y, text, rest, nodes, lost => do
    let ended ← read y rest backrefs
    match ended.matched with
    | some _ => return ⟨some (← text.upTo rest), nodes, lost⟩
    | none =>
      let nested ← deriveBalanced read backrefs
        (fun y text => deriveToY pairs content n y text text [] 0) rest pairs
      match nested with
      | .failed => return .failed
      | .closed t more moreLost =>
        deriveToY pairs content n y text t (nodes ++ more) (lost + moreLost)
      | .unopened =>
        let item ← read content rest backrefs
        match item.matched with
        | none => return .failed
        | some matched =>
          deriveToY pairs content n y text (← rest.after matched) (nodes ++ item.nodes)
            (lost + item.lost)

def deriveBackRef (program : Program) (id : String) (text : Str) : Result Derived :=
  match backrefs.find? fun x => x.1 = id with
  | none => throw (.panic .unwrap)
  | some x => do return (← read x.2 text backrefs).behind program x.2

/-- The content of the first case that succeeds, behind it -/
def deriveSwitch (text : Str) : List (Ref × Ref) → Result Derived
  | [] => return .failed
  | (case, content) :: cases => do
    let d ← read case text backrefs
    match d.matched with
    | none => deriveSwitch text cases
    | some matched =>
      let inside ← read content (← text.after matched) backrefs
      match inside.matched with
      | none => return .failed
      | some matched =>
        return ⟨some (← text.through matched), d.nodes ++ inside.nodes, d.lost + inside.lost⟩

/-- Look-ahead matches nothing, and no node of it is kept. -/
def deriveLookingAt (x : Ref) (text : Str) : Result Derived := do
  let d ← read x text backrefs
  match d.matched with
  | some _ => return ⟨some (← text.sliceTo 0), [], 0⟩
  | none => return .failed

def deriveNot (x : Ref) (text : Str) : Result Derived := do
  let d ← read x text backrefs
  let nothing ← text.sliceTo 0
  match d.matched with
  | some _ => return .failed
  | none => return ⟨some nothing, [], 0⟩

end

def deriveSomeOf_ (program : Program) (fuel : Nat) (read : Read) (p : Parser) (text : Str)
    (backrefs : List BackReffable) : Result Derived :=
  match p with
  | .and first others => deriveAnd read backrefs text (first :: others) text [] 0
  | .or first others => deriveOr read backrefs text (first :: others)
  | .none => deriveLeaf do return .leaf (← text.sliceTo 0) none
  | .literal x => deriveLeaf (parseLiteral text 0 0 x text.chars)
  | .endOfInput => deriveLeaf (parseEndOfInput text)
  | .tagged tag content => deriveTagged read backrefs tag content text
  | .anyChar => deriveLeaf (parseOne (fun _ => true) text)
  | .digit => deriveLeaf (parseOne (fun c => '0' ≤ c ∧ c ≤ '9') text)
  | .char x => deriveLeaf (parseOne (· = x) text)
  | .atLeastOne x => deriveAtLeastOne read backrefs fuel x text
  | .zeroOrMore x => deriveMore read backrefs x text fuel text [] 0
  | .oneOfChars chars => deriveLeaf (parseOne (· ∈ chars) text)
  | .anyCharExcept chars => deriveLeaf (parseOne (· ∉ chars) text)
  | .xUntilY x y => deriveXUntilY read backrefs x y text fuel text [] 0
  | .balancedUntilY pairs content y =>
    deriveToY read backrefs pairs content fuel y text text [] 0
  | .backRefs inside parser => do return (← read parser text inside).behind program parser
  | .backRef id => deriveBackRef read backrefs program id text
  | .switch first others => deriveSwitch read backrefs text (first :: others)
  | .lookingAt x => deriveLookingAt read backrefs x text
  | .not x => deriveNot read backrefs x text

def derive (program : Program) : Nat → Read
  | 0, _, _, _ => throw .outOfFuel
  | n + 1, p, text, backrefs =>
    deriveSomeOf_ program n (derive program n) (program p) text backrefs

end Urnest.RufParser
