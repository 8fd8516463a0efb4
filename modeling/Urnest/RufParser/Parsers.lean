import Urnest.RufParser.Text
import Urnest.Ruf.Tree

/-!
# The parsers

The parsers of parsers.rs. A parser is an object, named by its address (`Ref`), and a program
says what object is at an address; so parsers may be shared, and the cache of `parse_some_of`
finds what a parser has made of a place in the text by the two.

The cache is one vector, of which the parsers hold slices: a slice is where it starts and how
long it is.
-/

namespace Urnest.RufParser

/-! ## Outcomes -/

/-- The address of a parser -/
abbrev Ref := Nat

abbrev BackReffable := String × Ref

inductive Unexpected where
  | char
  | endOfInput
  deriving DecidableEq, Repr

structure Goal where
  parser : Ref
  text : Str

inductive Outcome where
  | leaf (matched : Str) (unexpected : Option Unexpected)
  | composite (matched : Option Str) (components : List (Goal × Outcome))

abbrev Components := List (Goal × Outcome)

/-- What a parser that succeeded has matched: the two patterns of the success arms -/
def Outcome.matched? : Outcome → Option Str
  | leaf matched none => some matched
  | leaf _ (some _) => none
  | composite matched _ => matched

/-! ## The cache -/

/-- What is in the cache, by its place in the vector and the address of the parser -/
abbrev Entries := List ((Nat × Ref) × Outcome)

/-- A `&mut [Cache]` -/
structure CacheSlice where
  start : Nat
  len : Nat

abbrev Parse := StateT Entries (Except Stop)

/-- `&mut cache[n..]` -/
def CacheSlice.from (cache : CacheSlice) (n : Nat) : Result CacheSlice :=
  if n ≤ cache.len then .ok ⟨cache.start + n, cache.len - n⟩ else .error (.panic .index)

/-- How a parser calls another -/
abbrev Call := Ref → Str → CacheSlice → List BackReffable → Parse Outcome

/-! ## Leaves -/

/-- `AnyChar`, `Digit`, `Char`, `OneOfChars` and `AnyCharExcept`, by the characters they take -/
def parseOne (takes : Char → Bool) (text : Str) : Result Outcome :=
  match text.chars with
  | c :: _ =>
    if takes c then do return .leaf (← text.sliceTo 1) none
    else do return .leaf (← text.sliceTo 0) (some .char)
  | [] => do return .leaf (← text.sliceTo 0) (some .endOfInput)

/-- The loop of `Literal`, over the characters of the literal and of the text with their
indices -/
def parseLiteral (text : Str) : (i j : Nat) → List Char → List Char → Result Outcome
  | _, _, [], [] => return .leaf text none
  | _, j, [], _ :: _ => return .leaf (← text.sliceTo j) none
  | i, j, c :: cs, d :: ds =>
    if c = d then parseLiteral text (i + c.utf8Size) (j + d.utf8Size) cs ds
    else return .leaf (← text.sliceTo i) (some .char)
  | i, _, _ :: _, [] => return .leaf (← text.sliceTo i) (some .endOfInput)

def parseEndOfInput (text : Str) : Result Outcome :=
  match text.chars with
  | [] => return .leaf text none
  | _ :: _ => return .leaf (← text.sliceTo 0) (some .char)

/-! ## Combinators -/

section Combinators

variable (call : Call) (backrefs : List BackReffable)

/-- The terms of `And`; the first is as the others are -/
def parseAnd (text : Str) : List Ref → Str → CacheSlice → Components → Parse Outcome
  | [], rest, _, components => return .composite (some (← text.upTo rest)) components
  | term :: terms, rest, cache, components => do
    let result ← call term rest cache backrefs
    match result.matched? with
    | none => return .composite none (components ++ [(⟨term, rest⟩, result)])
    | some matched =>
      let t ← rest.after matched
      let c ← cache.from matched.len
      parseAnd text terms t c (components ++ [(⟨term, rest⟩, result)])

/-- The terms of `Or`; the first is as the others are -/
def parseOr (text : Str) (cache : CacheSlice) : List Ref → Components → Parse Outcome
  | [], components => return .composite none components
  | term :: terms, components => do
    let result ← call term text cache backrefs
    match result.matched? with
    | some matched => return .composite (some matched) (components ++ [(⟨term, text⟩, result)])
    | none => parseOr text cache terms (components ++ [(⟨term, text⟩, result)])

def parseTagged (content : Ref) (text : Str) (cache : CacheSlice) : Parse Outcome := do
  let result ← call content text cache backrefs
  return .composite result.matched? [(⟨content, text⟩, result)]

/-- The loop of `ZeroOrMore` and `AtLeastOne` -/
def parseMore (x : Ref) (text : Str) : Nat → Str → CacheSlice → Components → Parse Outcome
  | 0, _, _, _ => throw .outOfFuel
  | n + 1, rest, cache, components => do
    let result ← call x rest cache backrefs
    match result.matched? with
    | none => return .composite (some (← text.upTo rest)) components
    | some matched =>
      let t ← rest.after matched
      let c ← cache.from matched.len
      parseMore x text n t c (components ++ [(⟨x, rest⟩, result)])

def parseAtLeastOne (fuel : Nat) (x : Ref) (text : Str) (cache : CacheSlice) : Parse Outcome := do
  let result ← call x text cache backrefs
  match result.matched? with
  | none => return .composite none [(⟨x, text⟩, result)]
  | some matched =>
    let t ← text.after matched
    let c ← cache.from matched.len
    parseMore call backrefs x text fuel t c [(⟨x, text⟩, result)]

/-- The loop of `ParseXUntilY` -/
def parseXUntilY (x y : Ref) (text : Str) : Nat → Str → CacheSlice → Components → Parse Outcome
  | 0, _, _, _ => throw .outOfFuel
  | n + 1, rest, cache, components => do
    let close ← call y rest cache backrefs
    match close.matched? with
    | some matched =>
      return .composite (some (← text.through matched)) (components ++ [(⟨y, rest⟩, close)])
    | none =>
      let item ← call x rest cache backrefs
      match item.matched? with
      | none =>
        return .composite none (components ++ [(⟨y, rest⟩, close), (⟨x, rest⟩, item)])
      | some matched =>
        let t ← rest.after matched
        let c ← cache.from matched.len
        parseXUntilY x y text n t c (components ++ [(⟨x, rest⟩, item)])

/-- `CompositeResult` -/
abbrev CompositeResult := Option Str × Components

/-- What comes of the balance pairs of `ParseBalancedUntilY` -/
inductive Nested where
  | unopened
  | failed (components : Components)
  | closed (rest : Str) (cache : CacheSlice) (components : Components)

/-- The `for` loop over the balance pairs; the first pair that opens ends it. `toY` is
`parse_to_y`. -/
def parseBalanced (toY : Ref → Str → CacheSlice → Parse CompositeResult) (rest : Str)
    (cache : CacheSlice) : List (Ref × Ref) → Parse Nested
  | [] => return .unopened
  | (pOpen, pClose) :: pairs => do
    let opened ← call pOpen rest cache backrefs
    match opened.matched? with
    | none => parseBalanced toY rest cache pairs
    | some matched =>
      let t ← rest.after matched
      let c ← cache.from matched.len
      let inner ← toY pClose t c
      match inner.1 with
      | none => return .failed ((⟨pOpen, rest⟩, opened) :: inner.2)
      | some matched =>
        let t ← t.after matched
        let c ← c.from matched.len
        let close ← call pClose t c backrefs
        match close.matched? with
        | none => throw (.panic .neverReached)
        | some matched =>
          let t ← t.after matched
          let c ← c.from matched.len
          return .closed t c [(⟨pOpen, rest⟩, opened), (⟨pClose, t⟩, close)]

/-- The loop of `parse_to_y` -/
def parseToY (pairs : List (Ref × Ref)) (content : Ref) :
    Nat → (y : Ref) → (text rest : Str) → CacheSlice → Components → Parse CompositeResult
  | 0, _, _, _, _, _ => throw .outOfFuel
  | n + 1, y, text, rest, cache, components => do
    let ended ← call y rest cache backrefs
    match ended.matched? with
    | some _ => return (some (← text.upTo rest), components)
    | none =>
      let nested ← parseBalanced call backrefs
        (fun y text cache => parseToY pairs content n y text text cache []) rest cache pairs
      match nested with
      | .failed more => return (none, components ++ more)
      | .closed t c more => parseToY pairs content n y text t c (components ++ more)
      | .unopened =>
        let item ← call content rest cache backrefs
        match item.matched? with
        | none => return (none, components ++ [(⟨content, rest⟩, item)])
        | some matched =>
          let t ← rest.after matched
          let c ← cache.from matched.len
          parseToY pairs content n y text t c (components ++ [(⟨content, rest⟩, item)])

def parseBackRef (id : String) (text : Str) (cache : CacheSlice) : Parse Outcome :=
  match backrefs.find? fun x => x.1 = id with
  | none => throw (.panic .unwrap)
  | some x => call x.2 text cache backrefs

/-- The cases of `Switch`; the first is as the others are -/
def parseSwitch (text : Str) (cache : CacheSlice) : List (Ref × Ref) → Components → Parse Outcome
  | [], components => return .composite none components
  | (case, content) :: cases, components => do
    let result ← call case text cache backrefs
    match result.matched? with
    | none => parseSwitch text cache cases (components ++ [(⟨case, text⟩, result)])
    | some matched =>
      let t ← text.after matched
      let c ← cache.from matched.len
      let inside ← call content t c backrefs
      let components := components ++ [(⟨case, text⟩, result), (⟨content, t⟩, inside)]
      match inside.matched? with
      | none => return .composite none components
      | some matched => return .composite (some (← text.through matched)) components

def parseLookingAt (x : Ref) (text : Str) (cache : CacheSlice) : Parse Outcome := do
  let r ← call x text cache backrefs
  match r.matched? with
  | some _ => return .leaf (← text.sliceTo 0) none
  | none => return .composite none [(⟨x, text⟩, r)]

def parseNot (x : Ref) (text : Str) (cache : CacheSlice) : Parse Outcome := do
  let r ← call x text cache backrefs
  match r.matched? with
  | some _ =>
    return .leaf (← text.sliceTo 0) (some (if text.len = 0 then .endOfInput else .char))
  | none => return .leaf (← text.sliceTo 0) none

end Combinators

/-! ## Programs -/

/-- The objects that implement `Parser` -/
inductive Parser where
  | and (firstTerm : Ref) (otherTerms : List Ref)
  | or (firstTerm : Ref) (otherTerms : List Ref)
  | none
  | literal (x : List Char)
  | endOfInput
  | tagged (tag : String) (content : Ref)
  | anyChar
  | digit
  | char (x : Char)
  | atLeastOne (x : Ref)
  | zeroOrMore (x : Ref)
  | oneOfChars (chars : List Char)
  | anyCharExcept (chars : List Char)
  | xUntilY (x y : Ref)
  | balancedUntilY (balancePairs : List (Ref × Ref)) (content y : Ref)
  | backRefs (backrefs : List BackReffable) (parser : Ref)
  | backRef (id : String)
  | switch (firstCase : Ref × Ref) (otherCases : List (Ref × Ref))
  | lookingAt (x : Ref)
  | not (x : Ref)

abbrev Program := Ref → Parser

/-- `tag` -/
def Parser.tag : Parser → Option String
  | tagged tag _ => some tag
  | _ => Option.none

/-- `parse_some_of_` -/
def parseSomeOf_ (fuel : Nat) (call : Call) (p : Parser) (text : Str) (cache : CacheSlice)
    (backrefs : List BackReffable) : Parse Outcome :=
  match p with
  | .and first others => parseAnd call backrefs text (first :: others) text cache []
  | .or first others => parseOr call backrefs text cache (first :: others) []
  | .none => do return .leaf (← text.sliceTo 0) none
  | .literal x => parseLiteral text 0 0 x text.chars
  | .endOfInput => parseEndOfInput text
  | .tagged _ content => parseTagged call backrefs content text cache
  | .anyChar => parseOne (fun _ => true) text
  | .digit => parseOne (fun c => '0' ≤ c ∧ c ≤ '9') text
  | .char x => parseOne (· = x) text
  | .atLeastOne x => parseAtLeastOne call backrefs fuel x text cache
  | .zeroOrMore x => parseMore call backrefs x text fuel text cache []
  | .oneOfChars chars => parseOne (· ∈ chars) text
  | .anyCharExcept chars => parseOne (· ∉ chars) text
  | .xUntilY x y => parseXUntilY call backrefs x y text fuel text cache []
  | .balancedUntilY pairs content y => do
    let result ← parseToY call backrefs pairs content fuel y text text cache []
    return .composite result.1 result.2
  | .backRefs inside parser => call parser text cache inside
  | .backRef id => parseBackRef call backrefs id text cache
  | .switch first others => parseSwitch call backrefs text cache (first :: others) []
  | .lookingAt x => parseLookingAt call backrefs x text cache
  | .not x => parseNot call backrefs x text cache

/-- `parse_some_of` -/
def parseSomeOf (program : Program) : Nat → Call
  | 0, _, _, _, _ => throw .outOfFuel
  | n + 1, p, text, cache, backrefs => do
    if cache.len ≠ text.len + 1 then throw (.panic .assertion)
    match (← get).lookup (cache.start, p) with
    | some v => return v
    | none =>
      let v ← parseSomeOf_ n (parseSomeOf program n) (program p) text cache backrefs
      modify fun entries => ((cache.start, p), v) :: entries
      return v

/-- `parse` -/
def parse (program : Program) (fuel : Nat) (parser : Ref) (chars : List Char) : Result Outcome := do
  let x ← (parseSomeOf program fuel parser ⟨0, chars⟩ ⟨0, byteLen chars + 1⟩ []).run []
  return x.1

/-! ## The AST -/

structure Item where
  tag : String
  text : Str

abbrev AST := Ruf.Node Item

structure Context where
  tag : String
  text : Str

structure ParseFailed where
  at_ : Str
  why : Unexpected
  context : List Context

variable (program : Program)

mutual

/-- What a component gives to `get_component_asts` -/
def componentAsts (goal : Goal) : Outcome → List AST
  | .composite (some matched) components =>
    match (program goal.parser).tag with
    | none => allAsts components
    | some tag => [.mk ⟨tag, matched⟩ (allAsts components)]
  | .composite none _ => []
  | .leaf _ _ => []

/-- `get_component_asts` -/
def allAsts : Components → List AST
  | [] => []
  | (goal, outcome) :: components => componentAsts goal outcome ++ allAsts components

end

/-- The context that a goal adds to a failure -/
def contextOf (goal : Goal) : List Context :=
  match (program goal.parser).tag with
  | none => []
  | some tag => [⟨tag, goal.text⟩]

/-- Of the failures of components, that of the last, or the first that is furthest through
where one is further -/
def furthest (text : Str) (failures : List (Option ParseFailed)) : Result ParseFailed :=
  match failures.getLast? with
  | none => throw (.panic .unwrap)
  | some none => throw (.panic .neverReached)
  | some (some last) => failures.dropLast.foldlM (fun result f =>
      match f with
      | none => return result
      | some f => do
        let before ← text.upTo f.at_
        let best ← text.upTo result.at_
        return if before.len > best.len then f else result) last

mutual

/-- The failure of a component, if it failed -/
def failureOf (goal : Goal) : Outcome → Result (Option ParseFailed)
  | .composite none components => do
    let failures ← failuresOf components
    let r ← furthest goal.text failures
    return some { r with context := r.context ++ contextOf program goal }
  | .leaf matched (some why) => do
    return some ⟨← goal.text.after matched, why, contextOf program goal⟩
  | .composite (some _) _ => return none
  | .leaf _ none => return none

def failuresOf : Components → Result (List (Option ParseFailed))
  | [] => return []
  | (goal, outcome) :: components => do
    let f ← failureOf goal outcome
    let fs ← failuresOf components
    return f :: fs

end

/-- `find_best_failure` -/
def findBestFailure (text : Str) (components : Components) : Result ParseFailed := do
  let failures ← failuresOf program components
  furthest text failures

/-- `get_ast` -/
def getAst (rootAstTag : String) (goal : Goal) (outcome : Outcome) : Result (Except ParseFailed AST) :=
  match outcome with
  | .composite (some matched) _ | .leaf matched none =>
    return .ok (.mk ⟨rootAstTag, matched⟩ (allAsts program [(goal, outcome)]))
  | .composite none _ => do
    let f ← findBestFailure program goal.text [(goal, outcome)]
    return .error { f with context := f.context ++ [⟨rootAstTag, goal.text⟩] }
  | .leaf matched (some why) => do
    return .error ⟨← goal.text.after matched, why, [⟨rootAstTag, goal.text⟩]⟩

end Urnest.RufParser
