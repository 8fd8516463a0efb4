import Urnest.Lib.Asking
import Urnest.Hcp.Ast

/-!
# The parsers of hcp

A `Parser` is one of the classes of parser.cc with what it was made of, and `body` is their
member functions: `parse_` of each class as the source has it, where each call of another
parser's `parse` or `parse_` is a question, and each loop that may go on asks for its next
turn. `parse` is the one of the base class without its cache; `cacheKey` is what it looks up.

A parser has an identity, that is its address. Parsers that a `parse_` makes on the spot
(the quotes of a character literal in `balanced`, the end delimiter of a raw string) have
an address of their own, under which nothing is ever looked up again. So they are asked
without `parse`.
-/

namespace Urnest.Hcp

open Lib

/-! ## Parsers -/

/-- A parser and its parts. `ι` has the identities, `τ` the item types and `ν` the names of
the parsers that are referred to before they exist (`SelfParser`, `VarFpBackref`). -/
inductive Parser (ι τ ν : Type) where
  | anyChar (id : ι)
  /-- `ParseOneOfChars`, or `ParseOneOfChars2` with the characters of its pattern -/
  | oneOfChars (id : ι) (chars : List Char)
  | anyCharExcept (id : ι) (chars : List Char)
  | charInRange (id : ι) (min max : Char)
  | literal (id : ι) (x : String)
  | identifier (id : ι)
  | hash (id : ι)
  /-- `ParseRawStringLiteral`, with its `o_` -/
  | rawString (id : ι) (o : Parser ι τ ν)
  | endOfFile (id : ι) (type : τ)
  | optional (id : ι) (x : Parser ι τ ν)
  | zeroOrMore (id : ι) (x : Parser ι τ ν)
  | and (id : ι) (first : Parser ι τ ν) (rest : List (Parser ι τ ν))
  | or (id : ι) (first : Parser ι τ ν) (rest : List (Parser ι τ ν))
  | not (id : ι) (term : Parser ι τ ν)
  /-- `ParseUntil` -/
  | anyUntil (id : ι) (x : Parser ι τ ν)
  /-- `ParseSpecificUntil` -/
  | specificUntil (id : ι) (match_ x : Parser ι τ ν)
  | balanced (id : ι) (until_ : Parser ι τ ν) (angles : Bool)
  | nToM (id : ι) (n m : Nat) (x : Parser ι τ ν)
  | nonEmptyListOf (id : ι) (x moreIndicator : Parser ι τ ν)
  /-- `NamedParser` -/
  | named (id : ι) (type : τ) (name : String) (x : Parser ι τ ν)
  | anon (id : ι) (name : String) (x : Parser ι τ ν)
  /-- a class of its own, whose `parse_` is that of `x` (`ParseClass`) -/
  | wrapped (id : ι) (target : String) (x : Parser ι τ ν)
  /-- a class of its own, whose `parse_` is that of the parser with a name -/
  | reference (id : ι) (target : String) (name : ν)

variable {ι τ ν : Type}

/-- The address. -/
def Parser.id : Parser ι τ ν → ι
  | .anyChar id | .oneOfChars id _ | .anyCharExcept id _ | .charInRange id _ _ | .literal id _
  | .identifier id | .hash id | .rawString id _ | .endOfFile id _ | .optional id _
  | .zeroOrMore id _ | .and id _ _ | .or id _ _ | .not id _ | .anyUntil id _
  | .specificUntil id _ _ | .balanced id _ _ | .nToM id _ _ _ | .nonEmptyListOf id _ _
  | .named id _ _ _ | .anon id _ _ | .wrapped id _ _ | .reference id _ _ => id

/-- Is it a `NamedParser_`? -/
def Parser.isNamed : Parser ι τ ν → Bool
  | .named .. | .anon .. => true
  | _ => false

/-- The parsers that are static in the functions of parser.cc, as far as the classes use
them, and what the item types do in their constructors. -/
structure Grammar (ι τ ν : Type) where
  parserOf : ν → Parser ι τ ν
  c_char : Parser ι τ ν
  stringLiteral : Parser ι τ ν
  rawStringLiteral : Parser ι τ ν
  comments : Parser ι τ ν
  /-- what the constructor throws, if anything -/
  construct : τ → Item τ → IRs τ → Option String

/-! ## Results -/

inductive Cause where
  /-- end of input -/
  | endOfInput
  /-- expected parse failure -/
  | expectedParseFailure
  /-- is not one of chars -/
  | notOneOf (got : Char) (chars : List Char)
  /-- is one of -/
  | isOneOf (got : Char) (chars : List Char)
  /-- is not one of chars `min`..`max` -/
  | notInRange (got min max : Char)
  | mismatch (got wanted : Char)
  /-- is not an identifier char -/
  | notIdentifierChar (got : Char)
  | notAtColumn1
  /-- line starts with -/
  | notHash (got : Char)
  /-- is not allowed in raw string literal delimeter -/
  | invalidDelimeterChar (got : Char)
  | tooManyDelimeterChars
  | endDelimeterNotFound (endDelimeter : String)
  /-- only got -/
  | tooFew (got : Nat)
  /-- expected end of input -/
  | notEndOfInput (got : Char)
  /-- thrown by the constructor of an item -/
  | thrown (what : String)
  deriving DecidableEq

/-- An element of `context_`: the parser, whose target it shows, and where. -/
structure Context (ι τ ν : Type) where
  named : Bool
  target : Parser ι τ ν
  position : Nat

structure Exception (ι τ ν : Type) where
  cause : Cause
  position : Nat
  /-- latest last -/
  context : List (Context ι τ ν) := []
  /-- indicates eof caused parse failure -/
  atEnd : Bool := false
  irsAtEnd : IRs τ := []

def Exception.addContext (e : Exception ι τ ν) (p : Parser ι τ ν) (position : Nat) :
    Exception ι τ ν :=
  { e with context := e.context ++ [⟨p.isNamed, p, position⟩] }

/-- add at-end irs, last-first -/
def Exception.addAtEndIRs (e : Exception ι τ ν) (irs : IRs τ) : Exception ι τ ν :=
  if e.atEnd then { e with irsAtEnd := e.irsAtEnd ++ irs.reverse } else e

/-- Items, and where the parser is behind them. -/
abbrev PV (τ : Type) := IRs τ × Nat

abbrev ParseResult (ι τ ν : Type) := Except (Exception ι τ ν) (PV τ)

def EndOfInput (position : Nat) : ParseResult ι τ ν :=
  .error { cause := .endOfInput, position := position, atEnd := true }

def failure (cause : Cause) (position : Nat) : ParseResult ι τ ν :=
  .error { cause := cause, position := position }

/-- A call of `parse` or `parse_`, or a turn of a loop. -/
inductive Query (ι τ ν : Type) where
  | parse (p : Parser ι τ ν) (position : Nat)
  | parse_ (p : Parser ι τ ν) (position : Nat)
  | zeroOrMore (x : Parser ι τ ν) (result : PV τ)
  | anyUntil (x : Parser ι τ ν) (start end_ : Nat)
  | specificUntil (match_ x : Parser ι τ ν) (result : PV τ)
  | balanced (until_ : Parser ι τ ν) (angles : Bool) (start end_ : Nat)
  | nonEmptyListOf (x moreIndicator : Parser ι τ ν) (result : PV τ)

/-- What a member function does. -/
abbrev Member (ι τ ν α : Type) := Asking (Query ι τ ν) (ParseResult ι τ ν) α

def parse (p : Parser ι τ ν) (position : Nat) : Member ι τ ν (ParseResult ι τ ν) :=
  .question (.parse p position)

def parse_ (p : Parser ι τ ν) (position : Nat) : Member ι τ ν (ParseResult ι τ ν) :=
  .question (.parse_ p position)

/-! ## The classes -/

section Classes

variable (g : Grammar ι τ ν) (text : List Char) (irsAtEnd : Bool)

/-- A class that takes one character, unless it is `unexpected`. -/
def parseChar (position : Nat) (unexpected : Char → Option Cause) : ParseResult ι τ ν :=
  match text[position]? with
  | none => EndOfInput position
  | some c =>
    match unexpected c with
    | some cause => failure cause position
    | none => .ok ([.leaf position (position + 1)], position + 1)

/-- `std::mismatch` with the rest of a literal. -/
def mismatch (start : Nat) : List Char → Nat → ParseResult ι τ ν
  | [], position => .ok ([.leaf start position], position)
  | wanted :: x, position =>
    match text[position]? with
    | none => EndOfInput position
    | some got =>
      if wanted = got then mismatch start x (position + 1)
      else failure (.mismatch got wanted) position

def isIdentifierChar (c : Char) : Bool := 'a' ≤ c ∧ c ≤ 'z' ∨ 'A' ≤ c ∧ c ≤ 'Z' ∨ c = '_'

def isIdentifierContChar (c : Char) : Bool := isIdentifierChar c ∨ '0' ≤ c ∧ c ≤ '9'

/-- `ParseIdentifier` -/
def parseIdentifier (position : Nat) : ParseResult ι τ ν :=
  match text[position]? with
  | none => EndOfInput position
  | some c =>
    if isIdentifierChar c then
      let i := position + 1 + ((text.drop (position + 1)).takeWhile isIdentifierContChar).length
      .ok ([.leaf position i], i)
    else failure (.notIdentifierChar c) position

/-- `ParseHash` -/
def parseHash (position : Nat) : ParseResult ι τ ν :=
  parseChar text position fun c =>
    if column text position ≠ 1 then some .notAtColumn1
    else if c ≠ '#' then some (.notHash c)
    else none

/-- `ParseEndOfFile` -/
def parseEndOfFile (type : τ) (position : Nat) : ParseResult ι τ ν :=
  match text[position]? with
  | some c => failure (.notEndOfInput c) position
  | none => .ok ([.node type (.leaf position position) []], position)

def backslash : Char := .ofNat 0x5c

def quote : Char := .ofNat 0x27

def doubleQuoteChar : Char := .ofNat 0x22

/-- `std::isspace` -/
def isspace (c : Char) : Bool := c = ' ' ∨ 9 ≤ c.toNat ∧ c.toNat ≤ 13

/-- The delimeter of a raw string: so many characters at most, up to a bracket. -/
def delimeter : Nat → Nat → Except (Exception ι τ ν) Nat
  | 0, i =>
    match text[i]? with
    | none => .error { cause := .endOfInput, position := i, atEnd := true }
    | some c =>
      if c ≠ '(' then .error { cause := .tooManyDelimeterChars, position := i } else .ok i
  | n + 1, i =>
    match text[i]? with
    | none => .error { cause := .endOfInput, position := i, atEnd := true }
    | some c =>
      if c = '(' then .ok i
      else if isspace c ∨ c = backslash ∨ c = ')' then
        .error { cause := .invalidDelimeterChar c, position := i }
      else delimeter n (i + 1)

/-- `ParseRawStringLiteral`, behind its `o_` -/
def parseRawString (id : ι) (position i : Nat) : Member ι τ ν (ParseResult ι τ ν) :=
  match delimeter text 16 i with
  | .error e => return .error e
  | .ok j => do
    let endDelimeter := String.ofList (')' :: slice text i j ++ [doubleQuoteChar])
    match ← parse_ (.anyUntil id (.literal id endDelimeter)) j with
    | .error e => return failure (.endDelimeterNotFound endDelimeter) e.position
    | .ok rr =>
      match ← parse_ (.literal id endDelimeter) rr.2 with
      | .error e => return .error e
      | .ok rrr => return .ok ([.leaf position rrr.2], rrr.2)

/-- `ParseAnd`. (There is nothing yet to add where its first term fails.) -/
def parseAnd : List (Parser ι τ ν) → PV τ → Member ι τ ν (ParseResult ι τ ν)
  | [], result => return .ok result
  | term :: terms, result => do
    match ← parse term result.2 with
    | .error e => return .error (if irsAtEnd then e.addAtEndIRs result.1 else e)
    | .ok br => parseAnd terms (result.1 ++ br.1, br.2)

/-- The later of two failures: the one that got further, or the last one. -/
def furthest (e e' : Exception ι τ ν) : Exception ι τ ν :=
  if e.position ≤ e'.position then e' else e

/-- `ParseOr`, with the furthest of the failures so far. -/
def parseOr (position : Nat) : List (Parser ι τ ν) → Exception ι τ ν →
    Member ι τ ν (ParseResult ι τ ν)
  | [], e => return .error e
  | term :: terms, e => do
    match ← parse term position with
    | .error e' => parseOr position terms (furthest e e')
    | .ok r => return .ok r

/-- `NToM`, with so many turns to go, after so many. -/
def parseNToM (n : Nat) (x : Parser ι τ ν) : Nat → Nat → PV τ → Member ι τ ν (ParseResult ι τ ν)
  | 0, _, result => return .ok result
  | k + 1, count, result => do
    match ← parse x result.2 with
    | .ok r => parseNToM n x k (count + 1) (result.1 ++ r.1, r.2)
    | .error e =>
      if count ≥ n then return .ok result else return failure (.tooFew count) e.position

/-- `NamedParser`, around what its parser has read. A composite needs an item. -/
def makeNamed (type : τ) (position : Nat) (a : PV τ) : ParseResult ι τ ν :=
  let (first, rest) := match a.1 with
    | [] => (.leaf position position, [])
    | first :: rest => (first, rest)
  match g.construct type first rest with
  | some what => failure (.thrown what) position
  | none => .ok ([.node type first rest], a.2)

def lookingAt (i : Nat) (x : String) : Bool := x.toList.isPrefixOf (text.drop i)

/-- A character literal: an `and` of a quote, `c_char()` and a quote. -/
def parseQuoted (id : ι) (position : Nat) : Member ι τ ν (ParseResult ι τ ν) := do
  let quotes := Parser.oneOfChars id [quote]
  match ← parse_ quotes position with
  | .error e => return .error (e.addContext quotes position)
  | .ok first =>
    match ← parse g.c_char first.2 with
    | .error e => return .error (if irsAtEnd then e.addAtEndIRs first.1 else e)
    | .ok c =>
      match ← parse_ quotes c.2 with
      | .error e =>
        let e := e.addContext quotes c.2
        return .error (if irsAtEnd then e.addAtEndIRs (first.1 ++ c.1) else e)
      | .ok last => return .ok (first.1 ++ c.1 ++ last.1, last.2)

/-- What closes a bracket. -/
def closer (angles : Bool) (c : Char) : Option Char :=
  if c = '{' then some '}'
  else if c = '<' then if angles then some '>' else none
  else if c = '[' then some ']'
  else if c = '(' then some ')'
  else none

/-- The end of what `ParseBalanced` reads in one turn. -/
def parseBalancedTurn (id : ι) (angles : Bool) (end_ : Nat) (c : Char) :
    Member ι τ ν (Except (Exception ι τ ν) Nat) := do
  if lookingAt text end_ "u8R\"" ∨ lookingAt text end_ "uR\"" ∨ lookingAt text end_ "UR\"" ∨
      lookingAt text end_ "LR\"" ∨ lookingAt text end_ "R\"" then
    return (← parse_ g.rawStringLiteral end_).map Prod.snd
  else if c = quote then return (← parseQuoted g irsAtEnd id end_).map Prod.snd
  else if c = doubleQuoteChar then return (← parse_ g.stringLiteral end_).map Prod.snd
  else if c = '/' then
    match ← parse_ g.comments end_ with
    | .ok r2 => return .ok r2.2
    | .error _ => return .ok (end_ + 1)
  else match closer angles c with
    | some close =>
      match ← parse_ (.balanced id (.oneOfChars id [close]) angles) (end_ + 1) with
      | .ok r2 => return .ok (r2.2 + 1)
      | .error e => return .error e
    | none => return .ok (end_ + 1)

/-- `parse_` of each class. -/
def parseClass (p : Parser ι τ ν) (position : Nat) : Member ι τ ν (ParseResult ι τ ν) :=
  match p with
  | .anyChar _ => return parseChar text position fun _ => none
  | .oneOfChars _ chars =>
    return parseChar text position fun c => if c ∈ chars then none else some (.notOneOf c chars)
  | .anyCharExcept _ chars =>
    return parseChar text position fun c => if c ∈ chars then some (.isOneOf c chars) else none
  | .charInRange _ min max =>
    return parseChar text position fun c =>
      if c < min ∨ max < c then some (.notInRange c min max) else none
  | .literal _ x => return mismatch text position x.toList position
  | .identifier _ => return parseIdentifier text position
  | .hash _ => return parseHash text position
  | .endOfFile _ type => return parseEndOfFile text type position
  | .rawString id o => do
    match ← parse o position with
    | .error e => return .error e
    | .ok r => parseRawString text id position r.2
  | .optional _ x => do
    match ← parse x position with
    | .error _ => return .ok ([], position)
    | .ok r => return .ok r
  | .zeroOrMore _ x => .question (.zeroOrMore x ([], position))
  | .and _ first rest => parseAnd irsAtEnd (first :: rest) ([], position)
  | .or _ first rest => do
    match ← parse first position with
    | .error e => parseOr position rest e
    | .ok r => return .ok r
  | .not _ term => do
    match ← parse term position with
    | .error _ => return .ok ([], position)
    | .ok _ => return failure .expectedParseFailure position
  | .anyUntil _ x => .question (.anyUntil x position position)
  | .specificUntil _ match_ x => .question (.specificUntil match_ x ([], position))
  | .balanced _ until_ angles => .question (.balanced until_ angles position position)
  | .nToM _ n m x => parseNToM n x m 0 ([], position)
  | .nonEmptyListOf _ x moreIndicator => .question (.nonEmptyListOf x moreIndicator ([], position))
  | .named _ type _ x => do
    match ← parse x position with
    | .error e => return .error e
    | .ok a => return makeNamed g type position a
  | .anon _ _ x => parse x position
  | .wrapped _ _ x => parse_ x position
  | .reference _ _ name => parse_ (g.parserOf name) position

/-- The member functions and their loops. -/
def body : Query ι τ ν → Member ι τ ν (ParseResult ι τ ν)
  | .parse p position => do
    match ← parse_ p position with
    | .error e => return .error (e.addContext p position)
    | .ok r => return .ok r
  | .parse_ p position => parseClass g text irsAtEnd p position
  | .zeroOrMore x result => do
    match ← parse x result.2 with
    | .error _ => return .ok result
    | .ok r => .question (.zeroOrMore x (result.1 ++ r.1, r.2))
  | .anyUntil x start end_ => do
    match ← parse_ x end_ with
    | .ok _ => return .ok ([.leaf start end_], end_)
    | .error _ =>
      if text.length ≤ end_ then return EndOfInput end_
      else .question (.anyUntil x start (end_ + 1))
  | .specificUntil match_ x result => do
    match ← parse_ x result.2 with
    | .ok _ => return .ok result
    | .error _ =>
      match ← parse_ match_ result.2 with
      | .error e => return .error (if irsAtEnd then e.addAtEndIRs result.1 else e)
      | .ok r => .question (.specificUntil match_ x (result.1 ++ r.1, r.2))
  | .balanced until_ angles start end_ => do
    match ← parse_ until_ end_ with
    | .ok _ => return .ok ([.leaf start end_], end_)
    | .error _ =>
      match text[end_]? with
      | none => return EndOfInput end_
      | some c =>
        match ← parseBalancedTurn g text irsAtEnd until_.id angles end_ c with
        | .error e => return .error e
        | .ok i => .question (.balanced until_ angles start i)
  | .nonEmptyListOf x moreIndicator result => do
    match ← parse x result.2 with
    | .error e => return .error (if irsAtEnd then e.addAtEndIRs result.1 else e)
    | .ok r =>
      match ← parse moreIndicator r.2 with
      | .error _ => return .ok (result.1 ++ r.1, r.2)
      | .ok more =>
        .question (.nonEmptyListOf x moreIndicator (result.1 ++ r.1 ++ more.1, more.2))

end Classes

/-- What `parse` looks up: the position, and the address of the parser. -/
def cacheKey : Query ι τ ν → Option (Nat × ι)
  | .parse p position => some (position, p.id)
  | _ => none

end Urnest.Hcp
