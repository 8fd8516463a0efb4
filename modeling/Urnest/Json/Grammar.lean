import Urnest.Hcp.Reading
import Urnest.Json.StringLiteral

/-!
# Parsing JSON

The productions of parse.hcp, with those of parser.cc that they use, and what the items are
made into. A `NamedParser` makes its element from the items that it has read when it makes
the item (`AstNumber::convert` and so on): here that is done afterwards, by `element`, on the
tree that is parsed.
-/

namespace Urnest.Json

open Lib Hcp Utf8

/-- The classes of the items. -/
inductive ItemType where
  | LineComment | BlockComment | Comments | WhiteSpace | AstNumber | AstNull | AstTrue | AstFalse
  | AstString (value : Utf8String)
  | AstArray | AstObject | ObjectMember | ObjectValue

/-- `StringLiteralParser`, and the parser that `RecurseElement` goes to. -/
inductive Rule where
  | stringLiteral
  | element

/-- A parser, wherever it is. -/
abbrev PR := Parser Unit ItemType Rule

/-! ## Combinators -/

/-- The terms of a `ParseAnd`, or one. -/
def andTerms : PR → List PR
  | .and _ first rest => first :: rest
  | x => [x]

def orTerms : PR → List PR
  | .or _ first rest => first :: rest
  | x => [x]

/-- `operator+` -/
instance : Add PR where
  add
    | .and _ first rest, b => .and () first (rest ++ andTerms b)
    | a, b => .and () a (andTerms b)

/-- `operator|` -/
instance : OrOp PR where
  or
    | .or _ first rest, b => .or () first (rest ++ orTerms b)
    | a, b => .or () a (orTerms b)

/-- `operator!` -/
def not (x : PR) : PR := .not () x

def zeroOrMore (x : PR) : PR := .zeroOrMore () x

def optional (x : PR) : PR := .optional () x

def anon (name : String) (x : PR) : PR := .anon () name x

def named (type : ItemType) (name : String) (x : PR) : PR := .named () type name x

/-- `atLeastOne`; the name goes on with the target of `b`. -/
def atLeastOne (b : PR) : PR := anon "at least one occurrance of" (b + zeroOrMore b)

def parseOneOfChars (chars : String) : PR := .oneOfChars () chars.toList

def charInRange (min max : Char) : PR := .charInRange () min max

def parseLiteral (x : String) : PR := .literal () x

/-- `parseUntil` of what is to match -/
def parseUntil (match_ x : PR) : PR := .specificUntil () match_ x

/-- `parseUntil` of anything -/
def parseAnyUntil (x : PR) : PR := .anyUntil () x

/-- `listOf`; the name shows the targets of its parts, too. -/
def listOf (opener x separator terminator : PR) : PR :=
  anon "-separated list of" (opener +
    (terminator ||| (x + parseUntil (separator + x) terminator + terminator)))

/-! ## White space -/

def whitespaceChar : PR := parseOneOfChars " \t\n\r"

def doubleSlash : PR := parseLiteral "//"

def slashStar : PR := parseLiteral "/*"

def starSlash : PR := parseLiteral "*/"

def lineComment : PR := named .LineComment "line comment"
  (doubleSlash + parseAnyUntil (parseOneOfChars "\n") + zeroOrMore whitespaceChar)

def blockComment : PR := named .BlockComment "block comment"
  (slashStar + parseAnyUntil starSlash + starSlash + zeroOrMore whitespaceChar)

def comments : PR := named .Comments "comments" (atLeastOne (lineComment ||| blockComment))

/-- matches nothing or something -/
def eatWhite : PR := anon "optional whitespace"
  (not (whitespaceChar ||| doubleSlash ||| slashStar) |||
    named .WhiteSpace "whitespace" (zeroOrMore (whitespaceChar ||| comments)))

/-! ## Elements -/

def digit : PR := charInRange '0' '9'

def nonZeroDigit : PR := charInRange '1' '9'

def exponent : PR := parseOneOfChars "eE" + optional (parseOneOfChars "+-") + atLeastOne digit

def number : PR :=
  named .AstNumber "number"
    (optional (parseOneOfChars "-") +
      (parseLiteral "0" ||| (nonZeroDigit + zeroOrMore digit)) +
      (not (parseLiteral ".") ||| (parseLiteral "." + atLeastOne digit)) +
      (not (parseOneOfChars "eE") ||| exponent)) +
    eatWhite

def null_ : PR := named .AstNull "null" (parseLiteral "null") + eatWhite

def true_ : PR := named .AstTrue "true" (parseLiteral "true") + eatWhite

def false_ : PR := named .AstFalse "false" (parseLiteral "false") + eatWhite

def stringLiteralParser : PR := .reference () "JSON string" .stringLiteral

def string : PR := stringLiteralParser + eatWhite

def elementRecurse : PR := .reference () "element (recurse)" .element

def array : PR := named .AstArray "array"
  (listOf (parseLiteral "[" + eatWhite) elementRecurse (parseLiteral "," + eatWhite)
    (parseLiteral "]" + eatWhite))

def objectMember : PR := named .ObjectMember "object member"
  (string + parseLiteral ":" + eatWhite + named .ObjectValue "object value" elementRecurse)

def object : PR := named .AstObject "object"
  (listOf (parseLiteral "\x7b" + eatWhite) objectMember (parseLiteral "," + eatWhite)
    (parseLiteral "\x7d" + eatWhite))

def elementParser : PR := null_ ||| true_ ||| false_ ||| string ||| number ||| array ||| object

/-! ## `StringLiteralParser` -/

def char (b : UInt8) : Char := Char.ofNat b.toNat

/-- The characters of a `std::string` -/
def chars (text : List UInt8) : List Char := text.map char

def StringCause.cause : StringCause → Cause
  | .C1 got want => .mismatch (char got) (char want)
  | .C2 got1 got2 => .thrown (String.ofList
      ("expected \"\\u\", got ".toList ++ [char got1, char got2]))
  | .C3 got => .thrown (String.ofList
      ("expected one of \", \\, /, a, b, f, n, r, t, u, got (c-escaped) ".toList ++ [char got]))
  | .FixedCause what => .thrown (reprStr what)

/-- `parse_`. (The bytes that are unescaped are characters, so that the string can be made
of them.) -/
def parseStringLiteral (text : List UInt8) (position : Nat) : ParseResult Unit ItemType Rule :=
  match text.drop position with
  | [] => failure .endOfInput position
  | c :: rest =>
    if c ≠ 0x22 then failure (StringCause.C1 c 0x22).cause position
    else match scan rest with
      | .error (cause, i) => failure cause.cause (text.length - i.length)
      | .ok (unescaped, i) =>
        let end_ := text.length - i.length
        match Utf8String.make unescaped with
        | .error e => failure (StringCause.FixedCause (.utf8 e)).cause end_
        | .ok value => .ok ([.node (.AstString value) (.leaf position end_) []], end_)

/-! ## The elements of items -/

namespace ItemType

def isElement : ItemType → Bool
  | AstNumber | AstNull | AstTrue | AstFalse | AstString _ | AstArray | AstObject => true
  | _ => false

def isString : ItemType → Bool
  | AstString _ => true
  | _ => false

def isMember : ItemType → Bool
  | ObjectMember => true
  | _ => false

def isValue : ItemType → Bool
  | ObjectValue => true
  | _ => false

end ItemType

/-- `element_->asString()` of an `AstString` -/
def stringOf : Item ItemType → Option Utf8String
  | .node (.AstString value) _ _ => some value
  | _ => none

/-- The `ObjectValue` of a member, and the element in it. -/
def valueItem (member : Item ItemType) : Option (Item ItemType) := do
  let value ← (member.findChildren ItemType.isValue).head?
  (value.findChildren ItemType.isElement).head?

theorem sizeOf_valueItem_lt {member x : Item ItemType} (h : valueItem member = some x) :
    sizeOf x < sizeOf member := by
  obtain ⟨value, hvalue, hx⟩ := Option.bind_eq_some_iff.mp h
  exact Nat.lt_trans (sizeOf_lt_of_mem_findChildren (List.mem_of_head? hx))
    (sizeOf_lt_of_mem_findChildren (List.mem_of_head? hvalue))

/-- `element_` of an `AstElement`, if there is one: what its class makes of its items. -/
def element (text : List Char) : Item ItemType → Option Tree
  | .leaf _ _ => none
  | .node type first rest =>
    let items := first :: rest
    let parsedAt := some first.begin
    match type with
    | .AstNumber =>
      some (.number (slice text first.begin (Item.node ItemType.AstNumber first rest).end_) parsedAt)
    | .AstNull => some .null_
    | .AstTrue => some .true_
    | .AstFalse => some .false_
    | .AstString value => some (.string value parsedAt)
    | .AstArray => do
      let elements ← (findAll ItemType.isElement items).attach.mapM fun x =>
        element text x.1
      return .array elements parsedAt
    | .AstObject => do
      let members ← (findAll ItemType.isMember items).attach.mapM fun x => do
        let key ← (x.1.findChildren ItemType.isString).head? >>= stringOf
        match _hvalue : valueItem x.1 with
        | some y => do
          let value ← element text y
          return (key, value)
        | none => none
      return .object (OrderedBy.ofList members : Members).toList parsedAt
    | _ => none
termination_by x => sizeOf x
decreasing_by
  · have hlt := sizeOf_lt_of_mem_findAll x.2
    rw [List.cons.sizeOf_spec] at hlt
    rw [Item.node.sizeOf_spec]
    omega
  · have hlt := sizeOf_lt_of_mem_findAll x.2
    have hvalue := sizeOf_valueItem_lt _hvalue
    rw [List.cons.sizeOf_spec] at hlt
    rw [Item.node.sizeOf_spec]
    omega

/-! ## `parse` -/

/-- What `parse` throws. -/
inductive ParseError where
  | translated (e : Hcp.Exception Unit ItemType Rule)
  | onlyParsedUntil (position : Nat)
  /-- an assertion about the items -/
  | notOneElement

def grammar : Grammar Unit ItemType Rule where
  parserOf
    | .stringLiteral => stringLiteralParser
    | .element => elementParser
  c_char := whitespaceChar
  stringLiteral := whitespaceChar
  rawStringLiteral := whitespaceChar
  comments := comments
  construct _ _ _ := none

/-- A text to parse as JSON. -/
def parsing (text : List UInt8) : Parsing Unit ItemType Rule where
  grammar := grammar
  own
    | .stringLiteral => some (parseStringLiteral text)
    | .element => none
  text := chars text
  irsAtEnd := false

/-- What `parseString` and `parse` make of the result of the parser. -/
def parsed (text : List UInt8) : ParseResult Unit ItemType Rule → Except ParseError Tree
  | .error e => .error (.translated e)
  | .ok (items, i) =>
    if i ≠ text.length then .error (.onlyParsedUntil i)
    else match findAll ItemType.isElement items with
      | [x] =>
        match element (chars text) x with
        | some e => .ok e
        | none => .error .notOneElement
      | _ => .error .notOneElement

/-- `parse`, without its cache, with calls to some depth. -/
def parse (depth : Nat) (json : Utf8String) : Option (Except ParseError Tree) :=
  (eval (parsing json.value).body depth (.parse (eatWhite + elementParser) 0)).map
    (parsed json.value)

end Urnest.Json
