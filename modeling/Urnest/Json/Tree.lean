import Urnest.Utf8.Utf8String
import Urnest.Lib.Ordered
import Urnest.Lib.Throwing
import Urnest.Json.Number
import Mathlib.Data.List.Lex
import Mathlib.Data.UInt

/-!
# Formatting JSON

A `Tree` is an element with its elements, by the classes of Element.hcp, and `format` writes
it. What the parser makes has a position besides (`parsedAt`), which is no part of the
element: `plain` drops it.
-/

namespace Urnest.Json

open Lib Utf8

/-- An `Element`. Where the parser found it is what its `str` shows as a line and a column. -/
inductive Tree where
  | null_
  | true_
  | false_
  | string (value_ : Utf8String) (parsedAt : Option Nat)
  | number (value_ : List Char) (parsedAt : Option Nat)
  | array (value_ : List Tree) (parsedAt : Option Nat)
  /-- the members, in the order of the map -/
  | object (value_ : List (Utf8String × Tree)) (parsedAt : Option Nat)

/-- What `operator<` of the keys goes by: the bytes. (The number of characters comes second,
and strings with the same bytes have the same number.) -/
def keyOf (x : Utf8String × Tree) : List Nat := x.1.value.map UInt8.toNat

/-- `std::map<Utf8String, ..>` -/
abbrev Members := OrderedBy keyOf

namespace Tree

/-! ## Formatting -/

/-- What a `std::ostream` makes of characters that are bytes. -/
def bytes (x : List Char) : List UInt8 := x.map fun c => UInt8.ofNat c.toNat

/-- The characters that `String::formatAsUtf8` writes behind a backslash, and what for. -/
def escapes : List (UInt32 × UInt8) :=
  [(0x22, 0x22), (0x5c, 0x5c), (0x2f, 0x2f), (0x07, 0x61), (0x08, 0x62), (0x0c, 0x66), (0x0a, 0x6e),
    (0x0d, 0x72), (0x09, 0x74)]

/-- A turn of the loop of `String::formatAsUtf8` -/
def formatCharacter (c : UInt32) : Utf8.Result (List UInt8) :=
  match escapes.lookup c with
  | some x => .ok [0x5c, x]
  | none => encodeCodePoint c

def formatCharacters (i : List UInt8) : Utf8.Result (List UInt8) :=
  if i = [] then .ok []
  else match _hstep : decodeCodePoint i with
    | .error e => .error e
    | .ok (c, rest) => do
      let first ← formatCharacter c
      let others ← formatCharacters rest
      return first ++ others
termination_by i.length
decreasing_by exact length_lt_of_decodeCodePoint _hstep

/-- `firstLineIndent`, where there is any indent -/
def firstLine (firstLineIndent indentStep : Utf8String) : List UInt8 :=
  if indentStep.size ≠ 0 then firstLineIndent.value else []

/-- `sep` -/
def separator (indentStep : Utf8String) : List UInt8 := if indentStep.size ≠ 0 then bytes ['\n'] else []

/-- `String::formatAsUtf8` -/
def formatString (value : Utf8String) (firstLineIndent indentStep : Utf8String) :
    Utf8.Result (List UInt8) := do
  let characters ← formatCharacters value.value
  return firstLine firstLineIndent indentStep ++ bytes ['"'] ++ characters ++ bytes ['"']

def space : Utf8String := .ofCharacters (.single (show encodeCodePoint 0x20 = .ok [0x20] from rfl))

mutual

/-- `formatAsUtf8` of each class -/
def formatAsUtf8 : Tree → Utf8String → Utf8String → Utf8String → Utf8.Result (List UInt8)
  | null_, first, _, step => .ok (firstLine first step ++ bytes "null".toList)
  | true_, first, _, step => .ok (firstLine first step ++ bytes "true".toList)
  | false_, first, _, step => .ok (firstLine first step ++ bytes "false".toList)
  | string value_ _, first, _, step => formatString value_ first step
  | number value_ _, first, _, step => .ok (firstLine first step ++ bytes value_)
  | array [] _, first, _, step => .ok (firstLine first step ++ bytes ['['] ++ bytes [']'])
  | array (x :: xs) _, first, other, step => do
    let element ← x.formatAsUtf8 (other ++ step) (other ++ step) step
    let others ← formatElements xs other step
    return firstLine first step ++ bytes ['['] ++
      (separator step ++ element ++ others ++ separator step ++ other.value) ++ bytes [']']
  | object [] _, first, _, step => .ok (firstLine first step ++ bytes ['{'] ++ bytes ['}'])
  | object ((key, x) :: xs) _, first, other, step => do
    let name ← formatString key .empty .empty
    let value ← x.formatAsUtf8 space (other ++ step) step
    let others ← formatMembers xs other step
    return firstLine first step ++ bytes ['{'] ++
      (separator step ++ (other ++ step).value ++ name ++ bytes [':'] ++ value ++ others ++
        separator step ++ other.value) ++ bytes ['}']

/-- The loop of `Array::formatAsUtf8` -/
def formatElements : List Tree → Utf8String → Utf8String → Utf8.Result (List UInt8)
  | [], _, _ => .ok []
  | x :: xs, other, step => do
    let element ← x.formatAsUtf8 (other ++ step) (other ++ step) step
    let others ← formatElements xs other step
    return bytes [','] ++ separator step ++ element ++ others

/-- The loop of `Object::formatAsUtf8` -/
def formatMembers : List (Utf8String × Tree) → Utf8String → Utf8String → Utf8.Result (List UInt8)
  | [], _, _ => .ok []
  | (key, x) :: xs, other, step => do
    let name ← formatString key .empty .empty
    let value ← x.formatAsUtf8 space (other ++ step) step
    let others ← formatMembers xs other step
    return bytes [','] ++ separator step ++ (other ++ step).value ++ name ++ bytes [':'] ++ value ++
      others

end

/-- `format` -/
def format (e : Tree) (indent : Utf8String) : Utf8.Result Utf8String :=
  e.formatAsUtf8 .empty .empty indent >>= Utf8String.make

/-! ## Elements -/

mutual

/-- The element, wherever it comes from. -/
def plain : Tree → Tree
  | null_ => null_
  | true_ => true_
  | false_ => false_
  | string value_ _ => string value_ none
  | number value_ _ => number value_ none
  | array value_ _ => array (plainAll value_) none
  | object value_ _ => object (plainMembers value_) none

def plainAll : List Tree → List Tree
  | [] => []
  | x :: xs => x.plain :: plainAll xs

def plainMembers : List (Utf8String × Tree) → List (Utf8String × Tree)
  | [] => []
  | (key, x) :: xs => (key, x.plain) :: plainMembers xs

end

mutual

/-- The numbers are literals of JSON, and the members of each object are those of a map. -/
def Valid : Tree → Prop
  | null_ | true_ | false_ | string _ _ => True
  | number value_ _ => ∃ l : Literal, value_ = l.text
  | array value_ _ => ValidAll value_
  | object value_ _ => value_.Pairwise (fun x y => keyOf x < keyOf y) ∧ ValidMembers value_

def ValidAll : List Tree → Prop
  | [] => True
  | x :: xs => x.Valid ∧ ValidAll xs

def ValidMembers : List (Utf8String × Tree) → Prop
  | [] => True
  | (_, x) :: xs => x.Valid ∧ ValidMembers xs

end

end Tree

end Urnest.Json
