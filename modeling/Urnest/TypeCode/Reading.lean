import Mathlib.Data.List.TakeWhile
import Urnest.TypeCode.Codes

/-!
# Reading type codes

`cdr<TypeCode>::unmarshalFrom`. Every call of `unmarshalTypeCodeFrom` adds an entry to the
index: the position it begins at, and, once it returns, what it read. A reference that is
read has the number of the entry its offset leads to; the destructor of `TypeCodeIstream`
makes it refer to what that entry has by then.
-/

namespace Urnest.TypeCode

open Lib

/-! ## Input -/

/-- A stream that is read -/
structure Input where
  little : Bool
  /-- `currentInputPtr` -/
  offset : Nat
  left : List UInt8

namespace Input

def take (width n : Nat) (i : Input) : Option (List UInt8 × Input) :=
  let skipped := padding width i.offset
  if i.left.length < skipped + n then none
  else some ((i.left.drop skipped).take n,
    ⟨i.little, i.offset + (skipped + n), i.left.drop (skipped + n)⟩)

def uLong (i : Input) : Option (Nat × Input) :=
  (i.take 4 4).map fun (octets, i) => (ofBytes (inOrder i.little octets), i)

/-- What is read of a C string -/
def cString (octets : List UInt8) : CString :=
  ⟨octets.takeWhile (· ≠ 0), fun h => by simpa using List.mem_takeWhile_imp h⟩

def string (i : Input) : Option (CString × Input) := do
  let (n, i) ← i.uLong
  if n = 0 then none
  else
    let (octets, i) ← i.take 1 n
    some (cString octets.dropLast, i)

def strings : Nat → Input → Option (List CString × Input)
  | 0, i => some ([], i)
  | n + 1, i => do
    let (s, i) ← i.string
    let (ss, i) ← strings n i
    some (s :: ss, i)

/-- An `EncapsulationCdrStream` out of the stream, and what is left of that. It is read
in its own order of octets. -/
def encapsulation (i : Input) : Option (Input × Input) := do
  let (n, i) ← i.uLong
  let (octets, i) ← i.take 1 n
  match octets with
  | [] => none
  | order :: body => some (⟨order ≠ 0, 1, body⟩, i)

end Input

/-! ## The index -/

/-- `entries` are pairs of a position and what the pointer beside it points to, and
`referred` the entries that there are references to. -/
structure Index where
  entries : List (Nat × Option Code)
  referred : List Nat

/-- std::lower_bound, for ascending positions -/
def lowerBound (entries : List (Nat × Option Code)) (p : Nat) : Nat :=
  entries.findIdx fun e => ! decide (e.1 < p)

/-- How an unmarshalling stops -/
inductive Stop where
  /-- by an exception, with what is in the index then -/
  | thrown (ix : Index)
  /-- by going beyond the calls that are allowed, or what is modelled -/
  | unfinished

def orThrow {α : Type} (ix : Index) : Option α → Except Stop α
  | none => .error (.thrown ix)
  | some a => .ok a

def Kind.all : List Kind :=
  [.void, .any, .string, .enum, .objRef, .repeated .sequence, .repeated .array,
    .aggregate .struct, .aggregate .except, .union, .alias, .reference] ++
  [Basic.short, .long, .longLong, .uShort, .uLong, .uLongLong, .float, .double, .longDouble,
    .boolean, .char, .octet, .wchar, .typeCode].map .basic

def Kind.ofNumber (n : Nat) : Option Kind := Kind.all.find? fun k => k.number = n

/-! ## unmarshalFrom -/

/-- `copyValue` of a descriminant to a `MemCdrStream`, whose order is the machine's -/
def readLabel (host : Bool) (width : Nat) (i : Input) : Option (List UInt8 × Input) :=
  (i.take width width).map fun (octets, i) =>
    (if i.little = host then octets else octets.reverse, i)

/-- The loop that reads members, or cases with labels of `width` octets -/
def readMembers (host : Bool) (width : Nat)
    (read : Input → Index → Except Stop (Code × Input × Index)) :
    Nat → Input → Index → Except Stop (Members × Input × Index)
  | 0, i, ix => .ok (.nil, i, ix)
  | n + 1, i, ix => do
    let (label, i) ← orThrow ix (readLabel host width i)
    let (name, i) ← orThrow ix i.string
    let (type, i, ix) ← read i ix
    let (rest, i, ix) ← readMembers host width read n i ix
    .ok (.cons label name type rest, i, ix)

/-- unmarshalTypeCodeFrom_, after the kind; `read` is unmarshalTypeCodeFrom with the `base`
of a stream. -/
def unmarshalTypeCodeFrom_ (host : Bool)
    (read : Nat → Input → Index → Except Stop (Code × Input × Index))
    (base : Nat) (k : Kind) (i : Input) (ix : Index) : Except Stop (Code × Input × Index) :=
  let inner := innerBase base i.offset
  match k with
  | .void => .ok (.leaf .void, i, ix)
  | .any => .ok (.leaf .any, i, ix)
  | .basic b => .ok (.leaf (.basic b), i, ix)
  | .string => do
    let (maxSize, i) ← orThrow ix i.uLong
    .ok (.leaf (.string (UInt32.ofNat maxSize)), i, ix)
  | .enum => do
    let (es, i) ← orThrow ix i.encapsulation
    let (repoId, es) ← orThrow ix es.string
    let (name, es) ← orThrow ix es.string
    let (n, es) ← orThrow ix es.uLong
    let (values, _) ← orThrow ix (es.strings n)
    .ok (.leaf (.enum repoId name values), i, ix)
  | .objRef => do
    let (es, i) ← orThrow ix i.encapsulation
    let (repoId, es) ← orThrow ix es.string
    let (name, _) ← orThrow ix es.string
    .ok (.leaf (.ior repoId name), i, ix)
  | .repeated r => do
    let (es, i) ← orThrow ix i.encapsulation
    let (item, es, ix) ← read inner es ix
    let (bound, _) ← orThrow ix es.uLong
    .ok (.repeated r item (UInt32.ofNat bound), i, ix)
  | .aggregate a => do
    let (es, i) ← orThrow ix i.encapsulation
    let (repoId, es) ← orThrow ix es.string
    let (name, es) ← orThrow ix es.string
    let (n, es) ← orThrow ix es.uLong
    let (members, _, ix) ← readMembers host 0 (read inner) n es ix
    .ok (.aggregate a repoId name members, i, ix)
  | .union => do
    let (es, i) ← orThrow ix i.encapsulation
    let (repoId, es) ← orThrow ix es.string
    let (name, es) ← orThrow ix es.string
    let (descriminant, es, ix) ← read inner es ix
    let (d, es) ← orThrow ix es.uLong
    let (n, es) ← orThrow ix es.uLong
    match descriminant.width with
    | none => .error .unfinished
    | some width =>
      let (cases, _, ix) ← readMembers host width (read inner) n es ix
      .ok (.union repoId name descriminant cases
        (if d < 2 ^ 31 then some (UInt32.ofNat d) else none), i, ix)
  | .alias => do
    let (es, i) ← orThrow ix i.encapsulation
    let (_, es) ← orThrow ix es.string
    let (_, es) ← orThrow ix es.string
    let (t, _, ix) ← read inner es ix
    .ok (t, i, ix)
  | .reference => do
    let (x, i) ← orThrow ix i.uLong
    -- the offset is counted from where it is itself, 4 before what is read next
    let p := ((base + i.offset) % 2 ^ 32 + x + (2 ^ 32 - 4)) % 2 ^ 32
    let j := lowerBound ix.entries p
    if (ix.entries[j]?).map Prod.fst = some p then
      .ok (.reference j, i, { ix with referred := j :: ix.referred })
    else .error (.thrown ix)

/-- unmarshalTypeCodeFrom, with at most so many calls inside each other -/
def unmarshalTypeCodeFrom (host : Bool) :
    Nat → Nat → Input → Index → Except Stop (Code × Input × Index)
  | 0, _, _, _ => .error .unfinished
  | n + 1, base, i, ix => do
    let entry := ix.entries.length
    let p := (base + i.offset) % 2 ^ 32
    let ix : Index := ⟨ix.entries ++ [(p, none)], ix.referred⟩
    let (k, i) ← orThrow ix i.uLong
    match Kind.ofNumber k with
    | none => .error (.thrown ix)
    | some k =>
      let (result, i, ix) ←
        unmarshalTypeCodeFrom_ host (unmarshalTypeCodeFrom host n) base k i ix
      .ok (result, i, ⟨ix.entries.set entry (p, some result), ix.referred⟩)

/-- The type code that a number stands for -/
def Index.at? (ix : Index) (j : Nat) : Option Code := (ix.entries[j]?).bind Prod.snd

/-- The assertion of ~TypeCodeIstream -/
def Index.resolves (ix : Index) : Prop := ∀ j ∈ ix.referred, (ix.at? j).isSome

inductive Outcome where
  | returned (c : Code) (i : Input) (ix : Index)
  | thrown
  | asserted
  | unfinished

instance (ix : Index) : Decidable ix.resolves := inferInstanceAs (Decidable (∀ j ∈ _, _))

/-- `cdr<TypeCode>::unmarshalFrom` -/
def unmarshalFrom (host : Bool) (n : Nat) (i : Input) : Outcome :=
  match unmarshalTypeCodeFrom host n 0 i ⟨[], []⟩ with
  | .ok (c, i, ix) => if ix.resolves then .returned c i ix else .asserted
  | .error (.thrown ix) => if ix.resolves then .thrown else .asserted
  | .error .unfinished => .unfinished

/-! ## Equality -/

/-- `equals` of a class without type codes in it -/
def Leaf.equals (a b : Leaf) : Bool := a.key = b.key

/-- operator==, of type codes whose references are to what `x?` and `y?` give: none where
`n` calls are not enough. The items of sequences are compared the other way round. -/
def equals : Nat → (Nat → Option Code) → (Nat → Option Code) → Code → Code → Option Bool
  | 0, _, _, _, _ => none
  | n + 1, x?, y?, .reference j, b => (x? j).bind fun a => equals n x? y? a b
  | n + 1, x?, y?, .repeated r item bound, .repeated r' item' bound' =>
    if r = r' ∧ bound = bound' then equals n y? x? item' item else some false
  | _ + 1, _, _, .leaf a, .leaf b => some (a.equals b)
  | _ + 1, _, _, .aggregate a repoId _ _, .aggregate a' repoId' _ _ =>
    some (a = a' ∧ repoId = repoId')
  | _ + 1, _, _, .union repoId _ _ _ _, .union repoId' _ _ _ _ => some (repoId = repoId')
  | _ + 1, _, _, _, _ => some false

end Urnest.TypeCode
