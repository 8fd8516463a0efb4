import Mathlib.Tactic.Common
import Urnest.Lib.BigEndian

/-!
# Type codes

The type codes of TypeCode.hcp: what createTypeCodeOf builds for a C++ type, and how it is
marshalled. A type code is a tree in which a recursive type is a `ReferenceTypeCode_`, a
pointer to an enclosing type code. A pointer is modelled by a number: every call of
createTypeCodeOf has one, counted from 0 in the order in which the types are written, and a
reference has the number of the call it points to the result of.

omniORB's `cdrStream` is a list of octets: values are aligned to their size, counted from the
start of the stream, and in the order of octets of the machine (`little`).
-/

namespace Urnest.TypeCode

open Lib

/-! ## Streams -/

/-- How far it is to the next multiple of `width` -/
def padding (width offset : Nat) : Nat := (width - offset % width) % width

/-- Octets to write, depending on where the stream is -/
abbrev Writer := Nat → List UInt8

/-- One after the other -/
def Writer.andThen (a b : Writer) : Writer := fun p => a p ++ b (p + (a p).length)

def aligned (width : Nat) (octets : List UInt8) : Writer :=
  fun p => List.replicate (padding width p) 0 ++ octets

def inOrder (little : Bool) (octets : List UInt8) : List UInt8 :=
  if little then octets.reverse else octets

/-- A `uint32_t`, or an `int32_t` of the same bits -/
def uLong (little : Bool) (x : Nat) : Writer := aligned 4 (inOrder little (toBytes 4 x))

/-- A `std::string` as it is marshalled, up to its NUL -/
structure CString where
  octets : List UInt8
  nul : 0 ∉ octets
deriving DecidableEq

def marshalString (little : Bool) (s : CString) : Writer :=
  (uLong little (s.octets.length + 1)).andThen fun _ => s.octets ++ [0]

def marshalStrings (little : Bool) : List CString → Writer
  | [] => fun _ => []
  | s :: ss => (marshalString little s).andThen (marshalStrings little ss)

/-- The octet with which an encapsulation begins -/
def byteOrder (little : Bool) : UInt8 := if little then 1 else 0

/-- An `EncapsulationCdrStream` that has `body` marshalled to it -/
def encapsulated (little : Bool) (body : Writer) : List UInt8 := byteOrder little :: body 1

def encapsulation (little : Bool) (body : Writer) : Writer :=
  (uLong little (encapsulated little body).length).andThen fun _ => encapsulated little body

/-- Subtraction of stream positions -/
def sub32 (a b : Nat) : Nat := (a + (2 ^ 32 - b % 2 ^ 32)) % 2 ^ 32

/-! ## Type codes -/

/-- The types of `BasicTypeCode` -/
inductive Basic where
  | short | long | longLong | uShort | uLong | uLongLong | float | double | longDouble
  | boolean | char | octet | wchar | typeCode
deriving DecidableEq

/-- `SequenceTypeCode` and `ArrayTypeCode` -/
inductive Repeated where
  | sequence | array
deriving DecidableEq

/-- `StructTypeCode` and `ExceptionTypeCode` -/
inductive Aggregate where
  | struct | except
deriving DecidableEq

/-- The rows of `TypeKind` that are used -/
inductive Kind where
  | void | any | basic (b : Basic) | string | enum | objRef | repeated (r : Repeated)
  | aggregate (a : Aggregate) | union | alias | reference
deriving DecidableEq

def Basic.kind : Basic → Nat
  | .short => 2
  | .long => 3
  | .uShort => 4
  | .uLong => 5
  | .float => 6
  | .double => 7
  | .boolean => 8
  | .char => 9
  | .octet => 10
  | .typeCode => 12
  | .longLong => 23
  | .uLongLong => 24
  | .longDouble => 25
  | .wchar => 26

def Kind.number : Kind → Nat
  | .void => 1
  | .any => 11
  | .basic b => b.kind
  | .objRef => 14
  | .aggregate .struct => 15
  | .union => 16
  | .enum => 17
  | .string => 18
  | .repeated .sequence => 19
  | .repeated .array => 20
  | .alias => 21
  | .aggregate .except => 22
  | .reference => 0xffffffff

/-- The type codes with no type codes in them -/
inductive Leaf where
  | void
  | any
  | basic (b : Basic)
  | string (maxSize : UInt32)
  | enum (repoId name : CString) (values : List CString)
  | ior (repoId name : CString)
deriving DecidableEq

mutual

inductive Code where
  | leaf (l : Leaf)
  /-- `bound` is `maxSize_` or `size_` -/
  | repeated (r : Repeated) (item : Code) (bound : UInt32)
  | aggregate (a : Aggregate) (repoId name : CString) (members : Members)
  | union (repoId name : CString) (descriminant : Code) (cases : Members)
      (indexOfDefaultCase : Option UInt32)
  | reference (j : Nat)

/-- The members of a structure, or the cases of a union: `label` is then the value of the
descriminant, as its `MemCdrStream` holds it. -/
inductive Members where
  | nil
  | cons (label : List UInt8) (name : CString) (type : Code) (rest : Members)

end

def Members.length : Members → Nat
  | .nil => 0
  | .cons _ _ _ rest => rest.length + 1

mutual

/-- What the calls of createTypeCodeOf give, in the order of their numbers -/
def Code.nodes : Code → List Code
  | .leaf l => [.leaf l]
  | .repeated r item bound => .repeated r item bound :: item.nodes
  | .aggregate a repoId name members => .aggregate a repoId name members :: members.nodes
  | .union repoId name descriminant cases d =>
    .union repoId name descriminant cases d :: (descriminant.nodes ++ cases.nodes)
  | .reference j => [.reference j]

def Members.nodes : Members → List Code
  | .nil => []
  | .cons _ _ type rest => type.nodes ++ rest.nodes

end

/-- How many octets `copyValue` copies of a descriminant. What IDL does not have as one
(structures, say) is left out. -/
def Code.width : Code → Option Nat
  | .leaf (.basic b) =>
    match b with
    | .boolean | .char | .octet => some 1
    | .short | .uShort => some 2
    | .long | .uLong => some 4
    | .longLong | .uLongLong => some 8
    | _ => none
  | .leaf (.enum _ _ _) => some 4
  | _ => none

/-! ## The order of type codes -/

/-- All that operator< looks at: the class of the type code referred to, and what its
`lessThan` compares -/
inductive Key where
  | void
  | any
  | basic (b : Basic)
  | string (maxSize : UInt32)
  | repeated (r : Repeated) (item : Key) (bound : UInt32)
  | aggregate (a : Aggregate) (repoId : CString)
  | union (repoId : CString)
  | enum (repoId : CString)
  | ior (repoId : CString)
deriving DecidableEq

def Key.kind : Key → Kind
  | .void => .void
  | .any => .any
  | .basic b => .basic b
  | .string _ => .string
  | .repeated r _ _ => .repeated r
  | .aggregate a _ => .aggregate a
  | .union _ => .union
  | .enum _ => .enum
  | .ior _ => .objRef

/-- operator<, with what is equal and greater: the classes (as std::type_index orders them),
then `lessThan` -/
def Key.compare (classes : Kind → Kind → Ordering) : Key → Key → Ordering
  | .repeated r i m, b =>
    (classes (.repeated r) b.kind).then <|
      match b with
      | .repeated _ j n => (i.compare classes j).then (Ord.compare m n)
      | _ => .eq
  | a, b =>
    (classes a.kind b.kind).then <|
      match a, b with
      | .string m, .string n => Ord.compare m n
      | .aggregate _ s, .aggregate _ t | .union s, .union t | .enum s, .enum t | .ior s, .ior t =>
        Ord.compare s.octets t.octets
      | _, _ => .eq

theorem octets_inj {s t : CString} : s.octets = t.octets ↔ s = t := by
  cases s
  cases t
  simp

/-- Neither is less only where they are the same, so that is when a map has one of them. -/
theorem Key.compare_eq_iff {classes : Kind → Kind → Ordering}
    (h : ∀ k k', classes k k' = .eq ↔ k = k') :
    ∀ a b : Key, a.compare classes b = .eq ↔ a = b
  | .repeated r i m, b => by
    cases b <;> simp [Key.compare, Ordering.then_eq_eq, h, Key.kind, Key.compare_eq_iff h i]
  | .void, b | .any, b | .basic _, b => by
    cases b <;> simp [Key.compare, h, Key.kind]
  | .string m, b => by
    cases b <;> simp [Key.compare, Ordering.then_eq_eq, h, Key.kind]
  | .aggregate a s, b | .union s, b | .enum s, b | .ior s, b => by
    cases b <;> simp [Key.compare, Ordering.then_eq_eq, h, Key.kind, octets_inj]

def Leaf.key : Leaf → Key
  | .void => .void
  | .any => .any
  | .basic b => .basic b
  | .string maxSize => .string maxSize
  | .enum repoId _ _ => .enum repoId
  | .ior repoId _ => .ior repoId

/-- A type code inside those of `enclosing`, each with its number. A sequence that had
itself as item would be compared for ever. -/
def Code.key (enclosing : List (Nat × Key)) : Code → Option Key
  | .leaf l => some l.key
  | .repeated r item bound => (item.key enclosing).map (.repeated r · bound)
  | .aggregate a repoId _ _ => some (.aggregate a repoId)
  | .union repoId _ _ _ _ => some (.union repoId)
  | .reference j => enclosing.lookup j

/-! ## marshal -/

/-- A stream, and the index of what is in it -/
structure Written where
  out : List UInt8
  index : List (Key × Nat)

def Written.put (s : Written) (w : Writer) : Written := ⟨s.out ++ w s.out.length, s.index⟩

def find (index : List (Key × Nat)) (k : Key) : Option Nat := index.lookup k

/-- `currentPosition` of an `OstreamIf`. For the stream itself `base` is 0. -/
def currentPosition (base : Nat) (out : List UInt8) : Nat := (base + out.length) % 2 ^ 32

/-- `base` of an encapsulation that is opened where its length will be: its stream has the
octet of the byte order already, which comes 4 further. -/
def innerBase (base offset : Nat) : Nat := base + offset + 4

/-- Before marshal_. The second of two equal type codes fails the assertion. -/
def enter (k : Key) (base : Nat) (s : Written) : Option Written :=
  if (find s.index k).isSome then none
  else some ⟨s.out, s.index ++ [(k, currentPosition base s.out)]⟩

/-- `EncapsulationTypeCodeOstream::marshal`, with its assertion -/
def close (little : Bool) (base : Nat) (s es : Written) : Option Written :=
  let s' := s.put ((uLong little es.out.length).andThen fun _ => es.out)
  if currentPosition base s'.out = currentPosition (innerBase base s.out.length) es.out then
    some ⟨s'.out, es.index⟩
  else none

/-- marshal_ of a leaf -/
def Leaf.marshal_ (little : Bool) (base : Nat) (s : Written) : Leaf → Option Written
  | .void => some (s.put (uLong little Kind.void.number))
  | .any => some (s.put (uLong little Kind.any.number))
  | .basic b => some (s.put (uLong little (Kind.basic b).number))
  | .string maxSize =>
    some ((s.put (uLong little Kind.string.number)).put (uLong little maxSize.toNat))
  | .enum repoId name values =>
    let s := s.put (uLong little Kind.enum.number)
    let es : Written := ⟨[byteOrder little], s.index⟩
    let es := (es.put (marshalString little repoId)).put (marshalString little name)
    close little base s
      ((es.put (uLong little values.length)).put (marshalStrings little values))
  | .ior repoId name =>
    let s := s.put (uLong little Kind.objRef.number)
    let es : Written := ⟨[byteOrder little], s.index⟩
    close little base s ((es.put (marshalString little repoId)).put (marshalString little name))

/-- `copyValue` of a descriminant, out of a stream that holds `label` -/
def copyLabel (width : Nat) (label : List UInt8) (s : Written) : Option Written :=
  if label.length < width then none else some (s.put (aligned width (label.take width)))

mutual

/-- `TypeCode_::marshal` of the type code with the number `i`. It is `none` where an
assertion fails (or where there is an exception). -/
def Code.marshal (little : Bool) :
    Code → Nat → List (Nat × Key) → Nat → Written → Option Written
  | .reference j, _, enclosing, base, s => do
    let k ← enclosing.lookup j
    let p ← find s.index k
    let s := s.put (uLong little 0xffffffff)
    some (s.put (uLong little (sub32 p (currentPosition base s.out))))
  | .leaf l, _, _, base, s => do
    let s ← enter l.key base s
    l.marshal_ little base s
  | .repeated r item bound, i, enclosing, base, s => do
    let k ← Code.key enclosing (.repeated r item bound)
    let s ← enter k base s
    let s := s.put (uLong little (Kind.repeated r).number)
    let es ← item.marshal little (i + 1) ((i, k) :: enclosing) (innerBase base s.out.length)
      ⟨[byteOrder little], s.index⟩
    close little base s (es.put (uLong little bound.toNat))
  | .aggregate a repoId name members, i, enclosing, base, s => do
    let s ← enter (.aggregate a repoId) base s
    let s := s.put (uLong little (Kind.aggregate a).number)
    let es : Written := ⟨[byteOrder little], s.index⟩
    let es := ((es.put (marshalString little repoId)).put (marshalString little name)).put
      (uLong little members.length)
    let es ← members.marshal little 0 (i + 1) ((i, .aggregate a repoId) :: enclosing)
      (innerBase base s.out.length) es
    close little base s es
  | .union repoId name descriminant cases d, i, enclosing, base, s => do
    let s ← enter (.union repoId) base s
    let s := s.put (uLong little Kind.union.number)
    let es : Written := ⟨[byteOrder little], s.index⟩
    let es := (es.put (marshalString little repoId)).put (marshalString little name)
    let es ← descriminant.marshal little (i + 1) ((i, .union repoId) :: enclosing)
      (innerBase base s.out.length) es
    let es := (es.put (uLong little ((d.map UInt32.toNat).getD 0xffffffff))).put
      (uLong little cases.length)
    let width ← descriminant.width
    let es ← cases.marshal little width (i + 1 + descriminant.nodes.length)
      ((i, .union repoId) :: enclosing) (innerBase base s.out.length) es
    close little base s es

/-- The loop over the members, or over the cases with labels of `width` octets -/
def Members.marshal (little : Bool) (width : Nat) :
    Members → Nat → List (Nat × Key) → Nat → Written → Option Written
  | .nil, _, _, _, s => some s
  | .cons label name type rest, i, enclosing, base, s => do
    let s ← copyLabel width label s
    let s ← type.marshal little i enclosing base (s.put (marshalString little name))
    rest.marshal little width (i + type.nodes.length) enclosing base s

end

/-! ## createTypeCodeOf -/

/-- C++ types that have type codes. `generated` are those that cxyany.py generates. -/
inductive CxxType where
  | void
  | basic (b : Basic)
  | string
  | any
  | vector (t : CxxType)
  | array (t : CxxType) (n : UInt32)
  | ior (repoId name : CString)
  | generated (id : Nat)
deriving DecidableEq

structure Case where
  label : List UInt8
  name : CString
  type : CxxType

inductive Declaration where
  | enum (repoId name : CString) (values : List CString)
  | aggregate (a : Aggregate) (repoId name : CString) (members : List (CString × CxxType))
  | union (repoId name : CString) (descriminant : CxxType) (cases : List Case)
      (indexOfDefaultCase : Option UInt32)

/-- How many octets a value of a union's descriminant has -/
def CxxType.width (declared : Nat → Option Declaration) : CxxType → Option Nat
  | .basic b => Code.width (.leaf (.basic b))
  | .generated id =>
    match declared id with
    | some (.enum ..) => some 4
    | _ => none
  | _ => none

/-- What there is in the IDL. A union's labels are marshalled values of its descriminant, and
its default case is one of its cases. -/
structure Declarations where
  declared : Nat → Option Declaration
  labels : ∀ {id repoId name t cases d}, declared id = some (.union repoId name t cases d) →
    ∃ width, t.width declared = some width ∧ ∀ c ∈ cases, c.label.length = width
  default : ∀ {id repoId name t cases d}, declared id = some (.union repoId name t cases d) →
    ∀ n ∈ d, n.toNat < cases.length

/-- The members of a generated type code, one after the other -/
def createMembers (create : CxxType → Nat → Option (Code × Nat)) :
    List Case → Nat → Option (Members × Nat)
  | [], i => some (.nil, i)
  | c :: cs, i => do
    let (type, i) ← create c.type i
    let (rest, i) ← createMembers create cs i
    some (.cons c.label c.name type rest, i)

/-- createTypeCodeOf in its call with the number `i`: `index` is the `TypeCodeRefIndex`, the
types being created, each with the number of its call. The result is with the number of the
call that comes next. -/
def createTypeCodeOf (types : Declarations) :
    Nat → CxxType → List (CxxType × Nat) → Nat → Option (Code × Nat)
  | 0, _, _, _ => none
  | n + 1, t, index, i =>
    match index.lookup t with
    | some j => some (.reference j, i + 1)
    | none =>
      let create := fun t' => createTypeCodeOf types n t' ((t, i) :: index)
      match t with
      | .void => some (.leaf .void, i + 1)
      | .basic b => some (.leaf (.basic b), i + 1)
      | .string => some (.leaf (.string 0), i + 1)
      | .any => some (.leaf .any, i + 1)
      | .ior repoId name => some (.leaf (.ior repoId name), i + 1)
      | .vector item => do
        let (item, i) ← create item (i + 1)
        some (.repeated .sequence item 0, i)
      | .array item size => do
        let (item, i) ← create item (i + 1)
        some (.repeated .array item size, i)
      | .generated id =>
        match types.declared id with
        | none => none
        | some (.enum repoId name values) => some (.leaf (.enum repoId name values), i + 1)
        | some (.aggregate a repoId name members) => do
          let (members, i) ←
            createMembers create (members.map fun m => ⟨[], m.1, m.2⟩) (i + 1)
          some (.aggregate a repoId name members, i)
        | some (.union repoId name descriminant cases d) => do
          let (descriminant, i) ← create descriminant (i + 1)
          let (cases, i) ← createMembers create cases i
          some (.union repoId name descriminant cases d, i)

/-- A type code that createTypeCodeOf makes for a type -/
def Created (types : Declarations) (t : CxxType) (c : Code) : Prop :=
  ∃ n i, createTypeCodeOf types n t [] 0 = some (c, i)

end Urnest.TypeCode
