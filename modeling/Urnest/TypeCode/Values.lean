import Urnest.TypeCode.Comparison

/-!
# Values

`copyValue` of TypeCode.hcp, which copies a value from one stream to another by what a type
code says of its type, and the static codecs, which marshal a value by its C++ type: those
of cdr.hcp, and those that cxycdr.py generates. The two meet in `Marshals`, the values of
the C++ types with what their codecs write.

The two generators see a union differently. For cxyany.py its default case is the last one,
and has no label. For cxycdr.py, where the union is switched on an enumeration, it has the
label that the front end of the IDL compiler reports, one enumerator.
-/

namespace Urnest.TypeCode

open Lib

/-! ## copyValue -/

/-- The profiles of an object reference, as omniORB marshals and unmarshals them -/
structure Orb where
  Profiles : Type
  write : Bool → Profiles → Writer
  read : Input → Option (Profiles × Input)

/-- What is unmarshalled is what was marshalled. -/
def Orb.ReadsBack (orb : Orb) : Prop :=
  ∀ (little : Bool) (x : orb.Profiles) (p : Nat) (rest : List UInt8),
    orb.read ⟨little, p, orb.write little x p ++ rest⟩ =
      some (x, ⟨little, p + (orb.write little x p).length, rest⟩)

def Basic.size : Basic → Nat
  | .boolean | .char | .octet => 1
  | .short | .uShort => 2
  | .long | .uLong | .float | .wchar => 4
  | .longLong | .uLongLong | .double => 8
  | .longDouble => 16
  | .typeCode => 0

/-- No value is aligned to more than 8. -/
def Basic.alignment (b : Basic) : Nat := min 8 b.size

/-- What a variable of the type holds, of what is read: a `bool` is true for all but 0. -/
def Basic.held (b : Basic) (octets : List UInt8) : List UInt8 :=
  if b = .boolean then octets.map fun x => if x = 0 then 0 else 1 else octets

/-- Octets in the order of one machine, in that of the other -/
def reorder (host little : Bool) (octets : List UInt8) : List UInt8 :=
  if little = host then octets else octets.reverse

/-- What copying gives: what is left to read, and what is written by then -/
abbrev Copied := Option (Input × List UInt8)

def copyOctets (host : Bool) (alignment size : Nat) (held : List UInt8 → List UInt8) (i : Input)
    (out : List UInt8) : Copied := do
  let (octets, i') ← i.take alignment size
  some (i', out ++ aligned alignment (held (reorder host i.little octets)) out.length)

/-- A type code is unmarshalled, and marshalled. -/
def copyTypeCode (host : Bool) (n : Nat) (i : Input) (out : List UInt8) :
    Option (Code × Index × Input × List UInt8) :=
  match unmarshalFrom host n i with
  | .returned c i ix =>
    (c.marshal host 0 [] 0 ⟨out, []⟩).map fun s => (c, ix, i, s.out)
  | _ => none

/-- The loops over items and members -/
def copyEach (copy : Code → Input → List UInt8 → Copied) :
    List Code → Input → List UInt8 → Copied
  | [], i, out => some (i, out)
  | c :: cs, i, out => do
    let (i, out) ← copy c i out
    copyEach copy cs i out

/-- The loop of `UnionTypeCode::copyValue`, from the case with the number `k`: the default
case is left out. -/
def Members.caseOf (indexOfDefaultCase : Option UInt32) (label : List UInt8) :
    Nat → Members → Option Code
  | _, .nil => none
  | k, .cons l _ type rest =>
    if indexOfDefaultCase.map UInt32.toNat = some k then
      rest.caseOf indexOfDefaultCase label (k + 1)
    else if l = label then some type
    else rest.caseOf indexOfDefaultCase label (k + 1)

/-- The type that is copied after a descriminant -/
def Members.selected (cases : Members) (indexOfDefaultCase : Option UInt32)
    (label : List UInt8) : Option Code :=
  (cases.caseOf indexOfDefaultCase label 0).orElse fun _ =>
    indexOfDefaultCase.bind fun d => cases.types[d.toNat]?

/-- copyValue, with at most so many calls inside each other. References are to what `target`
gives. It is `none` where there is an exception, or an assertion fails. -/
def copyValue (orb : Orb) (host : Bool) :
    Nat → (Nat → Option Code) → Code → Input → List UInt8 → Copied
  | 0, _, _, _, _ => none
  | n + 1, _, .leaf l, i, out =>
    match l with
    | .void => some (i, out)
    | .any => do
      let (t, ix, i, out) ← copyTypeCode host n i out
      copyValue orb host n ix.at? t i out
    | .basic b =>
      if b = .typeCode then (copyTypeCode host n i out).map fun r => r.2.2
      else copyOctets host b.alignment b.size b.held i out
    | .string _ => do
      let (s, i) ← i.string
      some (i, out ++ marshalString host s out.length)
    | .enum _ _ _ => copyOctets host 4 4 id i out
    | .ior _ _ => do
      let (repoId, i) ← i.string
      let (profiles, i) ← orb.read i
      some (i, out ++
        (marshalString host repoId).andThen (orb.write host profiles) out.length)
  | n + 1, target, .repeated r item size, i, out =>
    match r with
    | .sequence => do
      let (size, i) ← i.uLong
      copyEach (copyValue orb host n target) (List.replicate size item) i
        (out ++ uLong host size out.length)
    | .array => copyEach (copyValue orb host n target) (List.replicate size.toNat item) i out
  | n + 1, target, .aggregate _ _ _ members, i, out =>
    copyEach (copyValue orb host n target) members.types i out
  | n + 1, target, .union _ _ descriminant cases indexOfDefaultCase, i, out => do
    let (i, d) ← copyValue orb host n target descriminant i []
    let (_, out) ← copyValue orb host n target descriminant ⟨host, 0, d⟩ out
    copyEach (copyValue orb host n target) (cases.selected indexOfDefaultCase d).toList i out
  | n + 1, target, .reference j, i, out => do
    let c ← target j
    copyValue orb host n target c i out

/-! ## The static codecs -/

/-- Values of the C++ types. A number is as it stands in a stream, in the machine's order,
and an `any` says the C++ type that it has a value of. -/
inductive Value (orb : Orb) where
  | void
  | octets (octets : List UInt8)
  | string (s : CString)
  | typeCode (c : Code)
  | ior (repoId : CString) (profiles : orb.Profiles)
  | any (t : CxxType) (c : Code) (v : Value orb)
  /-- the items of a sequence or array, or the members of a structure or exception -/
  | items (vs : List (Value orb))
  /-- the union with the number `id`, with the descriminant and the members that go with it -/
  | union (id : Nat) (label : List UInt8) (members : List (Value orb))

def CxxType.isEnum (types : Declarations) : CxxType → Bool
  | .generated id =>
    match types.declared id with
    | some (.enum ..) => true
    | _ => false
  | _ => false

/-- The case that a label is of, of those from the number `k` that are not the default -/
def caseOf (indexOfDefaultCase : Option UInt32) (label : List UInt8) :
    Nat → List Case → Option Case
  | _, [] => none
  | k, c :: cs =>
    if indexOfDefaultCase.map UInt32.toNat = some k then
      caseOf indexOfDefaultCase label (k + 1) cs
    else if c.label = label then some c
    else caseOf indexOfDefaultCase label (k + 1) cs

/-- gen_enum_union and gen_non_enum_union: the types of the members that go with a label.
`reported` is what the front end gives as the value of the default's label, in a union that
is switched on an enumeration: there the default's member goes with this label only. -/
def caseTypes (types : Declarations) (reported : List UInt8) (descriminant : CxxType)
    (cases : List Case) (indexOfDefaultCase : Option UInt32) (label : List UInt8) :
    List CxxType :=
  match caseOf indexOfDefaultCase label 0 cases with
  | some c => [c.type]
  | none =>
    if descriminant.isEnum types ∧ label ≠ reported then []
    else (indexOfDefaultCase.bind fun d => cases[d.toNat]?).toList.map Case.type

section

variable (orb : Orb) (types : Declarations) (reported : Nat → List UInt8) (host : Bool)

mutual

/-- A value of a C++ type, and what its static codec writes. `reported` has the labels of
the defaults of unions by the unions' numbers. -/
inductive Marshals : CxxType → Value orb → Writer → Prop
  | void : Marshals .void .void fun _ => []
  | basic (b : Basic) {octets : List UInt8} (hb : b ≠ .typeCode) (hsize : octets.length = b.size)
      (hheld : b.held octets = octets) :
      Marshals (.basic b) (.octets octets) (aligned b.alignment octets)
  | string (s : CString) : Marshals .string (.string s) (marshalString host s)
  | typeCode {t : CxxType} {c : Code} {w : Writer} (hc : Created types t c)
      (h : ∀ out, ∃ index, c.marshal host 0 [] 0 ⟨out, []⟩ = some ⟨out ++ w out.length, index⟩) :
      Marshals (.basic .typeCode) (.typeCode c) w
  | ior (repoId name : CString) (s : CString) (profiles : orb.Profiles) :
      Marshals (.ior repoId name) (.ior s profiles)
        ((marshalString host s).andThen (orb.write host profiles))
  | any {t : CxxType} {c : Code} {v : Value orb} {w w' : Writer} (hc : Created types t c)
      (h : ∀ out, ∃ index, c.marshal host 0 [] 0 ⟨out, []⟩ = some ⟨out ++ w out.length, index⟩)
      (hv : Marshals t v w') : Marshals .any (.any t c v) (w.andThen w')
  | vector {t : CxxType} {vs : List (Value orb)} {w : Writer} (hsize : vs.length < 2 ^ 32)
      (hvs : MarshalsEach (List.replicate vs.length t) vs w) :
      Marshals (.vector t) (.items vs) ((uLong host vs.length).andThen w)
  | array {t : CxxType} {n : UInt32} {vs : List (Value orb)} {w : Writer}
      (hvs : MarshalsEach (List.replicate n.toNat t) vs w) :
      Marshals (.array t n) (.items vs) w
  | enum {id : Nat} {repoId name : CString} {values : List CString}
      (hdeclared : types.declared id = some (.enum repoId name values)) {k : Nat}
      (hk : k < values.length) :
      Marshals (.generated id) (.octets (inOrder host (toBytes 4 k)))
        (aligned 4 (inOrder host (toBytes 4 k)))
  | aggregate {id : Nat} {a : Aggregate} {repoId name : CString}
      {members : List (CString × CxxType)}
      (hdeclared : types.declared id = some (.aggregate a repoId name members))
      {vs : List (Value orb)} {w : Writer} (hvs : MarshalsEach (members.map Prod.snd) vs w) :
      Marshals (.generated id) (.items vs) w
  | union {id : Nat} {repoId name : CString} {descriminant : CxxType} {cases : List Case}
      {indexOfDefaultCase : Option UInt32}
      (hdeclared : types.declared id =
        some (.union repoId name descriminant cases indexOfDefaultCase))
      {label : List UInt8} {vs : List (Value orb)} {w w' : Writer}
      (hlabel : Marshals descriminant (.octets label) w)
      (hvs : MarshalsEach
        (caseTypes types (reported id) descriminant cases indexOfDefaultCase label) vs w') :
      Marshals (.generated id) (.union id label vs) (w.andThen w')

/-- One value of each of the types, one after the other -/
inductive MarshalsEach : List CxxType → List (Value orb) → Writer → Prop
  | nil : MarshalsEach [] [] fun _ => []
  | cons {t : CxxType} {ts : List CxxType} {v : Value orb} {vs : List (Value orb)}
      {w ws : Writer} (hv : Marshals t v w) (hvs : MarshalsEach ts vs ws) :
      MarshalsEach (t :: ts) (v :: vs) (w.andThen ws)

end

end

mutual

/-- The unions in a value, with their labels -/
def Value.unions {orb : Orb} : Value orb → List (Nat × List UInt8)
  | .any _ _ v => v.unions
  | .items vs => unionsIn vs
  | .union id label vs => (id, label) :: unionsIn vs
  | _ => []

def unionsIn {orb : Orb} : List (Value orb) → List (Nat × List UInt8)
  | [] => []
  | v :: vs => v.unions ++ unionsIn vs

end

/-! ## When it is exact -/

/-- A union with this label has no member for its static codec, and the default's for its
type code. -/
def DefaultLost (types : Declarations) (reported : Nat → List UInt8) (id : Nat)
    (label : List UInt8) : Prop :=
  ∃ repoId name descriminant cases d,
    types.declared id = some (.union repoId name descriminant cases (some d)) ∧
      descriminant.isEnum types = true ∧ label ≠ reported id ∧
        caseOf (some d) label 0 cases = none

/-- A value of the type has an octet at least. In IDL structures have members, arrays have
items, and nothing else is a member of a union. -/
inductive TakesOctets (types : Declarations) : CxxType → Prop
  | basic (b : Basic) : TakesOctets types (.basic b)
  | string : TakesOctets types .string
  | any : TakesOctets types .any
  | ior (repoId name : CString) : TakesOctets types (.ior repoId name)
  | vector (t : CxxType) : TakesOctets types (.vector t)
  | array {t : CxxType} {n : UInt32} (hn : n.toNat ≠ 0) (h : TakesOctets types t) :
      TakesOctets types (.array t n)
  | enum {id : Nat} {repoId name : CString} {values : List CString}
      (hdeclared : types.declared id = some (.enum repoId name values)) :
      TakesOctets types (.generated id)
  | aggregate {id : Nat} {a : Aggregate} {repoId name : CString} {m : CString × CxxType}
      {members : List (CString × CxxType)}
      (hdeclared : types.declared id = some (.aggregate a repoId name (m :: members)))
      (h : TakesOctets types m.2) : TakesOctets types (.generated id)
  | union {id : Nat} {repoId name : CString} {descriminant : CxxType} {cases : List Case}
      {d : Option UInt32}
      (hdeclared : types.declared id = some (.union repoId name descriminant cases d))
      (h : TakesOctets types descriminant) : TakesOctets types (.generated id)

/-- With `n` calls inside each other, from where it stands in any stream to the end of any
other, a value that was marshalled by `w` is copied: exactly its octets are read, and it is
marshalled by `w` again. -/
def CopiesWithin (orb : Orb) (host : Bool) (target : Nat → Option Code) (n : Nat) (c : Code)
    (w : Writer) : Prop :=
  ∀ (p : Nat) (rest out : List UInt8), p + (w p).length < 2 ^ 31 →
    copyValue orb host n target c ⟨host, p, w p ++ rest⟩ out =
      some (⟨host, p + (w p).length, rest⟩, out ++ w out.length)

/-- It is, with as many calls as it takes. -/
def CopiesExactly (orb : Orb) (host : Bool) (target : Nat → Option Code) (c : Code)
    (w : Writer) : Prop :=
  ∃ N, ∀ n ≥ N, CopiesWithin orb host target n c w

end Urnest.TypeCode
