import Urnest.JsonCodec.Validators

/-!
# Validators, and what they are to say

A `Validator` is how an `isInstance` and an `asInstance` are built, both the same way. Its
`Reading` is the two, and beside them what they are to make of a value: the properties that are
`missing` from it and have a default, if it is valid. `Met` says that the validator, coming to
the parts of the value up to where it can stop, meets neither an object with a property
`hasOwnProperty` nor a key that is the text of a literal array or object.
-/

namespace Urnest.JsonCodec

variable {Number : Type} (host : Host Number)

/-! ## Applying defaults -/

abbrev Properties (Number : Type) := List (String × Value Number)

/-- The object at a place changes. -/
def Value.update (f : Properties Number → Properties Number) :
    List Step → Value Number → Value Number
  | [], .object properties => .object (f properties)
  | .item i :: path, .array xs => .array (xs.modify i (Value.update f path))
  | .property name :: path, .object properties => .object (properties.map fun x =>
      if x.1 = name then (x.1, Value.update f path x.2) else x)
  | _, x => x

def applyDefaults (ds : Defaults Number) (x : Value Number) : Value Number :=
  ds.foldl (fun x d => x.update d.assign d.path) x

/-- An own property -/
def Default.add (d : Default Number) (properties : Properties Number) : Properties Number :=
  if d.propertyName ∈ properties.map Prod.fst then
    properties.map fun x => if x.1 = d.propertyName then (x.1, d.defaultValue) else x
  else properties ++ [(d.propertyName, d.defaultValue)]

/-- The value with the defaults as properties of its own -/
def added (ds : Defaults Number) (x : Value Number) : Value Number :=
  ds.foldl (fun x d => x.update d.add d.path) x

/-- The default is for a property that the object at its place in the value does not have. -/
inductive Missing : Value Number → Default Number → Prop where
  | here {properties : Properties Number} {propertyName : String} {defaultValue : Value Number}
    (h : propertyName ∉ properties.map Prod.fst) :
    Missing (.object properties) ⟨[], propertyName, defaultValue⟩
  | item {xs : List (Value Number)} {i : Nat} {x : Value Number} {d : Default Number}
    (hx : xs[i]? = some x) (h : Missing x d) :
    Missing (.array xs) { d with path := .item i :: d.path }
  | property {properties : Properties Number} {name : String} {x : Value Number}
    {d : Default Number} (hx : (name, x) ∈ properties) (h : Missing x d) :
    Missing (.object properties) { d with path := .property name :: d.path }

/-! ## Keys -/

inductive Key (Number : Type) where
  | string
  | stringPattern (pattern : String → Bool)
  | float
  | int
  | bool
  | null
  | literal (literalValue : Value Number)
  | union (alternatives : List (Key Number))

structure KeyReading where
  isKey : IsKey
  asKey : AsKey
  Met : String → Prop

/-- Up to the alternative that takes the key -/
def KeyReading.MetUntil (x : String) : List KeyReading → Prop
  | [] => True
  | r :: rs => r.Met x ∧ (r.isKey x = false → MetUntil x rs)

def KeyReading.literal (literalValue : Value Number) : KeyReading where
  isKey := isKeyOfLiteral host literalValue
  asKey := asKeyOfLiteral host literalValue
  Met x := isArray literalValue ∨ isNonArrayObject literalValue →
    ∀ y, host.parse x = some y → assertEqual host y literalValue = false

def KeyReading.union (alternatives : List KeyReading) : KeyReading where
  isKey := isKeyOfUnion (alternatives.map isKey)
  asKey := asKeyOfUnion (alternatives.map asKey)
  Met x := MetUntil x alternatives

mutual

def Key.reading : Key Number → KeyReading
  | .string => ⟨isKeyOfString, asKeyOfString, fun _ => True⟩
  | .stringPattern pattern =>
    ⟨isKeyOfStringPattern pattern, asKeyOfStringPattern pattern, fun _ => True⟩
  | .float => ⟨isKeyOfFloat host, asKeyOfFloat host, fun _ => True⟩
  | .int => ⟨isKeyOfInt host, asKeyOfInt host, fun _ => True⟩
  | .bool => ⟨isKeyOfBool, asKeyOfBool, fun _ => True⟩
  | .null => ⟨isKeyOfNull, asKeyOfNull, fun _ => True⟩
  | .literal literalValue => .literal host literalValue
  | .union alternatives => .union (keyReadings alternatives)

def keyReadings : List (Key Number) → List KeyReading
  | [] => []
  | key :: keys => key.reading :: keyReadings keys

end

/-! ## Validators -/

inductive Validator (Number : Type) where
  | string
  | stringPattern (pattern : String → Bool)
  | float
  | int
  | bool
  | null
  | literal (literalValue : Value Number)
  | any
  | list (itemType : Validator Number)
  | bytes
  | anyList
  | union (alternatives : List (Validator Number))
  | dict (key : Key Number) (value : Validator Number)
  | anyDict
  | tuple (items : List (Validator Number))
  | class_ (className : String)
    (items : List (String × Validator Number × Option (Value Number)))

structure Reading (Number : Type) where
  isInstance : IsInstance Number
  asInstance : AsInstance Number
  /-- `none` where the value is not valid -/
  missing : Value Number → Option (Defaults Number)
  Met : Value Number → Prop

/-- All that is missing, if each part is valid -/
def joined : List (Option (Defaults Number)) → Option (Defaults Number)
  | [] => some []
  | m :: ms => m.bind fun ds => (joined ms).map (ds ++ ·)

/-- Up to the part that is not valid -/
def Along {α : Type} (met : α → Prop) (missing : α → Option (Defaults Number)) : List α → Prop
  | [] => True
  | x :: xs => met x ∧ ((missing x).isSome → Along met missing xs)

namespace Reading

/-- Valid by a test alone -/
def of (p : Value Number → Bool) : Reading Number where
  isInstance := isInstanceIf p
  asInstance := asInstanceIf p
  missing x := if p x then some applyNoDefaults else none
  Met _ := True

/-- The parts of a tuple, or of a list, each with its reading and its place -/
def missingAt (x : (Reading Number × Value Number) × Nat) : Option (Defaults Number) :=
  (x.1.1.missing x.1.2).map (under (.item x.2))

def list (item : Reading Number) : Reading Number where
  isInstance := isInstanceOfList item.isInstance
  asInstance := asInstanceOfList item.asInstance
  missing
    | .array xs => joined (xs.zipIdx.map fun x => missingAt ((item, x.1), x.2))
    | _ => none
  Met
    | .array xs =>
      Along (fun x => item.Met x.1) (fun x => missingAt ((item, x.1), x.2)) xs.zipIdx
    | _ => True

def bytes : Reading Number where
  isInstance := isInstanceOfBytes host
  asInstance := asInstanceOfBytes host
  missing
    | .array xs =>
      if xs.all (isNumber fun x => host.isWhole x && !host.outOfByte x) then some applyNoDefaults
      else none
    | _ => none
  Met _ := True

/-- Up to the alternative that the value is valid for -/
def MetUntil (x : Value Number) : List (Reading Number) → Prop
  | [] => True
  | r :: rs => r.Met x ∧ (r.missing x = none → MetUntil x rs)

def union (alternatives : List (Reading Number)) : Reading Number where
  isInstance := isInstanceOfUnion (alternatives.map isInstance)
  asInstance := asInstanceOfUnion (alternatives.map asInstance)
  missing x := alternatives.findSome? fun r => r.missing x
  Met x := MetUntil x alternatives

def missingProperty (key : KeyReading) (value : Reading Number) (x : String × Value Number) :
    Option (Defaults Number) :=
  if key.isKey x.1 then (value.missing x.2).map (under (.property x.1)) else none

def dict (key : KeyReading) (value : Reading Number) : Reading Number where
  isInstance := isInstanceOfDict key.isKey value.isInstance
  asInstance := asInstanceOfDict key.asKey value.asInstance
  missing
    | .object properties => joined (properties.map (missingProperty key value))
    | _ => none
  Met
    | .object properties => "hasOwnProperty" ∉ properties.map Prod.fst ∧
      Along (fun x => key.Met x.1 ∧ (key.isKey x.1 → value.Met x.2)) (missingProperty key value)
        properties
    | _ => True

def tuple (items : List (Reading Number)) : Reading Number :=
  match items with
  | [item] => list item
  | _ =>
    { isInstance := isInstanceOfTuple (items.map isInstance)
      asInstance := asInstanceOfTuple (items.map asInstance)
      missing := fun
        | .array xs =>
          if xs.length ≠ items.length then none
          else joined ((items.zip xs).zipIdx.map missingAt)
        | _ => none
      Met := fun
        | .array xs => xs.length = items.length →
          Along (fun x => x.1.1.Met x.1.2) missingAt (items.zip xs).zipIdx
        | _ => True }

def missingItem (properties : Properties Number) (item : Property (Reading Number) Number) :
    Option (Defaults Number) :=
  match properties.lookup item.1 with
  | some x => (item.2.1.missing x).map (under (.property item.1))
  | none => item.2.2.map fun defaultValue => [⟨[], item.1, defaultValue⟩]

/-- The same with one of the functions of each property's validator -/
def each {V : Type} (f : Reading Number → V) (items : List (Property (Reading Number) Number)) :
    List (Property V Number) := items.map fun item => (item.1, f item.2.1, item.2.2)

def class_ (items : List (Property (Reading Number) Number)) : Reading Number where
  isInstance := isInstanceOfClass (each isInstance items)
  asInstance := asInstanceOfClass (each asInstance items)
  missing
    | .object properties => joined (items.map (missingItem properties))
    | _ => none
  Met
    | .object properties => (items ≠ [] → "hasOwnProperty" ∉ properties.map Prod.fst) ∧
      Along (fun item => ∀ x, properties.lookup item.1 = some x → item.2.1.Met x)
        (missingItem properties) items
    | _ => True

end Reading

mutual

def Validator.reading : Validator Number → Reading Number
  | .string => .of (isString fun _ => true)
  | .stringPattern pattern => .of (isString pattern)
  | .float => .of (isNumber fun _ => true)
  | .int => .of (isNumber host.isWhole)
  | .bool => .of isBool
  | .null => .of isNull
  | .literal literalValue => .of fun x => assertEqual host x literalValue
  | .any => .of fun _ => true
  | .list itemType => .list itemType.reading
  | .bytes => .bytes host
  | .anyList => .of isArray
  | .union alternatives => .union (readings alternatives)
  | .dict key value => .dict (key.reading host) value.reading
  | .anyDict => .of isNonArrayObject
  | .tuple items => .tuple (readings items)
  | .class_ _ items => .class_ (propertyReadings items)

def readings : List (Validator Number) → List (Reading Number)
  | [] => []
  | t :: ts => t.reading :: readings ts

def propertyReadings : List (String × Validator Number × Option (Value Number)) →
    List (Property (Reading Number) Number)
  | [] => []
  | (name, t, defaultValue) :: items =>
    (name, t.reading, defaultValue) :: propertyReadings items

end

end Urnest.JsonCodec
