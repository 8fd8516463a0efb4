import Mathlib.Data.List.Basic
import Mathlib.Data.List.Perm.Basic

/-!
# The TypeScript validators

The combinators of json_codec.ts. An `isInstance` returns false (`none`) or what
`applyDefaults` is to do; an `asInstance.f` throws where it does not return that. Only
`applyDefaults` assigns to anything, so a default that is delayed is an entry that says where
in the value it goes (`Default`), and a value is a plain tree. The texts of what is thrown, and
the names of the types, are left out.

`x.hasOwnProperty` is the property of that name of `x` itself if it has one, and that is no
function: `hasOwnProperty` throws then. Assigning to `__proto__` adds no property
(`Default.assign`).

Numbers, and what is said of them and read from strings, are those of the host (`Host`).
-/

namespace Urnest.JsonCodec

/-- What `JSON.parse` returns -/
inductive Value (Number : Type) where
  | null
  | bool (x : Bool)
  | number (x : Number)
  | string (x : String)
  | array (items : List (Value Number))
  | object (properties : List (String × Value Number))

/-- The numbers of the language, and what it does with them -/
structure Host (Number : Type) where
  /-- `x % 1 == 0` -/
  isWhole : Number → Bool
  /-- `x < 0 || x > 255` -/
  outOfByte : Number → Bool
  /-- `x === y` -/
  same : Number → Number → Bool
  isNaN : Number → Bool
  parseFloat : String → Number
  /-- `JSON.parse`, if it does not throw -/
  parse : String → Option (Value Number)
  /-- `NaN % 1` is `NaN`. -/
  isWhole_of_isNaN : ∀ x, isNaN x → isWhole x = false

inductive Thrown where
  /-- `x.hasOwnProperty` is not a function. -/
  | typeError
  | error
  deriving DecidableEq

abbrev Result := Except Thrown

inductive Step where
  | item (i : Nat)
  | property (name : String)
  deriving DecidableEq

/-- A property that `applyDefaults` is to set, of the object that is at a place in the value -/
structure Default (Number : Type) where
  path : List Step
  propertyName : String
  defaultValue : Value Number

abbrev Defaults (Number : Type) := List (Default Number)

variable {Number : Type} (host : Host Number)

/-- `x[propertyName] = defaultValue` -/
def Default.assign (d : Default Number) (properties : List (String × Value Number)) :
    List (String × Value Number) :=
  if d.propertyName = "__proto__" then properties
  else if d.propertyName ∈ properties.map Prod.fst then
    properties.map fun x => if x.1 = d.propertyName then (x.1, d.defaultValue) else x
  else properties ++ [(d.propertyName, d.defaultValue)]

/-- The defaults of what is at a step within a value -/
def under (step : Step) (ds : Defaults Number) : Defaults Number :=
  ds.map fun d => { d with path := step :: d.path }

abbrev IsInstance (Number : Type) := Value Number → Result (Option (Defaults Number))
abbrev AsInstance (Number : Type) := Value Number → Result (Defaults Number)
abbrev IsKey := String → Bool
abbrev AsKey := String → Result Unit

def applyNoDefaults : Defaults Number := []

/-- `asInstanceInContext` and `asKeyInContext` -/
def inContext {α β : Type} (f : α → Result β) : α → Result β := fun x =>
  match f x with
  | .ok r => .ok r
  | .error _ => .error .error

def hasOwnProperty (properties : List (String × Value Number)) (name : String) : Result Bool :=
  if "hasOwnProperty" ∈ properties.map Prod.fst then .error .typeError
  else .ok (name ∈ properties.map Prod.fst)

mutual

/-- `assertEqual`, whether it returns -/
def assertEqual : Value Number → Value Number → Bool
  | .array xs, .array ys => assertItemsEqual xs ys
  | .object xs, .object ys =>
    -- it asks each property of both whether it is their own
    !("hasOwnProperty" ∈ xs.map Prod.fst || "hasOwnProperty" ∈ ys.map Prod.fst) &&
      (xs.map Prod.fst).isPerm (ys.map Prod.fst) && assertPropertiesEqual xs ys
  | .null, .null => true
  | .bool x, .bool y => x = y
  | .number x, .number y => host.same x y
  | .string x, .string y => x = y
  | _, _ => false

def assertItemsEqual : List (Value Number) → List (Value Number) → Bool
  | [], [] => true
  | x :: xs, y :: ys => assertEqual x y && assertItemsEqual xs ys
  | _, _ => false

def assertPropertiesEqual : List (String × Value Number) → List (String × Value Number) → Bool
  | [], _ => true
  | (name, x) :: xs, ys =>
    (match ys.lookup name with
      | none => false
      | some y => assertEqual x y) && assertPropertiesEqual xs ys

end

/-- `x === y`, where `x` is what has just been parsed: no object is identical to it. -/
def identical : Value Number → Value Number → Bool
  | .null, .null => true
  | .bool x, .bool y => x = y
  | .number x, .number y => host.same x y
  | .string x, .string y => x = y
  | _, _ => false

/-! ## Keys -/

def isKeyOfString : IsKey := fun _ => true

def asKeyOfString : AsKey := inContext fun _ => .ok ()

def isKeyOfStringPattern (pattern : String → Bool) : IsKey := pattern

def asKeyOfStringPattern (pattern : String → Bool) : AsKey := inContext fun x =>
  if pattern x then .ok () else .error .error

def isKeyOfFloat : IsKey := fun x => !host.isNaN (host.parseFloat x)

def asKeyOfFloat : AsKey := inContext fun x =>
  if host.isNaN (host.parseFloat x) then .error .error else .ok ()

def isKeyOfInt : IsKey := fun x => host.isWhole (host.parseFloat x)

def asKeyOfInt : AsKey := inContext fun x =>
  let y := host.parseFloat x
  if host.isNaN y then .error .error
  else if !host.isWhole y then .error .error
  else .ok ()

def isKeyOfBool : IsKey := fun x => x = "true" || x = "false"

def asKeyOfBool : AsKey := inContext fun x =>
  if x ≠ "true" && x ≠ "false" then .error .error else .ok ()

def isKeyOfNull : IsKey := fun x => x = "null"

def asKeyOfNull : AsKey := inContext fun x => if x ≠ "null" then .error .error else .ok ()

def isKeyOfLiteral (literalValue : Value Number) : IsKey := fun x =>
  match literalValue with
  | .string literal => x = literal
  | _ =>
    match host.parse x with
    | none => false
    | some y => identical host y literalValue

def asKeyOfLiteral (literalValue : Value Number) : AsKey := inContext fun x =>
  match literalValue with
  | .string _ => if assertEqual host (.string x) literalValue then .ok () else .error .error
  | _ =>
    match host.parse x with
    | none => .error .error
    | some y => if assertEqual host y literalValue then .ok () else .error .error

def isKeyOfUnion (alternatives : List IsKey) : IsKey := fun x =>
  alternatives.any fun alternative => alternative x

def asKeyOfUnion (alternatives : List AsKey) : AsKey := inContext fun x =>
  alternatives.foldr (fun alt others => match alt x with
    | .ok _ => .ok ()
    | .error _ => others) (.error .error)

/-! ## Values -/

/-- What has to be a value of some kind that has no defaults -/
def isInstanceIf (p : Value Number → Bool) : IsInstance Number := fun x =>
  .ok (if p x then some applyNoDefaults else none)

def asInstanceIf (p : Value Number → Bool) : AsInstance Number := inContext fun x =>
  if p x then .ok applyNoDefaults else .error .error

def isString (pattern : String → Bool) : Value Number → Bool
  | .string x => pattern x
  | _ => false

def isNumber (p : Number → Bool) : Value Number → Bool
  | .number x => p x
  | _ => false

def isBool : Value Number → Bool
  | .bool _ => true
  | _ => false

def isNull : Value Number → Bool
  | .null => true
  | _ => false

def isArray : Value Number → Bool
  | .array _ => true
  | _ => false

def isNonArrayObject : Value Number → Bool
  | .object _ => true
  | _ => false

def isInstanceOfString : IsInstance Number := isInstanceIf (isString fun _ => true)
def asInstanceOfString : AsInstance Number := asInstanceIf (isString fun _ => true)
def isInstanceOfStringPattern (pattern : String → Bool) : IsInstance Number :=
  isInstanceIf (isString pattern)
def asInstanceOfStringPattern (pattern : String → Bool) : AsInstance Number :=
  asInstanceIf (isString pattern)
def isInstanceOfFloat : IsInstance Number := isInstanceIf (isNumber fun _ => true)
def asInstanceOfFloat : AsInstance Number := asInstanceIf (isNumber fun _ => true)
def isInstanceOfInt : IsInstance Number := isInstanceIf (isNumber host.isWhole)
def asInstanceOfInt : AsInstance Number := asInstanceIf (isNumber host.isWhole)
def isInstanceOfBool : IsInstance Number := isInstanceIf isBool
def asInstanceOfBool : AsInstance Number := asInstanceIf isBool
def isInstanceOfNull : IsInstance Number := isInstanceIf isNull
def asInstanceOfNull : AsInstance Number := asInstanceIf isNull
def isInstanceOfLiteral (literalValue : Value Number) : IsInstance Number :=
  isInstanceIf fun x => assertEqual host x literalValue
def asInstanceOfLiteral (literalValue : Value Number) : AsInstance Number :=
  asInstanceIf fun x => assertEqual host x literalValue
def isInstanceOfAny : IsInstance Number := isInstanceIf fun _ => true
def asInstanceOfAny : AsInstance Number := asInstanceIf fun _ => true
def isInstanceOfAnyList : IsInstance Number := isInstanceIf isArray
def asInstanceOfAnyList : AsInstance Number := asInstanceIf isArray
def isInstanceOfAnyDict : IsInstance Number := isInstanceIf isNonArrayObject
def asInstanceOfAnyDict : AsInstance Number := asInstanceIf isNonArrayObject

/-- A loop over what is within a value, up to the first that is false -/
def isEach : List (Result (Option (Defaults Number))) → Result (Option (Defaults Number))
  | [] => .ok (some [])
  | r :: rs => do
    match ← r with
    | none => return none
    | some ds =>
      match ← isEach rs with
      | none => return none
      | some defaulters => return some (ds ++ defaulters)

/-- A loop over what is within a value, up to the first that throws -/
def asEach : List (Result (Defaults Number)) → Result (Defaults Number)
  | [] => .ok []
  | r :: rs => do
    let ds ← r
    return ds ++ (← asEach rs)

def isAt (step : Step) (isInstance : IsInstance Number) (x : Value Number) :
    Result (Option (Defaults Number)) := do
  return (← isInstance x).map (under step)

def asAt (step : Step) (asInstance : AsInstance Number) (x : Value Number) :
    Result (Defaults Number) := do
  return under step (← asInstance x)

def isInstanceOfList (itemType : IsInstance Number) : IsInstance Number
  | .array xs => isEach (xs.zipIdx.map fun x => isAt (.item x.2) itemType x.1)
  | _ => .ok none

def asInstanceOfList (itemType : AsInstance Number) : AsInstance Number := inContext fun
  | .array xs => asEach (xs.zipIdx.map fun x => inContext (asAt (.item x.2) itemType) x.1)
  | _ => .error .error

def isInstanceOfBytes : IsInstance Number
  | .array xs => isEach (xs.map fun item => do
    match ← isInstanceOfInt host item with
    | none => return none
    | some r => if isNumber host.outOfByte item then return none else return some r)
  | _ => .ok none

def asInstanceOfBytes : AsInstance Number := inContext fun x => do
  let r ← asInstanceOfList (asInstanceOfInt host) x
  match x with
  | .array xs => if xs.any (isNumber host.outOfByte) then .error .error else return r
  | _ => return r

def isInstanceOfUnion (alternatives : List (IsInstance Number)) : IsInstance Number := fun x =>
  alternatives.foldr (fun alternative others => do
    match ← alternative x with
    | some r => return some r
    | none => others) (.ok none)

def asInstanceOfUnion (alternatives : List (AsInstance Number)) : AsInstance Number :=
  inContext fun x => alternatives.foldr (fun alt others => match alt x with
    | .ok r => .ok r
    | .error _ => others) (.error .error)

def isInstanceOfDict (isKey : IsKey) (isValue : IsInstance Number) : IsInstance Number
  | .object properties => isEach (properties.map fun x => do
    if ← hasOwnProperty properties x.1 then
      if !isKey x.1 then return none
      else isAt (.property x.1) isValue x.2
    else return some [])
  | _ => .ok none

def asInstanceOfDict (asKey : AsKey) (asValue : AsInstance Number) : AsInstance Number :=
  inContext fun
  | .object properties => asEach (properties.map (inContext fun x => do
    asKey x.1
    if ← hasOwnProperty properties x.1 then asAt (.property x.1) asValue x.2
    else return []))
  | _ => .error .error

def isInstanceOfTuple (items : List (IsInstance Number)) : IsInstance Number :=
  match items with
  | [item] => isInstanceOfList item
  | _ => fun
    | .array xs =>
      if xs.length ≠ items.length then .ok none
      else isEach ((items.zip xs).zipIdx.map fun x => isAt (.item x.2) x.1.1 x.1.2)
    | _ => .ok none

def asInstanceOfTuple (items : List (AsInstance Number)) : AsInstance Number :=
  match items with
  | [item] => asInstanceOfList item
  | _ => inContext fun
    | .array xs =>
      if xs.length ≠ items.length then .error .error
      else asEach ((items.zip xs).zipIdx.map fun x => inContext (asAt (.item x.2) x.1.1) x.1.2)
    | _ => .error .error

/-- A property of a class: its name, its validator and its default -/
abbrev Property (V : Type) (Number : Type) := String × V × Option (Value Number)

def isInstanceOfClass (items : List (Property (IsInstance Number) Number)) : IsInstance Number
  | .object properties => isEach (items.map fun item => do
    if ← hasOwnProperty properties item.1 then
      match properties.lookup item.1 with
      | some x => isAt (.property item.1) item.2.1 x
      | none => return none
    else
      match item.2.2 with
      | some defaultValue => return some [⟨[], item.1, defaultValue⟩]
      | none => return none)
  | _ => .ok none

def asInstanceOfClass (items : List (Property (AsInstance Number) Number)) :
    AsInstance Number := inContext fun
  | .object properties => asEach (items.map (inContext fun item => do
    if ← hasOwnProperty properties item.1 then
      match properties.lookup item.1 with
      | some x => asAt (.property item.1) item.2.1 x
      | none => .error .error
    else
      match item.2.2 with
      | some defaultValue => return [⟨[], item.1, defaultValue⟩]
      | none => .error .error))
  | _ => .error .error

end Urnest.JsonCodec
