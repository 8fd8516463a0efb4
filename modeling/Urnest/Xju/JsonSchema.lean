import Mathlib.Tactic.Common

/-!
# JSON schemas

`validate` of jsonschema.py goes through its tests of what a schema is, and each that applies tests
what the value is. Two of the tests of the value are left out: a literal `True` or `False` is
compared with `==`, which a number passes that is 1 or 0, and of what is held against a tuple only
the length is taken and then the elements, which strings and dictionaries have as well.

What a schema denotes is `Denotes`, and what is none of it and yet taken is `Mistaken`.
`validate_meets_iff` says that nothing else goes wrong.
-/

namespace Urnest.JsonSchema

/-! ## Values and schemas -/

/-- What a dictionary may have its items by -/
inductive Key where
  | str (s : String)
  | int (n : Int)
deriving DecidableEq

/-- What there is in JSON, as Python has it. A float is the bits of its double. -/
inductive Value where
  | none
  | bool (b : Bool)
  | int (n : Int)
  | float (bits : UInt64)
  | str (s : String)
  | list (xs : List Value)
  | dict (items : List (Key × Value))

/-- The types that are schemas -/
inductive Ty where
  | int | str | float | bool
deriving DecidableEq

/-- A name of an item of a dictionary schema -/
inductive Name where
  | key (k : Key)
  | type (t : Ty)
  | other (typeName : String)
deriving DecidableEq

mutual

/-- What might be given for a schema. `schema` is an instance of `Schema`. -/
inductive Element where
  | none
  | type (t : Ty)
  | int (n : Int)
  | str (s : String)
  | bool (b : Bool)
  | dict (items : Items)
  | list (xs : Elements)
  | tuple (xs : Elements)
  | oneOf (choices : Elements)
  | schema (x : Element)
  | other (typeName : String)

inductive Elements where
  | nil
  | cons (x : Element) (xs : Elements)

inductive Items where
  | nil
  | cons (name : Name) (y : Element) (rest : Items)

end

def Elements.length : Elements → Nat
  | .nil => 0
  | .cons _ xs => xs.length + 1

/-- `len(x) == 1 and list(x.keys())[0] in (int,str)` -/
def Items.keyType : Items → Option Ty
  | .cons (.type .int) _ .nil => some .int
  | .cons (.type .str) _ .nil => some .str
  | _ => none

/-- What messages are of: words, and objects that have their repr there. -/
inductive Word where
  | text (s : String)
  | value (x : Value)
  | element (x : Element)
  | name (n : Name)
  | keys (ks : List Key)

inductive Failure where
  | exception (message : List Word)
  /-- `in_context` and `in_function_context` -/
  | context (message : List Word) (cause : Failure)
  /-- an exception with the texts of others, `and` between them -/
  | all (failures : List Failure)

abbrev Result := Except Failure

def throwing {α : Type} (message : List Word) : Result α := .error (.exception message)

def inContext {α : Type} (message : List Word) : Result α → Result α
  | .ok a => .ok a
  | .error e => .error (.context message e)

@[simp] theorem inContext_ok_iff {α : Type} {message : List Word} {r : Result α} {a : α} :
    inContext message r = .ok a ↔ r = .ok a := by
  cases r <;> simp [inContext]

theorem bind_ok {α β : Type} {r : Result α} {f : α → Result β} {b : β} (h : r >>= f = .ok b) :
    ∃ a, r = .ok a ∧ f a = .ok b := by
  cases r with
  | ok a => exact ⟨a, rfl, h⟩
  | error e => cases h

/-! ## The code -/

def Name.typeName : Name → String
  | .key (.str _) => "str"
  | .key (.int _) => "int"
  | .type _ => "type"
  | .other typeName => typeName

/-- `type(name) is str` -/
def Name.isStr : Name → Bool
  | .key (.str _) => true
  | _ => false

def verifyingElement (x : Element) : Result Unit → Result Unit :=
  inContext [.text "verify that ", .element x, .text " is a valid json schema element"]

mutual

def validateSchemaElement : Element → Result Unit
  | .none | .type _ | .int _ | .str _ | .bool _ | .schema _ => .ok ()
  | .dict items => verifyingElement (.dict items) <|
    if items.keyType.isSome then validateSchemaFirst items else validateSchemaItems items
  | .list xs => verifyingElement (.list xs) <|
    if xs.length = 0 then throwing [.text "list schema must contain at least one element"]
    else validateSchemaElements (fun _ r => r) 0 xs
  | .tuple xs => verifyingElement (.tuple xs) <|
    validateSchemaElements (fun i => inContext [.text s!"validate tuple schema item {i}"]) 0 xs
  | .oneOf choices => verifyingElement (.oneOf choices) <|
    validateSchemaElements (fun _ r => r) 0 choices
  | .other typeName => verifyingElement (.other typeName) <|
    throwing [.text s!"jsonschema element may not be a {typeName}, it must be a list, ",
      .text "a dictionary or int, str, float, bool, tuple, xju.jsonschema.OneOf or None"]

/-- `list(x.values())[0]` of a dictionary schema -/
def validateSchemaFirst : Items → Result Unit
  | .nil => .ok ()
  | .cons _ y _ => validateSchemaElement y

/-- The items of a dictionary schema -/
def validateSchemaItems : Items → Result Unit
  | .nil => .ok ()
  | .cons name y rest => do
    inContext [.text "validate dict schema item ", .name name] <|
      if name.isStr then validateSchemaElement y
      else throwing [.name name, .text s!" is not a string (it is a {name.typeName})"]
    validateSchemaItems rest

/-- A loop over elements, the first of which has the number `i` -/
def validateSchemaElements (context : Nat → Result Unit → Result Unit) :
    Nat → Elements → Result Unit
  | _, .nil => .ok ()
  | i, .cons x xs => do
    context i (validateSchemaElement x)
    validateSchemaElements context (i + 1) xs

end

def Ty.text : Ty → String
  | .int => "an Int"
  | .bool => "a Boolean"
  | .float => "a Float"
  | .str => "a String"

/-- `type(x)` -/
def Value.type : Value → String
  | .none => "NoneType"
  | .bool _ => "bool"
  | .int _ => "int"
  | .float _ => "float"
  | .str _ => "str"
  | .list _ => "list"
  | .dict _ => "dict"

/-- The tests of `schema is int` and the like -/
def Ty.takes : Ty → Value → Bool
  | .int, x => x.type = "int"
  | .bool, x => x.type = "bool"
  | .float, x => x.type ∈ ["int", "float"]
  | .str, x => x.type = "str"

def Key.value : Key → Value
  | .str s => .str s
  | .int n => .int n

/-- The bits of the doubles that are equal to `True` and to `False` -/
def doublesOf : Bool → List UInt64
  | true => [0x3ff0000000000000]
  | false => [0, 0x8000000000000000]

/-- `x == b` -/
def Value.equals (b : Bool) : Value → Bool
  | .bool b' => b' = b
  | .int n => n = b.toNat
  | .float bits => bits ∈ doublesOf b
  | _ => false

/-- What `enumerate(x)` goes through, of what has a `len(x)` -/
def Value.elements : Value → Option (List Value)
  | .str s => some (s.toList.map fun c => .str (String.singleton c))
  | .list xs => some xs
  | .dict items => some (items.map fun item => item.1.value)
  | _ => .none

/-- `x[name]`, where `name in x` -/
def lookup (items : List (Key × Value)) : Name → Option Value
  | .key k => items.lookup k
  | _ => none

def verifying (schema : Element) (x : Value) : Result Value → Result Value :=
  inContext [.text "verify ", .value x, .text " conforms to json schema ", .element schema]

def validateType (t : Ty) (x : Value) : Result Value :=
  verifying (.type t) x <|
    if t.takes x then .ok x else throwing [.value x, .text s!" is not {t.text}"]

/-- A loop over values, the first of which has the number `i` -/
def forEach (context : Nat → List Word) (f : Value → Result Value) : Nat → List Value → Result Unit
  | _, [] => .ok ()
  | i, x :: xs => do
    let _ ← inContext (context i) (f x)
    forEach context f (i + 1) xs

/-- The items of a dictionary that has them by a type of keys -/
def forItems (t : Ty) (f : Value → Result Value) : List (Key × Value) → Result Unit
  | [] => .ok ()
  | (key, y) :: items => do
    let _ ← inContext [.text "validate dictionary item ", .value key.value] do
      let _ ← validateType t key.value
      f y
    forItems t f items

mutual

def validate : Element → Value → Result Value
  | .none, x => verifying .none x <|
    match x with
    | .none => .ok x
    | _ => throwing [.value x, .text " is not None"]
  | .int n, x => verifying (.int n) x <|
    match x with
    | .int m => if m = n then .ok x else throwing [.value x, .text " is not ", .element (.int n)]
    | _ => throwing [.value x, .text " is not an integer"]
  | .str s, x => verifying (.str s) x <|
    match x with
    | .str t => if t = s then .ok x else throwing [.value x, .text " is not ", .element (.str s)]
    | _ => throwing [.value x, .text " is not a string"]
  | .type t, x => validateType t x
  | .dict schemas, x => verifying (.dict schemas) x <|
    match x with
    | .dict items =>
      match schemas.keyType with
      | some t => do
        forItems t (validateFirst schemas) items
        .ok x
      | none => do
        validateItems schemas items
        .ok x
    | _ => throwing [.value x, .text " is not a Dictionary"]
  | .list schemas, x => verifying (.list schemas) x <|
    match x with
    | .list xs => do
      if schemas.length = 1 then
        forEach (fun i => [.text s!"validate list item {i}"]) (validateHead schemas) 0 xs
      else if schemas.length ≠ xs.length then
        throwing [.text "list ", .value x, .text s!" does not have {schemas.length} elements, ",
          .text s!"it has {xs.length} elements"]
      else validateEach (fun i => [.text s!"validate list element {i}"]) 0 schemas xs
      .ok x
    | _ => throwing [.value x, .text " is not a List"]
  | .tuple schemas, x => verifying (.tuple schemas) x <|
    match x.elements with
    | none => throwing [.text s!"object of type '{x.type}' has no len()"]
    | some xs =>
      if schemas.length ≠ xs.length then
        throwing [.text s!"tuple has {xs.length} items not {schemas.length}"]
      else do
        validateEach (fun i => [.text s!"validate tuple schema element {i}"]) 0 schemas xs
        .ok x
  | .oneOf choices, x => verifying (.oneOf choices) x <| validateChoices choices x []
  | .bool b, x => verifying (.bool b) x <|
    if x.equals b then .ok x
    else throwing [.value x, .text " is not ", .element (.bool b)]
  | .schema schema, x => verifying (.schema schema) x <| do
    let _ ← validate schema x
    .ok x
  | .other typeName, x => verifying (.other typeName) x <| .ok x

/-- `validate(list(schema.values())[0], y)` -/
def validateFirst : Items → Value → Result Value
  | .nil, y => .ok y
  | .cons _ schema _, y => validate schema y

/-- `validate(schema[0], y)` -/
def validateHead : Elements → Value → Result Value
  | .nil, y => .ok y
  | .cons schema _, y => validate schema y

/-- The items that a dictionary schema names -/
def validateItems : Items → List (Key × Value) → Result Unit
  | .nil, _ => .ok ()
  | .cons name schema rest, items => do
    let _ ← inContext [.text "validate dictionary item ", .name name] <|
      match lookup items name with
      | none =>
        match validate schema .none with
        | .ok y => .ok y
        | .error _ => throwing [.name name, .text " is not in ", .keys (items.map Prod.fst),
          .text " and ", .name name, .text " is not optional"]
      | some y => validate schema y
    validateItems rest items

/-- Elements, each against its own schema -/
def validateEach (context : Nat → List Word) : Nat → Elements → List Value → Result Unit
  | i, .cons schema schemas, x :: xs => do
    let _ ← inContext (context i) (validate schema x)
    validateEach context (i + 1) schemas xs
  | _, _, _ => .ok ()

/-- The choices that are left, with the failures of those before -/
def validateChoices : Elements → Value → List Failure → Result Value
  | .nil, _, failures => .error (.all failures)
  | .cons choice choices, x, failures =>
    match validate choice x with
    | .ok _ => .ok x
    | .error e => validateChoices choices x (failures ++ [e])

end

mutual

/-- Every `Schema` in it has been made by the constructor. -/
def Element.Built : Element → Prop
  | .dict items => items.Built
  | .list xs | .tuple xs | .oneOf xs => xs.Built
  | .schema x => x.Built ∧ validateSchemaElement x = .ok ()
  | _ => True

def Elements.Built : Elements → Prop
  | .nil => True
  | .cons x xs => x.Built ∧ xs.Built

def Items.Built : Items → Prop
  | .nil => True
  | .cons _ y rest => y.Built ∧ rest.Built

end

/-- What the constructor makes of an element -/
structure Schema where
  x : Element
  built : x.Built
  valid : validateSchemaElement x = .ok ()

/-! ## What a schema denotes -/

def Ty.Has : Ty → Value → Prop
  | .int, x => ∃ n, x = .int n
  | .float, x => (∃ n, x = .int n) ∨ ∃ bits, x = .float bits
  | .str, x => ∃ s, x = .str s
  | .bool, x => ∃ b, x = .bool b

mutual

/-- A literal denotes itself; an item of a dictionary that is not there is none. -/
def Denotes : Element → Value → Prop
  | .none, x => x = .none
  | .type t, x => t.Has x
  | .int n, x => x = .int n
  | .str s, x => x = .str s
  | .bool b, x => x = .bool b
  | .dict schemas, x => ∃ items, x = .dict items ∧
    match schemas.keyType with
    | some t => ∀ item ∈ items, t.Has item.1.value ∧ DenotesFirst schemas item.2
    | none => DenotesItems schemas items
  | .list schemas, x => ∃ xs, x = .list xs ∧
    if schemas.length = 1 then ∀ y ∈ xs, DenotesHead schemas y else DenotesEach schemas xs
  | .tuple schemas, x => ∃ xs, x = .list xs ∧ DenotesEach schemas xs
  | .oneOf choices, x => DenotesSome choices x
  | .schema schema, x => Denotes schema x
  | .other _, _ => False

def DenotesFirst : Items → Value → Prop
  | .nil, _ => True
  | .cons _ schema _, y => Denotes schema y

def DenotesHead : Elements → Value → Prop
  | .nil, _ => True
  | .cons schema _, y => Denotes schema y

def DenotesItems : Items → List (Key × Value) → Prop
  | .nil, _ => True
  | .cons name schema rest, items =>
    Denotes schema ((lookup items name).getD .none) ∧ DenotesItems rest items

def DenotesEach : Elements → List Value → Prop
  | .nil, [] => True
  | .cons schema schemas, x :: xs => Denotes schema x ∧ DenotesEach schemas xs
  | _, _ => False

def DenotesSome : Elements → Value → Prop
  | .nil, _ => False
  | .cons choice choices, x => Denotes choice x ∨ DenotesSome choices x

end

/-- `validate` does as the schema denotes. -/
def Meets (schema : Element) (x : Value) : Prop :=
  (Denotes schema x → validate schema x = .ok x) ∧
    (¬Denotes schema x → ∃ e, validate schema x = .error e)

/-! ## What is mistaken for it -/

mutual

/-- A number that is equal to a literal boolean is mistaken for it, and for a tuple a string or a
dictionary whose characters or keys are of its elements, or mistaken for them. Arrays and objects
are mistaken where some of what is in them is, and the rest is right; for alternatives, what is
mistaken for one and is none of them. -/
def Mistaken : Element → Value → Prop
  | .bool b, x => x = .int b.toNat ∨ ∃ bits ∈ doublesOf b, x = .float bits
  | .dict schemas, x => ∃ items, x = .dict items ∧
    match schemas.keyType with
    | some t => (∀ item ∈ items, t.Has item.1.value ∧
        (DenotesFirst schemas item.2 ∨ MistakenFirst schemas item.2)) ∧
      ∃ item ∈ items, MistakenFirst schemas item.2
    | none => MistakenItems schemas items
  | .list schemas, x => ∃ xs, x = .list xs ∧
    if schemas.length = 1 then
      (∀ y ∈ xs, DenotesHead schemas y ∨ MistakenHead schemas y) ∧
        ∃ y ∈ xs, MistakenHead schemas y
    else MistakenEach schemas xs
  | .tuple schemas, x => ∃ xs, x.elements = some xs ∧
    (MistakenEach schemas xs ∨ x ≠ .list xs ∧ DenotesEach schemas xs)
  | .oneOf choices, x => MistakenSome choices x ∧ ¬DenotesSome choices x
  | .schema schema, x => Mistaken schema x
  | _, _ => False

def MistakenFirst : Items → Value → Prop
  | .nil, _ => False
  | .cons _ schema _, y => Mistaken schema y

def MistakenHead : Elements → Value → Prop
  | .nil, _ => False
  | .cons schema _, y => Mistaken schema y

def MistakenItems : Items → List (Key × Value) → Prop
  | .nil, _ => False
  | .cons name schema rest, items =>
    Mistaken schema ((lookup items name).getD .none) ∧
        (DenotesItems rest items ∨ MistakenItems rest items) ∨
      Denotes schema ((lookup items name).getD .none) ∧ MistakenItems rest items

def MistakenEach : Elements → List Value → Prop
  | .cons schema schemas, x :: xs =>
    Mistaken schema x ∧ (DenotesEach schemas xs ∨ MistakenEach schemas xs) ∨
      Denotes schema x ∧ MistakenEach schemas xs
  | _, _ => False

def MistakenSome : Elements → Value → Prop
  | .nil, _ => False
  | .cons choice choices, x => Mistaken choice x ∨ MistakenSome choices x

end

/-! ## What is mistaken is not right -/

mutual

theorem not_denotes_of_mistaken : ∀ (schema : Element) {x : Value}, Mistaken schema x →
    ¬Denotes schema x
  | .bool b, x, h, hd => by
    rw [Denotes] at hd
    rw [Mistaken, hd] at h
    rcases h with h | ⟨bits, -, h⟩
    · cases h
    · cases h
  | .dict schemas, x, h, hd => by
    rw [Mistaken] at h
    rw [Denotes] at hd
    obtain ⟨items, rfl, h⟩ := h
    obtain ⟨_, heq, hd⟩ := hd
    cases heq
    cases hkey : schemas.keyType with
    | some t =>
      rw [hkey] at h hd
      obtain ⟨-, item, hitem, h⟩ := h
      exact not_denotesFirst_of_mistaken schemas h (hd item hitem).2
    | none =>
      rw [hkey] at h hd
      exact not_denotesItems_of_mistaken schemas h hd
  | .list schemas, x, h, hd => by
    rw [Mistaken] at h
    rw [Denotes] at hd
    obtain ⟨xs, rfl, h⟩ := h
    obtain ⟨_, heq, hd⟩ := hd
    cases heq
    split at h
    · rw [if_pos ‹_›] at hd
      obtain ⟨-, y, hy, h⟩ := h
      exact not_denotesHead_of_mistaken schemas h (hd y hy)
    · rw [if_neg ‹_›] at hd
      exact not_denotesEach_of_mistaken schemas h hd
  | .tuple schemas, x, h, hd => by
    rw [Mistaken] at h
    rw [Denotes] at hd
    obtain ⟨ys, rfl, hd⟩ := hd
    obtain ⟨xs, hxs, h⟩ := h
    cases hxs
    rcases h with h | ⟨h, -⟩
    · exact not_denotesEach_of_mistaken schemas h hd
    · exact h rfl
  | .oneOf choices, x, h, hd => by
    rw [Mistaken] at h
    rw [Denotes] at hd
    exact h.2 hd
  | .schema schema, x, h, hd => by
    rw [Mistaken] at h
    rw [Denotes] at hd
    exact not_denotes_of_mistaken schema h hd
  | .none, x, h, _ | .type _, x, h, _ | .int _, x, h, _ | .str _, x, h, _ | .other _, x, h, _ => by
    simp [Mistaken] at h

theorem not_denotesFirst_of_mistaken : ∀ (schemas : Items) {y : Value},
    MistakenFirst schemas y → ¬DenotesFirst schemas y
  | .nil, y, h => by simp [MistakenFirst] at h
  | .cons _ schema _, y, h => not_denotes_of_mistaken schema h

theorem not_denotesHead_of_mistaken : ∀ (schemas : Elements) {y : Value},
    MistakenHead schemas y → ¬DenotesHead schemas y
  | .nil, y, h => by simp [MistakenHead] at h
  | .cons schema _, y, h => not_denotes_of_mistaken schema h

theorem not_denotesItems_of_mistaken : ∀ (schemas : Items) {items : List (Key × Value)},
    MistakenItems schemas items → ¬DenotesItems schemas items
  | .nil, items, h => by simp [MistakenItems] at h
  | .cons name schema rest, items, h => by
    rw [MistakenItems] at h
    rw [DenotesItems]
    rintro ⟨hd, hrest⟩
    rcases h with ⟨h, -⟩ | ⟨-, h⟩
    · exact not_denotes_of_mistaken schema h hd
    · exact not_denotesItems_of_mistaken rest h hrest

theorem not_denotesEach_of_mistaken : ∀ (schemas : Elements) {xs : List Value},
    MistakenEach schemas xs → ¬DenotesEach schemas xs
  | .nil, xs, h => by simp [MistakenEach] at h
  | .cons schema schemas, [], h => by simp [MistakenEach] at h
  | .cons schema schemas, x :: xs, h => by
    rw [MistakenEach] at h
    rw [DenotesEach]
    rintro ⟨hd, hrest⟩
    rcases h with ⟨h, -⟩ | ⟨-, h⟩
    · exact not_denotes_of_mistaken schema h hd
    · exact not_denotesEach_of_mistaken schemas h hrest

end

/-! ## Nothing but elements -/

mutual

/-- There is no object of another type in it. -/
def Element.Sound : Element → Prop
  | .dict items => items.Sound
  | .list xs | .tuple xs | .oneOf xs => xs.Sound
  | .schema x => x.Sound
  | .other _ => False
  | _ => True

def Elements.Sound : Elements → Prop
  | .nil => True
  | .cons x xs => x.Sound ∧ xs.Sound

def Items.Sound : Items → Prop
  | .nil => True
  | .cons _ y rest => y.Sound ∧ rest.Sound

end

theorem Items.keyType_isSome {items : Items} (h : items.keyType.isSome) :
    ∃ name y, items = .cons name y .nil := by
  unfold Items.keyType at h
  split at h
  · exact ⟨_, _, rfl⟩
  · exact ⟨_, _, rfl⟩
  · cases h

mutual

theorem sound_of_valid : ∀ x : Element, x.Built → validateSchemaElement x = .ok () → x.Sound
  | .dict items, hbuilt, h => by
    rw [validateSchemaElement, verifyingElement, inContext_ok_iff] at h
    rw [Element.Built] at hbuilt
    rw [Element.Sound]
    split at h
    · obtain ⟨name, y, rfl⟩ := Items.keyType_isSome ‹_›
      exact ⟨sound_of_valid y hbuilt.1 h, trivial⟩
    · exact items_sound_of_valid items hbuilt h
  | .list xs, hbuilt, h => by
    rw [validateSchemaElement, verifyingElement, inContext_ok_iff] at h
    split at h
    · cases h
    · exact elements_sound_of_valid (fun _ _ h => h) xs 0 hbuilt h
  | .tuple xs, hbuilt, h => by
    rw [validateSchemaElement, verifyingElement, inContext_ok_iff] at h
    exact elements_sound_of_valid (fun _ _ h => inContext_ok_iff.mp h) xs 0 hbuilt h
  | .oneOf choices, hbuilt, h => by
    rw [validateSchemaElement, verifyingElement, inContext_ok_iff] at h
    exact elements_sound_of_valid (fun _ _ h => h) choices 0 hbuilt h
  | .schema x, hbuilt, _ => by
    rw [Element.Built] at hbuilt
    exact sound_of_valid x hbuilt.1 hbuilt.2
  | .none, _, _ | .type _, _, _ | .int _, _, _ | .str _, _, _ | .bool _, _, _ => trivial

theorem items_sound_of_valid : ∀ items : Items, items.Built → validateSchemaItems items = .ok () →
    items.Sound
  | .nil, _, _ => trivial
  | .cons name y rest, hbuilt, h => by
    rw [validateSchemaItems] at h
    obtain ⟨_, hy, hrest⟩ := bind_ok h
    refine ⟨?_, items_sound_of_valid rest hbuilt.2 hrest⟩
    rw [inContext_ok_iff] at hy
    split at hy
    · exact sound_of_valid y hbuilt.1 hy
    · cases hy

theorem elements_sound_of_valid {context : Nat → Result Unit → Result Unit}
    (hcontext : ∀ i r, context i r = .ok () → r = .ok ()) : ∀ (xs : Elements) (i : Nat), xs.Built →
      validateSchemaElements context i xs = .ok () → xs.Sound
  | .nil, _, _, _ => trivial
  | .cons x xs, i, hbuilt, h => by
    rw [validateSchemaElements] at h
    obtain ⟨_, hx, hxs⟩ := bind_ok h
    exact ⟨sound_of_valid x hbuilt.1 (hcontext i _ hx),
      elements_sound_of_valid hcontext xs (i + 1) hbuilt.2 hxs⟩

end

/-! ## What is taken -/

def Returns {α : Type} (r : Result α) : Prop := ∃ a, r = .ok a

@[simp] theorem returns_ok {α : Type} (a : α) : Returns (.ok a : Result α) := ⟨a, rfl⟩

@[simp] theorem not_returns_error {α : Type} (e : Failure) : ¬Returns (.error e : Result α) :=
  fun ⟨_, h⟩ => nomatch h

@[simp] theorem not_returns_throwing {α : Type} (message : List Word) :
    ¬Returns (throwing message : Result α) :=
  not_returns_error _

@[simp] theorem returns_inContext {α : Type} (message : List Word) (r : Result α) :
    Returns (inContext message r) ↔ Returns r := by
  simp [Returns]

@[simp] theorem returns_verifying (schema : Element) (x : Value) (r : Result Value) :
    Returns (verifying schema x r) ↔ Returns r :=
  returns_inContext _ r

/-- Of one thing after the other, where the second has no use for what the first returns -/
@[simp] theorem returns_bind {α β : Type} (r : Result α) (s : Result β) :
    Returns (r >>= fun _ => s) ↔ Returns r ∧ Returns s := by
  cases r with
  | ok a => simp [bind, Except.bind]
  | error e => simp [bind, Except.bind]

theorem returns_if {α : Type} (c : Prop) [Decidable c] (r s : Result α) :
    Returns (if c then r else s) ↔ (c → Returns r) ∧ (¬c → Returns s) := by
  by_cases hc : c <;> simp [hc]

theorem Ty.takes_iff (t : Ty) (x : Value) : t.takes x ↔ t.Has x := by
  cases t <;> cases x <;> simp [Ty.takes, Ty.Has, Value.type]

theorem returns_validateType (t : Ty) (x : Value) : Returns (validateType t x) ↔ t.Has x := by
  rw [validateType, returns_verifying, returns_if, ← t.takes_iff x]
  simp

theorem returns_forEach (context : Nat → List Word) (f : Value → Result Value) :
    ∀ (i : Nat) (xs : List Value), Returns (forEach context f i xs) ↔ ∀ x ∈ xs, Returns (f x)
  | _, [] => by simp [forEach]
  | i, x :: xs => by simp [forEach, returns_forEach context f (i + 1) xs]

theorem returns_forItems (t : Ty) (f : Value → Result Value) : ∀ items : List (Key × Value),
    Returns (forItems t f items) ↔ ∀ item ∈ items, t.Has item.1.value ∧ Returns (f item.2)
  | [] => by simp [forItems]
  | (key, y) :: items => by
    simp [forItems, returns_forItems t f items, returns_validateType]

theorem equals_iff (b : Bool) (x : Value) :
    x.equals b ↔ Denotes (.bool b) x ∨ Mistaken (.bool b) x := by
  cases x <;> simp [Value.equals, Denotes, Mistaken]

/-- What goes through all of a list finds the right thing everywhere, or a mistake somewhere. -/
theorem forall_mem_iff {α : Type} {taken right mistaken : α → Prop}
    (hright : ∀ x, right x → taken x) (htaken : ∀ x, taken x → right x ∨ mistaken x) (xs : List α) :
    (∀ x ∈ xs, taken x) ↔
      (∀ x ∈ xs, right x) ∨ (∀ x ∈ xs, taken x) ∧ ∃ x ∈ xs, mistaken x := by
  constructor
  · intro h
    by_cases hmistaken : ∃ x ∈ xs, mistaken x
    · exact .inr ⟨h, hmistaken⟩
    · push Not at hmistaken
      exact .inl fun x hx => (htaken x (h x hx)).resolve_right (hmistaken x hx)
  · rintro (h | ⟨h, -⟩)
    · exact fun x hx => hright x (h x hx)
    · exact h

theorem length_of_denotesEach : ∀ {schemas : Elements} {xs : List Value}, DenotesEach schemas xs →
    schemas.length = xs.length
  | .nil, [], _ => rfl
  | .nil, _ :: _, h => by simp [DenotesEach] at h
  | .cons _ _, [], h => by simp [DenotesEach] at h
  | .cons _ _, _ :: _, h => by
    rw [DenotesEach] at h
    simp [Elements.length, length_of_denotesEach h.2]

theorem length_of_mistakenEach : ∀ {schemas : Elements} {xs : List Value},
    MistakenEach schemas xs → schemas.length = xs.length
  | .nil, _, h => by simp [MistakenEach] at h
  | .cons _ _, [], h => by simp [MistakenEach] at h
  | .cons _ _, _ :: _, h => by
    rw [MistakenEach] at h
    rcases h with ⟨-, h | h⟩ | ⟨-, h⟩
    · simp [Elements.length, length_of_denotesEach h]
    · simp [Elements.length, length_of_mistakenEach h]
    · simp [Elements.length, length_of_mistakenEach h]

/-- The lengths are compared first. -/
theorem forall_length_iff {schemas : Elements} {xs : List Value} {taken : Prop}
    (h : schemas.length = xs.length →
      (taken ↔ DenotesEach schemas xs ∨ MistakenEach schemas xs)) :
    (schemas.length = xs.length ∧ (schemas.length = xs.length → taken)) ↔
      DenotesEach schemas xs ∨ MistakenEach schemas xs := by
  constructor
  · rintro ⟨hlength, htaken⟩
    exact (h hlength).mp (htaken hlength)
  · intro heach
    have hlength : schemas.length = xs.length :=
      heach.elim length_of_denotesEach length_of_mistakenEach
    exact ⟨hlength, fun _ => (h hlength).mpr heach⟩

theorem exists_eq_and_iff {α β : Type} {f : α → β} (hf : f.Injective) {a : α} {p : α → Prop} :
    (∃ a', f a = f a' ∧ p a') ↔ p a := by
  constructor
  · rintro ⟨a', heq, h⟩
    exact hf heq ▸ h
  · exact fun h => ⟨a, rfl, h⟩

mutual

theorem returns_validate_iff : ∀ (schema : Element) (x : Value), schema.Sound →
    (Returns (validate schema x) ↔ Denotes schema x ∨ Mistaken schema x)
  | .none, x, _ => by
    cases x <;> simp [validate, Denotes, Mistaken]
  | .type t, x, _ => by
    simp [validate, Denotes, Mistaken, returns_validateType]
  | .int n, x, _ => by
    cases x with
    | int m => simp [validate, Denotes, Mistaken, returns_if]
    | _ => simp [validate, Denotes, Mistaken]
  | .str s, x, _ => by
    cases x with
    | str t => simp [validate, Denotes, Mistaken, returns_if]
    | _ => simp [validate, Denotes, Mistaken]
  | .bool b, x, _ => by
    rw [validate, returns_verifying, returns_if, ← equals_iff]
    simp
  | .dict schemas, x, hsound => by
    cases x with
    | dict items =>
      rw [validate, returns_verifying, Denotes, Mistaken,
        exists_eq_and_iff fun _ _ h => Value.dict.inj h,
        exists_eq_and_iff fun _ _ h => Value.dict.inj h]
      cases hkey : schemas.keyType with
      | some t =>
        simp only [returns_bind, returns_ok, and_true, returns_forItems,
          returns_validateFirst_iff schemas _ hsound]
        refine forall_mem_iff (fun item h => ⟨h.1, .inl h.2⟩) (fun item h => ?_) items
        exact h.2.imp_left fun hd => ⟨h.1, hd⟩
      | none =>
        simp only [returns_bind, returns_ok, and_true,
          returns_validateItems_iff schemas items hsound]
    | _ => simp [validate, Denotes, Mistaken]
  | .list schemas, x, hsound => by
    cases x with
    | list xs =>
      rw [validate, returns_verifying, Denotes, Mistaken,
        exists_eq_and_iff fun _ _ h => Value.list.inj h,
        exists_eq_and_iff fun _ _ h => Value.list.inj h]
      by_cases hone : schemas.length = 1
      · simp only [hone, if_true, returns_bind, returns_ok, and_true, returns_forEach,
          returns_validateHead_iff schemas _ hsound]
        exact forall_mem_iff (fun _ => .inl) (fun _ h => h) xs
      · simp only [hone, if_false, returns_if, returns_bind, returns_ok, and_true,
          not_returns_throwing, imp_false, not_not]
        exact forall_length_iff (returns_validateEach_iff _ schemas 0 xs hsound)
    | _ => simp [validate, Denotes, Mistaken]
  | .tuple schemas, x, hsound => by
    rw [validate, returns_verifying, Denotes, Mistaken]
    cases hxs : x.elements with
    | none =>
      have hnot : ∀ xs, x ≠ .list xs := by
        rintro xs rfl
        cases hxs
      simp [hnot]
    | some xs =>
      simp only [returns_if, returns_bind, returns_ok, and_true, not_returns_throwing, imp_false,
        not_not, Option.some.injEq]
      rw [forall_length_iff (returns_validateEach_iff _ schemas 0 xs hsound)]
      by_cases hx : x = .list xs
      · simp [hx]
      · have hnot : ∀ ys, x ≠ .list ys := by
          rintro ys rfl
          cases hxs
          exact hx rfl
        simp [hnot]
        tauto
  | .oneOf choices, x, hsound => by
    rw [validate, returns_verifying, Denotes, Mistaken,
      returns_validateChoices_iff choices x [] hsound]
    tauto
  | .schema schema, x, hsound => by
    rw [validate, returns_verifying, Denotes, Mistaken, ← returns_validate_iff schema x hsound]
    simp
  | .other _, _, hsound => hsound.elim

theorem returns_validateFirst_iff : ∀ (schemas : Items) (y : Value), schemas.Sound →
    (Returns (validateFirst schemas y) ↔ DenotesFirst schemas y ∨ MistakenFirst schemas y)
  | .nil, y, _ => by simp [validateFirst, DenotesFirst]
  | .cons _ schema _, y, hsound => returns_validate_iff schema y hsound.1

theorem returns_validateHead_iff : ∀ (schemas : Elements) (y : Value), schemas.Sound →
    (Returns (validateHead schemas y) ↔ DenotesHead schemas y ∨ MistakenHead schemas y)
  | .nil, y, _ => by simp [validateHead, DenotesHead]
  | .cons schema _, y, hsound => returns_validate_iff schema y hsound.1

theorem returns_validateItems_iff : ∀ (schemas : Items) (items : List (Key × Value)),
    schemas.Sound → (Returns (validateItems schemas items) ↔
      DenotesItems schemas items ∨ MistakenItems schemas items)
  | .nil, items, _ => by simp [validateItems, DenotesItems]
  | .cons name schema rest, items, hsound => by
    rw [validateItems, returns_bind, DenotesItems, MistakenItems,
      returns_validateItems_iff rest items hsound.2, returns_inContext]
    have hitem : Returns (match lookup items name with
        | none => match validate schema .none with
          | .ok y => .ok y
          | .error _ => throwing [.name name, .text " is not in ", .keys (items.map Prod.fst),
            .text " and ", .name name, .text " is not optional"]
        | some y => validate schema y) ↔
        Denotes schema ((lookup items name).getD .none) ∨
          Mistaken schema ((lookup items name).getD .none) := by
      rw [← returns_validate_iff schema _ hsound.1]
      cases lookup items name with
      | none =>
        simp only [Option.getD_none]
        cases validate schema .none <;> simp
      | some y => simp
    rw [hitem]
    tauto

theorem returns_validateEach_iff (context : Nat → List Word) : ∀ (schemas : Elements) (i : Nat)
    (xs : List Value), schemas.Sound → schemas.length = xs.length →
      (Returns (validateEach context i schemas xs) ↔
        DenotesEach schemas xs ∨ MistakenEach schemas xs)
  | .nil, i, [], _, _ => by simp [validateEach, DenotesEach]
  | .nil, i, x :: xs, _, hlength => by simp [Elements.length] at hlength
  | .cons schema schemas, i, [], _, hlength => by simp [Elements.length] at hlength
  | .cons schema schemas, i, x :: xs, hsound, hlength => by
    have hlength' : schemas.length = xs.length := by
      simpa [Elements.length] using hlength
    rw [validateEach, returns_bind, returns_inContext, returns_validate_iff schema x hsound.1,
      returns_validateEach_iff context schemas (i + 1) xs hsound.2 hlength', DenotesEach,
      MistakenEach]
    tauto

theorem returns_validateChoices_iff : ∀ (choices : Elements) (x : Value)
    (failures : List Failure), choices.Sound → (Returns (validateChoices choices x failures) ↔
      DenotesSome choices x ∨ MistakenSome choices x)
  | .nil, x, failures, _ => by simp [validateChoices, DenotesSome, MistakenSome]
  | .cons choice choices, x, failures, hsound => by
    have hchoice := returns_validate_iff choice x hsound.1
    rw [validateChoices, DenotesSome, MistakenSome]
    cases h : validate choice x with
    | ok y =>
      rw [h] at hchoice
      have := hchoice.mp (returns_ok y)
      simp only [returns_ok, true_iff]
      tauto
    | error e =>
      rw [h] at hchoice
      have hnot := mt hchoice.mpr (not_returns_error e)
      simp only
      rw [returns_validateChoices_iff choices x _ hsound.2]
      tauto

end

/-! ## What is returned -/

/-- If it returns it is that. -/
def Keeps (x : Value) (r : Result Value) : Prop := ∀ y, r = .ok y → y = x

@[simp] theorem keeps_ok (x : Value) : Keeps x (.ok x) := fun _ h => (Except.ok.inj h).symm

@[simp] theorem keeps_throwing (x : Value) (message : List Word) : Keeps x (throwing message) :=
  fun _ h => nomatch h

@[simp] theorem keeps_verifying (schema : Element) (x y : Value) (r : Result Value) :
    Keeps x (verifying schema y r) ↔ Keeps x r := by
  simp [Keeps, verifying]

@[simp] theorem keeps_bind {α : Type} (x : Value) (r : Result α) (s : Result Value)
    (hs : Keeps x s) : Keeps x (r >>= fun _ => s) := by
  intro y h
  obtain ⟨-, -, hy⟩ := bind_ok h
  exact hs y hy

theorem keeps_if {x : Value} {c : Prop} [Decidable c] {r s : Result Value} (hr : Keeps x r)
    (hs : Keeps x s) : Keeps x (if c then r else s) := by
  by_cases hc : c <;> simpa [hc]

theorem keeps_validateChoices (x : Value) : ∀ (choices : Elements) (failures : List Failure),
    Keeps x (validateChoices choices x failures)
  | .nil, failures => fun y h => by simp [validateChoices] at h
  | .cons choice choices, failures => by
    rw [validateChoices]
    split
    · exact keeps_ok x
    · exact keeps_validateChoices x choices _

theorem validate_keeps (schema : Element) (x : Value) : Keeps x (validate schema x) := by
  cases schema with
  | none => cases x <;> simp [validate]
  | type t =>
    rw [validate, validateType, keeps_verifying]
    exact keeps_if (keeps_ok x) (keeps_throwing x _)
  | int n | str s =>
    rw [validate.eq_def]
    simp only [keeps_verifying]
    split
    · exact keeps_if (keeps_ok _) (keeps_throwing _ _)
    · exact keeps_throwing x _
  | bool b =>
    rw [validate, keeps_verifying]
    exact keeps_if (keeps_ok x) (keeps_throwing x _)
  | other typeName => simp [validate]
  | schema schema => simp [validate]
  | oneOf choices =>
    rw [validate, keeps_verifying]
    exact keeps_validateChoices x choices []
  | dict schemas =>
    rw [validate.eq_def]
    simp only [keeps_verifying]
    split
    · split <;> simp
    · exact keeps_throwing x _
  | list schemas =>
    rw [validate.eq_def]
    simp only [keeps_verifying]
    split
    · exact keeps_if (by simp) (keeps_if (by simp) (by simp))
    · exact keeps_throwing x _
  | tuple schemas =>
    rw [validate, keeps_verifying]
    split
    · exact keeps_throwing x _
    · exact keeps_if (keeps_throwing x _) (by simp)

/-! ## When it does as the schema denotes -/

theorem meets_iff_of_sound {schema : Element} (hsound : schema.Sound) (x : Value) :
    Meets schema x ↔ ¬Mistaken schema x := by
  have hreturns := returns_validate_iff schema x hsound
  constructor
  · intro h hmistaken
    obtain ⟨e, he⟩ := h.2 (not_denotes_of_mistaken schema hmistaken)
    obtain ⟨y, hy⟩ := hreturns.mpr (.inr hmistaken)
    rw [he] at hy
    cases hy
  · intro hmistaken
    constructor
    · intro hd
      obtain ⟨y, hy⟩ := hreturns.mpr (.inl hd)
      rw [hy, validate_keeps schema x y hy]
    · intro hd
      cases hv : validate schema x with
      | ok y => exact ((hreturns.mp ⟨y, hv⟩).elim hd hmistaken).elim
      | error e => exact ⟨e, rfl⟩

/-- A schema returns what it denotes and raises of all else, except of what is mistaken for it. -/
theorem Schema.validate_meets_iff (schema : Schema) (x : Value) :
    Meets schema.x x ↔ ¬Mistaken schema.x x :=
  meets_iff_of_sound (sound_of_valid schema.x schema.built schema.valid) x

/-- 1 is taken for `True`, and `"ab"` for a tuple of two strings. -/
theorem not_meets_true_nor_tuple :
    (validateSchemaElement (.bool true) = .ok () ∧ ¬Meets (.bool true) (.int 1)) ∧
      validateSchemaElement (.tuple (.cons (.type .str) (.cons (.type .str) .nil))) = .ok () ∧
        ¬Meets (.tuple (.cons (.type .str) (.cons (.type .str) .nil))) (.str "ab") := by
  have hsound : (Element.tuple (.cons (.type .str) (.cons (.type .str) .nil))).Sound :=
    ⟨trivial, trivial, trivial⟩
  refine ⟨⟨rfl, fun h => (@meets_iff_of_sound (.bool true) trivial _).mp h (.inl rfl)⟩, rfl,
    fun h => (meets_iff_of_sound hsound _).mp h ?_⟩
  exact ⟨[.str "a", .str "b"], rfl, .inr ⟨nofun, ⟨"a", rfl⟩, ⟨"b", rfl⟩, trivial⟩⟩

end Urnest.JsonSchema
