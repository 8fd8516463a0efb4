import Mathlib.Data.List.Basic
import Mathlib.Logic.Function.Basic
import Urnest.Lib.Action

/-!
# Classes that manage resources

`cmclass` and `async_cmclass` give a class methods that enter and exit its bases and its annotated
attributes around its own enter and exit methods, and a `__setattr__` that refuses to replace an
annotated attribute while the class has been entered.

What is entered is kept on an exit stack. `cmclass` keeps the managers themselves on it, and
`async_cmclass` the names of the attributes, which are looked up again at exit. Code outside (the
managers, and own methods) may assign attributes of the object, raise, and return any value, as
`Foreign` has it.
-/

namespace Urnest.CmClass

open Function (update)
open Lib

/-- A context manager, by its identity -/
abbrev Manager := Nat

inductive Exc where
  | assertionError
  | attributeError
  | unboundLocalError
  | other (n : Nat)
  deriving DecidableEq

inductive Value where
  | none
  | self
  | object (n : Nat) (truth : Bool)
  deriving DecidableEq

def Value.truth : Value → Bool
  | .none => false
  | .self => true
  | .object _ truth => truth

/-- The two decorators -/
inductive Mode where
  | sync
  | async
  deriving DecidableEq

/-- A decorated class: its `resources_attr_name`, its decorated bases, its annotated attributes that
are context managers, and whether it has own enter and exit methods -/
inductive Class where
  | mk (mode : Mode) (resourcesAttrName : String) (bases : List Class) (attrs : List String)
    (ownEnter ownExit : Bool)

namespace Class

def mode : Class → Mode
  | .mk mode _ _ _ _ _ => mode

def resourcesAttrName : Class → String
  | .mk _ key _ _ _ _ => key

def bases : Class → List Class
  | .mk _ _ bases _ _ _ => bases

def attrs : Class → List String
  | .mk _ _ _ attrs _ _ => attrs

def ownEnter : Class → Bool
  | .mk _ _ _ _ ownEnter _ => ownEnter

def ownExit : Class → Bool
  | .mk _ _ _ _ _ ownExit => ownExit

end Class

/-- Where code outside runs: a manager of a class, or an own method -/
inductive Site where
  | attr (key name : String)
  | own (key : String)
  deriving DecidableEq

inductive Phase where
  | enter
  | exit
  deriving DecidableEq

/-- What has been entered -/
inductive Step where
  | attr (key name : String) (m : Manager)
  | own (key : String)
  deriving DecidableEq

def Step.site : Step → Site
  | .attr key name _ => .attr key name
  | .own key => .own key

inductive Event where
  | entered (x : Step)
  /-- an enter step that raised -/
  | failed (x : Step)
  /-- whether or not it raised -/
  | exited (x : Step)
  deriving DecidableEq

/-- What is called when a stack is closed -/
inductive Callback where
  /-- a base, by its place among those entered -/
  | base (k : Nat)
  | manager (name : String) (m : Manager)
  | attr (name : String)
  deriving DecidableEq

/-- The attribute that holds the resources of a class -/
inductive Slot where
  | absent
  | cleared
  /-- the last entered first -/
  | holds (stack : List Callback)
  deriving DecidableEq

def Slot.isHeld : Slot → Bool
  | .holds _ => true
  | _ => false

/-- An object, and what has happened to it -/
structure State where
  attrs : String → Manager
  resources : String → Slot
  log : List Event
  /-- what is being entered or has been, and has not been exited, the last first -/
  opens : List Step
  /-- an attribute of these has been assigned, where it is looked up again -/
  replaced : Bool

abbrev Act := Action State Exc

/-- Code outside, at a site and a time -/
structure Foreign where
  /-- the attributes it assigns -/
  assigns : Site → Phase → Nat → List (String × Manager)
  /-- how it ends, given the exception that is passed to it -/
  outcome : Site → Phase → Nat → Option Exc → Except Exc Value

/-! ## Assignments -/

mutual

/-- Whether `__setattr__` refuses to replace an attribute. What a class inherits as `__setattr__` is
that of its first base. -/
def guards (r : String → Slot) (name : String) : Class → Bool
  | .mk _ key bases attrs _ _ =>
    ((r key).isHeld && attrs.contains name) || guardsFirst r name bases

def guardsFirst (r : String → Slot) (name : String) : List Class → Bool
  | [] => false
  | b :: _ => guards r name b

end

def Step.isAttr (name : String) : Step → Bool
  | .attr _ n _ => n == name
  | .own _ => false

/-- `setattr(x,name,m)` for an object of class `top` -/
def assign (top : Class) (s : State) (x : String × Manager) : State :=
  if guards s.resources x.1 top then s
  else { s with
    attrs := update s.attrs x.1 x.2
    replaced := s.replaced || (top.mode == .async && s.opens.any (Step.isAttr x.1)) }

variable (F : Foreign) (top : Class)

def callOut (site : Site) (phase : Phase) (received : Option Exc) : Act Value := fun s =>
  (F.outcome site phase s.log.length received,
    (F.assigns site phase s.log.length).foldl (assign top) s)

/-- An enter step -/
def enterStep (x : Step) (call : Act Value) : Act Value := fun s =>
  match call { s with opens := x :: s.opens } with
  | (.ok v, s) => (.ok v, { s with log := s.log ++ [.entered x] })
  | (.error e, s) =>
    (.error e, { s with log := s.log ++ [.failed x], opens := s.opens.erase x })

/-- An exit step -/
def exitStep (x : Step) (call : Act Value) : Act Value := fun s =>
  match call { s with opens := s.opens.erase x } with
  | (r, s) => (r, { s with log := s.log ++ [.exited x] })

/-! ## Exit stacks -/

/-- What a callback does, given what the bases do -/
def callback (key : String) (bases : List (Option Exc → Act Value)) :
    Callback → Option Exc → Act Value
  | .base k, received =>
    match bases[k]? with
    | some exit => exit received
    | none => .raise .attributeError
  | .manager name m, received =>
    exitStep (.attr key name m) (callOut F top (.attr key name) .exit received)
  | .attr name, received => do
    let s ← Action.read
    exitStep (.attr key name (s.attrs name)) (callOut F top (.attr key name) .exit received)

/-- `exc_details`, `pending_raise` with the exception to raise, and `suppressed_exc` -/
structure Closing where
  details : Option Exc
  raised : Option Exc
  suppressed : Bool

def closeStack (call : Callback → Option Exc → Act Value) :
    List Callback → Closing → State → Closing × State
  | [], c, s => (c, s)
  | x :: rest, c, s =>
    match call x c.details s with
    | (.ok v, s) => closeStack call rest (if v.truth then ⟨none, none, true⟩ else c) s
    | (.error e, s) => closeStack call rest ⟨some e, some e, c.suppressed⟩ s

/-- `ExitStack.__exit__` -/
def stackExit (call : Callback → Option Exc → Act Value) (stack : List Callback)
    (received : Option Exc) : Act Bool := fun s =>
  match closeStack call stack ⟨received, none, false⟩ s with
  | (c, s) =>
    match c.raised with
    | some e => (.error e, s)
    | none => (.ok (received.isSome && c.suppressed), s)

/-! ## Exit -/

/-- `orig_exit(self,t,e,b)` -/
def ownExitStep (key : String) (ownExit : Bool) (received : Option Exc) : Act Value :=
  exitStep (.own key)
    (if ownExit then callOut F top (.own key) .exit received else pure .none)

/-- `exit` and `aexit`, given those of the bases. `aexit` returns nothing. -/
def exitWith (mode : Mode) (key : String) (ownExit : Bool) (bases : List (Option Exc → Act Value))
    (received : Option Exc) : Act Value := fun s =>
  match s.resources key with
  | .absent => (.error .attributeError, s)
  | slot =>
    match ownExitStep F top key ownExit received
        { s with resources := update s.resources key .cleared } with
    | (r, s) =>
      match slot with
      | .holds stack =>
        match stackExit (callback F top key bases) stack none s with
        | (.error e, s) => (.error e, s)
        | (.ok _, s) => (if mode = .sync then r else r.map fun _ => .none, s)
      | _ => (.error .attributeError, s)

mutual

/-- `__exit__` or `__aexit__` of a class -/
def exit : Class → Option Exc → Act Value
  | .mk mode key bases _ _ ownExit, received =>
    exitWith F top mode key ownExit (exits mode bases) received

/-- Those of the bases that are entered. A decorator sees the bases it can enter. -/
def exits (mode : Mode) : List Class → List (Option Exc → Act Value)
  | [] => []
  | b :: rest => if b.mode = mode then exit b :: exits mode rest else exits mode rest

end

/-! ## Enter -/

/-- Entering one after the other, and what is on the stack in the end or when one raises -/
def enterAll : List (Act Callback) → List Callback → State → Option Exc × List Callback × State
  | [], stack, s => (none, stack, s)
  | x :: rest, stack, s =>
    match x s with
    | (.ok c, s) => enterAll rest (c :: stack) s
    | (.error e, s) => (some e, stack, s)

def enterBases : Nat → List (Act Value) → List (Act Callback)
  | _, [] => []
  | k, x :: rest => (x >>= fun _ => pure (.base k)) :: enterBases (k + 1) rest

def keep (mode : Mode) (name : String) (m : Manager) : Callback :=
  match mode with
  | .sync => .manager name m
  | .async => .attr name

def enterAttr (mode : Mode) (key name : String) : Act Callback := fun s =>
  let m := s.attrs name
  (enterStep (.attr key name m) (callOut F top (.attr key name) .enter none) >>=
    fun _ => pure (keep mode name m)) s

/-- `orig_enter(self)` -/
def ownEnterStep (key : String) (ownEnter : Bool) : Act Value :=
  enterStep (.own key) (if ownEnter then callOut F top (.own key) .enter none else pure .self)

/-- The `with` statement exits the stack, and `return result` follows if that suppresses. -/
def giveUp (call : Callback → Option Exc → Act Value) (stack : List Callback) (e : Exc) :
    Act Value := fun s =>
  match stackExit call stack (some e) s with
  | (.error e, s) => (.error e, s)
  | (.ok true, s) => (.error .unboundLocalError, s)
  | (.ok false, s) => (.error e, s)

/-- The rest of `enter` when some bases and attributes have been entered -/
def finishEnter (key : String) (ownEnter : Bool) (call : Callback → Option Exc → Act Value) :
    Option Exc × List Callback × State → Except Exc Value × State
  | (some e, stack, s) => giveUp call stack e s
  | (none, stack, s) =>
    if (s.resources key).isHeld then giveUp call stack .assertionError s
    else
      match ownEnterStep F top key ownEnter s with
      | (.error e, s) => giveUp call stack e s
      | (.ok v, s) => (.ok v, { s with resources := update s.resources key (.holds stack) })

/-- `enter` and `aenter`, given what the bases do -/
def enterWith (mode : Mode) (key : String) (attrs : List String) (ownEnter : Bool)
    (bases : List (Act Value)) (baseExits : List (Option Exc → Act Value)) : Act Value := fun s =>
  finishEnter F top key ownEnter (callback F top key baseExits)
    (enterAll (enterBases 0 bases ++ attrs.map (enterAttr F top mode key)) [] s)

mutual

/-- `__enter__` or `__aenter__` of a class -/
def enter : Class → Act Value
  | .mk mode key bases attrs ownEnter _ =>
    enterWith F top mode key attrs ownEnter (enters mode bases) (exits F top mode bases)

def enters (mode : Mode) : List Class → List (Act Value)
  | [] => []
  | b :: rest => if b.mode = mode then enter b :: enters mode rest else enters mode rest

end

end Urnest.CmClass
