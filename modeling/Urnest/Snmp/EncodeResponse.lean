import Urnest.Snmp.Encode

/-!
# Encoding responses

What a server can answer to a request, and the overloads of `encodeResponse` that
write it. The overloads for one request are told apart by the class of their last
argument, which is the outcome here. Where an outcome names a parameter, the response
carries the parameter's index in the order the request had its parameters in, counted
from one; no parameter at all is an assertion that fails.

V2c set requests have twelve overloads that the build generates from one text; the
table it fills in is `SetError.errorCode`.
-/

namespace Urnest.Snmp

open Lib

/-! ## Outcomes -/

inductive SnmpV1GetRequest.Outcome where
  | results (results : SortedMap Oid Value)
  | noSuchName (param : Oid)
  | tooBig
  | genErr (param : Oid)

inductive SnmpV1SetRequest.Outcome where
  | done
  | noSuchName (param : Oid)
  | badValue (param : Oid)
  | readOnly (param : Oid)
  | tooBig
  | genErr (param : Oid)

inductive SnmpV1GetNextRequest.Outcome where
  | results (results : List (Oid × Value))
  | tooBig
  | genErr (param : Oid)

inductive SnmpV2cGetRequest.Outcome where
  | results (results : SortedMap Oid SnmpVar)
  | noSuchName (param : Oid)
  | tooBig
  | genErr (param : Oid)

/-- The classes the build generates an overload for. -/
inductive SetError where
  | genErr
  | noAccess
  | notWritable
  | wrongType
  | wrongLength
  | wrongEncoding
  | wrongValue
  | noCreation
  | inconsistentName
  | inconsistentValue
  | resourceUnavailable
  | commitFailed
  deriving DecidableEq

inductive SnmpV2cSetRequest.Outcome where
  | done
  | tooBig
  | error (error : SetError) (param : Oid)

inductive SnmpV2cGetNextRequest.Outcome where
  | results (results : List SnmpVar)
  | tooBig
  | genErr (param : Oid)

/-! ## The parameters of a response -/

/-- `(*values.find(oid)).second` -/
def valueOf {β : Type} (values : SortedMap Oid β) (oid : Oid) : Result β :=
  match values.find? oid with
  | some x => .ok x.2
  | none => .error (.died .outOfRange)

/-- The parameters, each with its value. -/
def paramValues (values : SortedMap Oid Value) : List Oid → Result (List (Oid × Value))
  | [] => .ok []
  | oid :: paramOrder => do
    let value ← valueOf values oid
    let rest ← paramValues values paramOrder
    pure ((oid, value) :: rest)

/-- The variables of the parameters. -/
def paramVars (results : SortedMap Oid SnmpVar) : List Oid → Result (List SnmpVar)
  | [] => .ok []
  | oid :: paramOrder => do
    let var ← valueOf results oid
    let rest ← paramVars results paramOrder
    pure (var :: rest)

/-- The parameters, each with a null. -/
def paramNulls (paramOrder : List Oid) : List (Oid × Value) :=
  paramOrder.map fun oid => (oid, .nullValue)

/-- A parameter with its value, as a variable of V2c. -/
def SnmpVar.ofPair (x : Oid × Value) : SnmpVar := ⟨x.1, .inr x.2⟩

/-- `std::find` of the parameter, which must be there, as an index from one. -/
def errorIndexOf (paramOrder : List Oid) (param : Oid) : Result ErrorIndex := do
  assert (decide (param ∈ paramOrder))
  pure (UInt64.ofNat (paramOrder.idxOf param + 1))

/-- A V1 response that names the parameter at fault. -/
def encodeV1Error (community : Community) (id : RequestId) (status : ErrorStatus)
    (vars : List (Oid × Value)) (paramOrder : List Oid) (param : Oid) :
    Result (List UInt8) := do
  let errorIndex ← errorIndexOf paramOrder param
  encodeSnmpV1Message community id status.toUInt64 errorIndex vars 0xA2

/-- A V2c response that names the parameter at fault. -/
def encodeV2cError (community : Community) (id : RequestId) (status : ErrorStatus)
    (vars : List SnmpVar) (paramOrder : List Oid) (param : Oid) : Result (List UInt8) := do
  let errorIndex ← errorIndexOf paramOrder param
  encodePDU community id status.toUInt64 errorIndex vars 0xA2

/-! ## The overloads -/

def SnmpV1GetRequest.encodeResponse (request : SnmpV1GetRequest) (paramOrder : List Oid) :
    Outcome → Result (List UInt8)
  | .results results => do
    let vars ← paramValues results paramOrder
    encodeSnmpV1Message request.community request.id 0 0 vars 0xA2
  | .noSuchName param =>
    encodeV1Error request.community request.id .noSuchName (paramNulls paramOrder)
      paramOrder param
  | .tooBig =>
    encodeSnmpV1Message request.community request.id ErrorStatus.tooBig.toUInt64 0
      (paramNulls paramOrder) 0xA2
  | .genErr param =>
    encodeV1Error request.community request.id .genErr (paramNulls paramOrder) paramOrder param

def SnmpV1SetRequest.encodeResponse (request : SnmpV1SetRequest) (paramOrder : List Oid)
    (outcome : Outcome) : Result (List UInt8) := do
  let vars ← paramValues request.values paramOrder
  match outcome with
  | .done => encodeSnmpV1Message request.community request.id 0 0 vars 0xA2
  | .noSuchName param =>
    encodeV1Error request.community request.id .noSuchName vars paramOrder param
  | .badValue param => encodeV1Error request.community request.id .badValue vars paramOrder param
  | .readOnly param => encodeV1Error request.community request.id .readOnly vars paramOrder param
  | .tooBig =>
    encodeSnmpV1Message request.community request.id ErrorStatus.tooBig.toUInt64 0 vars 0xA2
  | .genErr param => encodeV1Error request.community request.id .genErr vars paramOrder param

def SnmpV1GetNextRequest.encodeResponse (request : SnmpV1GetNextRequest) :
    Outcome → Result (List UInt8)
  | .results results => encodeSnmpV1Message request.community request.id 0 0 results 0xA2
  | .tooBig =>
    encodeSnmpV1Message request.community request.id ErrorStatus.tooBig.toUInt64 0
      (paramNulls request.oids) 0xA2
  | .genErr param =>
    encodeV1Error request.community request.id .genErr (paramNulls request.oids) request.oids
      param

def SnmpV2cGetRequest.encodeResponse (request : SnmpV2cGetRequest) (paramOrder : List Oid) :
    Outcome → Result (List UInt8)
  | .results results => do
    let vars ← paramVars results paramOrder
    encodePDU request.community request.id 0 0 vars 0xA2
  | .noSuchName param =>
    encodeV2cError request.community request.id .noSuchName
      ((paramNulls paramOrder).map .ofPair) paramOrder param
  | .tooBig =>
    encodePDU request.community request.id ErrorStatus.tooBig.toUInt64 0
      ((paramNulls paramOrder).map .ofPair) 0xA2
  | .genErr param =>
    encodeV2cError request.community request.id .genErr
      ((paramNulls paramOrder).map .ofPair) paramOrder param

/-- The error code of a class, in the table of the build. -/
def SetError.errorCode : SetError → ErrorStatus
  | genErr => .genErr
  | noAccess => .noAccess
  | notWritable => .notWritable
  | wrongType => .wrongType
  | wrongLength => .wrongLength
  | wrongEncoding => .wrongEncoding
  | wrongValue => .wrongValue
  | noCreation => .noCreation
  | inconsistentName => .inconsistentName
  | inconsistentValue => .inconsistentValue
  | resourceUnavailable => .resourceUnavailable
  | commitFailed => .commitFailed

/-- A response that is too big has no variables at all. -/
def SnmpV2cSetRequest.encodeResponse (request : SnmpV2cSetRequest) (paramOrder : List Oid) :
    Outcome → Result (List UInt8)
  | .done => do
    let vars ← paramValues request.values paramOrder
    encodePDU request.community request.id 0 0 (vars.map .ofPair) 0xA2
  | .tooBig => encodePDU request.community request.id ErrorStatus.tooBig.toUInt64 0 [] 0xA2
  | .error error param => do
    let vars ← paramValues request.values paramOrder
    encodeV2cError request.community request.id error.errorCode (vars.map .ofPair)
      paramOrder param

def SnmpV2cGetNextRequest.encodeResponse (request : SnmpV2cGetNextRequest) :
    Outcome → Result (List UInt8)
  | .results results => encodePDU request.community request.id 0 0 results 0xA2
  | .tooBig =>
    encodePDU request.community request.id ErrorStatus.tooBig.toUInt64 0
      ((paramNulls request.oids).map .ofPair) 0xA2
  | .genErr param =>
    encodeV2cError request.community request.id .genErr
      ((paramNulls request.oids).map .ofPair) request.oids param

end Urnest.Snmp
