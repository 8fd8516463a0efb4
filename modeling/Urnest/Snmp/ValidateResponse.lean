import Urnest.Snmp.DecodeMessage

/-!
# Validating responses

`validateResponse(request, response)`: is it a response to the request, does it report
an error, and does it answer what was asked? An error becomes an exception, of the
class of the error and with the identifier of the parameter that the error index
points at.

What the answers are compared with differs: a V1 get only misses identifiers, a V2c
get also finds extra and repeated ones, a set compares sets, and a get-next, whose
answers have other identifiers than the request, counts them.
-/

namespace Urnest.Snmp

open Lib

/-! ## Errors -/

/-- `getErrorOid`, for what the request and the response name. -/
def getErrorOid (errorIndex : ErrorIndex) (responseOids requestOids : List Oid)
    (error : String) : Result Oid :=
  if errorIndex = 0 then
    throwException ("response specifies " ++ error ++ " error but error index does "
      ++ "not identify which oid was not found (index must be > 0)")
  else
    match responseOids[errorIndex.toNat - 1]? with
    | none =>
      throwException ("response specifies " ++ error ++ " error but error index"
        ++ " is beyond last oid in response")
    | some oid => do
      check (oid ∈ requestOids) (.exception ("response error index indicates " ++ error
        ++ " for oid " ++ oid.toString ++ ", but that oid was not requested"))
      pure oid

/-- The first two checks: the identifier and the type of the response. -/
def checkIsResponse (requestId responseId : RequestId) (responseType : UInt8) :
    Result Unit := do
  check (requestId = responseId) (.responseIdMismatch responseId requestId)
  check (responseType = 0xA2) (.responseTypeMismatch responseType 0xA2)

def unknownErrorStatus (status : ErrorStatus) : Exception :=
  .exception ("response has unknown error status " ++ toString status.code.toInt)

/-- The `switch` over the error status: `cases` are the errors that name an identifier,
each with the name it has in texts. -/
def throwErrorStatus (cases : List (ErrorStatus × InvalidParam × String)) (status : ErrorStatus)
    (errorIndex : ErrorIndex) (responseOids requestOids : List Oid) : Result Unit :=
  if status = .noError then .ok ()
  else if status = .tooBig then .error (.threw .tooBig)
  else
    match cases.find? fun c => c.1 = status with
    | some c => do
      let oid ← getErrorOid errorIndex responseOids requestOids c.2.2
      .error (.threw (.invalidParam c.2.1 oid))
    | none => .error (.threw (unknownErrorStatus status))

/-! ## Get -/

def SnmpV1GetRequest.validateResponse (request : SnmpV1GetRequest)
    (response : SnmpV1Response) : Result (SortedMap Oid Value) := do
  checkIsResponse request.id response.id response.responseType
  throwErrorStatus [(.noSuchName, .noSuchName, "NoSuchName (2)"), (.genErr, .genErr, "GenErr (5)")]
    response.error response.errorIndex (response.values.map Prod.fst) request.oids.toList
  let result : SortedMap Oid Value := .ofList response.values
  let missing := request.oids.toList.filter fun oid => (result.find? oid).isNone
  check (missing = []) (.exception ("value not reported for oid(s) "
    ++ ", ".intercalate (missing.map Oid.toString)))
  pure result

/-- What the answers to a V2c get leave to complain about. -/
structure GetTally where
  missing : List Oid
  extra : SortedSet Oid
  duplicate : SortedSet Oid

/-- One turn of the loop over the answers. -/
def GetTally.count (requested : SortedSet Oid) (t : GetTally) (x : SnmpVar) : GetTally :=
  if x.oid ∈ t.missing then { t with missing := t.missing.erase x.oid }
  else if x.oid ∈ requested.toList then { t with duplicate := t.duplicate.insert x.oid }
  else { t with extra := t.extra.insert x.oid }

/-- A text for each complaint there is. -/
def GetTally.messages (t : GetTally) : List String :=
  let message (text : String) (oids : List Oid) : List String :=
    if oids = [] then [] else [text ++ ", ".intercalate (oids.map Oid.toString)]
  message "value not reported for oid(s) " t.missing
    ++ message "value reported for unrequested oid(s) " t.extra.toList
    ++ message "multiple values reported for oid(s) " t.duplicate.toList

/-- The end of the MIB view is no answer to a get; the other two markers are. -/
def checkNotEndOfMibView : List SnmpVar → Result Unit
  | [] => .ok ()
  | x :: xs => do
    check (x.value ≠ .inl .endOfMibView) (.endOfMibView x.oid)
    checkNotEndOfMibView xs

def SnmpV2cGetRequest.validateResponse (request : SnmpV2cGetRequest)
    (response : SnmpV2cResponse) : Result (SortedMap Oid SnmpVar) := do
  checkIsResponse request.id response.id response.responseType
  throwErrorStatus [(.noSuchName, .noSuchName, "NoSuchName (2)"), (.genErr, .genErr, "GenErr (5)")]
    response.error response.errorIndex (response.varResults.map SnmpVar.oid)
    request.oids.toList
  let t := response.varResults.foldl (GetTally.count request.oids)
    ⟨request.oids.toList, .empty, .empty⟩
  check (t.messages = []) (.exception (" and ".intercalate t.messages))
  checkNotEndOfMibView response.varResults
  pure (.ofList (response.varResults.map fun x => (x.oid, x)))

/-! ## Set -/

/-- The set of identifiers asked for has to be the set of those answered. -/
def compareOids (requestOids responseOids : SortedSet Oid) : Result Unit :=
  let missing := requestOids.toList.filter fun oid => oid ∉ responseOids.toList
  let extra := responseOids.toList.filter fun oid => oid ∉ requestOids.toList
  let error (text : String) (oids : List Oid) : List String :=
    if oids = [] then [] else [text ++ ", ".intercalate (oids.map Oid.toString)]
  check (missing = [] ∧ extra = []) (.exception (" and ".intercalate
    (error "response did not return oids " missing
      ++ error "response returned unrequested oids " extra)))

def SnmpV1SetRequest.validateResponse (request : SnmpV1SetRequest)
    (response : SnmpV1Response) : Result Unit := do
  checkIsResponse request.id response.id response.responseType
  throwErrorStatus
    [(.noSuchName, .noSuchName, "NoSuchName (2)"), (.badValue, .badValue, "BadValue (3)"),
      (.readOnly, .readOnly, "ReadOnly (4)"), (.genErr, .genErr, "GenErr (5)")]
    response.error response.errorIndex (response.values.map Prod.fst) request.values.keys
  compareOids (.ofList request.values.keys) (.ofList (response.values.map Prod.fst))

/-- The names are those of the source's texts, some of which are another error's. -/
def v2cSetErrors : List (ErrorStatus × InvalidParam × String) :=
  [(.noSuchName, .noSuchName, "NoSuchName (2)"),
    (.badValue, .badValue, "BadValue (3)"),
    (.readOnly, .readOnly, "ReadOnly (4)"),
    (.genErr, .genErr, "GenErr (5)"),
    (.noAccess, .noAccess, "NoAccess (6)"),
    (.wrongType, .wrongType, "WrongType (7)"),
    (.wrongLength, .wrongLength, "WrongLength (8)"),
    (.wrongEncoding, .wrongEncoding, "WrongEncoding (8)"),
    (.wrongValue, .wrongValue, "WrongValue (10)"),
    (.noCreation, .noCreation, "NoCreation (11)"),
    (.inconsistentValue, .inconsistentValue, "InconsistentValue (12)"),
    (.resourceUnavailable, .resourceUnavailable, "ResourceUnavailable (11)"),
    (.commitFailed, .commitFailed, "ResourceUnavailable (11)"),
    (.notWritable, .notWritable, "NoWritable (17)"),
    (.inconsistentName, .inconsistentName, "InconsistentName (18)")]

def SnmpV2cSetRequest.validateResponse (request : SnmpV2cSetRequest)
    (response : SnmpV2cResponse) : Result Unit := do
  checkIsResponse request.id response.id response.responseType
  check (response.error ≠ .undoFailed) .undoFailed
  throwErrorStatus v2cSetErrors response.error response.errorIndex
    (response.varResults.map SnmpVar.oid) request.values.keys
  compareOids (.ofList request.values.keys) (.ofList (response.varResults.map SnmpVar.oid))

/-! ## Get-next -/

/-- The identifier the error index points at, in the request. -/
def genErrOid (errorIndex : ErrorIndex) (responseSize : Nat) (requestOids : List Oid) :
    Result Oid :=
  if errorIndex = 0 then
    throwException ("response specifies GenErr (0x05) error but error index does "
      ++ "not identify which oid was not found (index must be > 0)")
  else
    let i := errorIndex.toNat - 1
    if i ≥ responseSize then
      throwException ("response specifies GenErr (0x05) error but error index"
        ++ " is beyond last oid in response")
    else
      match requestOids[i]? with
      | none =>
        throwException ("response error index indicates that general error for oid "
          ++ "with index " ++ Nat.repr i ++ ", but not that many oids were requested")
      | some oid => .ok oid

/-- `.1.3` with a null, which stands for "no such name". -/
def noSuchNameVar : Oid × Value := (⟨[1, 3]⟩, .nullValue)

def SnmpV1GetNextRequest.validateResponse (request : SnmpV1GetNextRequest)
    (response : SnmpV1Response) : Result (List (Oid × Value)) := do
  checkIsResponse request.id response.id response.responseType
  if response.error = .noError then
    check (¬ response.values.length < request.oids.length)
      (.exception "response has less values than request")
    check (¬ response.values.length > request.oids.length)
      (.exception "response has more values than request")
    pure response.values
  else if response.error = .tooBig then .error (.threw .tooBig)
  else if response.error = .noSuchName then
    -- the end of the MIB cannot be told from a name the server does not know
    pure (request.oids.map fun _ => noSuchNameVar)
  else if response.error = .genErr then
    let oid ← genErrOid response.errorIndex response.values.length request.oids
    .error (.threw (.invalidParam .genErr oid))
  else .error (.threw (unknownErrorStatus response.error))

def SnmpV2cGetNextRequest.validateResponse (request : SnmpV2cGetNextRequest)
    (response : SnmpV2cResponse) : Result (List SnmpVar) := do
  checkIsResponse request.id response.id response.responseType
  throwErrorStatus [(.genErr, .genErr, "GenErr (5)")] response.error response.errorIndex
    (response.varResults.map SnmpVar.oid) request.oids
  check (¬ response.varResults.length < request.oids.length)
    (.exception ("value(s) not reported for oid(s) " ++ ", ".intercalate
      ((request.oids.drop response.varResults.length).map Oid.toString)))
  check (¬ response.varResults.length > request.oids.length)
    (.exception ("values reported for unrequested oid(s) " ++ ", ".intercalate
      ((response.varResults.drop request.oids.length).map fun x => x.oid.toString)))
  pure response.varResults

end Urnest.Snmp
