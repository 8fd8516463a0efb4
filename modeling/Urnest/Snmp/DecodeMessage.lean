import Urnest.Snmp.Decode
import Urnest.Snmp.Encode

/-!
# Decoding messages

The decoders of the V1 and V2c messages. They go through the same elements and
differ in the version and type they insist on, in how they check the error status,
and in what they make of the variables, so the common stretches are functions of
their own: `decodeEnvelope` (outer sequence, version, community, inner header),
`decodeFields` (three integers and the variables) and `decodeVars` (the loop over
the variables, with either kind of variable).
-/

namespace Urnest.Snmp

open DecodeIterator

variable {data : List UInt8}

/-- `if (!p) throw e;` -/
def check (p : Prop) [Decidable p] (e : Exception) : Result Unit :=
  if p then .ok () else .error (.threw e)

/-! ## The envelope -/

/-- What is read before a message's own fields. -/
structure Envelope (data : List UInt8) where
  community : Community
  /-- the type byte of the inner sequence -/
  pduType : UInt8
  /-- the content of the inner sequence -/
  at_ : DecodeIterator data

/-- Outer sequence, version, community and the header of the inner sequence;
`mismatch` is thrown at another version. -/
def decodeEnvelope (data : List UInt8) (version : UInt64)
    (mismatch : UInt64 → DecodeIterator data → Exception) : Result (Envelope data) := do
  let s1 ← decodeSequenceTypeAndLength (start data)
  check (s1.1.1 = 0x30)
    (.exception ("expected sequence type byte 0x30, got " ++ hex s1.1.1 ++ " at offset 0"))
  let snmpVersion ← decodeIntValue s1.2 0x02
  check (snmpVersion.1 = version) (mismatch snmpVersion.1 s1.2)
  let community ← decodeStringValue snmpVersion.2 0x04
  let s2 ← decodeSequenceTypeAndLength community.2
  pure ⟨community.1, s2.1.1, s2.2⟩

/-- The envelope of a request or trap, which must have the decoder's own type. -/
def decodeRequestEnvelope (data : List UInt8) (version : UInt64) (pduType : UInt8) :
    Result (Envelope data) := do
  let e ← decodeEnvelope data version
    fun got _ => .snmpVersionMismatch got.toUInt8 version.toUInt8
  check (e.pduType = pduType) (.requestTypeMismatch e.pduType pduType)
  pure e

/-- A response reports another version as a plain exception. -/
def responseVersionMismatch (version name : String) (got : UInt64)
    (at_ : DecodeIterator data) : Exception :=
  .exception ("expected integer " ++ version ++ " (" ++ name ++ "), got integer "
    ++ Nat.repr got.toNat ++ ", at offset " ++ Nat.repr at_.at_)

/-! ## Variables -/

/-- The `atEnd` of the loop over the variables, which `s3` announces at `start`. -/
def varsAtEnd (length : Option UInt64) (start i : DecodeIterator data) : Result Bool :=
  match length with
  | some n => do
    let e ← start.plus (asInt n)
    pure (i == e)
  | none => do
    let b ← i.deref
    if b = 0 then
      let j ← i.plus 1
      let c ← j.deref
      pure (c == 0)
    else pure false

/-- A variable with a value: `s` is its sequence header and `oid` its identifier. -/
def decodeVarValue (s : Option UInt64) (oid : Oid × DecodeIterator data) :
    Result ((Oid × Value) × DecodeIterator data) := do
  let value ← decodeValue oid.2
  -- X.690 indefinite length - skip 2x zero bytes
  let i ← if s.isNone then value.2.plus 2 else pure value.2
  pure ((oid.1, value.1), i)

/-- The variable requests and V1 messages consist of. -/
def decodeVar (at_ : DecodeIterator data) :
    Result ((Oid × Value) × DecodeIterator data) := do
  let s ← decodeSequenceTypeAndLength at_
  let oid ← decodeOidValue s.2
  decodeVarValue s.1.2 oid

/-- The marker a type byte stands for. -/
def Marker.ofType? (b : UInt8) : Option Marker :=
  if b = 0x80 then some .noSuchObject
  else if b = 0x81 then some .noSuchInstance
  else if b = 0x82 then some .endOfMibView
  else none

/-- The variable of a V2c response. Where a marker stands in the value's place, the
length that moves the iterator on is that of the variable's sequence. -/
def decodeSnmpVar (at_ : DecodeIterator data) : Result (SnmpVar × DecodeIterator data) := do
  let s ← decodeSequenceTypeAndLength at_
  let oid ← decodeOidValue s.2
  let b ← oid.2.deref
  match Marker.ofType? b with
  | some m =>
    let n ← at_.plus 1 >>= decodeLength
    match n.1 with
    | none =>
      throwException ("indefinite length is illegal for 'null' value associated with exception "
        ++ String.singleton (Char.ofNat b.toNat) ++ " for oid " ++ oid.1.toString)
    | some k =>
      let i ← n.2.plus (asInt k)
      pure (⟨oid.1, .inl m⟩, i)
  | none =>
    let r ← decodeVarValue s.1.2 oid
    pure (⟨r.1.1, .inr r.1.2⟩, r.2)

variable {ι : Type}

/-- One turn of the loop over the variables. -/
def varTurn (decodeItem : DecodeIterator data → Result (ι × DecodeIterator data))
    (length : Option UInt64) (start i : DecodeIterator data) :
    Result (Lib.Turn (DecodeIterator data) ι) := do
  if ← varsAtEnd length start i then pure .leave
  else
    let x ← decodeItem i
    pure (.item x.1 x.2)

/-- The variables, in the sequence that starts at `at_`, and the iterator after them. -/
def decodeVars (decodeItem : DecodeIterator data → Result (ι × DecodeIterator data))
    (at_ : DecodeIterator data) : Result (List ι × DecodeIterator data) := do
  let s3 ← decodeSequenceTypeAndLength at_
  Lib.collect .endless (varTurn decodeItem s3.1.2 s3.2) (data.length + 1) s3.2

/-- Three integers and the variables. -/
structure Fields (data : List UInt8) (ι : Type) where
  id : UInt64
  errorStatus : UInt64
  errorIndex : UInt64
  vars : List ι
  /-- after the variables -/
  at_ : DecodeIterator data

def decodeFields (decodeItem : DecodeIterator data → Result (ι × DecodeIterator data))
    (at_ : DecodeIterator data) : Result (Fields data ι) := do
  let id ← decodeIntValue at_ 0x02
  let errorStatus ← decodeIntValue id.2 0x02
  let ei ← decodeIntValue errorStatus.2 0x02
  let vars ← decodeVars decodeItem ei.2
  pure ⟨id.1, errorStatus.1, ei.1, vars.1, vars.2⟩

/-- `INT_MAX` -/
def intMax : UInt64 := 0x7fffffff

def checkErrorStatus (errorStatus : UInt64) : Result Unit :=
  check (errorStatus ≤ intMax) (.exception ("error status " ++ Nat.repr errorStatus.toNat
    ++ " exceeds maximimum supported (2147483647)"))

/-! ## Requests -/

def decodeSnmpV1GetRequest (data : List UInt8) : Result (SnmpV1GetRequest × List Oid) := do
  let e ← decodeRequestEnvelope data 0 0xA0
  let f ← decodeFields decodeVar e.at_
  checkErrorStatus f.errorStatus
  let order := f.vars.map Prod.fst
  pure (⟨e.community, f.id, .ofList order⟩, order)

def decodeSnmpV1GetNextRequest (data : List UInt8) : Result SnmpV1GetNextRequest := do
  let e ← decodeRequestEnvelope data 0 0xA1
  let f ← decodeFields decodeVar e.at_
  checkErrorStatus f.errorStatus
  pure ⟨e.community, f.id, f.vars.map Prod.fst⟩

def decodeSnmpV1SetRequest (data : List UInt8) : Result (SnmpV1SetRequest × List Oid) := do
  let e ← decodeRequestEnvelope data 0 0xA3
  let f ← decodeFields decodeVar e.at_
  checkErrorStatus f.errorStatus
  pure (⟨e.community, f.id, .ofList f.vars⟩, f.vars.map Prod.fst)

def decodeSnmpV2cGetRequest (data : List UInt8) : Result (SnmpV2cGetRequest × List Oid) := do
  let e ← decodeRequestEnvelope data 1 0xA0
  let f ← decodeFields decodeVar e.at_
  checkErrorStatus f.errorStatus
  let order := f.vars.map Prod.fst
  pure (⟨e.community, f.id, .ofList order⟩, order)

def decodeSnmpV2cGetNextRequest (data : List UInt8) : Result SnmpV2cGetNextRequest := do
  let e ← decodeRequestEnvelope data 1 0xA1
  let f ← decodeFields decodeVar e.at_
  checkErrorStatus f.errorStatus
  pure ⟨e.community, f.id, f.vars.map Prod.fst⟩

/-- The two integers are the number of non-repeaters and the maximum of repetitions,
and neither is checked. -/
def decodeSnmpV2cGetBulkRequest (data : List UInt8) : Result SnmpV2cGetBulkRequest := do
  let e ← decodeRequestEnvelope data 1 0xA5
  let f ← decodeFields decodeVar e.at_
  let oids := f.vars.map Prod.fst
  let n := min oids.length f.errorStatus.toNat
  pure ⟨e.community, f.id, oids.take n, oids.drop n, f.errorIndex.toUInt32⟩

/-- The error status of a V2c set request is not checked. -/
def decodeSnmpV2cSetRequest (data : List UInt8) : Result (SnmpV2cSetRequest × List Oid) := do
  let e ← decodeRequestEnvelope data 1 0xA3
  let f ← decodeFields decodeVar e.at_
  pure (⟨e.community, f.id, .ofList f.vars⟩, f.vars.map Prod.fst)

/-! ## Traps -/

def decodeSnmpV1Trap (data : List UInt8) : Result SnmpV1Trap := do
  let e ← decodeRequestEnvelope data 0 0xA4
  let trapType ← decodeOidValue e.at_
  let origin ← decodeIPv4AddressValue trapType.2
  let generic ← decodeIntValue origin.2 0x02
  let specific ← decodeIntValue generic.2 0x02
  let sysUpTime ← decodeTimeTicksValue specific.2
  let vars ← decodeVars decodeVar sysUpTime.2
  pure
    ⟨e.community, trapType.1, origin.1, generic.1.toUInt32.toInt32, specific.1.toUInt32,
      sysUpTime.1, .ofList vars.1⟩

/-- The first two variables must be the time and the type of the trap. -/
def trapVars (community : Community) (id : RequestId) :
    List (Oid × Value) → Result SnmpV2cTrap
  | [] => throwException "trap is missing sys uptime ie sysUpTime.0 var"
  | (oid, uptime) :: rest => do
    check (oid = sysUpTimeOid) (.exception ("first trap var oid is not .1.3.6.1.2.1.1.3.0"
      ++ " (ie not sys uptime ie sysUpTime.0), it is " ++ oid.toString))
    let sysUpTime ← uptime.getTimeTicks
    match rest with
    | [] => throwException "trap is missing trap type ie snmpTrapOID.0 var"
    | (oid2, type_) :: vars =>
      -- the text shows the first variable's identifier
      check (oid2 = snmpTrapOid) (.exception ("first trap var oid is not 1.3.6.1.6.3.1.1.4.1.0"
        ++ " (ie not trap type ie not snmpTrapOID.0), it is " ++ oid.toString))
      let trapType ← type_.getOid
      pure ⟨community, id, trapType, sysUpTime, vars⟩

def decodeSnmpV2cTrap (data : List UInt8) : Result SnmpV2cTrap := do
  let e ← decodeRequestEnvelope data 1 0xA7
  let f ← decodeFields decodeVar e.at_
  checkErrorStatus f.errorStatus
  trapVars e.community f.id f.vars

/-! ## Responses -/

/-- The conversion of an error status that `checkErrorStatus` let through. -/
def ErrorStatus.ofUInt64 (errorStatus : UInt64) : ErrorStatus :=
  ⟨errorStatus.toUInt32.toInt32⟩

def decodeSnmpV1Response (data : List UInt8) : Result SnmpV1Response := do
  let e ← decodeEnvelope data 0 (responseVersionMismatch "0" "SNMP V1")
  let f ← decodeFields decodeVar e.at_
  checkErrorStatus f.errorStatus
  pure ⟨e.pduType, e.community, f.id, .ofUInt64 f.errorStatus, f.errorIndex, f.vars⟩

def decodeSnmpV2cResponse (data : List UInt8) : Result SnmpV2cResponse := do
  let e ← decodeEnvelope data 1 (responseVersionMismatch "1" "SNMP V2c")
  let f ← decodeFields decodeSnmpVar e.at_
  checkErrorStatus f.errorStatus
  pure ⟨e.pduType, e.community, f.id, .ofUInt64 f.errorStatus, f.errorIndex, f.vars⟩

/-- The PDU of a V3 message, and the iterator after its variables. -/
def decodePDU (at_ : DecodeIterator data) : Result (PDU × DecodeIterator data) := do
  let s2 ← decodeSequenceTypeAndLength at_
  let f ← decodeFields decodeSnmpVar s2.2
  checkErrorStatus f.errorStatus
  pure (⟨f.id, f.errorStatus, f.errorIndex, f.vars, s2.1.1⟩, f.at_)

end Urnest.Snmp
