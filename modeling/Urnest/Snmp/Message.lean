import Urnest.Lib.Ordered
import Urnest.Snmp.Value

/-!
# Messages

One structure for each message class of SNMP V1 and V2c, with the fields the source
gives it. Where the source keeps a `std::set` or a `std::map` the field is a sorted
container, so a request cannot name an identifier twice.
-/

namespace Urnest.Snmp

/-- A community string, byte by byte. -/
abbrev Community := List UInt8

abbrev RequestId := UInt64

/-- A 1-based index into the variables of a message; `0` where no variable is meant. -/
abbrev ErrorIndex := UInt64

/-- An error status: the source's enumerations are `int`s, and decoding accepts values
that are not enumerators. -/
structure ErrorStatus where
  code : Int32
  deriving DecidableEq, Repr

namespace ErrorStatus

/- The enumerators of `SnmpV1Response::ErrorStatus` are the first six of
`SnmpV2cResponse::ErrorStatus`. -/

def noError : ErrorStatus := ⟨0⟩
def tooBig : ErrorStatus := ⟨1⟩
def noSuchName : ErrorStatus := ⟨2⟩
def badValue : ErrorStatus := ⟨3⟩
def readOnly : ErrorStatus := ⟨4⟩
def genErr : ErrorStatus := ⟨5⟩
def noAccess : ErrorStatus := ⟨6⟩
def wrongType : ErrorStatus := ⟨7⟩
def wrongLength : ErrorStatus := ⟨8⟩
def wrongEncoding : ErrorStatus := ⟨9⟩
def wrongValue : ErrorStatus := ⟨10⟩
def noCreation : ErrorStatus := ⟨11⟩
def inconsistentValue : ErrorStatus := ⟨12⟩
def resourceUnavailable : ErrorStatus := ⟨13⟩
def commitFailed : ErrorStatus := ⟨14⟩
def undoFailed : ErrorStatus := ⟨15⟩
def authorizationError : ErrorStatus := ⟨16⟩
def notWritable : ErrorStatus := ⟨17⟩
def inconsistentName : ErrorStatus := ⟨18⟩

end ErrorStatus

structure SnmpV1GetRequest where
  community : Community
  id : RequestId
  oids : Lib.SortedSet Oid
  deriving DecidableEq

structure SnmpV1GetNextRequest where
  community : Community
  id : RequestId
  oids : List Oid
  deriving DecidableEq

structure SnmpV1SetRequest where
  community : Community
  id : RequestId
  values : Lib.SortedMap Oid Value
  deriving DecidableEq

structure SnmpV1Response where
  responseType : UInt8
  community : Community
  id : RequestId
  error : ErrorStatus
  errorIndex : ErrorIndex
  values : List (Oid × Value)
  deriving DecidableEq

structure SnmpV1Trap where
  community : Community
  trapType : Oid
  origin : UInt32
  /-- an enumeration over `int`, decoded without a check -/
  genericType : Int32
  specificType : UInt32
  /-- milliseconds -/
  timestamp : Int64
  vars : Lib.SortedMap Oid Value
  deriving DecidableEq

structure SnmpV2cGetRequest where
  community : Community
  id : RequestId
  oids : Lib.SortedSet Oid
  deriving DecidableEq

structure SnmpV2cGetNextRequest where
  community : Community
  id : RequestId
  oids : List Oid
  deriving DecidableEq

structure SnmpV2cGetBulkRequest where
  community : Community
  id : RequestId
  getNext : List Oid
  getNextN : List Oid
  n : UInt32
  deriving DecidableEq

structure SnmpV2cSetRequest where
  community : Community
  id : RequestId
  values : Lib.SortedMap Oid Value
  deriving DecidableEq

structure SnmpV2cResponse where
  responseType : UInt8
  community : Community
  id : RequestId
  error : ErrorStatus
  errorIndex : ErrorIndex
  varResults : List SnmpVar
  deriving DecidableEq

structure SnmpV2cTrap where
  community : Community
  id : RequestId
  trapType : Oid
  /-- milliseconds -/
  timestamp : Int64
  vars : List (Oid × Value)
  deriving DecidableEq

/-- A protocol data unit, as V3 messages and responses share it. -/
structure PDU where
  requestId : RequestId
  error : UInt64
  errorIndex : UInt64
  vars : List SnmpVar
  pduType : UInt8
  deriving DecidableEq

end Urnest.Snmp
