import Urnest.Lib.Bytes
import Urnest.Snmp.Message

/-!
# Encoding

The encoder writes a tree of `Value` objects, each of which announces its encoded
length when it is constructed and writes its bytes later. The two are computed by
different functions, and an assertion compares them at every sequence and at the end
of the message; `Encoder` is such an object, and a failed assertion is the fault
`assertFailed`.

Lengths are naturals here: the source's `size_t` holds the size of a vector in
memory.
-/

namespace Urnest.Snmp

/-! ## Lengths -/

/-- `mask(bits)`: the low `bits` bits. -/
def mask (bits : Nat) : UInt64 := (1 <<< UInt64.ofNat bits) - 1

/-- The binary search of `countSignificantBits`: `x` needs more than `l` bits and at
most `h`. The first argument bounds the number of halvings. -/
def narrow (x : UInt64) : Nat → (h l g : Nat) → Nat × Nat
  | 0, h, l, _ => (h, l)
  | n + 1, h, l, g =>
    if h - l > 1 then
      if mask g &&& x = x then narrow x n g l ((g + l) / 2)
      else narrow x n h g ((h + g) / 2)
    else (h, l)

/-- `xju::countSignificantBits` -/
def countSignificantBits (x : UInt64) : Nat :=
  if x = 0 then 0
  else
    let (h, l) := narrow x 64 64 0 32
    if mask l &&& x = x then l else h

def encodedLengthOfLength (length : Nat) : Nat :=
  if length < 128 then 1 else 1 + (countSignificantBits (UInt64.ofNat length) + 7) / 8

/-- The `n` low bytes of `length`, written from the last one back. -/
def longFormBytes : Nat → UInt64 → List UInt8
  | 0, _ => []
  | n + 1, length => longFormBytes n (length >>> 8) ++ [(length &&& 0xff).toUInt8]

/-- X.690 definite length, in short form below 128. -/
def encodeLength (length : Nat) : List UInt8 :=
  if length < 128 then [UInt8.ofNat length]
  else
    let lengthBytes := (countSignificantBits (UInt64.ofNat length) + 7) / 8
    (0x80 ||| UInt8.ofNat lengthBytes) :: longFormBytes lengthBytes (UInt64.ofNat length)

/-! ## Integers -/

/-- Drop a leading byte while the bits under `mask` are all like the sign. -/
def dropLeading (holds : Int64 → Bool) : (dataLength : Nat) → (mask : Int64) → Nat
  | 0, _ => 0
  | n + 1, mask =>
    if n + 1 > 1 ∧ holds mask = true then
      dropLeading holds n ((mask >>> 8) ||| Int64.ofUInt64 0xff00000000000000)
    else n + 1

/-- Bytes needed for an integer in two's complement. -/
def intDataLength (val : Int64) : Nat :=
  let mask := Int64.ofUInt64 0xff80000000000000
  if val > 0 then dropLeading (fun mask => (val &&& ~~~mask) == val) 8 mask
  else if val < 0 then dropLeading (fun mask => (val &&& mask) == mask) 8 mask
  else 1

/-- The bytes of an integer, most significant first. -/
def intBytes (val : Int64) : Nat → List UInt8
  | 0 => []
  | n + 1 => ((val >>> Int64.ofNat (n * 8)) &&& 0xff).toUInt64.toUInt8 :: intBytes val n

def encodeInt (asn1Type : UInt8) (val : Int64) : List UInt8 :=
  let dataLength := intDataLength val
  asn1Type :: encodeLength dataLength ++ intBytes val dataLength

/-- `encodedLengthOfValue(int64_t)` -/
def encodedLengthOfInt (val : Int64) : Nat :=
  let dataLength := intDataLength val
  1 + encodedLengthOfLength dataLength + dataLength

/-! ## Strings and identifiers -/

def encodeOctetString (asn1Type : UInt8) (val : List UInt8) : List UInt8 :=
  asn1Type :: encodeLength val.length ++ val

/-- `encodedLengthOfValue(std::vector<uint8_t>)` -/
def encodedLengthOfOctets (dataLength : Nat) : Nat :=
  1 + encodedLengthOfLength dataLength + dataLength

def encodedLengthOfOidComponent (c : UInt32) : Nat :=
  let bits := countSignificantBits c.toUInt64
  if c = 0 then 1 else (bits - 1) / 7 + 1

/-- The bytes of one component with every continuation bit set, from the last one back. -/
def oidGroups : Nat → UInt32 → List UInt8
  | 0, _ => []
  | n + 1, c => oidGroups n (c >>> 7) ++ [0x80 ||| (c &&& 0x7f).toUInt8]

/-- Clear the continuation bit of the last byte. -/
def clearLast : List UInt8 → List UInt8
  | [] => []
  | [b] => [b &&& ~~~0x80]
  | b :: bs => b :: clearLast bs

def encodeOidComponent (c : UInt32) : List UInt8 :=
  clearLast (oidGroups (encodedLengthOfOidComponent c) c)

def oidDataLength (oid : Oid) : Nat :=
  1 + ((oid.components.drop 2).map encodedLengthOfOidComponent).sum

/-- `encodedLengthOfValue(Oid)` -/
def encodedLengthOfOid (oid : Oid) : Nat :=
  let dataLength := oidDataLength oid
  1 + encodedLengthOfLength dataLength + dataLength

/-- `.1.3` travels as one byte. -/
def encodeOid (oid : Oid) : List UInt8 :=
  0x06 :: encodeLength (oidDataLength oid)
    ++ 0x2b :: (oid.components.drop 2).flatMap encodeOidComponent

/-! ## Value objects -/

/-- A `Value` object, as its container sees it. -/
structure Encoder where
  /-- computed by the constructor -/
  encodedLength : Nat
  /-- the bytes `encodeTo` writes -/
  encodeTo : Result (List UInt8)

/-- `xju::assert_equal` and its relatives. -/
def assert (p : Bool) : Result Unit := if p then .ok () else .error (.died .assertFailed)

/-- `encodedLengthOfValue(Oid)` asserts that the identifier starts `.1.3`; every
identifier that is encoded goes through it. -/
def Oid.encodable (oid : Oid) : Bool := [1, 3].isPrefixOf oid.components

def oidEncoder (oid : Oid) : Encoder where
  encodedLength := encodedLengthOfOid oid
  encodeTo := do
    assert oid.encodable
    pure (encodeOid oid)

def intEncoder (val : Int64) : Encoder :=
  ⟨encodedLengthOfInt val, .ok (encodeInt 0x02 val)⟩

def stringEncoder (val : List UInt8) : Encoder :=
  ⟨encodedLengthOfOctets val.length, .ok (encodeOctetString 0x04 val)⟩

def Value.encoder : Value → Encoder
  | .intValue val => intEncoder val
  | .stringValue val => stringEncoder val
  | .oidValue val => oidEncoder val
  | .nullValue => ⟨2, .ok (0x05 :: encodeLength 0)⟩
  | .ipv4AddressValue val =>
    ⟨encodedLengthOfOctets 4,
      .ok (encodeOctetString 0x40
        [((val >>> 24) &&& 0xff).toUInt8, ((val >>> 16) &&& 0xff).toUInt8,
          ((val >>> 8) &&& 0xff).toUInt8, ((val >>> 0) &&& 0xff).toUInt8])⟩
  | .counter32Value val =>
    ⟨encodedLengthOfInt (Int64.ofUInt64 val.toUInt64),
      .ok (encodeInt 0x41 (Int64.ofUInt64 val.toUInt64))⟩
  | .gauge32Value val =>
    ⟨encodedLengthOfInt (Int64.ofUInt64 val.toUInt64),
      .ok (encodeInt 0x42 (Int64.ofUInt64 val.toUInt64))⟩
  | .timeTicksValue val => ⟨encodedLengthOfInt (val / 10), .ok (encodeInt 0x43 (val / 10))⟩
  | .opaqueValue val => ⟨encodedLengthOfOctets val.length, .ok (encodeOctetString 0x44 val)⟩
  | .counter64Value val =>
    ⟨encodedLengthOfInt (Int64.ofUInt64 val), .ok (encodeInt 0x46 (Int64.ofUInt64 val))⟩

def encodedLengthOfItems (items : List Encoder) : Nat :=
  (items.map Encoder.encodedLength).sum

/-- The bytes of the items, one after the other. -/
def encodeItems : List Encoder → Result (List UInt8)
  | [] => .ok []
  | x :: xs => do
    let bs ← x.encodeTo
    let rest ← encodeItems xs
    pure (bs ++ rest)

/-- `Sequence`, and `V2cSequence`, whose items are variables. -/
def sequence (items : List Encoder) (sequenceType : UInt8) : Encoder where
  encodedLength :=
    1 + encodedLengthOfLength (encodedLengthOfItems items) + encodedLengthOfItems items
  encodeTo := do
    let content ← encodeItems items
    let bytes := sequenceType :: encodeLength (encodedLengthOfItems items) ++ content
    assert (bytes.length == 1 + encodedLengthOfLength (encodedLengthOfItems items)
      + encodedLengthOfItems items)
    pure bytes

/-- `PreEncoded` -/
def preEncoded (data : List UInt8) : Encoder := ⟨data.length, .ok data⟩

/-- The type byte that stands for a marker. -/
def Marker.type : Marker → UInt8
  | .noSuchObject => 0x80
  | .noSuchInstance => 0x81
  | .endOfMibView => 0x82

/-- `SnmpVar::encodedLength` and `SnmpVar::encodeTo`. No assertion compares the two. -/
def SnmpVar.encoder (x : SnmpVar) : Encoder :=
  let valueLength : Nat := match x.value with
    | .inl _ => 1 + 1
    | .inr v => v.encoder.encodedLength
  let contentLength := (oidEncoder x.oid).encodedLength + valueLength
  { encodedLength := 1 + encodedLengthOfLength contentLength + contentLength
    encodeTo := do
      let oid ← (oidEncoder x.oid).encodeTo
      let value ← match x.value with
        | .inl m => .ok [m.type, 0]
        | .inr v => v.encoder.encodeTo
      pure (0x30 :: encodeLength contentLength ++ oid ++ value) }

/-- What every `encode` ends with: a vector of the announced length is filled, and the
end of what was written must be the end of the vector. -/
def encodeMessage (s : Encoder) : Result (List UInt8) := do
  let result ← s.encodeTo
  assert (result.length == s.encodedLength)
  pure result

/-! ## Messages -/

/-- An identifier with a null value, as requests list what they ask for. -/
def oidParam (oid : Oid) : Encoder := sequence [oidEncoder oid, Value.nullValue.encoder] 0x30

def valueParam (x : Oid × Value) : Encoder :=
  sequence [oidEncoder x.1, x.2.encoder] 0x30

/-- The layout requests share: version, community and a sequence of request id, two
integers and the parameters. -/
def encodeRequest (version : Int64) (community : Community) (id : RequestId)
    (error errorIndex : Int64) (params : List Encoder) (pduType : UInt8) :
    Result (List UInt8) :=
  encodeMessage (sequence
    [intEncoder version,
      stringEncoder community,
      sequence
        [intEncoder (Int64.ofUInt64 id), intEncoder error, intEncoder errorIndex,
          sequence params 0x30]
        pduType]
    0x30)

def SnmpV1GetRequest.encode (request : SnmpV1GetRequest) : Result (List UInt8) :=
  encodeRequest 0 request.community request.id 0 0 (request.oids.toList.map oidParam) 0xA0

def SnmpV1SetRequest.encode (request : SnmpV1SetRequest) : Result (List UInt8) :=
  encodeRequest 0 request.community request.id 0 0 (request.values.toList.map valueParam) 0xA3

def SnmpV1GetNextRequest.encode (request : SnmpV1GetNextRequest) : Result (List UInt8) :=
  encodeRequest 0 request.community request.id 0 0 (request.oids.map oidParam) 0xA1

def SnmpV1Trap.encode (trap : SnmpV1Trap) : Result (List UInt8) :=
  encodeMessage (sequence
    [intEncoder 0,
      stringEncoder trap.community,
      sequence
        [oidEncoder trap.trapType,
          (Value.ipv4AddressValue trap.origin).encoder,
          intEncoder trap.genericType.toInt64,
          intEncoder (Int64.ofUInt64 trap.specificType.toUInt64),
          (Value.timeTicksValue trap.timestamp).encoder,
          sequence (trap.vars.toList.map valueParam) 0x30]
        0xA4]
    0x30)

def SnmpV2cGetRequest.encode (request : SnmpV2cGetRequest) : Result (List UInt8) :=
  encodeRequest 1 request.community request.id 0 0 (request.oids.toList.map oidParam) 0xA0

def SnmpV2cGetNextRequest.encode (request : SnmpV2cGetNextRequest) : Result (List UInt8) :=
  encodeRequest 1 request.community request.id 0 0 (request.oids.map oidParam) 0xA1

def SnmpV2cGetBulkRequest.encode (request : SnmpV2cGetBulkRequest) : Result (List UInt8) :=
  encodeRequest 1 request.community request.id
    (Int64.ofNat request.getNext.length) -- non-repeaters
    (Int64.ofUInt64 request.n.toUInt64) -- max-repetitions
    (request.getNext.map oidParam ++ request.getNextN.map oidParam) 0xA5

def SnmpV2cSetRequest.encode (request : SnmpV2cSetRequest) : Result (List UInt8) :=
  encodeRequest 1 request.community request.id 0 0 (request.values.toList.map valueParam) 0xA3

/-- `.1.3.6.1.2.1.1.3.0` -/
def sysUpTimeOid : Oid := ⟨[1, 3, 6, 1, 2, 1, 1, 3, 0]⟩

/-- `.1.3.6.1.6.3.1.1.4.1.0` -/
def snmpTrapOid : Oid := ⟨[1, 3, 6, 1, 6, 3, 1, 1, 4, 1, 0]⟩

def SnmpV2cTrap.encode (trap : SnmpV2cTrap) : Result (List UInt8) :=
  encodeRequest 1 trap.community trap.id 0 0
    (valueParam (sysUpTimeOid, .timeTicksValue trap.timestamp)
      :: valueParam (snmpTrapOid, .oidValue trap.trapType)
      :: trap.vars.map valueParam)
    0xA7

/-- `makePDUSequence` -/
def makePDUSequence (pdu : PDU) : Encoder :=
  sequence
    [intEncoder (Int64.ofUInt64 pdu.requestId), intEncoder (Int64.ofUInt64 pdu.error),
      intEncoder (Int64.ofUInt64 pdu.errorIndex),
      sequence (pdu.vars.map SnmpVar.encoder) 0x30]
    pdu.pduType

/-- `encodeSnmpV1Message`, for version 0, and `encodePDU`, for version 1. -/
def encodePDUMessage (version : Int64) (community : Community) (pdu : PDU) :
    Result (List UInt8) :=
  encodeMessage (sequence
    [intEncoder version, stringEncoder community, makePDUSequence pdu] 0x30)

def encodeSnmpV1Message (community : Community) (requestId : RequestId)
    (error errorIndex : UInt64) (vars : List (Oid × Value)) (pduType : UInt8) :
    Result (List UInt8) :=
  encodePDUMessage 0 community
    ⟨requestId, error, errorIndex, vars.map fun v => ⟨v.1, .inr v.2⟩, pduType⟩

def encodePDU (community : Community) (requestId : RequestId) (error errorIndex : UInt64)
    (vars : List SnmpVar) (pduType : UInt8) : Result (List UInt8) :=
  encodePDUMessage 1 community ⟨requestId, error, errorIndex, vars, pduType⟩

/-- `(uint64_t)error` -/
def ErrorStatus.toUInt64 (error : ErrorStatus) : UInt64 := error.code.toInt64.toUInt64

/-- The response type is not written: every response goes out as `0xA2`. -/
def SnmpV1Response.encode (response : SnmpV1Response) : Result (List UInt8) :=
  encodeSnmpV1Message response.community response.id response.error.toUInt64
    response.errorIndex response.values 0xA2

/-- The response type is not written: every response goes out as `0xA2`. -/
def SnmpV2cResponse.encode (response : SnmpV2cResponse) : Result (List UInt8) :=
  encodePDU response.community response.id response.error.toUInt64
    response.errorIndex response.varResults 0xA2

end Urnest.Snmp
