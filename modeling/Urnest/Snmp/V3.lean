import Urnest.Snmp.DecodeMessage

/-!
# V3 messages

A V3 message carries two blocks of bytes that it does not look into: the parameters
of its security model, and the scoped PDU, encrypted or not. The user-based security
model (USM) fills them. Each block is a sequence of its own with a decoder of its
own, which starts from the first byte of the block.
-/

namespace Urnest.Snmp

open DecodeIterator

/-! ## Messages -/

structure SnmpV3Message where
  id : UInt32
  maxSize : UInt64
  /-- a set of bits: 1 for authentication, 3 for privacy as well, 4 for reportable -/
  flags : UInt8
  securityModel : UInt32
  securityParameters : List UInt8
  scopedPduData : List UInt8
  deriving DecidableEq

structure SnmpV3ScopedPDU where
  contextEngineID : List UInt8
  contextName : List UInt8
  pdu : PDU
  deriving DecidableEq

structure SnmpV3UsmSecurityParameters where
  engineID : List UInt8
  engineBoots : UInt32
  engineTime : UInt32
  userName : List UInt8
  deriving DecidableEq

structure SnmpV3UsmMessage where
  id : UInt32
  maxSize : UInt64
  flags : UInt8
  securityParameters : SnmpV3UsmSecurityParameters
  scopedPDU : SnmpV3ScopedPDU
  deriving DecidableEq

/-- The bits of `AUTH_PRIV` are both set. -/
def isAuthPriv (flags : UInt8) : Bool := flags &&& 3 == 3

/-! ## Encoding -/

def SnmpV3Message.encode (x : SnmpV3Message) : Result (List UInt8) :=
  encodeMessage (sequence
    [intEncoder 3,
      sequence
        [intEncoder (Int64.ofUInt64 x.id.toUInt64), intEncoder (Int64.ofUInt64 x.maxSize),
          stringEncoder [x.flags], intEncoder (Int64.ofUInt64 x.securityModel.toUInt64)]
        0x30,
      stringEncoder x.securityParameters,
      preEncoded x.scopedPduData]
    0x30)

def SnmpV3ScopedPDU.encode (x : SnmpV3ScopedPDU) : Result (List UInt8) :=
  encodeMessage (sequence
    [stringEncoder x.contextEngineID, stringEncoder x.contextName, makePDUSequence x.pdu] 0x30)

def SnmpV3UsmSecurityParameters.encode (genericParams : SnmpV3UsmSecurityParameters)
    (preEncodedAuthParams preEncodedPrivParams : List UInt8) : Result (List UInt8) :=
  encodeMessage (sequence
    [stringEncoder genericParams.engineID,
      intEncoder (Int64.ofUInt64 genericParams.engineBoots.toUInt64),
      intEncoder (Int64.ofUInt64 genericParams.engineTime.toUInt64),
      stringEncoder genericParams.userName,
      stringEncoder preEncodedAuthParams,
      stringEncoder preEncodedPrivParams]
    0x30)

/-! ## Decoding -/

/-- Bytes in hexadecimal, without the leading `0x`. -/
def hexBytes (bs : List UInt8) (separator : String) : String :=
  separator.intercalate (bs.map fun b => ((hex b).drop 2).toString)

/-- `showFirstBytes` -/
def showFirstBytes (n : Nat) (bs : List UInt8) : String :=
  "(hex) [" ++ hexBytes (bs.take n) "," ++ (if bs.length > n then "..." else "") ++ "]"

/-- The message, and the offset of its security parameters in the data. -/
def decodeSnmpV3Message (data : List UInt8) : Result (SnmpV3Message × Nat) := do
  let s1 ← decodeSequenceTypeAndLength (start data)
  check (s1.1.1 = 0x30)
    (.exception ("expected sequence type byte 0x30, got " ++ hex s1.1.1 ++ " at offset 0"))
  let snmpVersion ← decodeIntValue s1.2 0x02
  check (snmpVersion.1 = 3) (.snmpVersionMismatch snmpVersion.1.toUInt8 3)
  let header ← decodeSequenceTypeAndLength snmpVersion.2
  -- the text shows the type of the outer sequence
  check (header.1.1 = 0x30) (.exception ("expected sequence type byte 0x30, got "
    ++ hex s1.1.1 ++ " at offset " ++ Nat.repr snmpVersion.2.at_))
  let id ← decodeIntValue header.2 0x02
  check (id.1 ≤ 0xffffffff)
    (.exception ("expected message id < 2147483648, got " ++ Nat.repr id.1.toNat))
  let maxSize ← decodeIntValue id.2 0x02
  check (484 ≤ maxSize.1)
    (.exception ("expected max size >= 484, got " ++ Nat.repr maxSize.1.toNat))
  check (maxSize.1 ≤ 0xffffffff)
    (.exception ("expected max size < 2147483648, got " ++ Nat.repr maxSize.1.toNat))
  let msgFlags ← decodeStringValue maxSize.2 0x04
  check (msgFlags.1.length = 1) (.exception ("expected 1 byte message flags, got "
    ++ Nat.repr msgFlags.1.length ++ " bytes (hex) " ++ hexBytes msgFlags.1 ","))
  let securityModel ← decodeIntValue msgFlags.2 0x02
  check (securityModel.1 ≤ 0xffffffff)
    (.exception ("expected security model < 2147483648, got " ++ Nat.repr securityModel.1.toNat))
  let securityParameters ← decodeStringValue securityModel.2 0x04
  let offset := (start data).remaining - securityParameters.2.remaining
    - securityParameters.1.length
  let scopedPduData ← decodeSequenceTypeAndLength securityParameters.2
  let flags := msgFlags.1.headD 0
  if isAuthPriv flags then
    check (scopedPduData.1.1 = 0x04) (.exception
      ("expected encrypted ScopedPDU to have type 0x04, got " ++ hex scopedPduData.1.1))
  else
    check (scopedPduData.1.1 = 0x30) (.exception
      ("expected unencrypted ScopedPDU to have type 0x30, got " ++ hex scopedPduData.1.1))
  let declared := scopedPduData.1.2.getD (UInt64.ofNat scopedPduData.2.remaining)
  check (scopedPduData.1.2.isNone ∨ scopedPduData.2.remaining = declared.toNat)
    (.exception ("expected " ++ Nat.repr declared.toNat ++ " bytes of scoped pdu data but have "
      ++ Nat.repr scopedPduData.2.remaining))
  pure (⟨id.1.toUInt32, maxSize.1, flags, securityModel.1.toUInt32, securityParameters.1,
    securityParameters.2.rest⟩, offset)

/-- Encryption might add padding, so the length has only to fit in the data. -/
def decodeSnmpV3ScopedPDU (data : List UInt8) : Result SnmpV3ScopedPDU := do
  let s1 ← decodeSequenceTypeAndLength (start data)
  check (s1.1.1 = 0x30)
    (.exception ("expected sequence type byte 0x30, got " ++ hex s1.1.1 ++ " at offset 0"))
  check ((s1.1.2.getD 0).toNat ≤ s1.2.remaining)
    (.exception ("sequence length " ++ Nat.repr (s1.1.2.getD 0).toNat
      ++ " is greater than contained data length (" ++ Nat.repr s1.2.remaining ++ ")"))
  let contextEngineID ← decodeStringValue s1.2 0x04
  let contextName ← decodeStringValue contextEngineID.2 0x04
  let pdu ← decodePDU contextName.2
  pure ⟨contextEngineID.1, contextName.1, pdu.1⟩

/-- What `decodeSnmpV3UsmSecurityParameters` returns. -/
structure DecodedUsmSecurityParameters where
  params : SnmpV3UsmSecurityParameters
  /-- the message's MAC -/
  mac : List UInt8
  /-- where the MAC starts in the data decoded -/
  macOffset : Nat
  privData : List UInt8
  deriving DecidableEq

/-- `INT32_MAX`, which counts of boots and seconds do not exceed. -/
def checkInt32 (n : UInt64) : Result Unit :=
  check (n ≤ 0x7fffffff)
    (.exception (Nat.repr n.toNat ++ " exceeds allow maximum 2147483647"))

def decodeSnmpV3UsmSecurityParameters (data : List UInt8) :
    Result DecodedUsmSecurityParameters := do
  let s1 ← decodeSequenceTypeAndLength (start data)
  check (s1.1.1 = 0x30)
    (.exception ("expected sequence type byte 0x30, got " ++ hex s1.1.1 ++ " at offset 0"))
  let declared := s1.1.2.getD (UInt64.ofNat s1.2.remaining)
  check (s1.1.2.isNone ∨ s1.2.remaining = declared.toNat)
    (.exception ("sequence length " ++ Nat.repr declared.toNat
      ++ " does not match contained data length (" ++ Nat.repr s1.2.remaining ++ ")"))
  let engineID ← decodeStringValue s1.2 0x04
  let engineBoots ← decodeIntValue engineID.2 0x02
  checkInt32 engineBoots.1
  let engineTime ← decodeIntValue engineBoots.2 0x02
  checkInt32 engineTime.1
  let userName ← decodeStringValue engineTime.2 0x04
  check (userName.1.length ≤ 32)
    (.exception ("user name length " ++ Nat.repr userName.1.length ++ " exceeds 32 bytes"))
  let authParams ← decodeStringValue userName.2 0x04
  let macOffset := (start data).remaining - authParams.2.remaining - authParams.1.length
  let privParams ← decodeStringValue authParams.2 0x04
  check (privParams.2.atEnd = true)
    (.exception (Nat.repr privParams.2.remaining ++ " bytes extra data "
      ++ showFirstBytes 8192 privParams.2.rest ++ " at offset " ++ Nat.repr privParams.2.at_))
  pure
    ⟨⟨engineID.1, engineBoots.1.toUInt32, engineTime.1.toUInt32, userName.1⟩,
      authParams.1, macOffset, privParams.1⟩

end Urnest.Snmp
