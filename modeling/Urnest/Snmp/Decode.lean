import Urnest.Lib.Bytes
import Urnest.Snmp.DecodeIterator
import Urnest.Snmp.Message

/-!
# Decoding elements

The functions that decode one element each: a length, an integer, a string, an
address, an identifier, any value. Each takes the iterator at the element's first
byte and returns what it read with the iterator after it. A declared length is a
`size_t`, and becomes an `int` where the iterator is moved by it (`asInt`).
-/

namespace Urnest.Snmp

open DecodeIterator

variable {data : List UInt8}

/-- The conversion of a `size_t` to an `int`. -/
def asInt (n : UInt64) : Int := n.toUInt32.toInt32.toInt

/-! ## Lengths -/

/-- One turn of the loop of `decodeLength`. -/
def orByte (s : UInt64 × UInt32) (b : UInt8) : UInt64 × UInt32 :=
  (s.1 ||| (b.toUInt64 <<< s.2.toUInt64), s.2 - 8)

/-- The length, none for X.690 indefinite form, and the iterator after it. -/
def decodeLength (at_ : DecodeIterator data) :
    Result (Option UInt64 × DecodeIterator data) := do
  let b ← at_.deref
  if b < 0x80 then
    let i ← at_.plus 1
    pure (some b.toUInt64, i)
  else if b = 0x80 then
    let i ← at_.plus 1
    pure (none, i)
  else
    let byteCount := (b &&& ~~~0x80).toNat
    if byteCount > 8 then
      throwException ("can only handle 8-byte lengths, not " ++ Nat.repr byteCount)
    else
      let i ← at_.plus 1
      let e ← i.plus byteCount
      let r ← forTo e orByte i.rest i (0, UInt32.ofNat (8 * (byteCount - 1)))
      pure (some r.1.1, r.2)

/-- The type check every element decoder makes first. -/
def checkType (at_ : DecodeIterator data) (type_ : UInt8) : Result Unit := do
  let b ← at_.deref
  if b ≠ type_ then throwException ("type is " ++ hex b ++ " not " ++ hex type_) else pure ()

/-- The length after the type byte, for the elements that must have one. -/
def definiteLength (at_ : DecodeIterator data) (indefinite : String) :
    Result (UInt64 × DecodeIterator data) := do
  let i ← at_.plus 1
  let length ← decodeLength i
  match length.1 with
  | none => throwException indefinite
  | some n => pure (n, length.2)

/-! ## Integers -/

/-- One turn of the loop of `decodeIntValue`. -/
def replaceByte (s : UInt64 × UInt32) (b : UInt8) : UInt64 × UInt32 :=
  ((s.1 &&& ~~~(0xff <<< s.2.toUInt64)) ||| (b.toUInt64 <<< s.2.toUInt64), s.2 - 8)

/-- An integer in two's complement, of at most eight bytes. -/
def decodeIntValue (at_ : DecodeIterator data) (type_ : UInt8) :
    Result (UInt64 × DecodeIterator data) := do
  checkType at_ type_
  let length ← definiteLength at_ "integers with indefinite length are illegal"
  let byteCount := length.1.toUInt32
  if byteCount > 8 then
    throwException ("can only handle 8-byte integers, not " ++ Nat.repr byteCount.toNat)
  else
    let first ← length.2.deref
    -- negative numbers start from all ones
    let result : UInt64 := if first &&& 0x80 ≠ 0 then ~~~0 else 0
    let e ← length.2.plus byteCount.toNat
    let r ← forTo e replaceByte length.2.rest length.2 (result, 8 * (byteCount - 1))
    pure (r.1.1, r.2)

/-- Hundredths of a second, as milliseconds. -/
def decodeTimeTicksValue (at_ : DecodeIterator data) :
    Result (Int64 × DecodeIterator data) := do
  let r ← decodeIntValue at_ 0x43
  pure ((r.1 * 10).toInt64, r.2)

/-! ## Strings and addresses -/

/-- The bytes from `i` to the declared length on, and the iterator after them. -/
def octets (i : DecodeIterator data) (length : UInt64) :
    Result (List UInt8 × DecodeIterator data) := do
  let e ← i.plus (asInt length)
  let s ← forTo e (fun s b => s ++ [b]) i.rest i []
  pure (s.1, e)

def decodeStringValue (at_ : DecodeIterator data) (type_ : UInt8) :
    Result (List UInt8 × DecodeIterator data) := do
  checkType at_ type_
  let length ← definiteLength at_ "strings with indefinite length are illegal"
  octets length.2 length.1

def decodeIPv4AddressValue (at_ : DecodeIterator data) :
    Result (UInt32 × DecodeIterator data) := do
  checkType at_ 0x40
  let length ← definiteLength at_ "IPv4Address value with indefinite length are illegal"
  if length.1 ≠ 4 then
    throwException ("IPv4Address length " ++ Nat.repr length.1.toNat ++ " is not 4")
  else
    let s ← octets length.2 length.1
    let byte (k : Nat) : UInt32 := (s.1.getD k 0).toUInt32
    pure ((byte 0 <<< 24) + (byte 1 <<< 16) + (byte 2 <<< 8) + (byte 3 <<< 0), s.2)

/-! ## Identifiers -/

/-- `while((*i) & 0x80) { result|=(*i++)&(~0x80); result<<=7; } result|=(*i++);`,
over the bytes in front of `i`. -/
def oidComponentFrom : List UInt8 → DecodeIterator data → UInt32 →
    Result (UInt32 × DecodeIterator data)
  | [], _, _ => .error (.threw (endOfData data))
  | b :: bs, i, result =>
    if b &&& 0x80 ≠ 0 then
      oidComponentFrom bs (i.past 1) ((result ||| (b &&& ~~~0x80).toUInt32) <<< 7)
    else .ok (result ||| b.toUInt32, i.past 1)

def decodeOidComponent (at_ : DecodeIterator data) :
    Result (UInt32 × DecodeIterator data) :=
  oidComponentFrom at_.rest at_ 0

/-- The `atEnd` of `decodeOidValue`. It is declared `throw()`, so reading at the end of
the data from inside it terminates the process; and with an indefinite length it
compares `*i+1`, not the next byte, with zero, so it never holds. -/
def oidAtEnd (length : Option UInt64) (start i : DecodeIterator data) : Result Bool :=
  match length with
  | none =>
    match i.deref with
    | .ok b => .ok (b == 0 && b.toNat + 1 == 0)
    | .error _ => .error (.died .unexpected)
  | some n => do
    let e ← start.plus (asInt n)
    pure (i == e)

/-- The loop of `decodeOidValue`: a component each turn. -/
def oidTurn (length : Option UInt64) (start i : DecodeIterator data) :
    Result (Lib.Turn (DecodeIterator data) UInt32) := do
  if ← oidAtEnd length start i then pure .leave
  else
    let c ← decodeOidComponent i
    pure (.item c.1 c.2)

def decodeOidValue (at_ : DecodeIterator data) : Result (Oid × DecodeIterator data) := do
  checkType at_ 0x06
  let length ← at_.plus 1 >>= decodeLength
  let first ← length.2.deref
  if first ≠ 0x2b then
    throwException ("oid starts with " ++ hex first ++ " not 0x2b")
  else
    let i ← length.2.next
    let r ← Lib.collect .endless (oidTurn length.1 length.2) (data.length + 1) i
    -- skip 2x zero bytes
    let i ← if length.1.isNone then r.2.plus 2 else pure r.2
    pure (⟨1 :: 3 :: r.1⟩, i)

/-! ## Values -/

/-- A null of indefinite length: `while((*j)!=0 || (*j+1) !=0) ++j;` compares `*j+1`,
not the next byte, with zero, so it reads on to the end of the data. -/
def nullIndefinite : List UInt8 → DecodeIterator data → Result (DecodeIterator data)
  | [], _ => .error (.threw (endOfData data))
  | b :: bs, j =>
    if b ≠ 0 ∨ b.toNat + 1 ≠ 0 then nullIndefinite bs (j.past 1) else .ok j

def decodeNull (i : DecodeIterator data) : Result (DecodeIterator data) := do
  let l ← i.plus 1 >>= decodeLength
  match l.1 with
  | none =>
    let j ← i.plus 2
    nullIndefinite j.rest j
  | some n => l.2.plus (asInt n)

/-- Counters and gauges of 32 bits. -/
def decodeUInt32Value (i : DecodeIterator data) (type_ : UInt8) (name : String) :
    Result (UInt32 × DecodeIterator data) := do
  let v ← decodeIntValue i type_
  if v.1 > 0xffffffff then
    throwException (Nat.repr v.1.toNat ++ " is too big to be a " ++ name
      ++ " (UINT32_MAX == 4294967295)")
  else pure (v.1.toUInt32, v.2)

def decodeValue (i : DecodeIterator data) : Result (Value × DecodeIterator data) := do
  let type_ ← i.deref
  if type_ = 0x05 then
    let j ← decodeNull i
    pure (.nullValue, j)
  else if type_ = 0x06 then
    let v ← decodeOidValue i
    pure (.oidValue v.1, v.2)
  else if type_ = 0x04 then
    let v ← decodeStringValue i 0x04
    pure (.stringValue v.1, v.2)
  else if type_ = 0x02 then
    let v ← decodeIntValue i 0x02
    pure (.intValue v.1.toInt64, v.2)
  else if type_ = 0x40 then
    let v ← decodeIPv4AddressValue i
    pure (.ipv4AddressValue v.1, v.2)
  else if type_ = 0x41 then
    let v ← decodeUInt32Value i 0x41 "Counter32"
    pure (.counter32Value v.1, v.2)
  else if type_ = 0x42 then
    let v ← decodeUInt32Value i 0x42 "Gauge32"
    pure (.gauge32Value v.1, v.2)
  else if type_ = 0x43 then
    let v ← decodeIntValue i 0x43
    pure (.timeTicksValue (v.1 * 10).toInt64, v.2)
  else if type_ = 0x44 then
    let v ← decodeStringValue i 0x44
    pure (.opaqueValue v.1, v.2)
  else if type_ = 0x46 then
    let v ← decodeIntValue i 0x46
    pure (.counter64Value v.1, v.2)
  else throwException ("decoding of type " ++ hex type_ ++ " is not implemented")

/-- The type byte, the length (none if indefinite) and the iterator at the content. -/
def decodeSequenceTypeAndLength (at_ : DecodeIterator data) :
    Result ((UInt8 × Option UInt64) × DecodeIterator data) := do
  let sequenceType ← at_.deref
  let length ← at_.plus 1 >>= decodeLength
  pure ((sequenceType, length.1), length.2)

end Urnest.Snmp
