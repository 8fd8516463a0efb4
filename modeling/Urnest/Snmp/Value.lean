import Urnest.Snmp.Exception

/-!
# Values and variables

The ten classes of value an SNMP variable can hold, and the variable itself: an
identifier with either a value or one of the three markers a V2c agent sends in a
value's place. Integers have the widths the source stores them in. A time is kept
in milliseconds, as `std::chrono` does, though it travels in hundredths of a second.
-/

namespace Urnest.Snmp

/-- A value. -/
inductive Value where
  | intValue (val : Int64)
  | stringValue (val : List UInt8)
  | oidValue (val : Oid)
  | nullValue
  | ipv4AddressValue (val : UInt32)
  | counter32Value (val : UInt32)
  | gauge32Value (val : UInt32)
  /-- milliseconds -/
  | timeTicksValue (val : Int64)
  | opaqueValue (val : List UInt8)
  | counter64Value (val : UInt64)
  deriving DecidableEq, Repr

/-- What stands in for a value that the agent does not have. -/
inductive Marker where
  | noSuchObject
  | noSuchInstance
  | endOfMibView
  deriving DecidableEq, Repr

/-- An identifier with its value, or with the reason there is none. -/
structure SnmpVar where
  oid : Oid
  value : Marker ⊕ Value
  deriving DecidableEq

/-! ## Text

The messages of some exceptions show a value, so `str` is modelled with the helpers
of `xju::format` it calls. -/

/-- `Oid::toString` -/
def Oid.toString (x : Oid) : String :=
  String.join (x.components.map fun c => "." ++ Nat.repr c.toNat)

/-- `xju::format::int_(x, 2)`: at least two characters, filled with zeros. -/
def int2 (x : Int) : String :=
  let s := ToString.toString x
  if s.length < 2 then "0" ++ s else s

/-- `xju::format::octal` of one byte. -/
def octal (c : UInt8) : String :=
  "0" ++ Nat.repr (c.toNat / 64) ++ Nat.repr (c.toNat / 8 % 8) ++ Nat.repr (c.toNat % 8)

/-- `xju::format::cEscapeStringChar` -/
def cEscapeStringChar (c : UInt8) : String :=
  if c = 0x22 then "\\\""
  else if c = 0x5c then "\\\\"
  else if c = 0x07 then "\\a"
  else if c = 0x08 then "\\b"
  else if c = 0x0c then "\\f"
  else if c = 0x0a then "\\n"
  else if c = 0x0d then "\\r"
  else if c = 0x09 then "\\t"
  else if c = 0x0b then "\\v"
  else if 0x20 ≤ c ∧ c < 0x7f then String.singleton (Char.ofNat c.toNat)
  else "\\" ++ octal c

namespace Value

/-- `str()` -/
def str : Value → String
  | intValue val => ToString.toString val.toInt
  | stringValue val => "\"" ++ String.join (val.map cEscapeStringChar) ++ "\""
  | oidValue val => val.toString
  | nullValue => "null"
  | ipv4AddressValue val =>
    Nat.repr (val >>> 24).toUInt8.toNat ++ "." ++ Nat.repr (val >>> 16).toUInt8.toNat
      ++ "." ++ Nat.repr (val >>> 8).toUInt8.toNat ++ "." ++ Nat.repr val.toUInt8.toNat
  | counter32Value val => Nat.repr val.toNat
  | gauge32Value val => Nat.repr val.toNat
  | timeTicksValue val =>
    ToString.toString (val / 1000).toInt ++ "." ++ int2 (val % 1000 / 10).toInt ++ "s"
  | opaqueValue val => " ".intercalate (val.map hex)
  | counter64Value val => Nat.repr val.toNat

/-- `timeTicksValue()`, which only a time has. -/
def getTimeTicks : Value → Result Int64
  | timeTicksValue val => .ok val
  | v => throwException (v.str ++ " is not an TimeTicks")

/-- `oidValue()`, which only an identifier has. -/
def getOid : Value → Result Oid
  | oidValue val => .ok val
  | v => throwException (v.str ++ " is not an Oid")

end Value

end Urnest.Snmp
