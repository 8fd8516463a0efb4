import Urnest.Lib.Run
import Urnest.Snmp.Oid

/-!
# Exceptions and faults

What an SNMP function can do other than return: throw one of the exceptions below,
or fail in a way no caller can handle. An exception keeps the cause it was thrown
with; the context that handlers add on its way out is text for a log and is left
out.
-/

namespace Urnest.Snmp

/-- A byte in hexadecimal, as `xju::format::hex` writes it. -/
def hex (x : UInt8) : String :=
  let digit (n : Nat) : Char := (Nat.toDigits 16 n).headD '0'
  String.ofList ['0', 'x', digit (x.toNat / 16), digit (x.toNat % 16)]

/-- Errors that name the parameter they are about, the subclasses of `InvalidParam`. -/
inductive InvalidParam where
  | noSuchName
  | badValue
  | readOnly
  | genErr
  | noAccess
  | wrongType
  | wrongLength
  | wrongEncoding
  | wrongValue
  | noCreation
  | inconsistentValue
  | resourceUnavailable
  | commitFailed
  | notWritable
  | inconsistentName
  deriving DecidableEq, Repr

/-- Exceptions, by class. -/
inductive Exception where
  /-- a plain `xju::Exception` -/
  | exception (cause : String)
  | snmpVersionMismatch (got expected : UInt8)
  | requestTypeMismatch (got expected : UInt8)
  | responseIdMismatch (got expected : UInt64)
  | responseTypeMismatch (got expected : UInt8)
  | tooBig
  | undoFailed
  /-- `SnmpVar::EndOfMibView` -/
  | endOfMibView (oid : Oid)
  | invalidParam (error : InvalidParam) (param : Oid)
  deriving DecidableEq, Repr

/-- Failures that end the process, or never end. -/
inductive Fault where
  /-- an `xju::assert_*` call failed, which aborts -/
  | assertFailed
  /-- an exception left a function declared `throw()`, which terminates -/
  | unexpected
  /-- an iterator was used outside its range -/
  | outOfRange
  /-- a loop did not end -/
  | endless
  deriving DecidableEq, Repr

/-- What an SNMP function does. -/
abbrev Result (α : Type) := Lib.Run Exception Fault α

/-- `throw xju::Exception(cause)` -/
abbrev throwException {α : Type} (cause : String) : Result α :=
  Lib.Run.throws (.exception cause)

end Urnest.Snmp
