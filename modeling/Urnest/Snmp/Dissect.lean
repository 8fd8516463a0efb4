import Urnest.Lib.Account
import Urnest.Snmp.ReadBack
import Urnest.Snmp.V3

/-!
# Dissecting data

Where the declared lengths in the data would take a decoder. For each element there
is an account, read off the bytes alone: which lengths have to lie inside the data,
and where the next element starts. Nothing is decoded here beyond what decides that:
types, lengths, the integers a decoder compares with what it expects.

The declared lengths become `int`s where the iterator moves by them, so a length of
`2 ^ 31` and more may also move it back (`jump`).
-/

namespace Urnest.Snmp

open DecodeIterator Lib

variable {data : List UInt8}

/-! ## Lengths -/

/-- `n` bytes on or back, as far as there is data. -/
def DecodeIterator.moved (i : DecodeIterator data) (n : Int) : DecodeIterator data :=
  ⟨min (i.at_ + n).toNat data.length, Nat.min_le_right ..⟩

/-- Moving by a declared length has to stay in the data. -/
def jump (n : UInt64) (i : DecodeIterator data) : Account (DecodeIterator data) :=
  .require (asInt n ≤ i.remaining ∧ 0 ≤ i.at_ + asInt n) (i.moved (asInt n))

def octetAt (i : DecodeIterator data) : Account (UInt8 × DecodeIterator data) :=
  match i.rest with
  | [] => .stop
  | b :: _ => .done (b, i.past 1)

/-- The octets of a long form have to be in the data. -/
def lengthAt (i : DecodeIterator data) : Account (Option UInt64 × DecodeIterator data) :=
  match i.rest with
  | [] => .stop
  | b :: bs =>
    if b < 0x80 then .done (some b.toUInt64, i.past 1)
    else if b = 0x80 then .done (none, i.past 1)
    else
      let n := (b &&& ~~~0x80).toNat
      if n > 8 then .stop
      else .require (n ≤ bs.length) (some (setBytes 0 (bs.take n)), i.past (1 + n))

/-- The header of a sequence: its type and its length. -/
def headerAt (i : DecodeIterator data) :
    Account ((UInt8 × Option UInt64) × DecodeIterator data) :=
  (octetAt i).bind fun t => (lengthAt t.2).bind fun l => .done ((t.1, l.1), l.2)

/-- The header of an element that must have a type and a definite length. -/
def definiteAt (type_ : UInt8) (i : DecodeIterator data) :
    Account (UInt64 × DecodeIterator data) :=
  (octetAt i).bind fun t => .guard (t.1 = type_) <|
    (lengthAt t.2).bind fun l =>
      match l.1 with
      | none => .stop
      | some n => .done (n, l.2)

/-! ## Elements -/

/-- The content of an integer: its low 32 bits of length, if those are at most eight,
have to be in the data. Its sign is that of the first byte, be it its own or not. -/
def intContentAt (n : UInt32) (i : DecodeIterator data) :
    Account (UInt64 × DecodeIterator data) :=
  match i.rest with
  | [] => .stop
  | b :: bs =>
    .require (n.toNat ≤ bs.length + 1)
      (setBytes (if 0x80 ≤ b then ~~~0 else 0) ((b :: bs).take n.toNat), i.past n.toNat)

def intAt (type_ : UInt8) (i : DecodeIterator data) : Account (UInt64 × DecodeIterator data) :=
  (definiteAt type_ i).bind fun l =>
    if l.1.toUInt32 > 8 then .stop else intContentAt l.1.toUInt32 l.2

/-- The content of a string, of which the size is shown. After a move back there is no
way forward to the end of the string, and reading it runs out of data. -/
def octetsAt (n : UInt64) (i : DecodeIterator data) : Account (Nat × DecodeIterator data) :=
  (jump n i).bind fun e => .guard (0 ≤ asInt n) (.done ((asInt n).toNat, e))

def stringAt (type_ : UInt8) (i : DecodeIterator data) : Account (Nat × DecodeIterator data) :=
  (definiteAt type_ i).bind fun l => octetsAt l.1 l.2

def addressAt (i : DecodeIterator data) : Account (DecodeIterator data) :=
  (definiteAt 0x40 i).bind fun l => .guard (l.1 = 4) <|
    (octetsAt l.1 l.2).bind fun s => .done s.2

/-- The bytes do not stop in the middle of a component. -/
def endsComponent (bs : List UInt8) : Bool := bs.getLast?.all (· < 0x80)

/-- The components of an identifier whose content starts at `i`. With a definite length
they have to end where it says; with none, they go on to the end of the data, and the
last of them has to be cut off there. -/
def componentsAt (length : Option UInt64) (i : DecodeIterator data) :
    Account (DecodeIterator data) :=
  match length with
  | some n =>
    (jump n i).bind fun e =>
      .guard (i.at_ + 1 ≤ e.at_ ∧ endsComponent ((i.past 1).rest.take (e.at_ - (i.at_ + 1))) = true)
        (.done e)
  | none => ⟨endsComponent (i.past 1).rest = false, none⟩

def oidAt (i : DecodeIterator data) : Account (DecodeIterator data) :=
  (octetAt i).bind fun t => .guard (t.1 = 0x06) <|
    (lengthAt t.2).bind fun l =>
      (octetAt l.2).bind fun first => .guard (first.1 = 0x2b) (componentsAt l.1 l.2)

def nullAt (i : DecodeIterator data) : Account (DecodeIterator data) :=
  (headerAt i).bind fun h =>
    match h.1.2 with
    | none => .stop
    | some n => jump n h.2

/-- An integer that has to fit in 32 bits. -/
def uint32At (type_ : UInt8) (i : DecodeIterator data) : Account (DecodeIterator data) :=
  (intAt type_ i).bind fun v => if v.1 > 0xffffffff then .stop else .done v.2

def valueAt (i : DecodeIterator data) : Account (DecodeIterator data) :=
  (octetAt i).bind fun t =>
    if t.1 = 0x05 then nullAt i
    else if t.1 = 0x06 then oidAt i
    else if t.1 = 0x04 then (stringAt 0x04 i).bind fun v => .done v.2
    else if t.1 = 0x02 then (intAt 0x02 i).bind fun v => .done v.2
    else if t.1 = 0x40 then addressAt i
    else if t.1 = 0x41 then uint32At 0x41 i
    else if t.1 = 0x42 then uint32At 0x42 i
    else if t.1 = 0x43 then (intAt 0x43 i).bind fun v => .done v.2
    else if t.1 = 0x44 then (stringAt 0x44 i).bind fun v => .done v.2
    else if t.1 = 0x46 then (intAt 0x46 i).bind fun v => .done v.2
    else .stop

/-! ## Variables -/

/-- The value of a variable; after a variable of indefinite length come two more bytes. -/
def varValueAt (length : Option UInt64) (i : DecodeIterator data) :
    Account (DecodeIterator data) :=
  (valueAt i).bind fun j =>
    if length.isNone then .require (2 ≤ j.remaining) (j.past 2) else .done j

def varAt (i : DecodeIterator data) : Account (DecodeIterator data) :=
  (headerAt i).bind fun s => (oidAt s.2).bind fun o => varValueAt s.1.2 o

/-- A marker is passed over by the length of its variable. -/
def snmpVarAt (i : DecodeIterator data) : Account (DecodeIterator data) :=
  (headerAt i).bind fun s => (oidAt s.2).bind fun o => (octetAt o).bind fun b =>
    match Marker.ofType? b.1 with
    | some _ =>
      match s.1.2 with
      | none => .stop
      | some n => jump n s.2
    | none => varValueAt s.1.2 o

/-- Whether the variables are over, where they started from `start`. -/
def varsOverAt (length : Option UInt64) (start i : DecodeIterator data) : Account Bool :=
  match length with
  | some n => (jump n start).bind fun e => .done (i == e)
  | none =>
    (octetAt i).bind fun b =>
      if b.1 = 0 then (octetAt b.2).bind fun c => .done (c.1 == 0) else .done false

/-- A turn of the loop over the variables. -/
def varTurnAt (item : DecodeIterator data → Account (DecodeIterator data))
    (length : Option UInt64) (start i : DecodeIterator data) :
    Account (Option (DecodeIterator data)) :=
  (varsOverAt length start i).bind fun done =>
    if done then .done none else (item i).bind fun j => .done (some j)

/-- The variables, which nothing follows. Lengths that move back may make the loop go
round forever. -/
def varsAt (item : DecodeIterator data → Account (DecodeIterator data))
    (i : DecodeIterator data) : Account PUnit :=
  (headerAt i).bind fun s => ⟨Account.Lasts (varTurnAt item s.1.2 s.2) s.2, none⟩

/-! ## Messages -/

/-- The envelope; the type and the content of its inner sequence are shown. -/
def envelopeAt (data : List UInt8) (version : UInt64) :
    Account (UInt8 × DecodeIterator data) :=
  (headerAt (start data)).bind fun s1 => .guard (s1.1.1 = 0x30) <|
    (intAt 0x02 s1.2).bind fun v => .guard (v.1 = version) <|
      (stringAt 0x04 v.2).bind fun c => (headerAt c.2).bind fun s2 => .done (s2.1.1, s2.2)

def fieldsAt (item : DecodeIterator data → Account (DecodeIterator data))
    (i : DecodeIterator data) : Account PUnit :=
  (intAt 0x02 i).bind fun id => (intAt 0x02 id.2).bind fun errorStatus =>
    (intAt 0x02 errorStatus.2).bind fun ei => varsAt item ei.2

/-- A request, or a trap of V2c. -/
def requestAt (data : List UInt8) (version : UInt64) (pduType : UInt8) : Account PUnit :=
  (envelopeAt data version).bind fun e => .guard (e.1 = pduType) (fieldsAt varAt e.2)

/-- A response, whose type is not checked. -/
def responseAt (data : List UInt8) (version : UInt64)
    (item : DecodeIterator data → Account (DecodeIterator data)) : Account PUnit :=
  (envelopeAt data version).bind fun e => fieldsAt item e.2

def v1TrapAt (data : List UInt8) : Account PUnit :=
  (envelopeAt data 0).bind fun e => .guard (e.1 = 0xA4) <|
    (oidAt e.2).bind fun trapType => (addressAt trapType).bind fun origin =>
      (intAt 0x02 origin).bind fun generic => (intAt 0x02 generic.2).bind fun specific =>
        (intAt 0x43 specific.2).bind fun sysUpTime => varsAt varAt sysUpTime.2

def v3MessageAt (data : List UInt8) : Account PUnit :=
  (headerAt (start data)).bind fun s1 => .guard (s1.1.1 = 0x30) <|
    (intAt 0x02 s1.2).bind fun v => .guard (v.1 = 3) <|
      (headerAt v.2).bind fun header => .guard (header.1.1 = 0x30) <|
        (intAt 0x02 header.2).bind fun id => .guard (id.1 ≤ 0xffffffff) <|
          (intAt 0x02 id.2).bind fun maxSize =>
            .guard (484 ≤ maxSize.1) <| .guard (maxSize.1 ≤ 0xffffffff) <|
              (stringAt 0x04 maxSize.2).bind fun flags => .guard (flags.1 = 1) <|
                (intAt 0x02 flags.2).bind fun model => .guard (model.1 ≤ 0xffffffff) <|
                  (stringAt 0x04 model.2).bind fun params =>
                    (headerAt params.2).bind fun _ => .done ⟨⟩

def scopedPDUAt (data : List UInt8) : Account PUnit :=
  (headerAt (start data)).bind fun s1 => .guard (s1.1.1 = 0x30) <|
    .guard ((s1.1.2.getD 0).toNat ≤ s1.2.remaining) <|
      (stringAt 0x04 s1.2).bind fun engineID => (stringAt 0x04 engineID.2).bind fun name =>
        (headerAt name.2).bind fun s2 => fieldsAt snmpVarAt s2.2

def usmSecurityParametersAt (data : List UInt8) : Account PUnit :=
  (headerAt (start data)).bind fun s1 => .guard (s1.1.1 = 0x30) <|
    .guard (s1.1.2.isNone ∨
        s1.2.remaining = (s1.1.2.getD (UInt64.ofNat s1.2.remaining)).toNat) <|
      (stringAt 0x04 s1.2).bind fun engineID =>
        (intAt 0x02 engineID.2).bind fun boots => .guard (boots.1 ≤ 0x7fffffff) <|
          (intAt 0x02 boots.2).bind fun time => .guard (time.1 ≤ 0x7fffffff) <|
            (stringAt 0x04 time.2).bind fun userName => .guard (userName.1 ≤ 32) <|
              (stringAt 0x04 userName.2).bind fun auth =>
                (stringAt 0x04 auth.2).bind fun _ => .done ⟨⟩

end Urnest.Snmp
