import Urnest.Lib.BigEndian
import Urnest.Lib.Throwing
import Urnest.Xju.Exception

/-!
# Netflow version 5

`encode` and `decode` of v5.hcp. `encode` writes a header of 24 bytes and a record of 48
for each flow; `decode` reads fields at their offsets for as long as there are bytes.

A time is a count of nanoseconds since the epoch, and an up time one of milliseconds,
both `int64_t` in the source; no packet makes one that overflows. The helpers `get16` and
`get32` of `decode` have no declared type, and what they return is an `int`.
-/

namespace Urnest.Netflow.V5

open Lib Xju

/-! ## Packets -/

structure Header where
  /-- milliseconds -/
  routerUpTime_ : Int
  /-- nanoseconds since the epoch -/
  routerTime_ : Int
  flowNumberOfFirstFlow_ : UInt32
  deriving DecidableEq

structure Flow where
  srcAddress_ : UInt32
  srcPort_ : UInt16
  destAddress_ : UInt32
  destPort_ : UInt16
  inputInterfaceSnmpIndex_ : UInt32
  outputInterfaceSnmpIndex_ : UInt32
  nextHopRouter_ : UInt32
  /-- nanoseconds since the epoch -/
  flowStart_ : Int
  /-- nanoseconds since the epoch -/
  flowEnd_ : Int
  packetsInFlow_ : UInt32
  bytesInFlow_ : UInt32
  tcpFlags_ : UInt8
  ipProtocol_ : UInt8
  ipTOS_ : UInt8
  srcNetmaskBits_ : UInt8
  dstNetmaskBits_ : UInt8
  bgpSrcAs_ : UInt16
  bgpDstAs_ : UInt16
  deriving DecidableEq

/-- `std::pair<Header,std::vector<Flow> >` -/
abbrev Packet := Header × List Flow

/-- `std::chrono::milliseconds`, as nanoseconds -/
def milliseconds (n : Int) : Int := n * 1000000

/-- `std::chrono::seconds`, as nanoseconds -/
def seconds (n : Int) : Int := n * 1000000000

/-- When the router was started, in nanoseconds since the epoch. -/
def Header.routerStartTime (h : Header) : Int := h.routerTime_ - milliseconds h.routerUpTime_

/-! ## Reading -/

abbrev Result := Except Exception

/-- `throw xju::Exception(cause)` -/
def throwException {α : Type} (cause : String) : Result α := .error ⟨cause, []⟩

/-- `catch(xju::Exception& e) { e.addContext(s); throw; }` -/
def addContext {α : Type} (s : String) : Result α → Result α
  | .ok a => .ok a
  | .error e => .error (e.addContext s)

section Fields

variable (udpMessageContent : List UInt8)

/-- `udpMessageContent[i]` -/
def byteAt (i : Nat) : UInt8 := udpMessageContent.getD i 0

/-- `(uint16_t)udpMessageContent[i]`, promoted to `int` for the shift. -/
def promoted (i : Nat) : Int32 := (byteAt udpMessageContent i).toUInt32.toInt32

def get8 (i : Nat) (name : String) : Result UInt8 :=
  addContext ("get byte field " ++ quote name)
    (if i ≥ udpMessageContent.length then
      throwException ("byte " ++ Nat.repr i ++ " is beyond end of data")
    else .ok (byteAt udpMessageContent i))

def get16 (i : Nat) (name : String) : Result Int32 :=
  addContext ("get uint16_t field " ++ quote name)
    (if i + 1 ≥ udpMessageContent.length then
      throwException
        ("uint16_t starting at byte " ++ Nat.repr i ++ " ends beyond end of data")
    else .ok
      ((promoted udpMessageContent (i + 0) <<< 8) + (promoted udpMessageContent (i + 1) <<< 0)))

def get32 (i : Nat) (name : String) : Result Int32 :=
  addContext ("get uint32_t field " ++ quote name)
    (if i + 3 ≥ udpMessageContent.length then
      throwException
        ("uint32_t starting at byte " ++ Nat.repr i ++ " ends beyond end of data")
    else .ok
      ((promoted udpMessageContent (i + 0) <<< 24) + (promoted udpMessageContent (i + 1) <<< 16)
        + (promoted udpMessageContent (i + 2) <<< 8) + (promoted udpMessageContent (i + 3) <<< 0)))

/-- The conversion of an `int` to `uint16_t` -/
def asUInt16 (n : Int32) : UInt16 := n.toUInt32.toUInt16

/-- The header. The order in which the arguments of a constructor are evaluated is left
open, and decides no more than which field an exception names; the tests have the last
one first. -/
def getHeader : Result Header := do
  let flowSequence ← get32 udpMessageContent 16 "flow_sequence"
  let secs ← get32 udpMessageContent 8 "unix_secs"
  let nsecs ← get32 udpMessageContent 12 "unix_nsecs"
  let sysUptime ← get32 udpMessageContent 4 "sysUptime"
  pure {
    routerUpTime_ := sysUptime.toInt
    routerTime_ := seconds secs.toInt + nsecs.toInt
    flowNumberOfFirstFlow_ := flowSequence.toUInt32 }

/-- The record at `i`. -/
def getFlow (h : Header) (i : Nat) : Result Flow := do
  let bgpDstAs ← get16 udpMessageContent (i + 42) "bgp dst AS"
  let bgpSrcAs ← get16 udpMessageContent (i + 40) "bgp src AS"
  let dstNetmaskBits ← get8 udpMessageContent (i + 45) "dstaddr netmask"
  let srcNetmaskBits ← get8 udpMessageContent (i + 44) "srcaddr netmask"
  let ipTOS ← get8 udpMessageContent (i + 39) "ip TOS"
  let ipProtocol ← get8 udpMessageContent (i + 38) "ip protocol"
  let tcpFlags ← get8 udpMessageContent (i + 37) "tcp flags"
  let bytesInFlow ← get32 udpMessageContent (i + 20) "bytes"
  let packetsInFlow ← get32 udpMessageContent (i + 16) "packets"
  let flowEnd ← get32 udpMessageContent (i + 28) "end"
  let flowStart ← get32 udpMessageContent (i + 24) "start"
  let nextHopRouter ← get32 udpMessageContent (i + 8) "nexthop"
  let outputInterface ← get16 udpMessageContent (i + 14) "output interface"
  let inputInterface ← get16 udpMessageContent (i + 12) "input interface"
  let destPort ← get16 udpMessageContent (i + 34) "dstport"
  let destAddress ← get32 udpMessageContent (i + 4) "dstaddr"
  let srcPort ← get16 udpMessageContent (i + 32) "srcport"
  let srcAddress ← get32 udpMessageContent (i + 0) "srcaddr"
  pure {
    srcAddress_ := srcAddress.toUInt32
    srcPort_ := asUInt16 srcPort
    destAddress_ := destAddress.toUInt32
    destPort_ := asUInt16 destPort
    -- the constructor takes a `uint16_t`
    inputInterfaceSnmpIndex_ := (asUInt16 inputInterface).toUInt32
    outputInterfaceSnmpIndex_ := (asUInt16 outputInterface).toUInt32
    nextHopRouter_ := nextHopRouter.toUInt32
    flowStart_ := h.routerTime_ - milliseconds h.routerUpTime_ + milliseconds flowStart.toInt
    flowEnd_ := h.routerTime_ - milliseconds h.routerUpTime_ + milliseconds flowEnd.toInt
    packetsInFlow_ := packetsInFlow.toUInt32
    bytesInFlow_ := bytesInFlow.toUInt32
    tcpFlags_ := tcpFlags
    ipProtocol_ := ipProtocol
    ipTOS_ := ipTOS
    srcNetmaskBits_ := srcNetmaskBits
    dstNetmaskBits_ := dstNetmaskBits
    bgpSrcAs_ := asUInt16 bgpSrcAs
    bgpDstAs_ := asUInt16 bgpDstAs }

/-- `for(size_t i=24; i<udpMessageContent.size(); i+=48)`, from a later `i` and the
records there are by then. -/
def getFlows (h : Header) (i : Nat) (records : List Flow) : Result (List Flow) :=
  if i < udpMessageContent.length then do
    let r ← addContext
      ("decode record after successfully decoding " ++ Nat.repr records.length ++ " records")
      (getFlow udpMessageContent h i)
    getFlows h (i + 48) (records ++ [r])
  else .ok records
termination_by udpMessageContent.length - i

def decode : Result Packet :=
  addContext
    ("decode cisco netflow v5 header and records from "
      ++ Nat.repr udpMessageContent.length ++ " bytes of data") do
    let version ← get16 udpMessageContent 0 "version"
    if version ≠ 5 then
      throwException ("data is netflow version " ++ ToString.toString version.toInt ++ ", not 5")
    else
      let h ← getHeader udpMessageContent
      let records ← getFlows udpMessageContent h 24 []
      pure (h, records)

end Fields

/-! ## Writing -/

def put8 (n : UInt8) : List UInt8 := [n]

def put16 (n : UInt16) : List UInt8 := [(n >>> 8).toUInt8, (n >>> 0).toUInt8]

def put32 (n : UInt32) : List UInt8 :=
  [(n >>> 24).toUInt8, (n >>> 16).toUInt8, (n >>> 8).toUInt8, (n >>> 0).toUInt8]

/-- The header of a packet with so many flows. -/
def putHeader (x : Header) (size : Nat) : List UInt8 :=
  -- `duration_cast` rounds towards zero
  let s := x.routerTime_.tdiv 1000000000
  let n := x.routerTime_ - seconds s
  put16 5 ++ put16 (UInt16.ofNat size) ++ put32 (UInt32.ofInt x.routerUpTime_)
    ++ put32 (UInt32.ofInt s) ++ put32 (UInt32.ofInt n)
    ++ put32 x.flowNumberOfFirstFlow_ ++ put8 0 ++ put8 0 ++ put16 0

def putFlow (routerStartTime : Int) (f : Flow) : List UInt8 :=
  put32 f.srcAddress_ ++ put32 f.destAddress_ ++ put32 f.nextHopRouter_
    ++ put16 f.inputInterfaceSnmpIndex_.toUInt16 ++ put16 f.outputInterfaceSnmpIndex_.toUInt16
    ++ put32 f.packetsInFlow_ ++ put32 f.bytesInFlow_
    ++ put32 (UInt32.ofInt ((f.flowStart_ - routerStartTime).tdiv 1000000))
    ++ put32 (UInt32.ofInt ((f.flowEnd_ - routerStartTime).tdiv 1000000))
    ++ put16 f.srcPort_ ++ put16 f.destPort_ ++ put8 0 ++ put8 f.tcpFlags_ ++ put8 f.ipProtocol_
    ++ put8 f.ipTOS_ ++ put16 f.bgpSrcAs_ ++ put16 f.bgpDstAs_ ++ put8 f.srcNetmaskBits_
    ++ put8 f.dstNetmaskBits_ ++ put16 0

/-- `encode`, none where an assertion fails. -/
def encode (x : Packet) : Option (List UInt8) :=
  let header := putHeader x.1 x.2.length
  if header.length = 24 then
    let result := header ++ x.2.flatMap (putFlow x.1.routerStartTime)
    if result.length = 24 + 48 * x.2.length then some result else none
  else none

end Urnest.Netflow.V5
