import Urnest.Snmp.RoundTrip
import Urnest.Snmp.V3

/-!
# USM messages

`encodeSnmpV3UsmMessage` encodes a message twice: with a MAC of zeros, to have the
bytes to authenticate, and with the MAC of those. `decodeSnmpV3UsmMessage` finds the
MAC in the data by adding up two offsets, that of the security parameters in the
message and that of the MAC in the parameters, puts zeros in its place and compares.

That the two ends mean the same place is argued on bytes. An encoding that has a
`Hole` is the same up to the bytes put in the hole, as long as they are as many; and
what a string decoder returns is a part of the data, at the offset where it says
(`decodeStringValue_slice`).
-/

namespace Urnest.Snmp

open DecodeIterator Lib

/-! ## The messages -/

/-- What encoding and decoding are given: a MAC function with its key, the length MACs
are cut to, and encryption. -/
structure UsmCrypto where
  calculateMac : List UInt8 → List UInt8
  truncateMacTo : Nat
  /-- from user name, engine boots, engine time and data to priv data and scoped PDU data -/
  encryptScopedPduData : List UInt8 → UInt32 → UInt32 → List UInt8 → List UInt8 × List UInt8
  /-- from user name, engine boots, engine time, priv data and scoped PDU data -/
  decryptScopedPduData : List UInt8 → UInt32 → UInt32 → List UInt8 → List UInt8 →
    Result (List UInt8)

/-- `resize(n)`, which cuts or fills with zeros. -/
def resize (n : Nat) (bs : List UInt8) : List UInt8 :=
  bs.take n ++ List.replicate (n - bs.length) 0

/-- The `n` bytes from an offset on. -/
def slice (data : List UInt8) (offset n : Nat) : Result (List UInt8) :=
  if offset + n ≤ data.length then .ok ((data.drop offset).take n)
  else .error (.died .outOfRange)

/-- `std::fill` with zeros. -/
def fillZeros (data : List UInt8) (offset n : Nat) : List UInt8 :=
  data.take offset ++ (List.replicate n 0 ++ data.drop (offset + n))

/-- `calculateMac` and `resize`. -/
def UsmCrypto.truncatedMac (c : UsmCrypto) (data : List UInt8) : List UInt8 :=
  resize c.truncateMacTo (c.calculateMac data)

/-- The message with the given MAC; 3 is the number of USM. -/
def encodeWithMac (x : SnmpV3UsmMessage) (priv : List UInt8 × List UInt8) (mac : List UInt8) :
    Result (List UInt8) := do
  let securityParameters ← x.securityParameters.encode mac priv.1
  SnmpV3Message.encode ⟨x.id, x.maxSize, x.flags, 3, securityParameters, priv.2⟩

def encodeSnmpV3UsmMessage (c : UsmCrypto) (x : SnmpV3UsmMessage) : Result (List UInt8) := do
  let scopedPDU ← x.scopedPDU.encode
  let priv := c.encryptScopedPduData x.securityParameters.userName
    x.securityParameters.engineBoots x.securityParameters.engineTime scopedPDU
  let wholeMessage ← encodeWithMac x priv (List.replicate c.truncateMacTo 0)
  encodeWithMac x priv (c.truncatedMac wholeMessage)

/-- The scoped PDU is decrypted and decoded before the MAC is looked at. -/
def decodeSnmpV3UsmMessage (c : UsmCrypto) (data : List UInt8) : Result SnmpV3UsmMessage := do
  let x ← decodeSnmpV3Message data
  let y ← decodeSnmpV3UsmSecurityParameters x.1.securityParameters
  check (y.mac.length = c.truncateMacTo)
    (.exception ("expected MAC of size " ++ Nat.repr c.truncateMacTo ++ " but got MAC of size "
      ++ Nat.repr y.mac.length))
  let scopedPduData ← c.decryptScopedPduData y.params.userName y.params.engineBoots
    y.params.engineTime y.privData x.1.scopedPduData
  let scopedPDU ← decodeSnmpV3ScopedPDU scopedPduData
  let macOffsetInData := x.2 + y.macOffset
  let macInData ← slice data macOffsetInData c.truncateMacTo
  assert (macInData = y.mac)
  let calculatedMac := c.truncatedMac (fillZeros data macOffsetInData c.truncateMacTo)
  check (y.mac = calculatedMac) (.exception ("expected MAC " ++ hexBytes calculatedMac ""
    ++ "is not equal to received MAC " ++ hexBytes y.mac ""))
  pure ⟨x.1.id, x.1.maxSize, x.1.flags, y.params, scopedPDU⟩

theorem length_resize (n : Nat) (bs : List UInt8) : (resize n bs).length = n := by
  simp only [resize, List.length_append, List.length_take, List.length_replicate]
  omega

@[simp] theorem UsmCrypto.length_truncatedMac (c : UsmCrypto) (data : List UInt8) :
    (c.truncatedMac data).length = c.truncateMacTo :=
  length_resize _ _

/-! ## Where a string is -/

/-- `bs` is the part of `data` from `offset` on, and in bounds. -/
def LiesAt (data : List UInt8) (offset : Nat) (bs : List UInt8) : Prop :=
  offset + bs.length ≤ data.length ∧ (data.drop offset).take bs.length = bs

section Slice

variable {data : List UInt8} {i j : DecodeIterator data}

theorem octets_slice {length : UInt64} {s : List UInt8} (h : octets i length = .ok (s, j)) :
    j.at_ = i.at_ + s.length ∧ (data.drop i.at_).take s.length = s := by
  obtain ⟨e, he, h⟩ := Run.bind_eq_ok.mp h
  obtain ⟨r, hr, h⟩ := Run.bind_eq_ok.mp h
  cases h
  have hat := plus_eq_ok.mp he
  have hj := j.inData
  -- a length that moves back runs the loop into the end of the data
  have hle : i.at_ ≤ j.at_ := by
    by_contra hlt
    rw [forTo_of_lt (by omega)] at hr
    cases hr
  have hpast : i.past (j.at_ - i.at_) = j := by
    apply DecodeIterator.ext
    simp only [past]
    omega
  have hn : j.at_ - i.at_ ≤ i.remaining := by
    simp only [remaining]
    omega
  have hfold := forTo_past (f := fun s b => s ++ [b]) hn []
  rw [hpast, hr, foldl_snoc, List.nil_append] at hfold
  cases hfold
  have hlen : (i.rest.take (j.at_ - i.at_)).length = j.at_ - i.at_ := by
    rw [List.length_take, length_rest]
    omega
  simp only [hlen]
  exact ⟨by omega, rfl⟩

/-- What a string decoder returns is the part of the data that ends where the iterator
it returns is. -/
theorem decodeStringValue_slice {type_ : UInt8} {s : List UInt8}
    (h : decodeStringValue i type_ = .ok (s, j)) :
    s.length ≤ j.at_ ∧ (data.drop (j.at_ - s.length)).take s.length = s := by
  obtain ⟨_, -, h⟩ := Run.bind_eq_ok.mp h
  obtain ⟨length, -, h⟩ := Run.bind_eq_ok.mp h
  obtain ⟨hat, hslice⟩ := octets_slice h
  have hsub : j.at_ - s.length = length.2.at_ := by omega
  rw [hsub]
  exact ⟨by omega, hslice⟩

/-- The offset that both V3 decoders compute for a string they have just read. -/
theorem offset_slice {type_ : UInt8} {s : List UInt8}
    (h : decodeStringValue i type_ = .ok (s, j)) :
    LiesAt data ((start data).remaining - j.remaining - s.length) s := by
  obtain ⟨hle, hslice⟩ := decodeStringValue_slice h
  have hj := j.inData
  have hoffset : (start data).remaining - j.remaining - s.length = j.at_ - s.length := by
    simp only [remaining, start]
    omega
  rw [LiesAt, hoffset]
  exact ⟨by omega, hslice⟩

end Slice

/-- The security parameters are in the data at the offset returned with them. -/
theorem decodeSnmpV3Message_liesAt {data : List UInt8} {x : SnmpV3Message × Nat}
    (h : decodeSnmpV3Message data = .ok x) : LiesAt data x.2 x.1.securityParameters := by
  simp only [decodeSnmpV3Message, Run.bind_eq_ok] at h
  obtain ⟨_, -, _, -, _, -, _, -, _, -, _, -, _, -, _, -, _, -, _, -, _, -, _, -, _, -, _, -, _,
    -, s, hs, _, -, h⟩ := h
  have hoffset := offset_slice hs
  split_ifs at h
  all_goals
    simp only [Run.bind_eq_ok] at h
    obtain ⟨_, -, _, -, h⟩ := h
    cases h
    exact hoffset

/-- The MAC is in the parameters at the offset returned with it. -/
theorem decodeSnmpV3UsmSecurityParameters_liesAt {data : List UInt8}
    {y : DecodedUsmSecurityParameters} (h : decodeSnmpV3UsmSecurityParameters data = .ok y) :
    LiesAt data y.macOffset y.mac := by
  simp only [decodeSnmpV3UsmSecurityParameters, Run.bind_eq_ok] at h
  obtain ⟨_, -, _, -, _, -, _, -, _, -, _, -, _, -, _, -, _, -, _, -, s, hs, _, -, _, -, h⟩ := h
  cases h
  exact offset_slice hs

/-- A part of a part, by adding up the offsets. -/
theorem LiesAt.trans {data part inner : List UInt8} {p q : Nat} (hpart : LiesAt data p part)
    (hinner : LiesAt part q inner) : LiesAt data (p + q) inner := by
  obtain ⟨hp, hpart⟩ := hpart
  obtain ⟨hq, hinner⟩ := hinner
  refine ⟨by omega, ?_⟩
  conv_rhs => rw [← hinner, ← hpart]
  rw [List.drop_take, List.take_take, List.drop_drop]
  congr 1
  omega

theorem LiesAt.slice_eq {data bs : List UInt8} {offset n : Nat} (h : LiesAt data offset bs)
    (hn : bs.length = n) : slice data offset n = .ok bs := by
  subst hn
  rw [slice, if_pos h.1, h.2]

/-! ## Encodings with a hole -/

/-- With `n` bytes put in, the bytes are the same in front of them, and `after` behind. -/
def Hole (n : Nat) (after : List UInt8) (f : List UInt8 → List UInt8) : Prop :=
  ∃ before, ∀ bs, bs.length = n → f bs = before ++ (bs ++ after)

theorem Hole.id (n : Nat) : Hole n [] fun bs => bs := ⟨[], fun bs _ => by simp⟩

theorem Hole.cons {n : Nat} {after : List UInt8} {f : List UInt8 → List UInt8}
    (h : Hole n after f) (as : List UInt8) : Hole n after fun bs => as ++ f bs := by
  obtain ⟨before, hf⟩ := h
  exact ⟨as ++ before, fun bs hbs => by simp [hf bs hbs]⟩

theorem Hole.snoc {n : Nat} {after : List UInt8} {f : List UInt8 → List UInt8}
    (h : Hole n after f) (as : List UInt8) : Hole n (after ++ as) fun bs => f bs ++ as := by
  obtain ⟨before, hf⟩ := h
  exact ⟨before, fun bs hbs => by simp [hf bs hbs]⟩

/-- The length in the header of a sequence does not depend on what is in the hole. -/
theorem Hole.sequence {n : Nat} {after : List UInt8} {f : List UInt8 → List UInt8}
    (h : Hole n after f) (sequenceType : UInt8) :
    Hole n after fun bs => sequenceBytes sequenceType (f bs) := by
  obtain ⟨before, hf⟩ := h
  refine ⟨sequenceType :: encodeLength (before.length + (n + after.length)) ++ before,
    fun bs hbs => ?_⟩
  simp [sequenceBytes, hf bs hbs, hbs]

theorem Hole.octets {n : Nat} {after : List UInt8} {f : List UInt8 → List UInt8}
    (h : Hole n after f) (asn1Type : UInt8) :
    Hole n after fun bs => encodeOctetString asn1Type (f bs) :=
  h.sequence asn1Type

/-- Zeros in the hole are what `fillZeros` makes of any other bytes there. -/
theorem Hole.fillZeros {n : Nat} {after : List UInt8} {f : List UInt8 → List UInt8}
    (h : Hole n after f) {bs : List UInt8} (hbs : bs.length = n) {offset : Nat}
    (hoffset : offset + n + after.length = (f bs).length) :
    fillZeros (f bs) offset n = f (List.replicate n 0) := by
  obtain ⟨before, hf⟩ := h
  have hlen := congrArg List.length (hf bs hbs)
  simp only [List.length_append] at hlen
  have hbefore : offset = before.length := by omega
  rw [hf bs hbs, hf _ (List.length_replicate ..), Snmp.fillZeros, hbefore, List.take_left,
    ← List.drop_drop, List.drop_left, ← hbs, List.drop_left]

/-! ## Layouts -/

theorem preEncoded_writes (bs : List UInt8) : (preEncoded bs).Writes bs := ⟨rfl, rfl⟩

/-- The bytes of a scoped PDU. -/
def SnmpV3ScopedPDU.bytes (x : SnmpV3ScopedPDU) : List UInt8 :=
  sequenceBytes 0x30 (encodeOctetString 0x04 x.contextEngineID
    ++ (encodeOctetString 0x04 x.contextName
    ++ sequenceBytes x.pdu.pduType
      (fieldsBytes (Int64.ofUInt64 x.pdu.requestId) (Int64.ofUInt64 x.pdu.error)
        (Int64.ofUInt64 x.pdu.errorIndex) (x.pdu.vars.flatMap SnmpVar.bytes))))

theorem SnmpV3ScopedPDU.encode_eq {x : SnmpV3ScopedPDU} (h : ∀ v ∈ x.pdu.vars, v.encodable) :
    x.encode = .ok x.bytes :=
  ((ItemsWrite.cons (stringEncoder_writes _) (.cons (stringEncoder_writes _)
    (.singleton ((fields_write _ _ _
      (.map fun v hv => snmpVarEncoder_writes (h v hv))).sequence x.pdu.pduType)))).sequence
    0x30).encodeMessage

/-- The bytes of security parameters. -/
def SnmpV3UsmSecurityParameters.bytes (x : SnmpV3UsmSecurityParameters)
    (priv mac : List UInt8) : List UInt8 :=
  sequenceBytes 0x30 (encodeOctetString 0x04 x.engineID
    ++ (encodeInt 0x02 (Int64.ofUInt64 x.engineBoots.toUInt64)
    ++ (encodeInt 0x02 (Int64.ofUInt64 x.engineTime.toUInt64)
    ++ (encodeOctetString 0x04 x.userName
    ++ (encodeOctetString 0x04 mac ++ encodeOctetString 0x04 priv)))))

theorem SnmpV3UsmSecurityParameters.encode_eq (x : SnmpV3UsmSecurityParameters)
    (mac priv : List UInt8) : x.encode mac priv = .ok (x.bytes priv mac) :=
  ((ItemsWrite.cons (stringEncoder_writes _) (.cons (intEncoder_writes _)
    (.cons (intEncoder_writes _) (.cons (stringEncoder_writes _)
      (.cons (stringEncoder_writes _) (.singleton (stringEncoder_writes _))))))).sequence
    0x30).encodeMessage

theorem SnmpV3UsmSecurityParameters.hole (x : SnmpV3UsmSecurityParameters) (priv : List UInt8)
    (n : Nat) : Hole n (encodeOctetString 0x04 priv) (x.bytes priv) :=
  ((((((Hole.id n).octets 0x04).snoc _).cons _).cons _).cons _).cons _ |>.sequence 0x30

/-- The bytes of the header of a message. -/
def headerBytes (id : UInt32) (maxSize : UInt64) (flags : UInt8) (securityModel : UInt32) :
    List UInt8 :=
  encodeInt 0x02 (Int64.ofUInt64 id.toUInt64) ++ (encodeInt 0x02 (Int64.ofUInt64 maxSize)
    ++ (encodeOctetString 0x04 [flags]
    ++ encodeInt 0x02 (Int64.ofUInt64 securityModel.toUInt64)))

/-- The bytes of a message. -/
def SnmpV3Message.bytes (x : SnmpV3Message) : List UInt8 :=
  sequenceBytes 0x30 (encodeInt 0x02 3
    ++ (sequenceBytes 0x30 (headerBytes x.id x.maxSize x.flags x.securityModel)
    ++ (encodeOctetString 0x04 x.securityParameters ++ x.scopedPduData)))

theorem SnmpV3Message.encode_eq (x : SnmpV3Message) : x.encode = .ok x.bytes :=
  ((ItemsWrite.cons (intEncoder_writes _) (.cons
    ((ItemsWrite.cons (intEncoder_writes _) (.cons (intEncoder_writes _)
      (.cons (stringEncoder_writes _) (.singleton (intEncoder_writes _))))).sequence 0x30)
    (.cons (stringEncoder_writes _) (.singleton (preEncoded_writes _))))).sequence
    0x30).encodeMessage

/-- The bytes of a USM message that carries the given MAC. -/
def SnmpV3UsmMessage.bytes (x : SnmpV3UsmMessage) (priv : List UInt8 × List UInt8)
    (mac : List UInt8) : List UInt8 :=
  sequenceBytes 0x30 (encodeInt 0x02 3
    ++ (sequenceBytes 0x30 (headerBytes x.id x.maxSize x.flags 3)
    ++ (encodeOctetString 0x04 (x.securityParameters.bytes priv.1 mac) ++ priv.2)))

theorem SnmpV3UsmMessage.encode_eq (x : SnmpV3UsmMessage) (priv : List UInt8 × List UInt8)
    (mac : List UInt8) : encodeWithMac x priv mac = .ok (x.bytes priv mac) := by
  rw [encodeWithMac, SnmpV3UsmSecurityParameters.encode_eq, Run.ok_bind, SnmpV3Message.encode_eq]
  rfl

theorem SnmpV3UsmMessage.hole (x : SnmpV3UsmMessage) (priv : List UInt8 × List UInt8) (n : Nat) :
    Hole n (encodeOctetString 0x04 priv.1 ++ priv.2) (x.bytes priv) := by
  have hparams := ((x.securityParameters.hole priv.1 n).octets 0x04).snoc priv.2
  exact ((hparams.cons _).cons _).sequence 0x30

/-! ## Reading them back -/

section Following

variable {data : List UInt8} {i : DecodeIterator data}

theorem toNat_ofNat_length {n : Nat} (h : n ≤ 0x7fffffff) : (UInt64.ofNat n).toNat = n :=
  UInt64.toNat_ofNat_of_lt' (by change n < 2 ^ 64; omega)

/-- The header of a sequence is read, and its content is in front, then the tail. -/
theorem decodeHeader_of_rest {sequenceType : UInt8} {content tail : List UInt8}
    (hlen : content.length ≤ 0x7fffffff)
    (h : i.rest = sequenceBytes sequenceType content ++ tail) :
    ∃ j n, decodeSequenceTypeAndLength i = .ok ((sequenceType, some n), j) ∧
      n.toNat = content.length ∧ j.rest = content ++ tail := by
  refine ⟨_, _, (decodeHeader_of_reads hlen (reads_of_rest h).1).2, toNat_ofNat_length hlen, ?_⟩
  rw [sequenceBytes, List.append_assoc] at h
  have hheader : 1 + (encodeLength content.length).length
      = (sequenceType :: encodeLength content.length).length := by
    rw [List.length_cons, Nat.add_comm]
  rw [hheader]
  exact (reads_of_rest h).2

theorem decodeString_of_rest {asn1Type : UInt8} {bs tail : List UInt8}
    (hlen : bs.length ≤ 0x7fffffff) (h : i.rest = encodeOctetString asn1Type bs ++ tail) :
    ∃ j, decodeStringValue i asn1Type = .ok (bs, j) ∧ j.rest = tail :=
  ⟨_, decodeStringValue_encodeOctetString hlen (reads_of_rest h).1, (reads_of_rest h).2⟩

theorem decodeInt_of_rest {asn1Type : UInt8} {v : Int64} {tail : List UInt8}
    (h : i.rest = encodeInt asn1Type v ++ tail) :
    ∃ j, decodeIntValue i asn1Type = .ok (v.toUInt64, j) ∧ j.rest = tail :=
  ⟨_, decodeIntValue_encodeInt (reads_of_rest h).1, (reads_of_rest h).2⟩

theorem check_pos {p : Prop} [Decidable p] (h : p) (e : Exception) : check p e = .ok () :=
  if_pos h

end Following

/-- A scoped PDU comes back, whatever encryption padded it with. -/
theorem SnmpV3ScopedPDU.decode_bytes {x : SnmpV3ScopedPDU} (herror : x.pdu.error ≤ intMax)
    (hvars : ∀ v ∈ x.pdu.vars, v.encodable) (hlen : x.bytes.length ≤ 0x7fffffff)
    (padding : List UInt8) : decodeSnmpV3ScopedPDU (x.bytes ++ padding) = .ok x := by
  have hcontent := (length_content_le 0x30 _).trans hlen
  have hparts := hcontent
  simp only [List.length_append] at hparts
  have hengine := length_le_encodeOctetString 0x04 x.contextEngineID
  have hname := length_le_encodeOctetString 0x04 x.contextName
  have hbody := length_content_le x.pdu.pduType
    (fieldsBytes (Int64.ofUInt64 x.pdu.requestId) (Int64.ofUInt64 x.pdu.error)
      (Int64.ofUInt64 x.pdu.errorIndex) (x.pdu.vars.flatMap SnmpVar.bytes))
  have hvarsLen := vars_length_le (Int64.ofUInt64 x.pdu.requestId) (Int64.ofUInt64 x.pdu.error)
    (Int64.ofUInt64 x.pdu.errorIndex) (x.pdu.vars.flatMap SnmpVar.bytes)
  obtain ⟨i₁, n, h₁, hn, hrest⟩ := decodeHeader_of_rest hcontent
    (show (start (x.bytes ++ padding)).rest = _ from rfl)
  have hremaining := congrArg List.length hrest
  rw [length_rest, List.length_append] at hremaining
  simp only [List.append_assoc] at hrest
  obtain ⟨i₂, h₂, hrest⟩ := decodeString_of_rest (by omega) hrest
  obtain ⟨i₃, h₃, hrest⟩ := decodeString_of_rest (by omega) hrest
  obtain ⟨i₄, _, h₄, -, hrest⟩ := decodeHeader_of_rest (by omega) hrest
  have hfields := decodeFields_of_reads (fun v _ => v.bytes_ne_nil)
    (fun v hv k hk => decodeSnmpVar_of_reads (hvars v hv)
      ((item_length_le hv).trans (by omega)) hk) (by omega) (reads_of_rest hrest).1
  have hdeclared : ((some n).getD 0).toNat ≤ i₁.remaining := hn.trans_le (by omega)
  rw [decodeSnmpV3ScopedPDU, h₁, Run.ok_bind, check_pos rfl, Run.ok_bind, check_pos hdeclared,
    Run.ok_bind, h₂, Run.ok_bind, h₃, Run.ok_bind, decodePDU, h₄, Run.ok_bind, hfields, Run.ok_bind,
    checkErrorStatus, check_pos herror]
  rfl

/-- Security parameters that the checks let through come back, and the MAC is right in
front of the priv data. -/
theorem SnmpV3UsmSecurityParameters.decode_bytes {x : SnmpV3UsmSecurityParameters}
    (priv mac : List UInt8) (hboots : x.engineBoots.toUInt64 ≤ 0x7fffffff)
    (htime : x.engineTime.toUInt64 ≤ 0x7fffffff) (hname : x.userName.length ≤ 32)
    (hlen : (x.bytes priv mac).length ≤ 0x7fffffff) :
    ∃ macOffset,
      decodeSnmpV3UsmSecurityParameters (x.bytes priv mac) = .ok ⟨x, mac, macOffset, priv⟩ ∧
      macOffset + mac.length + (encodeOctetString 0x04 priv).length
        = (x.bytes priv mac).length := by
  have hcontent := (length_content_le 0x30 _).trans hlen
  have hparts := hcontent
  simp only [List.length_append] at hparts
  have hengine := length_le_encodeOctetString 0x04 x.engineID
  have hmac := length_le_encodeOctetString 0x04 mac
  have hpriv := length_le_encodeOctetString 0x04 priv
  have hstart : (start (x.bytes priv mac)).rest = x.bytes priv mac ++ [] :=
    (List.append_nil _).symm
  obtain ⟨i₁, n, h₁, hn, hrest⟩ := decodeHeader_of_rest hcontent hstart
  have hremaining := congrArg List.length hrest
  rw [length_rest, List.append_nil] at hremaining
  simp only [List.append_assoc] at hrest
  obtain ⟨i₂, h₂, hrest⟩ := decodeString_of_rest (by omega) hrest
  obtain ⟨i₃, h₃, hrest⟩ := decodeInt_of_rest hrest
  obtain ⟨i₄, h₄, hrest⟩ := decodeInt_of_rest hrest
  obtain ⟨i₅, h₅, hrest⟩ := decodeString_of_rest (by omega) hrest
  obtain ⟨i₆, h₆, hrest⟩ := decodeString_of_rest (by omega) hrest
  have hbehind := congrArg List.length hrest
  rw [length_rest, List.append_nil] at hbehind
  obtain ⟨i₇, h₇, hrest⟩ := decodeString_of_rest (by omega) hrest
  have hatEnd : i₇.atEnd = true := by
    have hzero := rest_eq_nil.mp hrest
    have hin := i₇.inData
    simp only [remaining] at hzero
    simp only [atEnd, beq_iff_eq]
    omega
  refine ⟨(start (x.bytes priv mac)).remaining - i₆.remaining - mac.length, ?_, ?_⟩
  · rw [decodeSnmpV3UsmSecurityParameters, h₁, Run.ok_bind]
    simp only [Option.getD_some, Option.isNone_some, Bool.false_eq_true, false_or]
    rw [check_pos trivial, Run.ok_bind, check_pos (hremaining.trans hn.symm), Run.ok_bind, h₂, Run.ok_bind, h₃, Run.ok_bind, checkInt32,
      check_pos hboots, Run.ok_bind, h₄, Run.ok_bind, checkInt32, check_pos htime, Run.ok_bind,
      h₅, Run.ok_bind, check_pos hname, Run.ok_bind, h₆, Run.ok_bind, h₇, Run.ok_bind,
      check_pos hatEnd, Run.ok_bind]
    simp only [UInt32.toUInt32_toUInt64]
    rfl
  · have htotal : (start (x.bytes priv mac)).remaining = (x.bytes priv mac).length := rfl
    have hle := length_content_le 0x30 (encodeOctetString 0x04 x.engineID
      ++ (encodeInt 0x02 (Int64.ofUInt64 x.engineBoots.toUInt64)
      ++ (encodeInt 0x02 (Int64.ofUInt64 x.engineTime.toUInt64)
      ++ (encodeOctetString 0x04 x.userName
      ++ (encodeOctetString 0x04 mac ++ encodeOctetString 0x04 priv)))))
    simp only [List.length_append] at hle
    change _ ≤ (x.bytes priv mac).length at hle
    omega

/-- The type of the scoped PDU data that goes with the flags. -/
def scopedPduType (flags : UInt8) : UInt8 := if isAuthPriv flags then 0x04 else 0x30

theorem ofUInt32_le (x : UInt32) : x.toUInt64 ≤ 0xffffffff := by
  rw [UInt64.le_iff_toNat_le, UInt32.toNat_toUInt64]
  have := x.toNat_lt
  change _ ≤ 0xffffffff
  omega

/-- A message of a size that the checks let through comes back, and its security
parameters are right in front of the scoped PDU data. -/
theorem SnmpV3Message.decode_bytes {x : SnmpV3Message} (hmin : 484 ≤ x.maxSize)
    (hmax : x.maxSize ≤ 0xffffffff) {content : List UInt8}
    (hdata : x.scopedPduData = sequenceBytes (scopedPduType x.flags) content)
    (hlen : x.bytes.length ≤ 0x7fffffff) :
    ∃ offset, decodeSnmpV3Message x.bytes = .ok (x, offset) ∧
      offset + x.securityParameters.length + x.scopedPduData.length = x.bytes.length := by
  have hcontent := (length_content_le 0x30 _).trans hlen
  have hparts := hcontent
  simp only [List.length_append] at hparts
  have hheader := length_content_le 0x30 (headerBytes x.id x.maxSize x.flags x.securityModel)
  have hparams := length_le_encodeOctetString 0x04 x.securityParameters
  have hscoped := length_content_le (scopedPduType x.flags) content
  rw [← hdata] at hscoped
  have hstart : (start x.bytes).rest = x.bytes ++ [] := (List.append_nil _).symm
  obtain ⟨i₁, _, h₁, -, hrest⟩ := decodeHeader_of_rest hcontent hstart
  simp only [List.append_nil] at hrest
  obtain ⟨i₂, h₂, hrest⟩ := decodeInt_of_rest hrest
  obtain ⟨i₃, _, h₃, -, hrest⟩ := decodeHeader_of_rest (by omega) hrest
  simp only [headerBytes, List.append_assoc] at hrest
  obtain ⟨i₄, h₄, hrest⟩ := decodeInt_of_rest hrest
  obtain ⟨i₅, h₅, hrest⟩ := decodeInt_of_rest hrest
  obtain ⟨i₆, h₆, hrest⟩ := decodeString_of_rest (by simp) hrest
  obtain ⟨i₇, h₇, hrest⟩ := decodeInt_of_rest hrest
  obtain ⟨i₈, h₈, hrest⟩ := decodeString_of_rest (by omega) hrest
  have hbehind := congrArg List.length hrest
  rw [length_rest] at hbehind
  obtain ⟨i₉, n, h₉, hn, hrest'⟩ := decodeHeader_of_rest (by omega)
    (hrest.trans (hdata.trans (List.append_nil _).symm))
  have hremaining := congrArg List.length hrest'
  rw [length_rest, List.append_nil] at hremaining
  refine ⟨(start x.bytes).remaining - i₈.remaining - x.securityParameters.length, ?_, ?_⟩
  · have hdeclared : i₉.remaining = n.toNat := hremaining.trans hn.symm
    rw [decodeSnmpV3Message, h₁, Run.ok_bind, check_pos rfl, Run.ok_bind, h₂, Run.ok_bind,
      check_pos (show (3 : Int64).toUInt64 = 3 by decide), Run.ok_bind, h₃, Run.ok_bind,
      check_pos rfl, Run.ok_bind, h₄, Run.ok_bind, check_pos (ofUInt32_le _), Run.ok_bind,
      h₅, Run.ok_bind, check_pos hmin, Run.ok_bind, check_pos hmax, Run.ok_bind,
      h₆, Run.ok_bind, check_pos List.length_singleton, Run.ok_bind, h₇, Run.ok_bind,
      check_pos (ofUInt32_le _),
      Run.ok_bind, h₈, Run.ok_bind, h₉, Run.ok_bind]
    simp only [List.headD_cons, Option.getD_some, Option.isNone_some, Bool.false_eq_true,
      false_or, UInt32.toUInt32_toUInt64, scopedPduType]
    split_ifs with hflags
    · rw [check_pos rfl, Run.ok_bind, check_pos hdeclared, Run.ok_bind, hrest]
      rfl
    · rw [check_pos rfl, Run.ok_bind, check_pos hdeclared, Run.ok_bind, hrest]
      rfl
  · have htotal : (start x.bytes).remaining = x.bytes.length := rfl
    have hle := length_content_le 0x30 (encodeInt 0x02 3
      ++ (sequenceBytes 0x30 (headerBytes x.id x.maxSize x.flags x.securityModel)
      ++ (encodeOctetString 0x04 x.securityParameters ++ x.scopedPduData)))
    simp only [List.length_append] at hle
    change _ ≤ x.bytes.length at hle
    omega

/-! ## Both ends -/

/-- What the decoder lets through. -/
structure SnmpV3UsmMessage.Encodable (m : SnmpV3UsmMessage) : Prop where
  minSize : 484 ≤ m.maxSize
  maxSize : m.maxSize ≤ 0xffffffff
  engineBoots : m.securityParameters.engineBoots.toUInt64 ≤ 0x7fffffff
  engineTime : m.securityParameters.engineTime.toUInt64 ≤ 0x7fffffff
  userName : m.securityParameters.userName.length ≤ 32
  error : m.scopedPDU.pdu.error ≤ intMax
  vars : ∀ v ∈ m.scopedPDU.pdu.vars, v.encodable

/-- Decryption undoes encryption but for padding, and what the scoped PDU is encrypted
to is one element, of the type that goes with the flags of the message. -/
structure UsmCrypto.Suits (c : UsmCrypto) (m : SnmpV3UsmMessage) : Prop where
  decrypts : ∀ userName engineBoots engineTime data, ∃ padding,
    c.decryptScopedPduData userName engineBoots engineTime
      (c.encryptScopedPduData userName engineBoots engineTime data).1
      (c.encryptScopedPduData userName engineBoots engineTime data).2 = .ok (data ++ padding)
  element : ∀ data, m.scopedPDU.encode = .ok data → ∃ content,
    (c.encryptScopedPduData m.securityParameters.userName m.securityParameters.engineBoots
      m.securityParameters.engineTime data).2 = sequenceBytes (scopedPduType m.flags) content

/-- Decoding undoes encoding. -/
theorem SnmpV3UsmMessage.decode_encode (c : UsmCrypto) {m : SnmpV3UsmMessage}
    (hm : m.Encodable) (hc : c.Suits m) :
    ∃ scopedPDU bytes, m.scopedPDU.encode = .ok scopedPDU ∧
      encodeSnmpV3UsmMessage c m = .ok bytes ∧
      (scopedPDU.length ≤ 0x7fffffff → bytes.length ≤ 0x7fffffff →
        decodeSnmpV3UsmMessage c bytes = .ok m) := by
  have hscoped := SnmpV3ScopedPDU.encode_eq hm.vars
  obtain ⟨content, hcontent⟩ := hc.element _ hscoped
  obtain ⟨padding, hpadding⟩ := hc.decrypts m.securityParameters.userName
    m.securityParameters.engineBoots m.securityParameters.engineTime m.scopedPDU.bytes
  let priv := c.encryptScopedPduData m.securityParameters.userName
    m.securityParameters.engineBoots m.securityParameters.engineTime m.scopedPDU.bytes
  let mac := c.truncatedMac (m.bytes priv (List.replicate c.truncateMacTo 0))
  have hmac : mac.length = c.truncateMacTo := c.length_truncatedMac _
  refine ⟨m.scopedPDU.bytes, m.bytes priv mac, hscoped, ?_, fun hlenScoped hlen => ?_⟩
  · rw [encodeSnmpV3UsmMessage, hscoped, Run.ok_bind]
    simp only [m.encode_eq, Run.ok_bind]
    rfl
  · -- what the two decoders find, and how far from the end
    let x : SnmpV3Message :=
      ⟨m.id, m.maxSize, m.flags, 3, m.securityParameters.bytes priv.1 mac, priv.2⟩
    obtain ⟨offset, hx, hoffset⟩ :=
      SnmpV3Message.decode_bytes (x := x) hm.minSize hm.maxSize hcontent hlen
    have hlenParams : x.securityParameters.length ≤ 0x7fffffff := by
      change x.bytes.length ≤ _ at hlen
      omega
    obtain ⟨macOffset, hy, hmacOffset⟩ := SnmpV3UsmSecurityParameters.decode_bytes priv.1 mac
      hm.engineBoots hm.engineTime hm.userName hlenParams
    have hat : LiesAt x.bytes (offset + macOffset) mac :=
      (decodeSnmpV3Message_liesAt hx).trans (decodeSnmpV3UsmSecurityParameters_liesAt hy)
    have hzeros : fillZeros x.bytes (offset + macOffset) c.truncateMacTo
        = m.bytes priv (List.replicate c.truncateMacTo 0) := by
      refine (m.hole priv c.truncateMacTo).fillZeros hmac ?_
      change _ = x.bytes.length
      rw [← hoffset, List.length_append]
      change _ = offset + (m.securityParameters.bytes priv.1 mac).length + priv.2.length
      omega
    have hpdu := SnmpV3ScopedPDU.decode_bytes hm.error hm.vars hlenScoped padding
    change decodeSnmpV3UsmMessage c x.bytes = _
    rw [decodeSnmpV3UsmMessage, hx, Run.ok_bind, hy, Run.ok_bind, check_pos hmac, Run.ok_bind,
      hpadding, Run.ok_bind, hpdu, Run.ok_bind]
    simp only [hat.slice_eq hmac, hzeros, Run.ok_bind]
    rw [check_pos rfl]
    simp [assert, x]

/-- An accepted message carries the MAC of itself with zeros in the MAC's place. -/
theorem decodeSnmpV3UsmMessage_mac {c : UsmCrypto} {data : List UInt8} {m : SnmpV3UsmMessage}
    (h : decodeSnmpV3UsmMessage c data = .ok m) :
    ∃ x y, decodeSnmpV3Message data = .ok x ∧
      decodeSnmpV3UsmSecurityParameters x.1.securityParameters = .ok y ∧
      y.mac.length = c.truncateMacTo ∧
      y.mac = c.truncatedMac (fillZeros data (x.2 + y.macOffset) c.truncateMacTo) := by
  simp only [decodeSnmpV3UsmMessage, Run.bind_eq_ok] at h
  obtain ⟨x, hx, y, hy, _, hsize, _, -, _, -, _, -, _, -, _, hmac, -⟩ := h
  refine ⟨x, y, hx, hy, ?_, ?_⟩
  · by_contra hne
    rw [check, if_neg hne] at hsize
    cases hsize
  · by_contra hne
    rw [check, if_neg hne] at hmac
    cases hmac

/-- `NoPrivSnmpV3UsmEncrypter` and `NoPrivSnmpV3UsmDecrypter`, with some MAC function. -/
def UsmCrypto.noPriv (calculateMac : List UInt8 → List UInt8) (truncateMacTo : Nat) :
    UsmCrypto where
  calculateMac := calculateMac
  truncateMacTo := truncateMacTo
  encryptScopedPduData _ _ _ data := ([], data)
  decryptScopedPduData _ _ _ _ data := .ok data

/-- Scoped PDUs that are not encrypted go with flags that do not say they are. -/
theorem UsmCrypto.noPriv_suits {calculateMac : List UInt8 → List UInt8} {truncateMacTo : Nat}
    {m : SnmpV3UsmMessage} (hvars : ∀ v ∈ m.scopedPDU.pdu.vars, v.encodable)
    (hflags : isAuthPriv m.flags = false) : (noPriv calculateMac truncateMacTo).Suits m where
  decrypts _ _ _ data := ⟨[], by rw [List.append_nil]; rfl⟩
  element data hdata := by
    cases (SnmpV3ScopedPDU.encode_eq hvars).symm.trans hdata
    simp only [scopedPduType, hflags, Bool.false_eq_true, if_false]
    exact ⟨_, rfl⟩

/-- USM messages come back, whatever the MAC function and the encryption, and an
accepted one is authentic: its MAC lies in the data where the decoder looks for it, and
is the MAC of the data with zeros there. -/
theorem usm_roundTrip_authentic (c : UsmCrypto) :
    (∀ m : SnmpV3UsmMessage, m.Encodable → c.Suits m →
      ∃ scopedPDU bytes, m.scopedPDU.encode = .ok scopedPDU ∧
        encodeSnmpV3UsmMessage c m = .ok bytes ∧
        (scopedPDU.length ≤ 0x7fffffff → bytes.length ≤ 0x7fffffff →
          decodeSnmpV3UsmMessage c bytes = .ok m)) ∧
    (∀ data x y, decodeSnmpV3Message data = .ok x →
      decodeSnmpV3UsmSecurityParameters x.1.securityParameters = .ok y →
      LiesAt data (x.2 + y.macOffset) y.mac) ∧
    ∀ data m, decodeSnmpV3UsmMessage c data = .ok m →
      ∃ x y, decodeSnmpV3Message data = .ok x ∧
        decodeSnmpV3UsmSecurityParameters x.1.securityParameters = .ok y ∧
        y.mac.length = c.truncateMacTo ∧
        y.mac = c.truncatedMac (fillZeros data (x.2 + y.macOffset) c.truncateMacTo) :=
  ⟨fun _ hm hc => SnmpV3UsmMessage.decode_encode c hm hc,
    fun _ _ _ hx hy =>
      (decodeSnmpV3Message_liesAt hx).trans (decodeSnmpV3UsmSecurityParameters_liesAt hy),
    fun _ _ h => decodeSnmpV3UsmMessage_mac h⟩

/-- A message as it is sent with authentication: a MAC of two bytes that depends on all
of the data. -/
theorem usm_roundTrip_authentic_get :
    let c := UsmCrypto.noPriv (fun data => [data.sum, UInt8.ofNat data.length, 0x55]) 2
    let m : SnmpV3UsmMessage := ⟨33, 512, 5, ⟨[1, 2, 3], 3, 445, [0x66, 0x72, 0x65, 0x64]⟩,
      ⟨[0x80, 0, 0x1f], [0x6a], ⟨88, 0, 0, [⟨⟨[1, 3, 6, 1]⟩, .inr .nullValue⟩], 0xa0⟩⟩⟩
    ∃ scopedPDU bytes, m.scopedPDU.encode = .ok scopedPDU ∧
      encodeSnmpV3UsmMessage c m = .ok bytes ∧
      (scopedPDU.length ≤ 0x7fffffff → bytes.length ≤ 0x7fffffff →
        decodeSnmpV3UsmMessage c bytes = .ok m) := by
  intro c m
  have hm : m.Encodable := by
    refine ⟨by decide, by decide, by decide, by decide, by decide, by decide, ?_⟩
    intro v hv
    obtain rfl := List.mem_singleton.mp hv
    exact ⟨by decide, fun w hw => by cases hw; trivial⟩
  exact (usm_roundTrip_authentic c).1 m hm (UsmCrypto.noPriv_suits hm.vars (by decide))

/-- One message for each thing that the decoder does not let through or that does not
survive encoding: a maximum size below 484, a count of boots or seconds above 2^31-1, a
long user name, a large error status, flags that promise encryption, an identifier
outside `.1.3`, half a hundredth of a second. -/
theorem usm_not_roundTrip :
    let c := UsmCrypto.noPriv (fun _ => []) 0
    let sent (maxSize : UInt64) (flags : UInt8) (engineBoots engineTime : UInt32)
        (userName : List UInt8) (error : UInt64) (vars : List SnmpVar) : SnmpV3UsmMessage :=
      ⟨33, maxSize, flags, ⟨[], engineBoots, engineTime, userName⟩,
        ⟨[], [], ⟨88, error, 0, vars, 0xa0⟩⟩⟩
    ∀ m ∈ [sent 0 0 0 0 [] 0 [], sent 484 0 0x80000000 0 [] 0 [],
        sent 484 0 0 0x80000000 [] 0 [], sent 484 0 0 0 (List.replicate 33 0x61) 0 [],
        sent 484 0 0 0 [] 0x80000000 [], sent 484 3 0 0 [] 0 [],
        sent 484 0 0 0 [] 0 [⟨⟨[2, 5]⟩, .inr .nullValue⟩],
        sent 484 0 0 0 [] 0 [⟨⟨[1, 3]⟩, .inr (.timeTicksValue 5)⟩]],
      (encodeSnmpV3UsmMessage c m >>= decodeSnmpV3UsmMessage c) ≠ .ok m := by
  decide +kernel

end Urnest.Snmp
