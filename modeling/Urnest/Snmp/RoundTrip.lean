import Urnest.Snmp.DecodeMessage
import Urnest.Snmp.ReadBack

/-!
# Messages come back

Decoding undoes encoding for whole messages. On the encoding side, an object
`Writes` some bytes when it writes them and announced as many; sequences preserve
that, so no assertion of the encoder fails (`ItemsWrite.sequence`). On the decoding
side, the elements of a message are followed one after the other to its end.

`Message` gathers the eleven V1 and V2c messages, so that the result is one theorem.
Its only exception is the response type, which encoding does not write.
-/

namespace Urnest.Snmp

open DecodeIterator Lib

/-! ## What objects write -/

/-- The object writes `bs`, and announced as many bytes. -/
def Encoder.Writes (e : Encoder) (bs : List UInt8) : Prop :=
  e.encodeTo = .ok bs ∧ bs.length = e.encodedLength

/-- The objects write `bs` one after the other, and announced as many bytes together. -/
def ItemsWrite (items : List Encoder) (bs : List UInt8) : Prop :=
  encodeItems items = .ok bs ∧ bs.length = encodedLengthOfItems items

theorem ItemsWrite.nil : ItemsWrite [] [] := ⟨rfl, rfl⟩

theorem ItemsWrite.cons {e : Encoder} {items : List Encoder} {as bs : List UInt8}
    (he : e.Writes as) (h : ItemsWrite items bs) : ItemsWrite (e :: items) (as ++ bs) := by
  constructor
  · rw [encodeItems, he.1, Run.ok_bind, h.1]
    rfl
  · rw [List.length_append, he.2, h.2]
    rfl

theorem ItemsWrite.singleton {e : Encoder} {bs : List UInt8} (he : e.Writes bs) :
    ItemsWrite [e] bs := by
  have := ItemsWrite.cons he .nil
  rwa [List.append_nil] at this

theorem ItemsWrite.map {ι : Type} {f : ι → Encoder} {enc : ι → List UInt8} {xs : List ι}
    (h : ∀ x ∈ xs, (f x).Writes (enc x)) : ItemsWrite (xs.map f) (xs.flatMap enc) := by
  induction xs with
  | nil => exact .nil
  | cons x xs ih =>
    rw [List.map_cons, List.flatMap_cons]
    exact .cons (h x (List.mem_cons_self ..)) (ih fun y hy => h y (List.mem_cons_of_mem _ hy))

/-- A type byte, the length of the content and the content. -/
def sequenceBytes (sequenceType : UInt8) (content : List UInt8) : List UInt8 :=
  sequenceType :: encodeLength content.length ++ content

theorem length_sequenceBytes (sequenceType : UInt8) (content : List UInt8) :
    (sequenceBytes sequenceType content).length
      = 1 + encodedLengthOfLength content.length + content.length := by
  rw [sequenceBytes, List.length_append, List.length_cons, length_encodeLength]
  omega

theorem length_content_le (sequenceType : UInt8) (content : List UInt8) :
    content.length ≤ (sequenceBytes sequenceType content).length := by
  rw [length_sequenceBytes]
  omega

/-- A sequence of objects that write what they announce does so too: its assertion holds. -/
theorem ItemsWrite.sequence {items : List Encoder} {bs : List UInt8} (h : ItemsWrite items bs)
    (sequenceType : UInt8) :
    (sequence items sequenceType).Writes (sequenceBytes sequenceType bs) := by
  obtain ⟨hbytes, hlen⟩ := h
  have htotal := length_sequenceBytes sequenceType bs
  rw [sequenceBytes] at htotal
  constructor
  · change (encodeItems items >>= _) = _
    rw [hbytes, Run.ok_bind, ← hlen]
    simp only [htotal, beq_self_eq_true, assert, if_true, Run.ok_bind]
    rfl
  · rw [length_sequenceBytes, hlen]
    rfl

/-- Nor does the assertion at the end of the message fail. -/
theorem Encoder.Writes.encodeMessage {e : Encoder} {bs : List UInt8} (h : e.Writes bs) :
    encodeMessage e = .ok bs := by
  simp [Snmp.encodeMessage, h.1, h.2, assert]

theorem intEncoder_writes (val : Int64) : (intEncoder val).Writes (encodeInt 0x02 val) :=
  ⟨rfl, length_encodeInt _ _⟩

theorem stringEncoder_writes (val : List UInt8) :
    (stringEncoder val).Writes (encodeOctetString 0x04 val) :=
  ⟨rfl, length_encodeOctetString _ _⟩

theorem oidEncoder_writes {oid : Oid} (h : oid.encodable = true) :
    (oidEncoder oid).Writes (encodeOid oid) := by
  refine ⟨?_, length_encodeOid oid⟩
  change (assert oid.encodable >>= fun _ => pure (encodeOid oid)) = _
  rw [h]
  rfl

theorem valueEncoder_writes {v : Value} (h : v.encodable) : v.encoder.Writes v.bytes :=
  ⟨Value.encodeTo_eq h.constructed, v.length_bytes⟩

/-! ## Variables -/

/-- A variable that can be encoded and come back. -/
def encodableVar (x : Oid × Value) : Prop := x.1.encodable = true ∧ x.2.encodable

def varBytes (x : Oid × Value) : List UInt8 :=
  sequenceBytes 0x30 (encodeOid x.1 ++ x.2.bytes)

theorem valueParam_writes {x : Oid × Value} (h : encodableVar x) :
    (valueParam x).Writes (varBytes x) :=
  (ItemsWrite.cons (oidEncoder_writes h.1) (.singleton (valueEncoder_writes h.2))).sequence 0x30

def SnmpVar.encodable (x : SnmpVar) : Prop :=
  x.oid.encodable = true ∧ ∀ v, x.value = .inr v → v.encodable

/-- The bytes of what a variable has after its identifier. -/
def SnmpVar.valueBytes (x : SnmpVar) : List UInt8 :=
  match x.value with
  | .inl m => [m.type, 0]
  | .inr v => v.bytes

def SnmpVar.bytes (x : SnmpVar) : List UInt8 :=
  sequenceBytes 0x30 (encodeOid x.oid ++ x.valueBytes)

/-- `SnmpVar` announces what it writes, though nothing asserts it. -/
theorem snmpVarEncoder_writes {x : SnmpVar} (h : x.encodable) : x.encoder.Writes x.bytes := by
  obtain ⟨oid, value⟩ := x
  obtain ⟨hoid, hvalue⟩ := h
  have hlenOid := (oidEncoder_writes hoid).2
  have hwrite := (oidEncoder_writes hoid).1
  cases value with
  | inl m =>
    have hcontent : (encodeOid oid ++ [m.type, 0]).length
        = (oidEncoder oid).encodedLength + (1 + 1) := by
      rw [List.length_append, hlenOid]
      rfl
    constructor
    · simp only [SnmpVar.encoder, SnmpVar.bytes, SnmpVar.valueBytes, sequenceBytes]
      rw [hwrite, hcontent]
      simp [List.append_assoc]
    · simp only [SnmpVar.encoder, SnmpVar.bytes, SnmpVar.valueBytes]
      rw [length_sequenceBytes, hcontent]
  | inr v =>
    have hv := valueEncoder_writes (hvalue v rfl)
    have hcontent : (encodeOid oid ++ v.bytes).length
        = (oidEncoder oid).encodedLength + v.encoder.encodedLength := by
      rw [List.length_append, hlenOid, hv.2]
    constructor
    · simp only [SnmpVar.encoder, SnmpVar.bytes, SnmpVar.valueBytes, sequenceBytes]
      rw [hwrite, hv.1, hcontent]
      simp [List.append_assoc]
    · simp only [SnmpVar.encoder, SnmpVar.bytes, SnmpVar.valueBytes]
      rw [length_sequenceBytes, hcontent]

/-! ## Following a message -/

section Following

variable {data : List UInt8} {i : DecodeIterator data}

/-- The header of a sequence is read back. -/
theorem decodeHeader_of_reads {sequenceType : UInt8} {content : List UInt8}
    (hlen : content.length ≤ 0x7fffffff) (h : i.Reads (sequenceBytes sequenceType content)) :
    (i.plus 1 >>= decodeLength) = .ok (some (UInt64.ofNat content.length),
        i.past (1 + (encodeLength content.length).length)) ∧
      decodeSequenceTypeAndLength i = .ok ((sequenceType, some (UInt64.ofNat content.length)),
        i.past (1 + (encodeLength content.length).length)) := by
  have hhead := (Reads.append.mp h).1
  have hlength : (i.plus 1 >>= decodeLength)
      = .ok (some (UInt64.ofNat content.length),
          i.past (1 + (encodeLength content.length).length)) := by
    rw [hhead.plus_one, Run.ok_bind,
      decodeLength_encodeLength (by omega) (Reads.cons.mp hhead).2, past_past]
  refine ⟨hlength, ?_⟩
  rw [decodeSequenceTypeAndLength, hhead.head, Run.ok_bind, hlength]
  rfl

/-- The header of a sequence is read back: the content starts at `j`, and moving by
the length read gets from `j` to the end. -/
theorem decodeSequence_of_reads {sequenceType : UInt8} {content : List UInt8}
    (hlen : content.length ≤ 0x7fffffff) (h : i.Reads (sequenceBytes sequenceType content)) :
    ∃ j : DecodeIterator data, ∃ n : UInt64,
      decodeSequenceTypeAndLength i = .ok ((sequenceType, some n), j) ∧
      (i.plus 1 >>= decodeLength) = .ok (some n, j) ∧
      j.plus (asInt n) = .ok (j.past content.length) ∧
      j.Reads content ∧
      j.past content.length = i.past (sequenceBytes sequenceType content).length := by
  obtain ⟨hlength, hheader⟩ := decodeHeader_of_reads hlen h
  refine ⟨i.past (1 + (encodeLength content.length).length), UInt64.ofNat content.length,
    hheader, hlength, ?_, reads_content h, ?_⟩
  · rw [asInt_ofNat hlen]
    exact (reads_content h).plus
  · rw [past_past, length_sequenceBytes, length_encodeLength]

/-- The header of a variable and its identifier are read back. -/
theorem varHeader_of_reads {oid : Oid} {valueBytes : List UInt8} (hoid : oid.encodable = true)
    (hlen : (sequenceBytes 0x30 (encodeOid oid ++ valueBytes)).length ≤ 0x7fffffff)
    (h : i.Reads (sequenceBytes 0x30 (encodeOid oid ++ valueBytes))) :
    ∃ j k : DecodeIterator data, ∃ n : UInt64,
      decodeSequenceTypeAndLength i = .ok ((0x30, some n), j) ∧
      decodeOidValue j = .ok (oid, k) ∧ k.Reads valueBytes ∧
      k.past valueBytes.length
        = i.past (sequenceBytes 0x30 (encodeOid oid ++ valueBytes)).length ∧
      (i.plus 1 >>= decodeLength) = .ok (some n, j) ∧
      j.plus (asInt n) = .ok (k.past valueBytes.length) := by
  have hcontent := (length_content_le 0x30 (encodeOid oid ++ valueBytes)).trans hlen
  obtain ⟨j, n, hj, hlength, hplus, hreads, hend⟩ := decodeSequence_of_reads hcontent h
  obtain ⟨h₁, h₂⟩ := Reads.append.mp hreads
  rw [List.length_append, ← past_past] at hend
  rw [List.length_append] at hcontent hplus
  rw [← past_past] at hplus
  have hle := oidDataLength_le oid
  exact ⟨j, _, n, hj, decodeOidValue_encodeOid hoid (by omega) h₁, h₂, hend, hlength, hplus⟩

theorem decodeVar_of_reads {x : Oid × Value} (hx : encodableVar x)
    (hlen : (varBytes x).length ≤ 0x7fffffff) (h : i.Reads (varBytes x)) :
    decodeVar i = .ok (x, i.past (varBytes x).length) := by
  have hparts := (length_content_le 0x30 (encodeOid x.1 ++ x.2.bytes)).trans hlen
  rw [List.length_append] at hparts
  obtain ⟨j, k, n, hj, hk, hreads, hend, -⟩ := varHeader_of_reads hx.1 hlen h
  rw [decodeVar, hj, Run.ok_bind, hk, Run.ok_bind, decodeVarValue,
    decodeValue_bytes hx.2 (by omega) hreads, varBytes, ← hend]
  rfl

theorem Marker.ofType?_type (m : Marker) : Marker.ofType? m.type = some m := by
  cases m <;> decide

/-- No value starts with the type byte of a marker. -/
theorem Value.ofType?_head (v : Value) : ∃ b bs, v.bytes = b :: bs ∧ Marker.ofType? b = none := by
  cases v <;> exact ⟨_, _, rfl, by decide⟩

theorem decodeSnmpVar_of_reads {x : SnmpVar} (hx : x.encodable)
    (hlen : x.bytes.length ≤ 0x7fffffff) (h : i.Reads x.bytes) :
    decodeSnmpVar i = .ok (x, i.past x.bytes.length) := by
  obtain ⟨oid, value⟩ := x
  obtain ⟨j, k, n, hj, hk, hreads, hend, hlength, hplus⟩ := varHeader_of_reads hx.1 hlen h
  rw [SnmpVar.bytes, ← hend]
  cases value with
  | inl m =>
    -- the length that is read again is the sequence's own
    rw [decodeSnmpVar, hj, Run.ok_bind, hk, Run.ok_bind, hreads.head, Run.ok_bind,
      Marker.ofType?_type]
    dsimp only
    rw [hlength, Run.ok_bind]
    dsimp only
    rw [hplus]
    rfl
  | inr v =>
    have hparts := (length_content_le 0x30 (encodeOid oid ++ v.bytes)).trans hlen
    rw [List.length_append] at hparts
    obtain ⟨b, bs, hbytes, hb⟩ := v.ofType?_head
    have hderef : k.deref = .ok b := (show k.Reads (b :: bs) from hbytes ▸ hreads).head
    rw [decodeSnmpVar, hj, Run.ok_bind, hk, Run.ok_bind, hderef, Run.ok_bind, hb]
    dsimp only
    rw [decodeVarValue, decodeValue_bytes (hx.2 v rfl) (by omega) hreads]
    rfl

/-- The loop over the variables reads them all. -/
theorem decodeVars_of_reads {ι : Type} {enc : ι → List UInt8} {xs : List ι}
    {decodeItem : DecodeIterator data → Result (ι × DecodeIterator data)}
    (hne : ∀ x ∈ xs, enc x ≠ [])
    (hitem : ∀ x ∈ xs, ∀ j : DecodeIterator data, j.Reads (enc x) →
      decodeItem j = .ok (x, j.past (enc x).length))
    (hlen : (xs.flatMap enc).length ≤ 0x7fffffff)
    (h : i.Reads (sequenceBytes 0x30 (xs.flatMap enc))) :
    decodeVars decodeItem i
      = .ok (xs, i.past (sequenceBytes 0x30 (xs.flatMap enc)).length) := by
  obtain ⟨j, n, hj, -, hplus, hreads, hend⟩ := decodeSequence_of_reads hlen h
  have hatEnd : ∀ k, varsAtEnd (some n) j k = .ok (k == j.past (xs.flatMap enc).length) := by
    intro k
    rw [varsAtEnd, hplus]
    rfl
  rw [decodeVars, hj, Run.ok_bind, ← hend]
  refine collect_of_reads enc (by simp [varTurn, hatEnd]) hne ?_ ?_ hreads rfl
  · intro x hx k hk hkne
    rw [varTurn, hatEnd, Run.ok_bind, beq_false_of_ne hkne]
    simp [hitem x hx k hk]
  · have hcount := length_le_flatMap enc hne
    have hin := j.inData
    have hle := hreads.length_le
    simp only [remaining] at hle
    omega

/-- Three integers and the variables are read back. -/
theorem decodeFields_of_reads {ι : Type} {enc : ι → List UInt8} {xs : List ι}
    {decodeItem : DecodeIterator data → Result (ι × DecodeIterator data)}
    (hne : ∀ x ∈ xs, enc x ≠ [])
    (hitem : ∀ x ∈ xs, ∀ j : DecodeIterator data, j.Reads (enc x) →
      decodeItem j = .ok (x, j.past (enc x).length))
    (hlen : (xs.flatMap enc).length ≤ 0x7fffffff) {id error errorIndex : Int64}
    (h : i.Reads (encodeInt 0x02 id ++ (encodeInt 0x02 error ++ (encodeInt 0x02 errorIndex
      ++ sequenceBytes 0x30 (xs.flatMap enc))))) :
    decodeFields decodeItem i
      = .ok ⟨id.toUInt64, error.toUInt64, errorIndex.toUInt64, xs,
          i.past (encodeInt 0x02 id ++ (encodeInt 0x02 error ++ (encodeInt 0x02 errorIndex
            ++ sequenceBytes 0x30 (xs.flatMap enc)))).length⟩ := by
  obtain ⟨h₁, h⟩ := Reads.append.mp h
  obtain ⟨h₂, h⟩ := Reads.append.mp h
  obtain ⟨h₃, h⟩ := Reads.append.mp h
  rw [decodeFields, decodeIntValue_encodeInt h₁, Run.ok_bind, decodeIntValue_encodeInt h₂,
    Run.ok_bind, decodeIntValue_encodeInt h₃, Run.ok_bind, decodeVars_of_reads hne hitem hlen h]
  simp only [past_past, List.length_append]
  rw [Nat.add_assoc, Nat.add_assoc]
  rfl

end Following

/-- Version, community and a PDU of the given type. -/
def messageContent (version : Int64) (community : Community) (pduType : UInt8)
    (body : List UInt8) : List UInt8 :=
  encodeInt 0x02 version ++ (encodeOctetString 0x04 community ++ sequenceBytes pduType body)

/-- The bytes of a message. -/
def messageBytes (version : Int64) (community : Community) (pduType : UInt8)
    (body : List UInt8) : List UInt8 :=
  sequenceBytes 0x30 (messageContent version community pduType body)

theorem body_length_le (version : Int64) (community : Community) (pduType : UInt8)
    (body : List UInt8) :
    body.length ≤ (messageBytes version community pduType body).length := by
  have h₁ : (messageContent version community pduType body).length
      ≤ (messageBytes version community pduType body).length := length_content_le 0x30 _
  have h₂ := length_content_le pduType body
  have h₃ : (messageContent version community pduType body).length
      = (encodeInt 0x02 version).length + ((encodeOctetString 0x04 community).length
        + (sequenceBytes pduType body).length) := by
    rw [messageContent, List.length_append, List.length_append]
  omega

/-- The envelope of a message is read back, and the iterator is at the PDU's content. -/
theorem decodeEnvelope_messageBytes {version : Int64} {community : Community}
    {pduType : UInt8} {body : List UInt8}
    (hlen : (messageBytes version community pduType body).length ≤ 0x7fffffff)
    (mismatch : UInt64 → DecodeIterator (messageBytes version community pduType body) →
      Exception) :
    ∃ at_, decodeEnvelope (messageBytes version community pduType body) version.toUInt64 mismatch
        = .ok ⟨community, pduType, at_⟩ ∧ at_.Reads body := by
  have hcontent := (length_content_le 0x30 _).trans hlen
  have hparts := hcontent
  rw [messageContent, List.length_append, List.length_append] at hparts
  have hcommunity := length_le_encodeOctetString 0x04 community
  have hbody := length_content_le pduType body
  obtain ⟨j, n, hj, -, -, hreads, -⟩ := decodeSequence_of_reads hcontent
    (reads_start (messageBytes version community pduType body))
  obtain ⟨h₁, h⟩ := Reads.append.mp hreads
  obtain ⟨h₂, h⟩ := Reads.append.mp h
  obtain ⟨k, m, hk, -, -, hreads', -⟩ := decodeSequence_of_reads (by omega) h
  refine ⟨k, ?_, hreads'⟩
  rw [decodeEnvelope, hj, Run.ok_bind]
  simp only [check, if_true, Run.ok_bind, decodeIntValue_encodeInt h₁]
  rw [decodeStringValue_encodeOctetString (by omega) h₂, Run.ok_bind, hk]
  rfl

theorem decodeRequestEnvelope_messageBytes {version : Int64} {community : Community}
    {pduType : UInt8} {body : List UInt8}
    (hlen : (messageBytes version community pduType body).length ≤ 0x7fffffff) :
    ∃ at_, decodeRequestEnvelope (messageBytes version community pduType body) version.toUInt64
        pduType = .ok ⟨community, pduType, at_⟩ ∧ at_.Reads body := by
  obtain ⟨at_, h, hreads⟩ := decodeEnvelope_messageBytes hlen
    fun got _ => .snmpVersionMismatch got.toUInt8 version.toUInt64.toUInt8
  refine ⟨at_, ?_, hreads⟩
  rw [decodeRequestEnvelope, h, Run.ok_bind]
  simp [check]

/-! ## Encoding whole messages -/

/-- The content of a PDU: three integers and the variables. -/
def fieldsBytes (id error errorIndex : Int64) (vars : List UInt8) : List UInt8 :=
  encodeInt 0x02 id ++ (encodeInt 0x02 error ++ (encodeInt 0x02 errorIndex
    ++ sequenceBytes 0x30 vars))

theorem vars_length_le (id error errorIndex : Int64) (vars : List UInt8) :
    vars.length ≤ (fieldsBytes id error errorIndex vars).length := by
  have h := length_content_le 0x30 vars
  simp only [fieldsBytes, List.length_append]
  omega

/-- Each element of a run of items is within the length of the run. -/
theorem item_length_le {ι : Type} {enc : ι → List UInt8} {xs : List ι} {x : ι} (hx : x ∈ xs) :
    (enc x).length ≤ (xs.flatMap enc).length := by
  induction xs with
  | nil => cases hx
  | cons y ys ih =>
    rw [List.flatMap_cons, List.length_append]
    rcases List.mem_cons.mp hx with rfl | hx
    · omega
    · have := ih hx
      omega

theorem fields_write {params : List Encoder} {vars : List UInt8} (id error errorIndex : Int64)
    (h : ItemsWrite params vars) :
    ItemsWrite [intEncoder id, intEncoder error, intEncoder errorIndex, sequence params 0x30]
      (fieldsBytes id error errorIndex vars) :=
  .cons (intEncoder_writes id) (.cons (intEncoder_writes error)
    (.cons (intEncoder_writes errorIndex) (.singleton (h.sequence 0x30))))

theorem encodeRequest_eq {params : List Encoder} {vars : List UInt8} (version : Int64)
    (community : Community) (id : RequestId) (error errorIndex : Int64) (pduType : UInt8)
    (h : ItemsWrite params vars) :
    encodeRequest version community id error errorIndex params pduType
      = .ok (messageBytes version community pduType
          (fieldsBytes (Int64.ofUInt64 id) error errorIndex vars)) :=
  Encoder.Writes.encodeMessage (ItemsWrite.sequence
    (.cons (intEncoder_writes version) (.cons (stringEncoder_writes community)
      (.singleton ((fields_write _ error errorIndex h).sequence pduType)))) 0x30)

theorem encodePDUMessage_eq (version : Int64) (community : Community) {pdu : PDU}
    (h : ∀ x ∈ pdu.vars, x.encodable) :
    encodePDUMessage version community pdu
      = .ok (messageBytes version community pdu.pduType
          (fieldsBytes (Int64.ofUInt64 pdu.requestId) (Int64.ofUInt64 pdu.error)
            (Int64.ofUInt64 pdu.errorIndex) (pdu.vars.flatMap SnmpVar.bytes))) :=
  encodeRequest_eq version community pdu.requestId (Int64.ofUInt64 pdu.error)
    (Int64.ofUInt64 pdu.errorIndex) pdu.pduType
    (.map fun x hx => snmpVarEncoder_writes (h x hx))

theorem varBytes_ne_nil (x : Oid × Value) : varBytes x ≠ [] := List.cons_ne_nil _ _

theorem SnmpVar.bytes_ne_nil (x : SnmpVar) : x.bytes ≠ [] := List.cons_ne_nil _ _

/-- The fields of a request come back from its bytes. -/
theorem decodeRequest_messageBytes {version error errorIndex : Int64} {community : Community}
    {id : RequestId} {pduType : UInt8} {vars : List (Oid × Value)}
    (hvars : ∀ x ∈ vars, encodableVar x)
    (hlen : (messageBytes version community pduType (fieldsBytes (Int64.ofUInt64 id) error
      errorIndex (vars.flatMap varBytes))).length ≤ 0x7fffffff) :
    ∃ at_ end_,
      decodeRequestEnvelope (messageBytes version community pduType
        (fieldsBytes (Int64.ofUInt64 id) error errorIndex (vars.flatMap varBytes)))
        version.toUInt64 pduType = .ok ⟨community, pduType, at_⟩ ∧
      decodeFields decodeVar at_
        = .ok ⟨id, error.toUInt64, errorIndex.toUInt64, vars, end_⟩ := by
  obtain ⟨at_, h, hreads⟩ := decodeRequestEnvelope_messageBytes hlen
  have hbody := (body_length_le _ _ _ _).trans hlen
  have hvarsLen := (vars_length_le _ _ _ _).trans hbody
  exact ⟨at_, _, h, decodeFields_of_reads (fun x _ => varBytes_ne_nil x)
    (fun x hx _ hj => decodeVar_of_reads (hvars x hx) ((item_length_le hx).trans hvarsLen) hj)
    hvarsLen hreads⟩

/-- A request with values is encoded, and its fields come back. -/
theorem valueRequest {version : Int64} {community : Community} {id : RequestId}
    {pduType : UInt8} {vars : List (Oid × Value)} (error errorIndex : Int64)
    (hvars : ∀ x ∈ vars, encodableVar x) :
    ∃ bytes,
      encodeRequest version community id error errorIndex (vars.map valueParam) pduType
        = .ok bytes ∧
      (bytes.length ≤ 0x7fffffff → ∃ at_ end_,
        decodeRequestEnvelope bytes version.toUInt64 pduType
          = .ok ⟨community, pduType, at_⟩ ∧
        decodeFields decodeVar at_
          = .ok ⟨id, error.toUInt64, errorIndex.toUInt64, vars, end_⟩) :=
  ⟨_, encodeRequest_eq version community id error errorIndex pduType
      (.map fun x hx => valueParam_writes (hvars x hx)),
    fun hlen => decodeRequest_messageBytes hvars hlen⟩

/-- The variables of a request that only names identifiers. -/
def nullVars (oids : List Oid) : List (Oid × Value) := oids.map fun oid => (oid, .nullValue)

@[simp] theorem nullVars_fst (oids : List Oid) : (nullVars oids).map Prod.fst = oids := by
  rw [nullVars, List.map_map]
  exact List.map_id oids

theorem nullVars_encodable {oids : List Oid} (h : ∀ oid ∈ oids, oid.encodable = true) :
    ∀ x ∈ nullVars oids, encodableVar x := by
  intro x hx
  obtain ⟨oid, hoid, rfl⟩ := List.mem_map.mp hx
  exact ⟨h oid hoid, trivial⟩

theorem map_oidParam (oids : List Oid) : oids.map oidParam = (nullVars oids).map valueParam := by
  rw [nullVars, List.map_map]
  rfl

/-- A request with identifiers only is encoded, and its fields come back. -/
theorem oidRequest {version : Int64} {community : Community} {id : RequestId}
    {pduType : UInt8} {oids : List Oid} (error errorIndex : Int64)
    (hoids : ∀ oid ∈ oids, oid.encodable = true) :
    ∃ bytes,
      encodeRequest version community id error errorIndex (oids.map oidParam) pduType
        = .ok bytes ∧
      (bytes.length ≤ 0x7fffffff → ∃ at_ end_,
        decodeRequestEnvelope bytes version.toUInt64 pduType
          = .ok ⟨community, pduType, at_⟩ ∧
        decodeFields decodeVar at_
          = .ok ⟨id, error.toUInt64, errorIndex.toUInt64, nullVars oids, end_⟩) := by
  rw [map_oidParam]
  exact valueRequest error errorIndex (nullVars_encodable hoids)

/-! ## Message by message -/

theorem SnmpV1GetRequest.decode_encode {m : SnmpV1GetRequest}
    (hm : ∀ oid ∈ m.oids.toList, oid.encodable = true) :
    ∃ bytes, m.encode = .ok bytes ∧
      (bytes.length ≤ 0x7fffffff → decodeSnmpV1GetRequest bytes = .ok (m, m.oids.toList)) := by
  obtain ⟨bytes, henc, h⟩ := oidRequest 0 0 hm
  refine ⟨bytes, henc, fun hlen => ?_⟩
  obtain ⟨at_, end_, henv, hfields⟩ := h hlen
  change decodeRequestEnvelope bytes 0 0xA0 = _ at henv
  rw [decodeSnmpV1GetRequest, henv, Run.ok_bind, hfields, Run.ok_bind]
  simp only [nullVars_fst, OrderedBy.ofList_toList]
  rfl

theorem SnmpV1GetNextRequest.decode_encode {m : SnmpV1GetNextRequest}
    (hm : ∀ oid ∈ m.oids, oid.encodable = true) :
    ∃ bytes, m.encode = .ok bytes ∧
      (bytes.length ≤ 0x7fffffff → decodeSnmpV1GetNextRequest bytes = .ok m) := by
  obtain ⟨bytes, henc, h⟩ := oidRequest 0 0 hm
  refine ⟨bytes, henc, fun hlen => ?_⟩
  obtain ⟨at_, end_, henv, hfields⟩ := h hlen
  change decodeRequestEnvelope bytes 0 0xA1 = _ at henv
  rw [decodeSnmpV1GetNextRequest, henv, Run.ok_bind, hfields, Run.ok_bind]
  simp only [nullVars_fst]
  rfl

theorem SnmpV1SetRequest.decode_encode {m : SnmpV1SetRequest}
    (hm : ∀ x ∈ m.values.toList, encodableVar x) :
    ∃ bytes, m.encode = .ok bytes ∧
      (bytes.length ≤ 0x7fffffff → decodeSnmpV1SetRequest bytes = .ok (m, m.values.keys)) := by
  obtain ⟨bytes, henc, h⟩ := valueRequest 0 0 hm
  refine ⟨bytes, henc, fun hlen => ?_⟩
  obtain ⟨at_, end_, henv, hfields⟩ := h hlen
  change decodeRequestEnvelope bytes 0 0xA3 = _ at henv
  rw [decodeSnmpV1SetRequest, henv, Run.ok_bind, hfields, Run.ok_bind]
  simp only [OrderedBy.ofList_toList]
  rfl

theorem SnmpV2cGetRequest.decode_encode {m : SnmpV2cGetRequest}
    (hm : ∀ oid ∈ m.oids.toList, oid.encodable = true) :
    ∃ bytes, m.encode = .ok bytes ∧
      (bytes.length ≤ 0x7fffffff → decodeSnmpV2cGetRequest bytes = .ok (m, m.oids.toList)) := by
  obtain ⟨bytes, henc, h⟩ := oidRequest 0 0 hm
  refine ⟨bytes, henc, fun hlen => ?_⟩
  obtain ⟨at_, end_, henv, hfields⟩ := h hlen
  change decodeRequestEnvelope bytes 1 0xA0 = _ at henv
  rw [decodeSnmpV2cGetRequest, henv, Run.ok_bind, hfields, Run.ok_bind]
  simp only [nullVars_fst, OrderedBy.ofList_toList]
  rfl

theorem SnmpV2cGetNextRequest.decode_encode {m : SnmpV2cGetNextRequest}
    (hm : ∀ oid ∈ m.oids, oid.encodable = true) :
    ∃ bytes, m.encode = .ok bytes ∧
      (bytes.length ≤ 0x7fffffff → decodeSnmpV2cGetNextRequest bytes = .ok m) := by
  obtain ⟨bytes, henc, h⟩ := oidRequest 0 0 hm
  refine ⟨bytes, henc, fun hlen => ?_⟩
  obtain ⟨at_, end_, henv, hfields⟩ := h hlen
  change decodeRequestEnvelope bytes 1 0xA1 = _ at henv
  rw [decodeSnmpV2cGetNextRequest, henv, Run.ok_bind, hfields, Run.ok_bind]
  simp only [nullVars_fst]
  rfl

theorem SnmpV2cSetRequest.decode_encode {m : SnmpV2cSetRequest}
    (hm : ∀ x ∈ m.values.toList, encodableVar x) :
    ∃ bytes, m.encode = .ok bytes ∧
      (bytes.length ≤ 0x7fffffff → decodeSnmpV2cSetRequest bytes = .ok (m, m.values.keys)) := by
  obtain ⟨bytes, henc, h⟩ := valueRequest 0 0 hm
  refine ⟨bytes, henc, fun hlen => ?_⟩
  obtain ⟨at_, end_, henv, hfields⟩ := h hlen
  change decodeRequestEnvelope bytes 1 0xA3 = _ at henv
  rw [decodeSnmpV2cSetRequest, henv, Run.ok_bind, hfields, Run.ok_bind]
  simp only [OrderedBy.ofList_toList]
  rfl

/-- The number of variables in a message is within its length. -/
theorem length_le_of_encodeRequest {version : Int64} {community : Community} {id : RequestId}
    {pduType : UInt8} {vars : List (Oid × Value)} {error errorIndex : Int64}
    {bytes : List UInt8} (hvars : ∀ x ∈ vars, encodableVar x)
    (h : encodeRequest version community id error errorIndex (vars.map valueParam) pduType
      = .ok bytes) : vars.length ≤ bytes.length := by
  rw [encodeRequest_eq version community id error errorIndex pduType
    (.map fun x hx => valueParam_writes (hvars x hx))] at h
  cases h
  have h₁ := body_length_le version community pduType (fieldsBytes (Int64.ofUInt64 id) error
    errorIndex (vars.flatMap varBytes))
  have h₂ := vars_length_le (Int64.ofUInt64 id) error errorIndex (vars.flatMap varBytes)
  have h₃ := length_le_flatMap varBytes fun x (_ : x ∈ vars) => varBytes_ne_nil x
  exact h₃.trans (h₂.trans h₁)

/-- So is the number of identifiers. -/
theorem length_oids_le {version : Int64} {community : Community} {id : RequestId}
    {pduType : UInt8} {oids : List Oid} {error errorIndex : Int64} {bytes : List UInt8}
    (hoids : ∀ oid ∈ oids, oid.encodable = true)
    (h : encodeRequest version community id error errorIndex (oids.map oidParam) pduType
      = .ok bytes) : oids.length ≤ bytes.length := by
  rw [map_oidParam] at h
  have hle := length_le_of_encodeRequest (nullVars_encodable hoids) h
  rwa [nullVars, List.length_map] at hle

theorem SnmpV2cGetBulkRequest.decode_encode {m : SnmpV2cGetBulkRequest}
    (hm : ∀ oid ∈ m.getNext ++ m.getNextN, oid.encodable = true) :
    ∃ bytes, m.encode = .ok bytes ∧
      (bytes.length ≤ 0x7fffffff → decodeSnmpV2cGetBulkRequest bytes = .ok m) := by
  have hencode : m.encode = encodeRequest 1 m.community m.id (Int64.ofNat m.getNext.length)
      (Int64.ofUInt64 m.n.toUInt64) ((m.getNext ++ m.getNextN).map oidParam) 0xA5 := by
    rw [List.map_append]
    rfl
  rw [hencode]
  obtain ⟨bytes, henc, h⟩ := oidRequest (Int64.ofNat m.getNext.length)
    (Int64.ofUInt64 m.n.toUInt64) hm
  refine ⟨bytes, henc, fun hlen => ?_⟩
  have hcount := length_oids_le hm henc
  rw [List.length_append] at hcount
  obtain ⟨at_, end_, henv, hfields⟩ := h hlen
  change decodeRequestEnvelope bytes 1 0xA5 = _ at henv
  have hn : (Int64.ofNat m.getNext.length).toUInt64.toNat = m.getNext.length :=
    UInt64.toNat_ofNat_of_lt' (by change _ < 2 ^ 64; omega)
  have hmin : min (m.getNext ++ m.getNextN).length m.getNext.length = m.getNext.length := by
    rw [List.length_append]
    omega
  rw [decodeSnmpV2cGetBulkRequest, henv, Run.ok_bind, hfields, Run.ok_bind]
  simp only [nullVars_fst, hn, hmin, List.take_left, List.drop_left]
  change (pure (⟨m.community, m.id, m.getNext, m.getNextN, m.n.toUInt64.toUInt32⟩
    : SnmpV2cGetBulkRequest) : Result _) = .ok m
  rw [UInt32.toUInt32_toUInt64]
  rfl

theorem SnmpV2cTrap.decode_encode {m : SnmpV2cTrap} (htype : m.trapType.encodable = true)
    (htime : m.timestamp % 10 = 0) (hm : ∀ x ∈ m.vars, encodableVar x) :
    ∃ bytes, m.encode = .ok bytes ∧
      (bytes.length ≤ 0x7fffffff → decodeSnmpV2cTrap bytes = .ok m) := by
  have hvars : ∀ x ∈ (sysUpTimeOid, Value.timeTicksValue m.timestamp)
      :: (snmpTrapOid, Value.oidValue m.trapType) :: m.vars, encodableVar x := by
    intro x hx
    rcases List.mem_cons.mp hx with rfl | hx
    · exact ⟨show sysUpTimeOid.encodable = true by decide, htime⟩
    rcases List.mem_cons.mp hx with rfl | hx
    · exact ⟨show snmpTrapOid.encodable = true by decide, htype⟩
    · exact hm x hx
  obtain ⟨bytes, henc, h⟩ := valueRequest 0 0 hvars
  refine ⟨bytes, henc, fun hlen => ?_⟩
  obtain ⟨at_, end_, henv, hfields⟩ := h hlen
  change decodeRequestEnvelope bytes 1 0xA7 = _ at henv
  rw [decodeSnmpV2cTrap, henv, Run.ok_bind, hfields]
  rfl

/-- An enumerator comes back from the 64 bits it was widened to. -/
theorem toUInt32_toInt64 (x : Int32) : x.toInt64.toUInt64.toUInt32.toInt32 = x := by
  apply Int32.toBitVec_inj.mp
  change (x.toInt64.toBitVec).setWidth 32 = x.toBitVec
  rw [Int32.toBitVec_toInt64]
  refine BitVec.eq_of_getLsbD_eq fun k hk => ?_
  rw [BitVec.getLsbD_setWidth, BitVec.getLsbD_signExtend]
  have h64 : k < 64 := by omega
  simp [hk, h64]

/-- The content of a V1 trap. -/
def SnmpV1Trap.bodyBytes (m : SnmpV1Trap) : List UInt8 :=
  encodeOid m.trapType ++ ((Value.ipv4AddressValue m.origin).bytes
    ++ (encodeInt 0x02 m.genericType.toInt64
    ++ (encodeInt 0x02 (Int64.ofUInt64 m.specificType.toUInt64)
    ++ ((Value.timeTicksValue m.timestamp).bytes
    ++ sequenceBytes 0x30 (m.vars.toList.flatMap varBytes)))))

theorem SnmpV1Trap.encode_eq {m : SnmpV1Trap} (htype : m.trapType.encodable = true)
    (htime : m.timestamp % 10 = 0) (hm : ∀ x ∈ m.vars.toList, encodableVar x) :
    m.encode = .ok (messageBytes 0 m.community 0xA4 m.bodyBytes) := by
  have hvars := (ItemsWrite.map fun x hx => valueParam_writes (hm x hx)).sequence 0x30
  have hbody : ItemsWrite _ m.bodyBytes := .cons (oidEncoder_writes htype)
    (.cons (valueEncoder_writes (v := .ipv4AddressValue m.origin) trivial)
      (.cons (intEncoder_writes m.genericType.toInt64)
        (.cons (intEncoder_writes (Int64.ofUInt64 m.specificType.toUInt64))
          (.cons (valueEncoder_writes (v := .timeTicksValue m.timestamp) htime)
            (.singleton hvars)))))
  exact (ItemsWrite.sequence (.cons (intEncoder_writes 0)
    (.cons (stringEncoder_writes m.community)
      (.singleton (hbody.sequence 0xA4)))) 0x30).encodeMessage

theorem SnmpV1Trap.decode_encode {m : SnmpV1Trap} (htype : m.trapType.encodable = true)
    (htime : m.timestamp % 10 = 0) (hm : ∀ x ∈ m.vars.toList, encodableVar x) :
    ∃ bytes, m.encode = .ok bytes ∧
      (bytes.length ≤ 0x7fffffff → decodeSnmpV1Trap bytes = .ok m) := by
  refine ⟨_, m.encode_eq htype htime hm, fun hlen => ?_⟩
  obtain ⟨at_, henv, hreads⟩ := decodeRequestEnvelope_messageBytes hlen
  change decodeRequestEnvelope _ 0 0xA4 = _ at henv
  have hbody := (body_length_le _ _ _ _).trans hlen
  simp only [bodyBytes, List.length_append] at hbody
  have hoid := oidDataLength_le m.trapType
  have hvars := length_content_le 0x30 (m.vars.toList.flatMap varBytes)
  obtain ⟨h₁, h⟩ := Reads.append.mp hreads
  obtain ⟨h₂, h⟩ := Reads.append.mp h
  obtain ⟨h₃, h⟩ := Reads.append.mp h
  obtain ⟨h₄, h⟩ := Reads.append.mp h
  obtain ⟨h₅, h₆⟩ := Reads.append.mp h
  have hloop := decodeVars_of_reads (fun x (_ : x ∈ m.vars.toList) => varBytes_ne_nil x)
    (fun x hx _ hj => decodeVar_of_reads (hm x hx) ((item_length_le hx).trans (by omega)) hj)
    (by omega) h₆
  rw [decodeSnmpV1Trap, henv, Run.ok_bind, decodeOidValue_encodeOid htype (by omega) h₁,
    Run.ok_bind, decodeIPv4AddressValue_bytes h₂, Run.ok_bind, decodeIntValue_encodeInt h₃,
    Run.ok_bind, decodeIntValue_encodeInt h₄, Run.ok_bind, decodeTimeTicksValue_bytes htime h₅,
    Run.ok_bind, hloop, Run.ok_bind]
  simp only [OrderedBy.ofList_toList]
  change Except.ok (⟨m.community, m.trapType, m.origin,
    m.genericType.toInt64.toUInt64.toUInt32.toInt32, m.specificType.toUInt64.toUInt32,
    m.timestamp, m.vars⟩ : SnmpV1Trap) = .ok m
  rw [UInt32.toUInt32_toUInt64]
  rw [toUInt32_toInt64]

/-! ## Responses -/

/-- The bytes of a response, of either version. -/
theorem decodeResponse_messageBytes {ι : Type} {enc : ι → List UInt8} {xs : List ι}
    {decodeItem : ∀ {data : List UInt8}, DecodeIterator data →
      Result (ι × DecodeIterator data)}
    (hne : ∀ x ∈ xs, enc x ≠ [])
    {version : Int64} {community : Community} {pduType : UInt8} {id error errorIndex : Int64}
    (hlen : (messageBytes version community pduType (fieldsBytes id error errorIndex
      (xs.flatMap enc))).length ≤ 0x7fffffff)
    (hitem : ∀ x ∈ xs, (enc x).length ≤ 0x7fffffff → ∀ {data : List UInt8},
      ∀ j : DecodeIterator data, j.Reads (enc x) →
        decodeItem j = .ok (x, j.past (enc x).length))
    (mismatch : ∀ {data : List UInt8}, UInt64 → DecodeIterator data → Exception) :
    ∃ at_ end_,
      decodeEnvelope (messageBytes version community pduType (fieldsBytes id error errorIndex
        (xs.flatMap enc))) version.toUInt64 mismatch = .ok ⟨community, pduType, at_⟩ ∧
      decodeFields decodeItem at_
        = .ok ⟨id.toUInt64, error.toUInt64, errorIndex.toUInt64, xs, end_⟩ := by
  obtain ⟨at_, h, hreads⟩ := decodeEnvelope_messageBytes hlen mismatch
  have hbody := (body_length_le _ _ _ _).trans hlen
  have hvarsLen := (vars_length_le _ _ _ _).trans hbody
  exact ⟨at_, _, h, decodeFields_of_reads hne
    (fun x hx j hj => hitem x hx ((item_length_le hx).trans hvarsLen) j hj) hvarsLen hreads⟩

/-- An error status that is not negative passes the check and comes back. -/
theorem ErrorStatus.ofUInt64_toUInt64 {error : ErrorStatus} (h : 0 ≤ error.code) :
    checkErrorStatus error.toUInt64 = .ok () ∧ ErrorStatus.ofUInt64 error.toUInt64 = error := by
  constructor
  · have hmsb : error.code.toBitVec.msb = false := by
      rw [BitVec.msb_eq_toInt, decide_eq_false_iff_not, not_lt]
      exact Int32.le_iff_toInt_le.mp h
    have hnat : error.toUInt64.toNat = error.code.toBitVec.toNat := by
      change error.code.toInt64.toBitVec.toNat = _
      rw [Int32.toBitVec_toInt64, BitVec.signExtend_eq_setWidth_of_msb_false hmsb,
        BitVec.toNat_setWidth]
      omega
    have hle : error.toUInt64 ≤ intMax := by
      rw [UInt64.le_iff_toNat_le, hnat]
      have := BitVec.msb_eq_false_iff_two_mul_lt.mp hmsb
      change _ ≤ 0x7fffffff
      omega
    simp [checkErrorStatus, check, hle]
  · exact congrArg ErrorStatus.mk (toUInt32_toInt64 error.code)

theorem SnmpV1Response.decode_encode {m : SnmpV1Response} (herror : 0 ≤ m.error.code)
    (hm : ∀ x ∈ m.values, encodableVar x) :
    ∃ bytes, m.encode = .ok bytes ∧
      (bytes.length ≤ 0x7fffffff →
        decodeSnmpV1Response bytes = .ok { m with responseType := 0xA2 }) := by
  have hvars : ∀ x ∈ m.values.map (fun v => (⟨v.1, .inr v.2⟩ : SnmpVar)), x.encodable := by
    intro x hx
    obtain ⟨v, hv, rfl⟩ := List.mem_map.mp hx
    exact ⟨(hm v hv).1, fun w hw => by cases hw; exact (hm v hv).2⟩
  have henc : m.encode = _ := encodePDUMessage_eq 0 m.community hvars
  have hbytes : (m.values.map (fun v => (⟨v.1, .inr v.2⟩ : SnmpVar))).flatMap SnmpVar.bytes
      = m.values.flatMap varBytes := by
    rw [List.flatMap_map]
    rfl
  rw [hbytes] at henc
  refine ⟨_, henc, fun hlen => ?_⟩
  obtain ⟨at_, end_, henv, hfields⟩ := decodeResponse_messageBytes
    (fun x (_ : x ∈ m.values) => varBytes_ne_nil x) hlen
    (fun x hx hx' _ j hj => decodeVar_of_reads (hm x hx) hx' hj)
    (responseVersionMismatch "0" "SNMP V1")
  obtain ⟨hcheck, herror⟩ := ErrorStatus.ofUInt64_toUInt64 herror
  change decodeEnvelope _ 0 _ = _ at henv
  rw [decodeSnmpV1Response, henv, Run.ok_bind, hfields]
  change (checkErrorStatus m.error.toUInt64 >>= fun _ => Except.ok
    (⟨0xA2, m.community, m.id, .ofUInt64 m.error.toUInt64, m.errorIndex, m.values⟩
      : SnmpV1Response)) = _
  rw [hcheck, herror]
  rfl

theorem SnmpV2cResponse.decode_encode {m : SnmpV2cResponse} (herror : 0 ≤ m.error.code)
    (hm : ∀ x ∈ m.varResults, x.encodable) :
    ∃ bytes, m.encode = .ok bytes ∧
      (bytes.length ≤ 0x7fffffff →
        decodeSnmpV2cResponse bytes = .ok { m with responseType := 0xA2 }) := by
  have henc : m.encode = _ := encodePDUMessage_eq 1 m.community hm
  refine ⟨_, henc, fun hlen => ?_⟩
  obtain ⟨at_, end_, henv, hfields⟩ := decodeResponse_messageBytes
    (fun x (_ : x ∈ m.varResults) => x.bytes_ne_nil) hlen
    (fun x hx hx' _ j hj => decodeSnmpVar_of_reads (hm x hx) hx' hj)
    (responseVersionMismatch "1" "SNMP V2c")
  obtain ⟨hcheck, herror⟩ := ErrorStatus.ofUInt64_toUInt64 herror
  change decodeEnvelope _ 1 _ = _ at henv
  rw [decodeSnmpV2cResponse, henv, Run.ok_bind, hfields]
  change (checkErrorStatus m.error.toUInt64 >>= fun _ => Except.ok
    (⟨0xA2, m.community, m.id, .ofUInt64 m.error.toUInt64, m.errorIndex, m.varResults⟩
      : SnmpV2cResponse)) = _
  rw [hcheck, herror]
  rfl

/-! ## The messages -/

/-- The messages of SNMP V1 and V2c. -/
inductive Message where
  | v1GetRequest (m : SnmpV1GetRequest)
  | v1GetNextRequest (m : SnmpV1GetNextRequest)
  | v1SetRequest (m : SnmpV1SetRequest)
  | v1Response (m : SnmpV1Response)
  | v1Trap (m : SnmpV1Trap)
  | v2cGetRequest (m : SnmpV2cGetRequest)
  | v2cGetNextRequest (m : SnmpV2cGetNextRequest)
  | v2cGetBulkRequest (m : SnmpV2cGetBulkRequest)
  | v2cSetRequest (m : SnmpV2cSetRequest)
  | v2cResponse (m : SnmpV2cResponse)
  | v2cTrap (m : SnmpV2cTrap)
  deriving DecidableEq

namespace Message

/-- The overload of `encode` for the message. -/
def encode : Message → Result (List UInt8)
  | v1GetRequest m => m.encode
  | v1GetNextRequest m => m.encode
  | v1SetRequest m => m.encode
  | v1Response m => m.encode
  | v1Trap m => m.encode
  | v2cGetRequest m => m.encode
  | v2cGetNextRequest m => m.encode
  | v2cGetBulkRequest m => m.encode
  | v2cSetRequest m => m.encode
  | v2cResponse m => m.encode
  | v2cTrap m => m.encode

/-- The decoder for messages of the same class, with the order of the variables that
some of them return beside the message left aside. -/
def decodeLike (data : List UInt8) : Message → Result Message
  | v1GetRequest _ => do
    let r ← decodeSnmpV1GetRequest data
    pure (v1GetRequest r.1)
  | v1GetNextRequest _ => do
    let r ← decodeSnmpV1GetNextRequest data
    pure (v1GetNextRequest r)
  | v1SetRequest _ => do
    let r ← decodeSnmpV1SetRequest data
    pure (v1SetRequest r.1)
  | v1Response _ => do
    let r ← decodeSnmpV1Response data
    pure (v1Response r)
  | v1Trap _ => do
    let r ← decodeSnmpV1Trap data
    pure (v1Trap r)
  | v2cGetRequest _ => do
    let r ← decodeSnmpV2cGetRequest data
    pure (v2cGetRequest r.1)
  | v2cGetNextRequest _ => do
    let r ← decodeSnmpV2cGetNextRequest data
    pure (v2cGetNextRequest r)
  | v2cGetBulkRequest _ => do
    let r ← decodeSnmpV2cGetBulkRequest data
    pure (v2cGetBulkRequest r)
  | v2cSetRequest _ => do
    let r ← decodeSnmpV2cSetRequest data
    pure (v2cSetRequest r.1)
  | v2cResponse _ => do
    let r ← decodeSnmpV2cResponse data
    pure (v2cResponse r)
  | v2cTrap _ => do
    let r ← decodeSnmpV2cTrap data
    pure (v2cTrap r)

/-- The messages that can be told to a peer: identifiers start `.1.3`, times are
multiples of ten milliseconds, and an error status is not negative. -/
def Encodable : Message → Prop
  | v1GetRequest m => ∀ oid ∈ m.oids.toList, oid.encodable = true
  | v1GetNextRequest m => ∀ oid ∈ m.oids, oid.encodable = true
  | v1SetRequest m => ∀ x ∈ m.values.toList, encodableVar x
  | v1Response m => 0 ≤ m.error.code ∧ ∀ x ∈ m.values, encodableVar x
  | v1Trap m =>
    m.trapType.encodable = true ∧ m.timestamp % 10 = 0 ∧ ∀ x ∈ m.vars.toList, encodableVar x
  | v2cGetRequest m => ∀ oid ∈ m.oids.toList, oid.encodable = true
  | v2cGetNextRequest m => ∀ oid ∈ m.oids, oid.encodable = true
  | v2cGetBulkRequest m =>
    (∀ oid ∈ m.getNext, oid.encodable = true) ∧ ∀ oid ∈ m.getNextN, oid.encodable = true
  | v2cSetRequest m => ∀ x ∈ m.values.toList, encodableVar x
  | v2cResponse m => 0 ≤ m.error.code ∧ ∀ x ∈ m.varResults, x.encodable
  | v2cTrap m =>
    m.trapType.encodable = true ∧ m.timestamp % 10 = 0 ∧ ∀ x ∈ m.vars, encodableVar x

/-- A response has the type responses are sent with. -/
def IsResponseType : Message → Prop
  | v1Response m => m.responseType = 0xA2
  | v2cResponse m => m.responseType = 0xA2
  | _ => True

/-- Decoding undoes encoding: every message is encoded without a failed assertion, and
where its size fits an `int` the matching decoder returns the message. -/
theorem decodeLike_encode (m : Message) (hm : m.Encodable) (ht : m.IsResponseType) :
    ∃ bytes, m.encode = .ok bytes ∧
      (bytes.length ≤ 0x7fffffff → m.decodeLike bytes = .ok m) := by
  cases m with
  | v1GetRequest m =>
    obtain ⟨bytes, henc, h⟩ := SnmpV1GetRequest.decode_encode hm
    exact ⟨bytes, henc, fun hlen => by rw [decodeLike, h hlen]; rfl⟩
  | v1GetNextRequest m =>
    obtain ⟨bytes, henc, h⟩ := SnmpV1GetNextRequest.decode_encode hm
    exact ⟨bytes, henc, fun hlen => by rw [decodeLike, h hlen]; rfl⟩
  | v1SetRequest m =>
    obtain ⟨bytes, henc, h⟩ := SnmpV1SetRequest.decode_encode hm
    exact ⟨bytes, henc, fun hlen => by rw [decodeLike, h hlen]; rfl⟩
  | v1Response m =>
    obtain ⟨bytes, henc, h⟩ := SnmpV1Response.decode_encode hm.1 hm.2
    exact ⟨bytes, henc, fun hlen => by rw [decodeLike, h hlen]; cases m; cases ht; rfl⟩
  | v1Trap m =>
    obtain ⟨bytes, henc, h⟩ := SnmpV1Trap.decode_encode hm.1 hm.2.1 hm.2.2
    exact ⟨bytes, henc, fun hlen => by rw [decodeLike, h hlen]; rfl⟩
  | v2cGetRequest m =>
    obtain ⟨bytes, henc, h⟩ := SnmpV2cGetRequest.decode_encode hm
    exact ⟨bytes, henc, fun hlen => by rw [decodeLike, h hlen]; rfl⟩
  | v2cGetNextRequest m =>
    obtain ⟨bytes, henc, h⟩ := SnmpV2cGetNextRequest.decode_encode hm
    exact ⟨bytes, henc, fun hlen => by rw [decodeLike, h hlen]; rfl⟩
  | v2cGetBulkRequest m =>
    have hoids : ∀ oid ∈ m.getNext ++ m.getNextN, oid.encodable = true := by
      intro oid hoid
      rcases List.mem_append.mp hoid with h | h
      · exact hm.1 oid h
      · exact hm.2 oid h
    obtain ⟨bytes, henc, h⟩ := SnmpV2cGetBulkRequest.decode_encode hoids
    exact ⟨bytes, henc, fun hlen => by rw [decodeLike, h hlen]; rfl⟩
  | v2cSetRequest m =>
    obtain ⟨bytes, henc, h⟩ := SnmpV2cSetRequest.decode_encode hm
    exact ⟨bytes, henc, fun hlen => by rw [decodeLike, h hlen]; rfl⟩
  | v2cResponse m =>
    obtain ⟨bytes, henc, h⟩ := SnmpV2cResponse.decode_encode hm.1 hm.2
    exact ⟨bytes, henc, fun hlen => by rw [decodeLike, h hlen]; cases m; cases ht; rfl⟩
  | v2cTrap m =>
    obtain ⟨bytes, henc, h⟩ := SnmpV2cTrap.decode_encode hm.1 hm.2.1 hm.2.2
    exact ⟨bytes, henc, fun hlen => by rw [decodeLike, h hlen]; rfl⟩

theorem decodeLike_encode_set :
    ∃ bytes, (v1SetRequest ⟨[0x70], 7, .ofList [(⟨[1, 3, 6]⟩, .timeTicksValue 20)]⟩).encode
        = .ok bytes ∧
      (bytes.length ≤ 0x7fffffff →
        (v1SetRequest ⟨[0x70], 7, .ofList [(⟨[1, 3, 6]⟩, .timeTicksValue 20)]⟩).decodeLike bytes
          = .ok (v1SetRequest ⟨[0x70], 7, .ofList [(⟨[1, 3, 6]⟩, .timeTicksValue 20)]⟩)) := by
  refine decodeLike_encode _ ?_ trivial
  intro x hx
  obtain rfl := List.mem_singleton.mp hx
  exact ⟨show (⟨[1, 3, 6]⟩ : Oid).encodable = true by decide,
    show (20 : Int64) % 10 = 0 by decide⟩

/-- A response of another type comes back with the type responses are sent with. -/
theorem decodeLike_encode_other_type :
    let m := v1Response ⟨0xA0, [0x70], 7, .noError, 0, []⟩
    m.Encodable ∧ ∃ bytes, m.encode = .ok bytes ∧ bytes.length ≤ 0x7fffffff ∧
      m.decodeLike bytes = .ok (v1Response ⟨0xA2, [0x70], 7, .noError, 0, []⟩) ∧
      m.decodeLike bytes ≠ .ok m := by
  refine ⟨⟨by decide, fun x hx => by cases hx⟩, ?_⟩
  exact ⟨[0x30, 0x13, 2, 1, 0, 4, 1, 0x70, 0xA2, 0x0b, 2, 1, 7, 2, 1, 0, 2, 1, 0, 0x30, 0],
    by decide +kernel⟩

end Message

end Urnest.Snmp
