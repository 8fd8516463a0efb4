import Urnest.Lib.BigEndian
import Urnest.Snmp.RoundTrip

/-!
# Trees of values

A `Sequence` holds any values, sequences among them, so what is encoded is a tree.
Each node announces its length when it is constructed, and writes its bytes later
between assertions that compare the two. `ValueTree.writes` follows a tree down to
its values: every node writes as many bytes as it announced, so no assertion fails.

`Framed` reads the same bytes as X.690 does, where the length octets of an element
say how many content octets follow (`LengthOctets`), in the short or the long form.
-/

namespace Urnest.Snmp

open Lib

/-! ## Length octets -/

/-- X.690 definite length: one octet below 128, or the count of the octets that
hold it. -/
inductive LengthOctets : List UInt8 → Nat → Prop
  | short {b : UInt8} (h : b < 0x80) : LengthOctets [b] b.toNat
  | long {bs : List UInt8} (hpos : bs ≠ []) (h : bs.length < 127) :
      LengthOctets ((0x80 ||| UInt8.ofNat bs.length) :: bs) (ofBytes bs)

/-- The length written is the length meant. -/
theorem lengthOctets_encodeLength {n : Nat} (hn : n < 2 ^ 64) :
    LengthOctets (encodeLength n) n := by
  rw [encodeLength]
  split_ifs with h
  · have hb : (UInt8.ofNat n).toNat = n := by
      rw [toNat_ofNat_byte]
      exact Nat.mod_eq_of_lt (by omega)
    have hlt : UInt8.ofNat n < 0x80 := by
      rw [UInt8.lt_iff_toNat_lt, hb]
      exact h
    have := LengthOctets.short hlt
    rwa [hb] at this
  · obtain ⟨hpos, h8⟩ := lengthBytes_bounds (Nat.le_of_not_lt h) hn
    dsimp only
    generalize hk : (countSignificantBits (UInt64.ofNat n) + 7) / 8 = k at hpos h8 ⊢
    -- the octets hold every bit that counts
    have hfits : n < 256 ^ k := by
      have hbits : countSignificantBits (UInt64.ofNat n) ≤ 8 * k := by omega
      have hlt := countSignificantBits_le_iff.mp hbits
      rwa [UInt64.toNat_ofNat_of_lt' hn, pow_mul] at hlt
    have hbytes : longFormBytes k (UInt64.ofNat n) = toBytes k n := by
      rw [longFormBytes_eq h8, bigEndian_eq_toBytes _ h8, UInt64.toNat_ofNat_of_lt' hn]
    have hlen := length_toBytes k n
    have hne : toBytes k n ≠ [] := by
      apply List.ne_nil_of_length_pos
      omega
    have := LengthOctets.long hne (by omega)
    rwa [ofBytes_toBytes_of_lt hfits, hlen, ← hbytes] at this

/-! ## Trees -/

/-- A value, or a sequence of such trees. -/
inductive ValueTree where
  | value (v : Value) (constructed : v.Constructed)
  | sequence (items : List ValueTree) (sequenceType : UInt8)

namespace ValueTree

mutual

/-- The `Value` object at the root. -/
def encoder : ValueTree → Encoder
  | .value v _ => v.encoder
  | .sequence items sequenceType => Snmp.sequence (encoders items) sequenceType

def encoders : List ValueTree → List Encoder
  | [] => []
  | t :: ts => t.encoder :: encoders ts

end

mutual

/-- The bytes of a tree. -/
def bytes : ValueTree → List UInt8
  | .value v _ => v.bytes
  | .sequence items sequenceType => sequenceBytes sequenceType (itemBytes items)

def itemBytes : List ValueTree → List UInt8
  | [] => []
  | t :: ts => t.bytes ++ itemBytes ts

end

mutual

/-- A tree writes its bytes, as many as it announced. -/
theorem writes : ∀ t : ValueTree, t.encoder.Writes t.bytes
  | .value v constructed => by
    rw [encoder, bytes]
    exact ⟨Value.encodeTo_eq constructed, v.length_bytes⟩
  | .sequence items sequenceType => by
    rw [encoder, bytes]
    exact (writes_items items).sequence sequenceType

theorem writes_items : ∀ items : List ValueTree, ItemsWrite (encoders items) (itemBytes items)
  | [] => by
    rw [encoders, itemBytes]
    exact .nil
  | t :: ts => by
    rw [encoders, itemBytes]
    exact .cons (writes t) (writes_items ts)

end

end ValueTree

/-! ## Elements -/

/-- The type octet of a value. -/
def Value.asn1Type : Value → UInt8
  | .intValue _ => 0x02
  | .stringValue _ => 0x04
  | .oidValue _ => 0x06
  | .nullValue => 0x05
  | .ipv4AddressValue _ => 0x40
  | .counter32Value _ => 0x41
  | .gauge32Value _ => 0x42
  | .timeTicksValue _ => 0x43
  | .opaqueValue _ => 0x44
  | .counter64Value _ => 0x46

mutual

/-- The octets are a type, a length, and as many content octets as the length says;
those of a sequence are its items, each framed in turn. -/
inductive Framed : ValueTree → List UInt8 → Prop
  | value {v : Value} {constructed : v.Constructed} {length content : List UInt8}
      (h : LengthOctets length content.length) :
      Framed (.value v constructed) (v.asn1Type :: length ++ content)
  | sequence {items : List ValueTree} {sequenceType : UInt8} {length content : List UInt8}
      (hitems : FramedItems items content) (h : LengthOctets length content.length) :
      Framed (.sequence items sequenceType) (sequenceType :: length ++ content)

inductive FramedItems : List ValueTree → List UInt8 → Prop
  | nil : FramedItems [] []
  | cons {t : ValueTree} {ts : List ValueTree} {as bs : List UInt8}
      (head : Framed t as) (tail : FramedItems ts bs) : FramedItems (t :: ts) (as ++ bs)

end

/-- A value is its type, the length of its content and the content. -/
theorem Value.bytes_eq (v : Value) :
    ∃ content, v.bytes = v.asn1Type :: encodeLength content.length ++ content := by
  have hint : ∀ (asn1Type : UInt8) (val : Int64), ∃ content,
      encodeInt asn1Type val = asn1Type :: encodeLength content.length ++ content := by
    intro asn1Type val
    refine ⟨intBytes val (intDataLength val), ?_⟩
    rw [length_intBytes]
    rfl
  cases v with
  | intValue val => exact hint _ _
  | stringValue val => exact ⟨val, rfl⟩
  | oidValue val =>
    refine ⟨0x2b :: (val.components.drop 2).flatMap encodeOidComponent, ?_⟩
    rw [List.length_cons, length_flatMap_components, Nat.add_comm]
    rfl
  | nullValue => exact ⟨[], rfl⟩
  | ipv4AddressValue val => exact ⟨_, rfl⟩
  | counter32Value val => exact hint _ _
  | gauge32Value val => exact hint _ _
  | timeTicksValue val => exact hint _ _
  | opaqueValue val => exact ⟨val, rfl⟩
  | counter64Value val => exact hint _ _

namespace ValueTree

mutual

/-- The bytes of a tree are framed, if their number can be written as a length. -/
theorem framed : ∀ t : ValueTree, t.bytes.length < 2 ^ 64 → Framed t t.bytes
  | .value v constructed => by
    rw [bytes]
    intro hlen
    obtain ⟨content, hcontent⟩ := v.bytes_eq
    rw [hcontent] at hlen ⊢
    rw [List.length_append] at hlen
    exact .value (lengthOctets_encodeLength (by omega))
  | .sequence items sequenceType => by
    rw [bytes]
    intro hlen
    have hcontent := length_content_le sequenceType (itemBytes items)
    exact .sequence (framed_items items (by omega)) (lengthOctets_encodeLength (by omega))

theorem framed_items : ∀ items : List ValueTree, (itemBytes items).length < 2 ^ 64 →
    FramedItems items (itemBytes items)
  | [] => by
    rw [itemBytes]
    exact fun _ => .nil
  | t :: ts => by
    rw [itemBytes, List.length_append]
    intro hlen
    exact .cons (framed t (by omega)) (framed_items ts (by omega))

end

/-- A tree of at most `INT_MAX` bytes is written without an assertion failing: exactly
as many bytes as it announced, and each length octet counts the octets after it. -/
theorem encodeTo_encodedLength (t : ValueTree) (h : t.encoder.encodedLength ≤ 0x7fffffff) :
    ∃ bytes, t.encoder.encodeTo = .ok bytes ∧ bytes.length = t.encoder.encodedLength ∧
      Framed t bytes := by
  obtain ⟨hwrites, hlen⟩ := t.writes
  refine ⟨t.bytes, hwrites, hlen, t.framed ?_⟩
  rw [hlen]
  omega

theorem encodeTo_encodedLength_nested :
    let t := ValueTree.sequence
      [.value (.intValue (-129)) trivial,
        .sequence [.value .nullValue trivial, .value (.counter64Value 0x80) trivial] 0x30] 0x30
    t.encoder.encodedLength = 14 ∧
      ∃ bytes, t.encoder.encodeTo = .ok bytes ∧ bytes.length = t.encoder.encodedLength ∧
        Framed t bytes := by
  intro t
  have hlen : t.encoder.encodedLength = 14 := by decide
  exact ⟨hlen, encodeTo_encodedLength t (by rw [hlen]; omega)⟩

end ValueTree

end Urnest.Snmp
