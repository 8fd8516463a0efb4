import Urnest.Snmp.ValueTree

/-!
# Integers as X.690 has them

The content octets of an integer are the shortest list of octets that stands for it
in two's complement (`IntegerContents`); there is exactly one. `intDataLength` finds
its length: it drops leading octets for as long as the nine bits under its mask are
like the sign, which is as long as the number fits in what is left.

A 64-bit counter is written through the same functions, so as the signed integer of
the same bits. From `2 ^ 63` on that is another number, and the nine octets that X.690
asks for are refused when they are read.
-/

namespace Urnest.Snmp

open DecodeIterator Lib

/-- X.690 content octets of an integer. -/
structure IntegerContents (v : Int) (bs : List UInt8) : Prop where
  nonempty : bs ≠ []
  value : ofTwos bs = v
  shortest : ∀ cs : List UInt8, cs ≠ [] → ofTwos cs = v → bs.length ≤ cs.length

/-- A number has one list of content octets. -/
theorem IntegerContents.unique {v : Int} {as bs : List UInt8} (ha : IntegerContents v as)
    (hb : IntegerContents v bs) : as = bs := by
  have hlen : as.length = bs.length :=
    Nat.le_antisymm (ha.shortest bs hb.nonempty hb.value) (hb.shortest as ha.nonempty ha.value)
  exact ofTwos_inj hlen (ha.value.trans hb.value.symm)

/-- The low bytes of a number, if it fits in no fewer, are its content octets. -/
theorem integerContents_toBytes {v : Int} {n : Nat} (hn : 1 ≤ n) (hfits : FitsTwos v n)
    (hleast : ∀ m, 1 ≤ m → FitsTwos v m → n ≤ m) :
    IntegerContents v (toBytes n (v % 256 ^ n).toNat) := by
  refine ⟨?_, ofTwos_toBytes hn hfits, ?_⟩
  · apply List.ne_nil_of_length_pos
    rw [length_toBytes]
    omega
  · intro cs hne hcs
    rw [length_toBytes]
    apply hleast _ (List.length_pos_of_ne_nil hne)
    rw [← hcs]
    exact ofTwos_fits cs

/-! ## The length -/

/-- A signed word, from the word with its bits. -/
theorem toInt_eq (v : Int64) :
    v.toInt = if bit v.toUInt64 63 = true then (v.toUInt64.toNat : Int) - 2 ^ 64
      else (v.toUInt64.toNat : Int) := by
  have h := BitVec.toInt_eq_msb_cond v.toBitVec
  rw [BitVec.msb_eq_getLsbD_last] at h
  exact h

theorem signExtends_false_iff {w : UInt64} {n : Nat} :
    SignExtends w false n ↔ w.toNat < 2 ^ (8 * n - 1) := by
  rw [lt_two_pow_iff]
  constructor
  · intro h k hk
    by_cases h64 : k < 64
    · exact h k h64 (by omega)
    · exact bit_of_ge (Nat.le_of_not_lt h64)
  · exact fun h k _ hle => h k (by omega)

theorem signExtends_true_iff {w : UInt64} {n : Nat} :
    SignExtends w true n ↔ (~~~w).toNat < 2 ^ (8 * n - 1) := by
  rw [← signExtends_false_iff]
  have hbit : ∀ k < 64, bit (~~~w) k = false ↔ bit w k = true := by
    intro k hk
    rw [bit_not w hk, Bool.not_eq_false']
  exact ⟨fun h k hk hle => (hbit k hk).mpr (h k hk hle),
    fun h k hk hle => (hbit k hk).mp (h k hk hle)⟩

/-- The bits of a signed word from `8 * n - 1` up are alike when it fits in `n` bytes. -/
theorem signExtends_iff (v : Int64) {n : Nat} (hn : 1 ≤ n) :
    SignExtends v.toUInt64 (bit v.toUInt64 63) n ↔ FitsTwos v.toInt n := by
  have hpow : (256 : Int) ^ n = 2 * 2 ^ (8 * n - 1) := by
    have hexp : 8 * n = (8 * n - 1) + 1 := by omega
    calc (256 : Int) ^ n = 2 ^ (8 * n) := by rw [pow_mul]; rfl
      _ = 2 * 2 ^ (8 * n - 1) := by rw [hexp, pow_succ, Nat.add_sub_cancel, mul_comm]
  have hlt := v.toUInt64.toNat_lt
  rw [FitsTwos, hpow, toInt_eq]
  cases hsign : bit v.toUInt64 63 with
  | false =>
    rw [signExtends_false_iff, if_neg (by simp)]
    zify
    omega
  | true =>
    have hge : 2 ^ 63 ≤ v.toUInt64.toNat := by
      by_contra hlow
      have := lt_two_pow_iff.mp (Nat.lt_of_not_le hlow) 63 le_rfl
      simp [hsign] at this
    have hnot : (~~~v.toUInt64).toNat = 2 ^ 64 - 1 - v.toUInt64.toNat := UInt64.toNat_not _
    rw [signExtends_true_iff, if_pos rfl, hnot]
    zify [show v.toUInt64.toNat ≤ 2 ^ 64 - 1 by omega]
    push_cast
    omega

/-- The loop goes on while a shorter length would do. -/
theorem dropLeading_least (sign : Bool) {holds : Int64 → Bool} {w : UInt64}
    (hholds : ∀ mask, holds mask = true ↔
      ∀ k < 64, bit mask.toUInt64 k = true → bit w k = sign) :
    ∀ {n : Nat} {mask : Int64}, n ≤ 8 → MaskOf mask n →
      ∀ m, 1 ≤ m → SignExtends w sign m → dropLeading holds n mask ≤ m := by
  intro n
  induction n with
  | zero =>
    intro mask _ _ m _ _
    exact Nat.zero_le m
  | succ n ih =>
    intro mask h8 hmask m h1 hsign
    rw [dropLeading]
    split_ifs with h
    · exact ih (by omega) (hmask.shift (by omega)) m h1 hsign
    · by_contra hlt
      -- `m` is less, so the octet could have been dropped
      refine h ⟨by omega, (hholds mask).mpr fun k hk hbit => hsign k hk ?_⟩
      rw [hmask k hk, decide_eq_true_iff] at hbit
      omega

/-- `intDataLength` keeps no more bytes than it must. -/
theorem intDataLength_least (v : Int64) {n : Nat} (hn : 1 ≤ n) (hfits : FitsTwos v.toInt n) :
    intDataLength v ≤ n := by
  have hsign := (signExtends_iff v hn).mpr hfits
  rw [intDataLength]
  split_ifs with hpos hneg
  · refine dropLeading_least (bit v.toUInt64 63) ?_ le_rfl maskOf_eight n hn hsign
    rw [sign_of_pos hpos]
    exact drop_positive_iff
  · refine dropLeading_least (bit v.toUInt64 63) ?_ le_rfl maskOf_eight n hn hsign
    rw [(sign_iff v).mpr hneg]
    exact drop_negative_iff
  · exact hn

/-- The low bytes of a word are those of the signed number it stands for. -/
theorem intBytes_eq_toBytes (v : Int64) {n : Nat} (h8 : n ≤ 8) :
    intBytes v n = toBytes n (v.toInt % 256 ^ n).toNat := by
  have hword : v.toUInt64.toNat % 256 ^ n = (v.toInt % 256 ^ n).toNat := by
    have hmod : v.toInt % 256 ^ n = (v.toUInt64.toNat : Int) % 256 ^ n := by
      rw [toInt_eq]
      split_ifs
      · have hdvd : (2 : Int) ^ 64 = 256 ^ n * 256 ^ (8 - n) := by
          rw [← pow_add, Nat.add_sub_cancel' h8]
          rfl
        rw [hdvd, Int.sub_mul_emod_self_left]
      · rfl
    rw [hmod]
    norm_cast
  rw [intBytes_eq v h8, bigEndian_eq_toBytes _ h8, ← toBytes_mod, hword]

/-- What `encodeInt` writes after the length is the content X.690 asks for. -/
theorem integerContents_intBytes (v : Int64) :
    IntegerContents v.toInt (intBytes v (intDataLength v)) := by
  obtain ⟨h1, h8, hsign⟩ := intDataLength_spec v
  rw [intBytes_eq_toBytes v h8]
  exact integerContents_toBytes h1 ((signExtends_iff v h1).mp hsign)
    fun m hm hfits => intDataLength_least v hm hfits

/-! ## Elements -/

/-- The encoding of an integer: its type, its length in the short form, its content. -/
def integerEncoding (asn1Type : UInt8) (contents : List UInt8) : List UInt8 :=
  asn1Type :: UInt8.ofNat contents.length :: contents

theorem encodeInt_eq (asn1Type : UInt8) (v : Int64) :
    encodeInt asn1Type v = integerEncoding asn1Type (intBytes v (intDataLength v)) := by
  have h8 := (intDataLength_spec v).2.1
  rw [integerEncoding, length_intBytes, encodeInt, encodeLength, if_pos (by omega)]
  rfl

/-- The two values of SNMP that a 64-bit integer makes. -/
inductive SnmpInteger where
  | int (val : Int64)
  | counter64 (val : UInt64)

namespace SnmpInteger

def value : SnmpInteger → Value
  | .int val => .intValue val
  | .counter64 val => .counter64Value val

/-- The number meant. -/
def number : SnmpInteger → Int
  | .int val => val.toInt
  | .counter64 val => val.toNat

/-- The word handed to `encodeInt`. -/
def word : SnmpInteger → Int64
  | .int val => val
  | .counter64 val => .ofUInt64 val

/-- Writing the value writes the content octets of its number, and wherever they are read
the value comes back. -/
structure FollowsX690 (x : SnmpInteger) : Prop where
  written : ∃ contents, IntegerContents x.number contents ∧
    x.value.encoder.encodeTo = .ok (integerEncoding x.value.asn1Type contents)
  read : ∀ contents, IntegerContents x.number contents →
    ∀ {data : List UInt8} (i : DecodeIterator data),
      i.Reads (integerEncoding x.value.asn1Type contents) →
      decodeValue i = .ok (x.value, i.past (contents.length + 2))

theorem value_bytes (x : SnmpInteger) :
    x.value.bytes = integerEncoding x.value.asn1Type (intBytes x.word (intDataLength x.word)) := by
  cases x with
  | int val => exact encodeInt_eq 0x02 val
  | counter64 val => exact encodeInt_eq 0x46 (.ofUInt64 val)

theorem value_encodable (x : SnmpInteger) : x.value.encodable := by
  cases x with
  | int val => exact trivial
  | counter64 val => exact trivial

/-- The word stands for the number exactly when the number is a signed 64-bit integer. -/
theorem word_toInt_iff (x : SnmpInteger) : x.word.toInt = x.number ↔ x.number < 2 ^ 63 := by
  cases x with
  | int val => exact ⟨fun _ => Int64.toInt_lt val, fun _ => rfl⟩
  | counter64 val =>
    have hword : (Int64.ofUInt64 val).toUInt64 = val := rfl
    have hlt := val.toNat_lt
    have hsign : bit val 63 = true ↔ 2 ^ 63 ≤ val.toNat := by
      rw [← not_iff_not, Nat.not_le, lt_two_pow_iff]
      constructor
      · intro h k hk
        by_cases h64 : k < 64
        · obtain rfl : k = 63 := by omega
          simpa using h
        · exact bit_of_ge (Nat.le_of_not_lt h64)
      · intro h
        simp [h 63 le_rfl]
    change (Int64.ofUInt64 val).toInt = (val.toNat : Int) ↔ (val.toNat : Int) < 2 ^ 63
    rw [toInt_eq, hword]
    split_ifs with h
    · have := hsign.mp h
      omega
    · have := mt hsign.mpr h
      omega

/-- What is written stands for the word. -/
theorem ofTwos_written {x : SnmpInteger} {contents : List UInt8}
    (h : x.value.encoder.encodeTo = .ok (integerEncoding x.value.asn1Type contents)) :
    ofTwos contents = x.word.toInt := by
  rw [Value.encodeTo_eq x.value_encodable.constructed, x.value_bytes] at h
  simp only [integerEncoding, Except.ok.injEq, List.cons.injEq] at h
  rw [← h.2.2]
  exact (integerContents_intBytes x.word).value

/-- Integers of 64 bits are written and read as X.690 says, and so are the counters
below `2 ^ 63`; no other counter is. -/
theorem followsX690_iff (x : SnmpInteger) : x.FollowsX690 ↔ x.number < 2 ^ 63 := by
  rw [← word_toInt_iff]
  constructor
  · intro h
    obtain ⟨contents, hcontents, hwrite⟩ := h.written
    rw [← hcontents.value, ofTwos_written hwrite]
  · intro hword
    have hcontents := integerContents_intBytes x.word
    rw [hword] at hcontents
    constructor
    · refine ⟨_, hcontents, ?_⟩
      rw [← x.value_bytes]
      exact Value.encodeTo_eq x.value_encodable.constructed
    · intro contents h data i hreads
      obtain rfl := hcontents.unique h
      rw [← x.value_bytes] at hreads
      have hlen : x.value.bytes.length
          = (intBytes x.word (intDataLength x.word)).length + 2 := by
        rw [x.value_bytes]
        rfl
      have h8 := (intDataLength_spec x.word).2.1
      rw [← hlen]
      apply decodeValue_bytes x.value_encodable _ hreads
      rw [hlen, length_intBytes]
      omega

end SnmpInteger

/-! ## Counters of nine octets -/

/-- The counters from `2 ^ 63` on need nine. -/
theorem integerContents_nine (val : UInt64) (h : 2 ^ 63 ≤ val.toNat) :
    IntegerContents val.toNat (toBytes 9 ((val.toNat : Int) % 256 ^ 9).toNat) := by
  have hlt := val.toNat_lt
  apply integerContents_toBytes (by omega)
  · constructor <;> omega
  · intro m _ hfits
    by_contra hm
    have := (hfits.mono (show m ≤ 8 by omega)).2
    omega

/-- `2 ^ 63` as a counter is written as `-2 ^ 63`, and what X.690 has for it is refused. -/
theorem counter64_two_pow_63 :
    ¬ (SnmpInteger.counter64 0x8000000000000000).FollowsX690 ∧
      (Value.counter64Value 0x8000000000000000).encoder.encodeTo
        = .ok [0x46, 8, 0x80, 0, 0, 0, 0, 0, 0, 0] ∧
      ofTwos [0x80, 0, 0, 0, 0, 0, 0, 0] = -2 ^ 63 ∧
      IntegerContents (2 ^ 63) [0, 0x80, 0, 0, 0, 0, 0, 0, 0] ∧
      decodeValue (start [0x46, 9, 0, 0x80, 0, 0, 0, 0, 0, 0, 0])
        = throwException "can only handle 8-byte integers, not 9" := by
  have hvalue : ((0x8000000000000000 : UInt64).toNat : Int) = 2 ^ 63 := by decide
  have hcontents := integerContents_nine 0x8000000000000000 (by decide)
  rw [hvalue] at hcontents
  refine ⟨?_, by decide, by decide, hcontents, by decide⟩
  intro h
  obtain ⟨contents, hc, hwrite⟩ := h.written
  have hword := SnmpInteger.ofTwos_written hwrite
  rw [hc.value] at hword
  exact absurd hword (by decide)

end Urnest.Snmp
