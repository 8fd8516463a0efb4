import Urnest.Snmp.Decode
import Urnest.Snmp.Encode

/-!
# Reading back an element

For each element of a message: the announced length is the length of what is written,
and the decoder reads what was written and stops right after it. The decoders are
followed with `Reads`, so each lemma says nothing about the bytes after its element.

The lengths that move an iterator are converted to `int` on the way, which keeps
lengths up to `INT_MAX` (`asInt_ofNat`).
-/

namespace Urnest.Snmp

open DecodeIterator Lib

variable {data : List UInt8} {i : DecodeIterator data}

/-! ## Counting bits -/

theorem mask_and_eq_iff {x : UInt64} {g : Nat} (hg : g < 64) :
    mask g &&& x = x ↔ x.toNat < 2 ^ g := by
  have hone : (UInt64.ofNat g).toNat = g := toNat_ofNat_lt hg
  have hpow : 2 ^ g < 2 ^ 64 := Nat.pow_lt_pow_right (by omega) hg
  have hmask : (mask g).toNat = 2 ^ g - 1 := by
    have hshift : (1 <<< UInt64.ofNat g : UInt64).toNat = 2 ^ g := by
      rw [UInt64.toNat_shiftLeft, hone, Nat.mod_eq_of_lt hg, UInt64.toNat_one, Nat.one_shiftLeft,
        Nat.mod_eq_of_lt hpow]
    have hle : (1 : UInt64) ≤ 1 <<< UInt64.ofNat g := by
      rw [UInt64.le_iff_toNat_le, hshift]
      exact Nat.one_le_two_pow
    rw [mask, UInt64.toNat_sub_of_le _ _ hle, hshift, UInt64.toNat_one]
  rw [← UInt64.toNat_inj, UInt64.toNat_and, hmask, Nat.and_comm, Nat.and_two_pow_sub_one_eq_mod]
  constructor
  · intro h
    rw [← h]
    exact Nat.mod_lt _ (Nat.two_pow_pos g)
  · exact fun h => Nat.mod_eq_of_lt h

/-- The search keeps `2 ^ l ≤ x < 2 ^ h` and stops with `h` one above `l`. -/
theorem narrow_spec {x : UInt64} : ∀ {n h l g : Nat}, h - l ≤ n + 1 → l < h → h ≤ 64 →
    g = (h + l) / 2 → 2 ^ l ≤ x.toNat → x.toNat < 2 ^ h →
    ∃ l', narrow x n h l g = (l' + 1, l') ∧ l' < 64 ∧
      2 ^ l' ≤ x.toNat ∧ x.toNat < 2 ^ (l' + 1) := by
  intro n
  induction n with
  | zero =>
    intro h l g hn hlt h64 _ hl hh
    have : h = l + 1 := by omega
    subst this
    exact ⟨l, rfl, by omega, hl, hh⟩
  | succ n ih =>
    intro h l g hn hlt h64 hg hl hh
    rw [narrow]
    split_ifs with hgap hmask
    · have hg64 : g < 64 := by omega
      exact ih (by omega) (by omega) (by omega) rfl hl ((mask_and_eq_iff hg64).mp hmask)
    · have hg64 : g < 64 := by omega
      exact ih (by omega) (by omega) h64 rfl
        (Nat.le_of_not_lt fun hlt' => hmask ((mask_and_eq_iff hg64).mpr hlt')) hh
    · have : h = l + 1 := by omega
      subst this
      exact ⟨l, rfl, by omega, hl, hh⟩

/-- `countSignificantBits` is the least number of bits the number fits in. -/
theorem countSignificantBits_le_iff {x : UInt64} {k : Nat} :
    countSignificantBits x ≤ k ↔ x.toNat < 2 ^ k := by
  rw [countSignificantBits]
  split_ifs with h0
  · subst h0
    exact ⟨fun _ => Nat.two_pow_pos k, fun _ => Nat.zero_le k⟩
  · have hpos : 2 ^ 0 ≤ x.toNat := by
      have : x.toNat ≠ 0 := fun h => h0 (UInt64.toNat_inj.mp h)
      omega
    obtain ⟨l, hl, h64, hge, hlt⟩ := narrow_spec (x := x) (n := 64) (h := 64) (l := 0) (g := 32)
      (by omega) (by omega) (by omega) rfl hpos x.toNat_lt
    have hnot : ¬ mask l &&& x = x := by
      rw [mask_and_eq_iff h64]
      omega
    simp only [hl, if_neg hnot]
    constructor
    · exact fun h => lt_of_lt_of_le hlt (Nat.pow_le_pow_right (by omega) h)
    · intro h
      have := (Nat.pow_lt_pow_iff_right (by omega : 1 < 2)).mp (lt_of_le_of_lt hge h)
      omega

theorem countSignificantBits_le_64 (x : UInt64) : countSignificantBits x ≤ 64 :=
  countSignificantBits_le_iff.mpr x.toNat_lt

/-! ## Lengths -/

theorem longFormBytes_eq {n : Nat} (hn : n ≤ 8) (x : UInt64) :
    longFormBytes n x = bigEndian x n := by
  induction n generalizing x with
  | zero => rfl
  | succ n ih =>
    have hbyte : (x &&& 0xff).toUInt8 = x.toUInt8 := by
      apply UInt8.toNat_inj.mp
      simp only [UInt64.toNat_toUInt8, UInt64.toNat_and]
      have h := Nat.and_two_pow_sub_one_eq_mod x.toNat 8
      change (x.toNat &&& (2 ^ 8 - 1)) % 2 ^ 8 = x.toNat % 2 ^ 8
      rw [h, Nat.mod_mod]
    rw [longFormBytes, ih (by omega), hbyte, bigEndian_succ x (by omega)]

/-- The number of length bytes of the long form. -/
theorem lengthBytes_bounds {n : Nat} (h128 : 128 ≤ n) (hn : n < 2 ^ 64) :
    1 ≤ (countSignificantBits (UInt64.ofNat n) + 7) / 8 ∧
      (countSignificantBits (UInt64.ofNat n) + 7) / 8 ≤ 8 := by
  have h64 := countSignificantBits_le_64 (UInt64.ofNat n)
  have hpos : ¬ countSignificantBits (UInt64.ofNat n) ≤ 0 := by
    rw [countSignificantBits_le_iff, UInt64.toNat_ofNat_of_lt' hn]
    omega
  omega

theorem length_longFormBytes (n : Nat) (x : UInt64) : (longFormBytes n x).length = n := by
  induction n generalizing x with
  | zero => rfl
  | succ n ih => simp [longFormBytes, ih]

theorem length_encodeLength (n : Nat) : (encodeLength n).length = encodedLengthOfLength n := by
  rw [encodeLength, encodedLengthOfLength]
  split_ifs with h
  · rfl
  · rw [List.length_cons, length_longFormBytes, Nat.add_comm]

/-- One more byte of a length or an integer: the shift moves down a byte. -/
theorem shift_sub_eight (n : Nat) :
    UInt32.ofNat (8 * (n + 1)) - 8 = UInt32.ofNat (8 * n) := by
  have h : 8 * (n + 1) = 8 * n + 8 := by omega
  rw [h, UInt32.ofNat_add]
  simp

theorem shift_toUInt64 {n : Nat} (hn : n < 8) :
    (UInt32.ofNat (8 * n)).toUInt64 = UInt64.ofNat (8 * n) := by
  apply UInt64.toNat_inj.mp
  rw [UInt32.toNat_toUInt64, UInt32.toNat_ofNat_of_lt' (by change _ < 2 ^ 32; omega),
    UInt64.toNat_ofNat_of_lt' (by change _ < 2 ^ 64; omega)]

/-- A loop that puts byte after byte in its place, from the most significant down. -/
theorem foldl_setBytes {step : UInt64 × UInt32 → UInt8 → UInt64 × UInt32}
    (fits : UInt64 → Nat → Prop)
    (hfits : ∀ r n b, n < 8 → fits r (n + 1) → fits (setByte r (UInt64.ofNat (8 * n)) b) n)
    (hstep : ∀ r n b, n < 8 → fits r (n + 1) →
      step (r, UInt32.ofNat (8 * n)) b
        = (setByte r (UInt64.ofNat (8 * n)) b, UInt32.ofNat (8 * n) - 8))
    {bs : List UInt8} (hbs : bs.length ≤ 8) (r : UInt64) (hr : fits r bs.length) :
    (bs.foldl step (r, UInt32.ofNat (8 * (bs.length - 1)))).1 = setBytes r bs := by
  induction bs generalizing r with
  | nil => rfl
  | cons b bs ih =>
    rw [List.length_cons] at hbs hr
    rw [List.length_cons, List.foldl_cons, Nat.add_sub_cancel, hstep r _ b (by omega) hr, setBytes]
    have hr' := hfits r _ b (by omega) hr
    cases hlen : bs.length with
    | zero =>
      rw [List.length_eq_zero_iff.mp hlen]
      rfl
    | succ n =>
      rw [shift_sub_eight, ← hlen]
      have := ih (by omega) _ hr'
      rwa [hlen, Nat.add_sub_cancel, ← hlen] at this

theorem foldl_orByte {bs : List UInt8} (hbs : bs.length ≤ 8) :
    (bs.foldl orByte (0, UInt32.ofNat (8 * (bs.length - 1)))).1 = setBytes 0 bs := by
  refine foldl_setBytes (fun r n => ∀ k < 8 * n, bit r k = false) ?_ ?_ hbs 0
    (fun k _ => bit_zero k)
  · intro r n b hn hr k hk
    have hs : (UInt64.ofNat (8 * n)).toNat = 8 * n := toNat_ofNat_lt (by omega)
    rw [bit_setByte (by omega) (by omega), if_neg (by omega)]
    exact hr k (by omega)
  · intro r n b hn hr
    have hs : (UInt64.ofNat (8 * n)).toNat = 8 * n := toNat_ofNat_lt (by omega)
    rw [orByte, shift_toUInt64 hn, or_eq_setByte (by omega)]
    exact fun k h₁ h₂ => hr k (by omega)

theorem foldl_replaceByte {bs : List UInt8} (hbs : bs.length ≤ 8) (r : UInt64) :
    (bs.foldl replaceByte (r, UInt32.ofNat (8 * (bs.length - 1)))).1 = setBytes r bs := by
  refine foldl_setBytes (fun _ _ => True) (fun _ _ _ _ _ => trivial) ?_ hbs r trivial
  intro r n b hn _
  rw [replaceByte, shift_toUInt64 hn]
  rfl

/-- A length is read back, in either form. -/
theorem decodeLength_encodeLength {n : Nat} (hn : n < 2 ^ 64) (h : i.Reads (encodeLength n)) :
    decodeLength i = .ok (some (UInt64.ofNat n), i.past (encodeLength n).length) := by
  rw [encodeLength] at h ⊢
  split_ifs at h ⊢ with h128
  · have hb : (UInt8.ofNat n).toNat = n := UInt8.toNat_ofNat_of_lt' (by change n < 256; omega)
    have hlt : UInt8.ofNat n < 0x80 := by
      rw [UInt8.lt_iff_toNat_lt, hb]
      exact h128
    have hword : (UInt8.ofNat n).toUInt64 = UInt64.ofNat n := by
      apply UInt64.toNat_inj.mp
      rw [UInt8.toNat_toUInt64, hb, UInt64.toNat_ofNat_of_lt' hn]
    rw [decodeLength, h.head, Run.ok_bind, if_pos hlt, h.plus_one, Run.ok_bind, hword]
    rfl
  · have hbounds := lengthBytes_bounds (Nat.le_of_not_lt h128) hn
    dsimp only at h ⊢
    generalize hk : (countSignificantBits (UInt64.ofNat n) + 7) / 8 = k at hbounds h ⊢
    have hfirst : ∀ k ≤ 8, 1 ≤ k → ¬ (0x80 ||| UInt8.ofNat k : UInt8) < 0x80 ∧
        (0x80 ||| UInt8.ofNat k : UInt8) ≠ 0x80 ∧
        ((0x80 ||| UInt8.ofNat k : UInt8) &&& ~~~0x80).toNat = k := by decide
    obtain ⟨hge, hne, hcount⟩ := hfirst k hbounds.2 hbounds.1
    have hbytes := longFormBytes_eq hbounds.2 (UInt64.ofNat n)
    obtain ⟨hfst, htail⟩ := Reads.cons.mp h
    have hrem := htail.length_le
    rw [hbytes, length_bigEndian] at hrem
    have htake : (i.past 1).rest.take k = bigEndian (UInt64.ofNat n) k := by
      have := List.prefix_iff_eq_take.mp htail
      rw [hbytes, length_bigEndian] at this
      exact this.symm
    have hlen := length_bigEndian (UInt64.ofNat n) k
    have hfold := foldl_orByte (hlen.trans_le hbounds.2)
    have hvalue : setBytes 0 (bigEndian (UInt64.ofNat n) k) = UInt64.ofNat n := by
      refine setBytes_bigEndian hbounds.2 fun j _ hj => ?_
      rw [bit_zero]
      refine (lt_two_pow_iff.mp (countSignificantBits_le_iff.mp ?_) j hj).symm
      omega
    rw [decodeLength, h.head, Run.ok_bind, if_neg hge, if_neg hne, hcount,
      if_neg (Nat.not_lt.mpr hbounds.2), h.plus_one, Run.ok_bind, plus_of_le hrem, Run.ok_bind,
      forTo_past hrem, Run.ok_bind, htake]
    rw [hlen] at hfold
    rw [hfold, hvalue, hbytes, List.length_cons, hlen, past_past, Nat.add_comm 1 k]
    rfl

theorem checkType_of_reads {b : UInt8} {bs : List UInt8} (h : i.Reads (b :: bs)) :
    checkType i b = .ok () := by
  simp [checkType, h.head]

/-- The header of an element of definite length is read back. -/
theorem definiteLength_of_reads {b : UInt8} {n : Nat} {bs : List UInt8} (hn : n < 2 ^ 64)
    (h : i.Reads (b :: encodeLength n ++ bs)) (indefinite : String) :
    definiteLength i indefinite
      = .ok (UInt64.ofNat n, i.past (1 + (encodeLength n).length)) := by
  have htail := (Reads.cons.mp (Reads.append.mp h).1).2
  have hone : i.plus 1 = .ok (i.past 1) := (Reads.append.mp h).1.plus_one
  rw [definiteLength, hone, Run.ok_bind, decodeLength_encodeLength hn htail, Run.ok_bind,
    past_past]
  rfl

/-- What follows the header of an element. -/
theorem reads_content {b : UInt8} {n : Nat} {bs : List UInt8}
    (h : i.Reads (b :: encodeLength n ++ bs)) :
    (i.past (1 + (encodeLength n).length)).Reads bs := by
  have := (Reads.append.mp h).2
  rwa [List.length_cons, Nat.add_comm] at this

/-! ## Integers -/

theorem bit_signed_shiftRight (v : Int64) {n k : Nat} (hn : n < 64) (hk : n + k < 64) :
    bit (v >>> Int64.ofNat n).toUInt64 k = bit v.toUInt64 (n + k) := by
  have hs : ((Int64.ofNat n).toBitVec.smod 64).toNat = n := by
    have : ∀ m < 64, ((Int64.ofNat m).toBitVec.smod 64).toNat = m := by decide
    exact this n hn
  change (v >>> Int64.ofNat n).toBitVec.getLsbD k = v.toBitVec.getLsbD (n + k)
  rw [Int64.toBitVec_shiftRight, BitVec.sshiftRight_eq', hs, BitVec.getLsbD_sshiftRight,
    if_pos hk]
  simp
  omega

theorem intBytes_eq (v : Int64) {n : Nat} (hn : n ≤ 8) :
    intBytes v n = bigEndian v.toUInt64 n := by
  induction n with
  | zero => rfl
  | succ n ih =>
    have hs : (UInt64.ofNat (8 * n)).toNat = 8 * n := toNat_ofNat_lt (by omega)
    have hbyte : ((v >>> Int64.ofNat (n * 8)) &&& 0xff).toUInt64.toUInt8
        = (v.toUInt64 >>> UInt64.ofNat (8 * n)).toUInt8 := by
      apply UInt8.eq_of_toBitVec_eq
      refine BitVec.eq_of_getLsbD_eq fun k hk => ?_
      have hff : (0xff : Int64).toUInt64 = 0xff := by decide
      rw [getLsbD_toUInt8, getLsbD_toUInt8, Int64.toUInt64_and, hff, bit_and, bit_byteMask,
        bit_signed_shiftRight v (by omega) (by omega), bit_shiftRight _ _ _ (by omega), hs,
        Nat.mul_comm n 8]
      simp [hk]
    rw [intBytes, bigEndian, hbyte, ih (by omega)]

/-- The bits from the top bit of the `n`th byte up are all like the sign. -/
def SignExtends (w : UInt64) (sign : Bool) (n : Nat) : Prop :=
  ∀ k < 64, 8 * n ≤ k + 1 → bit w k = sign

/-- The mask under which a leading byte of `n` is dropped: its nine leading bits and
all above. -/
def MaskOf (mask : Int64) (n : Nat) : Prop :=
  ∀ k < 64, bit mask.toUInt64 k = decide (8 * n ≤ k + 9)

theorem MaskOf.shift {mask : Int64} {n : Nat} (h : MaskOf mask (n + 1)) (hn : n ≤ 7) :
    MaskOf ((mask >>> 8) ||| Int64.ofUInt64 0xff00000000000000) n := by
  intro k hk
  have htop : ∀ k < 64, bit 0xff00000000000000 k = decide (56 ≤ k) := by decide
  change bit ((mask >>> 8).toUInt64 ||| 0xff00000000000000) k = _
  rw [bit_or, htop k hk]
  by_cases h56 : 56 ≤ k
  · simp only [h56, decide_true, Bool.or_true]
    simp only [true_eq_decide_iff]
    omega
  · rw [show (8 : Int64) = Int64.ofNat 8 from rfl, bit_signed_shiftRight mask (by omega) (by omega),
      h _ (by omega)]
    simp only [h56, decide_false, Bool.or_false, decide_eq_decide]
    omega

/-- Dropping leading bytes leaves the bits above the last one kept like the sign. -/
theorem dropLeading_spec (sign : Bool) {holds : Int64 → Bool} {w : UInt64}
    (hholds : ∀ mask, holds mask = true ↔
      ∀ k < 64, bit mask.toUInt64 k = true → bit w k = sign) :
    ∀ {n : Nat} {mask : Int64}, 1 ≤ n → n ≤ 8 → MaskOf mask n → SignExtends w sign n →
      1 ≤ dropLeading holds n mask ∧ dropLeading holds n mask ≤ n ∧
        SignExtends w sign (dropLeading holds n mask) := by
  intro n
  induction n with
  | zero => intro mask h1; omega
  | succ n ih =>
    intro mask _ h8 hmask hsign
    rw [dropLeading]
    split_ifs with h
    · have hall := (hholds mask).mp h.2
      have hsign' : SignExtends w sign n := by
        intro k hk hle
        refine hall k hk ?_
        rw [hmask k hk, decide_eq_true_iff]
        omega
      obtain ⟨h₁, h₂, h₃⟩ := ih (by omega) (by omega) (hmask.shift (by omega)) hsign'
      exact ⟨h₁, by omega, h₃⟩
    · exact ⟨by omega, by omega, hsign⟩

theorem signExtends_eight (w : UInt64) : SignExtends w (bit w 63) 8 := by
  intro k hk hle
  have : k = 63 := by omega
  rw [this]

theorem maskOf_eight : MaskOf (Int64.ofUInt64 0xff80000000000000) 8 := by
  have h : ∀ k < 64, bit 0xff80000000000000 k = decide (8 * 8 ≤ k + 9) := by decide
  exact h

theorem sign_iff (v : Int64) : bit v.toUInt64 63 = true ↔ v < 0 := by
  rw [Int64.lt_iff_toInt_lt]
  have h := BitVec.msb_eq_toInt (x := v.toBitVec)
  rw [BitVec.msb_eq_getLsbD_last] at h
  change v.toBitVec.getLsbD (64 - 1) = true ↔ v.toBitVec.toInt < 0
  rw [h, decide_eq_true_iff]

/-- A byte of a positive value is dropped when the bits under the mask are clear. -/
theorem drop_positive_iff {v : Int64} (mask : Int64) :
    ((v &&& ~~~mask) == v) = true ↔
      ∀ k < 64, bit mask.toUInt64 k = true → bit v.toUInt64 k = false := by
  rw [beq_iff_eq]
  constructor
  · intro h k hk hm
    have hbits := congrArg (fun x : Int64 => bit x.toUInt64 k) h
    change bit (v.toUInt64 &&& ~~~mask.toUInt64) k = bit v.toUInt64 k at hbits
    rw [bit_and, bit_not _ hk, hm] at hbits
    simpa using hbits.symm
  · intro h
    have hword : v.toUInt64 &&& ~~~mask.toUInt64 = v.toUInt64 := by
      refine bit_ext fun k hk => ?_
      rw [bit_and, bit_not _ hk]
      cases hm : bit mask.toUInt64 k with
      | false => simp
      | true => simp [h k hk hm]
    exact congrArg Int64.ofUInt64 hword

/-- A byte of a negative value is dropped when the bits under the mask are set. -/
theorem drop_negative_iff {v : Int64} (mask : Int64) :
    ((v &&& mask) == mask) = true ↔
      ∀ k < 64, bit mask.toUInt64 k = true → bit v.toUInt64 k = true := by
  rw [beq_iff_eq]
  constructor
  · intro h k hk hm
    have hbits := congrArg (fun x : Int64 => bit x.toUInt64 k) h
    change bit (v.toUInt64 &&& mask.toUInt64) k = bit mask.toUInt64 k at hbits
    rw [bit_and, hm] at hbits
    simpa using hbits
  · intro h
    have hword : v.toUInt64 &&& mask.toUInt64 = mask.toUInt64 := by
      refine bit_ext fun k hk => ?_
      rw [bit_and]
      cases hm : bit mask.toUInt64 k with
      | false => simp
      | true => simp [h k hk hm]
    exact congrArg Int64.ofUInt64 hword

theorem sign_of_pos {v : Int64} (h : v > 0) : bit v.toUInt64 63 = false := by
  rw [Bool.eq_false_iff]
  intro hbit
  have hneg := (sign_iff v).mp hbit
  rw [Int64.lt_iff_toInt_lt] at hneg
  rw [gt_iff_lt, Int64.lt_iff_toInt_lt] at h
  omega

theorem eq_zero_of_not_pos_neg {v : Int64} (hpos : ¬ v > 0) (hneg : ¬ v < 0) : v = 0 := by
  apply Int64.toInt_inj.mp
  rw [gt_iff_lt, Int64.lt_iff_toInt_lt] at hpos
  rw [Int64.lt_iff_toInt_lt] at hneg
  simp only [Int64.toInt_zero] at hpos hneg ⊢
  omega

/-- `intDataLength` keeps enough bytes: the bits above are those of the sign. -/
theorem intDataLength_spec (v : Int64) :
    1 ≤ intDataLength v ∧ intDataLength v ≤ 8 ∧
      SignExtends v.toUInt64 (bit v.toUInt64 63) (intDataLength v) := by
  rw [intDataLength]
  split_ifs with hpos hneg
  · refine dropLeading_spec (bit v.toUInt64 63) ?_ (by omega) (by omega) maskOf_eight
      (signExtends_eight _)
    rw [sign_of_pos hpos]
    exact drop_positive_iff
  -- A negative value drops bytes that are all ones, as a positive one does those that are all
  -- zeros.
  · refine dropLeading_spec (bit v.toUInt64 63) ?_ (by omega) (by omega) maskOf_eight
      (signExtends_eight _)
    rw [(sign_iff v).mpr hneg]
    exact drop_negative_iff
  · have hzero := eq_zero_of_not_pos_neg hpos hneg
    subst hzero
    refine ⟨by omega, by omega, fun k _ _ => ?_⟩
    change bit 0 k = bit 0 63
    rw [bit_zero, bit_zero]

theorem length_intBytes (v : Int64) : (intBytes v (intDataLength v)).length = intDataLength v := by
  rw [intBytes_eq v (intDataLength_spec v).2.1, length_bigEndian]

theorem length_encodeInt (asn1Type : UInt8) (v : Int64) :
    (encodeInt asn1Type v).length = encodedLengthOfInt v := by
  rw [encodeInt, encodedLengthOfInt]
  simp only [List.length_append, List.length_cons]
  rw [length_encodeLength, length_intBytes]
  omega

/-- An integer is read back, whatever its type byte. -/
theorem decodeIntValue_encodeInt {asn1Type : UInt8} {v : Int64}
    (h : i.Reads (encodeInt asn1Type v)) :
    decodeIntValue i asn1Type
      = .ok (v.toUInt64, i.past (encodeInt asn1Type v).length) := by
  obtain ⟨h1, h8, hsign⟩ := intDataLength_spec v
  have hlenBytes := length_intBytes v
  rw [encodeInt] at h ⊢
  generalize hd : intDataLength v = d at h h1 h8 hsign hlenBytes ⊢
  have hcontent := reads_content h
  have hbytes := intBytes_eq v h8
  have hcount : (UInt64.ofNat d).toUInt32 = UInt32.ofNat d := by
    have : ∀ d ≤ 8, (UInt64.ofNat d).toUInt32 = UInt32.ofNat d := by decide
    exact this d h8
  have hle : ¬ UInt32.ofNat d > 8 := by
    have : ∀ d ≤ 8, ¬ UInt32.ofNat d > 8 := by decide
    exact this d h8
  have hnat : (UInt32.ofNat d).toNat = d := by
    have : ∀ d ≤ 8, (UInt32.ofNat d).toNat = d := by decide
    exact this d h8
  have hshift : 8 * (UInt32.ofNat d - 1) = UInt32.ofNat (8 * (d - 1)) := by
    have : ∀ d ≤ 8, 1 ≤ d → 8 * (UInt32.ofNat d - 1) = UInt32.ofNat (8 * (d - 1)) := by decide
    exact this d h8 h1
  -- the first byte has the sign of the whole
  obtain ⟨m, rfl⟩ : ∃ m, d = m + 1 := ⟨d - 1, by omega⟩
  have hfirst := hcontent
  rw [hbytes, bigEndian] at hfirst
  have htop : ((v.toUInt64 >>> UInt64.ofNat (8 * m)).toUInt8 &&& 0x80 ≠ 0) ↔
      bit v.toUInt64 63 = true := by
    rw [← hsign (8 * m + 7) (by omega) (by omega), ← head_bigEndian_ge (by omega),
      and_half_ne_zero_iff]
  have hrem := hcontent.length_le
  rw [hlenBytes] at hrem
  have htake : (i.past (1 + (encodeLength (m + 1)).length)).rest.take (m + 1)
      = bigEndian v.toUInt64 (m + 1) := by
    have := List.prefix_iff_eq_take.mp hcontent
    rw [hlenBytes, hbytes] at this
    exact this.symm
  have hlen := length_bigEndian v.toUInt64 (m + 1)
  have hfold := foldl_replaceByte (hlen.trans_le h8)
    (if (v.toUInt64 >>> UInt64.ofNat (8 * m)).toUInt8 &&& 0x80 ≠ 0 then ~~~0 else 0)
  rw [hlen] at hfold
  have hvalue : setBytes (if (v.toUInt64 >>> UInt64.ofNat (8 * m)).toUInt8 &&& 0x80 ≠ 0
      then ~~~0 else 0) (bigEndian v.toUInt64 (m + 1)) = v.toUInt64 := by
    refine setBytes_bigEndian h8 fun k hk hle => ?_
    rw [hsign k hk (by omega)]
    split_ifs with hneg
    · rw [bit_not_zero hk, htop.mp hneg]
    · rw [bit_zero]
      exact (Bool.eq_false_iff.mpr fun h => hneg (htop.mpr h)).symm
  rw [decodeIntValue, checkType_of_reads h, Run.ok_bind,
    definiteLength_of_reads (by omega) h, Run.ok_bind]
  dsimp only
  rw [hcount, if_neg hle, hfirst.head, Run.ok_bind, hnat, plus_of_le hrem, Run.ok_bind, hshift,
    forTo_past hrem, Run.ok_bind, htake, hfold, hvalue, past_past]
  simp only [List.length_append, List.length_cons, hlenBytes]
  rw [Nat.add_comm 1]
  rfl

/-! ## Strings and addresses -/

/-- A length up to `INT_MAX` survives its conversion to `int`. -/
theorem asInt_ofNat {n : Nat} (hn : n ≤ 0x7fffffff) : asInt (UInt64.ofNat n) = n := by
  have h32 : (UInt64.ofNat n).toUInt32.toNat = n := by
    rw [UInt64.toNat_toUInt32, UInt64.toNat_ofNat_of_lt' (by change n < 2 ^ 64; omega)]
    omega
  change (UInt64.ofNat n).toUInt32.toBitVec.toInt = n
  rw [BitVec.toInt_eq_toNat_of_lt] <;> rw [UInt32.toNat_toBitVec, h32]
  omega

theorem foldl_snoc (bs s : List UInt8) : bs.foldl (fun s b => s ++ [b]) s = s ++ bs := by
  induction bs generalizing s with
  | nil => simp
  | cons b bs ih => simp [ih]

theorem octets_of_reads {bs : List UInt8} (hlen : bs.length ≤ 0x7fffffff) (h : i.Reads bs) :
    octets i (UInt64.ofNat bs.length) = .ok (bs, i.past bs.length) := by
  have htake : i.rest.take bs.length = bs := (List.prefix_iff_eq_take.mp h).symm
  rw [octets, asInt_ofNat hlen, plus_of_le h.length_le, Run.ok_bind, forTo_past h.length_le,
    Run.ok_bind, foldl_snoc, htake]
  rfl

theorem length_encodeOctetString (asn1Type : UInt8) (bs : List UInt8) :
    (encodeOctetString asn1Type bs).length = encodedLengthOfOctets bs.length := by
  rw [encodeOctetString, encodedLengthOfOctets]
  simp only [List.length_append, List.length_cons]
  rw [length_encodeLength]
  omega

/-- A string is read back, whatever its type byte. -/
theorem decodeStringValue_encodeOctetString {asn1Type : UInt8} {bs : List UInt8}
    (hlen : bs.length ≤ 0x7fffffff) (h : i.Reads (encodeOctetString asn1Type bs)) :
    decodeStringValue i asn1Type
      = .ok (bs, i.past (encodeOctetString asn1Type bs).length) := by
  rw [encodeOctetString] at h ⊢
  rw [decodeStringValue, checkType_of_reads h, Run.ok_bind,
    definiteLength_of_reads (by omega) h, Run.ok_bind, octets_of_reads hlen (reads_content h),
    past_past]
  simp only [List.length_append, List.length_cons]
  rw [Nat.add_comm 1]

/-- The four bytes of an address. -/
theorem address_bytes (val : UInt32) :
    ((((val >>> 24) &&& 0xff).toUInt8.toUInt32 <<< 24)
      + (((val >>> 16) &&& 0xff).toUInt8.toUInt32 <<< 16)
      + (((val >>> 8) &&& 0xff).toUInt8.toUInt32 <<< 8)
      + (((val >>> 0) &&& 0xff).toUInt8.toUInt32 <<< 0)) = val := by
  have hand : ∀ n : Nat, n &&& 255 = n % 256 := fun n => Nat.and_two_pow_sub_one_eq_mod n 8
  have hval := val.toNat_lt
  apply UInt32.toNat_inj.mp
  simp only [UInt32.toNat_add, UInt32.toNat_shiftLeft, UInt8.toNat_toUInt32,
    UInt32.toNat_toUInt8, UInt32.toNat_and, UInt32.toNat_shiftRight, UInt32.toNat_ofNat,
    Nat.shiftRight_eq_div_pow, Nat.shiftLeft_eq, Nat.reducePow, Nat.reduceMod, hand]
  omega

/-! ## Runs of items -/

theorem length_le_flatMap {ι : Type} (enc : ι → List UInt8) {xs : List ι}
    (hne : ∀ x ∈ xs, enc x ≠ []) : xs.length ≤ (xs.flatMap enc).length := by
  induction xs with
  | nil => simp
  | cons x xs ih =>
    have hx := List.length_pos_iff.mpr (hne x (List.mem_cons_self ..))
    have hxs := ih fun y hy => hne y (List.mem_cons_of_mem _ hy)
    rw [List.flatMap_cons, List.length_append, List.length_cons]
    omega

/-- A loop that takes one item a turn reads a run of items and leaves after the last. -/
theorem collect_of_reads {ι : Type} (enc : ι → List UInt8) {e : DecodeIterator data}
    {turn : DecodeIterator data → Result (Turn (DecodeIterator data) ι)}
    (hleave : turn e = .ok .leave) {xs : List ι} (hne : ∀ x ∈ xs, enc x ≠ [])
    (hitem : ∀ x ∈ xs, ∀ j, j.Reads (enc x) → j ≠ e →
      turn j = .ok (.item x (j.past (enc x).length)))
    {n : Nat} (hn : xs.length < n) {i : DecodeIterator data} (h : i.Reads (xs.flatMap enc))
    (he : e = i.past (xs.flatMap enc).length) :
    collect .endless turn n i = .ok (xs, e) := by
  induction xs generalizing n i with
  | nil =>
    obtain ⟨n, rfl⟩ : ∃ k, n = k + 1 := ⟨n - 1, by simp at hn; omega⟩
    have hi : e = i := by simpa using he
    rw [← hi, collect_succ_leave hleave]
  | cons x xs ih =>
    obtain ⟨n, rfl⟩ : ∃ k, n = k + 1 := ⟨n - 1, by simp at hn; omega⟩
    have hlen := h.length_le
    rw [List.flatMap_cons] at h he hlen
    obtain ⟨hx, hxs⟩ := Reads.append.mp h
    have hpos := List.length_pos_iff.mpr (hne x (List.mem_cons_self ..))
    rw [List.length_append] at hlen he
    have hie : i ≠ e := by
      rw [he, ← past_zero i, past_past, Ne, past_inj (by omega) (by omega)]
      omega
    rw [collect_succ_item (hitem x (List.mem_cons_self ..) i hx hie),
      ih (fun y hy => hne y (List.mem_cons_of_mem _ hy))
        (fun y hy => hitem y (List.mem_cons_of_mem _ hy)) (by simpa using hn) hxs
        (by rw [he, past_past])]
    rfl

/-! ## Identifiers -/

theorem oidComponentFrom_groups {n : Nat} {c : UInt32} (hc : c.toNat < 2 ^ (7 * n))
    (bs : List UInt8) (i : DecodeIterator data) :
    oidComponentFrom (oidGroups n c ++ bs) i 0 = oidComponentFrom bs (i.past n) (c <<< 7) := by
  induction n generalizing c i bs with
  | zero =>
    have hzero : c = 0 := UInt32.toNat_inj.mp (by simpa using hc)
    subst hzero
    rw [past_zero]
    rfl
  | succ n ih =>
    have hshift : (c >>> 7).toNat < 2 ^ (7 * n) := by
      have hpow : 2 ^ (7 * (n + 1)) = 2 ^ (7 * n) * 128 := by
        rw [show 7 * (n + 1) = 7 * n + 7 by omega, Nat.pow_add]
      rw [UInt32.toNat_shiftRight, Nat.shiftRight_eq_div_pow]
      change c.toNat / 128 < _
      omega
    have hbyte : oidGroups (n + 1) c = oidGroups n (c >>> 7) ++ [0x80 ||| low7 c] := rfl
    rw [hbyte, List.append_assoc, ih hshift, List.singleton_append, oidComponentFrom,
      if_pos (top_of_set _), clear_top_of_set (low7_lt c), low7_toUInt32, join7, past_past]

theorem clearLast_append (bs : List UInt8) (b : UInt8) :
    clearLast (bs ++ [b]) = bs ++ [b &&& ~~~0x80] := by
  induction bs with
  | nil => rfl
  | cons c bs ih =>
    cases bs with
    | nil => rfl
    | cons d bs =>
      simp only [List.cons_append] at ih ⊢
      rw [clearLast, ih]
      exact List.cons_ne_nil _ _

/-- The number of groups of seven bits a component is written in is enough. -/
theorem encodedLengthOfOidComponent_spec (c : UInt32) :
    ∃ n, encodedLengthOfOidComponent c = n + 1 ∧ c.toNat < 2 ^ (7 * (n + 1)) := by
  rw [encodedLengthOfOidComponent]
  split_ifs with h0
  · exact ⟨0, rfl, by subst h0; decide⟩
  · refine ⟨(countSignificantBits c.toUInt64 - 1) / 7, rfl, ?_⟩
    have h := countSignificantBits_le_iff (x := c.toUInt64)
      (k := 7 * ((countSignificantBits c.toUInt64 - 1) / 7 + 1))
    rw [UInt32.toNat_toUInt64] at h
    exact h.mp (by omega)

theorem length_oidGroups (n : Nat) (c : UInt32) : (oidGroups n c).length = n := by
  induction n generalizing c with
  | zero => rfl
  | succ n ih => simp [oidGroups, ih]

/-- A component is all continuation bytes but the last. -/
theorem encodeOidComponent_eq (c : UInt32) :
    ∃ n, encodedLengthOfOidComponent c = n + 1 ∧ (c >>> 7).toNat < 2 ^ (7 * n) ∧
      encodeOidComponent c = oidGroups n (c >>> 7) ++ [low7 c] := by
  obtain ⟨n, hn, hc⟩ := encodedLengthOfOidComponent_spec c
  refine ⟨n, hn, ?_, ?_⟩
  · have hpow : 2 ^ (7 * (n + 1)) = 2 ^ (7 * n) * 128 := by
      rw [show 7 * (n + 1) = 7 * n + 7 by omega, Nat.pow_add]
    rw [UInt32.toNat_shiftRight, Nat.shiftRight_eq_div_pow]
    change c.toNat / 128 < _
    omega
  · have hbyte : oidGroups (n + 1) c = oidGroups n (c >>> 7) ++ [0x80 ||| low7 c] := rfl
    rw [encodeOidComponent, hn, hbyte, clearLast_append, clear_top_of_set (low7_lt c)]

theorem length_encodeOidComponent (c : UInt32) :
    (encodeOidComponent c).length = encodedLengthOfOidComponent c := by
  obtain ⟨n, hn, -, heq⟩ := encodeOidComponent_eq c
  rw [heq, hn, List.length_append, length_oidGroups]
  rfl

theorem encodeOidComponent_ne_nil (c : UInt32) : encodeOidComponent c ≠ [] := by
  obtain ⟨n, -, -, heq⟩ := encodeOidComponent_eq c
  rw [heq]
  simp

theorem decodeOidComponent_encode {c : UInt32} (h : i.Reads (encodeOidComponent c)) :
    decodeOidComponent i = .ok (c, i.past (encodeOidComponent c).length) := by
  obtain ⟨n, hn, hc, heq⟩ := encodeOidComponent_eq c
  rw [length_encodeOidComponent, hn]
  rw [heq] at h
  obtain ⟨t, ht⟩ := h
  have hlast : ¬ (low7 c &&& 0x80 ≠ 0) := by
    rw [and_half_ne_zero_iff]
    exact UInt8.not_le.mpr (low7_lt c)
  rw [decodeOidComponent, ← ht, List.append_assoc, oidComponentFrom_groups hc,
    List.singleton_append, oidComponentFrom, if_neg hlast, low7_toUInt32, join7, past_past]

theorem length_flatMap_components (cs : List UInt32) :
    (cs.flatMap encodeOidComponent).length = (cs.map encodedLengthOfOidComponent).sum := by
  induction cs with
  | nil => rfl
  | cons c cs ih =>
    rw [List.flatMap_cons, List.length_append, ih, length_encodeOidComponent]
    rfl

theorem length_encodeOid (oid : Oid) : (encodeOid oid).length = encodedLengthOfOid oid := by
  rw [encodeOid, encodedLengthOfOid]
  simp only [List.length_append, List.length_cons]
  rw [length_encodeLength, length_flatMap_components, oidDataLength]
  omega

/-- An identifier that starts `.1.3` is read back. -/
theorem decodeOidValue_encodeOid {oid : Oid} (henc : oid.encodable = true)
    (hlen : oidDataLength oid ≤ 0x7fffffff) (h : i.Reads (encodeOid oid)) :
    decodeOidValue i = .ok (oid, i.past (encodeOid oid).length) := by
  obtain ⟨cs, hcs⟩ := List.isPrefixOf_iff_prefix.mp henc
  have hdrop : oid.components.drop 2 = cs := by
    rw [← hcs]
    rfl
  have hdata : oidDataLength oid = 1 + (cs.flatMap encodeOidComponent).length := by
    rw [oidDataLength, hdrop, length_flatMap_components]
  have hall : (encodeOid oid).length
      = 1 + (encodeLength (oidDataLength oid)).length + oidDataLength oid := by
    rw [encodeOid, hdrop, hdata]
    simp only [List.length_append, List.length_cons]
    omega
  rw [encodeOid, hdrop] at h
  have hhead := (Reads.append.mp h).1
  have hlength : (i.plus 1 >>= decodeLength)
      = .ok (some (UInt64.ofNat (oidDataLength oid)),
          i.past (1 + (encodeLength (oidDataLength oid)).length)) := by
    rw [hhead.plus_one, Run.ok_bind,
      decodeLength_encodeLength (by omega) (Reads.cons.mp hhead).2, past_past]
  have hcontent := reads_content h
  -- From here on all is relative to the first byte of the content.
  generalize hj : i.past (1 + (encodeLength (oidDataLength oid)).length) = j
    at hcontent hlength
  have hrem := hcontent.length_le
  rw [List.length_cons, Nat.add_comm, ← hdata] at hrem
  obtain ⟨hfirst, hcomponents⟩ := Reads.cons.mp hcontent
  have hatEnd : ∀ k, oidAtEnd (some (UInt64.ofNat (oidDataLength oid))) j k
      = .ok (k == j.past (oidDataLength oid)) := by
    intro k
    rw [oidAtEnd, asInt_ofNat hlen, plus_of_le hrem]
    rfl
  have hnext : j.next = .ok (j.past 1) := by
    obtain ⟨t, ht⟩ := hcontent
    exact next_of_cons ht.symm
  have hcollect : collect .endless (oidTurn (some (UInt64.ofNat (oidDataLength oid))) j)
      (data.length + 1) (j.past 1) = .ok (cs, j.past (oidDataLength oid)) := by
    refine collect_of_reads encodeOidComponent (by simp [oidTurn, hatEnd])
      (fun c _ => encodeOidComponent_ne_nil c) ?_ ?_ hcomponents (by rw [past_past, hdata])
    · intro c _ k hk hne
      simp [oidTurn, hatEnd, hne, decodeOidComponent_encode hk]
    · have hcount := length_le_flatMap encodeOidComponent
        fun c (_ : c ∈ cs) => encodeOidComponent_ne_nil c
      have hin := (j.past 1).inData
      have hle := hcomponents.length_le
      simp only [remaining] at hle
      omega
  have hoid : (⟨1 :: 3 :: cs⟩ : Oid) = oid := by
    cases oid
    exact congrArg Oid.mk hcs
  rw [decodeOidValue, checkType_of_reads h, Run.ok_bind, hlength, Run.ok_bind, hcontent.head,
    Run.ok_bind, if_neg (fun hne => hne rfl), hnext, Run.ok_bind, hcollect, Run.ok_bind, hall,
    ← past_past, hj]
  simp only [hoid]
  rfl

/-! ## Values -/

/-- What can be encoded and come back: identifiers start `.1.3`, and a time is a
multiple of ten milliseconds. -/
def Value.encodable : Value → Prop
  | .oidValue val => val.encodable = true
  | .timeTicksValue val => val % 10 = 0
  | _ => True

/-- The bytes of a value. -/
def Value.bytes : Value → List UInt8
  | .intValue val => encodeInt 0x02 val
  | .stringValue val => encodeOctetString 0x04 val
  | .oidValue val => encodeOid val
  | .nullValue => 0x05 :: encodeLength 0
  | .ipv4AddressValue val =>
    encodeOctetString 0x40
      [((val >>> 24) &&& 0xff).toUInt8, ((val >>> 16) &&& 0xff).toUInt8,
        ((val >>> 8) &&& 0xff).toUInt8, ((val >>> 0) &&& 0xff).toUInt8]
  | .counter32Value val => encodeInt 0x41 (Int64.ofUInt64 val.toUInt64)
  | .gauge32Value val => encodeInt 0x42 (Int64.ofUInt64 val.toUInt64)
  | .timeTicksValue val => encodeInt 0x43 (val / 10)
  | .opaqueValue val => encodeOctetString 0x44 val
  | .counter64Value val => encodeInt 0x46 (Int64.ofUInt64 val)

/-- What the constructors let exist: the one of an identifier asserts that it starts `.1.3`. -/
def Value.Constructed : Value → Prop
  | .oidValue val => val.encodable = true
  | _ => True

theorem Value.encodable.constructed {v : Value} (hv : v.encodable) : v.Constructed := by
  cases v with
  | oidValue val => exact hv
  | _ => exact trivial

theorem Value.encodeTo_eq {v : Value} (hv : v.Constructed) :
    v.encoder.encodeTo = .ok v.bytes := by
  cases v with
  | oidValue val =>
    change (assert val.encodable >>= fun _ => pure (encodeOid val)) = _
    rw [show val.encodable = true from hv]
    rfl
  | _ => rfl

theorem Value.length_bytes (v : Value) : v.bytes.length = v.encoder.encodedLength := by
  cases v with
  | intValue val => exact length_encodeInt _ _
  | stringValue val => exact length_encodeOctetString _ _
  | oidValue val => exact length_encodeOid _
  | nullValue => rfl
  | ipv4AddressValue val => exact length_encodeOctetString _ _
  | counter32Value val => exact length_encodeInt _ _
  | gauge32Value val => exact length_encodeInt _ _
  | timeTicksValue val => exact length_encodeInt _ _
  | opaqueValue val => exact length_encodeOctetString _ _
  | counter64Value val => exact length_encodeInt _ _

theorem length_le_encodeOctetString (asn1Type : UInt8) (bs : List UInt8) :
    bs.length ≤ (encodeOctetString asn1Type bs).length := by
  rw [encodeOctetString, List.length_append]
  omega

theorem oidDataLength_le (oid : Oid) : oidDataLength oid ≤ (encodeOid oid).length := by
  rw [length_encodeOid, encodedLengthOfOid]
  omega

/-- Ten times the hundredths of a second. -/
theorem timeTicks_back {val : Int64} (h : val % 10 = 0) : val / 10 * 10 = val := by
  have hmod : val.toInt.tmod 10 = 0 := by
    have := congrArg Int64.toInt h
    rwa [Int64.toInt_mod] at this
  have hdiv : (val / 10).toInt = val.toInt.tdiv 10 :=
    Int64.toInt_div_of_ne_right val 10 (by decide)
  have hsplit := Int.mul_tdiv_add_tmod val.toInt 10
  apply Int64.toInt_inj.mp
  rw [Int64.toInt_mul, hdiv]
  change (val.toInt.tdiv 10 * 10).bmod (2 ^ 64) = val.toInt
  rw [show val.toInt.tdiv 10 * 10 = val.toInt by omega]
  exact Int64.toInt_bmod val

theorem decodeTimeTicksValue_bytes {val : Int64} (hval : val % 10 = 0)
    (h : i.Reads (Value.timeTicksValue val).bytes) :
    decodeTimeTicksValue i = .ok (val, i.past (Value.timeTicksValue val).bytes.length) := by
  rw [decodeTimeTicksValue, decodeIntValue_encodeInt h]
  exact congrArg (fun t => Except.ok (t, _)) (timeTicks_back hval)

theorem decodeIPv4AddressValue_bytes {val : UInt32}
    (h : i.Reads (Value.ipv4AddressValue val).bytes) :
    decodeIPv4AddressValue i = .ok (val, i.past (Value.ipv4AddressValue val).bytes.length) := by
  rw [Value.bytes, encodeOctetString] at h ⊢
  rw [decodeIPv4AddressValue, checkType_of_reads h, Run.ok_bind,
    definiteLength_of_reads (by simp) h, Run.ok_bind, if_neg (fun hne => hne rfl),
    octets_of_reads (by simp) (reads_content h), Run.ok_bind, past_past]
  simp only [List.getD_cons_zero, List.getD_cons_succ, address_bytes]
  rfl

/-- Counters and gauges of 32 bits are within their range. -/
theorem decodeUInt32Value_encode {asn1Type : UInt8} {val : UInt32} (name : String)
    (h : i.Reads (encodeInt asn1Type (Int64.ofUInt64 val.toUInt64))) :
    decodeUInt32Value i asn1Type name
      = .ok (val, i.past (encodeInt asn1Type (Int64.ofUInt64 val.toUInt64)).length) := by
  have hle : ¬ val.toUInt64 > 0xffffffff := by
    rw [gt_iff_lt, UInt64.lt_iff_toNat_lt, UInt32.toNat_toUInt64]
    change ¬ 4294967295 < val.toNat
    have := val.toNat_lt
    omega
  rw [decodeUInt32Value, decodeIntValue_encodeInt h, Run.ok_bind]
  change (if val.toUInt64 > 0xffffffff then _ else _) = _
  rw [if_neg hle]
  simp [UInt32.toUInt32_toUInt64]

theorem decodeNull_bytes (h : i.Reads (Value.bytes .nullValue)) :
    decodeNull i = .ok (i.past 2) := by
  have htail := (Reads.cons.mp h).2
  rw [decodeNull, h.plus_one, Run.ok_bind, decodeLength_encodeLength (by decide) htail,
    Run.ok_bind, past_past]
  change (i.past 2).plus (0 : Nat) = _
  rw [plus_of_le (Nat.zero_le _), past_zero]

/-- A value is read back. -/
theorem decodeValue_bytes {v : Value} (hv : v.encodable) (hlen : v.bytes.length ≤ 0x7fffffff)
    (h : i.Reads v.bytes) : decodeValue i = .ok (v, i.past v.bytes.length) := by
  cases v with
  | intValue val =>
    simp [decodeValue, h.head, decodeIntValue_encodeInt h, Value.bytes]
  | stringValue val =>
    have hval := (length_le_encodeOctetString 0x04 val).trans hlen
    simp [decodeValue, h.head, decodeStringValue_encodeOctetString hval h, Value.bytes]
  | oidValue val =>
    have hval := (oidDataLength_le val).trans hlen
    simp [decodeValue, h.head, decodeOidValue_encodeOid hv hval h, Value.bytes]
  | nullValue =>
    simp [decodeValue, h.head, decodeNull_bytes h]
    rfl
  | ipv4AddressValue val =>
    simp [decodeValue, h.head, decodeIPv4AddressValue_bytes h]
  | counter32Value val =>
    simp [decodeValue, h.head, decodeUInt32Value_encode _ h, Value.bytes]
  | gauge32Value val =>
    simp [decodeValue, h.head, decodeUInt32Value_encode _ h, Value.bytes]
  | timeTicksValue val =>
    simp [decodeValue, h.head, decodeIntValue_encodeInt h, timeTicks_back hv, Value.bytes]
  | opaqueValue val =>
    have hval := (length_le_encodeOctetString 0x44 val).trans hlen
    simp [decodeValue, h.head, decodeStringValue_encodeOctetString hval h, Value.bytes]
  | counter64Value val =>
    simp [decodeValue, h.head, decodeIntValue_encodeInt h, Value.bytes]

end Urnest.Snmp
