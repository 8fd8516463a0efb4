import Mathlib.Data.UInt
import Mathlib.Tactic.SplitIfs

/-!
# Words and their big-endian bytes

Facts about 64-bit words bit by bit: `bit x k` is the bit of weight `2 ^ k`.
`setByte` replaces eight bits of a word, `setBytes` replaces its low bytes by the
bytes of a list, most significant first, and `bigEndian` lists the low bytes of a
word in that order. Replacing the low bytes of any word by the bytes of `x` gives
`x` back when the bits above are those of `x` already (`setBytes_bigEndian`), which
is the round trip behind every integer and length of a byte format.
-/

namespace Lib

/-- To show something of every byte, go through them. -/
theorem forall_byte {p : UInt8 → Prop} (h : ∀ n < 256, p (UInt8.ofNat n)) (x : UInt8) : p x := by
  have hx := h x.toNat x.toNat_lt
  rwa [UInt8.ofNat_toNat] at hx

/-- The bit of weight `2 ^ k`. -/
def bit (x : UInt64) (k : Nat) : Bool := x.toBitVec.getLsbD k

theorem bit_ext {x y : UInt64} (h : ∀ k < 64, bit x k = bit y k) : x = y :=
  UInt64.eq_of_toBitVec_eq (BitVec.eq_of_getLsbD_eq h)

theorem bit_of_ge {x : UInt64} {k : Nat} (h : 64 ≤ k) : bit x k = false :=
  BitVec.getLsbD_of_ge _ _ h

@[simp] theorem bit_zero (k : Nat) : bit 0 k = false := by
  simp [bit]

@[simp] theorem bit_or (x y : UInt64) (k : Nat) : bit (x ||| y) k = (bit x k || bit y k) := by
  simp [bit]

@[simp] theorem bit_and (x y : UInt64) (k : Nat) : bit (x &&& y) k = (bit x k && bit y k) := by
  simp [bit]

theorem bit_not (x : UInt64) {k : Nat} (h : k < 64) : bit (~~~x) k = !bit x k := by
  simp [bit, h]

@[simp] theorem bit_not_zero {k : Nat} (h : k < 64) : bit (~~~0) k = true := by
  rw [bit_not 0 h, bit_zero]
  rfl

theorem bit_shiftLeft (x s : UInt64) {k : Nat} (hs : s.toNat < 64) :
    bit (x <<< s) k = (decide (k < 64) && !decide (k < s.toNat) && bit x (k - s.toNat)) := by
  have hmod : s.toNat % 64 = s.toNat := Nat.mod_eq_of_lt hs
  simp [bit, UInt64.toBitVec_shiftLeft, hmod]

theorem bit_shiftRight (x s : UInt64) (k : Nat) (hs : s.toNat < 64) :
    bit (x >>> s) k = bit x (s.toNat + k) := by
  have hmod : s.toNat % 64 = s.toNat := Nat.mod_eq_of_lt hs
  simp [bit, UInt64.toBitVec_shiftRight, hmod]

/-- The bits of a byte widened to a word. -/
theorem bit_toUInt64 (b : UInt8) (k : Nat) : bit b.toUInt64 k = b.toBitVec.getLsbD k := by
  rw [bit, UInt8.toBitVec_toUInt64, BitVec.getLsbD_setWidth]
  by_cases hk : k < 64
  · simp [hk]
  · simp [hk, BitVec.getLsbD_of_ge b.toBitVec k (by omega)]

/-- The bits of the lowest byte of a word. -/
theorem getLsbD_toUInt8 (x : UInt64) (k : Nat) :
    x.toUInt8.toBitVec.getLsbD k = (decide (k < 8) && bit x k) := by
  rw [UInt64.toBitVec_toUInt8, BitVec.getLsbD_setWidth, bit]

theorem bit_byteMask {k : Nat} : bit 0xff k = decide (k < 8) := by
  by_cases hk : k < 8
  · have : ∀ j < 8, bit 0xff j = true := by decide
    simp [hk, this k hk]
  · have hclear : ∀ j < 64, 8 ≤ j → bit 0xff j = false := by decide
    by_cases h64 : k < 64
    · simp [hk, hclear k h64 (by omega)]
    · simp [hk, bit_of_ge (Nat.le_of_not_lt h64)]

/-! ## Replacing bytes -/

/-- Replace the eight bits of `r` from weight `2 ^ s` up by those of `b`. -/
def setByte (r s : UInt64) (b : UInt8) : UInt64 :=
  (r &&& ~~~(0xff <<< s)) ||| (b.toUInt64 <<< s)

theorem bit_setByte {r s : UInt64} {b : UInt8} {k : Nat} (hs : s.toNat < 64) (hk : k < 64) :
    bit (setByte r s b) k =
      if s.toNat ≤ k ∧ k < s.toNat + 8 then b.toBitVec.getLsbD (k - s.toNat) else bit r k := by
  rw [setByte, bit_or, bit_and, bit_not _ hk, bit_shiftLeft _ _ hs, bit_shiftLeft _ _ hs,
    bit_byteMask, bit_toUInt64]
  split_ifs with h
  · have h₁ : ¬ k < s.toNat := by omega
    have h₂ : k - s.toNat < 8 := by omega
    simp [hk, h₁, h₂]
  · by_cases h₁ : k < s.toNat
    · simp [h₁]
    · have h₂ : ¬ k - s.toNat < 8 := by omega
      simp [h₂, BitVec.getLsbD_of_ge b.toBitVec (k - s.toNat) (by omega)]

/-- Where the eight bits are clear, or-ing the byte in replaces them. -/
theorem or_eq_setByte {r s : UInt64} {b : UInt8} (hs : s.toNat < 64)
    (hr : ∀ k, s.toNat ≤ k → k < s.toNat + 8 → bit r k = false) :
    r ||| (b.toUInt64 <<< s) = setByte r s b := by
  refine bit_ext fun k hk => ?_
  rw [bit_setByte hs hk, bit_or, bit_shiftLeft _ _ hs, bit_toUInt64]
  split_ifs with h
  · simp [hr k h.1 h.2, hk, Nat.not_lt.mpr h.1]
  · by_cases h₁ : k < s.toNat
    · simp [h₁]
    · simp [BitVec.getLsbD_of_ge b.toBitVec (k - s.toNat) (by omega)]

/-- Replace the low bytes of `r` by `bs`, most significant first. -/
def setBytes (r : UInt64) : List UInt8 → UInt64
  | [] => r
  | b :: bs => setBytes (setByte r (UInt64.ofNat (8 * bs.length)) b) bs

theorem toNat_ofNat_lt {n : Nat} (h : n < 64) : (UInt64.ofNat n).toNat = n := by
  rw [UInt64.toNat_ofNat']
  exact Nat.mod_eq_of_lt (by omega)

/-- The `n` low bytes of a word, most significant first. -/
def bigEndian (x : UInt64) : Nat → List UInt8
  | 0 => []
  | n + 1 => (x >>> UInt64.ofNat (8 * n)).toUInt8 :: bigEndian x n

@[simp] theorem length_bigEndian (x : UInt64) (n : Nat) : (bigEndian x n).length = n := by
  induction n with
  | zero => rfl
  | succ n ih => simp [bigEndian, ih]

/-- Listing a word's bytes from the other end. -/
theorem bigEndian_succ (x : UInt64) {n : Nat} (hn : n < 8) :
    bigEndian x (n + 1) = bigEndian (x >>> 8) n ++ [x.toUInt8] := by
  induction n with
  | zero =>
    have h : x >>> UInt64.ofNat (8 * 0) = x := by
      refine bit_ext fun k hk => ?_
      rw [bit_shiftRight _ _ _ (by decide)]
      simp
    simp only [bigEndian, h, List.nil_append]
  | succ n ih =>
    have hs : (UInt64.ofNat (8 * n)).toNat = 8 * n := toNat_ofNat_lt (by omega)
    have hs' : (UInt64.ofNat (8 * (n + 1))).toNat = 8 * (n + 1) := toNat_ofNat_lt (by omega)
    have hhead : x >>> UInt64.ofNat (8 * (n + 1)) = (x >>> 8) >>> UInt64.ofNat (8 * n) := by
      refine bit_ext fun k hk => ?_
      rw [bit_shiftRight _ _ _ (by omega), bit_shiftRight _ _ _ (by omega),
        bit_shiftRight _ _ _ (by decide), hs, hs']
      congr 1
      change _ = 8 + _
      omega
    rw [bigEndian, ih (by omega), bigEndian, hhead]
    rfl

theorem bit_setBytes_bigEndian {x r : UInt64} {n k : Nat} (hn : n ≤ 8) (hk : k < 64) :
    bit (setBytes r (bigEndian x n)) k = if k < 8 * n then bit x k else bit r k := by
  induction n generalizing r with
  | zero => simp [bigEndian, setBytes]
  | succ n ih =>
    have hs : 8 * n < 64 := by omega
    have hs' : (UInt64.ofNat (8 * n)).toNat = 8 * n := toNat_ofNat_lt hs
    rw [bigEndian, setBytes, length_bigEndian, ih (by omega)]
    by_cases h : k < 8 * n
    · rw [if_pos h, if_pos (by omega)]
    · rw [if_neg h, bit_setByte (by omega) hk, hs']
      by_cases h' : k < 8 * n + 8
      · rw [if_pos ⟨by omega, h'⟩, if_pos (by omega), getLsbD_toUInt8,
          bit_shiftRight _ _ _ (by omega), hs']
        have h₁ : k - 8 * n < 8 := by omega
        have h₂ : 8 * n + (k - 8 * n) = k := by omega
        simp [h₁, h₂]
      · rw [if_neg (by omega), if_neg (by omega)]

/-- Round trip: the low bytes of `x` put into a word whose other bits are those of `x`. -/
theorem setBytes_bigEndian {x r : UInt64} {n : Nat} (hn : n ≤ 8)
    (hr : ∀ k < 64, 8 * n ≤ k → bit r k = bit x k) : setBytes r (bigEndian x n) = x := by
  refine bit_ext fun k hk => ?_
  rw [bit_setBytes_bigEndian hn hk]
  split_ifs with h
  · rfl
  · exact hr k hk (by omega)

/-- A byte is in the upper half of its range when its top bit is set. -/
theorem ge_half_iff (b : UInt8) : 0x80 ≤ b ↔ b.toBitVec.getLsbD 7 = true := by
  have h := BitVec.msb_eq_decide b.toBitVec
  rw [BitVec.msb_eq_getLsbD_last] at h
  rw [h, decide_eq_true_iff, UInt8.le_iff_toNat_le]
  rfl

theorem and_half_ne_zero_iff (b : UInt8) : b &&& 0x80 ≠ 0 ↔ 0x80 ≤ b := by
  rw [ge_half_iff]
  have hbits : ∀ k < 8, (0x80 : UInt8).toBitVec.getLsbD k = decide (k = 7) := by decide
  constructor
  · intro h
    by_contra hclear
    apply h
    apply UInt8.eq_of_toBitVec_eq
    refine BitVec.eq_of_getLsbD_eq fun k hk => ?_
    rw [UInt8.toBitVec_and, BitVec.getLsbD_and, hbits k hk]
    by_cases h7 : k = 7
    · subst h7
      simpa using hclear
    · simp [h7]
  · intro h hzero
    have hbit := congrArg (fun x : UInt8 => x.toBitVec.getLsbD 7) hzero
    simp only [UInt8.toBitVec_and, BitVec.getLsbD_and, h, Bool.true_and] at hbit
    cases hbit

/-- The top bit of the first listed byte. -/
theorem head_bigEndian_ge {x : UInt64} {n : Nat} (hn : n < 8) :
    0x80 ≤ (x >>> UInt64.ofNat (8 * n)).toUInt8 ↔ bit x (8 * n + 7) = true := by
  have hs : (UInt64.ofNat (8 * n)).toNat = 8 * n := toNat_ofNat_lt (by omega)
  rw [ge_half_iff, getLsbD_toUInt8, bit_shiftRight _ _ _ (by omega), hs]
  simp

/-! ## Base 128

A byte below 128 carries seven bits, and its top bit is free to say whether more
follow. -/

theorem topBit {k : Nat} (hk : k < 8) : (0x80 : UInt8).toBitVec.getLsbD k = decide (k = 7) := by
  have : ∀ k < 8, (0x80 : UInt8).toBitVec.getLsbD k = decide (k = 7) := by decide
  exact this k hk

theorem clear_top_of_set {b : UInt8} (h : b < 0x80) : (0x80 ||| b) &&& ~~~0x80 = b := by
  have h7 : b.toBitVec.getLsbD 7 = false := by
    rw [Bool.eq_false_iff, Ne, ← ge_half_iff]
    exact UInt8.not_le.mpr h
  apply UInt8.eq_of_toBitVec_eq
  refine BitVec.eq_of_getLsbD_eq fun k hk => ?_
  rw [UInt8.toBitVec_and, UInt8.toBitVec_or, UInt8.toBitVec_not, BitVec.getLsbD_and,
    BitVec.getLsbD_or, BitVec.getLsbD_not, topBit hk]
  by_cases hk7 : k = 7
  · subst hk7
    rw [h7]
    rfl
  · simp [hk7, hk]

theorem top_of_set (b : UInt8) : (0x80 ||| b) &&& 0x80 ≠ 0 := by
  rw [and_half_ne_zero_iff, ge_half_iff, UInt8.toBitVec_or, BitVec.getLsbD_or,
    topBit (by omega)]
  rfl

/-- The seven low bits of a word, as a byte. -/
def low7 (c : UInt32) : UInt8 := (c &&& 0x7f).toUInt8

theorem and_127_toNat (c : UInt32) : (c &&& 0x7f).toNat = c.toNat % 128 := by
  rw [UInt32.toNat_and]
  exact Nat.and_two_pow_sub_one_eq_mod c.toNat 7

theorem low7_lt (c : UInt32) : low7 c < 0x80 := by
  rw [UInt8.lt_iff_toNat_lt, low7, UInt32.toNat_toUInt8, and_127_toNat]
  change c.toNat % 128 % 256 < 128
  omega

theorem low7_toUInt32 (c : UInt32) : (low7 c).toUInt32 = c &&& 0x7f := by
  apply UInt32.toNat_inj.mp
  rw [UInt8.toNat_toUInt32, low7, UInt32.toNat_toUInt8, and_127_toNat]
  change c.toNat % 128 % 256 = c.toNat % 128
  omega

/-- The bits above the low seven, and those seven, make up the word. -/
theorem join7 (c : UInt32) : ((c >>> 7) <<< 7) ||| (c &&& 0x7f) = c := by
  have hmask : ∀ k < 32, (0x7f : UInt32).toBitVec.getLsbD k = decide (k < 7) := by decide
  apply UInt32.eq_of_toBitVec_eq
  refine BitVec.eq_of_getLsbD_eq fun k hk => ?_
  rw [UInt32.toBitVec_or, UInt32.toBitVec_and, UInt32.toBitVec_shiftLeft,
    UInt32.toBitVec_shiftRight, BitVec.getLsbD_or, BitVec.getLsbD_and, hmask k hk]
  change (((c.toBitVec >>> 7) <<< 7).getLsbD k || _) = _
  rw [BitVec.getLsbD_shiftLeft, BitVec.getLsbD_ushiftRight]
  by_cases h7 : k < 7
  · simp [h7]
  · have hsum : 7 + (k - 7) = k := by omega
    simp [h7, hk, hsum]

/-- A word is below `2 ^ n` when its bits from `n` up are clear. -/
theorem lt_two_pow_iff {x : UInt64} {n : Nat} :
    x.toNat < 2 ^ n ↔ ∀ k, n ≤ k → bit x k = false := by
  constructor
  · intro h k hk
    rw [bit, BitVec.getLsbD, Nat.testBit_lt_two_pow]
    exact lt_of_lt_of_le h (Nat.pow_le_pow_right (by omega) hk)
  · intro h
    refine Nat.lt_pow_two_of_testBit _ fun k hk => ?_
    exact h k hk

end Lib
