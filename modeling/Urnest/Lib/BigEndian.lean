import Urnest.Lib.Bytes
import Mathlib.Algebra.Order.Ring.Int
import Mathlib.Tactic.Positivity
import Mathlib.Tactic.Ring
import Mathlib.Tactic.Zify

/-!
# Numbers and their big-endian bytes

`ofBytes` is the number whose digits in base 256 are the bytes of a list, most
significant first, and `toBytes n x` the `n` digits of `x`, bits above dropped. The
two undo each other, and a concatenation is a number written after another. `ofTwos`
is what the same bytes are worth in two's complement: a list of `n` bytes stands for
each number of `[-256 ^ n / 2, 256 ^ n / 2)` exactly once.
-/

namespace Lib

/-- The number with these bytes, most significant first. -/
def ofBytes : List UInt8 → Nat
  | [] => 0
  | b :: bs => b.toNat * 256 ^ bs.length + ofBytes bs

/-- The `n` low bytes of a number, most significant first. -/
def toBytes : Nat → Nat → List UInt8
  | 0, _ => []
  | n + 1, x => UInt8.ofNat (x / 256 ^ n) :: toBytes n x

@[simp] theorem length_toBytes (n x : Nat) : (toBytes n x).length = n := by
  induction n with
  | zero => rfl
  | succ n ih => simp [toBytes, ih]

theorem toNat_ofNat_byte (x : Nat) : (UInt8.ofNat x).toNat = x % 256 := UInt8.toNat_ofNat'

theorem ofBytes_lt (bs : List UInt8) : ofBytes bs < 256 ^ bs.length := by
  induction bs with
  | nil => simp [ofBytes]
  | cons b bs ih =>
    have hb : b.toNat + 1 ≤ 256 := b.toNat_lt
    have hmul := Nat.mul_le_mul_right (256 ^ bs.length) hb
    rw [Nat.add_mul] at hmul
    rw [ofBytes, List.length_cons, pow_succ]
    omega

theorem ofBytes_toBytes (n x : Nat) : ofBytes (toBytes n x) = x % 256 ^ n := by
  induction n with
  | zero => simp [toBytes, ofBytes, Nat.mod_one]
  | succ n ih =>
    rw [toBytes, ofBytes, ih, length_toBytes, toNat_ofNat_byte, Nat.mod_pow_succ]
    ring

theorem ofBytes_toBytes_of_lt {n x : Nat} (h : x < 256 ^ n) : ofBytes (toBytes n x) = x := by
  rw [ofBytes_toBytes, Nat.mod_eq_of_lt h]

/-- Only the low bytes of the number matter. -/
theorem toBytes_add_mul (n x k : Nat) : toBytes n (k * 256 ^ n + x) = toBytes n x := by
  induction n generalizing k with
  | zero => rfl
  | succ n ih =>
    have hpow : k * 256 ^ (n + 1) = k * 256 * 256 ^ n := by ring
    rw [toBytes, toBytes, hpow, ih (k * 256),
      Nat.mul_comm (k * 256), Nat.mul_add_div (by positivity)]
    congr 1
    apply UInt8.toNat_inj.mp
    rw [toNat_ofNat_byte, toNat_ofNat_byte]
    omega

theorem toBytes_mod (n x : Nat) : toBytes n (x % 256 ^ n) = toBytes n x := by
  have hdiv := Nat.div_add_mod' x (256 ^ n)
  have := toBytes_add_mul n (x % 256 ^ n) (x / 256 ^ n)
  rw [hdiv] at this
  exact this.symm

theorem toBytes_one (x : UInt8) : toBytes 1 x.toNat = [x] := by
  rw [toBytes, toBytes, Nat.pow_zero, Nat.div_one, UInt8.ofNat_toNat]

/-- The upper bytes, and the lower ones. -/
theorem toBytes_add (m n x : Nat) :
    toBytes (m + n) x = toBytes m (x / 256 ^ n) ++ toBytes n x := by
  induction m with
  | zero => rw [Nat.zero_add, toBytes, List.nil_append]
  | succ m ih =>
    rw [Nat.add_right_comm, toBytes, toBytes, ih, Nat.div_div_eq_div_mul, ← pow_add,
      Nat.add_comm n m, List.cons_append]

theorem toBytes_ofBytes (bs : List UInt8) : toBytes bs.length (ofBytes bs) = bs := by
  induction bs with
  | nil => rfl
  | cons b bs ih =>
    have hlt := ofBytes_lt bs
    rw [List.length_cons, toBytes, ofBytes, toBytes_add_mul, ih, Nat.mul_comm,
      Nat.mul_add_div (by positivity), Nat.div_eq_of_lt hlt, Nat.add_zero, UInt8.ofNat_toNat]

/-- The bytes of a word. -/
theorem bigEndian_eq_toBytes (x : UInt64) {n : Nat} (hn : n ≤ 8) :
    bigEndian x n = toBytes n x.toNat := by
  induction n with
  | zero => rfl
  | succ n ih =>
    have hs : (UInt64.ofNat (8 * n)).toNat = 8 * n := toNat_ofNat_lt (by omega)
    have hhead : (x >>> UInt64.ofNat (8 * n)).toUInt8 = UInt8.ofNat (x.toNat / 256 ^ n) := by
      apply UInt8.toNat_inj.mp
      have hmod : 8 * n % 64 = 8 * n := Nat.mod_eq_of_lt (by omega)
      rw [UInt64.toNat_toUInt8, UInt64.toNat_shiftRight, hs, hmod, Nat.shiftRight_eq_div_pow,
        toNat_ofNat_byte, pow_mul]
      rfl
    rw [bigEndian, toBytes, hhead, ih (by omega)]

/-! ## Two's complement -/

/-- The number the bytes stand for in two's complement. -/
def ofTwos : List UInt8 → Int
  | [] => 0
  | b :: bs =>
    if 0x80 ≤ b then (ofBytes (b :: bs) : Int) - 256 ^ (bs.length + 1) else ofBytes (b :: bs)

/-- `n` bytes are enough for `v` in two's complement. -/
def FitsTwos (v : Int) (n : Nat) : Prop := -256 ^ n ≤ 2 * v ∧ 2 * v < 256 ^ n

theorem FitsTwos.mono {v : Int} {m n : Nat} (h : FitsTwos v m) (hmn : m ≤ n) : FitsTwos v n := by
  have hpow : (256 : Int) ^ m ≤ 256 ^ n := pow_le_pow_right₀ (by omega) hmn
  obtain ⟨h₁, h₂⟩ := h
  exact ⟨by omega, by omega⟩

/-- The first byte tells in which half of its range the number is. -/
theorem half_le_ofBytes_iff (b : UInt8) (bs : List UInt8) :
    256 ^ (bs.length + 1) ≤ 2 * ofBytes (b :: bs) ↔ 0x80 ≤ b := by
  have hlt := ofBytes_lt bs
  rw [ofBytes, pow_succ, UInt8.le_iff_toNat_le]
  change _ ↔ 128 ≤ b.toNat
  constructor
  · intro h
    by_contra hb
    have hmul := Nat.mul_le_mul_right (256 ^ bs.length) (show b.toNat ≤ 127 by omega)
    omega
  · intro hb
    have hmul := Nat.mul_le_mul_right (256 ^ bs.length) hb
    omega

theorem ofTwos_fits (bs : List UInt8) : FitsTwos (ofTwos bs) bs.length := by
  cases bs with
  | nil => simp [ofTwos, FitsTwos]
  | cons b bs =>
    have hlt := ofBytes_lt (b :: bs)
    have hhalf := half_le_ofBytes_iff b bs
    rw [List.length_cons] at hlt ⊢
    zify at hlt hhalf
    rw [ofTwos, FitsTwos]
    split_ifs with hb
    · have := hhalf.mpr hb
      constructor <;> omega
    · have := mt hhalf.mp hb
      constructor <;> omega

/-- A number that fits is what its low bytes stand for. -/
theorem ofTwos_toBytes {v : Int} {n : Nat} (hn : 1 ≤ n) (h : FitsTwos v n) :
    ofTwos (toBytes n (v % 256 ^ n).toNat) = v := by
  obtain ⟨m, rfl⟩ : ∃ m, n = m + 1 := ⟨n - 1, by omega⟩
  obtain ⟨hlow, hhigh⟩ := h
  have hpos : (0 : Int) < 256 ^ (m + 1) := by positivity
  have hnonneg := Int.emod_nonneg v hpos.ne'
  have hx : (v % 256 ^ (m + 1)).toNat < 256 ^ (m + 1) := by
    zify
    rw [Int.toNat_of_nonneg hnonneg]
    exact Int.emod_lt_of_pos v hpos
  have hvalue := ofBytes_toBytes_of_lt hx
  have hlen := length_toBytes (m + 1) (v % 256 ^ (m + 1)).toNat
  cases hbs : toBytes (m + 1) (v % 256 ^ (m + 1)).toNat with
  | nil => simp [toBytes] at hbs
  | cons b bs =>
    rw [hbs] at hvalue hlen
    have hhalf := half_le_ofBytes_iff b bs
    rw [List.length_cons, Nat.succ_inj] at hlen
    rw [hvalue, hlen] at hhalf
    zify at hhalf
    rw [Int.toNat_of_nonneg hnonneg] at hhalf
    rw [ofTwos, hvalue, hlen, Int.toNat_of_nonneg hnonneg]
    -- the remainder is the number itself, or the number moved up by the whole range
    obtain hneg | hpos' := lt_or_ge v 0
    · have hmod : v % 256 ^ (m + 1) = v + 256 ^ (m + 1) := by
        rw [← Int.add_emod_right, Int.emod_eq_of_lt (by omega) (by omega)]
      rw [if_pos (hhalf.mp (by omega)), hmod]
      omega
    · have hmod : v % 256 ^ (m + 1) = v := Int.emod_eq_of_lt hpos' (by omega)
      rw [if_neg (fun hb => absurd (hhalf.mpr hb) (by omega)), hmod]

/-- The bytes are the low bytes of what they stand for. -/
theorem toBytes_ofTwos (bs : List UInt8) :
    toBytes bs.length (ofTwos bs % 256 ^ bs.length).toNat = bs := by
  have hmod : ofTwos bs % 256 ^ bs.length = ofBytes bs := by
    have hlt := ofBytes_lt bs
    zify at hlt
    have hself : (ofBytes bs : Int) % 256 ^ bs.length = ofBytes bs :=
      Int.emod_eq_of_lt (by omega) hlt
    cases bs with
    | nil => rfl
    | cons b bs =>
      rw [ofTwos]
      split_ifs
      · rw [List.length_cons] at hself ⊢
        rw [Int.sub_emod_right, hself]
      · exact hself
  rw [hmod, Int.toNat_natCast, toBytes_ofBytes]

theorem ofTwos_inj {as bs : List UInt8} (hlen : as.length = bs.length)
    (h : ofTwos as = ofTwos bs) : as = bs := by
  rw [← toBytes_ofTwos as, ← toBytes_ofTwos bs, hlen, h]

end Lib
