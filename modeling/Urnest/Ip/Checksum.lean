import Mathlib.Data.UInt
import Urnest.Ip.Decode
import Urnest.Lib.OnesComplement

/-!
# The checksum

`calculate` and `validate` add up the 16-bit words of the input and fold the carries back in.
What is left is the one's complement sum of the words (`fold_toNat`), which `validate` wants
to be all ones.
-/

namespace Urnest.Ip

open Lib Xju

/-- `while(!i.atEnd())`: the words of the input, added to `sum`. An odd last byte is the upper
half of a word. -/
def addWords : List UInt8 → UInt32 → UInt32
  | [], sum => sum
  | [b], sum => sum + (b.toUInt16 <<< 8).toUInt32
  | b :: c :: rest, sum => addWords rest (sum + ((b.toUInt16 <<< 8) + c.toUInt16).toUInt32)

theorem fold_step {sum : UInt32} (h : sum >>> 16 ≠ 0) :
    ((sum &&& (0xffff : UInt32)) + (sum >>> 16)).toNat = sum.toNat % 2 ^ 16 + sum.toNat / 2 ^ 16 ∧
      65535 < sum.toNat := by
  have hlt := sum.toNat_lt
  have hhigh : (sum >>> 16).toNat = sum.toNat / 2 ^ 16 := by
    rw [UInt32.toNat_shiftRight, Nat.shiftRight_eq_div_pow]
    rfl
  have hlow : (sum &&& 0xffff).toNat = sum.toNat % 2 ^ 16 := by
    rw [UInt32.toNat_and]
    exact Nat.and_two_pow_sub_one_eq_mod sum.toNat 16
  refine ⟨?_, ?_⟩
  · rw [UInt32.toNat_add, hlow, hhigh]
    exact Nat.mod_eq_of_lt (by omega)
  · by_contra hle
    apply h
    apply UInt32.toNat_inj.mp
    rw [hhigh]
    exact Nat.div_eq_of_lt (by omega)

/-- `while (sum>>16) sum = (sum & 0xffff) + (sum >> 16);` -/
def fold (sum : UInt32) : UInt32 :=
  if _h : sum >>> 16 ≠ 0 then fold ((sum &&& (0xffff : UInt32)) + (sum >>> 16)) else sum
termination_by sum.toNat
decreasing_by
  obtain ⟨hstep, hlt⟩ := fold_step _h
  rw [hstep]
  exact carry_lt (by omega) hlt

/-- The sum of what is left of the input. Reading it byte by byte wants the iterator to be
between bytes. -/
def sumOf (i : Iterator) : Except Stop UInt32 :=
  if i.rest ≠ [] ∧ i.offset.bits ≠ 0 then .error .assertFailed
  else .ok (fold (addWords i.rest 0))

def calculate (i : Iterator) : Except Stop UInt16 := do
  let sum ← sumOf i
  pure (~~~sum).toUInt16

def validate (i : Iterator) : Except Stop Unit := do
  let sum ← sumOf i
  if sum ≠ 0xffff then .error (.threw ⟨"invalid ip checksum", []⟩ i.offset) else pure ()

/-! ## Sums of words -/

/-- The sum of the big-endian words of the input. -/
def wordSum : List UInt8 → Nat
  | [] => 0
  | [b] => b.toNat * 256
  | b :: c :: rest => b.toNat * 256 + c.toNat + wordSum rest

theorem wordSum_append {as : List UInt8} (heven : 2 ∣ as.length) (bs : List UInt8) :
    wordSum (as ++ bs) = wordSum as + wordSum bs := by
  induction as using wordSum.induct with
  | case1 => simp [wordSum]
  | case2 b => simp at heven
  | case3 b c rest ih =>
    have heven' : 2 ∣ rest.length := by
      rw [List.length_cons, List.length_cons] at heven
      omega
    rw [List.cons_append, List.cons_append, wordSum, wordSum, ih heven']
    omega

theorem wordSum_le (bs : List UInt8) : wordSum bs ≤ 65535 * ((bs.length + 1) / 2) := by
  induction bs using wordSum.induct with
  | case1 => exact Nat.zero_le _
  | case2 b =>
    have := b.toNat_lt
    rw [wordSum, List.length_singleton]
    omega
  | case3 b c rest ih =>
    have := b.toNat_lt
    have := c.toNat_lt
    rw [wordSum, List.length_cons, List.length_cons]
    omega

theorem addWords_toNat (bs : List UInt8) (sum : UInt32) (h : sum.toNat + wordSum bs < 2 ^ 32) :
    (addWords bs sum).toNat = sum.toNat + wordSum bs := by
  induction bs, sum using addWords.induct with
  | case1 sum => rfl
  | case2 b sum =>
    have hb := b.toNat_lt
    have hword : (b.toUInt16 <<< 8).toUInt32.toNat = b.toNat * 256 := by
      rw [UInt16.toNat_toUInt32, UInt16.toNat_shiftLeft, Nat.shiftLeft_eq]
      change b.toNat * 2 ^ 8 % 2 ^ 16 = _
      omega
    rw [wordSum] at h ⊢
    rw [addWords, UInt32.toNat_add, hword]
    exact Nat.mod_eq_of_lt h
  | case3 b c rest sum ih =>
    have hb := b.toNat_lt
    have hc := c.toNat_lt
    rw [wordSum] at h ⊢
    have hlt : sum.toNat + (b.toNat * 256 + c.toNat) < 2 ^ 32 :=
      lt_of_le_of_lt (Nat.add_le_add_left (Nat.le_add_right _ _) _) h
    have hword : ((b.toUInt16 <<< 8) + c.toUInt16).toUInt32.toNat = b.toNat * 256 + c.toNat := by
      rw [UInt16.toNat_toUInt32, UInt16.toNat_add, UInt16.toNat_shiftLeft, Nat.shiftLeft_eq]
      change (b.toNat * 2 ^ 8 % 2 ^ 16 + c.toNat) % 2 ^ 16 = _
      omega
    have hadd : (sum + ((b.toUInt16 <<< 8) + c.toUInt16).toUInt32).toNat
        = sum.toNat + (b.toNat * 256 + c.toNat) := by
      rw [UInt32.toNat_add, hword]
      exact Nat.mod_eq_of_lt hlt
    rw [hadd, Nat.add_assoc] at ih
    rw [addWords, ih h, Nat.add_assoc]

theorem fold_toNat (sum : UInt32) : (fold sum).toNat = onesSum 65535 sum.toNat := by
  induction sum using fold.induct with
  | case1 sum h ih =>
    rw [fold, dif_pos h, ih, (fold_step h).1]
    exact onesSum_carry 65535 sum.toNat
  | case2 sum h =>
    have hhigh : (sum >>> 16).toNat = sum.toNat / 2 ^ 16 := by
      rw [UInt32.toNat_shiftRight, Nat.shiftRight_eq_div_pow]
      rfl
    rw [not_not.mp h] at hhigh
    rw [fold, dif_neg h, onesSum_of_le]
    change 0 = _ at hhigh
    omega

section Sums

variable {i : Iterator} (hbits : i.offset.bits = 0) (hlen : i.rest.length ≤ 60)

include hbits hlen

theorem sumOf_eq :
    ∃ sum, sumOf i = .ok sum ∧ sum.toNat = onesSum 65535 (wordSum i.rest) := by
  have hle := wordSum_le i.rest
  refine ⟨_, if_neg fun h => h.2 hbits, ?_⟩
  have hzero : (0 : UInt32).toNat = 0 := rfl
  rw [fold_toNat, addWords_toNat _ _ (by rw [hzero]; omega), hzero, Nat.zero_add]

theorem calculate_eq :
    ∃ checksum, calculate i = .ok checksum ∧
      checksum.toNat = 65535 - onesSum 65535 (wordSum i.rest) := by
  obtain ⟨sum, hsum, hvalue⟩ := sumOf_eq hbits hlen
  have hle := onesSum_le (m := 65535) (by omega) (wordSum i.rest)
  refine ⟨(~~~sum).toUInt16, ?_, ?_⟩
  · rw [calculate, hsum]
    rfl
  · rw [UInt32.toNat_toUInt16, UInt32.toNat_not, hvalue]
    change (2 ^ 32 - 1 - _) % 2 ^ 16 = _
    omega

/-- `validate` accepts the words whose sum is all ones. -/
theorem validate_eq_ok : validate i = .ok () ↔ onesSum 65535 (wordSum i.rest) = 65535 := by
  obtain ⟨sum, hsum, hvalue⟩ := sumOf_eq hbits hlen
  rw [validate, hsum, ← hvalue]
  change (if sum ≠ 0xffff then _ else _) = _ ↔ _
  split_ifs with h
  · refine iff_of_false (fun h => nomatch h) fun hmax => h (UInt32.toNat_inj.mp hmax)
  · rw [not_not.mp h]
    exact iff_of_true rfl rfl

/-- And throws for all others. -/
theorem validate_throws (h : onesSum 65535 (wordSum i.rest) ≠ 65535) :
    validate i = .error (.threw ⟨"invalid ip checksum", []⟩ i.offset) := by
  obtain ⟨sum, hsum, hvalue⟩ := sumOf_eq hbits hlen
  rw [validate, hsum]
  refine if_pos fun hmax => h ?_
  rw [← hvalue, hmax]
  rfl

end Sums

end Urnest.Ip
