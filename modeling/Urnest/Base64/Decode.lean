import Mathlib.Data.List.Basic
import Mathlib.Tactic.Common
import Urnest.Lib.Bytes

/-!
# Decoding base64

`decode` threads an accumulator of bits through the text, and takes a byte out of it as soon
as there is one. By groups of four characters that is `bytesOf` (`foldl_feed`), where four
six-bit values make three bytes and the accumulator is empty again.

`digits` and `padding` are the encoding of RFC 4648, for which the decoder is: it reads back
the digits of any bytes, with white space anywhere up to the padding. It reads more than
these, for neither a last group of one character nor left-over bits are looked at
(`decode_exact`).
-/

namespace Urnest.Base64

/-- What went wrong. -/
inductive Cause where
  | invalidChar (x : UInt8)
  /-- end of base64 string -/
  | endOfString
  /-- got non-padding character -/
  | notPadding (c : UInt8)
  /-- extra characters after base64 padding -/
  | extraCharacters (n : Nat)
  deriving DecidableEq, Repr

structure Exception where
  cause : Cause
  /-- read padding character #p of n -/
  reading : Option (Nat × Nat) := none
  /-- decode at offset -/
  offset : Nat
  deriving DecidableEq, Repr

/-! ## The characters -/

/-- `valueOf` -/
def valueOf (x : UInt8) : Except Cause UInt8 :=
  if 0x41 ≤ x ∧ x ≤ 0x5a then .ok (x - 0x41)
  else if 0x61 ≤ x ∧ x ≤ 0x7a then .ok (26 + (x - 0x61))
  else if 0x30 ≤ x ∧ x ≤ 0x39 then .ok (52 + (x - 0x30))
  else if x = 0x2b then .ok 62
  else if x ≠ 0x2f then .error (.invalidChar x)
  else .ok 63

/-- `std::isspace`: blank, and tab to carriage return. -/
def isSpace (x : UInt8) : Bool := x = 0x20 ∨ 0x09 ≤ x ∧ x ≤ 0x0d

def isPad (x : UInt8) : Bool := x = 0x3d

/-! ## The accumulator -/

/-- Bits, and how many. -/
abbrev Accumulator := UInt16 × Nat

def accumulate (existingBits : Accumulator) (c : UInt8) : Except Cause Accumulator := do
  let value ← valueOf c
  .ok ((existingBits.1 <<< 6) + value.toUInt16, existingBits.2 + 6)

/-- `consume`, with what is behind the inserter. -/
def consume (existingBits : Accumulator) (result : List UInt8) : Accumulator × List UInt8 :=
  if existingBits.2 ≥ 8 then
    let extraBits := existingBits.2 - 8
    let r := existingBits.1 >>> UInt16.ofNat extraBits
    ((existingBits.1 - (r <<< UInt16.ofNat extraBits), extraBits), result ++ [r.toUInt8])
  else (existingBits, result)

/-! ## The text -/

structure Reading where
  accumulator : Accumulator := (0, 0)
  result : List UInt8 := []
  offset : Nat := 0
  nchars : Nat := 0

/-- The first loop of `decode`: up to the padding, or the end. -/
def readChars : List UInt8 → Reading → Except Exception (Reading × List UInt8)
  | [], s => .ok (s, [])
  | c :: i, s =>
    if isPad c then .ok (s, c :: i)
    else if isSpace c then readChars i { s with offset := s.offset + 1 }
    else match accumulate s.accumulator c with
      | .error cause => .error { cause := cause, offset := s.offset }
      | .ok bits =>
        let (accumulator, result) := consume bits s.result
        readChars i {
          accumulator := accumulator
          result := result
          offset := s.offset + 1
          nchars := s.nchars + 1 }

/-- The second loop: from padding character `p` on, of `remainingPadding`. -/
def readPadding (remainingPadding : Nat) : Nat → Nat → List UInt8 → Nat →
    Except Exception (List UInt8 × Nat)
  | 0, _, i, offset => .ok (i, offset)
  | _ + 1, p, [], offset =>
    .error { cause := .endOfString, reading := some (p, remainingPadding), offset := offset }
  | n + 1, p, c :: i, offset =>
    if isPad c then readPadding remainingPadding n (p + 1) i (offset + 1)
    else .error {
      cause := .notPadding c
      reading := some (p, remainingPadding)
      offset := offset }

/-- `(4-(nchars%4))%4` -/
def remainingPadding (nchars : Nat) : Nat := (4 - nchars % 4) % 4

/-- `decode` -/
def decode (text : List UInt8) : Except Exception (List UInt8) := do
  let (s, i) ← readChars text {}
  let n := remainingPadding s.nchars
  let (i, offset) ← readPadding n n 1 i s.offset
  if i ≠ [] then .error { cause := .extraCharacters i.length, offset := offset }
  else .ok s.result

/-! ## The format -/

/-- The character of a six-bit value. -/
def digit (v : Nat) : UInt8 :=
  if v < 26 then UInt8.ofNat (0x41 + v)
  else if v < 52 then UInt8.ofNat (0x61 + (v - 26))
  else if v < 62 then UInt8.ofNat (0x30 + (v - 52))
  else if v = 62 then 0x2b
  else 0x2f

/-- The digits of bytes, by three. -/
def digits : List UInt8 → List UInt8
  | a :: b :: c :: bytes =>
    digit (a.toNat / 4) :: digit (a.toNat % 4 * 16 + b.toNat / 16) ::
      digit (b.toNat % 16 * 4 + c.toNat / 64) :: digit (c.toNat % 64) :: digits bytes
  | [a, b] =>
    [digit (a.toNat / 4), digit (a.toNat % 4 * 16 + b.toNat / 16), digit (b.toNat % 16 * 4)]
  | [a] => [digit (a.toNat / 4), digit (a.toNat % 4 * 16)]
  | [] => []

/-- What fills the last group of so many digits up to four. -/
def padding (n : Nat) : List UInt8 := List.replicate (remainingPadding n) 0x3d

/-- The encoding of RFC 4648. -/
def encode (bytes : List UInt8) : List UInt8 := digits bytes ++ padding (digits bytes).length

/-- What is not white space. -/
def chars (text : List UInt8) : List UInt8 := text.filter (! isSpace ·)

/-- The encoding of `bytes` with white space anywhere up to the padding. -/
def Spaced (bytes text : List UInt8) : Prop :=
  ∃ data, text = data ++ padding (digits bytes).length ∧ chars data = digits bytes

/-- The number of a digit. -/
def value (c : UInt8) : Nat := (valueOf c).toOption.elim 0 UInt8.toNat

/-- The whole bytes in six-bit values, by four. -/
def bytesOf : List Nat → List UInt8
  | a :: b :: c :: d :: vs =>
    UInt8.ofNat (a * 4 + b / 16) :: UInt8.ofNat (b % 16 * 16 + c / 4) ::
      UInt8.ofNat (c % 4 * 64 + d) :: bytesOf vs
  | [a, b, c] => [UInt8.ofNat (a * 4 + b / 16), UInt8.ofNat (b % 16 * 16 + c / 4)]
  | [a, b] => [UInt8.ofNat (a * 4 + b / 16)]
  | [_] => []
  | [] => []

/-- The bits behind the last whole byte. -/
def leftOver : List Nat → Nat
  | _ :: _ :: _ :: _ :: vs => leftOver vs
  | [_, _, c] => c % 4
  | [_, b] => b % 16
  | [a] => a
  | [] => 0

/-- Data characters with white space anywhere, and the padding for that many of them. The
bytes are those that their values make. -/
def Taken (text bytes : List UInt8) : Prop :=
  ∃ data, text = data ++ padding (chars data).length ∧ (∀ c ∈ chars data, ∃ v < 64, c = digit v) ∧
    bytes = bytesOf ((chars data).map value)

/-- The values of the data characters of a text. -/
def valuesOf (text : List UInt8) : List Nat := ((chars text).filter (! isPad ·)).map value

/-- No group of one character, and no bits left over. -/
def Canonical (text : List UInt8) : Prop :=
  (valuesOf text).length % 4 ≠ 1 ∧ leftOver (valuesOf text) = 0

/-! ## Digits -/

theorem toNat_byte {n : Nat} (h : n < 256) : (UInt8.ofNat n).toNat = n := by
  rw [UInt8.toNat_ofNat', Nat.mod_eq_of_lt h]

theorem valueOf_digit {v : Nat} (h : v < 64) : valueOf (digit v) = .ok (UInt8.ofNat v) := by
  revert v
  decide +kernel

/-- A byte is the digit of its number, or none. -/
theorem digit_value (c : UInt8) :
    (value c < 64 ∧ c = digit (value c)) ∨ valueOf c = .error (.invalidChar c) := by
  refine Lib.forall_byte (p := fun c => (value c < 64 ∧ c = digit (value c)) ∨
    valueOf c = .error (.invalidChar c)) ?_ c
  decide +kernel

theorem digit_of_valueOf (c : UInt8) :
    (∃ v < 64, c = digit v) ∨ valueOf c = .error (.invalidChar c) :=
  (digit_value c).imp_left fun h => ⟨value c, h⟩

theorem value_digit {v : Nat} (h : v < 64) : value (digit v) = v := by
  rw [value, valueOf_digit h]
  exact toNat_byte (by omega)

theorem isSpace_digit {v : Nat} (h : v < 64) : isSpace (digit v) = false := by
  revert v
  decide +kernel

theorem isPad_digit {v : Nat} (h : v < 64) : isPad (digit v) = false := by
  revert v
  decide +kernel

/-! ## Bits and numbers -/

/-- The accumulator takes in a value, and gives off a byte if it has one. -/
def feed (s : Accumulator × List UInt8) (v : Nat) : Accumulator × List UInt8 :=
  consume ((s.1.1 <<< 6) + (UInt8.ofNat v).toUInt16, s.1.2 + 6) s.2

theorem toNat_bits {n : Nat} (h : n < 2 ^ 16) : (UInt16.ofNat n).toNat = n := by
  rw [UInt16.toNat_ofNat', Nat.mod_eq_of_lt h]

theorem toNat_accumulated {x v : Nat} (hx : x < 64) (hv : v < 64) :
    ((UInt16.ofNat x <<< 6) + (UInt8.ofNat v).toUInt16).toNat = x * 64 + v := by
  have hx' : (UInt16.ofNat x).toNat = x := toNat_bits (by omega)
  have hv' : (UInt8.ofNat v).toNat = v := toNat_byte (by omega)
  rw [UInt16.toNat_add, UInt16.toNat_shiftLeft, UInt8.toNat_toUInt16, hx', hv',
    Nat.shiftLeft_eq]
  simp only [UInt16.reduceToNat, Nat.reduceMod, Nat.reducePow]
  omega

/-- A value on an empty accumulator. -/
theorem feed_empty {v : Nat} (result : List UInt8) (hv : v < 64) :
    feed ((0, 0), result) v = ((UInt16.ofNat v, 6), result) := by
  have hbits : ((0 : UInt16) <<< 6) + (UInt8.ofNat v).toUInt16 = UInt16.ofNat v := by
    rw [← UInt16.toNat_inj, toNat_bits (show v < 2 ^ 16 by omega)]
    exact (toNat_accumulated (show 0 < 64 by omega) hv).trans (by omega)
  exact congrArg (fun x => ((x, 6), result)) hbits

/-- A value on an accumulator with `k + 2` bits makes a byte, and leaves `k`. -/
theorem feed_byte {x v k : Nat} (result : List UInt8) (hx : x < 2 ^ (k + 2)) (hk : k ≤ 4)
    (hv : v < 64) : feed ((UInt16.ofNat x, k + 2), result) v =
      ((UInt16.ofNat ((x * 64 + v) % 2 ^ k), k),
        result ++ [UInt8.ofNat ((x * 64 + v) / 2 ^ k)]) := by
  have hx' : x < 64 := 
    Nat.lt_of_lt_of_le hx (Nat.pow_le_pow_right (show 0 < 2 by decide) (show k + 2 ≤ 6 by omega))
  have hpow : 2 ^ k ≤ 2 ^ 4 := Nat.pow_le_pow_right (by decide) hk
  have hbits := toNat_accumulated hx' hv
  rw [feed, consume]
  generalize hy : (UInt16.ofNat x <<< 6) + (UInt8.ofNat v).toUInt16 = y at hbits ⊢
  have hshift : (UInt16.ofNat k).toNat % 16 = k := by
    rw [toNat_bits (by omega), Nat.mod_eq_of_lt (by omega)]
  have hr : (y >>> UInt16.ofNat k).toNat = (x * 64 + v) / 2 ^ k := by
    rw [UInt16.toNat_shiftRight, hshift, Nat.shiftRight_eq_div_pow, hbits]
  have hle : (x * 64 + v) / 2 ^ k * 2 ^ k ≤ x * 64 + v := Nat.div_mul_le_self ..
  have hback : ((y >>> UInt16.ofNat k) <<< UInt16.ofNat k).toNat
      = (x * 64 + v) / 2 ^ k * 2 ^ k := by
    rw [UInt16.toNat_shiftLeft, hshift, Nat.shiftLeft_eq, hr, Nat.mod_eq_of_lt (by omega)]
  have hrest : y - ((y >>> UInt16.ofNat k) <<< UInt16.ofNat k)
      = UInt16.ofNat ((x * 64 + v) % 2 ^ k) := by
    have hmod : (x * 64 + v) % 2 ^ k ≤ x * 64 + v := Nat.mod_le ..
    rw [← UInt16.toNat_inj, UInt16.toNat_sub_of_le _ _ (UInt16.le_iff_toNat_le.mpr (by omega)),
      hback, hbits, toNat_bits (by omega), Nat.mod_eq_sub_div_mul]
  have hbyte : (y >>> UInt16.ofNat k).toUInt8 = UInt8.ofNat ((x * 64 + v) / 2 ^ k) := by
    rw [← UInt8.toNat_inj, UInt16.toNat_toUInt8, hr, UInt8.toNat_ofNat']
  rw [if_pos (show k + 2 + 6 ≥ 8 by omega)]
  simp only [show k + 2 + 6 - 8 = k by omega]
  rw [hrest, hbyte]

/-- Four values on an empty accumulator make three bytes, and leave it empty. -/
theorem foldl_feed {vs : List Nat} (h : ∀ v ∈ vs, v < 64) (result : List UInt8) :
    (vs.foldl feed ((0, 0), result)).2 = result ++ bytesOf vs := by
  -- By fours, as `bytesOf` goes: in between the accumulator holds 6, 4 and 2 bits.
  induction vs using bytesOf.induct generalizing result with
  | case1 a b c d vs ih =>
    obtain ⟨ha, hb, hc, hd, hvs⟩ : a < 64 ∧ b < 64 ∧ c < 64 ∧ d < 64 ∧ ∀ v ∈ vs, v < 64 := by
      simpa only [List.forall_mem_cons] using h
    have h2 : (a * 64 + b) % 2 ^ 4 < 2 ^ (2 + 2) := Nat.mod_lt _ (by decide)
    have h3 : ((a * 64 + b) % 2 ^ 4 * 64 + c) % 2 ^ 2 < 2 ^ (0 + 2) := Nat.mod_lt _ (by decide)
    rw [List.foldl_cons, List.foldl_cons, List.foldl_cons, List.foldl_cons, feed_empty _ ha,
      feed_byte (k := 4) _ ha (by omega) hb, feed_byte (k := 2) _ h2 (by omega) hc,
      feed_byte (k := 0) _ h3 (by omega) hd, Nat.pow_zero, Nat.mod_one]
    refine (ih hvs _).trans ?_
    rw [bytesOf, List.append_assoc, List.append_assoc, List.append_assoc]
    have hfirst : (a * 64 + b) / 2 ^ 4 = a * 4 + b / 16 := by omega
    have hsecond : ((a * 64 + b) % 2 ^ 4 * 64 + c) / 2 ^ 2 = b % 16 * 16 + c / 4 := by omega
    have hthird : (((a * 64 + b) % 2 ^ 4 * 64 + c) % 2 ^ 2 * 64 + d) / 1 = c % 4 * 64 + d := by
      omega
    rw [hfirst, hsecond, hthird]
    rfl
  | case2 a b c =>
    obtain ⟨ha, hb, hc, -⟩ : a < 64 ∧ b < 64 ∧ c < 64 ∧ True := by
      simpa using h
    have h2 : (a * 64 + b) % 2 ^ 4 < 2 ^ (2 + 2) := Nat.mod_lt _ (by decide)
    have hfirst : (a * 64 + b) / 2 ^ 4 = a * 4 + b / 16 := by omega
    have hsecond : ((a * 64 + b) % 2 ^ 4 * 64 + c) / 2 ^ 2 = b % 16 * 16 + c / 4 := by omega
    rw [List.foldl_cons, List.foldl_cons, List.foldl_cons, feed_empty _ ha,
      feed_byte (k := 4) _ ha (by omega) hb, feed_byte (k := 2) _ h2 (by omega) hc, hfirst,
      hsecond, bytesOf]
    exact List.append_assoc ..
  | case3 a b =>
    obtain ⟨ha, hb⟩ : a < 64 ∧ b < 64 := by simpa using h
    have hfirst : (a * 64 + b) / 2 ^ 4 = a * 4 + b / 16 := by omega
    rw [List.foldl_cons, List.foldl_cons, feed_empty _ ha, feed_byte (k := 4) _ ha (by omega) hb,
      hfirst, bytesOf]
    rfl
  | case4 a =>
    have ha : a < 64 := by simpa using h
    rw [List.foldl_cons, feed_empty _ ha]
    exact (List.append_nil _).symm
  | case5 => exact (List.append_nil _).symm

/-! ## The loops -/

/-- What the first loop has when it has read `data`. -/
def Reading.after (s : Reading) (data : List UInt8) : Reading :=
  let fed := ((chars data).map value).foldl feed (s.accumulator, s.result)
  { accumulator := fed.1
    result := fed.2
    offset := s.offset + data.length
    nchars := s.nchars + (chars data).length }

/-- Where the first loop stops. -/
def AtPadding (i : List UInt8) : Prop := ∀ c ∈ i.head?, isPad c

theorem atPadding_nil : AtPadding [] := fun _ hc => nomatch hc

theorem chars_space {c : UInt8} (h : isSpace c = true) (data : List UInt8) :
    chars (c :: data) = chars data :=
  List.filter_cons_of_neg (by rw [h]; decide)

theorem chars_digit {v : Nat} (h : v < 64) (data : List UInt8) :
    chars (digit v :: data) = digit v :: chars data :=
  List.filter_cons_of_pos (by rw [isSpace_digit h]; rfl)

theorem after_space {c : UInt8} (h : isSpace c = true) (s : Reading) (data : List UInt8) :
    s.after (c :: data) = Reading.after { s with offset := s.offset + 1 } data := by
  rw [Reading.after, Reading.after, chars_space h, List.length_cons]
  simp only [Nat.add_assoc, Nat.add_comm 1]

theorem after_digit {v : Nat} (h : v < 64) (s : Reading) (data : List UInt8) :
    s.after (digit v :: data) = Reading.after {
      accumulator := (feed (s.accumulator, s.result) v).1
      result := (feed (s.accumulator, s.result) v).2
      offset := s.offset + 1
      nchars := s.nchars + 1 } data := by
  rw [Reading.after, Reading.after, chars_digit h, List.length_cons, List.length_cons,
    List.map_cons, List.foldl_cons, value_digit h]
  simp only [Nat.add_assoc, Nat.add_comm 1]

/-- One digit in the first loop. -/
theorem readChars_digit {v : Nat} (h : v < 64) (i : List UInt8) (s : Reading) :
    readChars (digit v :: i) s = readChars i {
      accumulator := (feed (s.accumulator, s.result) v).1
      result := (feed (s.accumulator, s.result) v).2
      offset := s.offset + 1
      nchars := s.nchars + 1 } := by
  have hbits : accumulate s.accumulator (digit v) = .ok
      ((s.accumulator.1 <<< 6) + (UInt8.ofNat v).toUInt16, s.accumulator.2 + 6) := by
    rw [accumulate, valueOf_digit h]
    rfl
  rw [readChars, isPad_digit h, isSpace_digit h, hbits]
  rfl

/-- The first loop reads digits and white space. -/
theorem readChars_append {data i : List UInt8} (hdata : ∀ c ∈ chars data, ∃ v < 64, c = digit v)
    (hi : AtPadding i) (s : Reading) : readChars (data ++ i) s = .ok (s.after data, i) := by
  induction data generalizing s with
  | nil =>
    cases i with
    | nil => rfl
    | cons c i =>
      have hpad : isPad c = true := hi c rfl
      rw [List.nil_append, readChars, if_pos hpad]
      rfl
  | cons c data ih =>
    by_cases hspace : isSpace c = true
    · rw [chars_space hspace] at hdata
      have hpad : ¬ isPad c = true := fun hpad => by
        rw [isPad, decide_eq_true_eq] at hpad
        rw [hpad] at hspace
        exact absurd hspace (by decide)
      rw [List.cons_append, readChars, if_neg hpad, if_pos hspace, ih hdata, after_space hspace]
    · obtain ⟨v, hv, rfl⟩ := hdata c (List.mem_filter.mpr ⟨List.mem_cons_self, by
        rw [Bool.not_eq_true] at hspace
        rw [hspace]
        rfl⟩)
      rw [chars_digit hv, List.forall_mem_cons] at hdata
      rw [List.cons_append, readChars_digit hv, ih hdata.2, after_digit hv]

/-- The first loop reads nothing else. -/
theorem eq_append_of_readChars {text i : List UInt8} {s t : Reading}
    (h : readChars text s = .ok (t, i)) : ∃ data, text = data ++ i ∧
      (∀ c ∈ chars data, ∃ v < 64, c = digit v) ∧ AtPadding i ∧ t = s.after data := by
  induction text generalizing s with
  | nil =>
    cases h
    exact ⟨[], rfl, fun _ hc => absurd hc List.not_mem_nil, atPadding_nil, rfl⟩
  | cons c text ih =>
    by_cases hpad : isPad c = true
    · rw [readChars, if_pos hpad] at h
      cases h
      refine ⟨[], rfl, fun _ hc => absurd hc List.not_mem_nil, fun c' hc' => ?_, rfl⟩
      rwa [← Option.some.inj hc']
    by_cases hspace : isSpace c = true
    · rw [readChars, if_neg hpad, if_pos hspace] at h
      obtain ⟨data, rfl, hdata, hi, rfl⟩ := ih h
      refine ⟨c :: data, rfl, ?_, hi, (after_space hspace s data).symm⟩
      rwa [chars_space hspace]
    rcases digit_of_valueOf c with ⟨v, hv, rfl⟩ | hinvalid
    · rw [readChars_digit hv] at h
      obtain ⟨data, rfl, hdata, hi, rfl⟩ := ih h
      refine ⟨digit v :: data, rfl, ?_, hi, (after_digit hv s data).symm⟩
      rw [chars_digit hv, List.forall_mem_cons]
      exact ⟨⟨v, hv, rfl⟩, hdata⟩
    · have herror : accumulate s.accumulator c = .error (.invalidChar c) := by
        rw [accumulate, hinvalid]
        rfl
      rw [readChars, if_neg hpad, if_neg hspace, herror] at h
      cases h

/-- The second loop reads its padding characters. -/
theorem readPadding_eq_ok {m n p offset offset' : Nat} {i rest : List UInt8} :
    readPadding m n p i offset = .ok (rest, offset') ↔
      i = List.replicate n 0x3d ++ rest ∧ offset' = offset + n := by
  induction n generalizing p i offset with
  | zero =>
    rw [readPadding, Except.ok.injEq, Prod.mk.injEq]
    exact ⟨fun ⟨hi, hoffset⟩ => ⟨hi, hoffset.symm⟩, fun ⟨hi, hoffset⟩ => ⟨hi, hoffset.symm⟩⟩
  | succ n ih =>
    cases i with
    | nil => exact ⟨(nomatch ·), (nomatch ·.1)⟩
    | cons c i =>
      by_cases hpad : c = 0x3d
      · rw [readPadding, if_pos (show isPad c = true from decide_eq_true hpad), ih, hpad, List.replicate_succ,
          List.cons_append, List.cons.injEq, Nat.add_assoc, Nat.add_comm 1 n]
        exact ⟨fun ⟨hi, hoffset⟩ => ⟨⟨rfl, hi⟩, hoffset⟩, fun ⟨hi, hoffset⟩ => ⟨hi.2, hoffset⟩⟩
      · rw [readPadding, if_neg (by rw [isPad, decide_eq_true_eq]; exact hpad)]
        refine ⟨(nomatch ·), fun ⟨hi, _⟩ => absurd (List.cons.inj hi).1 hpad⟩

theorem atPadding_padding (n : Nat) : AtPadding (padding n) := by
  intro c hc
  obtain ⟨-, rfl⟩ := List.mem_replicate.mp (List.mem_of_mem_head? hc)
  rfl

theorem values_lt {data : List UInt8} (h : ∀ c ∈ data, ∃ v < 64, c = digit v) :
    ∀ v ∈ data.map value, v < 64 := by
  intro v hv
  obtain ⟨c, hc, rfl⟩ := List.mem_map.mp hv
  obtain ⟨v, hlt, rfl⟩ := h c hc
  rwa [value_digit hlt]

/-- Behind the first loop there is the padding, and nothing else. -/
theorem decode_of_readChars {text bytes i : List UInt8} {s : Reading}
    (h : readChars text {} = .ok (s, i)) :
    decode text = .ok bytes ↔ i = padding s.nchars ∧ bytes = s.result := by
  rw [decode, h]
  change (readPadding (remainingPadding s.nchars) (remainingPadding s.nchars) 1 i s.offset >>= _) = _
    ↔ _
  rcases hread : readPadding (remainingPadding s.nchars) (remainingPadding s.nchars) 1 i s.offset
    with e | ⟨rest, offset⟩
  · refine ⟨(nomatch ·), fun ⟨hi, _⟩ => ?_⟩
    rw [readPadding_eq_ok.mpr ⟨hi.trans (List.append_nil _).symm, rfl⟩] at hread
    cases hread
  · obtain ⟨hi, -⟩ := readPadding_eq_ok.mp hread
    change (if rest ≠ [] then _ else _) = _ ↔ _
    by_cases hrest : rest = []
    · rw [if_neg (not_not_intro hrest), Except.ok.injEq]
      rw [hrest, List.append_nil] at hi
      exact ⟨fun hbytes => ⟨hi, hbytes.symm⟩, fun ⟨_, hbytes⟩ => hbytes.symm⟩
    · rw [if_pos hrest]
      refine ⟨(nomatch ·), fun ⟨hpadding, _⟩ => absurd ?_ hrest⟩
      exact List.append_cancel_left (hi.symm.trans (hpadding.trans (List.append_nil _).symm))

/-- What `decode` takes, and what it makes of it. -/
theorem decode_eq_ok {text bytes : List UInt8} : decode text = .ok bytes ↔ Taken text bytes := by
  refine ⟨fun h => ?_, ?_⟩
  · rcases hread : readChars text {} with e | ⟨s, i⟩
    · rw [decode, hread] at h
      cases h
    obtain ⟨hi, hbytes⟩ := (decode_of_readChars hread).mp h
    obtain ⟨data, rfl, hdata, -, rfl⟩ := eq_append_of_readChars hread
    refine ⟨data, ?_, hdata, hbytes.trans (foldl_feed (values_lt hdata) [])⟩
    rw [hi]
    simp only [Reading.after, Nat.zero_add]
  · rintro ⟨data, rfl, hdata, rfl⟩
    have hread := readChars_append hdata (atPadding_padding (chars data).length) {}
    refine (decode_of_readChars hread).mpr ⟨?_, (foldl_feed (values_lt hdata) []).symm⟩
    simp only [Reading.after, Nat.zero_add]

/-! ## Bytes and their digits -/

theorem digit_lt (bytes : List UInt8) : ∀ c ∈ digits bytes, ∃ v < 64, c = digit v := by
  induction bytes using digits.induct with
  | case1 a b c bytes ih =>
    have ha := a.toNat_lt
    have hb := b.toNat_lt
    have hc := c.toNat_lt
    simp only [digits, List.forall_mem_cons]
    exact ⟨⟨_, by omega, rfl⟩, ⟨_, by omega, rfl⟩, ⟨_, by omega, rfl⟩, ⟨_, by omega, rfl⟩, ih⟩
  | case2 a b =>
    have ha := a.toNat_lt
    have hb := b.toNat_lt
    simp only [digits, List.forall_mem_cons]
    exact ⟨⟨_, by omega, rfl⟩, ⟨_, by omega, rfl⟩, ⟨_, by omega, rfl⟩, fun _ h => nomatch h⟩
  | case3 a =>
    have ha := a.toNat_lt
    simp only [digits, List.forall_mem_cons]
    exact ⟨⟨_, by omega, rfl⟩, ⟨_, by omega, rfl⟩, fun _ h => nomatch h⟩
  | case4 => exact fun _ h => nomatch h

theorem ofNat_eq {b : UInt8} {n : Nat} (h : n = b.toNat) : UInt8.ofNat n = b := by
  rw [h, UInt8.ofNat_toNat]

/-- The digits of bytes make those bytes, in whole groups and with no bits left over. -/
theorem bytesOf_digits (bytes : List UInt8) :
    bytesOf ((digits bytes).map value) = bytes ∧ (digits bytes).length % 4 ≠ 1 ∧
      leftOver ((digits bytes).map value) = 0 := by
  induction bytes using digits.induct with
  | case1 a b c bytes ih =>
    have ha := a.toNat_lt
    have hb := b.toNat_lt
    have hc := c.toNat_lt
    obtain ⟨hbytes, hlength, hleft⟩ := ih
    simp only [digits, List.map_cons, value_digit (show a.toNat / 4 < 64 by omega),
      value_digit (show a.toNat % 4 * 16 + b.toNat / 16 < 64 by omega),
      value_digit (show b.toNat % 16 * 4 + c.toNat / 64 < 64 by omega),
      value_digit (show c.toNat % 64 < 64 by omega), bytesOf, leftOver, hbytes]
    rw [ofNat_eq (b := a) (by omega), ofNat_eq (b := b) (by omega), ofNat_eq (b := c) (by omega)]
    refine ⟨rfl, ?_, hleft⟩
    simp only [List.length_cons]
    omega
  | case2 a b =>
    have ha := a.toNat_lt
    have hb := b.toNat_lt
    simp only [digits, List.map_cons, List.map_nil, value_digit (show a.toNat / 4 < 64 by omega),
      value_digit (show a.toNat % 4 * 16 + b.toNat / 16 < 64 by omega),
      value_digit (show b.toNat % 16 * 4 < 64 by omega), bytesOf, leftOver]
    rw [ofNat_eq (b := a) (by omega), ofNat_eq (b := b) (by omega)]
    exact ⟨rfl, show 3 % 4 ≠ 1 by decide, by omega⟩
  | case3 a =>
    have ha := a.toNat_lt
    simp only [digits, List.map_cons, List.map_nil, value_digit (show a.toNat / 4 < 64 by omega),
      value_digit (show a.toNat % 4 * 16 < 64 by omega), bytesOf, leftOver]
    rw [ofNat_eq (b := a) (by omega)]
    exact ⟨rfl, show 2 % 4 ≠ 1 by decide, by omega⟩
  | case4 => exact ⟨rfl, by decide, rfl⟩

/-- Values in whole groups and with no bits left over have the digits of their bytes. -/
theorem digits_bytesOf {vs : List Nat} (h : ∀ v ∈ vs, v < 64) (hlength : vs.length % 4 ≠ 1)
    (hleft : leftOver vs = 0) : digits (bytesOf vs) = vs.map digit := by
  induction vs using bytesOf.induct with
  | case1 a b c d vs ih =>
    obtain ⟨ha, hb, hc, hd, hvs⟩ : a < 64 ∧ b < 64 ∧ c < 64 ∧ d < 64 ∧ ∀ v ∈ vs, v < 64 := by
      simpa only [List.forall_mem_cons] using h
    have hlength' : vs.length % 4 ≠ 1 := by
      simp only [List.length_cons] at hlength
      omega
    have hfirst := toNat_byte (show a * 4 + b / 16 < 256 by omega)
    have hsecond := toNat_byte (show b % 16 * 16 + c / 4 < 256 by omega)
    have hthird := toNat_byte (show c % 4 * 64 + d < 256 by omega)
    have h1 : (a * 4 + b / 16) / 4 = a := by omega
    have h2 : (a * 4 + b / 16) % 4 * 16 + (b % 16 * 16 + c / 4) / 16 = b := by omega
    have h3 : (b % 16 * 16 + c / 4) % 16 * 4 + (c % 4 * 64 + d) / 64 = c := by omega
    have h4 : (c % 4 * 64 + d) % 64 = d := by omega
    rw [bytesOf, digits, hfirst, hsecond, hthird, h1, h2, h3, h4, ih hvs hlength' hleft]
    rfl
  | case2 a b c =>
    obtain ⟨ha, hb, hc⟩ : a < 64 ∧ b < 64 ∧ c < 64 := by simpa using h
    have hc' : c % 4 = 0 := hleft
    have hfirst := toNat_byte (show a * 4 + b / 16 < 256 by omega)
    have hsecond := toNat_byte (show b % 16 * 16 + c / 4 < 256 by omega)
    have h1 : (a * 4 + b / 16) / 4 = a := by omega
    have h2 : (a * 4 + b / 16) % 4 * 16 + (b % 16 * 16 + c / 4) / 16 = b := by omega
    have h3 : (b % 16 * 16 + c / 4) % 16 * 4 = c := by omega
    rw [bytesOf, digits, hfirst, hsecond, h1, h2, h3]
    rfl
  | case3 a b =>
    obtain ⟨ha, hb⟩ : a < 64 ∧ b < 64 := by simpa using h
    have hb' : b % 16 = 0 := hleft
    have hfirst := toNat_byte (show a * 4 + b / 16 < 256 by omega)
    have h1 : (a * 4 + b / 16) / 4 = a := by omega
    have h2 : (a * 4 + b / 16) % 4 * 16 = b := by omega
    rw [bytesOf, digits, hfirst, h1, h2]
    rfl
  | case4 a => exact absurd rfl hlength
  | case5 => rfl

/-! ## What is read -/

theorem chars_padding (n : Nat) : chars (padding n) = padding n := by
  refine List.filter_eq_self.mpr fun c hc => ?_
  obtain ⟨-, rfl⟩ := List.mem_replicate.mp hc
  rfl

/-- The values of a text are those of the digits in front of its padding. -/
theorem valuesOf_append {data : List UInt8} (h : ∀ c ∈ chars data, ∃ v < 64, c = digit v) (n : Nat) :
    valuesOf (data ++ padding n) = (chars data).map value := by
  have hdata : (chars data).filter (! isPad ·) = chars data := by
    refine List.filter_eq_self.mpr fun c hc => ?_
    obtain ⟨v, hv, rfl⟩ := h c hc
    rw [isPad_digit hv]
    rfl
  have hpadding : (padding n).filter (! isPad ·) = [] := by
    refine List.filter_eq_nil_iff.mpr fun c hc => ?_
    obtain ⟨-, rfl⟩ := List.mem_replicate.mp hc
    decide
  have hchars : chars (data ++ padding n) = chars data ++ padding n := by
    rw [chars, List.filter_append, ← chars, ← chars, chars_padding]
  rw [valuesOf, hchars, List.filter_append, hdata, hpadding, List.append_nil]

/-- Text that encodes bytes is taken for them. -/
theorem Spaced.taken {bytes text : List UInt8} (h : Spaced bytes text) : Taken text bytes := by
  obtain ⟨data, rfl, hchars⟩ := h
  refine ⟨data, by rw [hchars], ?_, ?_⟩
  · rw [hchars]
    exact digit_lt bytes
  · rw [hchars]
    exact (bytesOf_digits bytes).1.symm

theorem Spaced.canonical {bytes text : List UInt8} (h : Spaced bytes text) : Canonical text := by
  obtain ⟨data, rfl, hchars⟩ := h
  rw [Canonical, valuesOf_append (hchars ▸ digit_lt bytes), hchars, List.length_map]
  exact (bytesOf_digits bytes).2

/-- Text that is taken for bytes encodes them, if it has no lone character and no bits
left over. -/
theorem Taken.spaced {bytes text : List UInt8} (h : Taken text bytes) (hcanonical : Canonical text) :
    Spaced bytes text := by
  obtain ⟨data, rfl, hdata, rfl⟩ := h
  rw [Canonical, valuesOf_append hdata] at hcanonical
  have hdigits := digits_bytesOf (values_lt hdata) hcanonical.1 hcanonical.2
  have hchars : ((chars data).map value).map digit = chars data := by
    rw [List.map_map]
    refine (List.map_congr_left fun c hc => ?_).trans (List.map_id _)
    obtain ⟨v, hv, rfl⟩ := hdata c hc
    exact congrArg digit (value_digit hv)
  rw [hchars] at hdigits
  exact ⟨data, by rw [hdigits], hdigits.symm⟩

/-- The encoding of any bytes is decoded to them, with white space anywhere up to its
padding. What is decoded is data characters with white space anywhere among them, and behind
them the padding for that many; that is such an encoding if there is no lone character in
the last group, and no bit is left over. -/
theorem decode_exact :
    (∀ bytes text, Spaced bytes text → decode text = .ok bytes) ∧
    (∀ text bytes, decode text = .ok bytes ↔ Taken text bytes) ∧
    ∀ text bytes, decode text = .ok bytes ∧ Canonical text ↔ Spaced bytes text :=
  ⟨fun _ _ h => decode_eq_ok.mpr h.taken, fun _ _ => decode_eq_ok,
    fun _ _ => ⟨fun ⟨h, hcanonical⟩ => (decode_eq_ok.mp h).spaced hcanonical,
      fun h => ⟨decode_eq_ok.mpr h.taken, h.canonical⟩⟩⟩

/-- White space inside the padding is refused, and a lone character is not. -/
theorem not_decode_exact :
    ¬ (∀ bytes text, chars text = encode bytes → decode text = .ok bytes) ∧
    ¬ ∀ text bytes, decode text = .ok bytes → chars text = encode bytes := by
  refine ⟨fun h => ?_, fun h => ?_⟩
  · -- "Zg= ="
    have hdecode := h [0x66] [0x5a, 0x67, 0x3d, 0x20, 0x3d] (by decide +kernel)
    exact absurd hdecode (by decide +kernel)
  · -- "A==="
    have hchars := h [0x41, 0x3d, 0x3d, 0x3d] [] (by decide +kernel)
    exact absurd hchars (by decide +kernel)

end Urnest.Base64
