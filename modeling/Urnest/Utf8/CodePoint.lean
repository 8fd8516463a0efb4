import Mathlib

/-!
# Code points in UTF-8

`encodeCodePoint` and `decodeCodePoint` are translated on the bits that they shift and
mask. `utf8` is the encoding as RFC 3629 has it, by division: it is what the encoder
writes (`encodeCodePoint_eq_ok`), and the decoder reads it back (`decodeCodePoint_encode`).

The decoder reads more than that. Nothing in it asks whether a value needs as many bytes
as it came in, so it also takes the `Overlong` forms, and nothing else
(`readsUtf8_iff`).
-/

namespace Urnest.Utf8

/-- What the functions throw. -/
inductive Exception where
  /-- an iterator at the end of the input -/
  | endOfInput
  /-- a byte without the bit pattern 10xxxxxx -/
  | notTrailing (byte : UInt8) (byteOfChar bytesInChar : Nat)
  | invalidFirst (byte : UInt8)
  /-- beyond the last code point -/
  | tooLarge (codePoint : UInt32)
  | surrogate (codePoint : UInt32)
  deriving DecidableEq, Repr

abbrev Result := Except Exception

/-! ## Encoding -/

/-- `(char)x` -/
def char (x : UInt32) : UInt8 := x.toUInt8

/-- `encodeCodePoint` -/
def encodeCodePoint (x : UInt32) : Result (List UInt8) :=
  if 0xd800 ≤ x ∧ x ≤ 0xdfff then .error (.surrogate x)
  else if x ≤ 0x7f then .ok [char x]
  else if x ≤ 0x7ff then .ok [char ((0xc0 : UInt32) + (x >>> 6)), char ((0x80 : UInt32) + (x &&& 0x3f))]
  else if x ≤ 0xffff then
    .ok [char ((0xe0 : UInt32) + (x >>> 12)), char ((0x80 : UInt32) + ((x >>> 6) &&& 0x3f)),
      char ((0x80 : UInt32) + ((x >>> 0) &&& 0x3f))]
  else if x ≤ 0x10ffff then
    .ok [char ((0xf0 : UInt32) + (x >>> 18)), char ((0x80 : UInt32) + ((x >>> 12) &&& 0x3f)),
      char ((0x80 : UInt32) + ((x >>> 6) &&& 0x3f)), char ((0x80 : UInt32) + ((x >>> 0) &&& 0x3f))]
  else .error (.tooLarge x)

/-! ## Decoding -/

/-- `*i`, where `i` is what is left of the input. -/
def deref : List UInt8 → Result UInt8
  | [] => .error .endOfInput
  | b :: _ => .ok b

/-- `++i`, so many times. -/
def forward : Nat → List UInt8 → Result (List UInt8)
  | 0, i => .ok i
  | _ + 1, [] => .error .endOfInput
  | n + 1, _ :: i => forward n i

/-- `decodeTrailingByte` -/
def decodeTrailingByte (i : List UInt8) (bytesInChar byteOfChar : Nat) : Result UInt32 := do
  let c ← forward (byteOfChar - 1) i >>= deref
  if c >>> 6 ≠ 2 then .error (.notTrailing c byteOfChar bytesInChar)
  else .ok (c &&& 0x3f).toUInt32

/-- The code point by the bits of the first byte, and what is left behind it. -/
def decodeBits (i : List UInt8) (c : UInt32) : Result (UInt32 × List UInt8) :=
  if c >>> 5 = 6 then do
    let b₂ ← decodeTrailingByte i 2 2
    let rest ← forward 2 i
    .ok (((c &&& 0x1f) <<< 6) + b₂, rest)
  else if c >>> 4 = 0x0e then do
    let b₂ ← decodeTrailingByte i 3 2
    let b₃ ← decodeTrailingByte i 3 3
    let rest ← forward 3 i
    .ok (((c &&& 0x0f) <<< 12) + (b₂ <<< 6) + b₃, rest)
  else if c >>> 3 = 0x1e then do
    let b₂ ← decodeTrailingByte i 4 2
    let b₃ ← decodeTrailingByte i 4 3
    let b₄ ← decodeTrailingByte i 4 4
    let rest ← forward 4 i
    .ok (((c &&& 0x07) <<< 18) + (b₂ <<< 12) + (b₃ <<< 6) + b₄, rest)
  else if c >>> 3 = 0x1f then .error (.invalidFirst c.toUInt8)
  else if c >>> 6 = 2 then .error (.invalidFirst c.toUInt8)
  else .ok (c, i)

/-- `decodeCodePoint` -/
def decodeCodePoint (i : List UInt8) : Result (UInt32 × List UInt8) := do
  let first ← deref i
  let c := first.toUInt32
  if c >>> 7 = 0 then do
    let rest ← forward 1 i
    .ok (c, rest)
  else do
    let (c, rest) ← decodeBits i c
    if c > 0x10ffff then .error (.tooLarge c)
    else if 0xd800 ≤ c ∧ c ≤ 0xdfff then .error (.surrogate c)
    else .ok (c, rest)

/-! ## The format -/

/-- A Unicode scalar value. -/
def Scalar (n : Nat) : Prop := n ≤ 0x10ffff ∧ ¬ (0xd800 ≤ n ∧ n ≤ 0xdfff)

/-- Trailing byte number `k` from the end. -/
def trailing (n k : Nat) : UInt8 := UInt8.ofNat (0x80 + n / 64 ^ k % 64)

/-- The bytes of a scalar value. -/
def utf8 (n : Nat) : List UInt8 :=
  if n < 0x80 then [UInt8.ofNat n]
  else if n < 0x800 then [UInt8.ofNat (0xc0 + n / 64 ^ 1), trailing n 0]
  else if n < 0x10000 then [UInt8.ofNat (0xe0 + n / 64 ^ 2), trailing n 1, trailing n 0]
  else [UInt8.ofNat (0xf0 + n / 64 ^ 3), trailing n 2, trailing n 1, trailing n 0]

def IsTrailing (b : UInt8) : Prop := 0x80 ≤ b ∧ b ≤ 0xbf

instance : DecidablePred IsTrailing := fun _ => instDecidableAnd

/-- A sequence of more bytes than its value needs. The last condition is for the four
bytes of a surrogate, which are refused for that. -/
inductive Overlong : List UInt8 → Prop where
  | two {b₁ b₂ : UInt8} {rest : List UInt8} : b₁ = 0xc0 ∨ b₁ = 0xc1 → IsTrailing b₂ →
    Overlong (b₁ :: b₂ :: rest)
  | three {b₂ b₃ : UInt8} {rest : List UInt8} : IsTrailing b₂ → b₂ ≤ 0x9f → IsTrailing b₃ →
    Overlong (0xe0 :: b₂ :: b₃ :: rest)
  | four {b₂ b₃ b₄ : UInt8} {rest : List UInt8} : IsTrailing b₂ → b₂ ≤ 0x8f → IsTrailing b₃ →
    IsTrailing b₄ → ¬ (b₂ = 0x8d ∧ 0xa0 ≤ b₃) → Overlong (0xf0 :: b₂ :: b₃ :: b₄ :: rest)

/-! ## Bits and numbers -/

theorem toNat_low (x : UInt32) : (x &&& 0x3f).toNat = x.toNat % 64 := by
  rw [UInt32.toNat_and]
  exact Nat.and_two_pow_sub_one_eq_mod x.toNat 6

theorem char_eq {x : UInt32} {n : Nat} (h : x.toNat = n) : char x = UInt8.ofNat n := by
  rw [← UInt8.toNat_inj, char, UInt32.toNat_toUInt8, h, UInt8.toNat_ofNat']

/-- A shifted value under the mark of its byte. -/
theorem char_first {x y : UInt32} {k : Nat} (m : UInt32) (hy : y.toNat = x.toNat / 64 ^ k)
    (hm : m.toNat < 0x100) (hx : x.toNat < 2 ^ 21) :
    char (m + y) = UInt8.ofNat (m.toNat + x.toNat / 64 ^ k) := by
  refine char_eq ?_
  have hle : x.toNat / 64 ^ k ≤ x.toNat := Nat.div_le_self ..
  rw [UInt32.toNat_add, hy]
  omega

theorem char_trailing {x y : UInt32} {k : Nat} (hy : y.toNat = x.toNat / 64 ^ k) :
    char (0x80 + (y &&& 0x3f)) = trailing x.toNat k := by
  refine char_eq ?_
  rw [UInt32.toNat_add, toNat_low, hy]
  simp only [UInt32.reduceToNat]
  omega

theorem toNat_shift6 (x : UInt32) : (x >>> 6).toNat = x.toNat / 64 ^ 1 := by
  simp [Nat.shiftRight_eq_div_pow]

theorem toNat_shift12 (x : UInt32) : (x >>> 12).toNat = x.toNat / 64 ^ 2 := by
  simp [Nat.shiftRight_eq_div_pow]

theorem toNat_shift18 (x : UInt32) : (x >>> 18).toNat = x.toNat / 64 ^ 3 := by
  simp [Nat.shiftRight_eq_div_pow]

theorem toNat_shift0 (x : UInt32) : (x >>> 0).toNat = x.toNat / 64 ^ 0 := by simp

theorem scalar_iff {x : UInt32} : Scalar x.toNat ↔
    x ≤ 0x10ffff ∧ ¬ (0xd800 ≤ x ∧ x ≤ 0xdfff) := by
  rw [Scalar, UInt32.le_iff_toNat_le, UInt32.le_iff_toNat_le, UInt32.le_iff_toNat_le]
  rfl

/-- The encoder writes the bytes of scalar values. -/
theorem encodeCodePoint_of_scalar {x : UInt32} (h : Scalar x.toNat) :
    encodeCodePoint x = .ok (utf8 x.toNat) := by
  obtain ⟨hlast, hsurrogate⟩ := h
  rw [encodeCodePoint, if_neg (scalar_iff.mp ⟨hlast, hsurrogate⟩).2, utf8]
  simp only [UInt32.le_iff_toNat_le, UInt32.reduceToNat]
  have hx : x.toNat < 2 ^ 21 := by omega
  have hlow : char ((0x80 : UInt32) + (x &&& 0x3f)) = trailing x.toNat 0 :=
    char_trailing (show x.toNat = x.toNat / 64 ^ 0 by simp)
  have hlow' : char ((0x80 : UInt32) + ((x >>> 0) &&& 0x3f)) = trailing x.toNat 0 :=
    char_trailing (toNat_shift0 x)
  by_cases h1 : x.toNat < 0x80
  · rw [if_pos (by omega), if_pos h1, char_eq rfl]
  rw [if_neg (by omega), if_neg h1]
  by_cases h2 : x.toNat < 0x800
  · have hfirst := char_first 0xc0 (toNat_shift6 x) (by decide) hx
    rw [if_pos (by omega), if_pos h2, hlow, hfirst]
    rfl
  rw [if_neg (by omega), if_neg h2]
  by_cases h3 : x.toNat < 0x10000
  · have hfirst := char_first 0xe0 (toNat_shift12 x) (by decide) hx
    rw [if_pos (by omega), if_pos h3, hlow', char_trailing (toNat_shift6 x), hfirst]
    rfl
  · have hfirst := char_first 0xf0 (toNat_shift18 x) (by decide) hx
    rw [if_neg (by omega), if_neg h3, if_pos hlast, hlow', char_trailing (toNat_shift6 x),
      char_trailing (toNat_shift12 x), hfirst]
    rfl

/-- The encoder writes the bytes of scalar values, and no others. -/
theorem encodeCodePoint_eq_ok {x : UInt32} {bytes : List UInt8} :
    encodeCodePoint x = .ok bytes ↔ Scalar x.toNat ∧ bytes = utf8 x.toNat := by
  refine ⟨fun h => ?_, fun ⟨hscalar, hbytes⟩ => hbytes ▸ encodeCodePoint_of_scalar hscalar⟩
  have hscalar : Scalar x.toNat := by
    by_contra hnot
    rw [encodeCodePoint] at h
    rw [scalar_iff] at hnot
    split_ifs at h <;> simp_all [UInt32.le_iff_toNat_le] <;> omega
  rw [encodeCodePoint_of_scalar hscalar] at h
  exact ⟨hscalar, (Except.ok.inj h).symm⟩

/-! ## What the decoder reads -/

/-- A sequence of bytes with a value, however many it needs, and what is behind it. -/
inductive Reads : List UInt8 → Nat → List UInt8 → Prop where
  | one {b : UInt8} {rest : List UInt8} : b < 0x80 → Reads (b :: rest) b.toNat rest
  | two {b₁ b₂ : UInt8} {rest : List UInt8} : 0xc0 ≤ b₁ → b₁ ≤ 0xdf → IsTrailing b₂ →
    Reads (b₁ :: b₂ :: rest) (b₁.toNat % 32 * 64 + b₂.toNat % 64) rest
  | three {b₁ b₂ b₃ : UInt8} {rest : List UInt8} : 0xe0 ≤ b₁ → b₁ ≤ 0xef → IsTrailing b₂ →
    IsTrailing b₃ → Reads (b₁ :: b₂ :: b₃ :: rest)
      (b₁.toNat % 16 * 4096 + b₂.toNat % 64 * 64 + b₃.toNat % 64) rest
  | four {b₁ b₂ b₃ b₄ : UInt8} {rest : List UInt8} : 0xf0 ≤ b₁ → b₁ ≤ 0xf7 → IsTrailing b₂ →
    IsTrailing b₃ → IsTrailing b₄ → Reads (b₁ :: b₂ :: b₃ :: b₄ :: rest)
      (b₁.toNat % 8 * 262144 + b₂.toNat % 64 * 4096 + b₃.toNat % 64 * 64 + b₄.toNat % 64) rest

theorem shift_eq_iff {b : UInt8} (k m : UInt32) : b.toUInt32 >>> k = m ↔
    b.toNat / 2 ^ (k.toNat % 32) = m.toNat := by
  rw [← UInt32.toNat_inj, UInt32.toNat_shiftRight, UInt8.toNat_toUInt32,
    Nat.shiftRight_eq_div_pow]

theorem shift6_ne_iff {b : UInt8} : b >>> 6 ≠ 2 ↔ ¬ IsTrailing b := by
  rw [IsTrailing, UInt8.le_iff_toNat_le, UInt8.le_iff_toNat_le, ne_eq, ← UInt8.toNat_inj,
    UInt8.toNat_shiftRight, Nat.shiftRight_eq_div_pow]
  simp only [UInt8.reduceToNat, Nat.reduceMod, Nat.reducePow]
  omega

theorem decodeTrailingByte_eq {i rest : List UInt8} {b : UInt8} {n : Nat} (m : Nat)
    (h : forward (n - 1) i = .ok (b :: rest)) : decodeTrailingByte i m n =
      if IsTrailing b then .ok (b &&& 0x3f).toUInt32 else .error (.notTrailing b n m) := by
  have hbyte : (forward (n - 1) i >>= deref) = .ok b := by rw [h]; rfl
  rw [decodeTrailingByte, hbyte]
  change (if b >>> 6 ≠ 2 then _ else _) = _
  by_cases htrailing : IsTrailing b
  · rw [if_neg (fun hne => shift6_ne_iff.mp hne htrailing), if_pos htrailing]
  · rw [if_pos (shift6_ne_iff.mpr htrailing), if_neg htrailing]

theorem toNat_trailing (b : UInt8) : (b &&& 0x3f).toUInt32.toNat = b.toNat % 64 := by
  rw [UInt8.toNat_toUInt32, UInt8.toNat_and]
  exact Nat.and_two_pow_sub_one_eq_mod b.toNat 6

theorem toNat_masked {b : UInt8} {m : UInt32} (k : Nat) (hm : m.toNat = 2 ^ k - 1) :
    (b.toUInt32 &&& m).toNat = b.toNat % 2 ^ k := by
  rw [UInt32.toNat_and, hm, UInt8.toNat_toUInt32]
  exact Nat.and_two_pow_sub_one_eq_mod b.toNat k

theorem toNat_shifted {x k : UInt32} {n : Nat} (hx : x.toNat * 2 ^ (k.toNat % 32) = n)
    (hn : n < 2 ^ 32) : (x <<< k).toNat = n := by
  rw [UInt32.toNat_shiftLeft, Nat.shiftLeft_eq, hx, Nat.mod_eq_of_lt hn]

/-- The values that the bits of two, three and four bytes make. -/
theorem toNat_two (b₁ b₂ : UInt8) :
    (((b₁.toUInt32 &&& 0x1f) <<< 6) + (b₂ &&& 0x3f).toUInt32).toNat
      = b₁.toNat % 32 * 64 + b₂.toNat % 64 := by
  have hfirst : ((b₁.toUInt32 &&& 0x1f) <<< 6).toNat = b₁.toNat % 32 * 64 :=
    toNat_shifted (by rw [toNat_masked 5 rfl]; rfl) (by omega)
  rw [UInt32.toNat_add, hfirst, toNat_trailing]
  omega

theorem toNat_three (b₁ b₂ b₃ : UInt8) :
    (((b₁.toUInt32 &&& 0x0f) <<< 12) + ((b₂ &&& 0x3f).toUInt32 <<< 6)
      + (b₃ &&& 0x3f).toUInt32).toNat
      = b₁.toNat % 16 * 4096 + b₂.toNat % 64 * 64 + b₃.toNat % 64 := by
  have hfirst : ((b₁.toUInt32 &&& 0x0f) <<< 12).toNat = b₁.toNat % 16 * 4096 :=
    toNat_shifted (by rw [toNat_masked 4 rfl]; rfl) (by omega)
  have hsecond : ((b₂ &&& 0x3f).toUInt32 <<< 6).toNat = b₂.toNat % 64 * 64 :=
    toNat_shifted (by rw [toNat_trailing]; rfl) (by omega)
  rw [UInt32.toNat_add, UInt32.toNat_add, hfirst, hsecond, toNat_trailing]
  omega

theorem toNat_four (b₁ b₂ b₃ b₄ : UInt8) :
    (((b₁.toUInt32 &&& 0x07) <<< 18) + ((b₂ &&& 0x3f).toUInt32 <<< 12)
      + ((b₃ &&& 0x3f).toUInt32 <<< 6) + (b₄ &&& 0x3f).toUInt32).toNat
      = b₁.toNat % 8 * 262144 + b₂.toNat % 64 * 4096 + b₃.toNat % 64 * 64 + b₄.toNat % 64 := by
  have hfirst : ((b₁.toUInt32 &&& 0x07) <<< 18).toNat = b₁.toNat % 8 * 262144 :=
    toNat_shifted (by rw [toNat_masked 3 rfl]; rfl) (by omega)
  have hsecond : ((b₂ &&& 0x3f).toUInt32 <<< 12).toNat = b₂.toNat % 64 * 4096 :=
    toNat_shifted (by rw [toNat_trailing]; rfl) (by omega)
  have hthird : ((b₃ &&& 0x3f).toUInt32 <<< 6).toNat = b₃.toNat % 64 * 64 :=
    toNat_shifted (by rw [toNat_trailing]; rfl) (by omega)
  rw [UInt32.toNat_add, UInt32.toNat_add, UInt32.toNat_add, hfirst, hsecond, hthird,
    toNat_trailing]
  omega

/-- A trailing byte, if there is one, and what is done with it. -/
theorem trailing_bind {α : Type} {i t : List UInt8} {n m : Nat} {f : UInt32 → Result α} {a : α}
    (h : forward (n - 1) i = .ok t) : decodeTrailingByte i m n >>= f = .ok a ↔
      ∃ b rest, t = b :: rest ∧ IsTrailing b ∧ f (b &&& 0x3f).toUInt32 = .ok a := by
  rcases t with _ | ⟨b, rest⟩
  · have hend : decodeTrailingByte i m n = .error .endOfInput := by
      rw [decodeTrailingByte, h]
      rfl
    rw [hend]
    refine ⟨(nomatch ·), ?_⟩
    rintro ⟨b, rest, hnil, -⟩
    cases hnil
  · rw [decodeTrailingByte_eq m h]
    by_cases htrailing : IsTrailing b
    · rw [if_pos htrailing]
      refine ⟨fun hf => ⟨b, rest, rfl, htrailing, hf⟩, ?_⟩
      rintro ⟨b', rest', ht, -, hf⟩
      cases ht
      exact hf
    · rw [if_neg htrailing]
      refine ⟨(nomatch ·), ?_⟩
      rintro ⟨b', rest', ht, htrailing', -⟩
      cases ht
      exact absurd htrailing' htrailing

theorem decodeBits_two {b₁ : UInt8} (hlo : 0xc0 ≤ b₁) (hhi : b₁ ≤ 0xdf) {t rest : List UInt8}
    {c : UInt32} : decodeBits (b₁ :: t) b₁.toUInt32 = .ok (c, rest) ↔
      ∃ b₂, t = b₂ :: rest ∧ IsTrailing b₂ ∧ c.toNat = b₁.toNat % 32 * 64 + b₂.toNat % 64 := by
  rw [UInt8.le_iff_toNat_le] at hlo hhi
  have hshift : b₁.toUInt32 >>> 5 = 6 := (shift_eq_iff 5 6).mpr (by
    simp only [UInt32.reduceToNat, UInt8.reduceToNat, Nat.reduceMod, Nat.reducePow] at *
    omega)
  rw [decodeBits, if_pos hshift, trailing_bind (t := t) rfl]
  refine ⟨?_, ?_⟩
  · rintro ⟨b₂, rest', rfl, htrailing, hread⟩
    cases hread
    exact ⟨b₂, rfl, htrailing, toNat_two b₁ b₂⟩
  · rintro ⟨b₂, rfl, htrailing, hc⟩
    refine ⟨b₂, rest, rfl, htrailing, ?_⟩
    rw [← UInt32.toNat_inj.mp (hc.trans (toNat_two b₁ b₂).symm)]
    rfl

theorem decodeBits_three {b₁ : UInt8} (hlo : 0xe0 ≤ b₁) (hhi : b₁ ≤ 0xef) {t rest : List UInt8}
    {c : UInt32} : decodeBits (b₁ :: t) b₁.toUInt32 = .ok (c, rest) ↔
      ∃ b₂ b₃, t = b₂ :: b₃ :: rest ∧ IsTrailing b₂ ∧ IsTrailing b₃ ∧
        c.toNat = b₁.toNat % 16 * 4096 + b₂.toNat % 64 * 64 + b₃.toNat % 64 := by
  rw [UInt8.le_iff_toNat_le] at hlo hhi
  simp only [UInt8.reduceToNat] at hlo hhi
  have hnot : ¬ b₁.toUInt32 >>> 5 = 6 := fun h => by
    have heq := (shift_eq_iff 5 6).mp h
    simp only [UInt32.reduceToNat, Nat.reduceMod, Nat.reducePow] at heq
    omega
  have hshift : b₁.toUInt32 >>> 4 = 0x0e := (shift_eq_iff 4 0x0e).mpr (by
    simp only [UInt32.reduceToNat, Nat.reduceMod, Nat.reducePow]
    omega)
  rw [decodeBits, if_neg hnot, if_pos hshift, trailing_bind (t := t) rfl]
  refine ⟨?_, ?_⟩
  · rintro ⟨b₂, t, rfl, htrailing₂, hread⟩
    obtain ⟨b₃, rest', rfl, htrailing₃, hread⟩ := (trailing_bind (t := t) rfl).mp hread
    cases hread
    exact ⟨b₂, b₃, rfl, htrailing₂, htrailing₃, toNat_three b₁ b₂ b₃⟩
  · rintro ⟨b₂, b₃, rfl, htrailing₂, htrailing₃, hc⟩
    refine ⟨b₂, b₃ :: rest, rfl, htrailing₂, ?_⟩
    refine (trailing_bind (t := b₃ :: rest) rfl).mpr ⟨b₃, rest, rfl, htrailing₃, ?_⟩
    rw [← UInt32.toNat_inj.mp (hc.trans (toNat_three b₁ b₂ b₃).symm)]
    rfl

theorem decodeBits_four {b₁ : UInt8} (hlo : 0xf0 ≤ b₁) (hhi : b₁ ≤ 0xf7) {t rest : List UInt8}
    {c : UInt32} : decodeBits (b₁ :: t) b₁.toUInt32 = .ok (c, rest) ↔
      ∃ b₂ b₃ b₄, t = b₂ :: b₃ :: b₄ :: rest ∧ IsTrailing b₂ ∧ IsTrailing b₃ ∧ IsTrailing b₄ ∧
        c.toNat = b₁.toNat % 8 * 262144 + b₂.toNat % 64 * 4096 + b₃.toNat % 64 * 64
          + b₄.toNat % 64 := by
  rw [UInt8.le_iff_toNat_le] at hlo hhi
  simp only [UInt8.reduceToNat] at hlo hhi
  have hnot : ∀ k m : UInt32, b₁.toNat / 2 ^ (k.toNat % 32) ≠ m.toNat → ¬ b₁.toUInt32 >>> k = m :=
    fun k m hne h => hne ((shift_eq_iff k m).mp h)
  have hnot2 := hnot 5 6 (by
    simp only [UInt32.reduceToNat, Nat.reduceMod, Nat.reducePow]
    omega)
  have hnot3 := hnot 4 0x0e (by
    simp only [UInt32.reduceToNat, Nat.reduceMod, Nat.reducePow]
    omega)
  have hshift : b₁.toUInt32 >>> 3 = 0x1e := (shift_eq_iff 3 0x1e).mpr (by
    simp only [UInt32.reduceToNat, Nat.reduceMod, Nat.reducePow]
    omega)
  rw [decodeBits, if_neg hnot2, if_neg hnot3, if_pos hshift, trailing_bind (t := t) rfl]
  refine ⟨?_, ?_⟩
  · rintro ⟨b₂, t, rfl, htrailing₂, hread⟩
    obtain ⟨b₃, t, rfl, htrailing₃, hread⟩ := (trailing_bind (t := t) rfl).mp hread
    obtain ⟨b₄, rest', rfl, htrailing₄, hread⟩ := (trailing_bind (t := t) rfl).mp hread
    cases hread
    exact ⟨b₂, b₃, b₄, rfl, htrailing₂, htrailing₃, htrailing₄, toNat_four b₁ b₂ b₃ b₄⟩
  · rintro ⟨b₂, b₃, b₄, rfl, htrailing₂, htrailing₃, htrailing₄, hc⟩
    refine ⟨b₂, b₃ :: b₄ :: rest, rfl, htrailing₂, ?_⟩
    refine (trailing_bind (t := b₃ :: b₄ :: rest) rfl).mpr ⟨b₃, b₄ :: rest, rfl, htrailing₃, ?_⟩
    refine (trailing_bind (t := b₄ :: rest) rfl).mpr ⟨b₄, rest, rfl, htrailing₄, ?_⟩
    rw [← UInt32.toNat_inj.mp (hc.trans (toNat_four b₁ b₂ b₃ b₄).symm)]
    rfl

/-- A byte from 0x80 to 0xbf, or from 0xf8 on, does not begin anything. -/
theorem decodeBits_invalid {b₁ : UInt8} (h : 0x80 ≤ b₁ ∧ b₁ < 0xc0 ∨ 0xf7 < b₁) (t : List UInt8) :
    decodeBits (b₁ :: t) b₁.toUInt32 = .error (.invalidFirst b₁.toUInt32.toUInt8) := by
  simp only [UInt8.le_iff_toNat_le, UInt8.lt_iff_toNat_lt, UInt8.reduceToNat] at h
  have hlt := b₁.toNat_lt
  simp only [decodeBits, shift_eq_iff, UInt32.reduceToNat, Nat.reduceMod, Nat.reducePow]
  rw [if_neg (by omega), if_neg (by omega), if_neg (by omega)]
  split_ifs
  · rfl
  · rfl
  · omega

/-- The last checks. -/
theorem decodeCodePoint_bits {b₁ : UInt8} (h : 0x80 ≤ b₁) {t rest : List UInt8} {c : UInt32} :
    decodeCodePoint (b₁ :: t) = .ok (c, rest) ↔
      decodeBits (b₁ :: t) b₁.toUInt32 = .ok (c, rest) ∧ Scalar c.toNat := by
  rw [UInt8.le_iff_toNat_le] at h
  simp only [UInt8.reduceToNat] at h
  have hnot : ¬ b₁.toUInt32 >>> 7 = 0 := fun hzero => by
    have heq := (shift_eq_iff 7 0).mp hzero
    simp only [UInt32.reduceToNat, Nat.reduceMod, Nat.reducePow] at heq
    omega
  change (if b₁.toUInt32 >>> 7 = 0 then _ else _) = _ ↔ _
  rw [if_neg hnot, scalar_iff]
  cases hbits : decodeBits (b₁ :: t) b₁.toUInt32 with
  | error e => exact ⟨(nomatch ·), fun hread => nomatch hread.1⟩
  | ok read =>
    obtain ⟨c', rest'⟩ := read
    change (if c' > 0x10ffff then _ else if 0xd800 ≤ c' ∧ c' ≤ 0xdfff then _ else _) = _ ↔ _
    split_ifs with hlarge hsurrogate
    · refine ⟨(nomatch ·), ?_⟩
      rintro ⟨heq, hle, -⟩
      cases heq
      exact absurd hle (UInt32.not_le.mpr hlarge)
    · refine ⟨(nomatch ·), ?_⟩
      rintro ⟨heq, -, hnot⟩
      cases heq
      exact absurd hsurrogate hnot
    · refine ⟨fun heq => ?_, fun heq => heq.1⟩
      cases heq
      exact ⟨rfl, UInt32.not_lt.mp hlarge, hsurrogate⟩

theorem decodeCodePoint_one {b₁ : UInt8} (h : b₁ < 0x80) (t : List UInt8) :
    decodeCodePoint (b₁ :: t) = .ok (b₁.toUInt32, t) := by
  rw [UInt8.lt_iff_toNat_lt] at h
  simp only [UInt8.reduceToNat] at h
  have hshift : b₁.toUInt32 >>> 7 = 0 := (shift_eq_iff 7 0).mpr (by
    simp only [UInt32.reduceToNat, Nat.reduceMod, Nat.reducePow]
    omega)
  change (if b₁.toUInt32 >>> 7 = 0 then _ else _) = _
  rw [if_pos hshift]
  rfl

/-- The decoder reads the sequences that have a scalar value. -/
theorem decodeCodePoint_eq_ok {i rest : List UInt8} {c : UInt32} :
    decodeCodePoint i = .ok (c, rest) ↔ Reads i c.toNat rest ∧ Scalar c.toNat := by
  refine ⟨fun h => ?_, ?_⟩
  · rcases i with _ | ⟨b₁, t⟩
    · cases h
    by_cases h1 : b₁ < 0x80
    · rw [decodeCodePoint_one h1] at h
      cases h
      rw [UInt8.toNat_toUInt32]
      have hlt : b₁.toNat < 0x80 := UInt8.lt_iff_toNat_lt.mp h1
      exact ⟨.one h1, by omega, by omega⟩
    obtain ⟨hbits, hscalar⟩ := (decodeCodePoint_bits (UInt8.not_lt.mp h1)).mp h
    refine ⟨?_, hscalar⟩
    by_cases hinvalid : 0x80 ≤ b₁ ∧ b₁ < 0xc0 ∨ 0xf7 < b₁
    · rw [decodeBits_invalid hinvalid] at hbits
      cases hbits
    simp only [not_or, not_and, UInt8.not_lt] at hinvalid
    have hlo := hinvalid.1 (UInt8.not_lt.mp h1)
    by_cases h2 : b₁ ≤ 0xdf
    · obtain ⟨b₂, rfl, htrailing, hc⟩ := (decodeBits_two hlo h2).mp hbits
      rw [hc]
      exact .two hlo h2 htrailing
    by_cases h3 : b₁ ≤ 0xef
    · have hlo' : 0xe0 ≤ b₁ := by
        rw [UInt8.le_iff_toNat_le] at h2 ⊢
        simp only [UInt8.reduceToNat] at h2 ⊢
        omega
      obtain ⟨b₂, b₃, rfl, htrailing₂, htrailing₃, hc⟩ := (decodeBits_three hlo' h3).mp hbits
      rw [hc]
      exact .three hlo' h3 htrailing₂ htrailing₃
    · have hlo' : 0xf0 ≤ b₁ := by
        rw [UInt8.le_iff_toNat_le] at h3 ⊢
        simp only [UInt8.reduceToNat] at h3 ⊢
        omega
      obtain ⟨b₂, b₃, b₄, rfl, htrailing₂, htrailing₃, htrailing₄, hc⟩ :=
        (decodeBits_four hlo' hinvalid.2).mp hbits
      rw [hc]
      exact .four hlo' hinvalid.2 htrailing₂ htrailing₃ htrailing₄
  · rintro ⟨hreads, hscalar⟩
    generalize hn : c.toNat = n at hreads
    cases hreads with
    | @one b rest h1 =>
      obtain rfl : c = b.toUInt32 := UInt32.toNat_inj.mp (by rw [hn, UInt8.toNat_toUInt32])
      exact decodeCodePoint_one h1 rest
    | @two b₁ b₂ rest hlo hhi htrailing =>
      refine (decodeCodePoint_bits (UInt8.le_trans (by decide : (0x80 : UInt8) ≤ 0xc0) hlo)).mpr ⟨?_, hscalar⟩
      exact (decodeBits_two hlo hhi).mpr ⟨b₂, rfl, htrailing, hn⟩
    | @three b₁ b₂ b₃ rest hlo hhi htrailing₂ htrailing₃ =>
      refine (decodeCodePoint_bits (UInt8.le_trans (by decide : (0x80 : UInt8) ≤ 0xe0) hlo)).mpr ⟨?_, hscalar⟩
      exact (decodeBits_three hlo hhi).mpr ⟨b₂, b₃, rfl, htrailing₂, htrailing₃, hn⟩
    | @four b₁ b₂ b₃ b₄ rest hlo hhi htrailing₂ htrailing₃ htrailing₄ =>
      refine (decodeCodePoint_bits (UInt8.le_trans (by decide : (0x80 : UInt8) ≤ 0xf0) hlo)).mpr ⟨?_, hscalar⟩
      exact (decodeBits_four hlo hhi).mpr
        ⟨b₂, b₃, b₄, rfl, htrailing₂, htrailing₃, htrailing₄, hn⟩

/-! ## Reading what was written -/

theorem toNat_ofNat {n : Nat} (h : n < 0x100) : (UInt8.ofNat n).toNat = n :=
  UInt8.toNat_ofNat_of_lt h

theorem toNat_trailingOf (n k : Nat) : (trailing n k).toNat = 0x80 + n / 64 ^ k % 64 :=
  toNat_ofNat (by omega)

theorem isTrailing_iff {b : UInt8} : IsTrailing b ↔ 0x80 ≤ b.toNat ∧ b.toNat ≤ 0xbf := by
  rw [IsTrailing, UInt8.le_iff_toNat_le, UInt8.le_iff_toNat_le]
  rfl

theorem isTrailing_trailing (n k : Nat) : IsTrailing (trailing n k) := by
  rw [isTrailing_iff, toNat_trailingOf]
  omega

theorem le_ofNat {m : UInt8} {n : Nat} (h : n < 0x100) (hle : m.toNat ≤ n) : m ≤ UInt8.ofNat n := by
  rwa [UInt8.le_iff_toNat_le, toNat_ofNat h]

theorem ofNat_le {m : UInt8} {n : Nat} (h : n < 0x100) (hle : n ≤ m.toNat) : UInt8.ofNat n ≤ m := by
  rwa [UInt8.le_iff_toNat_le, toNat_ofNat h]

/-- The bytes of a scalar value are read as that value. -/
theorem reads_utf8 {n : Nat} (h : n ≤ 0x10ffff) (rest : List UInt8) :
    Reads (utf8 n ++ rest) n rest := by
  rw [utf8]
  split_ifs with h1 h2 h3
  · have hbyte := toNat_ofNat (show n < 0x100 by omega)
    have hlt : UInt8.ofNat n < 0x80 := by
      rw [UInt8.lt_iff_toNat_lt, hbyte]
      exact h1
    have hreads : Reads (UInt8.ofNat n :: rest) (UInt8.ofNat n).toNat rest := .one hlt
    rwa [hbyte] at hreads
  · have hbyte : 0xc0 + n / 64 ^ 1 < 0x100 := by omega
    have hreads := @Reads.two _ _ rest (le_ofNat hbyte (Nat.le_add_right 0xc0 _))
      (ofNat_le hbyte (show 0xc0 + n / 64 ^ 1 ≤ 0xdf by omega)) (isTrailing_trailing n 0)
    rw [toNat_ofNat hbyte, toNat_trailingOf] at hreads
    have hn : (0xc0 + n / 64 ^ 1) % 32 * 64 + (0x80 + n / 64 ^ 0 % 64) % 64 = n := by omega
    rwa [hn] at hreads
  · have hbyte : 0xe0 + n / 64 ^ 2 < 0x100 := by omega
    have hreads := @Reads.three _ _ _ rest (le_ofNat hbyte (Nat.le_add_right 0xe0 _))
      (ofNat_le hbyte (show 0xe0 + n / 64 ^ 2 ≤ 0xef by omega))
      (isTrailing_trailing n 1) (isTrailing_trailing n 0)
    rw [toNat_ofNat hbyte, toNat_trailingOf, toNat_trailingOf] at hreads
    have hn : (0xe0 + n / 64 ^ 2) % 16 * 4096 + (0x80 + n / 64 ^ 1 % 64) % 64 * 64
        + (0x80 + n / 64 ^ 0 % 64) % 64 = n := by omega
    rwa [hn] at hreads
  · have hbyte : 0xf0 + n / 64 ^ 3 < 0x100 := by omega
    have hreads := @Reads.four _ _ _ _ rest (le_ofNat hbyte (Nat.le_add_right 0xf0 _))
      (ofNat_le hbyte (show 0xf0 + n / 64 ^ 3 ≤ 0xf7 by omega))
      (isTrailing_trailing n 2) (isTrailing_trailing n 1) (isTrailing_trailing n 0)
    rw [toNat_ofNat hbyte, toNat_trailingOf, toNat_trailingOf, toNat_trailingOf] at hreads
    have hn : (0xf0 + n / 64 ^ 3) % 8 * 262144 + (0x80 + n / 64 ^ 2 % 64) % 64 * 4096
        + (0x80 + n / 64 ^ 1 % 64) % 64 * 64 + (0x80 + n / 64 ^ 0 % 64) % 64 = n := by omega
    rwa [hn] at hreads

/-- Bytes are known by their numbers. -/
theorem eq_ofNat {b : UInt8} {n : Nat} (h : b.toNat = n) : b = UInt8.ofNat n := by
  rw [← h, UInt8.ofNat_toNat]

theorem eq_trailing {b : UInt8} {n k : Nat} (h : IsTrailing b) (hn : n / 64 ^ k % 64 = b.toNat % 64) :
    b = trailing n k := by
  rw [isTrailing_iff] at h
  refine eq_ofNat ?_
  omega

/-- What is read as a scalar value, and is not overlong, is the bytes of that value. -/
theorem Reads.eq_utf8 {i rest : List UInt8} {n : Nat} (h : Reads i n rest) (hscalar : Scalar n)
    (hshort : ¬ Overlong i) : i = utf8 n ++ rest := by
  obtain ⟨hlast, hsurrogate⟩ := hscalar
  cases h with
  | @one b rest h1 =>
    have hlt : b.toNat < 0x80 := UInt8.lt_iff_toNat_lt.mp h1
    rw [utf8, if_pos hlt, UInt8.ofNat_toNat]
    rfl
  | @two b₁ b₂ rest hlo hhi htrailing =>
    -- Below 0xc2 it would be overlong.
    have hmin : 0xc2 ≤ b₁.toNat := by
      by_contra hlt
      have hb₁ : b₁ = 0xc0 ∨ b₁ = 0xc1 := by
        rw [UInt8.le_iff_toNat_le] at hlo
        simp only [← UInt8.toNat_inj, UInt8.reduceToNat] at hlo ⊢
        omega
      exact hshort (.two hb₁ htrailing)
    have htrailing' := isTrailing_iff.mp htrailing
    rw [UInt8.le_iff_toNat_le] at hhi
    simp only [UInt8.reduceToNat] at hhi
    have hfirst : b₁ = UInt8.ofNat (0xc0 + (b₁.toNat % 32 * 64 + b₂.toNat % 64) / 64 ^ 1) :=
      eq_ofNat (by omega)
    have hsecond : b₂ = trailing (b₁.toNat % 32 * 64 + b₂.toNat % 64) 0 :=
      eq_trailing htrailing (by omega)
    rw [utf8, if_neg (by omega), if_pos (by omega), ← hfirst, ← hsecond]
    rfl
  | @three b₁ b₂ b₃ rest hlo hhi htrailing₂ htrailing₃ =>
    have hlo' := UInt8.le_iff_toNat_le.mp hlo
    have hhi' := UInt8.le_iff_toNat_le.mp hhi
    have htrailing' := isTrailing_iff.mp htrailing₂
    simp only [UInt8.reduceToNat] at hlo' hhi'
    -- After 0xe0 the second byte makes the difference.
    have hmin : 0xe1 ≤ b₁.toNat ∨ 0xa0 ≤ b₂.toNat := by
      by_contra hlt
      obtain rfl : b₁ = 0xe0 := eq_ofNat (show b₁.toNat = 0xe0 by omega)
      have hb₂ : b₂ ≤ 0x9f := UInt8.le_iff_toNat_le.mpr (show b₂.toNat ≤ 0x9f by omega)
      exact hshort (.three htrailing₂ hb₂ htrailing₃)
    have hfirst : b₁ = UInt8.ofNat (0xe0 + (b₁.toNat % 16 * 4096 + b₂.toNat % 64 * 64
        + b₃.toNat % 64) / 64 ^ 2) := eq_ofNat (by omega)
    have hsecond : b₂ = trailing (b₁.toNat % 16 * 4096 + b₂.toNat % 64 * 64 + b₃.toNat % 64) 1 :=
      eq_trailing htrailing₂ (by omega)
    have hthird : b₃ = trailing (b₁.toNat % 16 * 4096 + b₂.toNat % 64 * 64 + b₃.toNat % 64) 0 :=
      eq_trailing htrailing₃ (by omega)
    rw [utf8, if_neg (by omega), if_neg (by omega), if_pos (by omega), ← hfirst, ← hsecond,
      ← hthird]
    rfl
  | @four b₁ b₂ b₃ b₄ rest hlo hhi htrailing₂ htrailing₃ htrailing₄ =>
    have hlo' := UInt8.le_iff_toNat_le.mp hlo
    have hhi' := UInt8.le_iff_toNat_le.mp hhi
    have htrailing' := isTrailing_iff.mp htrailing₂
    have htrailing'' := isTrailing_iff.mp htrailing₃
    simp only [UInt8.reduceToNat] at hlo' hhi'
    have hmin : 0xf1 ≤ b₁.toNat ∨ 0x90 ≤ b₂.toNat := by
      by_contra hlt
      obtain rfl : b₁ = 0xf0 := eq_ofNat (show b₁.toNat = 0xf0 by omega)
      have hb₂ : b₂ ≤ 0x8f := UInt8.le_iff_toNat_le.mpr (show b₂.toNat ≤ 0x8f by omega)
      -- Four bytes that are overlong and are no `Overlong` would be a surrogate.
      refine hshort (.four htrailing₂ hb₂ htrailing₃ htrailing₄ ?_)
      rintro ⟨rfl, hb₃⟩
      rw [UInt8.le_iff_toNat_le] at hb₃
      simp only [UInt8.reduceToNat] at hb₃ hsurrogate
      omega
    have hfirst : b₁ = UInt8.ofNat (0xf0 + (b₁.toNat % 8 * 262144 + b₂.toNat % 64 * 4096
        + b₃.toNat % 64 * 64 + b₄.toNat % 64) / 64 ^ 3) := eq_ofNat (by omega)
    have hsecond : b₂ = trailing (b₁.toNat % 8 * 262144 + b₂.toNat % 64 * 4096
        + b₃.toNat % 64 * 64 + b₄.toNat % 64) 2 := eq_trailing htrailing₂ (by omega)
    have hthird : b₃ = trailing (b₁.toNat % 8 * 262144 + b₂.toNat % 64 * 4096
        + b₃.toNat % 64 * 64 + b₄.toNat % 64) 1 := eq_trailing htrailing₃ (by omega)
    have hfourth : b₄ = trailing (b₁.toNat % 8 * 262144 + b₂.toNat % 64 * 4096
        + b₃.toNat % 64 * 64 + b₄.toNat % 64) 0 := eq_trailing htrailing₄ (by omega)
    rw [utf8, if_neg (by omega), if_neg (by omega), if_neg (by omega), ← hfirst, ← hsecond,
      ← hthird, ← hfourth]
    rfl

/-- The first byte of a value that needs fewer bytes is smaller. -/
theorem ne_utf8_of_lt {n m : Nat} {b : UInt8} {t rest : List UInt8} (hn : n < m)
    (hb : m = 0x80 ∧ 0xc0 ≤ b.toNat ∨ m = 0x800 ∧ 0xe0 ≤ b.toNat ∨ m = 0x10000 ∧ 0xf0 ≤ b.toNat) :
    b :: t ≠ utf8 n ++ rest := by
  intro heq
  rw [utf8] at heq
  split_ifs at heq with h1 h2 h3
  · obtain ⟨rfl, -⟩ := List.cons.inj heq
    rw [toNat_ofNat (by omega)] at hb
    omega
  · obtain ⟨rfl, -⟩ := List.cons.inj heq
    rw [toNat_ofNat (by omega)] at hb
    omega
  · obtain ⟨rfl, -⟩ := List.cons.inj heq
    rw [toNat_ofNat (by omega)] at hb
    omega
  · omega

/-- Overlong forms are read, too. -/
theorem Overlong.reads {i : List UInt8} (h : Overlong i) :
    ∃ n rest, Reads i n rest ∧ Scalar n ∧ i ≠ utf8 n ++ rest := by
  cases h with
  | @two b₁ b₂ rest hb₁ htrailing =>
    have hb₁' : b₁.toNat = 0xc0 ∨ b₁.toNat = 0xc1 := by
      rcases hb₁ with rfl | rfl
      · exact .inl rfl
      · exact .inr rfl
    have hlo : 0xc0 ≤ b₁ := UInt8.le_iff_toNat_le.mpr (show 0xc0 ≤ b₁.toNat by omega)
    have hhi : b₁ ≤ 0xdf := UInt8.le_iff_toNat_le.mpr (show b₁.toNat ≤ 0xdf by omega)
    refine ⟨_, rest, .two hlo hhi htrailing, ⟨by omega, by omega⟩, ?_⟩
    exact ne_utf8_of_lt (m := 0x80) (by omega) (by omega)
  | @three b₂ b₃ rest htrailing₂ hle htrailing₃ =>
    rw [UInt8.le_iff_toNat_le] at hle
    have htrailing' := isTrailing_iff.mp htrailing₂
    simp only [UInt8.reduceToNat] at hle
    refine ⟨_, rest, .three (by decide) (by decide) htrailing₂ htrailing₃, ?_, ?_⟩
    · simp only [Scalar, UInt8.reduceToNat]
      omega
    · refine ne_utf8_of_lt (m := 0x800) ?_ (.inr (.inl ⟨rfl, by decide⟩))
      simp only [UInt8.reduceToNat]
      omega
  | @four b₂ b₃ b₄ rest htrailing₂ hle htrailing₃ htrailing₄ hnot =>
    rw [UInt8.le_iff_toNat_le] at hle
    have htrailing' := isTrailing_iff.mp htrailing₂
    have htrailing'' := isTrailing_iff.mp htrailing₃
    have hnot' : ¬ (b₂.toNat = 0x8d ∧ 0xa0 ≤ b₃.toNat) := fun hboth =>
      hnot ⟨eq_ofNat hboth.1, UInt8.le_iff_toNat_le.mpr hboth.2⟩
    simp only [UInt8.reduceToNat] at hle
    refine ⟨_, rest, .four (by decide) (by decide) htrailing₂ htrailing₃ htrailing₄, ?_, ?_⟩
    · simp only [Scalar, UInt8.reduceToNat]
      omega
    · refine ne_utf8_of_lt (m := 0x10000) ?_ (.inr (.inr ⟨rfl, by decide⟩))
      simp only [UInt8.reduceToNat]
      omega

/-- The decoder reads back what the encoder writes, with anything behind it. -/
theorem decodeCodePoint_encode {c : UInt32} {bytes : List UInt8}
    (h : encodeCodePoint c = .ok bytes) (rest : List UInt8) :
    decodeCodePoint (bytes ++ rest) = .ok (c, rest) := by
  obtain ⟨hscalar, rfl⟩ := encodeCodePoint_eq_ok.mp h
  exact decodeCodePoint_eq_ok.mpr ⟨reads_utf8 hscalar.1 rest, hscalar⟩

/-- The encoder writes the bytes of scalar values, and the decoder reads those back. From
the inputs that do not begin with an overlong form, and from no others, it reads nothing
else. -/
theorem readsUtf8_iff (i : List UInt8) :
    (∀ c bytes, encodeCodePoint c = .ok bytes ↔ Scalar c.toNat ∧ bytes = utf8 c.toNat) ∧
    (∀ c bytes rest, encodeCodePoint c = .ok bytes →
      decodeCodePoint (bytes ++ rest) = .ok (c, rest)) ∧
    ((∀ c rest, decodeCodePoint i = .ok (c, rest) ↔
        ∃ bytes, encodeCodePoint c = .ok bytes ∧ i = bytes ++ rest) ↔ ¬ Overlong i) := by
  refine ⟨fun c bytes => encodeCodePoint_eq_ok, fun c bytes rest h => decodeCodePoint_encode h rest,
    fun hexact hoverlong => ?_, fun hshort c rest => ⟨fun h => ?_, ?_⟩⟩
  · obtain ⟨n, rest, hreads, hscalar, hne⟩ := hoverlong.reads
    have hc : (UInt32.ofNat n).toNat = n := UInt32.toNat_ofNat_of_lt (by
      have hlast := hscalar.1
      rw [UInt32.size]
      omega)
    obtain ⟨bytes, hbytes, hi⟩ := (hexact (UInt32.ofNat n) rest).mp
      (decodeCodePoint_eq_ok.mpr (hc.symm ▸ ⟨hreads, hscalar⟩))
    obtain ⟨-, rfl⟩ := encodeCodePoint_eq_ok.mp hbytes
    exact hne (hc ▸ hi)
  · obtain ⟨hreads, hscalar⟩ := decodeCodePoint_eq_ok.mp h
    exact ⟨_, encodeCodePoint_of_scalar hscalar, hreads.eq_utf8 hscalar hshort⟩
  · rintro ⟨bytes, hbytes, rfl⟩
    exact decodeCodePoint_encode hbytes rest

/-- Two bytes that decode to NUL, which is written as one. -/
theorem not_readsUtf8 : decodeCodePoint [0xc0, 0x80] = .ok (0, []) ∧
    ¬ ∃ c bytes rest, encodeCodePoint c = .ok bytes ∧ [0xc0, 0x80] = bytes ++ rest := by
  refine ⟨by decide +kernel, ?_⟩
  rintro ⟨c, bytes, rest, hbytes, heq⟩
  have hread := decodeCodePoint_encode hbytes rest
  rw [← heq, show decodeCodePoint [0xc0, 0x80] = .ok (0, []) by decide +kernel] at hread
  cases hread
  rw [show encodeCodePoint 0 = .ok [0] by decide +kernel] at hbytes
  cases hbytes
  cases heq

end Urnest.Utf8
