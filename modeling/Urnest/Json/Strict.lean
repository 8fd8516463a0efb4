import Mathlib
import Urnest.Json.Standard

/-!
# Where the parser is strict

The parser takes more than JSON: comments for white space, control characters in strings, and
behind `\u` whatever `strtoul` takes. A text is `strict` if none of that is in it. What the loop
of the string literals has scanned in such a text are characters as the RFC has them
(`charsText_of_scan`).
-/

namespace Urnest.Json

open Lib Hcp Hcp.Parsing Utf8 Json.Tree

def fourHex : List UInt8 → Bool
  | a :: b :: c :: d :: _ =>
    (hexValue a).isSome && (hexValue b).isSome && (hexValue c).isSome && (hexValue d).isSome
  | _ => false

/-- Where in a text: behind a backslash, in a string, or outside of strings -/
inductive Place where
  | outside
  | string
  | escape

/-- Outside of strings there is no slash, in strings there is no control character, and behind
each `\u` there are four hexadecimal digits. -/
def strictFrom : Place → List UInt8 → Bool
  | _, [] => true
  | .outside, b :: t => if b = 0x22 then strictFrom .string t else b ≠ 0x2f && strictFrom .outside t
  | .string, b :: t =>
    if b = 0x22 then strictFrom .outside t
    else if b = 0x5c then strictFrom .escape t
    else 0x20 ≤ b && strictFrom .string t
  | .escape, c :: t => (if c = 0x75 then fourHex t else true) && strictFrom .string t

def strict (text : List UInt8) : Bool := strictFrom .outside text

theorem strict_backslash (t : List UInt8) : strictFrom .string (0x5c :: t) = strictFrom .escape t := by
  rw [strictFrom, if_neg (by decide), if_pos rfl]

theorem strict_char {b : UInt8} (t : List UInt8) (hquote : b ≠ 0x22) (hbackslash : b ≠ 0x5c) :
    strictFrom .string (b :: t) = (decide (0x20 ≤ b) && strictFrom .string t) := by
  rw [strictFrom, if_neg hquote, if_neg hbackslash]

theorem strict_outside {b : UInt8} (t : List UInt8) (hquote : b ≠ 0x22) :
    strictFrom .outside (b :: t) = (decide (b ≠ 0x2f) && strictFrom .outside t) := by
  rw [strictFrom, if_neg hquote]

/-- Bytes that stand for themselves in a string. -/
theorem strict_bytes {x : List UInt8} (h : ∀ b ∈ x, 0x20 ≤ b ∧ b ≠ 0x22 ∧ b ≠ 0x5c) (t : List UInt8) :
    strictFrom .string (x ++ t) = strictFrom .string t := by
  induction x with
  | nil => rfl
  | cons b x ih =>
    obtain ⟨⟨hb, hquote, hbackslash⟩, hx⟩ := List.forall_mem_cons.mp h
    rw [List.cons_append, strict_char _ hquote hbackslash, ih hx, decide_eq_true hb, Bool.true_and]

theorem FourDigits.strict {ds : List UInt8} {n : Nat} (h : FourDigits ds n) (rest : List UInt8) :
    strictFrom .string (ds ++ rest) = strictFrom .string rest :=
  strict_bytes (fun b hb => ⟨(h.mem b hb).1, (h.mem b hb).2.1, (h.mem b hb).2.2.1⟩) rest

theorem exists_fourDigits {i : List UInt8} (h : fourHex i = true) :
    ∃ ds n rest, i = ds ++ rest ∧ FourDigits ds n := by
  unfold fourHex at h
  split at h
  next a b c d rest =>
    simp only [Bool.and_eq_true, Option.isSome_iff_exists] at h
    obtain ⟨⟨⟨⟨x, ha⟩, y, hb⟩, z, hc⟩, w, hd⟩ := h
    exact ⟨_, _, rest, rfl, ⟨ha, hb, hc, hd⟩⟩
  · cases h

/-! ## Scanning -/

/-- What has been taken from a text, and what is left of it. -/
structure Taken (R : List UInt8 → Prop) (place : Place) (i left : List UInt8) : Prop where
  exists_taken : ∃ t, i = t ++ left ∧ R t
  strict : strictFrom place left = true
  isText : IsText left

theorem lowSurrogate_eq_ok {high : UInt16} {i bytes left : List UInt8}
    (h : lowSurrogate high i = .ok (bytes, left)) : ∃ rest, i.tail = 0x5c :: 0x75 :: rest := by
  rw [lowSurrogate] at h
  split at h
  · cases h
  · cases h
  next a b rest htail =>
    split at h
    · cases h
    next hnot =>
      obtain ⟨ha, hb⟩ := not_or.mp hnot
      obtain rfl := not_not.mp ha
      obtain rfl := not_not.mp hb
      exact ⟨rest, htail⟩

theorem charText_of_unicodeEscape {i bytes left : List UInt8}
    (hstrict : strictFrom .escape (0x75 :: i) = true) (htext : IsText i)
    (h : unicodeEscape i = .ok (bytes, left)) :
    Taken (fun t => CharText escapesWithAlert (0x5c :: 0x75 :: t) bytes) .string i left := by
  rw [strictFrom, if_pos rfl, Bool.and_eq_true] at hstrict
  obtain ⟨ds, n, rest, rfl, hds⟩ := exists_fourDigits hstrict.1
  have hrest := hstrict.2
  rw [hds.strict] at hrest
  have htextRest := hds.isText htext
  obtain ⟨-, hn⟩ := stringToUInt16_digits hds
  cases hhigh : isSurrogateHigh (UInt32.ofNat n).toUInt16 with
  | false =>
    obtain ⟨hbytes, rfl⟩ := (unicodeEscape_scalar hds hhigh).mp h
    exact ⟨⟨ds, rfl, .unicode hds hbytes⟩, hrest, htextRest⟩
  | true =>
    obtain ⟨k, htail, hescape⟩ := unicodeEscape_digits hds rest
    rw [hescape, hhigh, if_pos rfl] at h
    obtain ⟨behind, hbehind⟩ := lowSurrogate_eq_ok h
    obtain rfl : rest = 0x5c :: 0x75 :: behind := htail.symm.trans hbehind
    rw [strict_backslash, strictFrom, if_pos rfl, Bool.and_eq_true] at hrest
    obtain ⟨ds', n', rest, rfl, hds'⟩ := exists_fourDigits hrest.1
    obtain ⟨hlow, hbytes, rfl⟩ :=
      (lowSurrogate_digits hds' hbehind ((isSurrogateHigh_iff hn).mp hhigh)).mp h
    have hleft := hrest.2
    rw [hds'.strict] at hleft
    refine ⟨⟨ds ++ 0x5c :: 0x75 :: ds', by simp only [List.append_assoc, List.cons_append], ?_⟩, hleft, ?_⟩
    · exact .pair hds hds' ((isSurrogateHigh_iff hn).mp hhigh) hlow hbytes
    · exact hds'.isText ((htextRest.of_ascii (by decide)).of_ascii (by decide))

theorem plainCharacter_of_encode {c : UInt32} {b : UInt8} {t : List UInt8}
    (h : encodeCodePoint c = .ok (b :: t)) (hb : 0x20 ≤ b ∧ b ≠ 0x22 ∧ b ≠ 0x5c) :
    0x20 ≤ c ∧ c ≠ 0x22 ∧ c ≠ 0x5c := by
  obtain ⟨hmin, hquote, hbackslash⟩ := hb
  refine ⟨?_, ?_, ?_⟩
  · by_contra hlt
    rw [UInt32.le_iff_toNat_le] at hlt
    have hsmall : c.toNat < 0x20 := Nat.lt_of_not_le hlt
    have hbyte : (UInt8.ofNat c.toNat).toNat = c.toNat := by
      rw [UInt8.toNat_ofNat']
      omega
    have hc : (UInt8.ofNat c.toNat).toUInt32 = c := by
      rw [← UInt32.toNat_inj, UInt8.toNat_toUInt32, hbyte]
    have hascii : UInt8.ofNat c.toNat < 0x80 := by
      rw [UInt8.lt_iff_toNat_lt, hbyte]
      exact hsmall.trans (by decide)
    have hencode := encodeCodePoint_ascii hascii
    rw [hc, h] at hencode
    cases hencode
    rw [UInt8.le_iff_toNat_le, hbyte] at hmin
    exact absurd hsmall (Nat.not_lt.mpr hmin)
  · rintro rfl
    rw [show encodeCodePoint 0x22 = .ok [0x22] from rfl] at h
    cases h
    exact hquote rfl
  · rintro rfl
    rw [show encodeCodePoint 0x5c = .ok [0x5c] from rfl] at h
    cases h
    exact hbackslash rfl

/-- A turn of the loop -/
theorem charText_of_unescape {b : UInt8} {i bytes left : List UInt8} (hb : b ≠ 0x22)
    (hstrict : strictFrom .string (b :: i) = true) (htext : IsText (b :: i))
    (h : unescape (b :: i) = .ok (bytes, left)) :
    Taken (fun t => CharText escapesWithAlert t bytes) .string (b :: i) left := by
  unfold unescape at h
  split at h
  next rest heq =>
    cases heq
    rw [strict_backslash] at hstrict
    have htextRest := htext.of_ascii (by decide)
    split at h
    · cases h
    next c behind =>
      split at h
      next b' hlookup =>
        cases h
        have hbehind := hstrict
        rw [strictFrom, Bool.and_eq_true] at hbehind
        refine ⟨⟨[0x5c, c], rfl, .escape ?_⟩, hbehind.2, ?_⟩
        · rw [lookup_escapesWithAlert, hlookup]
        · exact htextRest.of_ascii (ascii_of_simpleEscapes hlookup)
      · split at h
        next hc =>
          subst hc
          obtain ⟨⟨t, rfl, hchar⟩, hleft, htextLeft⟩ :=
            charText_of_unicodeEscape hstrict (htextRest.of_ascii (by decide)) h
          exact ⟨⟨_, rfl, hchar⟩, hleft, htextLeft⟩
        · cases h
  next hnot =>
    have hbackslash : b ≠ 0x5c := by
      rintro rfl
      exact hnot i rfl
    split at h
    · cases h
    next c rest hread =>
      obtain ⟨hbytes, rfl⟩ := encoded_bind_eq_ok.mp h
      obtain ⟨bytes', heq, hbytes', htextRest⟩ := htext.decode hread
      obtain rfl : bytes' = bytes := Except.ok.inj (hbytes'.symm.trans hbytes)
      have hmin := hstrict
      rw [strict_char _ hb hbackslash, Bool.and_eq_true, decide_eq_true_iff] at hmin
      obtain ⟨b', t, rfl⟩ := List.exists_cons_of_ne_nil (encodeCodePoint_ne_nil hbytes')
      obtain ⟨rfl, -⟩ := List.cons.inj heq
      obtain ⟨hc, hquote, hbackslash'⟩ := plainCharacter_of_encode hbytes ⟨hmin.1, hb, hbackslash⟩
      refine ⟨⟨b :: t, heq, .unescaped hbytes hc hquote hbackslash'⟩, ?_, htextRest⟩
      rwa [heq, strict_bytes (plain_bytes_of_encode hbytes ⟨hc, hquote, hbackslash'⟩)] at hstrict

theorem charsText_of_scan (n : Nat) : ∀ {i value left : List UInt8}, i.length ≤ n →
    strictFrom .string i = true → IsText i → scan i = .ok (value, left) →
      Taken (fun t => ∃ cs, t = cs ++ [0x22] ∧ CharsText escapesWithAlert cs value) .outside i left := by
  induction n with
  | zero =>
    intro i value left hlength _ _ h
    rw [List.eq_nil_of_length_eq_zero (Nat.le_zero.mp hlength), scan] at h
    cases h
  | succ n ih =>
    intro i value left hlength hstrict htext h
    cases i with
    | nil =>
      rw [scan] at h
      cases h
    | cons b rest =>
      rw [scan] at h
      split at h
      next hb =>
        cases h
        rw [hb] at hstrict htext ⊢
        exact ⟨⟨[0x22], rfl, [], rfl, .nil⟩, hstrict, htext.of_ascii (by decide)⟩
      next hb =>
        split at h
        · cases h
        next bytes behind hstep =>
          obtain ⟨⟨others, left'⟩, hothers, h⟩ := bind_eq_ok.mp h
          cases h
          obtain ⟨⟨t, ht, hchar⟩, hbehind, htextBehind⟩ := charText_of_unescape hb hstrict htext hstep
          have hshorter := unescape_length hstep
          obtain ⟨⟨t', rfl, cs, rfl, hchars⟩, hleft, htextLeft⟩ :=
            ih (by rw [List.length_cons] at hlength hshorter; omega) hbehind htextBehind hothers
          refine ⟨⟨t ++ (cs ++ [0x22]), ?_, t ++ cs, ?_, .cons hchar hchars⟩, hleft, htextLeft⟩
          · rw [ht]
            simp only [List.append_assoc]
          · rw [List.append_assoc]

/-- What is scanned are characters. -/
theorem isText_unescaped {t bytes : List UInt8} (h : CharsText escapesWithAlert t bytes) :
    IsText bytes := by
  induction h with
  | nil => exact ⟨0, .nil⟩
  | cons hchar _ ih =>
    refine IsText.append ?_ ih
    cases hchar with
    | unescaped hbytes _ _ _ => exact ⟨1, .single hbytes⟩
    | unicode _ hbytes => exact ⟨1, .single hbytes⟩
    | pair _ _ _ _ hbytes => exact ⟨1, .single hbytes⟩
    | @escape x b hx =>
      have hall : ∀ p ∈ escapesWithAlert, p.2 < 0x80 := by
        simp only [escapesWithAlert, standardEscapes, List.forall_mem_cons]
        exact ⟨by decide, by decide, by decide, by decide, by decide, by decide, by decide, by decide,
          by decide, fun _ h => by cases h⟩
      obtain ⟨l, l', heq, -⟩ := List.lookup_eq_some_iff.mp hx
      have hb : b < 0x80 := hall (x, b) (heq ▸ List.mem_append_right l (List.mem_cons_self ..))
      exact ⟨1, .single (encodeCodePoint_ascii hb)⟩

end Urnest.Json
