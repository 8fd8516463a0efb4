import Mathlib
import Urnest.Json.RoundTrip

/-!
# JSON of RFC 8259

The texts that are JSON by RFC 8259, and what they denote: `ValueText` has a rule for each
production of values. What stands behind a backslash is a parameter, as the parser knows one
escape that is not in the RFC. All of the texts are parsed, as what they denote
(`parse_of_jsonText`).
-/

namespace Urnest.Json

open Lib Hcp Hcp.Parsing Utf8 Json.Tree

/-! ## Strings -/

/-- Four hexadecimal digits, and their number. -/
inductive FourDigits : List UInt8 → Nat → Prop where
  | mk {a b c d : UInt8} {x y z w : Nat} : hexValue a = some x → hexValue b = some y →
    hexValue c = some z → hexValue d = some w →
      FourDigits [a, b, c, d] (16 * (16 * (16 * x + y) + z) + w)

/-- What stands behind a backslash for a character. -/
def standardEscapes : List (UInt8 × UInt8) :=
  [(0x22, 0x22), (0x5c, 0x5c), (0x2f, 0x2f), (0x62, 0x08), (0x66, 0x0c), (0x6e, 0x0a), (0x72, 0x0d),
    (0x74, 0x09)]

/-- One more that is not in the RFC, for an alert. -/
def escapesWithAlert : List (UInt8 × UInt8) := (0x61, 0x07) :: standardEscapes

/-- The character of a surrogate pair. -/
def characterOf (high low : Nat) : UInt32 :=
  UInt32.ofNat (0x10000 + (high - 0xd800) * 0x400 + (low - 0xdc00))

/-- `char`, with some escapes, and the character in UTF-8. A surrogate stands in a pair only. -/
inductive CharText (escapes : List (UInt8 × UInt8)) : List UInt8 → List UInt8 → Prop where
  | unescaped {c : UInt32} {bytes : List UInt8} : encodeCodePoint c = .ok bytes → 0x20 ≤ c →
    c ≠ 0x22 → c ≠ 0x5c → CharText escapes bytes bytes
  | escape {x b : UInt8} : escapes.lookup x = some b → CharText escapes [0x5c, x] [b]
  | unicode {ds bytes : List UInt8} {n : Nat} : FourDigits ds n →
    encodeCodePoint (UInt32.ofNat n) = .ok bytes → CharText escapes (0x5c :: 0x75 :: ds) bytes
  | pair {ds ds' bytes : List UInt8} {high low : Nat} : FourDigits ds high → FourDigits ds' low →
    0xd800 ≤ high ∧ high ≤ 0xdbff → 0xdc00 ≤ low ∧ low ≤ 0xdfff →
      encodeCodePoint (characterOf high low) = .ok bytes →
        CharText escapes (0x5c :: 0x75 :: (ds ++ 0x5c :: 0x75 :: ds')) bytes

inductive CharsText (escapes : List (UInt8 × UInt8)) : List UInt8 → List UInt8 → Prop where
  | nil : CharsText escapes [] []
  | cons {t bytes ts others : List UInt8} : CharText escapes t bytes → CharsText escapes ts others →
    CharsText escapes (t ++ ts) (bytes ++ others)

/-- A string and its text. -/
def StringText (escapes : List (UInt8 × UInt8)) (value : Utf8String) (out : List UInt8) : Prop :=
  ∃ t, out = 0x22 :: (t ++ [0x22]) ∧ CharsText escapes t value.value

/-! ## Values -/

/-- A name and a value. -/
inductive MemberText (escapes : List (UInt8 × UInt8)) (R : Tree → List UInt8 → Prop) :
    Utf8String × Tree → List UInt8 → Prop where
  | mk {key : Utf8String} {e : Tree} {name w w' out : List UInt8} : StringText escapes key name →
    Blank w → Blank w' → R e out → MemberText escapes R (key, e) (name ++ (w ++ 0x3a :: (w' ++ out)))

/-- The members of an object, as a map. Which one counts of several with one name is left
open by the RFC; here it is the first. -/
def objectOf (ms : List (Utf8String × Tree)) : Tree := .object (OrderedBy.ofList ms : Members).toList none

inductive ValueText (escapes : List (UInt8 × UInt8)) : Tree → List UInt8 → Prop where
  | null : ValueText escapes .null_ (bytes "null".toList)
  | true : ValueText escapes .true_ (bytes "true".toList)
  | false : ValueText escapes .false_ (bytes "false".toList)
  | number (l : Literal) : ValueText escapes (.number l.text none) (bytes l.text)
  | string {value : Utf8String} {out : List UInt8} : StringText escapes value out →
    ValueText escapes (.string value none) out
  | array {es : List Tree} {body : List UInt8} : Enclosed (ValueText escapes) es body →
    ValueText escapes (.array es none) (0x5b :: (body ++ [0x5d]))
  | object {ms : List (Utf8String × Tree)} {body : List UInt8} :
    Enclosed (MemberText escapes (ValueText escapes)) ms body →
      ValueText escapes (objectOf ms) (0x7b :: (body ++ [0x7d]))

/-- `JSON-text`: a value between white space. -/
def JsonText (escapes : List (UInt8 × UInt8)) (text : List UInt8) (e : Tree) : Prop :=
  ∃ w out w', text = w ++ (out ++ w') ∧ Blank w ∧ ValueText escapes e out ∧ Blank w'

/-! ## Characters of UTF-8 -/

theorem IsText.of_ascii {b : UInt8} {t : List UInt8} (h : IsText (b :: t)) (hb : b < 0x80) : IsText t := by
  obtain ⟨n, hn⟩ := h
  generalize hx : b :: t = x at hn
  cases hn with
  | nil => cases hx
  | @cons c bytes rest size hbytes hrest =>
    obtain ⟨b', t', rfl⟩ := List.exists_cons_of_ne_nil (encodeCodePoint_ne_nil hbytes)
    obtain ⟨rfl, ht⟩ := List.cons.inj hx
    obtain ⟨-, rfl⟩ := ascii_of_encode hbytes hb
    rw [ht]
    exact ⟨size, hrest⟩

theorem IsText.decode {x : List UInt8} (h : IsText x) {c : UInt32} {rest : List UInt8}
    (hread : decodeCodePoint x = .ok (c, rest)) :
    ∃ bytes, x = bytes ++ rest ∧ encodeCodePoint c = .ok bytes ∧ IsText rest := by
  obtain ⟨n, hn⟩ := h
  cases hn with
  | nil => cases hread
  | @cons c' bytes rest' size hbytes hrest =>
    rw [decodeCodePoint_encode hbytes rest'] at hread
    obtain ⟨rfl, rfl⟩ := Prod.mk.inj (Except.ok.inj hread)
    exact ⟨bytes, rfl, hbytes, size, hrest⟩

/-- The bytes of a character but the first are no ASCII. -/
theorem le_of_mem_tail {c : UInt32} {b : UInt8} {t : List UInt8}
    (h : encodeCodePoint c = .ok (b :: t)) : ∀ x ∈ t, 0x80 ≤ x := by
  obtain ⟨-, hbytes⟩ := encodeCodePoint_eq_ok.mp h
  have htrailing : ∀ k, 0x80 ≤ trailing c.toNat k := fun k => (isTrailing_trailing c.toNat k).1
  rw [utf8] at hbytes
  intro x hx
  split_ifs at hbytes <;> obtain ⟨-, rfl⟩ := List.cons.inj hbytes <;>
    simp only [List.mem_cons, List.not_mem_nil, or_false] at hx
  · rw [hx]
    exact htrailing _
  · rcases hx with rfl | rfl <;> exact htrailing _
  · rcases hx with rfl | rfl | rfl <;> exact htrailing _

/-- A character that is neither a control character nor a quote nor a backslash. -/
theorem plain_bytes_of_encode {c : UInt32} {bytes : List UInt8} (h : encodeCodePoint c = .ok bytes)
    (hc : 0x20 ≤ c ∧ c ≠ 0x22 ∧ c ≠ 0x5c) : ∀ b ∈ bytes, 0x20 ≤ b ∧ b ≠ 0x22 ∧ b ≠ 0x5c := by
  obtain ⟨b, t, rfl⟩ := List.exists_cons_of_ne_nil (encodeCodePoint_ne_nil h)
  have hlarge : ∀ x : UInt8, 0x80 ≤ x → 0x20 ≤ x ∧ x ≠ 0x22 ∧ x ≠ 0x5c := by
    intro x hx
    rw [UInt8.le_iff_toNat_le] at hx
    refine ⟨UInt8.le_iff_toNat_le.mpr (le_trans (by decide) hx), ?_, ?_⟩ <;>
    · rintro rfl
      revert hx
      decide
  refine List.forall_mem_cons.mpr ⟨?_, fun x hx => hlarge x (le_of_mem_tail h x hx)⟩
  by_cases hb : b < 0x80
  · obtain ⟨rfl, -⟩ := ascii_of_encode h hb
    obtain ⟨hmin, hquote, hbackslash⟩ := hc
    refine ⟨?_, ?_, ?_⟩
    · rw [UInt32.le_iff_toNat_le, UInt8.toNat_toUInt32] at hmin
      exact UInt8.le_iff_toNat_le.mpr hmin
    · rintro rfl
      exact hquote rfl
    · rintro rfl
      exact hbackslash rfl
  · exact hlarge b (UInt8.not_lt.mp hb)

/-! ## Hexadecimal digits -/

theorem hexValue_cases {b : UInt8} {x : Nat} (h : hexValue b = some x) :
    x < 16 ∧ 0x20 ≤ b ∧ isspaceByte b = false ∧ b ≠ 0x2d ∧ b ≠ 0x2b ∧ b ≠ 0x78 ∧ b ≠ 0x58 ∧
      b ≠ 0x22 ∧ b ≠ 0x5c ∧ b < 0x80 := by
  have hall : ∀ n < 256, ∀ x ∈ hexValue (UInt8.ofNat n), x < 16 ∧ 0x20 ≤ UInt8.ofNat n ∧
      isspaceByte (UInt8.ofNat n) = false ∧ UInt8.ofNat n ≠ 0x2d ∧ UInt8.ofNat n ≠ 0x2b ∧
        UInt8.ofNat n ≠ 0x78 ∧ UInt8.ofNat n ≠ 0x58 ∧ UInt8.ofNat n ≠ 0x22 ∧
          UInt8.ofNat n ≠ 0x5c ∧ UInt8.ofNat n < 0x80 := by
    decide +kernel
  have hb := hall b.toNat b.toNat_lt
  rw [UInt8.ofNat_toNat] at hb
  exact hb x h

theorem stringToUInt16_digits {ds : List UInt8} {n : Nat} (h : FourDigits ds n) :
    stringToUInt16 ds = .ok (UInt32.ofNat n) ∧ n < 0x10000 := by
  obtain ⟨ha, hb, hc, hd⟩ := h
  rename_i a b c d x y z w
  obtain ⟨hx, -, hspace, hminus, hplus, -⟩ := hexValue_cases ha
  obtain ⟨hy, -, -, -, -, hbx, hbX, -⟩ := hexValue_cases hb
  have hz := (hexValue_cases hc).1
  have hw := (hexValue_cases hd).1
  have hlt : 16 * (16 * (16 * x + y) + z) + w < 0x10000 := by omega
  have hsign : readSignByte ([a, b, c, d].dropWhile isspaceByte) = (false, [a, b, c, d]) := by
    rw [List.dropWhile_cons_of_neg (by rw [hspace]; decide), readSignByte, if_neg hminus, if_neg hplus]
  have hbase : skipBase [a, b, c, d] = [a, b, c, d] := by
    unfold skipBase
    split
    next heq =>
      cases heq
      rw [if_neg]
      exact fun hboth => hboth.1.elim hbx hbX
    · rfl
  have hread : readHexDigits 0 [a, b, c, d] = (16 * (16 * (16 * x + y) + z) + w, []) := by
    simp only [readHexDigits, ha, hb, hc, hd, Nat.mul_zero, Nat.zero_add]
  have hvalue : strtoul16 [a, b, c, d] =
      (UInt64.ofNat (16 * (16 * (16 * x + y) + z) + w), []) := by
    rw [strtoul16, hsign]
    simp only [hbase, List.head?_cons, Option.any_some, ha, Option.isSome_some, if_true, hread]
    rw [if_neg (by omega)]
    rfl
  refine ⟨?_, hlt⟩
  rw [stringToUInt16, if_neg (List.cons_ne_nil _ _), hvalue]
  generalize 16 * (16 * (16 * x + y) + z) + w = n at hlt
  have hsame : (UInt64.ofNat n).toUInt32 = UInt32.ofNat n := by
    rw [← UInt32.toNat_inj, UInt64.toNat_toUInt32, UInt64.toNat_ofNat', UInt32.toNat_ofNat']
    omega
  have hback : (UInt32.ofNat n).toUInt64 = UInt64.ofNat n := by
    rw [← UInt64.toNat_inj, UInt32.toNat_toUInt64, UInt64.toNat_ofNat', UInt32.toNat_ofNat']
    omega
  simp only [hsame, hback, ne_eq, not_true_eq_false, if_false]

/-! ## Strings -/

theorem isSurrogateHigh_iff {n : Nat} (hn : n < 0x10000) :
    isSurrogateHigh (UInt32.ofNat n).toUInt16 = true ↔ 0xd800 ≤ n ∧ n ≤ 0xdbff := by
  have hnat : (UInt32.ofNat n).toUInt16.toNat = n := by
    rw [UInt32.toNat_toUInt16, UInt32.toNat_ofNat']
    omega
  rw [isSurrogateHigh, decide_eq_true_iff, UInt16.le_iff_toNat_le, UInt16.le_iff_toNat_le, hnat]
  rfl

theorem toUInt16_toUInt32 {n : Nat} (hn : n < 0x10000) :
    (UInt32.ofNat n).toUInt16.toUInt32 = UInt32.ofNat n := by
  rw [← UInt32.toNat_inj, UInt16.toNat_toUInt32, UInt32.toNat_toUInt16, UInt32.toNat_ofNat']
  omega

theorem decodeSurrogatePair_eq {high low : Nat} (hhigh : 0xd800 ≤ high ∧ high ≤ 0xdbff)
    (hlow : low < 0x10000) (c : UInt32) :
    decodeSurrogatePair (UInt32.ofNat high).toUInt16 (UInt32.ofNat low).toUInt16 = .ok c ↔
      (0xdc00 ≤ low ∧ low ≤ 0xdfff) ∧ c = characterOf high low := by
  have hnat : (UInt32.ofNat low).toUInt16.toNat = low := by
    rw [UInt32.toNat_toUInt16, UInt32.toNat_ofNat']
    omega
  rw [decodeSurrogatePair, toUInt16_toUInt32 (by omega), toUInt16_toUInt32 hlow]
  split
  next hout =>
    rw [UInt16.lt_iff_toNat_lt, gt_iff_lt, UInt16.lt_iff_toNat_lt, hnat] at hout
    refine ⟨(fun h => nomatch h), fun h => ?_⟩
    have hlo : (0xdc00 : UInt16).toNat = 0xdc00 := rfl
    have hhi : (0xdfff : UInt16).toNat = 0xdfff := rfl
    omega
  next hin =>
    rw [UInt16.lt_iff_toNat_lt, gt_iff_lt, UInt16.lt_iff_toNat_lt, hnat] at hin
    have hlo : (0xdc00 : UInt16).toNat = 0xdc00 := rfl
    have hhi : (0xdfff : UInt16).toNat = 0xdfff := rfl
    have hrange : 0xdc00 ≤ low ∧ low ≤ 0xdfff := by omega
    have hsum : (0x10000 : UInt32) + ((UInt32.ofNat high - 0xd800) <<< 10) + (UInt32.ofNat low - 0xdc00) =
        characterOf high low := by
      rw [characterOf, ← UInt32.toNat_inj]
      simp only [UInt32.toNat_add, UInt32.toNat_sub, UInt32.toNat_shiftLeft, UInt32.toNat_ofNat',
        UInt32.reduceToNat, Nat.reduceMod, Nat.shiftLeft_eq, Nat.reducePow]
      omega
    rw [hsum, Except.ok.injEq]
    exact ⟨fun h => ⟨hrange, h.symm⟩, fun h => h.2.symm⟩

theorem FourDigits.mem {ds : List UInt8} {n : Nat} (h : FourDigits ds n) :
    ∀ b ∈ ds, 0x20 ≤ b ∧ b ≠ 0x22 ∧ b ≠ 0x5c ∧ b < 0x80 := by
  obtain ⟨ha, hb, hc, hd⟩ := h
  have hdigit : ∀ {b x}, hexValue b = some x → 0x20 ≤ b ∧ b ≠ 0x22 ∧ b ≠ 0x5c ∧ b < 0x80 := by
    intro b x hx
    obtain ⟨-, hmin, -, -, -, -, -, hquote, hbackslash, hascii⟩ := hexValue_cases hx
    exact ⟨hmin, hquote, hbackslash, hascii⟩
  intro b hmem
  simp only [List.mem_cons, List.not_mem_nil, or_false] at hmem
  rcases hmem with rfl | rfl | rfl | rfl
  · exact hdigit ha
  · exact hdigit hb
  · exact hdigit hc
  · exact hdigit hd

theorem isText_of_ascii {x : List UInt8} (h : ∀ b ∈ x, b < 0x80) : IsText x := by
  induction x with
  | nil => exact ⟨0, .nil⟩
  | cons b x ih =>
    obtain ⟨hb, hx⟩ := List.forall_mem_cons.mp h
    obtain ⟨n, hn⟩ := ih hx
    exact ⟨n + 1, .cons (encodeCodePoint_ascii hb) hn⟩

theorem ascii_of_simpleEscapes {x b : UInt8} (h : simpleEscapes.lookup x = some b) : x < 0x80 := by
  have hall : ∀ p ∈ simpleEscapes, p.1 < 0x80 := by
    simp only [simpleEscapes, List.forall_mem_cons]
    exact ⟨by decide, by decide, by decide, by decide, by decide, by decide, by decide, by decide,
      by decide, fun _ h => nomatch h⟩
  obtain ⟨l, l', heq, -⟩ := List.lookup_eq_some_iff.mp h
  refine hall (x, b) ?_
  rw [heq]
  exact List.mem_append_right l (List.mem_cons_self ..)

theorem FourDigits.isText_self {ds : List UInt8} {n : Nat} (h : FourDigits ds n) : IsText ds :=
  isText_of_ascii fun b hb => (h.mem b hb).2.2.2

theorem IsText.of_ascii_append {x rest : List UInt8} (hx : ∀ b ∈ x, b < 0x80) (h : IsText (x ++ rest)) :
    IsText rest := by
  induction x with
  | nil => exact h
  | cons b x ih =>
    obtain ⟨hb, hx⟩ := List.forall_mem_cons.mp hx
    exact ih hx (h.of_ascii hb)

theorem FourDigits.isText {ds rest : List UInt8} {n : Nat} (h : FourDigits ds n)
    (htext : IsText (ds ++ rest)) : IsText rest :=
  IsText.of_ascii_append (fun b hb => (h.mem b hb).2.2.2) htext

/-- The parser has all of the escapes. -/
def Understood (escapes : List (UInt8 × UInt8)) : Prop :=
  ∀ x b, escapes.lookup x = some b → simpleEscapes.lookup x = some b

theorem lookup_escapesWithAlert (x : UInt8) : escapesWithAlert.lookup x = simpleEscapes.lookup x := by
  by_cases h : x = 0x61
  · rw [h]
    decide
  · have halert : (x == 0x61) = false := beq_eq_false_iff_ne.mpr h
    simp only [escapesWithAlert, standardEscapes, simpleEscapes, List.lookup, halert]

theorem understood_escapesWithAlert : Understood escapesWithAlert :=
  fun x _ h => (lookup_escapesWithAlert x).symm.trans h

/-- The digits of a code unit are read, up to the last of them. -/
theorem codeUnit_digits {ds : List UInt8} {n : Nat} (h : FourDigits ds n) (rest : List UInt8) :
    ∃ i, nextFour (ds ++ rest) = .ok (ds, i) ∧ i.tail = rest ∧
      codeUnit ds i = .ok (UInt32.ofNat n).toUInt16 := by
  obtain ⟨hread, -⟩ := stringToUInt16_digits h
  obtain ⟨ha, hb, hc, hd⟩ := h
  refine ⟨_, rfl, rfl, ?_⟩
  rw [codeUnit, hread]

theorem surrogate_of_encode {n : Nat} (hn : n < 0x10000) {bytes : List UInt8}
    (h : encodeCodePoint (UInt32.ofNat n) = .ok bytes) :
    isSurrogateHigh (UInt32.ofNat n).toUInt16 = false := by
  obtain ⟨hscalar, -⟩ := encodeCodePoint_eq_ok.mp h
  rw [UInt32.toNat_ofNat', Nat.mod_eq_of_lt (by omega)] at hscalar
  refine Bool.eq_false_iff.mpr fun hhigh => hscalar.2 ?_
  have hrange := (isSurrogateHigh_iff hn).mp hhigh
  omega

theorem encoded_eq_ok {c : UInt32} {i bytes : List UInt8} :
    encoded c i = .ok bytes ↔ encodeCodePoint c = .ok bytes := by
  rw [encoded]
  cases hc : encodeCodePoint c with
  | ok b => rw [Except.ok.injEq, Except.ok.injEq]
  | error e => exact ⟨(fun h => by cases h), fun h => by cases h⟩

theorem encoded_bind_eq_ok {c : UInt32} {i bytes left rest : List UInt8} :
    (encoded c i >>= fun bytes => .ok (bytes, rest)) = .ok (bytes, left) ↔
      encodeCodePoint c = .ok bytes ∧ left = rest := by
  rw [bind_eq_ok]
  constructor
  · rintro ⟨b, hb, heq⟩
    cases heq
    exact ⟨encoded_eq_ok.mp hb, rfl⟩
  · rintro ⟨hc, rfl⟩
    exact ⟨bytes, encoded_eq_ok.mpr hc, rfl⟩

section Digits

variable {ds : List UInt8} {n : Nat} (h : FourDigits ds n)

include h

theorem unicodeEscape_digits (rest : List UInt8) : ∃ i, i.tail = rest ∧
    unicodeEscape (ds ++ rest) =
      if isSurrogateHigh (UInt32.ofNat n).toUInt16 then lowSurrogate (UInt32.ofNat n).toUInt16 i
      else encoded (UInt32.ofNat n) i >>= fun bytes => .ok (bytes, rest) := by
  obtain ⟨i, hfour, htail, hunit⟩ := codeUnit_digits h rest
  obtain ⟨-, hn⟩ := stringToUInt16_digits h
  have hsame := toUInt16_toUInt32 hn
  generalize UInt32.ofNat n = c at hunit hsame ⊢
  refine ⟨i, htail, ?_⟩
  rw [unicodeEscape, hfour, ← htail]
  simp only [bind, Except.bind, hunit, hsame]
  rfl

theorem unicodeEscape_scalar {rest bytes left : List UInt8}
    (hhigh : isSurrogateHigh (UInt32.ofNat n).toUInt16 = false) :
    unicodeEscape (ds ++ rest) = .ok (bytes, left) ↔
      encodeCodePoint (UInt32.ofNat n) = .ok bytes ∧ left = rest := by
  obtain ⟨i, -, hescape⟩ := unicodeEscape_digits h rest
  rw [hescape, hhigh, if_neg Bool.false_ne_true, encoded_bind_eq_ok]

theorem lowSurrogate_digits {rest i : List UInt8} (hi : i.tail = 0x5c :: 0x75 :: (ds ++ rest))
    {high : Nat} (hhigh : 0xd800 ≤ high ∧ high ≤ 0xdbff) {bytes left : List UInt8} :
    lowSurrogate (UInt32.ofNat high).toUInt16 i = .ok (bytes, left) ↔
      (0xdc00 ≤ n ∧ n ≤ 0xdfff) ∧ encodeCodePoint (characterOf high n) = .ok bytes ∧ left = rest := by
  obtain ⟨k, hfour, htail, hunit⟩ := codeUnit_digits h rest
  obtain ⟨-, hn⟩ := stringToUInt16_digits h
  have hpair := decodeSurrogatePair_eq hhigh hn
  generalize (UInt32.ofNat n).toUInt16 = low at hunit hpair
  generalize (UInt32.ofNat high).toUInt16 = unit at hpair ⊢
  generalize characterOf high n = c at hpair ⊢
  rw [lowSurrogate, hi]
  simp only [ne_eq, not_true_eq_false, or_self, if_false, hfour, bind, Except.bind, hunit]
  cases hdecode : decodeSurrogatePair unit low with
  | error e =>
    refine ⟨(fun h => by cases h), fun hall => ?_⟩
    rw [(hpair c).mpr ⟨hall.1, rfl⟩] at hdecode
    cases hdecode
  | ok d =>
    obtain ⟨hrange, rfl⟩ := (hpair d).mp hdecode
    rw [htail]
    exact encoded_bind_eq_ok.trans ⟨fun h => ⟨hrange, h⟩, fun h => h.2⟩

end Digits

theorem unescape_unicode (rest : List UInt8) :
    unescape (0x5c :: 0x75 :: rest) = unicodeEscape rest := by
  have hlookup : simpleEscapes.lookup 0x75 = none := by decide
  simp only [unescape, hlookup, if_true]

section Understood

variable {escapes : List (UInt8 × UInt8)} (hescapes : Understood escapes)

include hescapes

theorem unescape_of_charText {t bytes : List UInt8} (h : CharText escapes t bytes) (rest : List UInt8) :
    ∃ b t', t = b :: t' ∧ b ≠ 0x22 ∧ unescape (b :: (t' ++ rest)) = .ok (bytes, rest) := by
  cases h with
  | @unescaped c _ hbytes hmin hquote hbackslash =>
    obtain ⟨b, t', rfl⟩ := List.exists_cons_of_ne_nil (encodeCodePoint_ne_nil hbytes)
    obtain ⟨hb, -⟩ := List.forall_mem_cons.mp (plain_bytes_of_encode hbytes ⟨hmin, hquote, hbackslash⟩)
    exact ⟨b, t', rfl, hb.2.1, unescape_of_encode hbytes hb.2.2 rest⟩
  | @escape x b hx =>
    exact ⟨_, _, rfl, by decide, unescape_simple (hescapes x b hx) rest⟩
  | @unicode ds _ n hds hbytes =>
    obtain ⟨-, hn⟩ := stringToUInt16_digits hds
    refine ⟨_, _, rfl, by decide, ?_⟩
    rw [List.cons_append, unescape_unicode]
    exact (unicodeEscape_scalar hds (surrogate_of_encode hn hbytes)).mpr ⟨hbytes, rfl⟩
  | @pair ds ds' _ high low hds hds' hhigh hlow hbytes =>
    obtain ⟨-, hn⟩ := stringToUInt16_digits hds
    obtain ⟨i, htail, hescape⟩ := unicodeEscape_digits hds (0x5c :: 0x75 :: (ds' ++ rest))
    refine ⟨_, _, rfl, by decide, ?_⟩
    rw [List.cons_append, unescape_unicode, List.append_assoc, List.cons_append, List.cons_append,
      hescape, if_pos ((isSurrogateHigh_iff hn).mpr hhigh)]
    exact (lowSurrogate_digits hds' htail hhigh).mpr ⟨hlow, hbytes, rfl⟩

theorem scan_of_charsText {t value : List UInt8} (h : CharsText escapes t value) (rest : List UInt8) :
    scan (t ++ 0x22 :: rest) = .ok (value, rest) := by
  induction h with
  | nil => rw [List.nil_append, scan, if_pos rfl]
  | cons hchar _ ih =>
    obtain ⟨b, t', rfl, hb, hunescape⟩ := unescape_of_charText hescapes hchar (_ ++ 0x22 :: rest)
    rw [List.cons_append, List.cons_append, List.append_assoc]
    exact scan_of_unescape hb hunescape ih

theorem isText_of_charText {t bytes : List UInt8} (h : CharText escapes t bytes) : IsText t := by
  have hunicode : IsText [0x5c, 0x75] :=
    isText_of_ascii (List.forall_mem_cons.mpr ⟨by decide, List.forall_mem_cons.mpr ⟨by decide,
      fun _ h => nomatch h⟩⟩)
  cases h with
  | unescaped hbytes _ _ _ => exact ⟨1, .single hbytes⟩
  | escape hx =>
    refine isText_of_ascii (List.forall_mem_cons.mpr ⟨by decide, ?_⟩)
    exact List.forall_mem_cons.mpr ⟨ascii_of_simpleEscapes (hescapes _ _ hx), fun _ h => nomatch h⟩
  | unicode hds _ => exact hunicode.append hds.isText_self
  | pair hds hds' _ _ _ =>
    exact hunicode.append (hds.isText_self.append (hunicode.append hds'.isText_self))

theorem isText_of_charsText {t bytes : List UInt8} (h : CharsText escapes t bytes) : IsText t := by
  induction h with
  | nil => exact ⟨0, .nil⟩
  | cons hchar _ ih => exact (isText_of_charText hescapes hchar).append ih

theorem quoted_of_charsText {value : Utf8String} {t : List UInt8} (h : CharsText escapes t value.value) :
    Quoted value t := by
  have hquote : IsText [0x22] := ⟨1, .single (show encodeCodePoint 0x22 = .ok [0x22] from rfl)⟩
  exact ⟨hquote.append ((isText_of_charsText hescapes h).append hquote),
    fun hdrop => takes_stringLiteral (scan_of_charsText hescapes h _) hdrop⟩

/-! ## Values -/

theorem reads_of_valueText (n : Nat) : ∀ {e : Tree} {out : List UInt8}, out.length ≤ n →
    ValueText escapes e out → Reads e out := by
  induction n with
  | zero =>
    intro e out hle h
    obtain rfl := List.eq_nil_of_length_eq_zero (Nat.le_zero.mp hle)
    generalize hout : ([] : List UInt8) = out at h
    cases h with
    | string h =>
      obtain ⟨t, rfl, -⟩ := h
      cases hout
    | number l => exact reads_number l none
    | _ => cases hout
  | succ n ih =>
    intro e out hle h
    cases h with
    | null => exact reads_null
    | true => exact reads_true
    | false => exact reads_false
    | number l => exact reads_number l none
    | string h =>
      obtain ⟨t, rfl, hchars⟩ := h
      exact reads_string none (quoted_of_charsText hescapes hchars)
    | array h =>
      refine reads_array none (h.imp fun e out hlength hout => ih ?_ hout)
      simp only [List.length_cons, List.length_append] at hle
      omega
    | object h =>
      refine reads_object none (h.imp fun m out hlength hmember => ?_)
      obtain ⟨⟨t, rfl, hchars⟩, hw, hw', hout⟩ := hmember
      refine reads_member (quoted_of_charsText hescapes hchars) (ih ?_ hout) hw hw'
      simp only [List.length_cons, List.length_append] at hle hlength
      omega

/-- A JSON text is parsed, as what it denotes. -/
theorem parse_of_jsonText {json : Utf8String} {e : Tree} (h : JsonText escapes json.value e) :
    ∃ e', e'.plain = e.plain ∧ ∃ depth, ∀ n, depth ≤ n → parse n json = some (.ok e') := by
  obtain ⟨w, out, w', hvalue, hw, hout, hw'⟩ := h
  exact parse_of_reads hvalue hw hw' (reads_of_valueText hescapes _ le_rfl hout)

end Understood

end Urnest.Json
