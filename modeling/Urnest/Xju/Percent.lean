import Urnest.Lib.Bytes
import Urnest.Xju.CEscape

/-!
# Percent coding

`pctEncode` writes what is not in a set of characters as `%HH`, and `pctDecode` reads such triplets,
except those for a character in a set.

A string's `char` is signed, and the bits of a set are tested by it as it is. For a byte from 128 on
that is an index far beyond the set: `std::bitset::test` throws, and since both functions are
`noexcept` the program ends there. What they return is `none` then.
-/

namespace Urnest.Xju.Uri

open CEscape

/-! ## Sets of characters -/

structure Chars where
  pattern : List UInt8
  bits : UInt8 → Bool

namespace Chars

/-- The bits that the loop over a pattern sets: those of its characters, and what is between the
ends of a range. -/
def bitsOf : List UInt8 → UInt8 → Bool
  | c :: 0x2d :: d :: pattern, b =>
    if c < d then b == c || (c < b && b < d) || bitsOf (d :: pattern) b
    else b == c || bitsOf (0x2d :: d :: pattern) b
  | c :: pattern, b => b == c || bitsOf pattern b
  | [], _ => false

def ofPattern (pattern : List UInt8) : Chars := ⟨pattern, bitsOf pattern⟩

/-- `bits().test` of a `char` -/
def test (x : Chars) (c : UInt8) : Option Bool := if c < 128 then some (x.bits c) else none

end Chars

/-- `"a-fA-F0-9"` -/
def hexDigits : Chars := .ofPattern [0x61, 0x2d, 0x66, 0x41, 0x2d, 0x46, 0x30, 0x2d, 0x39]

/-! ## Coding -/

def pctEncode (except : Chars) : List UInt8 → Option (List UInt8)
  | [] => some []
  | c :: x => do
    let kept ← except.test c
    let s ← pctEncode except x
    if kept then some (c :: s) else some (0x25 :: (hex c).1 :: (hex c).2 :: s)

/-- What a digit is worth to `strtoul` -/
def hexValue (b : UInt8) : Option UInt8 :=
  if 0x30 ≤ b ∧ b ≤ 0x39 then some (b - 0x30)
  else if 0x61 ≤ b ∧ b ≤ 0x66 then some (b - 0x61 + 10)
  else if 0x41 ≤ b ∧ b ≤ 0x46 then some (b - 0x41 + 10)
  else none

/-- `stringToUInt` of two digits -/
def octet (h l : UInt8) : UInt8 := 16 * (hexValue h).getD 0 + (hexValue l).getD 0

/-- The condition on what is ahead, which is tested as far as it has to be. -/
def atTriplet : List UInt8 → Option Bool
  | 0x25 :: h :: x => do
    if ← hexDigits.test h then
      match x with
      | [] => some false
      | l :: _ => hexDigits.test l
    else some false
  | _ => some false

def pctDecode (except : Chars) : List UInt8 → Option (List UInt8)
  | [] => some []
  | c :: h :: l :: x => do
    if ← atTriplet (c :: h :: l :: x) then
      let s ← pctDecode except x
      if except.bits (octet h l) then some (c :: h :: l :: s) else some (octet h l :: s)
    else
      let s ← pctDecode except (h :: l :: x)
      some (c :: s)
  | c :: x => do
    let _ ← atTriplet (c :: x)
    let s ← pctDecode except x
    some (c :: s)

/-! ## What they are for -/

def IsHex (b : UInt8) : Prop := (hexValue b).isSome

instance (b : UInt8) : Decidable (IsHex b) := inferInstanceAs (Decidable (_ = true))

/-- Characters of a set, and triplets -/
inductive Encoded (except : Chars) : List UInt8 → Prop where
  | nil : Encoded except []
  | char {c : UInt8} {y : List UInt8} (hc : except.bits c = true) (hy : Encoded except y) :
      Encoded except (c :: y)
  | triplet {h l : UInt8} {y : List UInt8} (hh : IsHex h) (hl : IsHex l) (hy : Encoded except y) :
      Encoded except (0x25 :: h :: l :: y)

/-- A well-formed triplet comes first. -/
def StartsWithTriplet (y : List UInt8) : Prop :=
  ∃ h l x, y = 0x25 :: h :: l :: x ∧ IsHex h ∧ IsHex l

/-- The well-formed triplets are decoded whose octet is not in a set, and all else is copied. -/
inductive Decoded (except : Chars) : List UInt8 → List UInt8 → Prop where
  | nil : Decoded except [] []
  | octet {h l : UInt8} {y z : List UInt8} (hh : IsHex h) (hl : IsHex l)
      (ho : except.bits (octet h l) = false) (hy : Decoded except y z) :
      Decoded except (0x25 :: h :: l :: y) (octet h l :: z)
  | triplet {h l : UInt8} {y z : List UInt8} (hh : IsHex h) (hl : IsHex l)
      (ho : except.bits (octet h l) = true) (hy : Decoded except y z) :
      Decoded except (0x25 :: h :: l :: y) (0x25 :: h :: l :: z)
  | char {c : UInt8} {y z : List UInt8} (hc : ¬ StartsWithTriplet (c :: y))
      (hy : Decoded except y z) : Decoded except (c :: y) (c :: z)

/-- What is encoded is of the right form, and is decoded to what it was. -/
def Inverse (except : Chars) (x : List UInt8) : Prop :=
  except.bits 0x25 = false → ∃ y, pctEncode except x = some y ∧ Encoded except y ∧
    pctDecode (.ofPattern []) y = some x

/-- What is ahead of a `%` starts with no byte from 128 on, nor with a digit and such a byte. -/
def Ahead (y : List UInt8) : Prop :=
  ∀ h ∈ y.head?, h < 128 ∧ (IsHex h → ∀ l ∈ y.tail.head?, l < 128)

/-- It is so ahead of every `%`. -/
def Testable : List UInt8 → Prop
  | [] => True
  | c :: y => (c = 0x25 → Ahead y) ∧ Testable y

/-! ## Digits -/

theorem hexDigits_bits (b : UInt8) : hexDigits.bits b = (hexValue b).isSome := by
  revert b
  refine Lib.forall_byte ?_
  decide +kernel

theorem octet_hex (c : UInt8) : octet (hex c).1 (hex c).2 = c := by
  revert c
  refine Lib.forall_byte ?_
  decide +kernel

theorem isHex_hex (c : UInt8) : IsHex (hex c).1 ∧ IsHex (hex c).2 := by
  revert c
  refine Lib.forall_byte ?_
  decide +kernel

theorem IsHex.lt {b : UInt8} (h : IsHex b) : b < 128 := by
  rw [IsHex, hexValue] at h
  split_ifs at h with h₁ h₂ h₃
  · exact UInt8.lt_of_le_of_lt h₁.2 (by decide)
  · exact UInt8.lt_of_le_of_lt h₂.2 (by decide)
  · exact UInt8.lt_of_le_of_lt h₃.2 (by decide)
  · cases h

theorem IsHex.ne_percent {b : UInt8} (h : IsHex b) : b ≠ 0x25 := by
  rintro rfl
  exact absurd h (by decide)

theorem test_hexDigits {b : UInt8} (h : b < 128) :
    hexDigits.test b = some (hexValue b).isSome := by
  rw [Chars.test, if_pos h, hexDigits_bits]

theorem test_none {x : Chars} {b : UInt8} (h : ¬ b < 128) : x.test b = none := if_neg h

/-! ## What is ahead -/

theorem atTriplet_of_ne {c : UInt8} (y : List UInt8) (h : c ≠ 0x25) :
    atTriplet (c :: y) = some false := by
  rw [atTriplet]
  rintro h x ⟨⟩
  exact absurd rfl h

theorem not_startsWithTriplet_of_ne {c : UInt8} {y : List UInt8} (h : c ≠ 0x25) :
    ¬ StartsWithTriplet (c :: y) := by
  rintro ⟨_, _, _, heq, -⟩
  exact h (List.cons.inj heq).1

/-- The condition is a test for a triplet. -/
theorem atTriplet_percent {y : List UInt8} (hahead : Ahead y) :
    ∃ t, atTriplet (0x25 :: y) = some t ∧ (t = true ↔ StartsWithTriplet (0x25 :: y)) := by
  rcases y with _ | ⟨h, _ | ⟨l, x⟩⟩
  · refine ⟨false, rfl, iff_of_false Bool.false_ne_true ?_⟩
    rintro ⟨_, _, _, heq, -⟩
    cases heq
  · obtain ⟨hh, -⟩ := hahead h rfl
    refine ⟨false, ?_, iff_of_false Bool.false_ne_true ?_⟩
    · rw [atTriplet, test_hexDigits hh]
      cases (hexValue h).isSome <;> rfl
    · rintro ⟨_, _, _, heq, -⟩
      cases heq
  · obtain ⟨hh, hl⟩ := hahead h rfl
    have hstarts : StartsWithTriplet (0x25 :: h :: l :: x) ↔ IsHex h ∧ IsHex l := by
      constructor
      · rintro ⟨_, _, _, heq, hhl⟩
        cases heq
        exact hhl
      · exact fun hhl => ⟨h, l, x, rfl, hhl⟩
    rw [atTriplet, test_hexDigits hh, hstarts]
    by_cases hhex : IsHex h
    · refine ⟨(hexValue l).isSome, ?_, (and_iff_right hhex).symm⟩
      rw [← test_hexDigits (hl hhex l rfl), show (hexValue h).isSome = true from hhex]
      rfl
    · refine ⟨false, ?_, iff_of_false Bool.false_ne_true fun hhl => hhex hhl.1⟩
      rw [show (hexValue h).isSome = false from Bool.not_eq_true _ ▸ hhex]
      rfl

/-- It ends at a byte from 128 on. -/
theorem atTriplet_none {y : List UInt8} (hahead : ¬ Ahead y) : atTriplet (0x25 :: y) = none := by
  rcases y with _ | ⟨h, y⟩
  · exact absurd (fun h hh => nomatch hh) hahead
  · by_cases hh : h < 128
    · rcases y with _ | ⟨l, x⟩
      · refine absurd ?_ hahead
        rintro _ ⟨⟩
        exact ⟨hh, fun _ l hl => nomatch hl⟩
      · have hhex : IsHex h ∧ ¬ l < 128 := by
          by_contra hnot
          refine hahead ?_
          rintro _ ⟨⟩
          refine ⟨hh, ?_⟩
          rintro hhex _ ⟨⟩
          exact Classical.byContradiction fun hl => hnot ⟨hhex, hl⟩
        rw [atTriplet, test_hexDigits hh, show (hexValue h).isSome = true from hhex.1]
        exact test_none hhex.2
    · simp only [atTriplet, test_none hh]
      rfl

/-! ## Decoding -/

variable {except : Chars}

theorem pctDecode_char {c : UInt8} {y : List UInt8} (h : atTriplet (c :: y) = some false) :
    pctDecode except (c :: y) = (pctDecode except y).map (c :: ·) := by
  rcases y with _ | ⟨h', _ | ⟨l, x⟩⟩
  · simp only [pctDecode, h]
    rfl
  · simp only [pctDecode, h]
    cases atTriplet [h'] <;> rfl
  · rw [pctDecode, h]
    cases pctDecode except (h' :: l :: x) <;> rfl

theorem pctDecode_triplet {h l : UInt8} {x : List UInt8}
    (ht : atTriplet (0x25 :: h :: l :: x) = some true) :
    pctDecode except (0x25 :: h :: l :: x) = (pctDecode except x).map fun s =>
      if except.bits (octet h l) then 0x25 :: h :: l :: s else octet h l :: s := by
  rw [pctDecode, ht]
  cases pctDecode except x <;> cases except.bits (octet h l) <;> rfl

theorem pctDecode_none {c : UInt8} {y : List UInt8} (h : atTriplet (c :: y) = none) :
    pctDecode except (c :: y) = none := by
  rcases y with _ | ⟨h', _ | ⟨l, x⟩⟩
  · simp only [pctDecode, h]
    rfl
  · simp only [pctDecode, h]
    rfl
  · rw [pctDecode, h]
    rfl

theorem testable_cons {c : UInt8} {y : List UInt8} :
    Testable (c :: y) ↔ (c = 0x25 → Ahead y) ∧ Testable y := Iff.rfl

theorem testable_triplet {h l : UInt8} {x : List UInt8} (hh : IsHex h) (hl : IsHex l) :
    Testable (0x25 :: h :: l :: x) ↔ Testable x := by
  have hahead : Ahead (h :: l :: x) := by
    rintro _ ⟨⟩
    refine ⟨hh.lt, ?_⟩
    rintro - _ ⟨⟩
    exact hl.lt
  simp only [testable_cons, hahead, hh.ne_percent, hl.ne_percent, implies_true, false_implies,
    true_and]

/-- All that is decoded is decoded right, and nothing else is. -/
theorem pctDecode_spec (except : Chars) (n : Nat) (y : List UInt8) (hn : y.length ≤ n) :
    (Testable y ∧ ∃ z, pctDecode except y = some z ∧ Decoded except y z) ∨
      ¬ Testable y ∧ pctDecode except y = none := by
  induction n generalizing y with
  | zero =>
    obtain rfl := List.eq_nil_of_length_eq_zero (Nat.le_zero.mp hn)
    exact .inl ⟨trivial, [], rfl, .nil⟩
  | succ n ih =>
    rcases y with _ | ⟨c, y⟩
    · exact .inl ⟨trivial, [], rfl, .nil⟩
    have hy : y.length ≤ n := Nat.le_of_succ_le_succ hn
    have hchar : (c = 0x25 → Ahead y) → atTriplet (c :: y) = some false →
        ¬ StartsWithTriplet (c :: y) →
        (Testable (c :: y) ∧ ∃ z, pctDecode except (c :: y) = some z ∧ Decoded except (c :: y) z) ∨
          ¬ Testable (c :: y) ∧ pctDecode except (c :: y) = none := by
      intro hahead hat hstarts
      rw [pctDecode_char hat, testable_cons, and_iff_right hahead]
      rcases ih y hy with ⟨htestable, z, hz, hdecoded⟩ | ⟨htestable, hnone⟩
      · exact .inl ⟨htestable, c :: z, by rw [hz, Option.map_some], .char hstarts hdecoded⟩
      · exact .inr ⟨htestable, by rw [hnone, Option.map_none]⟩
    by_cases hc : c = 0x25
    · subst hc
      by_cases hahead : Ahead y
      · obtain ⟨t, hat, hstarts⟩ := atTriplet_percent hahead
        cases t with
        | false => exact hchar (fun _ => hahead) hat fun hs => absurd (hstarts.mpr hs) (by decide)
        | true =>
          obtain ⟨h, l, x, heq, hh, hl⟩ := hstarts.mp rfl
          cases heq
          rw [pctDecode_triplet hat, testable_triplet hh hl]
          have hx : x.length ≤ n := by
            rw [List.length_cons, List.length_cons] at hy
            omega
          rcases ih x hx with ⟨htestable, z, hz, hdecoded⟩ | ⟨htestable, hnone⟩
          · refine .inl ⟨htestable, _, by rw [hz, Option.map_some], ?_⟩
            cases ho : except.bits (octet h l) with
            | false => exact .octet hh hl ho hdecoded
            | true => exact .triplet hh hl ho hdecoded
          · exact .inr ⟨htestable, by rw [hnone, Option.map_none]⟩
      · exact .inr ⟨fun h => hahead (h.1 rfl), pctDecode_none (atTriplet_none hahead)⟩
    · exact hchar (fun h => absurd h hc) (atTriplet_of_ne y hc) (not_startsWithTriplet_of_ne hc)

/-! ## Encoding -/

theorem atTriplet_hex (c : UInt8) (y : List UInt8) :
    atTriplet (0x25 :: (hex c).1 :: (hex c).2 :: y) = some true := by
  obtain ⟨hh, hl⟩ := isHex_hex c
  simp only [atTriplet, test_hexDigits hh.lt, test_hexDigits hl.lt]
  rw [show (hexValue (hex c).1).isSome = true from hh]
  exact congrArg some hl

/-- What a character is written as -/
def written (except : Chars) (c : UInt8) (s : List UInt8) : List UInt8 :=
  if except.bits c then c :: s else 0x25 :: (hex c).1 :: (hex c).2 :: s

theorem pctEncode_cons {c : UInt8} (hc : c < 128) (x : List UInt8) :
    pctEncode except (c :: x) = (pctEncode except x).map (written except c) := by
  rw [pctEncode, Chars.test, if_pos hc]
  cases pctEncode except x with
  | none => rfl
  | some s => exact (apply_ite some _ _ _).symm

theorem encoded_written {c : UInt8} {y : List UInt8} (h : Encoded except y) :
    Encoded except (written except c y) := by
  rw [written]
  split_ifs with hc
  · exact .char hc h
  · exact .triplet (isHex_hex c).1 (isHex_hex c).2 h

/-- A character that was written is read back. -/
theorem pctDecode_written (hpercent : except.bits 0x25 = false) (c : UInt8) (y : List UInt8) :
    pctDecode (.ofPattern []) (written except c y)
      = (pctDecode (.ofPattern []) y).map (c :: ·) := by
  rw [written]
  split_ifs with hc
  · have hne : c ≠ 0x25 := by
      rintro rfl
      exact Bool.false_ne_true (hpercent.symm.trans hc)
    exact pctDecode_char (atTriplet_of_ne y hne)
  · rw [pctDecode_triplet (atTriplet_hex c y), octet_hex]
    rfl

theorem pctEncode_spec (except : Chars) {x : List UInt8} (h : ∀ b ∈ x, b < 128) :
    ∃ y, pctEncode except x = some y ∧ Encoded except y ∧
      (except.bits 0x25 = false → pctDecode (.ofPattern []) y = some x) := by
  induction x with
  | nil => exact ⟨[], rfl, .nil, fun _ => rfl⟩
  | cons c x ih =>
    obtain ⟨hc, hx⟩ := List.forall_mem_cons.mp h
    obtain ⟨y, hy, hencoded, hdecode⟩ := ih hx
    refine ⟨written except c y, ?_, encoded_written hencoded, fun hpercent => ?_⟩
    · rw [pctEncode_cons hc, hy, Option.map_some]
    · rw [pctDecode_written hpercent, hdecode hpercent, Option.map_some]

theorem lt_of_pctEncode {x y : List UInt8} (h : pctEncode except x = some y) :
    ∀ b ∈ x, b < 128 := by
  induction x generalizing y with
  | nil => exact fun b hb => nomatch hb
  | cons c x ih =>
    by_cases hc : c < 128
    · rw [pctEncode_cons hc] at h
      obtain ⟨s, hs, -⟩ := Option.map_eq_some_iff.mp h
      exact List.forall_mem_cons.mpr ⟨hc, ih hs⟩
    · rw [pctEncode, test_none hc] at h
      cases h

/-- Bytes from 128 on cannot be encoded, nor be tested by `pctDecode`. What can be is encoded to
what is decoded to it again, and the right triplets are decoded. -/
theorem percent_coding (except : Chars) :
    (∀ x, Inverse except x ↔ (except.bits 0x25 = false → ∀ b ∈ x, b < 128)) ∧
    ∀ y, (∃ z, pctDecode except y = some z ∧ Decoded except y z) ↔ Testable y := by
  refine ⟨fun x => forall_congr' fun hpercent => ⟨?_, fun h => ?_⟩, fun y => ?_⟩
  · rintro ⟨y, hy, -⟩
    exact lt_of_pctEncode hy
  · obtain ⟨y, hy, hencoded, hdecode⟩ := pctEncode_spec except h
    exact ⟨y, hy, hencoded, hdecode hpercent⟩
  · rcases pctDecode_spec except y.length y le_rfl with ⟨htestable, hz⟩ | ⟨htestable, hnone⟩
    · exact iff_of_true hz htestable
    · refine iff_of_false ?_ htestable
      rintro ⟨z, hz, -⟩
      exact nomatch hnone.symm.trans hz

/-- The byte `é` starts with -/
theorem not_percent_coding :
    ¬ ∀ except x, Inverse except x := by
  intro h
  obtain ⟨y, hy, -⟩ := h (.ofPattern []) [0xc3] rfl
  exact nomatch hy

end Urnest.Xju.Uri
