import Mathlib.Data.UInt

/-!
# C string literals

`cEscapeString` and the reader of string literals that its output is for. A literal's octal
escape ends after three digits, and `octal` writes four, its leader among them. What is read
back for such a byte is therefore the byte without its last octal digit, and then that digit
as a character of its own (`readAs`); a byte that is written in another way is read back.
-/

namespace Urnest.Xju.CEscape

/-! ## Writing -/

def hexDigit (n : UInt8) : UInt8 := if n < 10 then 0x30 + n else 0x61 + (n - 10)

/-- `hex` of an `unsigned char`, with the leader `""` -/
def hex (x : UInt8) : UInt8 × UInt8 := (hexDigit (x / 16), hexDigit (x % 16))

/-- The digits of the loop in `asOctal`, the lowest first. The last one may have less than three
bits. -/
def reverse : Nat → UInt8 → List UInt8
  | 0, _ => []
  | 1, x => [(hex (x &&& 7)).2]
  | 2, x => [(hex (x &&& 7)).2]
  | bits + 3, x => (hex (x &&& 7)).2 :: reverse bits (x >>> 3)

def asOctal (x : UInt8) : List UInt8 := (reverse 8 x).reverse

def octal (x : UInt8) (leader : List UInt8 := [0x30]) : List UInt8 := leader ++ asOctal x

/-- In the C locale -/
def isprint (c : UInt8) : Bool := 0x20 ≤ c ∧ c ≤ 0x7e

def cEscapeCharCommon (c : UInt8) : List UInt8 :=
  match c with
  | 0x5c => [0x5c, 0x5c]
  | 0x07 => [0x5c, 0x61]
  | 0x08 => [0x5c, 0x62]
  | 0x0c => [0x5c, 0x66]
  | 0x0a => [0x5c, 0x6e]
  | 0x0d => [0x5c, 0x72]
  | 0x09 => [0x5c, 0x74]
  | 0x0b => [0x5c, 0x76]
  | c => if isprint c then [c] else 0x5c :: octal c

def cEscapeStringChar (c : UInt8) : List UInt8 :=
  match c with
  | 0x22 => [0x5c, 0x22]
  | c => cEscapeCharCommon c

def cEscapeString (s : List UInt8) : List UInt8 := s.flatMap cEscapeStringChar

/-! ## Reading

What a compiler makes of the characters between the quotes. Trigraphs are not replaced, and
of the escapes those that `cEscapeString` has no use for (hexadecimal ones and universal
character names) are left out.
-/

inductive Place where
  | between
  | escape
  /-- in an octal escape, with its value so far, that may have so many more digits -/
  | octal (value left : Nat)

def simpleEscape (c : UInt8) : Option UInt8 :=
  match c with
  | 0x27 => some 0x27
  | 0x22 => some 0x22
  | 0x3f => some 0x3f
  | 0x5c => some 0x5c
  | 0x61 => some 0x07
  | 0x62 => some 0x08
  | 0x66 => some 0x0c
  | 0x6e => some 0x0a
  | 0x72 => some 0x0d
  | 0x74 => some 0x09
  | 0x76 => some 0x0b
  | _ => none

def isOctalDigit (c : UInt8) : Bool := 0x30 ≤ c ∧ c ≤ 0x37

/-- The value of an octal escape has to fit in a character. -/
def octalValue (value : Nat) : Option (List UInt8) :=
  if value < 256 then some [UInt8.ofNat value] else none

def readBetween (c : UInt8) : Option (List UInt8 × Place) :=
  if c = 0x22 ∨ c = 0x0a then none
  else if c = 0x5c then some ([], .escape)
  else some ([c], .between)

/-- One more octal digit: the third one ends the escape. -/
def readDigit (value left : Nat) (c : UInt8) : Option (List UInt8 × Place) :=
  let value := value * 8 + (c - 0x30).toNat
  if left = 1 then (octalValue value).map (·, .between) else some ([], .octal value (left - 1))

def readChar : Place → UInt8 → Option (List UInt8 × Place)
  | .between, c => readBetween c
  | .escape, c =>
    if isOctalDigit c then readDigit 0 3 c else (simpleEscape c).map (([·], .between))
  | .octal value left, c =>
    if isOctalDigit c then readDigit value left c
    else do
      let ended ← octalValue value
      let (read, place) ← readBetween c
      return (ended ++ read, place)

def readEnd : Place → Option (List UInt8)
  | .between => some []
  | .escape => none
  | .octal value _ => octalValue value

def readFrom : Place → List UInt8 → Option (List UInt8)
  | place, [] => readEnd place
  | place, c :: cs => do
    let (read, place) ← readChar place c
    return read ++ (← readFrom place cs)

/-- The value of the literal with these characters between its quotes -/
def literalValue (cs : List UInt8) : Option (List UInt8) := readFrom .between cs

/-! ## What is read back -/

/-- The bytes that are not written as octal escapes -/
def plain (c : UInt8) : Bool := isprint c ∨ (0x07 ≤ c ∧ c ≤ 0x0d)

def readAs (c : UInt8) : List UInt8 := if plain c then [c] else [c / 8, 0x30 + c % 8]

theorem readAs_eq_iff (c : UInt8) : readAs c = [c] ↔ plain c := by
  unfold readAs
  split <;> simp_all

theorem and_seven (x : UInt8) : x &&& 7 = x % 8 := by
  apply UInt8.toNat_inj.mp
  simp only [UInt8.toNat_and, UInt8.toNat_mod]
  exact Nat.and_two_pow_sub_one_eq_mod x.toNat 3

theorem shiftRight_three (x : UInt8) : x >>> 3 = x / 8 := by
  apply UInt8.toNat_inj.mp
  simp only [UInt8.toNat_shiftRight, UInt8.toNat_div]
  exact Nat.shiftRight_eq_div_pow x.toNat 3

theorem mod_eight_lt (x : UInt8) : x % 8 < 8 := by
  simp only [UInt8.lt_iff_toNat_lt, UInt8.toNat_mod]
  exact Nat.mod_lt _ (by decide)

theorem hex_octal (x : UInt8) : (hex (x % 8)).2 = 0x30 + x % 8 := by
  have h := mod_eight_lt x
  generalize x % 8 = d at h
  have hd : d % 16 = d := by
    apply UInt8.toNat_inj.mp
    simp only [UInt8.toNat_mod]
    exact Nat.mod_eq_of_lt (by have := UInt8.lt_iff_toNat_lt.mp h; simp at this ⊢; omega)
  have hten : d < 10 := UInt8.lt_of_lt_of_le h (by decide)
  simp [hex, hexDigit, hd, hten]

theorem readAs_length_pos (c : UInt8) : 0 < (readAs c).length := by
  unfold readAs
  split <;> simp

/-- All three digits of the loop are octal ones. -/
theorem asOctal_eq (x : UInt8) :
    asOctal x = [0x30 + x / 8 / 8 % 8, 0x30 + x / 8 % 8, 0x30 + x % 8] := by
  simp [asOctal, reverse, and_seven, shiftRight_three, hex_octal]

theorem isOctalDigit_add {d : UInt8} (h : d < 8) : isOctalDigit (0x30 + d) := by
  simp only [isOctalDigit, decide_eq_true_eq]
  grind

theorem read_simple {e c : UInt8} (he : simpleEscape e = some c) (hd : isOctalDigit e = false)
    (rest : List UInt8) :
    readFrom .between (0x5c :: e :: rest) = (readFrom .between rest).map ([c] ++ ·) := by
  cases h : readFrom .between rest <;> simp [readFrom, readChar, readBetween, he, hd, h]

theorem read_self {c : UInt8} (hq : c ≠ 0x22) (hn : c ≠ 0x0a) (hb : c ≠ 0x5c) (rest : List UInt8) :
    readFrom .between (c :: rest) = (readFrom .between rest).map ([c] ++ ·) := by
  cases h : readFrom .between rest <;> simp [readFrom, readChar, readBetween, hq, hn, hb, h]

theorem readChar_digit (value left : Nat) {d : UInt8} (h : d < 8) :
    readChar (.octal value left) (0x30 + d) =
      if left = 1 then (octalValue (value * 8 + d.toNat)).map (·, .between)
      else some ([], .octal (value * 8 + d.toNat) (left - 1)) := by
  have hd : 0x30 + d - 0x30 = d := by grind
  rw [readChar, if_pos (isOctalDigit_add h), readDigit, hd]

theorem octalValue_high (x : UInt8) :
    octalValue ((x / 8 / 8 % 8).toNat * 8 + (x / 8 % 8).toNat) = some [x / 8] := by
  have hx := x.toNat_lt
  have he : (x / 8 / 8 % 8).toNat * 8 + (x / 8 % 8).toNat = (x / 8).toNat := by
    simp only [UInt8.toNat_div, UInt8.toNat_mod, UInt8.reduceToNat]
    omega
  rw [octalValue, he, if_pos (x / 8).toNat_lt, UInt8.ofNat_toNat]

/-- The leader and the two digits behind it are an escape; the last digit is left over. -/
theorem read_octal (x : UInt8) (rest : List UInt8) :
    readFrom .between (0x5c :: octal x ++ rest) =
      (readFrom .between rest).map ([x / 8, 0x30 + x % 8] ++ ·) := by
  have hescape : readChar .between 0x5c = some ([], .escape) := rfl
  have hleader : readChar .escape 0x30 = some ([], .octal 0 2) := rfl
  have hdigit : readChar .between (0x30 + x % 8) = some ([0x30 + x % 8], .between) := by
    have := mod_eight_lt x
    rw [readChar, readBetween, if_neg (by grind), if_neg (by grind)]
  simp only [octal, asOctal_eq, List.cons_append, List.nil_append, readFrom, hescape, hleader,
    readChar_digit _ _ (mod_eight_lt (x / 8 / 8)), readChar_digit _ _ (mod_eight_lt (x / 8)),
    Nat.zero_mul, Nat.zero_add, Nat.reduceSub, if_true, OfNat.ofNat_ne_one, if_false,
    octalValue_high, hdigit, Option.map_some, Option.bind_eq_bind, Option.bind_some]
  cases readFrom .between rest <;> rfl

theorem read_char (c : UInt8) (rest : List UInt8) :
    readFrom .between (cEscapeStringChar c ++ rest) =
      (readFrom .between rest).map (readAs c ++ ·) := by
  unfold cEscapeStringChar cEscapeCharCommon
  split
  · exact read_simple rfl rfl rest
  · split
    all_goals try exact read_simple rfl rfl rest
    split
    case isTrue h =>
      have hc : readAs c = [c] := (readAs_eq_iff c).mpr (by simp [plain, h])
      rw [hc]
      apply read_self <;> simp_all [isprint]
    case isFalse h =>
      have hc : plain c = false := by
        simp [plain, h]
        grind
      simpa [readAs, hc] using read_octal c rest

/-- No escape takes in a character of what is behind it. -/
theorem literalValue_cEscapeString (s : List UInt8) :
    literalValue (cEscapeString s) = some (s.flatMap readAs) := by
  induction s with
  | nil => rfl
  | cons c s ih =>
    have ih : readFrom .between (cEscapeString s) = some (s.flatMap readAs) := ih
    have happ : cEscapeString (c :: s) = cEscapeStringChar c ++ cEscapeString s := rfl
    rw [literalValue, happ, read_char, ih]
    rfl

theorem length_le_flatMap_readAs (s : List UInt8) : s.length ≤ (s.flatMap readAs).length := by
  induction s with
  | nil => simp
  | cons c s ih =>
    have hc := readAs_length_pos c
    simp only [List.flatMap_cons, List.length_append, List.length_cons]
    omega

theorem flatMap_readAs_eq_iff (s : List UInt8) : s.flatMap readAs = s ↔ ∀ c ∈ s, plain c := by
  induction s with
  | nil => simp
  | cons c s ih =>
    rw [List.forall_mem_cons, ← ih, ← readAs_eq_iff, List.flatMap_cons]
    constructor
    · intro h
      have hlength := congrArg List.length h
      have hs := length_le_flatMap_readAs s
      have hc := readAs_length_pos c
      simp only [List.length_append, List.length_cons] at hlength
      have happend : readAs c ++ s.flatMap readAs = [c] ++ s := h
      apply List.append_inj happend
      simp only [List.length_singleton]
      omega
    · rintro ⟨hc, hs⟩
      rw [hc, hs]
      rfl

/-- The literal has the value of the string just when no byte of it is written in octal. -/
theorem cEscapeString_exact_iff (s : List UInt8) :
    literalValue (cEscapeString s) = some s ↔
      ∀ c ∈ s, isprint c ∨ (0x07 ≤ c ∧ c ≤ 0x0d) := by
  rw [literalValue_cEscapeString, Option.some_inj, flatMap_readAs_eq_iff]
  simp [plain]

/-- The byte 1 is written as backslash, 0001: the value has a NUL and the digit 1. -/
theorem not_cEscapeString_exact :
    literalValue (cEscapeString [0x01]) = some [0x00, 0x31] ∧
      ¬ ∀ s, literalValue (cEscapeString s) = some s := by
  have hone : literalValue (cEscapeString [0x01]) = some [0x00, 0x31] := by decide
  refine ⟨hone, fun h => ?_⟩
  have heq := (h [0x01]).symm.trans hone
  simp at heq

end Urnest.Xju.CEscape
