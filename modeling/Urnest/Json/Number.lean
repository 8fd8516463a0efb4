import Urnest.Hcp.Parser
import Mathlib.Data.Rat.Defs
import Mathlib.Algebra.Order.Field.Rat
import Mathlib.Tactic.NormNum
import Mathlib.Tactic.FieldSimp

/-!
# Numbers of JSON

A number keeps its text, and the accessors read it with the functions of the C library, whose
results go through the types that the source gives them: `asU32_` and `asU64_` return an
`int`. `Literal` is a number of the grammar, and `Literal.value` what it denotes.

What is read is exact for some literals and not for others (`readsExactly_iff`): those
functions know neither fractions nor exponents, an `int` holds the outermost quarters of
64 bits at most, and `errno` is looked at without having been set.
-/

namespace Urnest.Json

open Hcp (isspace)

/-! ## The C library -/

def ERANGE : Nat := 34

def isDigit (c : Char) : Bool := '0' ≤ c ∧ c ≤ '9'

/-- Digits, behind those that make `n`, and what comes after. -/
def readDigits : Nat → List Char → Nat × List Char
  | n, [] => (n, [])
  | n, c :: s => if isDigit c then readDigits (10 * n + (c.toNat - 48)) s else (n, c :: s)

/-- An optional sign: is it a minus, and what comes after. -/
def readSign : List Char → Bool × List Char
  | [] => (false, [])
  | c :: s => if c = '-' then (true, s) else if c = '+' then (false, s) else (false, c :: s)

/-- White space, a sign and digits: is there a minus, what they make, and what comes after. -/
def numeral (s : List Char) : Option (Bool × Nat × List Char) :=
  let (negative, digits) := readSign (s.dropWhile isspace)
  if digits.head?.any isDigit then some (negative, readDigits 0 digits) else none

/-- `strtoull(s, &p, 10)`: its result, `p`, and `errno` afterwards. -/
def strtoull (s : List Char) (errno : Nat) : UInt64 × List Char × Nat :=
  match numeral s with
  | none => (0, s, errno)
  | some (negative, n, p) =>
    if 2 ^ 64 ≤ n then (0xffffffffffffffff, p, ERANGE)
    else (if negative then -UInt64.ofNat n else UInt64.ofNat n, p, errno)

/-- `strtol(s, &p, 10)` -/
def strtol (s : List Char) (errno : Nat) : Int64 × List Char × Nat :=
  match numeral s with
  | none => (0, s, errno)
  | some (negative, n, p) =>
    let x : Int := if negative then -n else n
    if x < -2 ^ 63 then (Int64.minValue, p, ERANGE)
    else if 2 ^ 63 ≤ x then (Int64.maxValue, p, ERANGE)
    else (Int64.ofInt x, p, errno)

/-! ## Exceptions -/

structure Exception where
  cause : String
  context : List String := []
  deriving DecidableEq, Repr

def Exception.addContext (e : Exception) (context : String) : Exception :=
  { e with context := e.context ++ [context] }

/-- What a function returns or throws, and `errno` afterwards. -/
abbrev Result (α : Type) := Except Exception α × Nat

def throws {α : Type} (cause : String) (errno : Nat) : Result α := (.error { cause := cause }, errno)

/-- `try`, and a `catch` that adds context. -/
def addingContext {α : Type} (context : String) : Result α → Result α
  | (.ok a, errno) => (.ok a, errno)
  | (.error e, errno) => (.error (e.addContext context), errno)

/-- `xju::format::quote` -/
def quote (x : List Char) : String := "\"" ++ String.ofList x ++ "\""

def unexpected (value p : List Char) (c : Char) : String :=
  "character " ++ toString (value.length - p.length + 1) ++ " ('" ++ String.ofList [c] ++ "') of " ++
    quote value ++ " unexpected"

def nul : Char := .ofNat 0

/-- `*p`, where `p` is in a C string. -/
def charAt : List Char → Char
  | [] => nul
  | c :: _ => c

/-! ## Conversions -/

/-- `stringToULongLong`, to its default base -/
def stringToULongLong (value : List Char) (errno : Nat) : Result UInt64 :=
  addingContext ("convert " ++ quote value ++ " to a base-10 unsigned long long integer") <|
    if value.length = 0 then throws (quote value ++ " is null") errno
    else
      let (x, p, errno) := strtoull value errno
      if charAt p ≠ nul then throws (unexpected value p (charAt p)) errno
      else if x.toInt64.toUInt64 ≠ x then
        throws (toString x ++ " is too large (maximum allowed unsigned long long is " ++
          "18446744073709551615)") errno
      else (.ok x, errno)

/-- `stringToInt` -/
def stringToInt (value : List Char) (errno : Nat) : Result Int32 :=
  addingContext ("convert " ++ quote value ++ " to an integer") <|
    if value.length = 0 then throws (quote value ++ " is null") errno
    else
      let (x, p, errno) := strtol value errno
      let outside := String.ofList value ++ " is outside range -2147483648..2147483647"
      if charAt p ≠ nul then throws (unexpected value p (charAt p)) errno
      else if errno = ERANGE then throws outside errno
      else if x.toInt32.toInt64 ≠ x then throws outside errno
      else (.ok x.toInt32, errno)

/-! ## Elements -/

inductive Element where
  /-- a `Number`, or a `ParsedNumber` with its line and column -/
  | number (value_ : List Char) (parsedAt : Option (Nat × Nat))
  /-- one of another kind, by its `str()` -/
  | other (str : String)

namespace Element

def str : Element → String
  | number value_ none => String.ofList value_
  | number value_ (some (line, column)) =>
    String.ofList value_ ++ " (at line " ++ toString line ++ " column " ++ toString column ++ ")"
  | other str => str

def notANumber {α : Type} (str : String) (errno : Nat) : Result α :=
  throws (str ++ " is not a number") errno

def asInt_ : Element → Nat → Result Int32
  | number value_ _, errno => stringToInt value_ errno
  | other str, errno => notANumber str errno

/-- What is larger than the largest of a type throws; what is left is returned as an `int`. -/
def asUnsigned_ (max : UInt64) (bits : String) (value_ : List Char) (errno : Nat) : Result Int32 :=
  match stringToULongLong value_ errno with
  | (.error e, errno) => (.error e, errno)
  | (.ok result, errno) =>
    if result > max then
      throws (toString result ++ " is larger than largest unsigned " ++ bits ++ " bit integer (" ++
        toString max ++ ")") errno
    else (.ok result.toUInt32.toInt32, errno)

def asU64_ : Element → Nat → Result Int32
  | number value_ _, errno => asUnsigned_ 0xffffffffffffffff "64" value_ errno
  | other str, errno => notANumber str errno

def asU32_ : Element → Nat → Result Int32
  | number value_ _, errno => asUnsigned_ 0xffffffff "32" value_ errno
  | other str, errno => notANumber str errno

/-- What the function returns is converted to what it is declared to return. -/
def converted {α β : Type} (convert : α → β) : Result α → Result β
  | (.ok a, errno) => (.ok (convert a), errno)
  | (.error e, errno) => (.error e, errno)

def asInt (x : Element) (errno : Nat) : Result Int32 :=
  addingContext ("get " ++ x.str ++ " as an int") (x.asInt_ errno)

def asU32 (x : Element) (errno : Nat) : Result UInt32 :=
  addingContext ("get " ++ x.str ++ " as an uint32_t") (converted Int32.toUInt32 (x.asU32_ errno))

def asU64 (x : Element) (errno : Nat) : Result UInt64 :=
  addingContext ("get " ++ x.str ++ " as an uint64_t")
    (converted (fun r => r.toInt64.toUInt64) (x.asU64_ errno))

end Element

/-! ## Literals -/

def digitChar (d : Fin 10) : Char := Char.ofNat (48 + d)

/-- Digits, behind those that make `n`. -/
def digitsFrom : Nat → List (Fin 10) → Nat
  | n, [] => n
  | n, d :: ds => digitsFrom (10 * n + d) ds

def ofDigits (ds : List (Fin 10)) : Nat := digitsFrom 0 ds

structure Exponent where
  upper : Bool
  /-- its sign, and whether that is a minus -/
  sign : Option Bool
  digits : List (Fin 10)
  digits_ne_nil : digits ≠ []

def Exponent.text (e : Exponent) : List Char :=
  (if e.upper then 'E' else 'e') ::
    ((e.sign.elim [] fun negative => [if negative then '-' else '+']) ++ e.digits.map digitChar)

def Exponent.value (e : Exponent) : Int :=
  if e.sign = some true then -ofDigits e.digits else ofDigits e.digits

/-- A number as RFC 8259 has it. -/
structure Literal where
  negative : Bool
  whole : List (Fin 10)
  /-- one digit, or no zero in front -/
  whole_wellFormed : whole = [0] ∨ ∃ d ds, whole = d :: ds ∧ d ≠ 0
  fraction : Option { digits : List (Fin 10) // digits ≠ [] }
  exponent : Option Exponent

namespace Literal

variable (l : Literal)

/-- The fraction and the exponent. -/
def tail : List Char :=
  (l.fraction.elim [] fun digits => '.' :: digits.1.map digitChar) ++
    l.exponent.elim [] Exponent.text

def text : List Char := (if l.negative then ['-'] else []) ++ l.whole.map digitChar ++ l.tail

def fractionDigits : List (Fin 10) := l.fraction.elim [] Subtype.val

/-- What the literal denotes. -/
def value : ℚ :=
  (if l.negative then -1 else 1) * ofDigits (l.whole ++ l.fractionDigits) *
    (10 : ℚ) ^ (l.exponent.elim 0 Exponent.value - l.fractionDigits.length)

/-- Neither a fraction nor an exponent. -/
def Plain : Prop := l.fraction = none ∧ l.exponent = none

/-- What the digits in front come to. -/
def integer : Int := if l.negative then -ofDigits l.whole else ofDigits l.whole

variable {l}

theorem value_of_plain (h : l.Plain) : l.value = l.integer := by
  obtain ⟨hfraction, hexponent⟩ := h
  rw [value, integer, fractionDigits, hfraction, hexponent]
  split_ifs
  · simp only [Option.elim_none, List.append_nil, List.length_nil, Nat.cast_zero, sub_zero, zpow_zero,
      mul_one, neg_mul, one_mul, Int.cast_neg, Int.cast_natCast]
  · simp only [Option.elim_none, List.append_nil, List.length_nil, Nat.cast_zero, sub_zero, zpow_zero,
      mul_one, one_mul, Int.cast_natCast]

/-! ## Reading the digits -/

theorem isDigit_digitChar (d : Fin 10) : isDigit (digitChar d) = true := by
  revert d
  decide

theorem toNat_digitChar (d : Fin 10) : (digitChar d).toNat - 48 = d := by
  revert d
  decide

theorem readDigits_digits (ds : List (Fin 10)) (n : Nat) {s : List Char}
    (hs : ∀ c ∈ s.head?, isDigit c = false) :
    readDigits n (ds.map digitChar ++ s) = (digitsFrom n ds, s) := by
  induction ds generalizing n with
  | nil =>
    cases s with
    | nil => rfl
    | cons c s =>
      rw [List.map_nil, List.nil_append, readDigits, if_neg (by rw [hs c rfl]; decide)]
      rfl
  | cons d ds ih =>
    rw [List.map_cons, List.cons_append, readDigits, if_pos (isDigit_digitChar d), ih,
      toNat_digitChar, digitsFrom]

theorem exists_whole (l : Literal) : ∃ d ds, l.whole = d :: ds := by
  rcases l.whole_wellFormed with h | ⟨d, ds, h, -⟩
  · exact ⟨0, [], h⟩
  · exact ⟨d, ds, h⟩

/-- The tail of a literal is empty, or its first character is one that the C library stops at. -/
theorem tail_cases (l : Literal) : l.Plain ∧ l.tail = [] ∨
    ¬ l.Plain ∧ ∃ c s, l.tail = c :: s ∧ isDigit c = false ∧ c ≠ nul := by
  rcases hfraction : l.fraction with _ | digits
  · rcases hexponent : l.exponent with _ | e
    · refine .inl ⟨⟨hfraction, hexponent⟩, ?_⟩
      rw [tail, hfraction, hexponent]
      rfl
    · have htail : l.tail = e.text := by
        rw [tail, hfraction, hexponent]
        rfl
      refine .inr ⟨fun h => ?_, _, _, htail.trans (Exponent.text.eq_1 e), ?_⟩
      · rw [h.2] at hexponent
        cases hexponent
      · cases e.upper <;> decide
  · have htail : l.tail = '.' :: (digits.1.map digitChar ++ l.exponent.elim [] Exponent.text) := by
      rw [tail, hfraction]
      rfl
    refine .inr ⟨fun h => ?_, '.', _, htail, by decide⟩
    rw [h.1] at hfraction
    cases hfraction

theorem head_tail (l : Literal) : ∀ c ∈ l.tail.head?, isDigit c = false := by
  intro c hc
  rcases tail_cases l with ⟨-, htail⟩ | ⟨-, c', s, htail, hdigit, -⟩
  · rw [htail] at hc
    cases hc
  · rw [htail] at hc
    cases hc
    exact hdigit

theorem digitChar_ne (d : Fin 10) :
    isspace (digitChar d) = false ∧ digitChar d ≠ '-' ∧ digitChar d ≠ '+' := by
  revert d
  decide

theorem numeral_text (l : Literal) :
    numeral l.text = some (l.negative, ofDigits l.whole, l.tail) := by
  obtain ⟨d, ds, hwhole⟩ := exists_whole l
  obtain ⟨hspace, hminus, hplus⟩ := digitChar_ne d
  have hdigits : l.whole.map digitChar ++ l.tail = digitChar d :: (ds.map digitChar ++ l.tail) := by
    rw [hwhole, List.map_cons, List.cons_append]
  have hsign : readSign (l.text.dropWhile isspace) =
      (l.negative, l.whole.map digitChar ++ l.tail) := by
    rw [text, List.append_assoc]
    rcases l.negative with _ | _
    · rw [if_neg Bool.false_ne_true, List.nil_append, hdigits,
        List.dropWhile_cons_of_neg (by rw [hspace]; decide), readSign, if_neg hminus, if_neg hplus]
    · rfl
  rw [numeral, hsign]
  simp only
  rw [readDigits_digits l.whole 0 (head_tail l), hdigits, List.head?_cons, Option.any_some,
    if_pos (isDigit_digitChar d)]
  rfl

theorem charAt_tail (l : Literal) : charAt l.tail = nul ↔ l.Plain := by
  rcases tail_cases l with ⟨hplain, htail⟩ | ⟨hplain, c, s, htail, -, hc⟩
  · rw [htail]
    exact iff_of_true rfl hplain
  · rw [htail]
    exact iff_of_false hc hplain

theorem text_length_ne (l : Literal) : l.text.length ≠ 0 := by
  obtain ⟨d, ds, hwhole⟩ := exists_whole l
  rw [text, hwhole, List.map_cons, List.length_append, List.length_append, List.length_cons]
  omega

end Literal

/-! ## Between the types -/

theorem toInt32_toInt64_eq_iff (x : Int64) :
    x.toInt32.toInt64 = x ↔ -2 ^ 31 ≤ x.toInt ∧ x.toInt < 2 ^ 31 := by
  rw [← Int64.toInt_inj, Int32.toInt_toInt64, Int64.toInt_toInt32, Int.bmod_def]
  omega

theorem toUInt64_toInt64 (x : UInt64) : x.toInt64.toUInt64 = x := rfl

theorem toInt_toUInt32_toInt32 (x : UInt64) :
    x.toUInt32.toInt32.toInt = (x.toNat : Int).bmod (2 ^ 32) := by
  have h : x.toUInt32.toInt32.toInt = ((x.toUInt32.toNat : Nat) : Int).bmod (2 ^ 32) :=
    BitVec.toInt_eq_toNat_bmod _
  rw [h, UInt64.toNat_toUInt32, Int.bmod_def, Int.bmod_def]
  omega

theorem toNat_int32_toUInt32 (x : Int32) : (x.toUInt32.toNat : Int) = x.toInt % 2 ^ 32 := by
  have h : x.toInt = ((x.toUInt32.toNat : Nat) : Int).bmod (2 ^ 32) :=
    BitVec.toInt_eq_toNat_bmod _
  have hlt := x.toUInt32.toNat_lt
  rw [h, Int.bmod_def]
  omega

theorem toNat_int32_toUInt64 (x : Int32) : (x.toInt64.toUInt64.toNat : Int) = x.toInt % 2 ^ 64 := by
  have h : x.toInt64.toInt = ((x.toInt64.toUInt64.toNat : Nat) : Int).bmod (2 ^ 64) :=
    BitVec.toInt_eq_toNat_bmod _
  have hlt := x.toInt64.toUInt64.toNat_lt
  rw [← Int32.toInt_toInt64, h, Int.bmod_def]
  omega
/-! ## What the conversions return -/

theorem addingContext_fst {α : Type} (context : String) (r : Result α) (a : α) :
    (addingContext context r).1 = .ok a ↔ r.1 = .ok a := by
  obtain ⟨_ | b, errno⟩ := r
  · exact ⟨(nomatch ·), (nomatch ·)⟩
  · exact Iff.rfl

theorem throws_fst {α : Type} (cause : String) (errno : Nat) (a : α) :
    (throws cause errno).1 = .ok a ↔ False := ⟨(nomatch ·), False.elim⟩

theorem stringToInt_text (l : Literal) (errno : Nat) (x : Int32) :
    (stringToInt l.text errno).1 = .ok x ↔
      l.Plain ∧ errno ≠ ERANGE ∧ -2 ^ 31 ≤ l.integer ∧ l.integer < 2 ^ 31 ∧
        x.toInt = l.integer := by
  -- Either `strtol` is out of its own range and says so, or it gives the integer; the range of
  -- `int` is checked after it.
  have hread : (∃ y, strtol l.text errno = (y, l.tail, ERANGE) ∧
      ¬ (-2 ^ 31 ≤ l.integer ∧ l.integer < 2 ^ 31)) ∨
      (-2 ^ 63 ≤ l.integer ∧ l.integer < 2 ^ 63 ∧
        strtol l.text errno = (Int64.ofInt l.integer, l.tail, errno)) := by
    have heq : strtol l.text errno =
        if l.integer < -2 ^ 63 then (Int64.minValue, l.tail, ERANGE)
        else if 2 ^ 63 ≤ l.integer then (Int64.maxValue, l.tail, ERANGE)
        else (Int64.ofInt l.integer, l.tail, errno) := by
      rw [strtol, l.numeral_text]
      rfl
    rw [heq]
    split_ifs with hsmall hlarge
    · exact .inl ⟨_, rfl, by omega⟩
    · exact .inl ⟨_, rfl, by omega⟩
    · exact .inr ⟨Int.not_lt.mp hsmall, Int.not_le.mp hlarge, rfl⟩
  have hchar := l.charAt_tail
  rw [stringToInt, addingContext_fst, if_neg l.text_length_ne]
  obtain ⟨y, hread, hout⟩ | ⟨hsmall, hlarge, hread⟩ := hread
  · rw [hread]
    simp only [ite_not, if_pos]
    split_ifs
    · exact ⟨fun h => ((throws_fst _ _ _).mp h).elim, fun h => absurd ⟨h.2.2.1, h.2.2.2.1⟩ hout⟩
    · exact ⟨fun h => ((throws_fst _ _ _).mp h).elim, fun h => absurd ⟨h.2.2.1, h.2.2.2.1⟩ hout⟩
  · rw [hread]
    have hint := Int64.toInt_ofInt_of_le hsmall hlarge
    have hnarrow := toInt32_toInt64_eq_iff (Int64.ofInt l.integer)
    rw [hint] at hnarrow
    simp only [ite_not]
    split_ifs with hplain herrno hfits
    · exact ⟨fun h => ((throws_fst _ _ _).mp h).elim, fun h => absurd herrno h.2.1⟩
    · obtain ⟨hlo, hhi⟩ := hnarrow.mp hfits
      have hvalue : (Int64.ofInt l.integer).toInt32.toInt = l.integer := by
        rw [Int64.toInt_toInt32, hint, Int.bmod_def]
        omega
      refine ⟨fun h => ?_, fun ⟨_, _, _, _, hx⟩ => ?_⟩
      · cases h
        exact ⟨hchar.mp hplain, herrno, hlo, hhi, hvalue⟩
      · exact congrArg Except.ok (Int32.toInt_inj.mp (hvalue.trans hx.symm))
    · exact ⟨fun h => ((throws_fst _ _ _).mp h).elim,
        fun ⟨_, _, hlo, hhi, _⟩ => absurd (hnarrow.mpr ⟨hlo, hhi⟩) hfits⟩
    · exact ⟨fun h => ((throws_fst _ _ _).mp h).elim, fun h => absurd (hchar.mpr h.1) hplain⟩

/-- What `strtoull` makes of the digits. -/
def Literal.converted (l : Literal) : Int :=
  if 2 ^ 64 ≤ ofDigits l.whole then 2 ^ 64 - 1 else l.integer % 2 ^ 64

theorem stringToULongLong_text (l : Literal) (errno : Nat) (x : UInt64) :
    (stringToULongLong l.text errno).1 = .ok x ↔ l.Plain ∧ (x.toNat : Int) = l.converted := by
  have hread : ∃ y errno', strtoull l.text errno = (y, l.tail, errno') ∧
      (y.toNat : Int) = l.converted := by
    rw [strtoull, l.numeral_text, Literal.converted, Literal.integer]
    simp only
    split_ifs with hover hnegative
    · exact ⟨_, _, rfl, rfl⟩
    · refine ⟨_, _, rfl, ?_⟩
      rw [UInt64.toNat_neg, UInt64.toNat_ofNat', UInt64.size]
      omega
    · refine ⟨_, _, rfl, ?_⟩
      rw [UInt64.toNat_ofNat']
      omega
  obtain ⟨y, errno', hread, hy⟩ := hread
  have hchar := l.charAt_tail
  rw [stringToULongLong, addingContext_fst, if_neg l.text_length_ne, hread]
  simp only [toUInt64_toInt64, ne_eq, not_true_eq_false, if_false, ite_not]
  split_ifs with hplain
  · refine ⟨fun h => ?_, fun ⟨_, hx⟩ => ?_⟩
    · cases h
      exact ⟨hchar.mp hplain, hy⟩
    · exact congrArg Except.ok (UInt64.toNat_inj.mp (Int.ofNat_inj.mp (hy.trans hx.symm)))
  · exact ⟨fun h => ((throws_fst _ _ _).mp h).elim, fun h => absurd (hchar.mpr h.1) hplain⟩

/-! ## Exactly read -/

/-- The accessors of whole numbers. -/
inductive Accessor where
  | asInt
  | asU32
  | asU64

namespace Accessor

/-- What a caller gets. -/
def read : Accessor → Element → Nat → Except Exception Int
  | asInt, x, errno => (x.asInt errno).1.map Int32.toInt
  | asU32, x, errno => (x.asU32 errno).1.map fun r => r.toNat
  | asU64, x, errno => (x.asU64 errno).1.map fun r => r.toNat

/-- The range of the type that the accessor is declared to return. -/
def InRange : Accessor → Int → Prop
  | asInt, v => -2 ^ 31 ≤ v ∧ v < 2 ^ 31
  | asU32, v => 0 ≤ v ∧ v < 2 ^ 32
  | asU64, v => 0 ≤ v ∧ v < 2 ^ 64

/-- A literal that denotes a whole number is read as that number, if it is in range, and
otherwise the accessor throws. -/
def ReadsExactly (a : Accessor) (l : Literal) (errno : Nat) : Prop :=
  ∀ (v : Int) (parsedAt : Option (Nat × Nat)), l.value = v →
    (a.InRange v → a.read (.number l.text parsedAt) errno = .ok v) ∧
      (¬ a.InRange v → ∃ e, a.read (.number l.text parsedAt) errno = .error e)

/-- The literals that are. -/
def Suits : Accessor → Literal → Nat → Int → Prop
  | asInt, l, errno, v => asInt.InRange v → l.Plain ∧ errno ≠ ERANGE
  | asU32, l, _, v => (asU32.InRange v → l.Plain) ∧
    (¬ asU32.InRange v → ¬ (l.Plain ∧ -2 ^ 64 < v ∧ v < 2 ^ 32 - 2 ^ 64))
  | asU64, l, _, v => (asU64.InRange v → l.Plain ∧ (v < 2 ^ 31 ∨ 2 ^ 64 - 2 ^ 31 ≤ v)) ∧
    (¬ asU64.InRange v → ¬ l.Plain)

end Accessor

theorem map_eq_ok {α β : Type} {f : α → β} {r : Except Exception α} {b : β} :
    r.map f = .ok b ↔ ∃ a, r = .ok a ∧ f a = b := by
  cases r with
  | error e => exact ⟨(nomatch ·), fun ⟨_, h, _⟩ => nomatch h⟩
  | ok a => exact ⟨fun h => ⟨a, rfl, Except.ok.inj h⟩, fun ⟨_, h, hb⟩ => by cases h; rw [← hb]; rfl⟩

theorem converted_fst {α β : Type} {f : α → β} {r : Result α} :
    (Element.converted f r).1 = r.1.map f := by
  obtain ⟨_ | a, errno⟩ := r <;> rfl

theorem exists_converted (l : Literal) : ∃ x : UInt64, (x.toNat : Int) = l.converted := by
  refine ⟨UInt64.ofNat l.converted.toNat, ?_⟩
  rw [UInt64.toNat_ofNat', Literal.converted]
  split_ifs <;> omega

theorem asUnsigned_text (l : Literal) (max : UInt64) (bits : String) (errno : Nat) (r : Int32) :
    (Element.asUnsigned_ max bits l.text errno).1 = .ok r ↔
      l.Plain ∧ l.converted ≤ max.toNat ∧ r.toInt = l.converted.bmod (2 ^ 32) := by
  have hread := stringToULongLong_text l errno
  rw [Element.asUnsigned_]
  rcases hresult : stringToULongLong l.text errno with ⟨_ | x, errno'⟩
  · rw [hresult] at hread
    obtain ⟨x, hx⟩ := exists_converted l
    exact ⟨(nomatch ·), fun h => nomatch (hread x).mpr ⟨h.1, hx⟩⟩
  · rw [hresult] at hread
    obtain ⟨hplain, hx⟩ := (hread x).mp rfl
    have hmax : x > max ↔ ¬ l.converted ≤ max.toNat := by
      rw [gt_iff_lt, UInt64.lt_iff_toNat_lt]
      omega
    have hint : x.toUInt32.toInt32.toInt = l.converted.bmod (2 ^ 32) := by
      rw [toInt_toUInt32_toInt32, hx]
    simp only [hmax, ite_not]
    split_ifs with hle
    · refine ⟨fun h => ?_, fun h => congrArg Except.ok (Int32.toInt_inj.mp (hint.trans h.2.2.symm))⟩
      cases h
      exact ⟨hplain, hle, hint⟩
    · exact ⟨fun h => ((throws_fst _ _ _).mp h).elim, fun h => absurd h.2.1 hle⟩

namespace Accessor

variable (l : Literal) (parsedAt : Option (Nat × Nat)) (errno : Nat) (v : Int)

theorem read_asInt : asInt.read (.number l.text parsedAt) errno = .ok v ↔
    l.Plain ∧ errno ≠ ERANGE ∧ -2 ^ 31 ≤ l.integer ∧ l.integer < 2 ^ 31 ∧ v = l.integer := by
  simp only [read, map_eq_ok, Element.asInt, addingContext_fst, Element.asInt_, stringToInt_text]
  refine ⟨?_, fun ⟨hplain, herrno, hlo, hhi, hv⟩ => ?_⟩
  · rintro ⟨x, ⟨hplain, herrno, hlo, hhi, hx⟩, rfl⟩
    exact ⟨hplain, herrno, hlo, hhi, hx⟩
  · have hint : (Int32.ofInt l.integer).toInt = l.integer := Int32.toInt_ofInt_of_le hlo hhi
    exact ⟨Int32.ofInt l.integer, ⟨hplain, herrno, hlo, hhi, hint⟩, hint.trans hv.symm⟩

theorem exists_int32 (z : Int) : ∃ r : Int32, r.toInt = z.bmod (2 ^ 32) :=
  ⟨Int32.ofInt z, Int32.toInt_ofInt⟩

theorem read_asU32 : asU32.read (.number l.text parsedAt) errno = .ok v ↔
    l.Plain ∧ l.converted < 2 ^ 32 ∧ v = l.converted := by
  have hmax : (0xffffffff : UInt64).toNat = 2 ^ 32 - 1 := rfl
  obtain ⟨x, hx⟩ := exists_converted l
  simp only [read, map_eq_ok, Element.asU32, addingContext_fst, converted_fst, Element.asU32_,
    asUnsigned_text, hmax]
  refine ⟨?_, fun ⟨hplain, hlt, hv⟩ => ?_⟩
  · rintro ⟨_, ⟨r, ⟨hplain, hle, hr⟩, rfl⟩, rfl⟩
    rw [toNat_int32_toUInt32, hr, Int.bmod_def]
    exact ⟨hplain, by omega, by omega⟩
  · obtain ⟨r, hr⟩ := exists_int32 l.converted
    refine ⟨_, ⟨r, ⟨hplain, by omega, hr⟩, rfl⟩, ?_⟩
    rw [toNat_int32_toUInt32, hr, Int.bmod_def]
    omega

theorem read_asU64 : asU64.read (.number l.text parsedAt) errno = .ok v ↔
    l.Plain ∧ v = l.converted.bmod (2 ^ 32) % 2 ^ 64 := by
  have hmax : (0xffffffffffffffff : UInt64).toNat = 2 ^ 64 - 1 := rfl
  obtain ⟨x, hx⟩ := exists_converted l
  have hlt := x.toNat_lt
  simp only [read, map_eq_ok, Element.asU64, addingContext_fst, converted_fst, Element.asU64_,
    asUnsigned_text, hmax]
  refine ⟨?_, fun ⟨hplain, hv⟩ => ?_⟩
  · rintro ⟨_, ⟨r, ⟨hplain, -, hr⟩, rfl⟩, rfl⟩
    rw [toNat_int32_toUInt64, hr]
    exact ⟨hplain, rfl⟩
  · obtain ⟨r, hr⟩ := exists_int32 l.converted
    refine ⟨_, ⟨r, ⟨hplain, by omega, hr⟩, rfl⟩, ?_⟩
    rw [toNat_int32_toUInt64, hr, hv]

end Accessor

theorem exists_error_iff {r : Except Exception Int} : (∃ e, r = .error e) ↔ ∀ v, r ≠ .ok v := by
  cases r with
  | error e => exact ⟨fun _ _ => (nomatch ·), fun _ => ⟨e, rfl⟩⟩
  | ok v => exact ⟨fun ⟨_, h⟩ => (nomatch h), fun h => absurd rfl (h v)⟩

theorem Literal.integer_cases (l : Literal) : ∃ n : Nat, (l.integer = n ∨ l.integer = -n) ∧
    l.converted = if 2 ^ 64 ≤ n then 2 ^ 64 - 1 else l.integer % 2 ^ 64 := by
  refine ⟨ofDigits l.whole, ?_, rfl⟩
  rw [integer]
  split_ifs
  · exact .inr rfl
  · exact .inl rfl

theorem Literal.integer_of_value {l : Literal} {v : Int} (hplain : l.Plain) (hv : l.value = v) :
    l.integer = v := Int.cast_injective ((value_of_plain hplain).symm.trans hv)

namespace Accessor

variable {l : Literal} {v : Int}

theorem asInt_iff (parsedAt : Option (Nat × Nat)) (errno : Nat) (hv : l.value = v) :
    ((asInt.InRange v → asInt.read (.number l.text parsedAt) errno = .ok v) ∧
      (¬ asInt.InRange v → ∃ e, asInt.read (.number l.text parsedAt) errno = .error e)) ↔
      asInt.Suits l errno v := by
  simp only [exists_error_iff, ne_eq, read_asInt]
  refine ⟨fun h hin => ?_, fun h => ⟨fun hin => ?_, fun hout w hw => ?_⟩⟩
  · obtain ⟨hplain, herrno, -⟩ := h.1 hin
    exact ⟨hplain, herrno⟩
  · obtain ⟨hplain, herrno⟩ := h hin
    have hinteger := Literal.integer_of_value hplain hv
    rw [hinteger]
    exact ⟨hplain, herrno, hin.1, hin.2, rfl⟩
  · obtain ⟨hplain, -, hlo, hhi, -⟩ := hw
    rw [Literal.integer_of_value hplain hv] at hlo hhi
    exact hout ⟨hlo, hhi⟩

/-- What the digits of a plain literal come to, seen from what it denotes. -/
theorem converted_of_value (hplain : l.Plain) (hv : l.value = v) : ∃ n : Nat, (v = n ∨ v = -n) ∧
    l.converted = if 2 ^ 64 ≤ n then 2 ^ 64 - 1 else v % 2 ^ 64 := by
  have h := l.integer_cases
  rwa [Literal.integer_of_value hplain hv] at h

theorem asU32_iff (parsedAt : Option (Nat × Nat)) (errno : Nat) (hv : l.value = v) :
    ((asU32.InRange v → asU32.read (.number l.text parsedAt) errno = .ok v) ∧
      (¬ asU32.InRange v → ∃ e, asU32.read (.number l.text parsedAt) errno = .error e)) ↔
      asU32.Suits l errno v := by
  simp only [exists_error_iff, ne_eq, read_asU32]
  refine and_congr (forall_congr' fun hin => ?_) (forall_congr' fun hout => ?_)
  · refine ⟨And.left, fun hplain => ⟨hplain, ?_⟩⟩
    obtain ⟨n, hn, hconverted⟩ := converted_of_value hplain hv
    obtain ⟨hlo, hhi⟩ := hin
    split_ifs at hconverted <;> omega
  · rw [← not_exists, not_iff_not]
    refine ⟨fun ⟨w, hplain, hlt, _⟩ => ⟨hplain, ?_⟩, fun ⟨hplain, hlt⟩ => ⟨_, hplain, ?_, rfl⟩⟩
    · obtain ⟨n, hn, hconverted⟩ := converted_of_value hplain hv
      rw [InRange] at hout
      split_ifs at hconverted <;> omega
    · obtain ⟨n, hn, hconverted⟩ := converted_of_value hplain hv
      split_ifs at hconverted <;> omega

theorem asU64_iff (parsedAt : Option (Nat × Nat)) (errno : Nat) (hv : l.value = v) :
    ((asU64.InRange v → asU64.read (.number l.text parsedAt) errno = .ok v) ∧
      (¬ asU64.InRange v → ∃ e, asU64.read (.number l.text parsedAt) errno = .error e)) ↔
      asU64.Suits l errno v := by
  simp only [exists_error_iff, ne_eq, read_asU64]
  refine and_congr (forall_congr' fun hin => ?_) (forall_congr' fun _ => ?_)
  · refine and_congr_right fun hplain => ?_
    obtain ⟨n, hn, hconverted⟩ := converted_of_value hplain hv
    obtain ⟨hlo, hhi⟩ := hin
    have hsame : l.converted = v := by
      split_ifs at hconverted <;> omega
    rw [hsame, Int.bmod_def]
    omega
  · rw [← not_exists, not_iff_not]
    exact ⟨fun ⟨_, hplain, _⟩ => hplain, fun hplain => ⟨_, hplain, rfl⟩⟩

/-- An accessor reads a literal of a whole number exactly, whatever it says of where it is,
if and only if it suits: for `asInt` it has neither fraction nor exponent, and `errno` is not
`ERANGE` to begin with; for `asU64` it has neither, and its number is in the first or the last
2^31 of the range. A number out of range is thrown for by `asU32`, unless it is one of the
negative ones that come round to the range; `asU64` throws for none that is written plainly. -/
theorem readsExactly_iff (a : Accessor) (l : Literal) (errno : Nat) :
    a.ReadsExactly l errno ↔ ∀ v : Int, l.value = v → a.Suits l errno v := by
  have hiff : ∀ (v : Int) (parsedAt : Option (Nat × Nat)), l.value = v →
      (((a.InRange v → a.read (.number l.text parsedAt) errno = .ok v) ∧
        (¬ a.InRange v → ∃ e, a.read (.number l.text parsedAt) errno = .error e)) ↔
        a.Suits l errno v) := by
    intro v parsedAt hv
    cases a with
    | asInt => exact asInt_iff parsedAt errno hv
    | asU32 => exact asU32_iff parsedAt errno hv
    | asU64 => exact asU64_iff parsedAt errno hv
  refine ⟨fun h v hv => (hiff v none hv).mp (h v none hv), fun h v parsedAt hv => ?_⟩
  exact (hiff v parsedAt hv).mpr (h v hv)

/-- 2147483648 -/
def twoToThe31 : Literal where
  negative := false
  whole := [2, 1, 4, 7, 4, 8, 3, 6, 4, 8]
  whole_wellFormed := .inr ⟨2, _, rfl, by decide⟩
  fraction := none
  exponent := none

/-- It is read as 18446744071562067968. -/
theorem not_readsExactly : ¬ asU64.ReadsExactly twoToThe31 0 := by
  intro h
  have hvalue : twoToThe31.value = (2147483648 : Int) := Literal.value_of_plain ⟨rfl, rfl⟩
  have hread := (h 2147483648 none hvalue).1 ⟨by decide, by decide⟩
  rw [show asU64.read (.number twoToThe31.text none) 0 = .ok 18446744071562067968 from by
    decide +kernel] at hread
  cases hread

end Accessor

end Urnest.Json
