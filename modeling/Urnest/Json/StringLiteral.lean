import Urnest.Json.Tree

/-!
# String literals

The loop of `StringLiteralParser`, on what is left of the input: `unescape` is one turn of it,
and `scan` goes on to the closing quote. Hexadecimal digits are read by `stringToUInt`, with
all that `strtoul` takes.

What `String::formatAsUtf8` has written between the quotes is scanned back
(`scan_formatCharacters`): each of its escapes has its case in the switch, and of what it
leaves alone nothing looks like a quote or a backslash.
-/

namespace Urnest.Json

open Lib Utf8

/-! ## Hexadecimal numbers -/

/-- What `isspace` says of a byte. -/
def isspaceByte (b : UInt8) : Bool := b = 0x20 ∨ 9 ≤ b ∧ b ≤ 13

def hexValue (b : UInt8) : Option Nat :=
  if 0x30 ≤ b ∧ b ≤ 0x39 then some (b.toNat - 0x30)
  else if 0x61 ≤ b ∧ b ≤ 0x66 then some (b.toNat - 0x61 + 10)
  else if 0x41 ≤ b ∧ b ≤ 0x46 then some (b.toNat - 0x41 + 10)
  else none

/-- Digits, behind those that make `n`, and what comes after. -/
def readHexDigits : Nat → List UInt8 → Nat × List UInt8
  | n, [] => (n, [])
  | n, b :: s =>
    match hexValue b with
    | some d => readHexDigits (16 * n + d) s
    | none => (n, b :: s)

/-- An optional sign: is it a minus, and what comes after. -/
def readSignByte : List UInt8 → Bool × List UInt8
  | [] => (false, [])
  | b :: s => if b = 0x2d then (true, s) else if b = 0x2b then (false, s) else (false, b :: s)

/-- `0x` in front of a digit -/
def skipBase : List UInt8 → List UInt8
  | 0x30 :: x :: d :: s => if (x = 0x78 ∨ x = 0x58) ∧ (hexValue d).isSome then d :: s else 0x30 :: x :: d :: s
  | s => s

/-- `strtoul(s, &p, 16)`: its result and `p`. -/
def strtoul16 (s : List UInt8) : UInt64 × List UInt8 :=
  let (negative, rest) := readSignByte (s.dropWhile isspaceByte)
  let digits := skipBase rest
  if digits.head?.any fun b => (hexValue b).isSome then
    let (n, p) := readHexDigits 0 digits
    if 2 ^ 64 ≤ n then (0xffffffffffffffff, p)
    else (if negative then -UInt64.ofNat n else UInt64.ofNat n, p)
  else (0, s)

/-- What is thrown while a literal is read. -/
inductive Thrown where
  | endOfInput
  | utf8 (e : Utf8.Exception)
  | isNull
  /-- a character of the number, from one -/
  | unexpected (position : Nat) (c : UInt8)
  | tooLarge (x : UInt64)
  | notLowSurrogate (low : UInt16)
  deriving DecidableEq, Repr

/-- `stringToUInt(value, 16)`. (`*p` is the NUL behind the string, or one in it.) -/
def stringToUInt16 (value : List UInt8) : Except Thrown UInt32 :=
  if value = [] then .error .isNull
  else
    let (x, p) := strtoul16 value
    match p with
    | c :: _ =>
      if c ≠ 0 then .error (.unexpected (value.length - p.length + 1) c)
      else if x.toUInt32.toUInt64 ≠ x then .error (.tooLarge x)
      else .ok x.toUInt32
    | [] => if x.toUInt32.toUInt64 ≠ x then .error (.tooLarge x) else .ok x.toUInt32

/-! ## Escapes -/

inductive StringCause where
  | C1 (got want : UInt8)
  | C2 (got1 got2 : UInt8)
  | C3 (got : UInt8)
  | FixedCause (what : Thrown)
  deriving DecidableEq, Repr

/-- Why a literal is refused, and what is left of the input where that is. -/
abbrev Refused := StringCause × List UInt8

def refused {α : Type} (cause : StringCause) (i : List UInt8) : Except Refused α := .error (cause, i)

/-- `std::string s{*++i,*++i,*++i,*++i}`: the four characters behind `i`, and what is left
from the last of them. -/
def nextFour : List UInt8 → Except Refused (List UInt8 × List UInt8)
  | a :: b :: c :: d :: rest => .ok ([a, b, c, d], d :: rest)
  | _ => refused (.FixedCause .endOfInput) []

/-- `uint16_t const u(xju::stringToUInt(s,16))`, with `i` where it is. -/
def codeUnit (s i : List UInt8) : Except Refused UInt16 :=
  match stringToUInt16 s with
  | .ok x => .ok x.toUInt16
  | .error e => refused (.FixedCause e) i

def isSurrogateHigh (x : UInt16) : Bool := 0xd800 ≤ x ∧ x ≤ 0xdbff

/-- `decodeSurrogatePair`, of a `high` that is one. -/
def decodeSurrogatePair (high low : UInt16) : Except Thrown UInt32 :=
  if low < 0xdc00 ∨ low > 0xdfff then .error (.notLowSurrogate low)
  else .ok ((0x10000 : UInt32) + ((high.toUInt32 - 0xd800) <<< 10) + (low.toUInt32 - 0xdc00))

def encoded (c : UInt32) (i : List UInt8) : Except Refused (List UInt8) :=
  match encodeCodePoint c with
  | .ok bytes => .ok bytes
  | .error e => refused (.FixedCause (.utf8 e)) i

/-- The second half of a surrogate pair, whose `++i` is still to come. -/
def lowSurrogate (high : UInt16) (i : List UInt8) : Except Refused (List UInt8 × List UInt8) :=
  match i.tail with
  | [] => refused (.FixedCause .endOfInput) []
  | [a] => refused (.FixedCause .endOfInput) [a]
  | a :: b :: rest =>
    if a ≠ 0x5c ∨ b ≠ 0x75 then refused (.C2 a b) (a :: b :: rest)
    else do
      let (s, i) ← nextFour rest
      let low ← codeUnit s i
      match decodeSurrogatePair high low with
      | .error e => refused (.FixedCause e) i
      | .ok c => do
        let bytes ← encoded c i
        return (bytes, i.tail)

/-- `case 'u'`, from the character behind it: what is written, and what is left after
the last `++i`. -/
def unicodeEscape (rest : List UInt8) : Except Refused (List UInt8 × List UInt8) := do
  let (s, i) ← nextFour rest
  let u ← codeUnit s i
  if isSurrogateHigh u then lowSurrogate u i
  else do
    let bytes ← encoded u.toUInt32 i
    return (bytes, i.tail)

/-- The other cases of the switch, and what each writes -/
def simpleEscapes : List (UInt8 × UInt8) :=
  [(0x22, 0x22), (0x5c, 0x5c), (0x2f, 0x2f), (0x61, 0x07), (0x62, 0x08), (0x66, 0x0c), (0x6e, 0x0a),
    (0x72, 0x0d), (0x74, 0x09)]

/-- A turn of the loop: what is written, and what is left. -/
def unescape (i : List UInt8) : Except Refused (List UInt8 × List UInt8) :=
  match i with
  | 0x5c :: rest =>
    match rest with
    | [] => refused (.FixedCause .endOfInput) []
    | c :: behind =>
      match simpleEscapes.lookup c with
      | some b => .ok ([b], behind)
      | none => if c = 0x75 then unicodeEscape behind else refused (.C3 c) rest
  | _ =>
    match decodeCodePoint i with
    | .error e => refused (.FixedCause (.utf8 e)) i
    | .ok (c, rest) => do
      let bytes ← encoded c i
      return (bytes, rest)

theorem nextFour_eq_ok {rest s i : List UInt8} (h : nextFour rest = .ok (s, i)) :
    i.length + 3 = rest.length := by
  unfold nextFour at h
  split at h
  · cases h
    simp only [List.length_cons]
  · cases h

theorem lowSurrogate_length {high : UInt16} {i bytes rest : List UInt8}
    (h : lowSurrogate high i = .ok (bytes, rest)) : rest.length < i.length := by
  rw [lowSurrogate] at h
  split at h
  · cases h
  · cases h
  next a b behind htail =>
    split at h
    · cases h
    · obtain ⟨⟨s, k⟩, hfour, h⟩ := bind_eq_ok.mp h
      obtain ⟨low, -, h⟩ := bind_eq_ok.mp h
      have hlength := nextFour_eq_ok hfour
      have htails := congrArg List.length htail
      split at h
      · cases h
      · obtain ⟨_, -, h⟩ := bind_eq_ok.mp h
        cases h
        simp only [List.length_tail, List.length_cons] at htails ⊢
        omega

theorem unicodeEscape_length {i bytes rest : List UInt8} (h : unicodeEscape i = .ok (bytes, rest)) :
    rest.length < i.length := by
  obtain ⟨⟨s, k⟩, hfour, h⟩ := bind_eq_ok.mp h
  obtain ⟨u, -, h⟩ := bind_eq_ok.mp h
  have hlength := nextFour_eq_ok hfour
  split at h
  · have hlow := lowSurrogate_length h
    omega
  · obtain ⟨_, -, h⟩ := bind_eq_ok.mp h
    cases h
    simp only [List.length_tail]
    omega

theorem unescape_length {i bytes rest : List UInt8} (h : unescape i = .ok (bytes, rest)) :
    rest.length < i.length := by
  unfold unescape at h
  split at h
  next behind =>
    split at h
    · cases h
    · split at h
      · cases h
        simp only [List.length_cons]
        omega
      · split at h
        · have hlt := unicodeEscape_length h
          simp only [List.length_cons]
          omega
        · cases h
  · split at h
    · cases h
    next c behind hread =>
      obtain ⟨_, -, h⟩ := bind_eq_ok.mp h
      cases h
      exact length_lt_of_decodeCodePoint hread

/-- The loop, up to and with the closing quote: what is written, and what is left. -/
def scan (i : List UInt8) : Except Refused (List UInt8 × List UInt8) :=
  match i with
  | [] => refused (.FixedCause .endOfInput) []
  | b :: rest =>
    if b = 0x22 then .ok ([], rest)
    else match _hstep : unescape (b :: rest) with
      | .error e => .error e
      | .ok (bytes, left) => do
        let (others, left) ← scan left
        return (bytes ++ others, left)
termination_by i.length
decreasing_by exact unescape_length _hstep

/-! ## What is formatted -/

theorem scan_of_unescape {b : UInt8} {i bytes left others rest : List UInt8} (hb : b ≠ 0x22)
    (h : unescape (b :: i) = .ok (bytes, left)) (hleft : scan left = .ok (others, rest)) :
    scan (b :: i) = .ok (bytes ++ others, rest) := by
  rw [scan, if_neg hb]
  split
  next e herror =>
    rw [h] at herror
    cases herror
  next bytes' left' hok =>
    rw [h] at hok
    cases hok
    rw [hleft]
    rfl

theorem unescape_simple {x b : UInt8} (h : simpleEscapes.lookup x = some b) (rest : List UInt8) :
    unescape (0x5c :: x :: rest) = .ok ([b], rest) := by simp only [unescape, h]

theorem unescape_of_encode {c : UInt32} {b : UInt8} {t : List UInt8}
    (h : encodeCodePoint c = .ok (b :: t)) (hb : b ≠ 0x5c) (rest : List UInt8) :
    unescape (b :: t ++ rest) = .ok (b :: t, rest) := by
  rw [unescape, decodeCodePoint_encode h rest]
  · simp only [encoded, h]
    rfl
  · intro rest' heq
    exact hb (List.cons.inj heq).1

/-- What the formatter escapes is a byte, and the parser has its escape. -/
theorem simpleEscapes_of_escapes {c : UInt32} {x : UInt8} (h : Tree.escapes.lookup c = some x) :
    ∃ b : UInt8, simpleEscapes.lookup x = some b ∧ encodeCodePoint c = .ok [b] ∧
      encodeCodePoint x.toUInt32 = .ok [x] := by
  have hall : ∀ p ∈ Tree.escapes, ∃ b : UInt8, simpleEscapes.lookup p.2 = some b ∧
      encodeCodePoint p.1 = .ok [b] ∧ encodeCodePoint p.2.toUInt32 = .ok [p.2] := by
    simp only [Tree.escapes, List.forall_mem_cons]
    exact ⟨⟨_, rfl, rfl, rfl⟩, ⟨_, rfl, rfl, rfl⟩, ⟨_, rfl, rfl, rfl⟩, ⟨_, rfl, rfl, rfl⟩,
      ⟨_, rfl, rfl, rfl⟩, ⟨_, rfl, rfl, rfl⟩, ⟨_, rfl, rfl, rfl⟩, ⟨_, rfl, rfl, rfl⟩,
      ⟨_, rfl, rfl, rfl⟩, fun _ h => nomatch h⟩
  exact hall (c, x) (List.lookup_eq_some_iff.mp h |>.elim fun l h => by
    obtain ⟨l', heq, -⟩ := h
    rw [heq]
    exact List.mem_append_right l (List.mem_cons_self ..))

/-- The characters of a string, formatted, are characters again, and scanned with the quote
behind them they are those of the string. -/
theorem scan_formatCharacters {value : List UInt8} {size : Nat} (h : Characters value size) :
    ∃ out n, Tree.formatCharacters value = .ok out ∧ Characters out n ∧
      ∀ rest, scan (out ++ 0x22 :: rest) = .ok (value, rest) := by
  induction h with
  | nil =>
    refine ⟨[], 0, by rw [Tree.formatCharacters, if_pos rfl], .nil, fun rest => ?_⟩
    rw [List.nil_append, scan, if_pos rfl]
  | @cons c bytes rest size hbytes _ ih =>
    obtain ⟨out, n, hformat, hcharacters, hscan⟩ := ih
    have hstep : ∀ first, Tree.formatCharacter c = .ok first →
        Tree.formatCharacters (bytes ++ rest) = .ok (first ++ out) := by
      intro first hfirst
      have hne : bytes ++ rest ≠ [] := by simp [encodeCodePoint_ne_nil hbytes]
      have hread := decodeCodePoint_encode hbytes rest
      rw [Tree.formatCharacters, if_neg hne]
      split
      next e herror =>
        rw [hread] at herror
        cases herror
      next c' rest' hok =>
        rw [hread] at hok
        cases hok
        rw [hfirst, hformat]
        rfl
    cases hescape : Tree.escapes.lookup c with
    | some x =>
      obtain ⟨b, hb, hc, hx⟩ := simpleEscapes_of_escapes hescape
      rw [hbytes] at hc
      cases hc
      have hbackslash : encodeCodePoint 0x5c = .ok [0x5c] := rfl
      have hout : Characters ([0x5c] ++ ([x] ++ out)) (n + 1 + 1) :=
        .cons hbackslash (.cons hx hcharacters)
      refine ⟨_, _, hstep [0x5c, x] (by rw [Tree.formatCharacter, hescape]), hout, fun rest' => ?_⟩
      exact scan_of_unescape (by decide) (unescape_simple hb _) (hscan rest')
    | none =>
      refine ⟨_, _, hstep bytes (by rw [Tree.formatCharacter, hescape, hbytes]),
        .cons hbytes hcharacters, fun rest' => ?_⟩
      obtain ⟨b, t, rfl⟩ := List.exists_cons_of_ne_nil (encodeCodePoint_ne_nil hbytes)
      -- a quote or a backslash would have been escaped
      have hne : ∀ a : UInt8, a < 0x80 → Tree.escapes.lookup a.toUInt32 ≠ none → b ≠ a := by
        rintro a ha hlookup rfl
        obtain ⟨rfl, -⟩ := ascii_of_encode hbytes ha
        exact hlookup hescape
      rw [List.append_assoc]
      exact scan_of_unescape (hne 0x22 (by decide) (by decide))
        (unescape_of_encode hbytes (hne 0x5c (by decide) (by decide)) _) (hscan rest')

end Urnest.Json
