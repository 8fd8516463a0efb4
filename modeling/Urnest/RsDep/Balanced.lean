import Mathlib
import Urnest.Hcp.Balanced

/-!
# Balanced Rust

`rustBalanced(until)` of rs-dep.cc is `balanced(until)` with another raw string literal, and where a
literal is refused it goes on behind its first character. What is left of C++ in it are string
literals, which end at no newline, the one character of a character literal, and block comments,
which do not nest. A raw string literal is read from its opening quote on, which is all of its end
if there are no hash signs.

Over the tokens of Rust (`Tokens`) without these it stops at the first of the places
(`rustBalanced_stops_at_first`), as that of C++ does.
-/

namespace Urnest.RsDep

open Lib Lib.Asking Hcp Hcp.Cpp Hcp.Parsing

/-! ## The code -/

/-- A call of a parser of hcp, or a turn of the loop of `ParseRustBalanced` -/
inductive Question where
  | hcp (q : Query Unit ItemType Rule)
  | balanced (until_ : PR) (angles : Bool) (start end_ : Nat)

abbrev Member (α : Type) := Asking Question (ParseResult Unit ItemType Rule) α

def parse (p : PR) (position : Nat) : Member (ParseResult Unit ItemType Rule) :=
  .question (.hcp (.parse p position))

def parse_ (p : PR) (position : Nat) : Member (ParseResult Unit ItemType Rule) :=
  .question (.hcp (.parse_ p position))

/-- The loop that counts hash signs, up to the quote -/
def toQuote : List Char → Nat → Except (Exception Unit ItemType Rule) Nat
  | [], i => .error { cause := .endOfInput, position := i, atEnd := true }
  | c :: x, i =>
    if c = doubleQuoteChar then .ok i
    else if c ≠ '#' then .error { cause := .invalidDelimeterChar c, position := i }
    else toQuote x (i + 1)

section Code

variable (text : List Char)

/-- `ParseRustRawStringLiteral` -/
def parseRustRawStringLiteral (position : Nat) : Member (ParseResult Unit ItemType Rule) := do
  match ← parse (parseLiteral "r") position with
  | .error e => return .error e
  | .ok r =>
    match toQuote (text.drop r.2) r.2 with
    | .error e => return .error e
    | .ok i =>
      let endDelimeter := String.ofList (doubleQuoteChar :: List.replicate (i - r.2) '#')
      match ← parse (parseAnyUntil (parseLiteral endDelimeter)) i with
      | .error e => return failure (.endDelimeterNotFound endDelimeter) e.position
      | .ok rr =>
        match ← parse (parseLiteral endDelimeter) rr.2 with
        | .error e => return .error e
        | .ok rrr => return .ok ([.leaf position rrr.2], rrr.2)

/-- `rustRawStringLiteral`, less the context of its exceptions -/
def rustRawStringLiteral (position : Nat) : Member (ParseResult Unit ItemType Rule) := do
  match ← parseRustRawStringLiteral text position with
  | .error e => return .error e
  | .ok a => return makeNamed grammar .StringLiteral position a

/-- Where a refusal only means that it is no such literal. -/
def orNext (end_ : Nat) : ParseResult Unit ItemType Rule → Nat
  | .ok r2 => r2.2
  | .error _ => end_ + 1

/-- The end of what `ParseRustBalanced` reads in one turn -/
def parseRustBalancedTurn (angles : Bool) (end_ : Nat) (c : Char) :
    Member (Except (Exception Unit ItemType Rule) Nat) := do
  if lookingAt text end_ "r" then return .ok (orNext end_ (← rustRawStringLiteral text end_))
  else if c = quote then
    return .ok (orNext end_
      (← parse_ (parseOneOfChars [quote] + c_char + parseOneOfChars [quote]) end_))
  else if c = doubleQuoteChar then return (← parse_ stringLiteral end_).map Prod.snd
  else if c = '/' then return .ok (orNext end_ (← parse_ comments end_))
  else match closer angles c with
    | some close =>
      let balanced := Question.balanced (parseOneOfChars [close]) angles (end_ + 1) (end_ + 1)
      match ← Asking.question balanced with
      | .ok r2 => return .ok (r2.2 + 1)
      | .error e => return .error e
    | none => return .ok (end_ + 1)

def body : Question → Member (ParseResult Unit ItemType Rule)
  | .hcp q => (Hcp.body grammar text false q).onto .hcp
  | .balanced until_ angles start end_ => do
    match ← parse_ until_ end_ with
    | .ok _ => return .ok ([.leaf start end_], end_)
    | .error _ =>
      match text[end_]? with
      | none => return EndOfInput end_
      | some c =>
        match ← parseRustBalancedTurn text angles end_ c with
        | .error e => return .error e
        | .ok i => .question (.balanced until_ angles start i)

/-- What `rustBalanced(until)` comes to at a position -/
def RustBalanced (until_ : PR) (position : Nat) (r : ParseResult Unit ItemType Rule) : Prop :=
  Answers (body text) (.balanced until_ false position position) r

end Code

/-! ## Tokens -/

/-- The prefixes of a literal, but for the `r` of a raw one -/
def prefixes : List Char := ['b', 'c']

/-- Hash signs and a quote: a raw string literal, if they are behind an `r` -/
def startsRaw : List Char → Bool
  | '#' :: x => startsRaw x
  | c :: _ => c = doubleQuoteChar
  | [] => false

/-- A literal can follow its prefix. -/
def startsLiteral : List Char → Bool
  | 'r' :: x => startsRaw x
  | x => startsQuoted x

/-- What comes behind the rest of a block comment, in which there are so many others -/
def afterBlock : Nat → List Char → Option (List Char)
  | n, '*' :: '/' :: x =>
    match n with
    | 0 => some x
    | n + 1 => afterBlock n x
  | n, '/' :: '*' :: x => afterBlock (n + 1) x
  | n, _ :: x => afterBlock n x
  | _, [] => none

/-- What is behind a backslash alone, or with its braces to come -/
def rustEscapes : List Char := ['n', 'r', 't', backslash, '0', quote, doubleQuoteChar, 'u']

/-- What comes behind an escape sequence -/
def afterRustEscape : List Char → Option (List Char)
  | 'x' :: c :: d :: x => if isHex c && isHex d then some x else none
  | c :: x => if c ∈ rustEscapes then some x else none
  | [] => none

/-- The rest of a string literal, and what comes behind it. Only with `traps` there are newlines in
it. -/
inductive StringBody (traps : Bool) : List Char → List Char → Prop where
  | close (y : List Char) : StringBody traps (doubleQuoteChar :: y) y
  | char {c : Char} {x y : List Char} : c ∉ [backslash, doubleQuoteChar] →
    (c = '\n' → traps = true) → StringBody traps x y → StringBody traps (c :: x) y
  | escape {x x' y : List Char} : afterRustEscape x = some x' → StringBody traps x' y →
    StringBody traps (backslash :: x) y
  | newline {x y : List Char} : traps = true → StringBody traps x y →
    StringBody traps (backslash :: '\n' :: x) y

/-- The character of a character literal, and what comes behind it. Only with `traps` it is one of
several octets, or has its number in braces. -/
inductive Character (traps : Bool) : List Char → List Char → Prop where
  | char {c : Char} {y : List Char} : c ∉ [backslash, quote, '\n'] → Character traps (c :: y) y
  | escape {x y : List Char} : afterRustEscape x = some y → x.head? ≠ some 'u' →
    Character traps (backslash :: x) y
  | octets {x y : List Char} : traps = true → 2 ≤ x.length → x.length ≤ 4 →
    (∀ c ∈ x, 0x80 ≤ c.toNat) → Character traps (x ++ y) y
  | braces {x y : List Char} : traps = true → (∀ c ∈ x, isHex c = true ∨ c = '_') →
    Character traps (backslash :: 'u' :: '\x7b' :: x ++ '}' :: y) y

/-- What ends a raw string literal with so many hash signs -/
def rawEnd (n : Nat) : List Char := doubleQuoteChar :: List.replicate n '#'

/-- The tokens from `x` to `z`, and the places there, of which `z` is the last. Only with `traps`
there is what derails the parser. -/
inductive Tokens (traps : Bool) : Behind → List Char → List Char → Places → Prop where
  | nil {b : Behind} {z : List Char} :
    b ≠ .encoding →
    (b.startsToken = false → z.head?.all fun c => !isIdentifierContChar c) →
    Tokens traps b z z [(kindAt b z, z)]
  /-- A character of a name or number, which with what comes next looks like the start of a raw
  string literal only with `traps` -/
  | word {b : Behind} {c : Char} {y z : List Char} {ps : Places} :
    b ≠ .encoding → isIdentifierContChar c = true →
    (c = 'r' → startsRaw y = true →
      b.startsToken = false ∧ b.isOneOf [['b'], ['c']] = false ∧ traps = true) →
    Tokens traps (b.addChar c) y z ps →
    Tokens traps b (c :: y) z ((kindAt b (c :: y), c :: y) :: ps)
  | punctuator {b : Behind} {c : Char} {y z : List Char} {ps : Places} :
    b ≠ .encoding → isPunctuator c y = true → Tokens traps .other y z ps →
    Tokens traps b (c :: y) z ((kindAt b (c :: y), c :: y) :: ps)
  | blank {b : Behind} {c : Char} {y z : List Char} {ps : Places} :
    b ≠ .encoding → c ∈ blanks → Tokens traps b.addBlank y z ps →
    Tokens traps b (c :: y) z ((kindAt b (c :: y), c :: y) :: ps)
  | lineComment {b : Behind} {x y z : List Char} {ps : Places} :
    b ≠ .encoding → search AtNewline x = some y → Tokens traps b.addComment y z ps →
    Tokens traps b ('/' :: '/' :: x) z ((kindAt b ('/' :: '/' :: x), '/' :: '/' :: x) :: ps)
  /-- The text ends in the comment. -/
  | lastComment {b : Behind} {x : List Char} :
    traps = true → b ≠ .encoding → search AtNewline x = none →
    Tokens traps b ('/' :: '/' :: x) []
      [(kindAt b ('/' :: '/' :: x), '/' :: '/' :: x), (.outside, [])]
  /-- The first thing that could close it does, but with `traps`. -/
  | blockComment {b : Behind} {x y z : List Char} {ps : Places} :
    b ≠ .encoding → afterBlock 0 x = some y →
    (search AtStarSlash x = some ('*' :: '/' :: y) ∨ traps = true) →
    Tokens traps b.addComment y z ps →
    Tokens traps b ('/' :: '*' :: x) z ((kindAt b ('/' :: '*' :: x), '/' :: '*' :: x) :: ps)
  | encoding {b : Behind} {c : Char} {y z : List Char} {ps : Places} :
    b.startsToken = true → c ∈ prefixes → startsLiteral y = true →
    Tokens traps .encoding y z ps →
    Tokens traps b (c :: y) z ((kindAt b (c :: y), c :: y) :: ps)
  | string {b : Behind} {x y z : List Char} {ps : Places} :
    b.isOneOf [['b'], ['c'], ['r'], ['b', 'r'], ['c', 'r']] = false → StringBody traps x y →
    Tokens traps .string y z ps →
    Tokens traps b (doubleQuoteChar :: x) z
      ((kindAt b (doubleQuoteChar :: x), doubleQuoteChar :: x) :: ps)
  | character {b : Behind} {x y z : List Char} {ps : Places} :
    b.isOneOf [['b']] = false → Character traps x (quote :: y) → Tokens traps .other y z ps →
    Tokens traps b (quote :: x) z ((kindAt b (quote :: x), quote :: x) :: ps)
  /-- The quote of a lifetime, with its name to come -/
  | lifetime {b : Behind} {c : Char} {y z : List Char} {ps : Places} :
    b ≠ .encoding → b.isOneOf [['b']] = false → isIdentifierChar c = true →
    y.head? ≠ some quote → Tokens traps (.word [quote]) (c :: y) z ps →
    Tokens traps b (quote :: c :: y) z ((kindAt b (quote :: c :: y), quote :: c :: y) :: ps)
  /-- Without `traps` it does not start with as many hash signs as are around it, so that there are
  some. -/
  | rawString {b : Behind} {n : Nat} {x y z : List Char} {ps : Places} :
    b.startsToken = true ∨ b = .encoding →
    search (rawEnd n <+: ·) x = some (rawEnd n ++ y) →
    (List.replicate n '#' <+: x → traps = true) →
    Tokens traps .other y z ps →
    Tokens traps b ('r' :: (List.replicate n '#' ++ doubleQuoteChar :: x)) z
      ((kindAt b ('r' :: (List.replicate n '#' ++ doubleQuoteChar :: x)),
        'r' :: (List.replicate n '#' ++ doubleQuoteChar :: x)) :: ps)
  | bracket {b : Behind} {c d : Char} {y y' z : List Char} {qs ps : Places} :
    b ≠ .encoding → (c, d) ∈ brackets → Tokens traps .other y (d :: y') qs →
    Tokens traps .other y' z ps →
    Tokens traps b (c :: y) z ((kindAt b (c :: y), c :: y) :: ps)

/-- From `i` on, the parser stops at the first of the places where `until_` matches, and it fails
with the end of the input if there is none up to there. -/
def StopsAtFirst (text : List Char) (until_ : PR) (i : Nat) (z : List Char) (ps : Places) : Prop :=
  (∀ before p after, outsides ps = before ++ p :: after → (∀ q ∈ before, Fails text until_ q) →
    Matches text until_ p → RustBalanced text until_ i
      (.ok ([.leaf i (text.length - p.length)], text.length - p.length))) ∧
  (z = [] → (∀ q ∈ outsides ps, Fails text until_ q) →
    ∃ e, RustBalanced text until_ i (.error e) ∧ e.cause = .endOfInput)

/-! ## Turns of the loop -/

section Turns

variable {text : List Char} {i j : Nat} {c : Char} {x y : List Char}

/-- What hcp's parsers answer -/
theorem answers_hcp {q : Query Unit ItemType Rule} {r : ParseResult Unit ItemType Rule}
    (h : Answers (parsing text false).body q r) : Answers (body text) (.hcp q) r := by
  rw [body_parsing] at h
  have honto : ∀ q, body text (.hcp q) = (Hcp.body grammar text false q).onto .hcp := fun _ => rfl
  exact (answers_onto honto).mpr h

/-- A turn of the loop gets from a position to another. -/
def Turns (text : List Char) (i j : Nat) : Prop :=
  ∃ c, text[i]? = some c ∧ Runs (body text) (parseRustBalancedTurn text false i c) (.ok j)

theorem Turns.answers {until_ : PR} {start : Nat} {r : ParseResult Unit ItemType Rule}
    (h : Turns text i j) (hrefuses : (parsing text false).Refuses until_ i)
    (hr : Answers (body text) (.balanced until_ false start j) r) :
    Answers (body text) (.balanced until_ false start i) r := by
  obtain ⟨e, he⟩ := hrefuses
  obtain ⟨c, hc, hturn⟩ := h
  refine answers_iff.mpr (runs_ask.mpr ⟨_, answers_hcp he, ?_⟩)
  simp only [hc, Asking.bind]
  exact runs_bind hturn (runs_ask.mpr ⟨_, hr, runs_ret.mpr rfl⟩)

theorem lookingAt_r (h : At text i (c :: y)) : lookingAt text i "r" = true ↔ c = 'r' := by
  rw [lookingAt, h.drop, List.isPrefixOf_iff_prefix]
  constructor
  · rintro ⟨z, hz⟩
    exact (List.cons.inj hz).1.symm
  · rintro rfl
    exact ⟨y, rfl⟩

theorem turns_plain (h : At text i (c :: y)) (hr : c ≠ 'r') (hquote : c ≠ quote)
    (hdouble : c ≠ doubleQuoteChar) (hslash : c ≠ '/') (hopen : closer false c = none) :
    Turns text i (i + 1) := by
  refine ⟨c, getElem?_of_drop h.drop, ?_⟩
  rw [parseRustBalancedTurn, if_neg (mt (lookingAt_r h).mp hr), if_neg hquote, if_neg hdouble,
    if_neg hslash, hopen]
  exact runs_ret.mpr rfl

theorem toQuote_ok (n i : Nat) (x : List Char) :
    toQuote (List.replicate n '#' ++ doubleQuoteChar :: x) i = .ok (i + n) := by
  induction n generalizing i with
  | zero => rfl
  | succ n ih =>
    rw [List.replicate_succ, List.cons_append, toQuote, if_neg (by decide), if_neg (by decide), ih,
      Nat.add_right_comm, Nat.add_assoc]

theorem toQuote_error (i : Nat) (hx : startsRaw x = false) : ∃ e, toQuote x i = .error e := by
  induction x generalizing i with
  | nil => exact ⟨_, rfl⟩
  | cons c x ih =>
    rw [toQuote]
    by_cases hc : c = '#'
    · subst hc
      rw [if_neg (by decide), if_neg (by decide)]
      exact ih (i + 1) hx
    · rw [startsRaw, decide_eq_false_iff_not] at hx
      · rw [if_neg hx, if_pos hc]
        exact ⟨_, rfl⟩
      · exact fun h => absurd h hc

theorem takes_r (h : At text i ('r' :: x)) :
    (parsing text false).Takes (parseLiteral "r") i [.leaf i (i + 1)] (i + 1) :=
  takes_literal (x := "r") h.drop

/-- No raw string literal starts there. -/
theorem turns_r (h : At text i ('r' :: y)) (hy : startsRaw y = false) : Turns text i (i + 1) := by
  obtain ⟨e, he⟩ := toQuote_error (i + 1) hy
  refine ⟨_, getElem?_of_drop h.drop, ?_⟩
  rw [parseRustBalancedTurn, if_pos ((lookingAt_r h).mpr rfl)]
  have hraw : Runs (body text) (rustRawStringLiteral text i) (.error e) := by
    refine runs_bind (a := .error e) (runs_ask.mpr ⟨_, answers_hcp (takes_r h).parse, ?_⟩)
      (runs_ret.mpr rfl)
    simp only [Asking.bind, h.tail.drop, he]
    exact runs_ret.mpr rfl
  exact runs_bind hraw (runs_ret.mpr rfl)

/-- The rest of a string literal of Rust, without traps, is that of one of C++. -/
theorem Body.of_cons {close : Char} (h : Body close (c :: x) y)
    (hc : c ∉ [backslash, close, '\n']) : Body close x y := by
  simp only [List.mem_cons, List.not_mem_nil, or_false, not_or] at hc
  cases h with
  | close => exact absurd rfl hc.2.1
  | char hchar hrest =>
    rw [afterChar, if_neg hc.1, if_neg (not_or.mpr hc.2)] at hchar
    cases hchar
    exact hrest

theorem not_mem_of_isHex (hc : isHex c = true) : c ∉ [backslash, doubleQuoteChar, '\n'] := by
  have hall : ∀ d ∈ [backslash, doubleQuoteChar, '\n'], isHex d = false :=
    forall_mem_of_all (by decide)
  exact fun hmem => Bool.false_ne_true ((hall c hmem).symm.trans hc)

theorem not_mem_of_isOctal (hc : isOctal c = true) : c ∉ [backslash, doubleQuoteChar, '\n'] := by
  have hall : ∀ d ∈ [backslash, doubleQuoteChar, '\n'], isOctal d = false :=
    forall_mem_of_all (by decide)
  exact fun hmem => Bool.false_ne_true ((hall c hmem).symm.trans hc)

/-- Digits of an escape sequence could as well be characters of the literal. -/
theorem body_dropWhile (h : Body doubleQuoteChar x y) :
    Body doubleQuoteChar (x.dropWhile isHex) y := by
  induction x with
  | nil => exact h
  | cons c x ih =>
    rcases hc : isHex c with _ | _
    · rwa [List.dropWhile_cons_of_neg (by simp [hc])]
    · rw [List.dropWhile_cons_of_pos hc]
      exact ih (Body.of_cons h (not_mem_of_isHex hc))

theorem body_afterOctals (n : Nat) (h : Body doubleQuoteChar x y) :
    Body doubleQuoteChar (afterOctals n x) y := by
  induction n, x using afterOctals.induct with
  | case1 n c x hc ih =>
    rw [afterOctals, if_pos hc]
    exact ih (Body.of_cons h (not_mem_of_isOctal hc))
  | case2 n c x hc => rwa [afterOctals, if_neg hc]
  | case3 n x hx => rwa [afterOctals.eq_2 n x hx]

theorem afterEscape_hex {d : Char} (hc : isHex c = true) :
    afterEscape ('x' :: c :: d :: x) = some ((c :: d :: x).dropWhile isHex) := by
  have hx : 'x' ∉ simpleEscapes ∧ isOctal 'x' = false := by decide
  rw [afterEscape, if_neg hx.1, if_neg (by rw [hx.2]; exact Bool.false_ne_true), if_pos rfl,
    if_pos (by simpa using hc)]

theorem afterEscape_simple (hc : c ∈ rustEscapes) :
    afterEscape (c :: x) = some x ∨ afterEscape (c :: x) = some (afterOctals 2 x) := by
  have hall : ∀ d ∈ rustEscapes, d ∈ simpleEscapes ∨ d ∉ simpleEscapes ∧ isOctal d = true :=
    forall_mem_of_all (by decide)
  rw [afterEscape]
  rcases hall c hc with hmem | ⟨hmem, hoctal⟩
  · exact .inl (if_pos hmem)
  · exact .inr (by rw [if_neg hmem, if_pos hoctal])

theorem body_escape {x' : List Char} (h : afterRustEscape x = some x')
    (hbody : Body doubleQuoteChar x' y) : Body doubleQuoteChar (backslash :: x) y := by
  suffices hescape : ∃ w, afterEscape x = some w ∧ Body doubleQuoteChar w y by
    obtain ⟨w, hw, hrest⟩ := hescape
    exact .char (by rw [afterChar, if_pos rfl, hw]) hrest
  unfold afterRustEscape at h
  split at h
  · split_ifs at h with hhex
    cases h
    rw [Bool.and_eq_true] at hhex
    refine ⟨_, afterEscape_hex hhex.1, ?_⟩
    rw [List.dropWhile_cons_of_pos hhex.1, List.dropWhile_cons_of_pos hhex.2]
    exact body_dropWhile hbody
  · split_ifs at h with hmem
    cases h
    rcases afterEscape_simple hmem with hsome | hsome
    · exact ⟨_, hsome, hbody⟩
    · exact ⟨_, hsome, body_afterOctals 2 hbody⟩
  · cases h

theorem StringBody.body (h : StringBody false x y) : Body doubleQuoteChar x y := by
  induction h with
  | close y => exact .close y
  | @char c x y hc hnewline _ ih =>
    refine .char ?_ ih
    simp only [List.mem_cons, List.not_mem_nil, or_false, not_or] at hc
    rw [afterChar, if_neg hc.1, if_neg]
    rintro (h | h)
    · exact hc.2 h
    · exact Bool.false_ne_true (hnewline h)
  | escape h _ ih => exact body_escape h ih
  | newline htraps => cases htraps

/-- The character of a character literal -/
theorem Character.afterChar_eq (h : Character false x (quote :: y)) :
    afterChar quote x = some (quote :: y) := by
  generalize hz : quote :: y = z at h
  cases h with
  | char hc =>
    subst hz
    simp only [List.mem_cons, List.not_mem_nil, or_false, not_or] at hc
    rw [afterChar, if_neg hc.1, if_neg (not_or.mpr hc.2)]
  | escape h hu =>
    subst hz
    rw [afterChar, if_pos rfl]
    unfold afterRustEscape at h
    have hquote : isHex quote = false ∧ isOctal quote = false := by decide
    split at h
    · split_ifs at h with hhex
      cases h
      rw [Bool.and_eq_true] at hhex
      rw [afterEscape_hex hhex.1, List.dropWhile_cons_of_pos hhex.1,
        List.dropWhile_cons_of_pos hhex.2, List.dropWhile_cons_of_neg (by simp [hquote.1])]
    · split_ifs at h with hmem
      cases h
      rcases afterEscape_simple hmem with hsome | hsome
      · exact hsome
      · rw [hsome, afterOctals, if_neg (by simp [hquote.2])]
    · cases h
  | octets htraps => cases htraps
  | braces htraps => cases htraps

theorem turns_string {x' : List Char} (h : At text i (doubleQuoteChar :: x))
    (hbody : StringBody false x x') (hstrings : AfterStrings x' y) :
    ∃ j, Turns text i j ∧ At text j y := by
  obtain ⟨xs, j, htakes, hj⟩ :=
    takes_stringLiteral (s := parsing text false) rfl h hbody.body hstrings
  have hr : doubleQuoteChar ≠ 'r' := by decide
  refine ⟨j, ⟨_, getElem?_of_drop h.drop, ?_⟩, hj⟩
  rw [parseRustBalancedTurn, if_neg (mt (lookingAt_r h).mp hr), if_neg (by decide), if_pos rfl]
  exact runs_ask.mpr ⟨_, answers_hcp htakes.answers, runs_ret.mpr rfl⟩

theorem takes_quote (h : At text i (quote :: x)) :
    (parsing text false).Takes (parseOneOfChars [quote]) i [.leaf i (i + 1)] (i + 1) :=
  takes_oneOfChars h.drop (.head _)

theorem turns_quote (h : At text i (quote :: x)) {r : ParseResult Unit ItemType Rule}
    (hr : Answers (parsing text false).body
      (.parse_ (parseOneOfChars [quote] + c_char + parseOneOfChars [quote]) i) r) :
    Turns text i (orNext i r) := by
  have hne : quote ≠ 'r' := by decide
  refine ⟨_, getElem?_of_drop h.drop, ?_⟩
  rw [parseRustBalancedTurn, if_neg (mt (lookingAt_r h).mp hne), if_pos rfl]
  exact runs_ask.mpr ⟨_, answers_hcp hr, runs_ret.mpr rfl⟩

theorem turns_character (h : At text i (quote :: x)) (hchar : Character false x (quote :: y)) :
    ∃ j, Turns text i j ∧ At text j y := by
  obtain ⟨xs, j, htakes, hj⟩ :=
    takes_charOf (s := parsing text false) h.tail hchar.afterChar_eq
  have hall : (parsing text false).Takes
      (parseOneOfChars [quote] + c_char + parseOneOfChars [quote]) i _ (j + 1) :=
    takes_and (.cons (takes_quote h) (.cons htakes (takes_quote hj).all))
  exact ⟨j + 1, turns_quote h hall.answers, hj.tail⟩

/-- The quote of a lifetime is not that of a character literal. -/
theorem turns_lifetime (h : At text i (quote :: c :: y)) (hc : isIdentifierChar c = true)
    (hy : y.head? ≠ some quote) : Turns text i (i + 1) := by
  have hall : ∀ d ∈ [backslash, quote, '\n'], isIdentifierChar d = false :=
    forall_mem_of_all (by decide)
  have hchar : afterChar quote (c :: y) = some y := by
    have hne : c ∉ [backslash, quote, '\n'] := fun hmem =>
      Bool.false_ne_true ((hall c hmem).symm.trans hc)
    simp only [List.mem_cons, List.not_mem_nil, or_false, not_or] at hne
    rw [afterChar, if_neg hne.1, if_neg (not_or.mpr hne.2)]
  obtain ⟨xs, j, htakes, hj⟩ := takes_charOf (s := parsing text false) h.tail hchar
  have hrefuses : (parsing text false).Refuses (parseOneOfChars [quote]) j := by
    refine refuses_oneOfChars fun d hd hmem => hy ?_
    rw [← hj.head?, ← List.mem_singleton.mp hmem]
    exact hd
  obtain ⟨e, he⟩ := (TakesAll.cons (takes_quote h) htakes.all).runs_refused hrefuses [] []
  exact turns_quote (r := .error e) h (answers_iff.mpr he)

/-- With hash signs around it and not at its start as well, a raw string literal is read to its
end. -/
theorem turns_raw {n : Nat} (h : At text i ('r' :: (List.replicate n '#' ++ doubleQuoteChar :: x)))
    (hx : search (rawEnd n <+: ·) x = some (rawEnd n ++ y))
    (hstart : ¬ List.replicate n '#' <+: x) : ∃ j, Turns text i j ∧ At text j y := by
  have hopen : At text (i + 1 + n) (doubleQuoteChar :: x) := by
    simpa using h.tail.append
  have hstring : (String.ofList (rawEnd n)).toList = rawEnd n := String.toList_ofList
  have hnot : ¬ rawEnd n <+: doubleQuoteChar :: x := by
    rintro ⟨z, hz⟩
    exact hstart ⟨z, (List.cons.inj hz).2⟩
  have hsearch : search (rawEnd n <+: ·) (text.drop (i + 1 + n)) = some (rawEnd n ++ y) := by
    rw [hopen.drop, search, if_neg hnot, hx]
  rcases takes_anyUntil (s := parsing text false) (p := (rawEnd n <+: ·))
      (x := .literal () (String.ofList (rawEnd n))) ()
      (fun k hk => hk.elim fun rest hrest => ⟨_, _, takes_literal (hstring.symm ▸ hrest.symm)⟩)
      (fun k hk => refuses_literal (hstring.symm ▸ hk)) (i + 1 + n) with
    ⟨rest, l, hrest, hl, huntil⟩ | ⟨hnone, -⟩
  · obtain rfl : rest = rawEnd n ++ y := Option.some.inj (hrest.symm.trans hsearch)
    have hat : At text l (rawEnd n ++ y) := At.of_drop_cons hl
    have hend : (parsing text false).Takes (.literal () (String.ofList (rawEnd n))) l
        [.leaf l (l + (String.ofList (rawEnd n)).toList.length)]
        (l + (String.ofList (rawEnd n)).toList.length) :=
      takes_literal (hstring.symm ▸ hat.drop)
    rw [hstring] at hend
    refine ⟨l + (rawEnd n).length, ⟨_, getElem?_of_drop h.drop, ?_⟩, hat.append⟩
    rw [parseRustBalancedTurn, if_pos ((lookingAt_r h).mpr rfl)]
    have hraw : Runs (body text) (parseRustRawStringLiteral text i)
        (.ok ([.leaf i (l + (rawEnd n).length)], l + (rawEnd n).length)) := by
      refine runs_ask.mpr ⟨_, answers_hcp (takes_r h).parse, ?_⟩
      simp only [Asking.bind, h.tail.drop, toQuote_ok, Nat.add_sub_cancel_left]
      exact runs_ask.mpr ⟨_, answers_hcp huntil.parse, runs_ask.mpr
        ⟨_, answers_hcp hend.parse, runs_ret.mpr rfl⟩⟩
    exact runs_bind (runs_bind hraw (runs_ret.mpr rfl)) (runs_ret.mpr rfl)
  · rw [show (parsing text false).text = text from rfl, hsearch] at hnone
    cases hnone

/-- From a comment that ends on, all comments and blanks are passed over. -/
theorem turns_comment (h : At text i ('/' :: x)) (hcomment : ¬ NoComment ('/' :: x)) :
    ∃ j, Turns text i j ∧ At text j (skipBlanks ('/' :: x)) := by
  rcases takesAllBlank_oneComment (s := parsing text false) rfl i with
    ⟨xs, k, htakes, -, hk, hskip, -⟩ | ⟨-, hnone⟩
  · obtain ⟨ys, j, hcomments, -, hj, hskip', hself⟩ :=
      takes_comments (s := parsing text false) rfl htakes hk
    refine ⟨j, ⟨_, getElem?_of_drop h.drop, ?_⟩, hj, ?_⟩
    · have hr : '/' ≠ 'r' := by decide
      rw [parseRustBalancedTurn, if_neg (mt (lookingAt_r h).mp hr), if_neg (by decide),
        if_neg (by decide), if_pos rfl]
      exact runs_ask.mpr ⟨_, answers_hcp hcomments.answers, runs_ret.mpr rfl⟩
    · rw [← h.drop]
      exact hself.symm.trans (hskip'.symm.trans hskip.symm)
  · exact absurd (h.drop ▸ hnone) hcomment

theorem turns_slash (h : At text i ('/' :: y)) (hline : y.head? ≠ some '/')
    (hblock : y.head? ≠ some '*') : Turns text i (i + 1) := by
  have hnot : ∀ c, y.head? ≠ some c → ¬ ['/', c] <+: text.drop i := by
    rintro c hc ⟨z, hz⟩
    rw [h.drop] at hz
    cases hz
    exact hc rfl
  have hone : (parsing text false).Refuses oneComment i :=
    refuses_oneComment (refuses_lineComment (hnot _ hline)) (refuses_blockComment (hnot _ hblock))
  obtain ⟨e, he⟩ : (parsing text false).Refuses comments i :=
    refuses_named (refuses_anon (refuses_and hone))
  have hr : '/' ≠ 'r' := by decide
  refine ⟨_, getElem?_of_drop h.drop, ?_⟩
  rw [parseRustBalancedTurn, if_neg (mt (lookingAt_r h).mp hr), if_neg (by decide),
    if_neg (by decide), if_pos rfl]
  exact runs_ask.mpr ⟨_, answers_hcp he, runs_ret.mpr rfl⟩

/-- Between brackets there is a loop of its own. -/
theorem turns_bracket {d : Char} {v : PV ItemType} (hcd : (c, d) ∈ brackets)
    (h : At text i (c :: x))
    (hinner : RustBalanced text (parseOneOfChars [d]) (i + 1) (.ok v)) :
    Turns text i (v.2 + 1) := by
  have hcases : c ≠ 'r' ∧ c ≠ quote ∧ c ≠ doubleQuoteChar ∧ c ≠ '/' ∧
      closer false c = some d := by
    rw [brackets] at hcd
    simp only [List.mem_cons, Prod.mk.injEq, List.not_mem_nil, or_false] at hcd
    rcases hcd with ⟨rfl, rfl⟩ | ⟨rfl, rfl⟩ | ⟨rfl, rfl⟩ <;> decide
  obtain ⟨hr, hquote, hdouble, hslash, hcloser⟩ := hcases
  refine ⟨c, getElem?_of_drop h.drop, ?_⟩
  rw [parseRustBalancedTurn, if_neg (mt (lookingAt_r h).mp hr), if_neg hquote, if_neg hdouble,
    if_neg hslash, hcloser]
  exact runs_ask.mpr ⟨_, hinner, runs_ret.mpr rfl⟩

end Turns

/-! ## What comes next -/

section Next

variable {traps : Bool} {b : Behind} {x y z : List Char} {ps : Places}

theorem afterBlock_suffix {n : Nat} (h : afterBlock n x = some y) : y <:+ x := by
  induction n, x using afterBlock.induct with
  | case1 x =>
    rw [afterBlock] at h
    cases h
    exact List.suffix_append ['*', '/'] _
  | case2 n x ih =>
    rw [afterBlock] at h
    exact (ih h).trans (List.suffix_append ['*', '/'] _)
  | case3 n x ih =>
    rw [afterBlock] at h
    exact (ih h).trans (List.suffix_append ['/', '*'] _)
  | case4 n c x hclose hopen ih =>
    rw [afterBlock] at h
    · exact (ih h).trans (List.suffix_cons ..)
    · exact hclose
    · exact hopen
  | case5 n => cases h

theorem afterRustEscape_suffix (h : afterRustEscape x = some y) : y <:+ x := by
  unfold afterRustEscape at h
  split at h
  · split_ifs at h
    cases h
    exact List.suffix_append ['x', _, _] _
  · split_ifs at h
    cases h
    exact List.suffix_cons ..
  · cases h

theorem StringBody.suffix (h : StringBody traps x y) : y <:+ x := by
  induction h with
  | close => exact List.suffix_cons ..
  | char _ _ _ ih => exact ih.trans (List.suffix_cons ..)
  | escape h _ ih => exact ih.trans ((afterRustEscape_suffix h).trans (List.suffix_cons ..))
  | newline _ _ ih => exact ih.trans (List.suffix_append [backslash, '\n'] _)

theorem Character.suffix (h : Character traps x y) : y <:+ x := by
  cases h with
  | char => exact List.suffix_cons ..
  | escape h => exact (afterRustEscape_suffix h).trans (List.suffix_cons ..)
  | octets => exact List.suffix_append ..
  | braces =>
    exact (List.suffix_cons ..).trans (List.suffix_append (backslash :: 'u' :: '\x7b' :: _) _)

/-- What comes behind the tokens is at the end of what there is. -/
theorem Tokens.suffix (h : Tokens traps b x z ps) : z <:+ x := by
  induction h with
  | nil => exact List.suffix_rfl
  | word _ _ _ _ ih | punctuator _ _ _ ih | blank _ _ _ ih | encoding _ _ _ _ ih =>
    exact ih.trans (List.suffix_cons ..)
  | lineComment _ hx _ ih =>
    exact ih.trans ((search_suffix hx).trans (List.suffix_append ['/', '/'] _))
  | lastComment => exact List.nil_suffix
  | blockComment _ hx _ _ ih =>
    exact ih.trans ((afterBlock_suffix hx).trans (List.suffix_append ['/', '*'] _))
  | string _ hbody _ ih => exact ih.trans (hbody.suffix.trans (List.suffix_cons ..))
  | character _ hchar _ ih =>
    exact ih.trans ((List.suffix_cons ..).trans (hchar.suffix.trans (List.suffix_cons ..)))
  | lifetime _ _ _ _ _ ih => exact ih.trans (List.suffix_cons ..)
  | rawString _ hx _ _ ih =>
    refine ih.trans ((List.suffix_append _ _).trans ((search_suffix hx).trans ?_))
    exact (List.suffix_cons ..).trans ((List.suffix_append _ _).trans (List.suffix_cons ..))
  | bracket _ _ _ _ ihinner ih =>
    exact ih.trans ((List.suffix_cons ..).trans (ihinner.trans (List.suffix_cons ..)))

theorem Tokens.noCloser (h : Tokens traps b x z ps) : NoCloser z ps := by
  induction h with
  | nil hb => exact ⟨[], _, rfl, hb, by simp⟩
  | word _ hc _ _ ih =>
    refine ih.cons fun hmem => ?_
    have hword : ∀ d ∈ [')', ']', '}'], isIdentifierContChar d = false :=
      forall_mem_of_all (by decide)
    exact Bool.false_ne_true ((hword _ hmem).symm.trans hc)
  | punctuator _ hc _ ih =>
    refine ih.cons fun hmem => ?_
    simp only [isPunctuator, Bool.and_eq_true, decide_eq_true_eq] at hc
    have hclose : ∀ d ∈ [')', ']', '}'], d ∈ brackets.flatMap fun b => [b.1, b.2] :=
      forall_mem_of_all (by decide)
    exact hc.1.2 (hclose _ hmem)
  | blank _ hc _ ih =>
    refine ih.cons fun hmem => ?_
    have hblank : ∀ d ∈ [')', ']', '}'], d ∉ blanks :=
      forall_mem_of_all (by decide)
    exact hblank _ hmem hc
  | lineComment _ _ _ ih => exact ih.cons (by decide)
  | lastComment =>
    have hend : NoCloser [] [(.outside, [])] := ⟨[], .other, rfl, by simp, by simp⟩
    exact hend.cons (by decide)
  | blockComment _ _ _ _ ih => exact ih.cons (by decide)
  | encoding _ hc _ _ ih =>
    refine ih.cons fun hmem => ?_
    have hclose : ∀ d ∈ [')', ']', '}'], d ∉ prefixes :=
      forall_mem_of_all (by decide)
    exact hclose _ hmem hc
  | string _ _ _ ih | character _ _ _ ih | lifetime _ _ _ _ _ ih | rawString _ _ _ _ ih =>
    exact ih.cons (by decide)
  | bracket _ hcd _ _ _ ih =>
    refine ih.cons fun hmem => ?_
    have hopen : ∀ p ∈ brackets, p.1 ∉ [')', ']', '}'] := by decide
    exact hopen _ hcd hmem

end Next

/-! ## The loop over the tokens -/

section Loop

variable (text : List Char)

/-- What the loop comes to from a place on -/
def LoopAt (until_ : PR) (start : Nat) (x : List Char) (r : ParseResult Unit ItemType Rule) :
    Prop := ∀ i, At text i x → Answers (body text) (.balanced until_ false start i) r

/-- The loop gets to each of the places that are not passed over, if `until_` fails before it. -/
def Reaches (b : Behind) (x : List Char) (ps : Places) : Prop :=
  ∀ (until_ : PR) (start : Nat) (r : ParseResult Unit ItemType Rule) (before after : Places)
    (p : Kind × List Char), ps = before ++ p :: after → p.1 ≠ .passed →
    (∀ q ∈ before, RefusesAt (parsing text false) until_ q.2) → LoopAt text until_ start p.2 r →
    ∃ y, After b x y ∧ LoopAt text until_ start y r

variable {text} {b b' : Behind} {x y : List Char} {ps : Places}

theorem Reaches.nil (b : Behind) (z : List Char) : Reaches text b z [(kindAt b z, z)] := by
  intro until_ start r before after p heq hkind _ hloop
  rcases before with _ | ⟨q, before⟩
  · cases heq
    exact ⟨z, after_of_kindAt hkind, hloop⟩
  · cases before <;> cases heq

theorem Reaches.cons (ih : Reaches text b' y ps)
    (hpassed : kindAt b x = .passed → ∀ r, After b' y r → After b x r)
    (hturns : kindAt b x ≠ .passed → ∀ i r, At text i x → After b' y r →
      ∃ j, Turns text i j ∧ At text j r) : Reaches text b x ((kindAt b x, x) :: ps) := by
  intro until_ start res before after p heq hkind hbefore hloop
  rcases before with _ | ⟨q, before⟩
  · cases heq
    exact ⟨x, after_of_kindAt hkind, hloop⟩
  · cases heq
    obtain ⟨hfails, hbefore⟩ := List.forall_mem_cons.mp hbefore
    obtain ⟨r, hafter, hr⟩ := ih until_ start res before after p rfl hkind hbefore hloop
    by_cases hx : kindAt b x = .passed
    · exact ⟨r, hpassed hx r hafter, hr⟩
    · refine ⟨x, after_of_kindAt hx, fun i hi => ?_⟩
      obtain ⟨j, hturn, hj⟩ := hturns hx i r hi hafter
      exact hturn.answers (hfails i hi) (hr j hj)

/-- Where a token is not passed over -/
theorem Reaches.token (ih : Reaches text b' y ps) (hkind : kindAt b x ≠ .passed)
    (hturns : ∀ i r, At text i x → After b' y r → ∃ j, Turns text i j ∧ At text j r) :
    Reaches text b x ((kindAt b x, x) :: ps) :=
  ih.cons (fun h => absurd h hkind) fun _ => hturns

/-- A character on its own -/
theorem Reaches.plain {c : Char} (ih : Reaches text b' y ps) (hkind : kindAt b (c :: y) ≠ .passed)
    (hafter : ∀ r, After b' y r → r = y) (hturns : ∀ i, At text i (c :: y) → Turns text i (i + 1)) :
    Reaches text b (c :: y) ((kindAt b (c :: y), c :: y) :: ps) := by
  refine ih.token hkind fun i r hi hr => ?_
  obtain rfl := hafter r hr
  exact ⟨i + 1, hturns i hi, hi.tail⟩

/-- A blank, or a comment -/
theorem Reaches.passed (ih : Reaches text b' y ps) (hskip : skipBlanks x = skipBlanks y)
    (hb' : b = .comment ∨ b = .string → b' = b)
    (hturns : kindAt b x ≠ .passed → ∀ i r, At text i x → After b' y r →
      ∃ j, Turns text i j ∧ At text j r) : Reaches text b x ((kindAt b x, x) :: ps) := by
  refine ih.cons (fun hkind r hr => ?_) hturns
  have hb := behind_of_passed hkind
  rw [hb' hb] at hr
  exact after_skipBlanks hb hskip hr

theorem Reaches.comment (ih : Reaches text b.addComment y ps)
    (hskip : skipBlanks ('/' :: x) = skipBlanks y) (hstarts : startsBlank ('/' :: x) = true)
    (hcomment : ¬ NoComment ('/' :: x)) :
    Reaches text b ('/' :: x) ((kindAt b ('/' :: x), '/' :: x) :: ps) := by
  refine ih.passed hskip (by rintro (rfl | rfl) <;> rfl) fun hkind i r hi hr => ?_
  have hafter : r = skipBlanks y := by
    cases b with
    | string => exact absurd (if_pos (by rw [hstarts]; rfl)) hkind
    | _ => exact hr
  rw [hafter, ← hskip]
  exact turns_comment hi hcomment

/-- What is inside of brackets -/
theorem Reaches.inner {c d : Char} {z : List Char} {i : Nat} (hcd : (c, d) ∈ brackets)
    (hi : At text i (c :: x)) (ih : Reaches text .other x ps) (hplaces : NoCloser (d :: z) ps)
    (hsuffix : (d :: z) <:+ x) :
    ∃ j, Turns text i j ∧ At text j z := by
  obtain ⟨before, b', rfl, hb', hbefore⟩ := hplaces
  have hclose : d ∈ [')', ']', '}'] ∧ startsBlank (d :: z) = false ∧ d ≠ doubleQuoteChar := by
    have hall : ∀ p ∈ brackets, p.2 ∈ [')', ']', '}'] ∧ (p.2 ∉ blanks ∧ p.2 ≠ '/') ∧
        p.2 ≠ doubleQuoteChar := by decide
    obtain ⟨hmem, ⟨hblank, hslash⟩, hquote⟩ := hall _ hcd
    exact ⟨hmem, startsBlank_of_head hblank fun h => absurd h hslash, hquote⟩
  obtain ⟨hmem, hblank, hquote⟩ := hclose
  have hkind : kindAt b' (d :: z) ≠ .passed :=
    kindAt_ne_passed b' hblank fun h => hquote (Option.some.inj h)
  have hfails : ∀ q ∈ before, RefusesAt (parsing text false) (parseOneOfChars [d]) q.2 := by
    intro q hq k hk
    obtain ⟨e, y, heq, he⟩ := hbefore q hq
    refine refuses_oneOfChars fun f hf hfd => he ?_
    rw [hk.head?, heq] at hf
    cases hf
    rw [List.mem_singleton.mp hfd]
    exact hmem
  obtain ⟨j, hj⟩ : ∃ j, At text j (d :: z) := ⟨_, hi.tail.suffix hsuffix⟩
  have hloop : LoopAt text (parseOneOfChars [d]) (i + 1) (d :: z)
      (.ok ([.leaf (i + 1) j], j)) := by
    intro k hk
    cases hj.eq hk
    have htakes : (parsing text false).Takes (parseOneOfChars [d]) j [.leaf j (j + 1)] (j + 1) :=
      takes_oneOfChars hk.drop (List.mem_singleton_self d)
    exact answers_iff.mpr (runs_ask.mpr ⟨_, answers_hcp htakes.answers, runs_ret.mpr rfl⟩)
  obtain ⟨r, rfl, hr⟩ := ih _ _ _ before [] _ rfl hkind hfails hloop
  exact ⟨j + 1, turns_bracket hcd hi (hr _ hi.tail), hj.tail⟩

/-- A character of a word, where no raw string literal starts -/
theorem Reaches.word {c : Char} (ih : Reaches text (b.addChar c) y ps)
    (hc : isIdentifierContChar c = true) (hraw : c = 'r' → startsRaw y = false) :
    Reaches text b (c :: y) ((kindAt b (c :: y), c :: y) :: ps) := by
  have hnot : ∀ d, isIdentifierContChar d = false → c ≠ d := by
    rintro d hd rfl
    exact Bool.false_ne_true (hd.symm.trans hc)
  have hmem : ∀ ds : List Char, ds.all (fun d => decide (isIdentifierContChar d = false)) = true →
      c ∉ ds :=
    fun ds hds h => hnot c (forall_mem_of_all hds c h) rfl
  refine ih.plain (kindAt_of_head b (hmem _ (by decide)) (hnot _ (by decide)) (hnot _ (by decide)))
    (fun r => Behind.after_addChar) fun i hi => ?_
  by_cases hr : c = 'r'
  · subst hr
    exact turns_r hi (hraw rfl)
  · exact turns_plain hi hr (hnot _ (by decide)) (hnot _ (by decide)) (hnot _ (by decide))
      (closer_of_ne (hmem _ (by decide)))

theorem Reaches.punctuator {c : Char} (ih : Reaches text .other y ps)
    (hc : isPunctuator c y = true) :
    Reaches text b (c :: y) ((kindAt b (c :: y), c :: y) :: ps) := by
  simp only [isPunctuator, Bool.and_eq_true, Bool.not_eq_true', decide_eq_true_eq,
    List.mem_cons, List.not_mem_nil, or_false, not_or] at hc
  obtain ⟨⟨⟨⟨hword, hblank⟩, hquote, hdouble⟩, hbracket⟩, hslash⟩ := hc
  by_cases hc : c = '/'
  · subst hc
    simp only [decide_true, Bool.true_and, Bool.or_eq_false_iff, decide_eq_false_iff_not] at hslash
    refine ih.plain (kindAt_ne_passed b (startsBlank_of_head hblank fun _ => hslash) ?_)
      (fun r hr => hr) fun i hi => turns_slash hi hslash.1 hslash.2
    exact fun h => hdouble (Option.some.inj h)
  · have hr : c ≠ 'r' := by
      rintro rfl
      exact absurd hword (by decide)
    have hopen : c ∉ ['{', '[', '('] := by
      have hall : ∀ d ∈ ['{', '[', '('], d ∈ brackets.flatMap fun b => [b.1, b.2] :=
        forall_mem_of_all (by decide)
      exact fun hmem => hbracket (hall c hmem)
    exact ih.plain (kindAt_of_head b hblank hc hdouble) (fun r hr => hr) fun i hi =>
      turns_plain hi hr hquote hdouble hc (closer_of_ne hopen)

theorem Reaches.blank {c : Char} (ih : Reaches text b.addBlank y ps) (hc : c ∈ blanks) :
    Reaches text b (c :: y) ((kindAt b (c :: y), c :: y) :: ps) := by
  have hall : ∀ d ∈ blanks, d ≠ 'r' ∧ d ≠ quote ∧ d ≠ doubleQuoteChar ∧ d ≠ '/' ∧
      closer false d = none :=
    forall_mem_of_all (by decide)
  obtain ⟨hr, hquote, hdouble, hslash, hopen⟩ := hall c hc
  refine ih.passed (skipBlanks_blank hc y) (by rintro (rfl | rfl) <;> rfl) ?_
  intro hkind i r hi hr'
  have hstarts : startsBlank (c :: y) = true := by
    rw [startsBlank]
    · exact decide_eq_true hc
    · exact fun _ h => absurd h hslash
    · exact fun _ h => absurd h hslash
  obtain rfl := after_addBlank hkind hstarts hr'
  exact ⟨i + 1, turns_plain hi hr hquote hdouble hslash hopen, hi.tail⟩

/-- The prefix of a literal -/
theorem Reaches.encoding {c : Char} (ih : Reaches text .encoding y ps) (hc : c ∈ prefixes) :
    Reaches text b (c :: y) ((kindAt b (c :: y), c :: y) :: ps) := by
  have hall : ∀ d ∈ prefixes, d ∉ blanks ∧ d ≠ '/' ∧ d ≠ 'r' ∧ d ≠ quote ∧
      d ≠ doubleQuoteChar ∧ closer false d = none :=
    forall_mem_of_all (by decide)
  obtain ⟨hblank, hslash, hr, hquote, hdouble, hopen⟩ := hall c hc
  exact ih.plain (kindAt_of_head b hblank hslash hdouble) (fun r hr => hr) fun i hi =>
    turns_plain hi hr hquote hdouble hslash hopen

theorem Reaches.string (ih : Reaches text .string y ps) (hbody : StringBody false x y) :
    Reaches text b (doubleQuoteChar :: x)
      ((kindAt b (doubleQuoteChar :: x), doubleQuoteChar :: x) :: ps) := by
  have hblank : startsBlank (doubleQuoteChar :: x) = false :=
    startsBlank_of_head (by decide) fun h => absurd h (by decide)
  refine ih.cons (fun hpassed r hr => ?_) fun _ i r hi hr => turns_string hi hbody hr
  rcases behind_of_passed hpassed with rfl | rfl
  · rw [kindAt, hblank] at hpassed
    cases hpassed
  · exact .more (skipBlanks_of_not hblank) hbody.body hr

/-- The loop gets to the places of the tokens, if there are no traps. -/
theorem Tokens.reaches {z : List Char} (h : Tokens false b x z ps) : Reaches text b x ps := by
  induction h with
  | nil => exact .nil _ _
  | word _ hc hraw _ ih =>
    refine ih.word hc fun hr => Bool.eq_false_iff.mpr fun hstarts => ?_
    exact Bool.false_ne_true (hraw hr hstarts).2.2
  | punctuator _ hc _ ih => exact ih.punctuator hc
  | blank _ hc _ ih => exact ih.blank hc
  | lineComment _ hx _ ih =>
    refine ih.comment (skipBlanks_of_line hx) (by rw [startsBlank, hx]; rfl) fun h => ?_
    have hnone := h.1 _ rfl
    rw [skipFrom_line, hx] at hnone
    cases hnone
  | lastComment htraps => cases htraps
  | blockComment _ _ hfirst _ ih =>
    have hx := hfirst.resolve_right Bool.false_ne_true
    refine ih.comment (skipBlanks_of_block hx) (by rw [startsBlank, hx]; rfl) fun h => ?_
    have hnone := h.2 _ rfl
    rw [skipFrom_block, hx] at hnone
    cases hnone
  | encoding _ hc _ _ ih => exact ih.encoding hc
  | string _ hbody _ ih => exact ih.string hbody
  | character _ hchar _ ih =>
    refine ih.token (kindAt_of_head _ (by decide) (by decide) (by decide)) fun i r hi hr => ?_
    obtain rfl := hr
    exact turns_character hi hchar
  | lifetime _ _ hc hy _ ih =>
    exact ih.plain (kindAt_of_head _ (by decide) (by decide) (by decide)) (fun r hr => hr)
      fun i hi => turns_lifetime hi hc hy
  | rawString _ hx hstart _ ih =>
    refine ih.token (kindAt_of_head _ (by decide) (by decide) (by decide)) fun i r hi hr => ?_
    obtain rfl := hr
    exact turns_raw hi hx fun h => Bool.false_ne_true (hstart h)
  | bracket _ hcd hinner _ ihinner ih =>
    have hall : ∀ p ∈ brackets, p.1 ∉ blanks ∧ p.1 ≠ '/' ∧ p.1 ≠ doubleQuoteChar := by decide
    obtain ⟨hblank, hslash, hdouble⟩ := hall _ hcd
    refine ih.token (kindAt_of_head _ hblank hslash hdouble) fun i r hi hr => ?_
    obtain rfl := hr
    exact ihinner.inner hcd hi hinner.noCloser hinner.suffix

end Loop

/-! ## Where it stops -/

section Main

variable {text : List Char} {until_ : PR} {i : Nat} {z : List Char} {ps : Places}

/-- What the loop comes to at a place, the parser does. -/
theorem Tokens.answers (h : Tokens false .other (text.drop i) z ps) (hi : i ≤ text.length)
    {before after : Places} {p : List Char} {r : ParseResult Unit ItemType Rule}
    (hps : ps = before ++ (.outside, p) :: after) (hbefore : ∀ q ∈ before, Fails text until_ q.2)
    (hloop : LoopAt text until_ i p r) : RustBalanced text until_ i r := by
  obtain ⟨x, rfl, hx⟩ := h.reaches until_ i r before after _ hps nofun
    (fun q hq => (hbefore q hq).refusesAt) hloop
  exact hx i ⟨hi, rfl⟩

/-- Without traps, the parser stops at the first place where `until_` matches outside of all
brackets, literals and comments, if it matches neither where the parser passes over something nor
behind the prefix of a literal. -/
theorem rustBalanced_stops_at_first (hi : i ≤ text.length)
    (h : Tokens false .other (text.drop i) z ps) (helsewhere : FailsElsewhere text until_ ps) :
    StopsAtFirst text until_ i z ps := by
  have hmem : ∀ {qs : Places} {q : Kind × List Char}, q ∈ qs → q.1 = .outside →
      q.2 ∈ outsides qs := by
    intro qs q hq hkind
    exact List.mem_map_of_mem (List.mem_filter.mpr ⟨hq, by rw [hkind]; rfl⟩)
  refine ⟨fun before p after heq hbefore hmatch => ?_, fun hz hall => ?_⟩
  · obtain ⟨l₁, l₂, hfilter, rfl, hl₂⟩ := List.map_eq_append_iff.mp heq
    obtain ⟨⟨k, p'⟩, l₃, rfl, rfl, rfl⟩ := List.map_eq_cons_iff.mp hl₂
    obtain ⟨qs, rest, rfl, rfl, hrest⟩ := List.filter_eq_append_iff.mp hfilter
    obtain ⟨ins, after, rfl, hins, hk, rfl⟩ := List.filter_eq_cons_iff.mp hrest
    have hps : qs ++ (ins ++ (k, p') :: after) = (qs ++ ins) ++ (k, p') :: after :=
      (List.append_assoc ..).symm
    have hfails : ∀ q ∈ qs ++ ins, Fails text until_ q.2 := by
      refine helsewhere.all (l := []) hps nofun fun q hq hkind => ?_
      rcases List.mem_append.mp hq with hq | hq
      · exact hbefore q.2 (hmem hq hkind)
      · exact absurd (decide_eq_true (hkind ▸ nofun : q.1 ≠ .inside)) (hins q hq)
    obtain ⟨v, hv⟩ := hmatch
    have hkind : k = .outside := by
      by_contra hne
      obtain ⟨e, he⟩ := helsewhere _ _ _ hps hfails hne
      cases hv.unique he
    subst hkind
    refine h.answers hi hps hfails fun j hj => ?_
    obtain rfl := hj.eq (hj.suffix List.suffix_rfl)
    rw [AtPlace, ← body_parsing] at hv
    exact answers_iff.mpr (runs_ask.mpr ⟨_, answers_hcp hv, runs_ret.mpr rfl⟩)
  · obtain ⟨before, b, rfl, hb, -⟩ := h.noCloser
    have hall := helsewhere.all (l := []) (List.append_nil _).symm nofun
      fun q hq hkind => hall q.2 (hmem hq hkind)
    have hlast : kindAt b z = .outside := by
      subst hz
      cases b <;> first | rfl | exact absurd rfl hb
    rw [hlast] at h hall
    refine ⟨{ cause := .endOfInput, position := text.length, atEnd := true },
      h.answers hi rfl (fun q hq => hall q (List.mem_append_left _ hq)) fun j hj => ?_, rfl⟩
    obtain ⟨e, he⟩ := (hall (.outside, z) (by simp)).refusesAt j hj
    obtain rfl : j = text.length :=
      Nat.le_antisymm hj.le (List.drop_eq_nil_iff.mp (hj.drop.trans hz))
    have hend : text[text.length]? = none := List.getElem?_eq_none le_rfl
    refine answers_iff.mpr (runs_ask.mpr ⟨_, answers_hcp he, ?_⟩)
    simp only [Asking.bind, hend]
    exact runs_ret.mpr rfl

/-- A bracket with a raw string literal, in which there is its closing one -/
theorem rustBalanced_stops_at_first_raw : StopsAtFirst "(r#\")\"#);".toList (parseOneOfChars [';'])
    0 [';'] [(.outside, "(r#\")\"#);".toList), (.outside, [';'])] := by
  have hinner : Tokens false .other "r#\")\"#);".toList [')', ';']
      [(.outside, "r#\")\"#);".toList), (.outside, [')', ';'])] :=
    .rawString (n := 1) (x := ")\"#);".toList) (.inl rfl) (by decide) (by decide)
      (.nil nofun (by decide))
  have htokens : Tokens false .other ("(r#\")\"#);".toList.drop 0) [';']
      [(.outside, "(r#\")\"#);".toList), (.outside, [';'])] :=
    .bracket nofun (by decide) hinner (.nil nofun (by decide))
  refine rustBalanced_stops_at_first (by decide) htokens fun before p after heq _ hne => ?_
  have hp : p ∈ [(Kind.outside, "(r#\")\"#);".toList), (Kind.outside, [';'])] := heq ▸ by simp
  simp only [List.mem_cons, List.not_mem_nil, or_false] at hp
  rcases hp with rfl | rfl <;> exact absurd rfl hne

/-- Without hash signs, the quote that opens a raw string literal is taken for its end, and the one
that closes it for the start of a string literal. -/
theorem not_rustBalanced_stops_at_first : ¬ ∀ (text : List Char) (until_ : PR) (i : Nat)
    (z : List Char) (ps : Places), i ≤ text.length → Tokens true .other (text.drop i) z ps →
      StopsAtFirst text until_ i z ps := by
  intro h
  have htokens : Tokens true .other ("r\"a\";".toList.drop 0) [';'] [(.outside, "r\"a\";".toList),
      (.outside, [';'])] :=
    .rawString (n := 0) (x := "a\";".toList) (.inl rfl) (by decide) (fun _ => rfl)
      (.nil nofun (by decide))
  obtain ⟨hstops, -⟩ := h _ (parseOneOfChars [';']) 0 _ _ (Nat.zero_le _) htokens
  have hanswers := hstops ["r\"a\";".toList] [';'] [] rfl ?_ ⟨_, 1, rfl⟩
  · have hrun : (eval (body "r\"a\";".toList) 20
        (.balanced (parseOneOfChars [';']) false 0 0)).any (fun r => !r.isOk) = true := by
      decide +kernel
    obtain ⟨r, hr, herror⟩ := (Option.any_eq_true ..).mp hrun
    cases hanswers.unique ⟨20, hr⟩
    cases herror
  · intro q hq
    rw [List.mem_singleton.mp hq]
    exact ⟨_, 1, rfl⟩

end Main

end Urnest.RsDep
