import Mathlib
import Urnest.Hcp.Literals

/-!
# Balanced text

`balanced(until)` goes from one place to the next until `until` matches. Over the tokens of C++
(`Tokens`) these are the places outside of all brackets, literals and comments, but that it passes
over what is blank behind a comment or a string literal, and the string literals behind one. What is
not what it looks like by its first characters derails it: the quote that separates digits, the end
of a name before a string literal that could be the prefix of a raw one, and the second character of
a character literal.
-/

namespace Urnest.Hcp.Cpp

open Lib Lib.Asking Parsing

/-! ## Tokens -/

/-- What comes before, as far as it matters. -/
inductive Behind where
  | other
  /-- the name or number so far -/
  | word (w : List Char)
  /-- the prefix of a literal -/
  | encoding
  | comment
  /-- string literals, and what is blank behind them -/
  | string

namespace Behind

/-- A word can start. -/
def startsToken : Behind → Bool
  | word _ | encoding => false
  | _ => true

def addChar (c : Char) : Behind → Behind
  | word w => word (w ++ [c])
  | _ => word [c]

def addBlank : Behind → Behind
  | comment => comment
  | string => string
  | _ => other

def addComment : Behind → Behind
  | string => string
  | _ => comment

/-- Behind the word, a string literal looks like a raw one. -/
def looksRaw : Behind → Bool
  | word w => w.getLast? = some 'R'
  | _ => false

/-- The word is one of those, which are the prefixes of what comes. -/
def isOneOf (ws : List (List Char)) : Behind → Bool
  | word w => w ∈ ws
  | _ => false

def isNumber : Behind → Bool
  | word (c :: _) => '0' ≤ c && c ≤ '9'
  | _ => false

end Behind

/-- Blanks, or a comment that ends -/
def startsBlank : List Char → Bool
  | '/' :: '/' :: x => (search AtNewline x).isSome
  | '/' :: '*' :: x => (search AtStarSlash x).isSome
  | c :: _ => c ∈ blanks
  | [] => false

inductive Kind where
  /-- outside of all brackets, literals and comments -/
  | outside
  /-- outside, too, but the parser passes it over -/
  | passed
  /-- in a literal, behind its prefix -/
  | inside
  deriving DecidableEq

/-- What a place is, with what comes before it -/
def kindAt : Behind → List Char → Kind
  | .encoding, _ => .inside
  | .comment, x => if startsBlank x then .passed else .outside
  | .string, x => if startsBlank x || x.head? = some doubleQuoteChar then .passed else .outside
  | _, _ => .outside

/-- A place is what comes there. -/
abbrev Places := List (Kind × List Char)

def brackets : List (Char × Char) := [('(', ')'), ('[', ']'), ('{', '}')]

/-- Neither of a word, nor a blank, nor part of a bracket, a literal or a comment -/
def isPunctuator (c : Char) (y : List Char) : Bool :=
  !isIdentifierContChar c && c ∉ blanks && c ∉ [quote, doubleQuoteChar] &&
    c ∉ brackets.flatMap (fun b => [b.1, b.2]) &&
    !(c = '/' && (y.head? = some '/' || y.head? = some '*'))

def startsQuoted (y : List Char) : Bool := y.head? = some quote || y.head? = some doubleQuoteChar

/-- The tokens from `x` to `z`, and the places there, of which `z` is the last. Only with `traps`
there is what derails the parser. -/
inductive Tokens (traps : Bool) : Behind → List Char → List Char → Places → Prop where
  | nil {b : Behind} {z : List Char} :
    b ≠ .encoding →
    (b.startsToken = false → z.head?.all fun c => !isIdentifierContChar c) →
    (b.looksRaw = true → z.head? = some doubleQuoteChar → traps = true) →
    Tokens traps b z z [(kindAt b z, z)]
  | word {b : Behind} {c : Char} {y z : List Char} {ps : Places} :
    b ≠ .encoding → isIdentifierContChar c = true → Tokens traps (b.addChar c) y z ps →
    Tokens traps b (c :: y) z ((kindAt b (c :: y), c :: y) :: ps)
  /-- The quote between two digits of a number -/
  | separator {b : Behind} {y z : List Char} {ps : Places} :
    traps = true → b.isNumber = true → y.head?.any isIdentifierContChar →
    Tokens traps (b.addChar quote) y z ps →
    Tokens traps b (quote :: y) z ((kindAt b (quote :: y), quote :: y) :: ps)
  | punctuator {b : Behind} {c : Char} {y z : List Char} {ps : Places} :
    b ≠ .encoding → isPunctuator c y = true → Tokens traps .other y z ps →
    Tokens traps b (c :: y) z ((kindAt b (c :: y), c :: y) :: ps)
  | blank {b : Behind} {c : Char} {y z : List Char} {ps : Places} :
    b ≠ .encoding → c ∈ blanks → Tokens traps b.addBlank y z ps →
    Tokens traps b (c :: y) z ((kindAt b (c :: y), c :: y) :: ps)
  | lineComment {b : Behind} {x y z : List Char} {ps : Places} :
    b ≠ .encoding → search AtNewline x = some y → Tokens traps b.addComment y z ps →
    Tokens traps b ('/' :: '/' :: x) z ((kindAt b ('/' :: '/' :: x), '/' :: '/' :: x) :: ps)
  /-- The text ends in the comment. -/
  | lastComment {b : Behind} {x : List Char} :
    traps = true → b ≠ .encoding → search AtNewline x = none →
    Tokens traps b ('/' :: '/' :: x) []
      [(kindAt b ('/' :: '/' :: x), '/' :: '/' :: x), (.outside, [])]
  | blockComment {b : Behind} {x y z : List Char} {ps : Places} :
    b ≠ .encoding → search AtStarSlash x = some ('*' :: '/' :: y) →
    Tokens traps b.addComment y z ps →
    Tokens traps b ('/' :: '*' :: x) z ((kindAt b ('/' :: '*' :: x), '/' :: '*' :: x) :: ps)
  /-- The prefix of a literal, and of two characters the one that is left -/
  | encoding {b : Behind} {c : Char} {y z : List Char} {ps : Places} :
    b.startsToken = true → [c] ∈ encodings → startsQuoted y = true →
    Tokens traps .encoding y z ps →
    Tokens traps b (c :: y) z ((kindAt b (c :: y), c :: y) :: ps)
  | u8 {b : Behind} {y z : List Char} {ps : Places} :
    b.startsToken = true → startsQuoted y = true → Tokens traps .encoding y z ps →
    Tokens traps b ('u' :: '8' :: y) z
      ((kindAt b ('u' :: '8' :: y), 'u' :: '8' :: y) :: (.inside, '8' :: y) :: ps)
  | string {b : Behind} {x y z : List Char} {ps : Places} :
    b.isOneOf (encodings ++ ([] :: encodings).map (· ++ ['R'])) = false →
    (b.looksRaw = true → traps = true) → Body doubleQuoteChar x y →
    Tokens traps .string y z ps →
    Tokens traps b (doubleQuoteChar :: x) z
      ((kindAt b (doubleQuoteChar :: x), doubleQuoteChar :: x) :: ps)
  | character {b : Behind} {x y z : List Char} {ps : Places} :
    b.isOneOf encodings = false →
    (b.isNumber = true → x.head?.all fun c => !isIdentifierContChar c) →
    x.head? ≠ some quote → Body quote x y →
    (afterChar quote x = some (quote :: y) ∨ traps = true) → Tokens traps .other y z ps →
    Tokens traps b (quote :: x) z ((kindAt b (quote :: x), quote :: x) :: ps)
  | rawString {b : Behind} {pre d x x' y z : List Char} {ps : Places} :
    b.startsToken = true → pre ∈ [] :: encodings → IsDelimeter d →
    x = pre ++ 'R' :: doubleQuoteChar :: d ++ '(' :: x' →
    search (rawEnd d <+: ·) x' = some (rawEnd d ++ y) → Tokens traps .other y z ps →
    Tokens traps b x z ((kindAt b x, x) :: ps)
  | bracket {b : Behind} {c d : Char} {y y' z : List Char} {qs ps : Places} :
    b ≠ .encoding → (c, d) ∈ brackets → Tokens traps .other y (d :: y') qs →
    Tokens traps .other y' z ps →
    Tokens traps b (c :: y) z ((kindAt b (c :: y), c :: y) :: ps)

/-! ## The first of the places -/

section Stops

variable (text : List Char) (until_ : PR)

/-- What `until_` makes of a place -/
def AtPlace (p : List Char) (r : ParseResult Unit ItemType Rule) : Prop :=
  Answers (body grammar text false) (.parse_ until_ (text.length - p.length)) r

def Matches (p : List Char) : Prop := ∃ v, AtPlace text until_ p (.ok v)

def Fails (p : List Char) : Prop := ∃ e, AtPlace text until_ p (.error e)

/-- The places outside of all brackets, literals and comments -/
def outsides (ps : Places) : List (List Char) :=
  (ps.filter fun p => p.1 ≠ .inside).map Prod.snd

/-- From `i` on, the parser stops at the first of the places where `until_` matches, and it fails
with the end of the input if there is none up to there. -/
def StopsAtFirst (i : Nat) (z : List Char) (ps : Places) : Prop :=
  (∀ before p after, outsides ps = before ++ p :: after → (∀ q ∈ before, Fails text until_ q) →
    Matches text until_ p → Answers (body grammar text false) (.parse_ (balanced until_) i)
      (.ok ([.leaf i (text.length - p.length)], text.length - p.length))) ∧
  (z = [] → (∀ q ∈ outsides ps, Fails text until_ q) →
    ∃ e, Answers (body grammar text false) (.parse_ (balanced until_) i) (.error e) ∧
      e.cause = .endOfInput)

/-- `until_` fails where the parser passes over a blank, a comment or a string literal, and behind
the prefix of a literal, unless it does not fail before. -/
def FailsElsewhere (ps : Places) : Prop :=
  ∀ before p after, ps = before ++ p :: after → (∀ q ∈ before, Fails text until_ q.2) →
    p.1 ≠ .outside → Fails text until_ p.2

end Stops

/-! ## Where the loop goes on -/

/-- Where the loop goes on, with what has been read last -/
def After : Behind → List Char → List Char → Prop
  | .comment, x, r => r = skipBlanks x
  | .string, x, r => AfterStrings x r
  | _, x, r => r = x

theorem startsBlank_of_head {c : Char} {y : List Char} (hc : c ∉ blanks)
    (hslash : c = '/' → y.head? ≠ some '/' ∧ y.head? ≠ some '*') :
    startsBlank (c :: y) = false := by
  rw [startsBlank]
  · exact decide_eq_false hc
  · rintro x rfl rfl
    exact (hslash rfl).1 rfl
  · rintro x rfl rfl
    exact (hslash rfl).2 rfl

theorem skipBlanks_of_not {x : List Char} (h : startsBlank x = false) : skipBlanks x = x := by
  refine skipBlanks_eq_self (fun c hc hmem => ?_) ⟨fun y hy => ?_, fun y hy => ?_⟩
  · rcases x with _ | ⟨d, x⟩ <;> cases hc
    have hslash : c ≠ '/' := by
      rintro rfl
      exact absurd hmem (by decide)
    rw [startsBlank, decide_eq_false_iff_not] at h
    · exact h hmem
    · exact fun _ hc => absurd hc hslash
    · exact fun _ hc => absurd hc hslash
  · subst hy
    rw [startsBlank, Option.isSome_eq_false_iff, Option.isNone_iff_eq_none] at h
    rw [skipFrom_line, h]
    rfl
  · subst hy
    rw [startsBlank, Option.isSome_eq_false_iff, Option.isNone_iff_eq_none] at h
    rw [skipFrom_block, h]
    rfl

/-- The loop stays at a place that is not passed over. -/
theorem after_of_kindAt {b : Behind} {x : List Char} (h : kindAt b x ≠ .passed) : After b x x := by
  cases b with
  | comment =>
    rw [kindAt] at h
    split_ifs at h with hblank
    · exact absurd rfl h
    · exact (skipBlanks_of_not (Bool.eq_false_iff.mpr hblank)).symm
  | string =>
    rw [kindAt] at h
    split_ifs at h with hblank
    · exact absurd rfl h
    · rw [Bool.or_eq_true, decide_eq_true_eq, not_or] at hblank
      have hskip := skipBlanks_of_not (Bool.eq_false_iff.mpr hblank.1)
      have hstop := AfterStrings.stop (y := x) (by rw [hskip]; exact hblank.2)
      rwa [hskip] at hstop
  | _ => rfl

/-- Only blanks, comments and string literals are passed over. -/
theorem kindAt_ne_passed (b : Behind) {x : List Char} (h : startsBlank x = false)
    (hquote : x.head? ≠ some doubleQuoteChar) : kindAt b x ≠ .passed := by
  cases b <;> simp [kindAt, h, hquote]

theorem after_skipBlanks {b : Behind} {x y r : List Char} (hb : b = .comment ∨ b = .string)
    (hskip : skipBlanks x = skipBlanks y) (h : After b y r) : After b x r := by
  rcases hb with rfl | rfl
  · exact h.trans hskip.symm
  · cases h with
    | stop hstop => exact hskip ▸ .stop (hskip ▸ hstop)
    | more hmore hbody hrest => exact .more (hskip.trans hmore) hbody hrest

/-- What is passed over comes behind a comment or a string literal. -/
theorem behind_of_passed {b : Behind} {x : List Char} (h : kindAt b x = .passed) :
    b = .comment ∨ b = .string := by
  cases b with
  | comment => exact .inl rfl
  | string => exact .inr rfl
  | _ => cases h

/-! ## Turns of the loop -/

section Turns

variable {s : Parsing Unit ItemType Rule} {i j : Nat} {c : Char} {x y : List Char}

/-- A turn of the loop gets from a position to another. -/
def Turns (s : Parsing Unit ItemType Rule) (i j : Nat) : Prop :=
  ∃ c, s.text[i]? = some c ∧
    Runs s.body (parseBalancedTurn s.grammar s.text s.irsAtEnd () false i c) (.ok j)

theorem Turns.answers {until_ : PR} {start : Nat} {r : ParseResult Unit ItemType Rule}
    (h : Turns s i j) (hrefuses : s.Refuses until_ i)
    (hr : Answers s.body (.balanced until_ false start j) r) :
    Answers s.body (.balanced until_ false start i) r := by
  obtain ⟨e, he⟩ := hrefuses
  obtain ⟨c, hc, hturn⟩ := h
  refine answers_iff.mpr (runs_ask.mpr ⟨_, he, ?_⟩)
  simp only [hc, Asking.bind]
  exact runs_bind hturn (runs_ask.mpr ⟨_, hr, runs_ret.mpr rfl⟩)

/-- What looks like a raw string literal -/
def looksRaw (x : List Char) : Prop := ∃ pre ∈ [] :: encodings, pre ++ ['R', doubleQuoteChar] <+: x

theorem lookingAt_iff (h : At s.text i x) :
    (lookingAt s.text i "u8R\"" ∨ lookingAt s.text i "uR\"" ∨ lookingAt s.text i "UR\"" ∨
      lookingAt s.text i "LR\"" ∨ lookingAt s.text i "R\"") ↔ looksRaw x := by
  have hone : ∀ (pre : List Char) (str : String), str.toList = pre ++ ['R', doubleQuoteChar] →
      (lookingAt s.text i str = true ↔ pre ++ ['R', doubleQuoteChar] <+: x) := by
    intro pre str hstr
    rw [lookingAt, h.drop, List.isPrefixOf_iff_prefix, hstr]
  rw [hone ['u', '8'] _ rfl, hone ['u'] _ rfl, hone ['U'] _ rfl, hone ['L'] _ rfl, hone [] _ rfl,
    looksRaw, encodings]
  simp only [List.exists_mem_cons_iff, List.not_mem_nil, false_and, exists_false, or_false]
  tauto

/-- How it can start -/
theorem looksRaw_cons (h : looksRaw (c :: y)) : c = 'R' ∧ y.head? = some doubleQuoteChar ∨
    c ∈ ['u', 'U', 'L'] ∧ (∃ w, y = 'R' :: doubleQuoteChar :: w) ∨
    c = 'u' ∧ ∃ w, y = '8' :: 'R' :: doubleQuoteChar :: w := by
  obtain ⟨pre, hpre, w, hw⟩ := h
  rw [encodings] at hpre
  simp only [List.mem_cons, List.not_mem_nil, or_false] at hpre
  rcases hpre with rfl | rfl | rfl | rfl | rfl <;> cases hw
  · exact .inl ⟨rfl, rfl⟩
  · exact .inr (.inr ⟨rfl, w, rfl⟩)
  · exact .inr (.inl ⟨by decide, w, rfl⟩)
  · exact .inr (.inl ⟨by decide, w, rfl⟩)
  · exact .inr (.inl ⟨by decide, w, rfl⟩)

theorem not_looksRaw_of_head (hc : c ∉ ['R', 'u', 'U', 'L']) : ¬ looksRaw (c :: y) := by
  intro h
  rcases looksRaw_cons h with ⟨rfl, -⟩ | ⟨hmem, -⟩ | ⟨rfl, -⟩
  · exact hc (by decide)
  · exact hc (.tail _ hmem)
  · exact hc (by decide)

theorem turns_plain (h : At s.text i (c :: y)) (hraw : ¬ looksRaw (c :: y)) (hquote : c ≠ quote)
    (hdouble : c ≠ doubleQuoteChar) (hslash : c ≠ '/') (hopen : closer false c = none) :
    Turns s i (i + 1) := by
  refine ⟨c, getElem?_of_drop h.drop, ?_⟩
  rw [parseBalancedTurn, if_neg (mt (lookingAt_iff h).mp hraw), if_neg hquote, if_neg hdouble,
    if_neg hslash, hopen]
  exact runs_ret.mpr rfl

theorem head_of_raw {pre d : List Char} (hpre : pre ∈ [] :: encodings)
    (hx : x = pre ++ 'R' :: doubleQuoteChar :: d ++ '(' :: y) :
    ∃ c w, x = c :: w ∧ c ∈ ['R', 'u', 'U', 'L'] := by
  subst hx
  rw [encodings] at hpre
  simp only [List.mem_cons, List.not_mem_nil, or_false] at hpre
  rcases hpre with rfl | rfl | rfl | rfl | rfl <;> exact ⟨_, _, rfl, by decide⟩

theorem turns_raw (hs : s.grammar = grammar) {pre d : List Char} (hpre : pre ∈ [] :: encodings)
    (hd : IsDelimeter d) (h : At s.text i (pre ++ 'R' :: doubleQuoteChar :: d ++ '(' :: x))
    (hx : search (rawEnd d <+: ·) x = some (rawEnd d ++ y)) : ∃ j, Turns s i j ∧ At s.text j y := by
  obtain ⟨xs, j, htakes, hj⟩ := takes_rawStringLiteral hs hpre hd h hx
  have hraw : looksRaw (pre ++ 'R' :: doubleQuoteChar :: d ++ '(' :: x) :=
    ⟨pre, hpre, d ++ '(' :: x, by simp⟩
  obtain ⟨c, w, hw, -⟩ := head_of_raw hpre rfl
  refine ⟨j, ⟨c, getElem?_of_drop (h.drop.trans hw), ?_⟩, hj⟩
  rw [parseBalancedTurn, if_pos ((lookingAt_iff h).mpr hraw), hs]
  exact runs_ask.mpr ⟨_, htakes.answers, runs_ret.mpr rfl⟩

theorem turns_string (hs : s.grammar = grammar) {x' : List Char}
    (h : At s.text i (doubleQuoteChar :: x)) (hbody : Body doubleQuoteChar x x')
    (hstrings : AfterStrings x' y) : ∃ j, Turns s i j ∧ At s.text j y := by
  obtain ⟨xs, j, htakes, hj⟩ := takes_stringLiteral hs h hbody hstrings
  have hraw : ¬ looksRaw (doubleQuoteChar :: x) := not_looksRaw_of_head (by decide)
  refine ⟨j, ⟨_, getElem?_of_drop h.drop, ?_⟩, hj⟩
  rw [parseBalancedTurn, if_neg (mt (lookingAt_iff h).mp hraw), if_neg (by decide), if_pos rfl, hs]
  exact runs_ask.mpr ⟨_, htakes.answers, runs_ret.mpr rfl⟩

theorem turns_character (hs : s.grammar = grammar) (h : At s.text i (quote :: x))
    (hchar : afterChar quote x = some (quote :: y)) : ∃ j, Turns s i j ∧ At s.text j y := by
  obtain ⟨xs, j, htakes, hj⟩ := takes_charOf h.tail hchar
  have hraw : ¬ looksRaw (quote :: x) := not_looksRaw_of_head (by decide)
  have hquote : ∀ {k z}, At s.text k (quote :: z) →
      s.Takes (.oneOfChars () [quote]) k [.leaf k (k + 1)] (k + 1) :=
    fun hk => takes_oneOfChars hk.drop (.head _)
  refine ⟨j + 1, ⟨_, getElem?_of_drop h.drop, ?_⟩, hj.tail⟩
  rw [parseBalancedTurn, if_neg (mt (lookingAt_iff h).mp hraw), if_pos rfl, hs]
  exact runs_ask.mpr ⟨_, (hquote h).answers, runs_ask.mpr ⟨_, htakes.parse,
    runs_ask.mpr ⟨_, (hquote hj).answers, runs_ret.mpr rfl⟩⟩⟩

theorem skipBlanks_of_line (h : search AtNewline x = some y) :
    skipBlanks ('/' :: '/' :: x) = skipBlanks y := by
  rw [skipBlanks_line, skipFrom_line, h]
  rfl

theorem skipBlanks_of_block (h : search AtStarSlash x = some ('*' :: '/' :: y)) :
    skipBlanks ('/' :: '*' :: x) = skipBlanks y := by
  rw [skipBlanks_block, skipFrom_block, h]
  rfl

/-- From a comment that ends on, all comments and blanks are passed over. -/
theorem turns_comment (hs : s.grammar = grammar) (h : At s.text i ('/' :: x))
    (hcomment : ¬ NoComment ('/' :: x)) :
    ∃ j, Turns s i j ∧ At s.text j (skipBlanks ('/' :: x)) := by
  rcases takesAllBlank_oneComment hs i with ⟨xs, k, htakes, -, hk, hskip, -⟩ | ⟨-, hnone⟩
  · obtain ⟨ys, j, hcomments, -, hj, hskip', hself⟩ := takes_comments hs htakes hk
    refine ⟨j, ⟨_, getElem?_of_drop h.drop, ?_⟩, hj, ?_⟩
    · have hraw : ¬ looksRaw ('/' :: x) := not_looksRaw_of_head (by decide)
      rw [parseBalancedTurn, if_neg (mt (lookingAt_iff h).mp hraw), if_neg (by decide),
        if_neg (by decide), if_pos rfl, hs]
      exact runs_ask.mpr ⟨_, hcomments.answers, runs_ret.mpr rfl⟩
    · rw [← h.drop, hskip, hskip', hself]
  · exact absurd (h.drop ▸ hnone) hcomment

theorem turns_slash (hs : s.grammar = grammar) (h : At s.text i ('/' :: y))
    (hline : y.head? ≠ some '/') (hblock : y.head? ≠ some '*') : Turns s i (i + 1) := by
  have hraw : ¬ looksRaw ('/' :: y) := not_looksRaw_of_head (by decide)
  have hnot : ∀ c, y.head? ≠ some c → ¬ ['/', c] <+: s.text.drop i := by
    rintro c hc ⟨z, hz⟩
    rw [h.drop] at hz
    cases hz
    exact hc rfl
  have hone : s.Refuses oneComment i :=
    refuses_oneComment (refuses_lineComment (hnot _ hline)) (refuses_blockComment (hnot _ hblock))
  obtain ⟨e, he⟩ : s.Refuses comments i := refuses_named (refuses_anon (refuses_and hone))
  refine ⟨_, getElem?_of_drop h.drop, ?_⟩
  rw [parseBalancedTurn, if_neg (mt (lookingAt_iff h).mp hraw), if_neg (by decide),
    if_neg (by decide), if_pos rfl, hs]
  exact runs_ask.mpr ⟨_, he, runs_ret.mpr rfl⟩

/-- Between brackets there is a loop of its own. -/
theorem turns_bracket {d : Char} {v : PV ItemType} (hcd : (c, d) ∈ brackets)
    (h : At s.text i (c :: x))
    (hinner : Answers s.body (.balanced (.oneOfChars () [d]) false (i + 1) (i + 1)) (.ok v)) :
    Turns s i (v.2 + 1) := by
  have hparse : Answers s.body
      (.parse_ (.balanced () (.oneOfChars () [d]) false) (i + 1)) (.ok v) :=
    answers_iff.mpr (runs_ask.mpr ⟨_, hinner, runs_ret.mpr rfl⟩)
  have hcases : c ∉ ['R', 'u', 'U', 'L'] ∧ c ≠ quote ∧ c ≠ doubleQuoteChar ∧ c ≠ '/' ∧
      closer false c = some d := by
    rw [brackets] at hcd
    simp only [List.mem_cons, Prod.mk.injEq, List.not_mem_nil, or_false] at hcd
    rcases hcd with ⟨rfl, rfl⟩ | ⟨rfl, rfl⟩ | ⟨rfl, rfl⟩ <;> decide
  obtain ⟨hc, hquote, hdouble, hslash, hcloser⟩ := hcases
  refine ⟨c, getElem?_of_drop h.drop, ?_⟩
  rw [parseBalancedTurn, if_neg (mt (lookingAt_iff h).mp (not_looksRaw_of_head hc)),
    if_neg hquote, if_neg hdouble, if_neg hslash, hcloser]
  exact runs_ask.mpr ⟨_, hparse, runs_ret.mpr rfl⟩

end Turns

/-! ## What comes next -/

section Next

variable {traps : Bool} {b : Behind} {x y z : List Char} {ps : Places}

theorem Behind.startsToken_of_looksRaw (h : b.looksRaw = true) : b.startsToken = false := by
  cases b <;> first | rfl | cases h

theorem Behind.looksRaw_addChar (b : Behind) : (b.addChar 'R').looksRaw = true := by
  cases b <;> simp [addChar, looksRaw]

theorem Behind.startsToken_addChar (b : Behind) (c : Char) : (b.addChar c).startsToken = false := by
  cases b <;> rfl

/-- No string literal comes behind what looks like the prefix of a raw one, -/
theorem Tokens.no_quote (h : Tokens false b x z ps) (hb : b.looksRaw = true)
    (hx : x.head? = some doubleQuoteChar) : False := by
  have hstarts := Behind.startsToken_of_looksRaw hb
  cases h with
  | nil _ _ hraw => exact Bool.false_ne_true (hraw hb hx)
  | word _ hc _ =>
    cases hx
    exact absurd hc (by decide)
  | separator htraps => exact Bool.false_ne_true htraps
  | punctuator _ hc _ =>
    cases hx
    simp [isPunctuator] at hc
  | blank _ hc _ =>
    cases hx
    exact absurd hc (by decide)
  | lineComment => exact absurd (Option.some.inj hx) (by decide)
  | lastComment htraps => exact Bool.false_ne_true htraps
  | blockComment => exact absurd (Option.some.inj hx) (by decide)
  | encoding h' => exact absurd h' (by simp [hstarts])
  | u8 h' => exact absurd h' (by simp [hstarts])
  | string _ hraw => exact Bool.false_ne_true (hraw hb)
  | character => exact absurd (Option.some.inj hx) (by decide)
  | rawString h' => exact absurd h' (by simp [hstarts])
  | bracket _ hcd =>
    have hopen : ∀ p ∈ brackets, p.1 ≠ doubleQuoteChar := by decide
    exact hopen _ hcd (Option.some.inj hx)

/-- nor in the middle of a word, with its last character to come: another character of the word
comes there only as such. -/
theorem Tokens.word_inv {c : Char} (h : Tokens false b (c :: x) z ps) (hb : b.startsToken = false)
    (hc : isIdentifierContChar c = true) : ∃ ps', Tokens false (b.addChar c) x z ps' := by
  have hnot : ∀ {d : Char}, isIdentifierContChar d = false → c ≠ d := by
    rintro d hd rfl
    exact Bool.false_ne_true (hd.symm.trans hc)
  generalize heq : c :: x = x₀ at h
  cases h with
  | nil _ hend =>
    subst heq
    have hno := hend hb
    simp [hc] at hno
  | word _ _ hrest =>
    cases heq
    exact ⟨_, hrest⟩
  | separator htraps => cases htraps
  | punctuator _ hp _ =>
    cases heq
    simp [isPunctuator, hc] at hp
  | blank _ hblank _ =>
    cases heq
    have hword : ∀ d ∈ blanks, isIdentifierContChar d = false :=
      forall_mem_of_all (by decide)
    exact absurd rfl (hnot (hword c hblank))
  | lineComment => exact absurd (List.cons.inj heq).1 (hnot (by decide))
  | lastComment htraps => cases htraps
  | blockComment => exact absurd (List.cons.inj heq).1 (hnot (by decide))
  | encoding h' => exact absurd h' (by simp [hb])
  | u8 h' => exact absurd h' (by simp [hb])
  | string => exact absurd (List.cons.inj heq).1 (hnot (by decide))
  | character => exact absurd (List.cons.inj heq).1 (hnot (by decide))
  | rawString h' => exact absurd h' (by simp [hb])
  | bracket _ hcd _ _ =>
    cases heq
    have hword : ∀ p ∈ brackets, isIdentifierContChar p.1 = false := by decide
    exact absurd rfl (hnot (hword _ hcd))

theorem not_looksRaw_of_word {c : Char} (h : Tokens false (b.addChar c) x z ps) :
    ¬ looksRaw (c :: x) := by
  have hone : ∀ {b : Behind} {ps : Places} {y : List Char},
      Tokens false b ('R' :: doubleQuoteChar :: y) z ps → b.startsToken = false → False := by
    intro b ps y h hb
    obtain ⟨ps', hrest⟩ := h.word_inv hb (by decide)
    exact hrest.no_quote b.looksRaw_addChar rfl
  intro hraw
  rcases looksRaw_cons hraw with ⟨rfl, hquote⟩ | ⟨-, w, rfl⟩ | ⟨-, w, rfl⟩
  · exact h.no_quote b.looksRaw_addChar hquote
  · exact hone h (b.startsToken_addChar _)
  · obtain ⟨ps', hrest⟩ := h.word_inv (b.startsToken_addChar _) (by decide)
    exact hone hrest (Behind.startsToken_addChar _ _)

/-- What comes behind the tokens is at the end of what there is. -/
theorem Tokens.suffix (h : Tokens traps b x z ps) : z <:+ x := by
  induction h with
  | nil => exact List.suffix_rfl
  | word _ _ _ ih | separator _ _ _ _ ih | punctuator _ _ _ ih | blank _ _ _ ih
  | encoding _ _ _ _ ih => exact ih.trans (List.suffix_cons ..)
  | lineComment _ hx _ ih =>
    exact ih.trans ((search_suffix hx).trans (List.suffix_append ['/', '/'] _))
  | lastComment => exact List.nil_suffix
  | blockComment _ hx _ ih =>
    refine ih.trans ((List.suffix_append ['*', '/'] _).trans ?_)
    exact (search_suffix hx).trans (List.suffix_append ['/', '*'] _)
  | u8 _ _ _ ih => exact ih.trans (List.suffix_append ['u', '8'] _)
  | string _ _ hbody _ ih | character _ _ _ hbody _ _ ih =>
    exact ih.trans (hbody.suffix.trans (List.suffix_cons ..))
  | rawString _ _ _ hx hx' _ ih =>
    subst hx
    refine ih.trans ((List.suffix_append _ _).trans ((search_suffix hx').trans ?_))
    exact (List.suffix_cons ..).trans (List.suffix_append ..)
  | bracket _ _ _ _ ihinner ih =>
    exact ih.trans ((List.suffix_cons ..).trans (ihinner.trans (List.suffix_cons ..)))

/-- The last place is `z`, and none before it has a closing bracket. -/
def NoCloser (z : List Char) (ps : Places) : Prop :=
  ∃ before b, ps = before ++ [(kindAt b z, z)] ∧ b ≠ .encoding ∧
    ∀ q ∈ before, ∃ c y, q.2 = c :: y ∧ c ∉ [')', ']', '}']

theorem NoCloser.cons {k : Kind} {c : Char} (h : NoCloser z ps) (hc : c ∉ [')', ']', '}']) :
    NoCloser z ((k, c :: y) :: ps) := by
  obtain ⟨before, b, rfl, hb, hbefore⟩ := h
  exact ⟨(k, c :: y) :: before, b, rfl, hb, List.forall_mem_cons.mpr ⟨⟨c, y, rfl, hc⟩, hbefore⟩⟩

theorem Tokens.noCloser (h : Tokens traps b x z ps) : NoCloser z ps := by
  induction h with
  | nil hb => exact ⟨[], _, rfl, hb, nofun⟩
  | word _ hc _ ih =>
    refine ih.cons fun hmem => ?_
    have hword : ∀ d ∈ [')', ']', '}'], isIdentifierContChar d = false :=
      forall_mem_of_all (by decide)
    exact Bool.false_ne_true ((hword _ hmem).symm.trans hc)
  | separator _ _ _ _ ih => exact ih.cons (by decide)
  | punctuator _ hc _ ih =>
    refine ih.cons fun hmem => ?_
    simp only [isPunctuator, Bool.and_eq_true, decide_eq_true_eq] at hc
    have hclose : ∀ d ∈ [')', ']', '}'], d ∈ brackets.flatMap fun b => [b.1, b.2] :=
      forall_mem_of_all (by decide)
    exact hc.1.2 (hclose _ hmem)
  | blank _ hc _ ih =>
    refine ih.cons fun hmem => ?_
    have hblank : ∀ d ∈ [')', ']', '}'], d ∉ blanks :=
      forall_mem_of_all (by decide)
    exact hblank _ hmem hc
  | lineComment _ _ _ ih => exact ih.cons (by decide)
  | @lastComment b x _ _ _ =>
    have hend : NoCloser [] [(.outside, [])] := ⟨[], .other, rfl, nofun, nofun⟩
    exact hend.cons (by decide)
  | blockComment _ _ _ ih => exact ih.cons (by decide)
  | encoding _ hc _ _ ih =>
    refine ih.cons fun hmem => ?_
    have hclose : ∀ d ∈ [')', ']', '}'], [d] ∉ encodings :=
      forall_mem_of_all (by decide)
    exact hclose _ hmem hc
  | u8 _ _ _ ih => exact (ih.cons (by decide)).cons (by decide)
  | string _ _ _ _ ih => exact ih.cons (by decide)
  | character _ _ _ _ _ _ ih => exact ih.cons (by decide)
  | rawString _ hpre _ hx _ _ ih =>
    obtain ⟨c, w, rfl, hc⟩ := head_of_raw hpre hx
    refine ih.cons fun hmem => ?_
    have hstart : ∀ d ∈ [')', ']', '}'], d ∉ ['R', 'u', 'U', 'L'] :=
      forall_mem_of_all (by decide)
    exact hstart _ hmem hc
  | bracket _ hcd _ _ _ ih =>
    refine ih.cons fun hmem => ?_
    have hopen : ∀ p ∈ brackets, p.1 ∉ [')', ']', '}'] := by decide
    exact hopen _ hcd hmem

end Next

/-! ## The loop over the tokens -/

section Loop

variable (s : Parsing Unit ItemType Rule)

/-- The parser fails at a place. -/
def RefusesAt (until_ : PR) (x : List Char) : Prop := ∀ i, At s.text i x → s.Refuses until_ i

/-- What the loop comes to from a place on -/
def LoopAt (until_ : PR) (start : Nat) (x : List Char) (r : ParseResult Unit ItemType Rule) :
    Prop := ∀ i, At s.text i x → Answers s.body (.balanced until_ false start i) r

/-- The loop gets to each of the places that are not passed over, if `until_` fails before it. -/
def Reaches (b : Behind) (x : List Char) (ps : Places) : Prop :=
  ∀ (until_ : PR) (start : Nat) (r : ParseResult Unit ItemType Rule) (before after : Places)
    (p : Kind × List Char), ps = before ++ p :: after → p.1 ≠ .passed →
    (∀ q ∈ before, RefusesAt s until_ q.2) → LoopAt s until_ start p.2 r →
    ∃ y, After b x y ∧ LoopAt s until_ start y r

variable {s} {b b' : Behind} {x y : List Char} {ps : Places}

theorem Reaches.nil (b : Behind) (z : List Char) : Reaches s b z [(kindAt b z, z)] := by
  intro until_ start r before after p heq hkind _ hloop
  rcases before with _ | ⟨q, before⟩
  · cases heq
    exact ⟨z, after_of_kindAt hkind, hloop⟩
  · cases before <;> cases heq

theorem Reaches.cons (ih : Reaches s b' y ps)
    (hpassed : kindAt b x = .passed → ∀ r, After b' y r → After b x r)
    (hturns : kindAt b x ≠ .passed → ∀ i r, At s.text i x → After b' y r →
      ∃ j, Turns s i j ∧ At s.text j r) : Reaches s b x ((kindAt b x, x) :: ps) := by
  intro until_ start res before after p heq hkind hbefore hloop
  rcases before with _ | ⟨q, before⟩
  · cases heq
    exact ⟨x, after_of_kindAt hkind, hloop⟩
  · cases heq
    obtain ⟨hfails, hbefore⟩ := List.forall_mem_cons.mp hbefore
    obtain ⟨r, hafter, hr⟩ := ih until_ start res before after p rfl hkind hbefore hloop
    by_cases hx : kindAt b x = .passed
    · exact ⟨r, hpassed hx r hafter, hr⟩
    · refine ⟨x, after_of_kindAt hx, fun i hi => ?_⟩
      obtain ⟨j, hturn, hj⟩ := hturns hx i r hi hafter
      exact hturn.answers (hfails i hi) (hr j hj)

/-- Where a token is not passed over -/
theorem Reaches.token (ih : Reaches s b' y ps) (hkind : kindAt b x ≠ .passed)
    (hturns : ∀ i r, At s.text i x → After b' y r → ∃ j, Turns s i j ∧ At s.text j r) :
    Reaches s b x ((kindAt b x, x) :: ps) :=
  ih.cons (fun h => absurd h hkind) fun _ => hturns

/-- A character on its own -/
theorem Reaches.plain {c : Char} (ih : Reaches s b' y ps) (hkind : kindAt b (c :: y) ≠ .passed)
    (hafter : ∀ r, After b' y r → r = y) (hturns : ∀ i, At s.text i (c :: y) → Turns s i (i + 1)) :
    Reaches s b (c :: y) ((kindAt b (c :: y), c :: y) :: ps) := by
  refine ih.token hkind fun i r hi hr => ?_
  obtain rfl := hafter r hr
  exact ⟨i + 1, hturns i hi, hi.tail⟩

/-- What is behind a word or something blank goes on at the next place. -/
theorem Behind.after_addChar {c : Char} {r : List Char} (h : After (b.addChar c) y r) : r = y := by
  cases b <;> exact h

theorem after_addBlank {r : List Char} (hx : kindAt b x ≠ .passed) (hblank : startsBlank x = true)
    (h : After b.addBlank y r) : r = y := by
  cases b with
  | comment => exact absurd (if_pos hblank) hx
  | string => exact absurd (if_pos (by rw [hblank]; rfl)) hx
  | _ => exact h

/-- A blank, or a comment -/
theorem Reaches.passed (ih : Reaches s b' y ps) (hskip : skipBlanks x = skipBlanks y)
    (hb' : b = .comment ∨ b = .string → b' = b)
    (hturns : kindAt b x ≠ .passed → ∀ i r, At s.text i x → After b' y r →
      ∃ j, Turns s i j ∧ At s.text j r) : Reaches s b x ((kindAt b x, x) :: ps) := by
  refine ih.cons (fun hkind r hr => ?_) hturns
  have hb := behind_of_passed hkind
  rw [hb' hb] at hr
  exact after_skipBlanks hb hskip hr

/-- A comment -/
theorem Reaches.comment (hs : s.grammar = grammar) (ih : Reaches s b.addComment y ps)
    (hskip : skipBlanks ('/' :: x) = skipBlanks y) (hstarts : startsBlank ('/' :: x) = true)
    (hcomment : ¬ NoComment ('/' :: x)) :
    Reaches s b ('/' :: x) ((kindAt b ('/' :: x), '/' :: x) :: ps) := by
  refine ih.passed hskip (by rintro (rfl | rfl) <;> rfl) fun hkind i r hi hr => ?_
  have hafter : r = skipBlanks y := by
    cases b with
    | string => exact absurd (if_pos (by rw [hstarts]; rfl)) hkind
    | _ => exact hr
  rw [hafter, ← hskip]
  exact turns_comment hs hi hcomment

theorem not_looksRaw_of_quoted {c : Char} (hc : c ≠ 'R') (hy : startsQuoted y = true) :
    ¬ looksRaw (c :: y) := by
  intro h
  rcases looksRaw_cons h with ⟨rfl, -⟩ | ⟨-, w, rfl⟩ | ⟨-, w, rfl⟩
  · exact hc rfl
  · cases hy
  · cases hy

/-- What is inside of brackets -/
theorem Reaches.inner {c d : Char} {z : List Char} {i : Nat} (hcd : (c, d) ∈ brackets)
    (hi : At s.text i (c :: x)) (ih : Reaches s .other x ps) (hplaces : NoCloser (d :: z) ps)
    (hsuffix : (d :: z) <:+ x) :
    ∃ j, Turns s i j ∧ At s.text j z := by
  obtain ⟨before, b', rfl, hb', hbefore⟩ := hplaces
  have hclose : d ∈ [')', ']', '}'] ∧ startsBlank (d :: z) = false ∧ d ≠ doubleQuoteChar := by
    have hall : ∀ p ∈ brackets, p.2 ∈ [')', ']', '}'] ∧ (p.2 ∉ blanks ∧ p.2 ≠ '/') ∧
        p.2 ≠ doubleQuoteChar := by decide
    obtain ⟨hmem, ⟨hblank, hslash⟩, hquote⟩ := hall _ hcd
    exact ⟨hmem, startsBlank_of_head hblank fun h => absurd h hslash, hquote⟩
  obtain ⟨hmem, hblank, hquote⟩ := hclose
  have hkind : kindAt b' (d :: z) ≠ .passed :=
    kindAt_ne_passed b' hblank fun h => hquote (Option.some.inj h)
  have hfails : ∀ q ∈ before, RefusesAt s (.oneOfChars () [d]) q.2 := by
    intro q hq k hk
    obtain ⟨e, y, heq, he⟩ := hbefore q hq
    refine refuses_oneOfChars fun f hf hfd => he ?_
    rw [hk.head?, heq] at hf
    cases hf
    rw [List.mem_singleton.mp hfd]
    exact hmem
  obtain ⟨j, hj⟩ : ∃ j, At s.text j (d :: z) := ⟨_, hi.tail.suffix hsuffix⟩
  have hloop : LoopAt s (.oneOfChars () [d]) (i + 1) (d :: z) (.ok ([.leaf (i + 1) j], j)) := by
    intro k hk
    cases hj.eq hk
    exact answers_iff.mpr (runs_ask.mpr
      ⟨_, (takes_oneOfChars hk.drop (List.mem_singleton_self d)).answers, runs_ret.mpr rfl⟩)
  obtain ⟨r, rfl, hr⟩ := ih _ _ _ before [] _ rfl hkind hfails hloop
  exact ⟨j + 1, turns_bracket hcd hi (hr _ hi.tail), hj.tail⟩

theorem kindAt_of_head (b : Behind) {c : Char} (hblank : c ∉ blanks) (hslash : c ≠ '/')
    (hquote : c ≠ doubleQuoteChar) : kindAt b (c :: y) ≠ .passed :=
  kindAt_ne_passed b (startsBlank_of_head hblank fun h => absurd h hslash)
    fun h => hquote (Option.some.inj h)

theorem closer_of_ne {c : Char} (h : c ∉ ['{', '[', '(']) : closer false c = none := by
  simp only [List.mem_cons, List.not_mem_nil, or_false, not_or] at h
  simp [closer, h]

/-- A character of a word, where no raw string literal starts -/
theorem Reaches.word {c : Char} (ih : Reaches s (b.addChar c) y ps)
    (hc : isIdentifierContChar c = true) (hraw : ¬ looksRaw (c :: y)) :
    Reaches s b (c :: y) ((kindAt b (c :: y), c :: y) :: ps) := by
  have hnot : ∀ d, isIdentifierContChar d = false → c ≠ d := by
    rintro d hd rfl
    exact Bool.false_ne_true (hd.symm.trans hc)
  have hmem : ∀ ds : List Char, ds.all (fun d => decide (isIdentifierContChar d = false)) = true →
      c ∉ ds :=
    fun ds hds h => hnot c (forall_mem_of_all hds c h) rfl
  refine ih.plain (kindAt_of_head b (hmem _ (by decide)) (hnot _ (by decide)) (hnot _ (by decide)))
    (fun r => Behind.after_addChar) fun i hi => ?_
  exact turns_plain hi hraw (hnot _ (by decide)) (hnot _ (by decide)) (hnot _ (by decide))
    (closer_of_ne (hmem _ (by decide)))

theorem Reaches.punctuator (hs : s.grammar = grammar) {c : Char} (ih : Reaches s .other y ps)
    (hc : isPunctuator c y = true) :
    Reaches s b (c :: y) ((kindAt b (c :: y), c :: y) :: ps) := by
  simp only [isPunctuator, Bool.and_eq_true, Bool.not_eq_true', decide_eq_true_eq,
    List.mem_cons, List.not_mem_nil, or_false, not_or] at hc
  obtain ⟨⟨⟨⟨hword, hblank⟩, hquote, hdouble⟩, hbracket⟩, hslash⟩ := hc
  by_cases hc : c = '/'
  · subst hc
    simp only [decide_true, Bool.true_and, Bool.or_eq_false_iff, decide_eq_false_iff_not] at hslash
    refine ih.plain (kindAt_ne_passed b (startsBlank_of_head hblank fun _ => hslash) ?_)
      (fun r hr => hr) fun i hi => turns_slash hs hi hslash.1 hslash.2
    exact fun h => hdouble (Option.some.inj h)
  · have hraw : c ∉ ['R', 'u', 'U', 'L'] := by
      have hall : ∀ d ∈ ['R', 'u', 'U', 'L'], isIdentifierContChar d = true :=
        forall_mem_of_all (by decide)
      exact fun hmem => Bool.false_ne_true (hword.symm.trans (hall c hmem))
    have hopen : c ∉ ['{', '[', '('] := by
      have hall : ∀ d ∈ ['{', '[', '('], d ∈ brackets.flatMap fun b => [b.1, b.2] :=
        forall_mem_of_all (by decide)
      exact fun hmem => hbracket (hall c hmem)
    exact ih.plain (kindAt_of_head b hblank hc hdouble) (fun r hr => hr) fun i hi =>
      turns_plain hi (not_looksRaw_of_head hraw) hquote hdouble hc (closer_of_ne hopen)

theorem Reaches.blank {c : Char} (ih : Reaches s b.addBlank y ps) (hc : c ∈ blanks) :
    Reaches s b (c :: y) ((kindAt b (c :: y), c :: y) :: ps) := by
  have hall : ∀ d ∈ blanks, d ∉ ['R', 'u', 'U', 'L'] ∧ d ≠ quote ∧ d ≠ doubleQuoteChar ∧
      d ≠ '/' ∧ closer false d = none :=
    forall_mem_of_all (by decide)
  obtain ⟨hraw, hquote, hdouble, hslash, hopen⟩ := hall c hc
  refine ih.passed (skipBlanks_blank hc y) (by rintro (rfl | rfl) <;> rfl) fun hkind i r hi hr => ?_
  have hstarts : startsBlank (c :: y) = true := by
    rw [startsBlank]
    · exact decide_eq_true hc
    · exact fun _ h => absurd h hslash
    · exact fun _ h => absurd h hslash
  obtain rfl := after_addBlank hkind hstarts hr
  exact ⟨i + 1, turns_plain hi (not_looksRaw_of_head hraw) hquote hdouble hslash hopen, hi.tail⟩

theorem mem_encodings {c : Char} (h : [c] ∈ encodings) : c ∈ ['u', 'U', 'L'] := by
  rw [encodings] at h
  simpa using h

/-- The prefix of a literal -/
theorem Reaches.encoding {c : Char} (ih : Reaches s .encoding y ps) (hc : [c] ∈ encodings)
    (hy : startsQuoted y = true) : Reaches s b (c :: y) ((kindAt b (c :: y), c :: y) :: ps) := by
  have hall : ∀ d ∈ ['u', 'U', 'L'], d ∉ blanks ∧ d ≠ '/' ∧ d ≠ 'R' ∧ d ≠ quote ∧
      d ≠ doubleQuoteChar ∧ closer false d = none :=
    forall_mem_of_all (by decide)
  obtain ⟨hblank, hslash, hr, hquote, hdouble, hopen⟩ := hall c (mem_encodings hc)
  exact ih.plain (kindAt_of_head b hblank hslash hdouble) (fun r hr => hr) fun i hi =>
    turns_plain hi (not_looksRaw_of_quoted hr hy) hquote hdouble hslash hopen

theorem Reaches.u8 (ih : Reaches s .encoding y ps) (hy : startsQuoted y = true) :
    Reaches s b ('u' :: '8' :: y)
      ((kindAt b ('u' :: '8' :: y), 'u' :: '8' :: y) :: (.inside, '8' :: y) :: ps) := by
  have hinside : Reaches s .encoding ('8' :: y) ((.inside, '8' :: y) :: ps) :=
    ih.plain (b := .encoding) nofun (fun r hr => hr) fun i hi => turns_plain hi
      (not_looksRaw_of_head (by decide)) (by decide) (by decide) (by decide) (by decide)
  refine hinside.plain (kindAt_of_head b (by decide) (by decide) (by decide)) (fun r hr => hr)
    fun i hi => turns_plain hi ?_ (by decide) (by decide) (by decide) (by decide)
  intro h
  rcases looksRaw_cons h with ⟨hr, -⟩ | ⟨-, w, hw⟩ | ⟨-, w, hw⟩
  · cases hr
  · cases hw
  · cases hw
    cases hy

theorem Reaches.string (hs : s.grammar = grammar) (ih : Reaches s .string y ps)
    (hbody : Body doubleQuoteChar x y) : Reaches s b (doubleQuoteChar :: x)
      ((kindAt b (doubleQuoteChar :: x), doubleQuoteChar :: x) :: ps) := by
  have hblank : startsBlank (doubleQuoteChar :: x) = false :=
    startsBlank_of_head (by decide) fun h => absurd h (by decide)
  refine ih.cons (fun hpassed r hr => ?_) fun _ i r hi hr => turns_string hs hi hbody hr
  rcases behind_of_passed hpassed with rfl | rfl
  · rw [kindAt, hblank] at hpassed
    cases hpassed
  · exact .more (skipBlanks_of_not hblank) hbody hr

theorem Reaches.rawString (hs : s.grammar = grammar) {pre d x' : List Char}
    (ih : Reaches s .other y ps) (hpre : pre ∈ [] :: encodings) (hd : IsDelimeter d)
    (hx : x = pre ++ 'R' :: doubleQuoteChar :: d ++ '(' :: x')
    (hx' : search (rawEnd d <+: ·) x' = some (rawEnd d ++ y)) :
    Reaches s b x ((kindAt b x, x) :: ps) := by
  have hkind : kindAt b x ≠ .passed := by
    have hall : ∀ e ∈ ['R', 'u', 'U', 'L'], e ∉ blanks ∧ e ≠ '/' ∧ e ≠ doubleQuoteChar :=
      forall_mem_of_all (by decide)
    obtain ⟨c, w, rfl, hc⟩ := head_of_raw hpre hx
    exact kindAt_of_head b (hall c hc).1 (hall c hc).2.1 (hall c hc).2.2
  refine ih.token hkind fun i r hi hr => ?_
  obtain rfl := hr
  exact turns_raw hs hpre hd (hx ▸ hi) hx'

/-- The loop gets to the places of the tokens, if there are no traps. -/
theorem Tokens.reaches (hs : s.grammar = grammar) {z : List Char}
    (h : Tokens false b x z ps) : Reaches s b x ps := by
  induction h with
  | nil => exact .nil _ _
  | word _ hc hrest ih => exact ih.word hc (not_looksRaw_of_word hrest)
  | separator htraps => cases htraps
  | punctuator _ hc _ ih => exact ih.punctuator hs hc
  | blank _ hc _ ih => exact ih.blank hc
  | lineComment _ hx _ ih =>
    refine ih.comment hs (skipBlanks_of_line hx) (by rw [startsBlank, hx]; rfl) fun h => ?_
    have hnone := h.1 _ rfl
    rw [skipFrom_line, hx] at hnone
    cases hnone
  | lastComment htraps => cases htraps
  | blockComment _ hx _ ih =>
    refine ih.comment hs (skipBlanks_of_block hx) (by rw [startsBlank, hx]; rfl) fun h => ?_
    have hnone := h.2 _ rfl
    rw [skipFrom_block, hx] at hnone
    cases hnone
  | encoding _ hc hy _ ih => exact ih.encoding hc hy
  | u8 _ hy _ ih => exact ih.u8 hy
  | string _ _ hbody _ ih => exact ih.string hs hbody
  | character _ _ _ _ hone _ ih =>
    refine ih.token (kindAt_of_head _ (by decide) (by decide) (by decide)) fun i r hi hr => ?_
    obtain rfl := hr
    exact turns_character hs hi (hone.resolve_right Bool.false_ne_true)
  | rawString _ hpre hd hx hx' _ ih => exact ih.rawString hs hpre hd hx hx'
  | bracket _ hcd hinner _ ihinner ih =>
    have hall : ∀ p ∈ brackets, p.1 ∉ blanks ∧ p.1 ≠ '/' ∧ p.1 ≠ doubleQuoteChar := by decide
    obtain ⟨hblank, hslash, hdouble⟩ := hall _ hcd
    refine ih.token (kindAt_of_head _ hblank hslash hdouble) fun i r hi hr => ?_
    obtain rfl := hr
    exact ihinner.inner hcd hi hinner.noCloser hinner.suffix

end Loop

/-! ## Where it stops -/

section Main

variable {text : List Char} {until_ : PR} {i : Nat} {z : List Char} {ps : Places}

theorem Fails.refusesAt {q : List Char} (h : Fails text until_ q) :
    RefusesAt (parsing text false) until_ q := by
  intro k hk
  obtain ⟨e, he⟩ := h
  obtain rfl := hk.eq (hk.suffix List.suffix_rfl)
  rw [AtPlace, ← body_parsing] at he
  exact ⟨e, he⟩

/-- What the loop comes to at a place, the parser does. -/
theorem Tokens.answers (h : Tokens false .other (text.drop i) z ps) (hi : i ≤ text.length)
    {before after : Places} {p : List Char} {r : ParseResult Unit ItemType Rule}
    (hps : ps = before ++ (.outside, p) :: after) (hbefore : ∀ q ∈ before, Fails text until_ q.2)
    (hloop : LoopAt (parsing text false) until_ i p r) :
    Answers (body grammar text false) (.parse_ (balanced until_) i) r := by
  obtain ⟨x, rfl, hx⟩ := h.reaches (s := parsing text false) rfl until_ i r before after _ hps
    nofun (fun q hq => (hbefore q hq).refusesAt) hloop
  rw [← body_parsing]
  exact answers_iff.mpr (runs_ask.mpr ⟨_, hx i ⟨hi, rfl⟩, runs_ret.mpr rfl⟩)

theorem FailsElsewhere.all {l qs after : Places} (h : FailsElsewhere text until_ ps)
    (hps : ps = l ++ (qs ++ after)) (hl : ∀ q ∈ l, Fails text until_ q.2)
    (hout : ∀ q ∈ qs, q.1 = .outside → Fails text until_ q.2) :
    ∀ q ∈ qs, Fails text until_ q.2 := by
  induction qs generalizing l with
  | nil => exact nofun
  | cons p qs ih =>
    obtain ⟨houtp, hout⟩ := List.forall_mem_cons.mp hout
    have hp : Fails text until_ p.2 := by
      by_cases hkind : p.1 = .outside
      · exact houtp hkind
      · exact h l p (qs ++ after) hps hl hkind
    have hl' : ∀ q ∈ l ++ [p], Fails text until_ q.2 := by
      intro q hq
      rcases List.mem_append.mp hq with hq | hq
      · exact hl q hq
      · rwa [List.mem_singleton.mp hq]
    exact List.forall_mem_cons.mpr ⟨hp, ih (by simp [hps]) hl' hout⟩

/-- Without traps, the parser stops at the first place where `until_` matches outside of all
brackets, literals and comments, if it matches neither where the parser passes over something nor
behind the prefix of a literal. -/
theorem balanced_stops_at_first (hi : i ≤ text.length)
    (h : Tokens false .other (text.drop i) z ps) (helsewhere : FailsElsewhere text until_ ps) :
    StopsAtFirst text until_ i z ps := by
  have hmem : ∀ {qs : Places} {q : Kind × List Char}, q ∈ qs → q.1 = .outside →
      q.2 ∈ outsides qs := by
    intro qs q hq hkind
    exact List.mem_map_of_mem (List.mem_filter.mpr ⟨hq, by rw [hkind]; rfl⟩)
  refine ⟨fun before p after heq hbefore hmatch => ?_, fun hz hall => ?_⟩
  · obtain ⟨l₁, l₂, hfilter, rfl, hl₂⟩ := List.map_eq_append_iff.mp heq
    obtain ⟨⟨k, p'⟩, l₃, rfl, rfl, rfl⟩ := List.map_eq_cons_iff.mp hl₂
    obtain ⟨qs, rest, rfl, rfl, hrest⟩ := List.filter_eq_append_iff.mp hfilter
    obtain ⟨ins, after, rfl, hins, hk, rfl⟩ := List.filter_eq_cons_iff.mp hrest
    have hps : qs ++ (ins ++ (k, p') :: after) = (qs ++ ins) ++ (k, p') :: after :=
      (List.append_assoc ..).symm
    have hfails : ∀ q ∈ qs ++ ins, Fails text until_ q.2 := by
      refine helsewhere.all (l := []) hps nofun fun q hq hkind => ?_
      rcases List.mem_append.mp hq with hq | hq
      · exact hbefore q.2 (hmem hq hkind)
      · exact absurd (decide_eq_true (hkind ▸ nofun : q.1 ≠ .inside)) (hins q hq)
    obtain ⟨v, hv⟩ := hmatch
    have hkind : k = .outside := by
      by_contra hne
      obtain ⟨e, he⟩ := helsewhere _ _ _ hps hfails hne
      cases hv.unique he
    subst hkind
    refine h.answers hi hps hfails fun j hj => ?_
    obtain rfl := hj.eq (hj.suffix List.suffix_rfl)
    rw [AtPlace, ← body_parsing] at hv
    exact answers_iff.mpr (runs_ask.mpr ⟨_, hv, runs_ret.mpr rfl⟩)
  · obtain ⟨before, b, rfl, hb, -⟩ := h.noCloser
    have hall := helsewhere.all (l := []) (List.append_nil _).symm nofun
      fun q hq hkind => hall q.2 (hmem hq hkind)
    have hlast : kindAt b z = .outside := by
      subst hz
      cases b <;> first | rfl | exact absurd rfl hb
    rw [hlast] at h hall
    refine ⟨{ cause := .endOfInput, position := text.length, atEnd := true },
      h.answers hi rfl (fun q hq => hall q (List.mem_append_left _ hq)) fun j hj => ?_, rfl⟩
    obtain ⟨e, he⟩ := (hall (.outside, z) (by simp)).refusesAt j hj
    obtain rfl : j = text.length :=
      Nat.le_antisymm hj.le (List.drop_eq_nil_iff.mp (hj.drop.trans hz))
    have hend : text[text.length]? = none := List.getElem?_eq_none le_rfl
    refine answers_iff.mpr (runs_ask.mpr ⟨_, he, ?_⟩)
    simp only [Asking.bind, show (parsing text false).text = text from rfl, hend]
    exact runs_ret.mpr rfl

/-- A bracket with a string literal, in which there is its closing one -/
theorem balanced_stops_at_first_string : StopsAtFirst "(\")\");".toList (parseOneOfChars [';']) 0
    [';'] [(.outside, "(\")\");".toList), (.outside, [';'])] := by
  have hinner : Tokens false .other "\")\");".toList [')', ';']
      [(.outside, "\")\");".toList), (.outside, [')', ';'])] :=
    .string (by decide) (by decide) (.char rfl (.close _)) (.nil nofun (by decide) (by decide))
  have htokens : Tokens false .other ("(\")\");".toList.drop 0) [';']
      [(.outside, "(\")\");".toList), (.outside, [';'])] :=
    .bracket nofun (by decide) hinner (.nil nofun (by decide) (by decide))
  refine balanced_stops_at_first (by decide) htokens fun before p after heq _ hne => ?_
  have hp : p ∈ [(Kind.outside, "(\")\");".toList), (Kind.outside, [';'])] := heq ▸ by simp
  simp only [List.mem_cons, List.not_mem_nil, or_false] at hp
  rcases hp with rfl | rfl <;> exact absurd rfl hne

/-- The quote that separates the digits of a number is taken for that of a character literal. -/
theorem not_balanced_stops_at_first : ¬ ∀ (text : List Char) (until_ : PR) (i : Nat)
    (z : List Char) (ps : Places), i ≤ text.length → Tokens true .other (text.drop i) z ps →
      StopsAtFirst text until_ i z ps := by
  intro h
  have htokens : Tokens true .other ("1'0;".toList.drop 0) [';'] [(.outside, "1'0;".toList),
      (.outside, "'0;".toList), (.outside, "0;".toList), (.outside, [';'])] :=
    .word nofun (by decide) (.separator rfl (by decide) (by decide)
      (.word nofun (by decide) (.nil nofun (by decide) (by decide))))
  obtain ⟨hstops, -⟩ := h _ (parseOneOfChars [';']) 0 _ _ (Nat.zero_le _) htokens
  have hanswers := hstops ["1'0;".toList, "'0;".toList, "0;".toList] [';'] [] rfl ?_
    ⟨_, 1, rfl⟩
  · have hrun : (eval (body grammar "1'0;".toList false) 10
        (.parse_ (balanced (parseOneOfChars [';'])) 0)).any (fun r => !r.isOk) = true := by
      decide +kernel
    obtain ⟨r, hr, herror⟩ := (Option.any_eq_true ..).mp hrun
    cases hanswers.unique ⟨10, hr⟩
    cases herror
  · intro q hq
    simp only [List.mem_cons, List.not_mem_nil, or_false] at hq
    rcases hq with rfl | rfl | rfl <;> exact ⟨_, 1, rfl⟩

end Main

end Urnest.Hcp.Cpp
