import Urnest.Hcp.Directive

/-!
# Literals

The characters of a string or character literal are read one by one, an escape sequence as one: an
octal one takes three digits at most, a hexadecimal one all there are. `Body` says where the literal
is closed then. Behind a string literal the parser takes what is blank, and the string literals
behind it (`AfterStrings`).
-/

namespace Urnest.Hcp.Cpp

open Lib Lib.Asking Parsing

/-! ## Places in a text -/

/-- What comes at a position -/
structure At (text : List Char) (i : Nat) (x : List Char) : Prop where
  le : i ≤ text.length
  drop : text.drop i = x

section At

variable {text x y : List Char} {i j : Nat}

theorem At.append (h : At text i (x ++ y)) : At text (i + x.length) y := by
  refine ⟨?_, drop_of_drop h.drop⟩
  have hlength := congrArg List.length h.drop
  have hle := h.le
  rw [List.length_drop, List.length_append] at hlength
  omega

theorem At.tail {c : Char} (h : At text i (c :: x)) : At text (i + 1) x :=
  At.append (x := [c]) h

theorem At.eq (h : At text i x) (h' : At text j x) : i = j := by
  have hlength := congrArg List.length (h.drop.trans h'.drop.symm)
  have hle := h.le
  have hle' := h'.le
  rw [List.length_drop, List.length_drop] at hlength
  omega

/-- The end of what comes comes where it starts. -/
theorem At.suffix (h : At text i x) (hy : y <:+ x) : At text (text.length - y.length) y := by
  obtain ⟨w, rfl⟩ := hy
  have hj := h.append
  have hlength := congrArg List.length hj.drop
  have hle := hj.le
  rw [List.length_drop] at hlength
  rwa [show text.length - y.length = i + w.length by omega]

theorem At.head? (h : At text i x) : (text.drop i).head? = x.head? := congrArg _ h.drop

theorem At.of_drop_cons {c : Char} (h : text.drop i = c :: x) : At text i (c :: x) := by
  refine ⟨Nat.le_of_not_lt fun hlt => ?_, h⟩
  rw [List.drop_eq_nil_iff.mpr hlt.le] at h
  cases h

end At

/-! ## Escape sequences -/

def isOctal (c : Char) : Bool := '0' ≤ c && c ≤ '7'

def isHex (c : Char) : Bool :=
  ('0' ≤ c && c ≤ '9') || ('a' ≤ c && c ≤ 'f') || ('A' ≤ c && c ≤ 'F')

/-- What is behind a backslash alone -/
def simpleEscapes : List Char := quote :: doubleQuoteChar :: '?' :: backslash :: "abfnrtvuU".toList

/-- What comes behind the octal digits, so many at most. -/
def afterOctals : Nat → List Char → List Char
  | n + 1, c :: x => if isOctal c then afterOctals n x else c :: x
  | _, x => x

/-- What comes behind an escape sequence -/
def afterEscape : List Char → Option (List Char)
  | c :: x =>
    if c ∈ simpleEscapes then some x
    else if isOctal c then some (afterOctals 2 x)
    else if c = 'x' then if x.head?.any isHex then some (x.dropWhile isHex) else none
    else none
  | [] => none

/-- What comes behind a character of a literal -/
def afterChar (close : Char) : List Char → Option (List Char)
  | c :: x =>
    if c = backslash then afterEscape x
    else if c = close ∨ c = '\n' then none
    else some x
  | [] => none

/-- The rest of a literal, and what comes behind the quote that closes it -/
inductive Body (close : Char) : List Char → List Char → Prop where
  | close (y : List Char) : Body close (close :: y) y
  | char {x x' y : List Char} : afterChar close x = some x' → Body close x' y → Body close x y

/-! What comes behind is at the end of what there is. -/

section Suffix

variable {x y : List Char}

theorem afterOctals_suffix (n : Nat) (x : List Char) : afterOctals n x <:+ x := by
  induction n, x using afterOctals.induct with
  | case1 n c x h ih =>
    rw [afterOctals, if_pos h]
    exact ih.trans (List.suffix_cons c x)
  | case2 n c x h => exact ⟨[], if_neg h⟩
  | case3 n x hx => exact ⟨[], afterOctals.eq_2 n x hx⟩

theorem afterEscape_suffix (h : afterEscape x = some y) : y <:+ x := by
  rcases x with _ | ⟨c, x⟩
  · cases h
  rw [afterEscape] at h
  split_ifs at h <;> cases h
  · exact List.suffix_cons ..
  · exact (afterOctals_suffix ..).trans (List.suffix_cons ..)
  · exact (List.dropWhile_suffix _).trans (List.suffix_cons ..)

theorem Body.suffix {close : Char} (h : Body close x y) : y <:+ x := by
  induction h with
  | close y => exact List.suffix_cons close y
  | @char x x' y hchar _ ih =>
    refine ih.trans ?_
    rcases x with _ | ⟨c, x⟩
    · cases hchar
    rw [afterChar] at hchar
    split_ifs at hchar
    · exact (afterEscape_suffix hchar).trans (List.suffix_cons c x)
    · cases hchar
      exact List.suffix_cons ..

theorem search_suffix {p : List Char → Prop} [DecidablePred p] (h : search p x = some y) :
    y <:+ x := by
  induction x with
  | nil =>
    rw [search] at h
    split_ifs at h
    cases h
    exact List.suffix_rfl
  | cons c x ih =>
    rw [search] at h
    split_ifs at h
    · cases h
      exact List.suffix_rfl
    · exact (ih h).trans (List.suffix_cons c x)

end Suffix

variable {s : Parsing Unit ItemType Rule} {i j : Nat} {x y : List Char}

theorem takes_octalDigit {c : Char} (h : At s.text i (c :: x)) (hc : isOctal c = true) :
    s.Takes octalDigit i [.leaf i (i + 1)] (i + 1) := by
  rw [isOctal, Bool.and_eq_true, decide_eq_true_eq, decide_eq_true_eq] at hc
  exact takes_charInRange h.drop hc.1 hc.2

theorem refuses_octalDigit (h : At s.text i x) (hc : ∀ c ∈ x.head?, isOctal c = false) :
    s.Refuses octalDigit i := by
  refine refuses_charInRange fun c hmem => ?_
  have hnot := hc c (h.head? ▸ hmem)
  rw [isOctal, Bool.and_eq_false_iff, decide_eq_false_iff_not, decide_eq_false_iff_not] at hnot
  exact hnot.imp Char.not_le.mp Char.not_le.mp

theorem takes_hexDigit {c : Char} (h : At s.text i (c :: x)) (hc : isHex c = true) :
    ∃ xs, s.Takes hexDigit i xs (i + 1) := by
  rw [isHex, Bool.or_eq_true, Bool.or_eq_true] at hc
  simp only [Bool.and_eq_true, decide_eq_true_eq] at hc
  by_cases hdigit : '0' ≤ c ∧ c ≤ '9'
  · exact ⟨_, takes_or_first (takes_charInRange h.drop hdigit.1 hdigit.2)⟩
  have hrefuses : ∀ {min max : Char}, ¬ (min ≤ c ∧ c ≤ max) →
      s.Refuses (charInRange min max) i := by
    intro min max hnot
    refine refuses_charInRange fun d hd => ?_
    rw [h.head?] at hd
    cases hd
    rw [← Char.not_le, ← Char.not_le]
    exact not_and_or.mp hnot
  by_cases hlower : 'a' ≤ c ∧ c ≤ 'f'
  · exact ⟨_, takes_or_second (hrefuses hdigit) (takes_charInRange h.drop hlower.1 hlower.2)⟩
  · obtain ⟨hmin, hmax⟩ := (hc.resolve_left fun h => h.elim hdigit hlower)
    refine ⟨_, takes_or [charInRange 'a' 'f'] (hrefuses hdigit) ?_
      (takes_charInRange h.drop hmin hmax)⟩
    exact List.forall_mem_cons.mpr ⟨hrefuses hlower, nofun⟩

theorem refuses_hexDigit (h : At s.text i x) (hc : ∀ c ∈ x.head?, isHex c = false) :
    s.Refuses hexDigit i := by
  have hall : ∀ min max : Char, (∀ c, isHex c = false → ¬ (min ≤ c ∧ c ≤ max)) →
      s.Refuses (charInRange min max) i := by
    intro min max hnot
    refine refuses_charInRange fun c hmem => ?_
    rw [← Char.not_le, ← Char.not_le]
    exact not_and_or.mp (hnot c (hc c (h.head? ▸ hmem)))
  simp only [isHex, Bool.or_eq_false_iff, Bool.and_eq_false_iff, decide_eq_false_iff_not] at hall
  refine refuses_or (List.forall_mem_cons.mpr ⟨hall _ _ ?_, List.forall_mem_cons.mpr
    ⟨hall _ _ ?_, List.forall_mem_cons.mpr ⟨hall _ _ ?_, nofun⟩⟩⟩)
  · rintro c ⟨⟨h, -⟩, -⟩ ⟨hmin, hmax⟩
    exact h.elim (absurd hmin) (absurd hmax)
  · rintro c ⟨⟨-, h⟩, -⟩ ⟨hmin, hmax⟩
    exact h.elim (absurd hmin) (absurd hmax)
  · rintro c ⟨-, h⟩ ⟨hmin, hmax⟩
    exact h.elim (absurd hmin) (absurd hmax)

/-- All the hexadecimal digits -/
theorem repeats_hexDigit (h : At s.text i x) : ∃ xs j,
    Repeats (s.Takes hexDigit) (s.Refuses hexDigit) i xs j ∧ At s.text j (x.dropWhile isHex) := by
  induction x generalizing i with
  | nil => exact ⟨[], i, .stop (refuses_hexDigit h nofun), h⟩
  | cons c x ih =>
    rcases hc : isHex c with _ | _
    · rw [List.dropWhile_cons_of_neg (by simp [hc])]
      refine ⟨[], i, .stop (refuses_hexDigit h fun d hd => ?_), h⟩
      cases hd
      exact hc
    · rw [List.dropWhile_cons_of_pos hc]
      obtain ⟨xs, hone⟩ := takes_hexDigit h hc
      obtain ⟨ys, j, hmore, hj⟩ := ih h.tail
      exact ⟨xs ++ ys, j, .turn hone hmore, hj⟩

/-- The alternatives of an octal escape sequence, among others -/
def octals (first : PR) (rest : List PR) : PR :=
  .or () first ((octalDigit + octalDigit + octalDigit) :: (octalDigit + octalDigit) ::
    octalDigit :: rest)

/-- Octal digits, three at most: the longest of the alternatives is tried first. -/
theorem takes_octals {c : Char} (h : At s.text i (c :: x)) (hc : isOctal c = true)
    {first : PR} {rest : List PR} (hfirst : s.Refuses first i) :
    ∃ xs j, s.Takes (octals first rest) i xs j ∧ At s.text j (afterOctals 2 x) := by
  have hone := takes_octalDigit h hc
  have hshort : (∀ d ∈ x.head?, isOctal d = false) →
      ∃ xs j, s.Takes (octals first rest) i xs j ∧ At s.text j x := by
    intro hx
    have hsecond := refuses_octalDigit h.tail hx
    refine ⟨_, _, takes_or [octalDigit + octalDigit + octalDigit, octalDigit + octalDigit] hfirst ?_
      hone, h.tail⟩
    exact List.forall_mem_cons.mpr ⟨refuses_and_second hone hsecond,
      List.forall_mem_cons.mpr ⟨refuses_and_second hone hsecond, nofun⟩⟩
  rcases x with _ | ⟨d, x⟩
  · exact hshort nofun
  rcases hd : isOctal d with _ | _
  · rw [afterOctals, if_neg (by simp [hd])]
    refine hshort fun d' hd' => ?_
    cases hd'
    exact hd
  rw [afterOctals, if_pos hd]
  have htwo := takes_octalDigit h.tail hd
  have htwoOnly : (∀ e ∈ x.head?, isOctal e = false) →
      ∃ xs j, s.Takes (octals first rest) i xs j ∧ At s.text j x := by
    intro hx
    have hthird := refuses_octalDigit h.tail.tail hx
    obtain ⟨e, he⟩ := (TakesAll.cons hone htwo.all).runs_refused hthird [] []
    refine ⟨_, _, takes_or [octalDigit + octalDigit + octalDigit] hfirst ?_
      (takes_and (.cons hone htwo.all)), h.tail.tail⟩
    exact List.forall_mem_cons.mpr ⟨.of_runs he, nofun⟩
  rcases x with _ | ⟨e, x⟩
  · exact htwoOnly nofun
  rcases he : isOctal e with _ | _
  · rw [afterOctals, if_neg (by simp [he])]
    refine htwoOnly fun e' he' => ?_
    cases he'
    exact he
  rw [afterOctals, if_pos he, afterOctals]
  · exact ⟨_, _, takes_or_second hfirst
      (takes_and (.cons hone (.cons htwo (takes_octalDigit h.tail.tail he).all))), h.tail.tail.tail⟩
  · intro n c x hn
    cases hn

/-! ## Characters -/

/-- `c_char` and `s_char` -/
def charOf (close : Char) : PR :=
  parseAnyCharExcept [backslash, close, '\n'] ||| stringEscapeSequence

theorem takes_escape (h : At s.text i (backslash :: x)) (hx : afterEscape x = some y) :
    ∃ xs j, s.Takes stringEscapeSequence i xs j ∧ At s.text j y := by
  have hslash : s.Takes (parseLiteral (String.ofList [backslash])) i [.leaf i (i + 1)] (i + 1) :=
    takes_literal (x := String.ofList [backslash]) h.drop
  suffices hbehind : ∃ xs j, s.Takes (parseOneOfChars simpleEscapes |||
      (octalDigit + octalDigit + octalDigit) ||| (octalDigit + octalDigit) ||| octalDigit |||
      (parseLiteral "x" + atLeastOne hexDigit)) (i + 1) xs j ∧ At s.text j y by
    obtain ⟨xs, j, htakes, hj⟩ := hbehind
    exact ⟨_, j, takes_and (.cons hslash htakes.all), hj⟩
  rcases x with _ | ⟨c, x⟩
  · cases hx
  have hc := h.tail
  rw [afterEscape] at hx
  split_ifs at hx with hsimple hoctal hhex hdigits
  · cases hx
    exact ⟨_, _, takes_or_first (takes_oneOfChars hc.drop hsimple), hc.tail⟩
  · cases hx
    refine takes_octals hc hoctal (refuses_oneOfChars fun d hd => ?_)
    rw [hc.head?] at hd
    cases hd
    exact hsimple
  · cases hx
    subst hhex
    obtain ⟨d, hd, hisHex⟩ := (Option.any_eq_true ..).mp hdigits
    obtain ⟨x', rfl⟩ : ∃ x', x = d :: x' := by
      rcases x with _ | ⟨e, x'⟩ <;> cases hd
      exact ⟨x', rfl⟩
    obtain ⟨xs, hone⟩ := takes_hexDigit hc.tail hisHex
    obtain ⟨ys, j, hmore, hj⟩ := repeats_hexDigit hc.tail.tail
    have hx : s.Takes (parseLiteral "x") (i + 1) [.leaf (i + 1) (i + 1 + 1)] (i + 1 + 1) :=
      takes_literal (x := "x") hc.drop
    have hdigit := refuses_octalDigit hc fun c hc => by cases hc; decide
    refine ⟨_, j, takes_or [octalDigit + octalDigit + octalDigit, octalDigit + octalDigit,
      octalDigit] (refuses_oneOfChars fun c hmem => ?_) ?_ (takes_and (.cons hx
        (takes_anon (takes_and (.cons hone (takes_zeroOrMore hmore).all))).all)), ?_⟩
    · rw [hc.head?] at hmem
      cases hmem
      exact hsimple
    · exact List.forall_mem_cons.mpr ⟨refuses_and hdigit, List.forall_mem_cons.mpr
        ⟨refuses_and hdigit, List.forall_mem_cons.mpr ⟨hdigit, nofun⟩⟩⟩
    · rwa [List.dropWhile_cons_of_pos hisHex]

theorem takes_charOf {close : Char} (h : At s.text i x) (hx : afterChar close x = some y) :
    ∃ xs j, s.Takes (charOf close) i xs j ∧ At s.text j y := by
  rcases x with _ | ⟨c, x⟩
  · cases hx
  rw [afterChar] at hx
  split_ifs at hx with hslash hclose
  · subst hslash
    obtain ⟨xs, j, htakes, hj⟩ := takes_escape h hx
    refine ⟨xs, j, takes_or_second (refuses_anyCharExcept fun c hc => ?_) htakes, hj⟩
    rw [h.head?] at hc
    cases hc
    exact .head _
  · cases hx
    rw [not_or] at hclose
    refine ⟨_, _, takes_or_first (takes_anyCharExcept h.drop ?_), h.tail⟩
    simp only [List.mem_cons, List.not_mem_nil, or_false, not_or]
    exact ⟨hslash, hclose⟩

/-! ## String literals -/

theorem takes_doubleQuote (h : At s.text i (doubleQuoteChar :: x)) :
    s.Takes doubleQuote i [.leaf i (i + 1)] (i + 1) := takes_oneOfChars h.drop (.head _)

theorem refuses_doubleQuote (h : At s.text i x) (hx : x.head? ≠ some doubleQuoteChar) :
    s.Refuses doubleQuote i := by
  refine refuses_oneOfChars fun c hc hmem => hx ?_
  rw [← h.head?, ← List.mem_singleton.mp hmem]
  exact hc

theorem repeats_s_char (hbody : Body doubleQuoteChar x y) (h : At s.text i x) : ∃ xs j,
    Repeats (UntilTurn s s_char doubleQuote) (fun i => ∃ ys k, s.Takes doubleQuote i ys k) i xs j ∧
      At s.text j (doubleQuoteChar :: y) := by
  induction hbody generalizing i with
  | close y => exact ⟨[], i, .stop ⟨_, _, takes_doubleQuote h⟩, h⟩
  | @char x x' y hchar _ ih =>
    obtain ⟨xs, k, htakes, hk⟩ := takes_charOf h hchar
    obtain ⟨ys, j, hmore, hj⟩ := ih hk
    have hrefuses : s.Refuses doubleQuote i := by
      refine refuses_doubleQuote h fun hquote => ?_
      rcases x with _ | ⟨c, x⟩ <;> cases hquote
      cases hchar
    exact ⟨xs ++ ys, j, .turn ⟨hrefuses, htakes⟩ hmore, hj⟩

/-- What comes behind a string literal, the blanks behind it and the string literals there -/
inductive AfterStrings : List Char → List Char → Prop where
  | stop {y : List Char} : (skipBlanks y).head? ≠ some doubleQuoteChar →
    AfterStrings y (skipBlanks y)
  | more {y x y' z : List Char} : skipBlanks y = doubleQuoteChar :: x →
    Body doubleQuoteChar x y' → AfterStrings y' z → AfterStrings y z

/-- One of the string literals in a row -/
def oneString : PR := doubleQuote + s_chars + doubleQuote + eatWhite

theorem takes_eatWhite_at (hs : s.grammar = grammar) (h : At s.text i x) :
    ∃ xs j, s.Takes eatWhite i xs j ∧ At s.text j (skipBlanks x) := by
  obtain ⟨xs, j, htakes, hle, hj⟩ := takes_eatWhite hs h.le
  exact ⟨xs, j, htakes, hle, h.drop ▸ hj⟩

theorem takesAll_oneString (hs : s.grammar = grammar) (h : At s.text i (doubleQuoteChar :: x))
    (hbody : Body doubleQuoteChar x y) : ∃ xs j,
      s.TakesAll [doubleQuote, s_chars, doubleQuote, eatWhite] i xs j ∧
        At s.text j (skipBlanks y) := by
  obtain ⟨xs, k, hchars, hk⟩ := repeats_s_char hbody h.tail
  obtain ⟨ys, j, hwhite, hj⟩ := takes_eatWhite_at hs hk.tail
  have hs_chars : s.Takes s_chars (i + 1) [Item.composite .S_Chars (i + 1) xs] k :=
    takes_named (fun _ _ => by rw [hs]; rfl) (takes_specificUntil hchars)
  exact ⟨_, j, .cons (takes_doubleQuote h) (.cons hs_chars
    (.cons (takes_doubleQuote hk) hwhite.all)), hj⟩

theorem repeats_oneString (hs : s.grammar = grammar) (hstrings : AfterStrings x y)
    (h : At s.text i (skipBlanks x)) : ∃ xs j,
      Repeats (s.Takes oneString) (s.Refuses oneString) i xs j ∧ At s.text j y := by
  induction hstrings generalizing i with
  | stop hstop => exact ⟨[], i, .stop (refuses_and (refuses_doubleQuote h hstop)), h⟩
  | more hskip hbody _ ih =>
    rw [hskip] at h
    obtain ⟨xs, k, hone, hk⟩ := takesAll_oneString hs h hbody
    obtain ⟨ys, j, hmore, hj⟩ := ih hk
    exact ⟨xs ++ ys, j, .turn (takes_and hone) hmore, hj⟩

theorem takes_stringLiteral (hs : s.grammar = grammar) {x' : List Char}
    (h : At s.text i (doubleQuoteChar :: x)) (hbody : Body doubleQuoteChar x x')
    (hstrings : AfterStrings x' y) : ∃ xs j, s.Takes stringLiteral i xs j ∧ At s.text j y := by
  obtain ⟨xs, k, hone, hk⟩ := takesAll_oneString hs h hbody
  obtain ⟨ys, j, hmore, hj⟩ := repeats_oneString hs hstrings hk
  exact ⟨_, j, takes_named (fun _ _ => by rw [hs]; rfl)
    (takes_anon (takes_and (hone.append (takes_zeroOrMore hmore).all))), hj⟩

/-! ## Raw string literals -/

/-- What ends a raw string literal with the delimeter -/
def rawEnd (d : List Char) : List Char := ')' :: d ++ [doubleQuoteChar]

/-- `d-char`s, and no more than are allowed -/
def IsDelimeter (d : List Char) : Prop :=
  d.length ≤ 16 ∧ ∀ c ∈ d, isspace c = false ∧ c ≠ backslash ∧ c ≠ '(' ∧ c ≠ ')'

theorem delimeter_eq {text d : List Char} {n : Nat} (hn : d.length ≤ n)
    (hd : ∀ c ∈ d, isspace c = false ∧ c ≠ backslash ∧ c ≠ '(' ∧ c ≠ ')')
    (h : At text i (d ++ '(' :: x)) :
    (delimeter text n i : Except (Exception Unit ItemType Rule) Nat) = .ok (i + d.length) := by
  induction d generalizing i n with
  | nil =>
    have hget := getElem?_of_drop h.drop
    cases n <;> rw [delimeter, hget] <;> rfl
  | cons c d ih =>
    obtain ⟨⟨hspace, hslash, hopen, hclose⟩, hd⟩ := List.forall_mem_cons.mp hd
    obtain ⟨n, rfl⟩ : ∃ m, n = m + 1 := Nat.exists_eq_succ_of_ne_zero (Nat.ne_of_gt
      (Nat.lt_of_lt_of_le (Nat.succ_pos _) hn))
    rw [delimeter, getElem?_of_drop h.drop]
    simp only [if_neg hopen]
    rw [if_neg (by simp [hspace, hslash, hclose]), ih (Nat.le_of_succ_le_succ hn) hd h.tail,
      List.length_cons, Nat.add_right_comm]
    rfl

theorem slice_of_at {text d : List Char} (h : At text i (d ++ x)) :
    slice text i (i + d.length) = d := by
  rw [slice, h.drop, Nat.add_sub_cancel_left, List.take_left]

/-- The prefixes of a literal -/
def encodings : List (List Char) := [['u', '8'], ['u'], ['U'], ['L']]

def rawQuote : PR := parseLiteral (String.ofList ['R', doubleQuoteChar])

theorem takes_rawPrefix {pre : List Char} (hpre : pre ∈ [] :: encodings)
    (h : At s.text i (pre ++ 'R' :: doubleQuoteChar :: x)) : ∃ xs j,
      s.Takes ((parseLiteral "u8" + rawQuote) ||| (parseOneOfChars ['L', 'u', 'U'] + rawQuote) |||
        rawQuote) i xs j ∧ At s.text j x := by
  have hquote : ∀ {k}, At s.text k ('R' :: doubleQuoteChar :: x) →
      s.Takes rawQuote k [.leaf k (k + 2)] (k + 2) ∧ At s.text (k + 2) x := fun hk =>
    ⟨takes_literal (x := String.ofList ['R', doubleQuoteChar]) hk.drop, hk.tail.tail⟩
  have hu8 : ∀ {c d : Char} {y : List Char}, At s.text i (c :: d :: y) → d ≠ '8' →
      s.Refuses (parseLiteral "u8" + rawQuote) i := by
    intro c d y hi hd
    refine refuses_and (refuses_literal (x := "u8") ?_)
    rw [hi.drop]
    rintro ⟨z, hz⟩
    cases hz
    exact hd rfl
  have hone : ∀ {c : Char}, c ∈ ['L', 'u', 'U'] → At s.text i (c :: 'R' :: doubleQuoteChar :: x) →
      ∃ xs j, s.Takes ((parseLiteral "u8" + rawQuote) |||
        (parseOneOfChars ['L', 'u', 'U'] + rawQuote) ||| rawQuote) i xs j ∧ At s.text j x := by
    intro c hc hi
    obtain ⟨hraw, hj⟩ := hquote hi.tail
    exact ⟨_, _, takes_or_second (hu8 hi (by decide))
      (takes_and (.cons (takes_oneOfChars hi.drop hc) hraw.all)), hj⟩
  rw [encodings] at hpre
  simp only [List.mem_cons, List.not_mem_nil, or_false] at hpre
  rcases hpre with rfl | rfl | rfl | rfl | rfl
  · obtain ⟨hraw, hj⟩ := hquote h
    refine ⟨_, _, takes_or [parseOneOfChars ['L', 'u', 'U'] + rawQuote] (hu8 h (by decide))
      (List.forall_mem_cons.mpr ⟨refuses_and (refuses_oneOfChars fun c hc => ?_), nofun⟩) hraw, hj⟩
    rw [h.head?] at hc
    cases hc
    decide
  · obtain ⟨hraw, hj⟩ := hquote h.tail.tail
    have hu : s.Takes (parseLiteral "u8") i [.leaf i (i + 2)] (i + 2) :=
      takes_literal (x := "u8") h.drop
    exact ⟨_, _, takes_or_first (takes_and (.cons hu hraw.all)), hj⟩
  · exact hone (by decide) h
  · exact hone (by decide) h
  · exact hone (by decide) h

theorem takes_rawStringLiteral (hs : s.grammar = grammar) {pre d : List Char}
    (hpre : pre ∈ [] :: encodings) (hd : IsDelimeter d)
    (h : At s.text i (pre ++ 'R' :: doubleQuoteChar :: d ++ '(' :: x))
    (hx : search (rawEnd d <+: ·) x = some (rawEnd d ++ y)) :
    ∃ xs j, s.Takes rawStringLiteral i xs j ∧ At s.text j y := by
  rw [List.append_assoc, List.cons_append, List.cons_append] at h
  obtain ⟨xs, k, hprefix, hk⟩ := takes_rawPrefix hpre h
  have hdelimeter := delimeter_eq hd.1 hd.2 hk
  have hopen := hk.append
  have hstring : (String.ofList (rawEnd d)).toList = rawEnd d := String.toList_ofList
  rcases takes_anyUntil (s := s) (p := (rawEnd d <+: ·))
      (x := .literal () (String.ofList (rawEnd d))) ()
      (fun k ⟨rest, hrest⟩ => ⟨_, _, takes_literal (hstring.symm ▸ hrest.symm)⟩)
      (fun k hk => refuses_literal (hstring.symm ▸ hk)) (k + d.length) with
    ⟨rest, l, hsearch, hl, huntil⟩ | ⟨hsearch, -⟩
  · have hnot : ¬ rawEnd d <+: '(' :: x := by
      rintro ⟨z, hz⟩
      cases hz
    rw [hopen.drop, search, if_neg hnot, hx] at hsearch
    cases hsearch
    have hat : At s.text l (rawEnd d ++ y) := At.of_drop_cons hl
    have hend : s.Takes (.literal () (String.ofList (rawEnd d))) l
        [.leaf l (l + (String.ofList (rawEnd d)).toList.length)]
        (l + (String.ofList (rawEnd d)).toList.length) :=
      takes_literal (hstring.symm ▸ hat.drop)
    rw [hstring] at hend
    refine ⟨_, _, takes_named (fun _ _ => by rw [hs]; rfl) (.of_runs
      (runs_ask.mpr ⟨_, hprefix.parse, ?_⟩) (.single ?_)), hat.append⟩
    · change Runs s.body (parseRawString s.text () i k) _
      rw [parseRawString, hdelimeter]
      simp only [slice_of_at hk]
      exact runs_ask.mpr ⟨_, huntil.answers, runs_ask.mpr ⟨_, hend.answers, runs_ret.mpr rfl⟩⟩
    · exact hprefix.tiles.le.trans ((Nat.le_add_right ..).trans
        (huntil.tiles.le.trans hend.tiles.le))
  · rw [hopen.drop, search, if_neg (by rintro ⟨z, hz⟩; cases hz), hx] at hsearch
    cases hsearch

end Urnest.Hcp.Cpp
