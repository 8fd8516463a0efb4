import Urnest.Hcp.Literals

/-!
# The grammar of HTTP

The parsers of xju/http for tokens and quoted strings, and what they read. `OneChar` says of a
parser that it reads a character of some class; the rules for it go up to tokens. A quoted
string ends at the first quote that is in no quoted pair (`afterQuoted`).
-/

namespace Urnest.Http

open Lib Lib.Asking Hcp Hcp.Parsing Hcp.Cpp

/-! ## Characters -/

/-- The characters from one up to the one before another -/
def upTo (c d : Char) : List Char :=
  (List.range (d.toNat - c.toNat)).map fun n => Char.ofNat (c.toNat + n)

/-- `hcp::Chars` of a pattern: a-f means abcdef -/
def charsOf : List Char → List Char
  | [] => []
  | [c] => [c]
  | [c, d] => [c, d]
  | c :: d :: e :: rest =>
    if d = '-' ∧ c < e then upTo c e ++ charsOf (e :: rest) else c :: charsOf (d :: e :: rest)

/-- `quotedStringChars` -/
def quotedStringChars : List Char :=
  charsOf ['\t', ' ', '!', '-', '~', Char.ofNat 0x80, '-', Char.ofNat 0xff]

/-- What a quoted string has unquoted -/
def unquotedChars : List Char :=
  charsOf ['\t', ' ', '!', '#', '-', '[', ']', '-', '~', Char.ofNat 0x80, '-', Char.ofNat 0xff]

/-- The same, said of the characters -/
def isQuotedStringChar (c : Char) : Bool :=
  c.toNat = 9 ∨ 0x20 ≤ c.toNat ∧ c.toNat ≤ 0x7e ∨ 0x80 ≤ c.toNat ∧ c.toNat ≤ 0xff

def isUnquoted (c : Char) : Bool := isQuotedStringChar c ∧ c ≠ doubleQuoteChar ∧ c ≠ backslash

theorem mem_upTo {c d x : Char} (hd : d.toNat ≤ 0x100) :
    x ∈ upTo c d ↔ c.toNat ≤ x.toNat ∧ x.toNat < d.toNat := by
  rw [upTo, List.mem_map]
  constructor
  · rintro ⟨n, hn, rfl⟩
    have hlt := List.mem_range.mp hn
    have hvalid : (c.toNat + n).isValidChar := .inl (by omega)
    have htoNat : (Char.ofNat (c.toNat + n)).toNat = c.toNat + n := by
      rw [Char.ofNat, dif_pos hvalid]
      rfl
    omega
  · rintro ⟨hmin, hmax⟩
    refine ⟨x.toNat - c.toNat, List.mem_range.mpr (by omega), ?_⟩
    rw [Nat.add_sub_cancel' hmin]
    exact Char.ofNat_toNat x

theorem eq_iff_toNat {c d : Char} : c = d ↔ c.toNat = d.toNat := Char.toNat_inj.symm

theorem mem_quotedStringChars {c : Char} : c ∈ quotedStringChars ↔ isQuotedStringChar c = true := by
  have hlist : quotedStringChars =
      '\t' :: ' ' :: (upTo '!' '~' ++ ('~' :: (upTo (Char.ofNat 0x80) (Char.ofNat 0xff) ++
        [Char.ofNat 0xff]))) := rfl
  rw [hlist, List.mem_cons, List.mem_cons, List.mem_append, List.mem_cons, List.mem_append,
    List.mem_singleton, mem_upTo (by decide), mem_upTo (by decide), isQuotedStringChar,
    decide_eq_true_iff, eq_iff_toNat, eq_iff_toNat, eq_iff_toNat, eq_iff_toNat]
  change (c.toNat = 9 ∨ c.toNat = 32 ∨ (33 ≤ c.toNat ∧ c.toNat < 126) ∨ c.toNat = 126 ∨
    (128 ≤ c.toNat ∧ c.toNat < 255) ∨ c.toNat = 255) ↔ _
  omega

theorem mem_unquotedChars {c : Char} : c ∈ unquotedChars ↔ isUnquoted c = true := by
  have hlist : unquotedChars =
      '\t' :: ' ' :: '!' :: (upTo '#' '[' ++ ('[' :: (upTo ']' '~' ++ ('~' ::
        (upTo (Char.ofNat 0x80) (Char.ofNat 0xff) ++ [Char.ofNat 0xff]))))) := rfl
  rw [hlist, List.mem_cons, List.mem_cons, List.mem_cons, List.mem_append, List.mem_cons,
    List.mem_append, List.mem_cons, List.mem_append, List.mem_singleton, mem_upTo (by decide),
    mem_upTo (by decide), mem_upTo (by decide), isUnquoted, decide_eq_true_iff,
    isQuotedStringChar, decide_eq_true_iff, ne_eq, ne_eq]
  simp only [eq_iff_toNat]
  change (c.toNat = 9 ∨ c.toNat = 32 ∨ c.toNat = 33 ∨ (35 ≤ c.toNat ∧ c.toNat < 91) ∨
    c.toNat = 91 ∨ (93 ≤ c.toNat ∧ c.toNat < 126) ∨ c.toNat = 126 ∨
    (128 ≤ c.toNat ∧ c.toNat < 255) ∨ c.toNat = 255) ↔ _ ∧ ¬ c.toNat = 34 ∧ ¬ c.toNat = 92
  omega

/-! ## Parsers -/

/-- The item types that the parsers name -/
inductive ItemType where
  | quotedString
  | chunkSize
  | chunkExtName
  | chunkExtValue
  | chunkExt
  deriving DecidableEq

abbrev PR := Parser Unit ItemType Empty

def parseOneOfChars (chars : List Char) : PR := .oneOfChars () chars

def parseLiteral (x : List Char) : PR := .literal () (String.ofList x)

def charInRange (min max : Char) : PR := .charInRange () min max

/-- `atLeastOne` -/
def atLeastOne (x : PR) : PR := .anon () "at least one occurrance" (.and () x [.zeroOrMore () x])

def digit : PR := charInRange '0' '9'

def hexDigit : PR := .or () (charInRange '0' '9') [charInRange 'a' 'f', charInRange 'A' 'F']

def tokenChars : List Char := "!#$%&'*+-.^_'|~".toList

/-- `tokenParser` -/
def tokenParser : PR :=
  atLeastOne (.or () (parseOneOfChars tokenChars)
    [digit, charInRange 'a' 'z', charInRange 'A' 'Z'])

/-- What is in a quoted string -/
def quotedChar : PR :=
  .or () (parseOneOfChars unquotedChars)
    [.and () (parseLiteral [backslash]) [parseOneOfChars quotedStringChars]]

/-- `quotedStringParser` -/
def quotedStringParser : PR :=
  .named () .quotedString "HTTP quoted-string"
    (.and () (parseLiteral [doubleQuoteChar])
      [.specificUntil () quotedChar (parseLiteral [doubleQuoteChar]),
        parseLiteral [doubleQuoteChar]])

/-- No parser here is balanced, which alone asks for the parsers that are static in parser.cc;
and the items have no constructors of their own. -/
def grammar : Grammar Unit ItemType Empty where
  parserOf := nofun
  c_char := .anyChar ()
  stringLiteral := .anyChar ()
  rawStringLiteral := .anyChar ()
  comments := .anyChar ()
  construct := fun _ _ _ => none

/-- A text to parse -/
def parsing (text : List Char) : Parsing Unit ItemType Empty := ⟨grammar, nofun, text, false⟩

variable {text x y : List Char} {i j : Nat}

/-- The parser reads one character of a class. -/
structure OneChar (p : PR) (cls : Char → Bool) : Prop where
  takes : ∀ {text : List Char} {i : Nat} {c : Char} {x : List Char},
    At text i (c :: x) → cls c = true → ∃ xs, (parsing text).Takes p i xs (i + 1)
  refuses : ∀ {text : List Char} {i : Nat} {x : List Char},
    At text i x → (∀ c ∈ x.head?, cls c = false) → (parsing text).Refuses p i

theorem oneChar_oneOfChars (chars : List Char) :
    OneChar (parseOneOfChars chars) fun c => decide (c ∈ chars) where
  takes h hc := ⟨_, takes_oneOfChars (s := parsing _) h.drop (of_decide_eq_true hc)⟩
  refuses h hc := refuses_oneOfChars (s := parsing _) fun c hmem =>
    of_decide_eq_false (hc c (h.head? ▸ hmem))

theorem oneChar_charInRange (min max : Char) :
    OneChar (charInRange min max) fun c => decide (min ≤ c ∧ c ≤ max) where
  takes h hc := by
    obtain ⟨hmin, hmax⟩ := of_decide_eq_true hc
    exact ⟨_, takes_charInRange (s := parsing _) h.drop hmin hmax⟩
  refuses h hc := by
    refine refuses_charInRange (s := parsing _) fun c hmem => ?_
    rw [← Char.not_le, ← Char.not_le]
    exact not_and_or.mp (of_decide_eq_false (hc c (h.head? ▸ hmem)))

/-- The first of some alternatives that reads the character -/
theorem exists_takes {qs : List PR} {clss : List (Char → Bool)} (hqs : List.Forall₂ OneChar qs clss)
    {c : Char} (h : At text i (c :: x)) (hc : clss.any (fun cls => cls c) = true) :
    ∃ ps q rs, qs = ps ++ q :: rs ∧ (∀ r ∈ ps, (parsing text).Refuses r i) ∧
      ∃ xs, (parsing text).Takes q i xs (i + 1) := by
  induction hqs with
  | nil => cases hc
  | @cons q cls qs clss hq _ ih =>
    cases hcls : cls c with
    | true => exact ⟨[], q, qs, rfl, nofun, hq.takes h hcls⟩
    | false =>
      rw [List.any_cons, hcls, Bool.false_or] at hc
      obtain ⟨ps, q', rs, rfl, hps, htakes⟩ := ih hc
      refine ⟨q :: ps, q', rs, rfl, List.forall_mem_cons.mpr ⟨hq.refuses h fun d hd => ?_, hps⟩,
        htakes⟩
      cases hd
      exact hcls

theorem forall_refuses {qs : List PR} {clss : List (Char → Bool)}
    (hqs : List.Forall₂ OneChar qs clss) (h : At text i x)
    (hc : ∀ c ∈ x.head?, clss.any (fun cls => cls c) = false) :
    ∀ q ∈ qs, (parsing text).Refuses q i := by
  induction hqs with
  | nil => nofun
  | @cons q cls qs clss hq _ ih =>
    have hboth : ∀ c ∈ x.head?, cls c = false ∧ clss.any (fun cls => cls c) = false :=
      fun c hmem => Bool.or_eq_false_iff.mp (hc c hmem)
    exact List.forall_mem_cons.mpr ⟨hq.refuses h fun c hmem => (hboth c hmem).1,
      ih fun c hmem => (hboth c hmem).2⟩

/-- Alternatives of characters read a character of one of the classes. -/
theorem oneChar_or {p : PR} {qs : List PR} {clss : List (Char → Bool)}
    (hqs : List.Forall₂ OneChar (p :: qs) clss) :
    OneChar (.or () p qs) fun c => clss.any fun cls => cls c where
  takes h hc := by
    obtain ⟨ps, q, rs, hps, hrefuses, xs, htakes⟩ := exists_takes hqs h hc
    cases ps with
    | nil =>
      cases hps
      exact ⟨xs, takes_or_first htakes⟩
    | cons p' ps =>
      cases hps
      obtain ⟨hfirst, hrest⟩ := List.forall_mem_cons.mp hrefuses
      exact ⟨xs, takes_or ps hfirst hrest htakes⟩
  refuses h hc := refuses_or (forall_refuses hqs h hc)

/-- As many as there are -/
theorem repeats_oneChar {p : PR} {cls : Char → Bool} (hp : OneChar p cls) (h : At text i x) :
    ∃ xs j, Repeats ((parsing text).Takes p) ((parsing text).Refuses p) i xs j ∧
      At text j (x.dropWhile cls) := by
  induction x generalizing i with
  | nil => exact ⟨[], i, .stop (hp.refuses h nofun), h⟩
  | cons c x ih =>
    cases hc : cls c with
    | false =>
      rw [List.dropWhile_cons_of_neg (by simp [hc])]
      refine ⟨[], i, .stop (hp.refuses h fun d hd => ?_), h⟩
      cases hd
      exact hc
    | true =>
      rw [List.dropWhile_cons_of_pos hc]
      obtain ⟨xs, hone⟩ := hp.takes h hc
      obtain ⟨ys, j, hmore, hj⟩ := ih h.tail
      exact ⟨xs ++ ys, j, .turn hone hmore, hj⟩

theorem takes_atLeastOne {p : PR} {cls : Char → Bool} (hp : OneChar p cls) {c : Char}
    (h : At text i (c :: x)) (hc : cls c = true) :
    ∃ xs j, (parsing text).Takes (atLeastOne p) i xs j ∧ At text j (x.dropWhile cls) := by
  obtain ⟨xs, hone⟩ := hp.takes h hc
  obtain ⟨ys, j, hmore, hj⟩ := repeats_oneChar hp h.tail
  exact ⟨_, j, takes_anon (takes_and (.cons hone (takes_zeroOrMore hmore).all)), hj⟩

theorem refuses_atLeastOne {p : PR} {cls : Char → Bool} (hp : OneChar p cls) (h : At text i x)
    (hc : ∀ c ∈ x.head?, cls c = false) : (parsing text).Refuses (atLeastOne p) i :=
  refuses_anon (refuses_and (hp.refuses h hc))

theorem takes_parseLiteral {z : List Char} (h : At text i (z ++ x)) :
    (parsing text).Takes (parseLiteral z) i [.leaf i (i + z.length)] (i + z.length) := by
  have hdrop : (parsing text).text.drop i = (String.ofList z).toList ++ x := by
    rw [String.toList_ofList]
    exact h.drop
  have htakes : (parsing text).Takes (parseLiteral z) i _ _ := takes_literal hdrop
  rwa [String.toList_ofList] at htakes

theorem refuses_parseLiteral {z : List Char} (h : At text i x) (hz : ¬ z <+: x) :
    (parsing text).Refuses (parseLiteral z) i := by
  refine refuses_literal (s := parsing text) ?_
  rw [String.toList_ofList]
  change ¬ z <+: text.drop i
  rwa [h.drop]

/-- The end and the turn of a loop both fail. -/
theorem refuses_specificUntil {match_ p : PR} {xs : IRs ItemType}
    (h : Repeats (UntilTurn (parsing text) match_ p)
      (fun i => (parsing text).Refuses p i ∧ (parsing text).Refuses match_ i) i xs j) :
    (parsing text).Refuses (.specificUntil () match_ p) i := by
  have hall : ∀ before, ∃ e,
      Answers (parsing text).body (.specificUntil match_ p (before, i)) (.error e) := by
    induction h with
    | @stop i hx =>
      intro before
      obtain ⟨⟨e, he⟩, e', he'⟩ := hx
      exact ⟨_, answers_iff.mpr (runs_ask.mpr ⟨_, he, runs_ask.mpr ⟨_, he', runs_ret.mpr rfl⟩⟩)⟩
    | @turn i k j xs ys hx _ ih =>
      intro before
      obtain ⟨e, he⟩ := hx.refuses
      obtain ⟨e', he'⟩ := ih (before ++ xs)
      exact ⟨e', answers_iff.mpr (runs_ask.mpr ⟨_, he, runs_ask.mpr ⟨_, hx.takes.answers,
        runs_ask.mpr ⟨_, he', runs_ret.mpr rfl⟩⟩⟩)⟩
  obtain ⟨e, he⟩ := hall []
  exact .of_runs (runs_ask.mpr ⟨_, he, runs_ret.mpr rfl⟩)

/-! ## Quoted strings -/

/-- What comes behind the quote that closes a quoted string -/
def afterQuoted : List Char → Option (List Char)
  | [] => none
  | c :: x =>
    if c = doubleQuoteChar then some x
    else if c = backslash then
      match x with
      | [] => none
      | d :: y => if isQuotedStringChar d then afterQuoted y else none
    else if isUnquoted c then afterQuoted x
    else none

theorem afterQuoted_cons (c : Char) (x : List Char) :
    afterQuoted (c :: x) =
      if c = doubleQuoteChar then some x
      else if c = backslash then
        match x with
        | [] => none
        | d :: y => if isQuotedStringChar d then afterQuoted y else none
      else if isUnquoted c then afterQuoted x
      else none := by
  cases x <;> rfl

theorem oneChar_unquotedChars : OneChar (parseOneOfChars unquotedChars) isUnquoted := by
  have h := oneChar_oneOfChars unquotedChars
  have hcls : (fun c => decide (c ∈ unquotedChars)) = isUnquoted := by
    funext c
    rw [Bool.eq_iff_iff, decide_eq_true_iff]
    exact mem_unquotedChars
  rwa [hcls] at h

theorem oneChar_quotedStringChars :
    OneChar (parseOneOfChars quotedStringChars) isQuotedStringChar := by
  have h := oneChar_oneOfChars quotedStringChars
  have hcls : (fun c => decide (c ∈ quotedStringChars)) = isQuotedStringChar := by
    funext c
    rw [Bool.eq_iff_iff, decide_eq_true_iff]
    exact mem_quotedStringChars
  rwa [hcls] at h

theorem takes_quotedChar {c : Char} (h : At text i (c :: x)) (hc : isUnquoted c = true) :
    ∃ xs, (parsing text).Takes quotedChar i xs (i + 1) := by
  obtain ⟨xs, htakes⟩ := oneChar_unquotedChars.takes h hc
  exact ⟨xs, takes_or_first htakes⟩

theorem refuses_unquoted {c : Char} (h : At text i (c :: x)) (hc : isUnquoted c = false) :
    (parsing text).Refuses (parseOneOfChars unquotedChars) i := by
  refine oneChar_unquotedChars.refuses h fun d hd => ?_
  cases hd
  exact hc

theorem isUnquoted_backslash : isUnquoted backslash = false := by decide

/-- A quoted pair -/
theorem takes_quotedPair {d : Char} (h : At text i (backslash :: d :: x))
    (hd : isQuotedStringChar d = true) :
    ∃ xs, (parsing text).Takes quotedChar i xs (i + 1 + 1) := by
  obtain ⟨xs, htakes⟩ := oneChar_quotedStringChars.takes h.tail hd
  exact ⟨_, takes_or_second (refuses_unquoted h isUnquoted_backslash)
    (takes_and (.cons (takes_parseLiteral (z := [backslash]) h) htakes.all))⟩

theorem refuses_quotedChar_nil (h : At text i []) : (parsing text).Refuses quotedChar i :=
  refuses_or (List.forall_mem_cons.mpr ⟨oneChar_unquotedChars.refuses h nofun,
    List.forall_mem_cons.mpr ⟨refuses_and (refuses_parseLiteral h (by simp)), nofun⟩⟩)

theorem refuses_quotedChar {c : Char} (h : At text i (c :: x)) (hc : isUnquoted c = false)
    (hne : c ≠ backslash) : (parsing text).Refuses quotedChar i := by
  refine refuses_or (List.forall_mem_cons.mpr ⟨refuses_unquoted h hc,
    List.forall_mem_cons.mpr ⟨refuses_and (refuses_parseLiteral h fun hz => hne ?_), nofun⟩⟩)
  exact (List.cons_prefix_cons.mp hz).1.symm

theorem refuses_quotedPair (h : At text i (backslash :: x))
    (hx : ∀ d ∈ x.head?, isQuotedStringChar d = false) : (parsing text).Refuses quotedChar i :=
  refuses_or (List.forall_mem_cons.mpr ⟨refuses_unquoted h isUnquoted_backslash,
    List.forall_mem_cons.mpr ⟨refuses_and_second (takes_parseLiteral (z := [backslash]) h)
      (oneChar_quotedStringChars.refuses h.tail hx), nofun⟩⟩)

theorem refuses_quote {c : Char} (h : At text i (c :: x)) (hc : c ≠ doubleQuoteChar) :
    (parsing text).Refuses (parseLiteral [doubleQuoteChar]) i :=
  refuses_parseLiteral h fun hz => hc (List.cons_prefix_cons.mp hz).1.symm

/-- The turns of the loop in a quoted string -/
abbrev Turns (text : List Char) (stop : Nat → Prop) : Nat → IRs ItemType → Nat → Prop :=
  Repeats (UntilTurn (parsing text) quotedChar (parseLiteral [doubleQuoteChar])) stop

/-- They lead to the quote that closes it, if there is one. -/
theorem turns_quoted (h : At text i x) :
    (∀ y, afterQuoted x = some y → ∃ xs j, Turns text
      (fun i => ∃ ys k, (parsing text).Takes (parseLiteral [doubleQuoteChar]) i ys k) i xs j ∧
      At text j (doubleQuoteChar :: y)) ∧
    (afterQuoted x = none → ∃ xs j, Turns text
      (fun i => (parsing text).Refuses (parseLiteral [doubleQuoteChar]) i ∧
        (parsing text).Refuses quotedChar i) i xs j) := by
  induction x using afterQuoted.induct generalizing i with
  | case1 =>
    exact ⟨nofun, fun _ => ⟨[], i, .stop ⟨refuses_parseLiteral h (by simp),
      refuses_quotedChar_nil h⟩⟩⟩
  | case2 x =>
    rw [afterQuoted_cons, if_pos rfl]
    refine ⟨?_, nofun⟩
    rintro y ⟨⟩
    exact ⟨[], i, .stop ⟨_, _, takes_parseLiteral (z := [doubleQuoteChar]) h⟩, h⟩
  | case3 hne =>
    rw [afterQuoted_cons, if_neg hne, if_pos rfl]
    exact ⟨nofun, fun _ => ⟨[], i, .stop ⟨refuses_quote h hne, refuses_quotedPair h nofun⟩⟩⟩
  | case4 d y hd hne ih =>
    rw [afterQuoted_cons, if_neg hne, if_pos rfl]
    simp only [hd, if_true]
    obtain ⟨xs, hpair⟩ := takes_quotedPair h hd
    have hturn : UntilTurn (parsing text) quotedChar (parseLiteral [doubleQuoteChar]) i xs _ :=
      ⟨refuses_quote h hne, hpair⟩
    obtain ⟨hsome, hnone⟩ := ih h.tail.tail
    refine ⟨fun z hz => ?_, fun hz => ?_⟩
    · obtain ⟨ys, j, hturns, hj⟩ := hsome z hz
      exact ⟨_, j, .turn hturn hturns, hj⟩
    · obtain ⟨ys, j, hturns⟩ := hnone hz
      exact ⟨_, j, .turn hturn hturns⟩
  | case5 d y hd hne =>
    rw [afterQuoted_cons, if_neg hne, if_pos rfl]
    simp only [hd]
    refine ⟨nofun, fun _ => ⟨[], i, .stop ⟨refuses_quote h hne, refuses_quotedPair h ?_⟩⟩⟩
    rintro e ⟨⟩
    exact Bool.eq_false_of_not_eq_true hd
  | case6 c x hne hslash hc ih =>
    rw [afterQuoted_cons, if_neg hne, if_neg hslash, if_pos hc]
    obtain ⟨xs, hone⟩ := takes_quotedChar h hc
    have hturn : UntilTurn (parsing text) quotedChar (parseLiteral [doubleQuoteChar]) i xs _ :=
      ⟨refuses_quote h hne, hone⟩
    obtain ⟨hsome, hnone⟩ := ih h.tail
    refine ⟨fun z hz => ?_, fun hz => ?_⟩
    · obtain ⟨ys, j, hturns, hj⟩ := hsome z hz
      exact ⟨_, j, .turn hturn hturns, hj⟩
    · obtain ⟨ys, j, hturns⟩ := hnone hz
      exact ⟨_, j, .turn hturn hturns⟩
  | case7 c x hne hslash hc =>
    rw [afterQuoted_cons, if_neg hne, if_neg hslash, if_neg hc]
    exact ⟨nofun, fun _ => ⟨[], i, .stop ⟨refuses_quote h hne,
      refuses_quotedChar h (Bool.eq_false_of_not_eq_true hc) hslash⟩⟩⟩

theorem takes_quotedString (h : At text i (doubleQuoteChar :: x)) (hx : afterQuoted x = some y) :
    ∃ item j, (parsing text).Takes quotedStringParser i [item] j ∧ At text j y := by
  obtain ⟨xs, j, hturns, hj⟩ := (turns_quoted h.tail).1 y hx
  have hopen := takes_parseLiteral (z := [doubleQuoteChar]) h
  have hclose := takes_parseLiteral (z := [doubleQuoteChar]) hj
  exact ⟨_, _, takes_named (fun _ _ => rfl)
    (takes_and (.cons hopen (.cons (takes_specificUntil hturns) hclose.all))), hj.tail⟩

theorem refuses_quotedString (h : At text i (doubleQuoteChar :: x)) (hx : afterQuoted x = none) :
    (parsing text).Refuses quotedStringParser i := by
  obtain ⟨xs, j, hturns⟩ := (turns_quoted h.tail).2 hx
  exact refuses_named (refuses_and_second (takes_parseLiteral (z := [doubleQuoteChar]) h)
    (refuses_specificUntil hturns))

theorem refuses_quotedString_of_ne (h : At text i x) (hx : x.head? ≠ some doubleQuoteChar) :
    (parsing text).Refuses quotedStringParser i := by
  refine refuses_named (refuses_and (refuses_parseLiteral h fun hz => hx ?_))
  obtain ⟨rest, rfl⟩ := hz
  rfl

end Urnest.Http
