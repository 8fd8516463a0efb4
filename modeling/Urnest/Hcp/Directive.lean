import Urnest.Hcp.Cpp
import Urnest.Hcp.Reading

/-!
# Preprocessor directives

`hash()` takes a directive: from its `#` to the end of a line that has no backslash before it, and
what is blank behind that. The end is looked for as two characters, the first of which is behind
the `#`. So a `#` with nothing behind it ends with the next line.
-/

namespace Urnest.Hcp.Cpp

open Lib Lib.Asking Parsing

variable {text : List Char} {irsAtEnd : Bool} {i : Nat}

/-- The productions of `file()` on a text -/
def parsing (text : List Char) (irsAtEnd : Bool) : Parsing Unit ItemType Rule :=
  ⟨grammar, fun _ => none, text, irsAtEnd⟩

theorem body_parsing (text : List Char) (irsAtEnd : Bool) :
    (parsing text irsAtEnd).body = body grammar text irsAtEnd := by
  funext q
  cases q with
  | parse_ p position => cases p <;> rfl
  | _ => rfl

/-! ## Blanks -/

/-- Where in the text: among blanks, in a line comment or in a block comment. -/
inductive Place where
  | blank
  | line
  | block

def blanks : List Char := [' ', '\t', '\n', '\r']

/-- What comes behind the blanks and comments, if the comment ends that it starts in. A comment that
does not end is not one. -/
def skipFrom : Place → List Char → Option (List Char)
  | .blank, '/' :: '/' :: x => some ((skipFrom .line x).getD ('/' :: '/' :: x))
  | .blank, '/' :: '*' :: x => some ((skipFrom .block x).getD ('/' :: '*' :: x))
  | .blank, c :: x => if c ∈ blanks then skipFrom .blank x else some (c :: x)
  | .blank, [] => some []
  | .line, c :: x => if c = '\n' then skipFrom .blank x else skipFrom .line x
  | .line, [] => none
  | .block, '*' :: '/' :: x => skipFrom .blank x
  | .block, _ :: x => skipFrom .block x
  | .block, [] => none

def skipBlanks (x : List Char) : List Char := (skipFrom .blank x).getD x

theorem skipFrom_other {c : Char} {x : List Char}
    (h : c = '/' → x.head? ≠ some '/' ∧ x.head? ≠ some '*') :
    skipFrom .blank (c :: x) = if c ∈ blanks then skipFrom .blank x else some (c :: x) := by
  rw [skipFrom]
  · rintro y rfl rfl
    exact (h rfl).1 rfl
  · rintro y rfl rfl
    exact (h rfl).2 rfl

theorem skipFrom_blank (x : List Char) : skipFrom .blank x = some (skipBlanks x) := by
  have hsome : ∃ y, skipFrom .blank x = some y := by
    induction x with
    | nil => exact ⟨[], rfl⟩
    | cons c x ih =>
      by_cases hcomment : c = '/' ∧ (x.head? = some '/' ∨ x.head? = some '*')
      · obtain ⟨rfl, hnext⟩ := hcomment
        rcases x with _ | ⟨d, x⟩
        · exact ⟨_, rfl⟩
        rcases hnext with hd | hd <;> cases hd
        · exact ⟨_, by rw [skipFrom]⟩
        · exact ⟨_, by rw [skipFrom]⟩
      · rw [skipFrom_other fun hc => not_or.mp fun hnext => hcomment ⟨hc, hnext⟩]
        split_ifs
        · exact ih
        · exact ⟨_, rfl⟩
  obtain ⟨y, hy⟩ := hsome
  rw [skipBlanks, hy, Option.getD_some]

theorem skipBlanks_blank {c : Char} (h : c ∈ blanks) (x : List Char) :
    skipBlanks (c :: x) = skipBlanks x := by
  have hslash : c ≠ '/' := by
    rintro rfl
    exact absurd h (by decide)
  rw [← Option.some_inj, ← skipFrom_blank, ← skipFrom_blank,
    skipFrom_other fun hc => absurd hc hslash, if_pos h]

theorem skipBlanks_line (x : List Char) :
    skipBlanks ('/' :: '/' :: x) = (skipFrom .line x).getD ('/' :: '/' :: x) := by
  rw [skipBlanks, skipFrom]
  rfl

theorem skipBlanks_block (x : List Char) :
    skipBlanks ('/' :: '*' :: x) = (skipFrom .block x).getD ('/' :: '*' :: x) := by
  rw [skipBlanks, skipFrom]
  rfl

/-- The end of a line -/
def AtNewline (y : List Char) : Prop := y.head? = some '\n'

instance : DecidablePred AtNewline := fun y => inferInstanceAs (Decidable (y.head? = some '\n'))

/-- The end of a block comment -/
def AtStarSlash (y : List Char) : Prop := ['*', '/'] <+: y

instance : DecidablePred AtStarSlash := fun y => inferInstanceAs (Decidable (_ <+: y))

theorem skipFrom_line (x : List Char) :
    skipFrom .line x = (search AtNewline x).map skipBlanks := by
  induction x with
  | nil => rfl
  | cons c x ih =>
    rw [skipFrom, search]
    by_cases hc : c = '\n'
    · have hat : AtNewline (c :: x) := congrArg some hc
      rw [if_pos hc, if_pos hat, Option.map_some, skipFrom_blank, hc, skipBlanks_blank (by decide)]
    · have hat : ¬ AtNewline (c :: x) := fun h => hc (Option.some.inj h)
      rw [if_neg hc, if_neg hat, ih]

theorem skipFrom_block (x : List Char) :
    skipFrom .block x = (search AtStarSlash x).map fun y => skipBlanks (y.drop 2) := by
  induction x with
  | nil => rfl
  | cons c x ih =>
    rw [search]
    by_cases hat : AtStarSlash (c :: x)
    · obtain ⟨rest, hrest⟩ := hat
      cases hrest
      rw [if_pos ⟨rest, rfl⟩, Option.map_some]
      change skipFrom .block ('*' :: '/' :: rest) = some (skipBlanks rest)
      rw [skipFrom, skipFrom_blank]
    · rw [if_neg hat, ← ih, skipFrom]
      rintro y rfl rfl
      exact hat ⟨y, rfl⟩

/-- No blank comes next, -/
def NoBlank (y : List Char) : Prop := ∀ c ∈ y.head?, c ∉ blanks

/-- and no comment that ends. -/
def NoComment (y : List Char) : Prop :=
  (∀ x, y = '/' :: '/' :: x → skipFrom .line x = none) ∧
    ∀ x, y = '/' :: '*' :: x → skipFrom .block x = none

theorem skipBlanks_eq_self {y : List Char} (hblank : NoBlank y) (hcomment : NoComment y) :
    skipBlanks y = y := by
  obtain ⟨hline, hblock⟩ := hcomment
  rcases y with _ | ⟨c, y⟩
  · rfl
  by_cases hc : c = '/' ∧ (y.head? = some '/' ∨ y.head? = some '*')
  · obtain ⟨rfl, hnext⟩ := hc
    rcases y with _ | ⟨d, x⟩
    · simp at hnext
    rcases hnext with h | h <;> cases h
    · rw [skipBlanks_line, hline x rfl]
      rfl
    · rw [skipBlanks_block, hblock x rfl]
      rfl
  · rw [← Option.some_inj, ← skipFrom_blank, skipFrom_other, if_neg (hblank c rfl)]
    intro hslash
    constructor
    · exact fun h => hc ⟨hslash, .inl h⟩
    · exact fun h => hc ⟨hslash, .inr h⟩

/-! ## What the parsers take -/

variable {s : Parsing Unit ItemType Rule}

/-- A parser takes something blank, or it refuses, and then `q` is true of what comes next. -/
def TakesBlank (s : Parsing Unit ItemType Rule) (q : List Char → Prop) (p : PR) (i : Nat) : Prop :=
  (∃ xs j, s.Takes p i xs j ∧ i < j ∧ j ≤ s.text.length ∧
    skipBlanks (s.text.drop i) = skipBlanks (s.text.drop j)) ∨
    s.Refuses p i ∧ q (s.text.drop i)

/-- Behind what it takes there is no blank. -/
def TakesAllBlank (s : Parsing Unit ItemType Rule) (q : List Char → Prop) (p : PR) (i : Nat) :
    Prop :=
  (∃ xs j, s.Takes p i xs j ∧ i < j ∧ j ≤ s.text.length ∧
    skipBlanks (s.text.drop i) = skipBlanks (s.text.drop j) ∧ NoBlank (s.text.drop j)) ∨
    s.Refuses p i ∧ q (s.text.drop i)

theorem TakesAllBlank.takesBlank {q : List Char → Prop} {p : PR} (h : TakesAllBlank s q p i) :
    TakesBlank s q p i :=
  h.imp_left fun ⟨xs, j, htakes, hlt, hj, hskip, _⟩ => ⟨xs, j, htakes, hlt, hj, hskip⟩

theorem TakesAllBlank.noBlank {q : List Char → Prop} {p : PR} {xs : IRs ItemType} {j : Nat}
    (h : TakesAllBlank s q p i) (htakes : s.Takes p i xs j) : NoBlank (s.text.drop j) := by
  rcases h with ⟨xs', j', htakes', -, -, -, hblank⟩ | ⟨⟨e, hrefuses⟩, -⟩
  · cases htakes.answers.unique htakes'.answers
    exact hblank
  · cases htakes.answers.unique hrefuses

theorem lt_length_of_drop {c : Char} {x : List Char} (h : s.text.drop i = c :: x) :
    i < s.text.length := by
  by_contra hle
  rw [List.drop_eq_nil_iff.mpr (Nat.le_of_not_lt hle)] at h
  cases h

theorem takesBlank_whitespaceChar (i : Nat) : TakesBlank s NoBlank whitespaceChar i := by
  rcases h : s.text.drop i with _ | ⟨c, x⟩
  · refine .inr ⟨refuses_oneOfChars fun c hc => ?_, fun c hc => ?_⟩ <;>
    · rw [h] at hc
      cases hc
  · by_cases hc : c ∈ blanks
    · refine .inl ⟨_, _, takes_oneOfChars h hc, Nat.lt_succ_self i, lt_length_of_drop h, ?_⟩
      have hrest : s.text.drop (i + 1) = x := drop_of_drop (x := [c]) h
      rw [h, hrest, skipBlanks_blank hc]
    · refine .inr ⟨refuses_oneOfChars fun c' hc' => ?_, fun c' hc' => ?_⟩ <;>
      · rw [h] at hc'
        cases hc'
        exact hc

/-- A loop goes on as long as its parser takes something. -/
theorem repeats_blank {q : List Char → Prop} {p : PR} (hp : ∀ i, TakesBlank s q p i) (n : Nat) :
    ∀ i, s.text.length ≤ i + n → i ≤ s.text.length →
      ∃ xs j, Repeats (s.Takes p) (s.Refuses p) i xs j ∧ j ≤ s.text.length ∧
        skipBlanks (s.text.drop i) = skipBlanks (s.text.drop j) ∧ q (s.text.drop j) := by
  induction n with
  | zero =>
    intro i hn hi
    rcases hp i with ⟨xs, j, -, hlt, hj, -⟩ | ⟨hrefuses, hq⟩
    · omega
    · exact ⟨[], i, .stop hrefuses, hi, rfl, hq⟩
  | succ n ih =>
    intro i hn hi
    rcases hp i with ⟨xs, j, htakes, hlt, hj, hskip⟩ | ⟨hrefuses, hq⟩
    · obtain ⟨ys, k, hrepeats, hk, hskip', hq⟩ := ih j (by omega) hj
      exact ⟨xs ++ ys, k, .turn htakes hrepeats, hk, hskip.trans hskip', hq⟩
    · exact ⟨[], i, .stop hrefuses, hi, rfl, hq⟩

theorem takes_zeroOrMore_blank {q : List Char → Prop} {p : PR} (hp : ∀ i, TakesBlank s q p i)
    (hi : i ≤ s.text.length) :
    ∃ xs j, s.Takes (zeroOrMore p) i xs j ∧ j ≤ s.text.length ∧
      skipBlanks (s.text.drop i) = skipBlanks (s.text.drop j) ∧ q (s.text.drop j) := by
  obtain ⟨xs, j, hrepeats, hrest⟩ := repeats_blank hp (s.text.length - i) i (by omega) hi
  exact ⟨xs, j, takes_zeroOrMore hrepeats, hrest⟩

theorem takes_newline {k : Nat} (h : AtNewline (s.text.drop k)) :
    ∃ ys k', s.Takes (parseOneOfChars ['\n']) k ys k' := by
  rcases hk : s.text.drop k with _ | ⟨c, x⟩ <;> rw [hk] at h <;> cases h
  exact ⟨_, _, takes_oneOfChars hk (.head _)⟩

theorem refuses_newline {k : Nat} (h : ¬ AtNewline (s.text.drop k)) :
    s.Refuses (parseOneOfChars ['\n']) k := by
  refine refuses_oneOfChars fun c hc hmem => h ?_
  rw [List.mem_singleton.mp hmem] at hc
  exact hc

theorem takesAllBlank_lineComment (hs : s.grammar = grammar) {x : List Char}
    (h : s.text.drop i = '/' :: '/' :: x) :
    TakesAllBlank s (fun _ => skipFrom .line x = none) lineComment i := by
  have hopen : s.Takes doubleSlash i [.leaf i (i + 2)] (i + 2) := takes_literal (x := "//") h
  have hx : s.text.drop (i + 2) = x := drop_of_drop (x := ['/', '/']) h
  rcases takes_anyUntil () (fun k => takes_newline) (fun k => refuses_newline) (i + 2) with
    ⟨rest, k, hsearch, hk, huntil⟩ | ⟨hsearch, huntil⟩
  · rw [hx] at hsearch
    have hat := search_pos hsearch
    have hklt : k < s.text.length := by
      rcases hrest : rest with _ | ⟨c, y⟩ <;> rw [hrest] at hat hk
      · cases hat
      · exact lt_length_of_drop hk
    obtain ⟨ys, j, hblanks, hj, hskip, hblank⟩ :=
      takes_zeroOrMore_blank takesBlank_whitespaceChar hklt.le
    have hall := TakesAll.cons hopen (.cons huntil hblanks.all)
    refine .inl ⟨_, j, takes_named (fun _ _ => by rw [hs]; rfl) (takes_and hall), ?_, hj, ?_,
      hblank⟩
    · have hle := huntil.tiles.le
      have hle' := hblanks.tiles.le
      omega
    · rw [h, skipBlanks_line, skipFrom_line, hsearch, ← hk, ← hskip]
      rfl
  · rw [hx] at hsearch
    refine .inr ⟨refuses_named (refuses_and_second hopen huntil), ?_⟩
    rw [skipFrom_line, hsearch]
    rfl

theorem takes_starSlash {k : Nat} (h : AtStarSlash (s.text.drop k)) :
    s.Takes starSlash k [.leaf k (k + 2)] (k + 2) := by
  obtain ⟨rest, hrest⟩ := h
  exact takes_literal (x := "*/") hrest.symm

theorem takesAllBlank_blockComment (hs : s.grammar = grammar) {x : List Char}
    (h : s.text.drop i = '/' :: '*' :: x) :
    TakesAllBlank s (fun _ => skipFrom .block x = none) blockComment i := by
  have hopen : s.Takes slashStar i [.leaf i (i + 2)] (i + 2) := takes_literal (x := "/*") h
  have hx : s.text.drop (i + 2) = x := drop_of_drop (x := ['/', '*']) h
  rcases takes_anyUntil (p := AtStarSlash) () (fun k hk => ⟨_, _, takes_starSlash hk⟩)
      (fun k hk => refuses_literal (x := "*/") hk) (i + 2) with
    ⟨rest, k, hsearch, hk, huntil⟩ | ⟨hsearch, huntil⟩
  · rw [hx] at hsearch
    have hat := hk ▸ search_pos hsearch
    have hclose := takes_starSlash hat
    have hklen : k + 2 ≤ s.text.length := by
      have hle := hat.length_le
      rw [List.length_drop] at hle
      simp only [List.length_cons, List.length_nil] at hle
      omega
    obtain ⟨ys, j, hblanks, hj, hskip, hblank⟩ :=
      takes_zeroOrMore_blank takesBlank_whitespaceChar hklen
    have hall := TakesAll.cons hopen (.cons huntil (.cons hclose hblanks.all))
    refine .inl ⟨_, j, takes_named (fun _ _ => by rw [hs]; rfl) (takes_and hall), ?_, hj, ?_,
      hblank⟩
    · have hle := huntil.tiles.le
      have hle' := hblanks.tiles.le
      omega
    · rw [h, skipBlanks_block, skipFrom_block, hsearch, ← hskip, ← List.drop_drop, hk]
      rfl
  · rw [hx] at hsearch
    refine .inr ⟨refuses_named (refuses_and_second hopen huntil), ?_⟩
    rw [skipFrom_block, hsearch]
    rfl

/-- One comment -/
def oneComment : PR := lineComment ||| blockComment

theorem refuses_oneComment (hline : s.Refuses lineComment i) (hblock : s.Refuses blockComment i) :
    s.Refuses oneComment i :=
  refuses_or (List.forall_mem_cons.mpr ⟨hline, List.forall_mem_cons.mpr ⟨hblock, nofun⟩⟩)

theorem refuses_lineComment (h : ¬ ['/', '/'] <+: s.text.drop i) : s.Refuses lineComment i :=
  refuses_named (refuses_and (refuses_literal (x := "//") h))

theorem refuses_blockComment (h : ¬ ['/', '*'] <+: s.text.drop i) : s.Refuses blockComment i :=
  refuses_named (refuses_and (refuses_literal (x := "/*") h))

theorem takesAllBlank_oneComment (hs : s.grammar = grammar) (i : Nat) :
    TakesAllBlank s NoComment oneComment i := by
  by_cases hline : ['/', '/'] <+: s.text.drop i
  · obtain ⟨x, hx⟩ := hline
    have hblock : ¬ ['/', '*'] <+: s.text.drop i := by
      rw [← hx]
      rintro ⟨y, hy⟩
      cases hy
    rcases takesAllBlank_lineComment hs hx.symm with ⟨xs, j, htakes, hrest⟩ | ⟨hrefuses, hskip⟩
    · exact .inl ⟨xs, j, takes_or_first htakes, hrest⟩
    · refine .inr ⟨refuses_oneComment hrefuses (refuses_blockComment hblock), ?_⟩
      rw [← hx]
      constructor
      · rintro y ⟨⟩
        exact hskip
      · rintro y ⟨⟩
  · by_cases hblock : ['/', '*'] <+: s.text.drop i
    · obtain ⟨x, hx⟩ := hblock
      rcases takesAllBlank_blockComment hs hx.symm with ⟨xs, j, htakes, hrest⟩ | ⟨hrefuses, hskip⟩
      · exact .inl ⟨xs, j, takes_or_second (refuses_lineComment hline) htakes, hrest⟩
      · refine .inr ⟨refuses_oneComment (refuses_lineComment hline) hrefuses, ?_⟩
        rw [← hx]
        constructor
        · rintro y ⟨⟩
        · rintro y ⟨⟩
          exact hskip
    · refine .inr ⟨refuses_oneComment (refuses_lineComment hline) (refuses_blockComment hblock), ?_⟩
      constructor
      · intro x hx
        exact absurd ⟨x, hx.symm⟩ hline
      · intro x hx
        exact absurd ⟨x, hx.symm⟩ hblock

/-- From a comment on, all comments and blanks are taken. -/
theorem takes_comments (hs : s.grammar = grammar) {xs : IRs ItemType} {j : Nat}
    (h : s.Takes oneComment i xs j) (hj : j ≤ s.text.length) :
    ∃ ys k, s.Takes comments i ys k ∧ j ≤ k ∧ k ≤ s.text.length ∧
      skipBlanks (s.text.drop j) = skipBlanks (s.text.drop k) ∧
        skipBlanks (s.text.drop k) = s.text.drop k := by
  obtain ⟨ys, k, hmore, hk, hskip, hcomment⟩ := repeats_blank
    (fun i => (takesAllBlank_oneComment hs i).takesBlank) (s.text.length - j) j (by omega) hj
  have hblank : NoBlank (s.text.drop k) := by
    have hfirst := (takesAllBlank_oneComment hs i).noBlank h
    clear h hskip hj hk
    induction hmore with
    | stop _ => exact hfirst
    | turn hturn _ ih => exact ih hcomment ((takesAllBlank_oneComment hs _).noBlank hturn)
  have hzeroOrMore : s.Takes (zeroOrMore oneComment) j ys k := takes_zeroOrMore hmore
  exact ⟨_, k, takes_named (fun _ _ => by rw [hs]; rfl)
    (takes_anon (takes_and (.cons h hzeroOrMore.all))), hzeroOrMore.tiles.le, hk, hskip,
    skipBlanks_eq_self hblank hcomment⟩

theorem takesBlank_comments (hs : s.grammar = grammar) (i : Nat) :
    TakesBlank s NoComment comments i := by
  rcases takesAllBlank_oneComment hs i with ⟨xs, j, htakes, hlt, hj, hskip, -⟩ | ⟨hrefuses, hq⟩
  · obtain ⟨ys, k, hall, hjk, hk, hskip', -⟩ := takes_comments hs htakes hj
    exact .inl ⟨ys, k, hall, hlt.trans_le hjk, hk, hskip.trans hskip'⟩
  · exact .inr ⟨refuses_named (refuses_anon (refuses_and hrefuses)), hq⟩

theorem takesBlank_blankOrComments (hs : s.grammar = grammar) (i : Nat) :
    TakesBlank s (fun y => NoBlank y ∧ NoComment y) (whitespaceChar ||| comments) i := by
  rcases takesBlank_whitespaceChar (s := s) i with ⟨xs, j, htakes, hrest⟩ | ⟨hblank, hnoBlank⟩
  · exact .inl ⟨xs, j, takes_or_first htakes, hrest⟩
  · rcases takesBlank_comments hs i with ⟨xs, j, htakes, hrest⟩ | ⟨hcomment, hnoComment⟩
    · exact .inl ⟨xs, j, takes_or_second hblank htakes, hrest⟩
    · refine .inr ⟨refuses_or ?_, hnoBlank, hnoComment⟩
      exact List.forall_mem_cons.mpr ⟨hblank, List.forall_mem_cons.mpr ⟨hcomment, nofun⟩⟩

/-- Optional white space ends where nothing blank comes. -/
theorem takes_eatWhite (hs : s.grammar = grammar) (hi : i ≤ s.text.length) :
    ∃ xs j, s.Takes eatWhite i xs j ∧ j ≤ s.text.length ∧
      s.text.drop j = skipBlanks (s.text.drop i) := by
  -- what may be white space
  have hsome : ∀ {xs k}, s.Takes (whitespaceChar ||| doubleSlash ||| slashStar) i xs k →
      ∃ xs j, s.Takes eatWhite i xs j ∧ j ≤ s.text.length ∧
        s.text.drop j = skipBlanks (s.text.drop i) := by
    intro xs k htakes
    obtain ⟨ys, j, hwhite, hj, hskip, hblank, hcomment⟩ :=
      takes_zeroOrMore_blank (takesBlank_blankOrComments hs) hi
    refine ⟨_, j, takes_anon (takes_or_second (refuses_not htakes)
      (takes_named (fun _ _ => by rw [hs]; rfl) hwhite)), hj, ?_⟩
    rw [hskip, skipBlanks_eq_self hblank hcomment]
  rcases takesBlank_whitespaceChar (s := s) i with ⟨xs, j, htakes, -⟩ | ⟨hblank, hnoBlank⟩
  · exact hsome (takes_or_first htakes)
  · by_cases hline : ['/', '/'] <+: s.text.drop i
    · obtain ⟨x, hx⟩ := hline
      exact hsome (takes_or_second hblank (takes_literal (x := "//") hx.symm))
    · have hrefuses : s.Refuses doubleSlash i := refuses_literal (x := "//") hline
      by_cases hblock : ['/', '*'] <+: s.text.drop i
      · obtain ⟨x, hx⟩ := hblock
        refine hsome (takes_or [doubleSlash] hblank ?_ (takes_literal (x := "/*") hx.symm))
        exact List.forall_mem_cons.mpr ⟨hrefuses, nofun⟩
      · refine ⟨[], i, takes_anon (takes_or_first (takes_not (refuses_or ?_))), hi, ?_⟩
        · exact List.forall_mem_cons.mpr ⟨hblank, List.forall_mem_cons.mpr ⟨hrefuses,
            List.forall_mem_cons.mpr ⟨refuses_literal (x := "/*") hblock, nofun⟩⟩⟩
        · refine (skipBlanks_eq_self hnoBlank ⟨?_, ?_⟩).symm
          · intro x hx
            exact absurd ⟨x, hx.symm⟩ hline
          · intro x hx
            exact absurd ⟨x, hx.symm⟩ hblock

/-! ## Directives -/

/-- What comes behind the first end of line that has no backslash before it -/
def behindLine : Char → List Char → Option (List Char)
  | _, [] => none
  | before, c :: x => if c = '\n' ∧ before ≠ backslash then some x else behindLine c x

/-- From a `#` the parser takes one logical line and the blanks behind it, and it fails where there
is no end of line. -/
def TakesOneLine (text : List Char) (irsAtEnd : Bool) (i : Nat) (x : List Char) : Prop :=
  match behindLine '#' x with
  | some rest => ∃ xs j, Answers (body grammar text irsAtEnd) (.parse hash i) (.ok (xs, j)) ∧
      text.drop j = skipBlanks rest
  | none => ∃ e, Answers (body grammar text irsAtEnd) (.parse hash i) (.error e)

/-- Two characters that end a line -/
def EndsLine (y : List Char) : Prop := ∃ c x, y = c :: '\n' :: x ∧ c ≠ backslash

instance : DecidablePred EndsLine
  | [] => isFalse (by rintro ⟨_, _, h, -⟩; cases h)
  | [_] => isFalse (by rintro ⟨_, _, h, -⟩; cases h)
  | c :: d :: x =>
    decidable_of_iff (d = '\n' ∧ c ≠ backslash) (by
      constructor
      · rintro ⟨rfl, h⟩
        exact ⟨c, x, rfl, h⟩
      · rintro ⟨_, _, h, hc⟩
        cases h
        exact ⟨rfl, hc⟩)

/-- What the parser looks for is the end of the line whose first character is the one behind the
`#`. -/
theorem search_endsLine (c : Char) (x : List Char) :
    (search EndsLine (c :: x)).map (List.drop 2) = behindLine c x := by
  induction x generalizing c with
  | nil => rfl
  | cons d x ih =>
    rw [search, behindLine]
    by_cases h : d = '\n' ∧ c ≠ backslash
    · rw [if_pos h, if_pos ⟨c, x, by rw [h.1], h.2⟩]
      rfl
    · rw [if_neg h, if_neg, ih]
      rintro ⟨_, _, heq, hc⟩
      cases heq
      exact h ⟨rfl, hc⟩

/-- What the parser leaves: what is behind the line that starts behind the `#`. -/
def behindHash : List Char → Option (List Char)
  | [] => none
  | c :: x => behindLine c x

theorem search_behindHash (x : List Char) :
    (search EndsLine x).map (List.drop 2) = behindHash x := by
  cases x with
  | nil => rfl
  | cons c x => exact search_endsLine c x

theorem takes_endsLine {k : Nat} (h : EndsLine (s.text.drop k)) :
    ∃ ys k', s.Takes (parseAnyCharExcept [backslash] + parseOneOfChars ['\n']) k ys k' := by
  obtain ⟨c, x, hk, hc⟩ := h
  have hchar : s.Takes (parseAnyCharExcept [backslash]) k [.leaf k (k + 1)] (k + 1) :=
    takes_anyCharExcept hk fun hmem => hc (List.mem_singleton.mp hmem)
  have hnewline : s.Takes (parseOneOfChars ['\n']) (k + 1) [.leaf (k + 1) (k + 2)] (k + 2) :=
    takes_oneOfChars (drop_of_drop (x := [c]) hk) (.head _)
  exact ⟨_, _, takes_and (.cons hchar hnewline.all)⟩

theorem refuses_endsLine {k : Nat} (h : ¬ EndsLine (s.text.drop k)) :
    s.Refuses (parseAnyCharExcept [backslash] + parseOneOfChars ['\n']) k := by
  rcases hk : s.text.drop k with _ | ⟨c, x⟩
  · exact refuses_and (refuses_anyCharExcept fun c hc => by rw [hk] at hc; cases hc)
  by_cases hc : c = backslash
  · refine refuses_and (refuses_anyCharExcept fun d hd => ?_)
    rw [hk] at hd
    cases hd
    exact List.mem_singleton.mpr hc
  · have hchar : s.Takes (parseAnyCharExcept [backslash]) k [.leaf k (k + 1)] (k + 1) :=
      takes_anyCharExcept hk fun hmem => hc (List.mem_singleton.mp hmem)
    refine refuses_and_second hchar (refuses_oneOfChars fun d hd hmem => h ?_)
    have hrest : s.text.drop (k + 1) = x := drop_of_drop (x := [c]) hk
    rw [hrest] at hd
    obtain ⟨y, rfl⟩ : ∃ y, x = d :: y := ⟨x.tail, List.eq_cons_of_mem_head? hd⟩
    exact ⟨c, y, by rw [hk, List.mem_singleton.mp hmem], hc⟩

theorem answers_hash (irsAtEnd : Bool) {x : List Char} (h : text.drop i = '#' :: x)
    (hcolumn : column text i = 1) :
    (∃ rest, behindHash x = some rest ∧ ∃ xs j,
      Answers (body grammar text irsAtEnd) (.parse hash i) (.ok (xs, j)) ∧
        text.drop j = skipBlanks rest) ∨
    behindHash x = none ∧
      ∃ e, Answers (body grammar text irsAtEnd) (.parse hash i) (.error e) := by
  rw [← body_parsing]
  have hhash : (parsing text irsAtEnd).Takes parseHash i [.leaf i (i + 1)] (i + 1) :=
    takes_hash h hcolumn
  have hx : text.drop (i + 1) = x := drop_of_drop (x := ['#']) h
  rcases takes_anyUntil (s := parsing text irsAtEnd) () (fun k => takes_endsLine)
      (fun k => refuses_endsLine) (i + 1) with ⟨rest, k, hsearch, hk, huntil⟩ | ⟨hsearch, huntil⟩
  · change search EndsLine (text.drop (i + 1)) = _ at hsearch
    rw [hx] at hsearch
    obtain ⟨c, y, rfl, -⟩ := search_pos hsearch
    have hchar : (parsing text irsAtEnd).Takes parseAnyChar k [.leaf k (k + 1)] (k + 1) :=
      takes_anyChar hk
    have hrest : text.drop (k + 1) = '\n' :: y := drop_of_drop (x := [c]) hk
    obtain ⟨xs, j, hwhite, -, hj⟩ := takes_eatWhite (s := parsing text irsAtEnd) rfl
      (lt_length_of_drop (s := parsing text irsAtEnd) hrest).le
    have hall := TakesAll.cons hhash (.cons huntil (.cons hchar hwhite.all))
    refine .inl ⟨y, ?_, _, j, (takes_named (fun _ _ => rfl) (takes_and hall)).parse, ?_⟩
    · rw [← search_behindHash, hsearch]
      rfl
    · rw [← skipBlanks_blank (c := '\n') (by decide), ← hrest]
      exact hj
  · change search EndsLine (text.drop (i + 1)) = _ at hsearch
    rw [hx] at hsearch
    refine .inr ⟨?_, (refuses_named (refuses_and_second hhash huntil)).parse⟩
    rw [← search_behindHash, hsearch]
    rfl

theorem behindHash_eq {x : List Char} (h : x.head? ≠ some '\n') :
    behindHash x = behindLine '#' x := by
  cases x with
  | nil => rfl
  | cons c x =>
    have hc : c ≠ '\n' := fun hc => h (congrArg some hc)
    rw [behindHash, behindLine, if_neg fun hand => hc hand.1]

/-- A directive that is more than a `#` is one logical line. Behind a `#` alone the next logical
line is taken too, which makes no difference if it is blank. -/
theorem hash_takes_one_line {x : List Char} (h : text.drop i = '#' :: x)
    (hcolumn : column text i = 1) : TakesOneLine text irsAtEnd i x ↔
      ∀ y, x = '\n' :: y →
        ∃ rest, behindLine '\n' y = some rest ∧ skipBlanks rest = skipBlanks y := by
  have hanswers := answers_hash irsAtEnd h hcolumn
  by_cases hx : x.head? = some '\n'
  · obtain ⟨y, rfl⟩ : ∃ y, x = '\n' :: y := ⟨x.tail, List.eq_cons_of_mem_head? hx⟩
    have hline : behindLine '#' ('\n' :: y) = some y := if_pos ⟨rfl, by decide⟩
    rw [TakesOneLine, hline]
    rcases hanswers with ⟨rest, hrest, xs, j, hr, hj⟩ | ⟨hrest, e, he⟩
    · constructor
      · rintro ⟨xs', j', hr', hj'⟩ _ ⟨⟩
        cases hr.unique hr'
        exact ⟨rest, hrest, hj.symm.trans hj'⟩
      · intro hcond
        obtain ⟨rest', hrest', hskip⟩ := hcond y rfl
        cases hrest.symm.trans hrest'
        exact ⟨xs, j, hr, hj.trans hskip⟩
    · refine iff_of_false ?_ fun hcond => ?_
      · rintro ⟨xs, j, hr, -⟩
        cases he.unique hr
      · obtain ⟨rest', hrest', -⟩ := hcond y rfl
        cases hrest.symm.trans hrest'
  · refine iff_of_true ?_ ?_
    · rw [TakesOneLine, ← behindHash_eq hx]
      rcases hanswers with ⟨rest, hrest, hr⟩ | ⟨hrest, he⟩
      · rw [hrest]
        exact hr
      · rw [hrest]
        exact he
    · rintro y rfl
      exact absurd rfl hx

theorem hash_takes_one_line_define :
    TakesOneLine "#define X 1\nint x;\n".toList false 0 "define X 1\nint x;\n".toList :=
  (hash_takes_one_line rfl rfl).mpr fun _ h => nomatch h

/-- A `#` alone takes the line behind it. -/
theorem not_hash_takes_one_line :
    ¬ ∀ (text : List Char) (irsAtEnd : Bool) (i : Nat) (x : List Char),
      text.drop i = '#' :: x → column text i = 1 → TakesOneLine text irsAtEnd i x := by
  intro h
  have hone := h "#\nint x;\n".toList false 0 "\nint x;\n".toList rfl rfl
  have hstart : "#\nint x;\n".toList.drop 0 = '#' :: "\nint x;\n".toList := rfl
  rcases answers_hash false hstart rfl with ⟨rest, hrest, xs, j, hr, hj⟩ | ⟨hrest, -⟩
  · cases hrest
    obtain ⟨xs', j', hr', hj'⟩ := hone
    cases hr.unique hr'
    exact absurd (hj.symm.trans hj') (by decide)
  · cases hrest

end Urnest.Hcp.Cpp
