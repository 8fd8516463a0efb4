import Urnest.Hcp.Derivation

/-!
# What a parser reads

A grammar outside parser.cc brings parsers of its own, and may bring classes of its own, which
are given by their `parse_` (`Parsing.own`). `Takes` says that a parser succeeds at a position,
with which items and where it stops, and `Refuses` that it fails. There is a rule for each
class, so that both are shown for a grammar by going through its productions: what comes
behind is never tried again, and so the rule of an `or` asks that the terms in front refuse.
-/

namespace Urnest.Hcp

open Lib Lib.Asking

/-- What is checked of each of some characters -/
theorem forall_mem_of_all {x : List Char} {p : Char → Prop} [DecidablePred p]
    (h : x.all (fun c => decide (p c)) = true) : ∀ c ∈ x, p c :=
  fun c hc => of_decide_eq_true (List.all_eq_true.mp h c hc)

variable {ι τ ν : Type}

/-- A grammar, a text to parse, and the `parse_` of those parsers with a name that are of
classes of their own. -/
structure Parsing (ι τ ν : Type) where
  grammar : Grammar ι τ ν
  own : ν → Option (Nat → ParseResult ι τ ν)
  text : List Char
  irsAtEnd : Bool

namespace Parsing

variable (s : Parsing ι τ ν)

def parseClass (p : Parser ι τ ν) (position : Nat) : Member ι τ ν (ParseResult ι τ ν) :=
  match p with
  | .reference _ _ name =>
    match s.own name with
    | some ownParse => return ownParse position
    | none => parse_ (s.grammar.parserOf name) position
  | p => Hcp.parseClass s.grammar s.text s.irsAtEnd p position

def body : Query ι τ ν → Member ι τ ν (ParseResult ι τ ν)
  | .parse_ p position => s.parseClass p position
  | q => Hcp.body s.grammar s.text s.irsAtEnd q

/-- The parser succeeds. -/
structure Takes (p : Parser ι τ ν) (i : Nat) (xs : IRs τ) (j : Nat) : Prop where
  answers : Answers s.body (.parse_ p i) (.ok (xs, j))
  tiles : Tiles i xs j

/-- The parser fails. -/
def Refuses (p : Parser ι τ ν) (i : Nat) : Prop := ∃ e, Answers s.body (.parse_ p i) (.error e)

/-- The parsers succeed one after the other. -/
inductive TakesAll : List (Parser ι τ ν) → Nat → IRs τ → Nat → Prop where
  | nil (i : Nat) : TakesAll [] i [] i
  | cons {p : Parser ι τ ν} {ps : List (Parser ι τ ν)} {i k j : Nat} {xs ys : IRs τ} :
    s.Takes p i xs k → TakesAll ps k ys j → TakesAll (p :: ps) i (xs ++ ys) j

/-- So many turns of a loop, and the state of affairs at its end. -/
inductive Repeats (turn : Nat → IRs τ → Nat → Prop) (stop : Nat → Prop) : Nat → IRs τ → Nat → Prop where
  | stop {i : Nat} : stop i → Repeats turn stop i [] i
  | turn {i k j : Nat} {xs ys : IRs τ} : turn i xs k → Repeats turn stop k ys j →
    Repeats turn stop i (xs ++ ys) j

variable {s} {p x : Parser ι τ ν} {i j k : Nat} {xs ys : IRs τ}

/-! ## Calls -/

theorem Takes.parse (h : s.Takes p i xs j) : Answers s.body (.parse p i) (.ok (xs, j)) :=
  answers_iff.mpr (runs_ask.mpr ⟨_, h.answers, runs_ret.mpr rfl⟩)

theorem Refuses.parse (h : s.Refuses p i) : ∃ e, Answers s.body (.parse p i) (.error e) := by
  obtain ⟨e, he⟩ := h
  exact ⟨_, answers_iff.mpr (runs_ask.mpr ⟨_, he, runs_ret.mpr rfl⟩)⟩

theorem Takes.of_runs (h : Runs s.body (s.parseClass p i) (.ok (xs, j))) (htiles : Tiles i xs j) :
    s.Takes p i xs j := ⟨answers_iff.mpr h, htiles⟩

theorem Refuses.of_runs {e : Exception ι τ ν} (h : Runs s.body (s.parseClass p i) (.error e)) :
    s.Refuses p i := ⟨e, answers_iff.mpr h⟩

/-! ## Characters -/

theorem getElem?_of_drop {α : Type} {text rest : List α} {c : α} (h : text.drop i = c :: rest) :
    text[i]? = some c := by
  rw [← List.head?_drop, h, List.head?_cons]

theorem drop_of_drop {α : Type} {text x rest : List α} (h : text.drop i = x ++ rest) :
    text.drop (i + x.length) = rest := by
  rw [← List.drop_drop, h, List.drop_left]

theorem parseChar_ok {text rest : List Char} {c : Char} {unexpected : Char → Option Cause}
    (h : text.drop i = c :: rest) (hc : unexpected c = none) :
    (parseChar text i unexpected : ParseResult ι τ ν) = .ok ([.leaf i (i + 1)], i + 1) := by
  rw [parseChar, getElem?_of_drop h]
  simp only [hc]

theorem parseChar_error {text : List Char} (unexpected : Char → Option Cause)
    (h : ∀ c ∈ (text.drop i).head?, unexpected c ≠ none) :
    ∃ e, (parseChar text i unexpected : ParseResult ι τ ν) = .error e := by
  rw [List.head?_drop] at h
  rw [parseChar]
  cases hc : text[i]? with
  | none => exact ⟨_, rfl⟩
  | some c =>
    obtain ⟨cause, hcause⟩ := Option.ne_none_iff_exists'.mp (h c hc)
    simp only [hcause]
    exact ⟨_, rfl⟩

theorem takes_oneOfChars {id : ι} {chars rest : List Char} {c : Char}
    (h : s.text.drop i = c :: rest) (hc : c ∈ chars) :
    s.Takes (.oneOfChars id chars) i [.leaf i (i + 1)] (i + 1) :=
  .of_runs (runs_ret.mpr (parseChar_ok h (if_pos hc)).symm) (.single (Nat.le_succ i))

theorem refuses_oneOfChars {id : ι} {chars : List Char}
    (h : ∀ c ∈ (s.text.drop i).head?, c ∉ chars) : s.Refuses (.oneOfChars id chars) i := by
  obtain ⟨e, he⟩ := parseChar_error (ι := ι) (τ := τ) (ν := ν)
    (fun c => if c ∈ chars then none else some (.notOneOf c chars)) fun c hc => by
      rw [if_neg (h c hc)]
      exact Option.some_ne_none _
  exact .of_runs (runs_ret.mpr he.symm)

theorem takes_charInRange {id : ι} {min max c : Char} {rest : List Char}
    (h : s.text.drop i = c :: rest) (hmin : min ≤ c) (hmax : c ≤ max) :
    s.Takes (.charInRange id min max) i [.leaf i (i + 1)] (i + 1) :=
  .of_runs (runs_ret.mpr (parseChar_ok h (if_neg fun hc =>
    hc.elim (Char.not_lt.mpr hmin) (Char.not_lt.mpr hmax))).symm) (.single (Nat.le_succ i))

theorem refuses_charInRange {id : ι} {min max : Char}
    (h : ∀ c ∈ (s.text.drop i).head?, c < min ∨ max < c) : s.Refuses (.charInRange id min max) i := by
  obtain ⟨e, he⟩ := parseChar_error (ι := ι) (τ := τ) (ν := ν)
    (fun c => if c < min ∨ max < c then some (.notInRange c min max) else none) fun c hc => by
      rw [if_pos (h c hc)]
      exact Option.some_ne_none _
  exact .of_runs (runs_ret.mpr he.symm)

theorem mismatch_ok {text rest : List Char} {start : Nat} (x : List Char)
    (h : text.drop i = x ++ rest) :
    (mismatch text start x i : ParseResult ι τ ν) =
      .ok ([.leaf start (i + x.length)], i + x.length) := by
  induction x generalizing i with
  | nil => rfl
  | cons c x ih =>
    have hrest : text.drop (i + 1) = x ++ rest := drop_of_drop (x := [c]) h
    rw [mismatch, getElem?_of_drop h]
    simp only [↓reduceIte]
    rw [ih hrest, List.length_cons, Nat.add_right_comm, Nat.add_assoc]

theorem mismatch_error {text : List Char} (start : Nat) (x : List Char)
    (h : ¬ x <+: text.drop i) : ∃ e, (mismatch text start x i : ParseResult ι τ ν) = .error e := by
  induction x generalizing i with
  | nil => exact absurd List.nil_prefix h
  | cons c x ih =>
    rw [mismatch]
    cases hc : text[i]? with
    | none => exact ⟨_, rfl⟩
    | some got =>
      obtain ⟨hlt, hgot⟩ := List.getElem?_eq_some_iff.mp hc
      have hdrop : text.drop i = got :: text.drop (i + 1) := hgot ▸ List.drop_eq_getElem_cons hlt
      by_cases heq : c = got
      · simp only [heq, ↓reduceIte]
        refine ih fun hstarts => h ?_
        rw [hdrop, heq]
        exact List.cons_prefix_cons.mpr ⟨rfl, hstarts⟩
      · simp only [heq, ↓reduceIte]
        exact ⟨_, rfl⟩

theorem takes_literal {id : ι} {x : String} {rest : List Char}
    (h : s.text.drop i = x.toList ++ rest) :
    s.Takes (.literal id x) i [.leaf i (i + x.toList.length)] (i + x.toList.length) :=
  .of_runs (runs_ret.mpr (mismatch_ok _ h).symm) (.single (Nat.le_add_right i _))

theorem refuses_literal {id : ι} {x : String} (h : ¬ x.toList <+: s.text.drop i) :
    s.Refuses (.literal id x) i := by
  obtain ⟨e, he⟩ := mismatch_error (ι := ι) (τ := τ) (ν := ν) i x.toList h
  exact .of_runs (runs_ret.mpr he.symm)

theorem takes_anyChar {id : ι} {rest : List Char} {c : Char} (h : s.text.drop i = c :: rest) :
    s.Takes (.anyChar id) i [.leaf i (i + 1)] (i + 1) :=
  .of_runs (runs_ret.mpr (parseChar_ok h rfl).symm) (.single (Nat.le_succ i))

theorem takes_anyCharExcept {id : ι} {chars rest : List Char} {c : Char}
    (h : s.text.drop i = c :: rest) (hc : c ∉ chars) :
    s.Takes (.anyCharExcept id chars) i [.leaf i (i + 1)] (i + 1) :=
  .of_runs (runs_ret.mpr (parseChar_ok h (if_neg hc)).symm) (.single (Nat.le_succ i))

theorem refuses_anyCharExcept {id : ι} {chars : List Char}
    (h : ∀ c ∈ (s.text.drop i).head?, c ∈ chars) : s.Refuses (.anyCharExcept id chars) i := by
  obtain ⟨e, he⟩ := parseChar_error (ι := ι) (τ := τ) (ν := ν)
    (fun c => if c ∈ chars then some (.isOneOf c chars) else none) fun c hc => by
      rw [if_pos (h c hc)]
      exact Option.some_ne_none _
  exact .of_runs (runs_ret.mpr he.symm)

theorem takes_hash {id : ι} {rest : List Char} (h : s.text.drop i = '#' :: rest)
    (hcolumn : column s.text i = 1) : s.Takes (.hash id) i [.leaf i (i + 1)] (i + 1) :=
  .of_runs (runs_ret.mpr (parseChar_ok h (by simp only [hcolumn]; rfl)).symm)
    (.single (Nat.le_succ i))

/-! ## One after the other -/

theorem TakesAll.tiles {ps : List (Parser ι τ ν)} (h : s.TakesAll ps i xs j) : Tiles i xs j := by
  induction h with
  | nil i => exact .nil i
  | cons hp _ ih => exact hp.tiles.append ih

theorem TakesAll.append {ps qs : List (Parser ι τ ν)} (h : s.TakesAll ps i xs k)
    (h' : s.TakesAll qs k ys j) : s.TakesAll (ps ++ qs) i (xs ++ ys) j := by
  induction h with
  | nil i => exact h'
  | cons hp _ ih =>
    rw [List.append_assoc]
    exact .cons hp (ih h')

theorem Takes.all (h : s.Takes p i xs j) : s.TakesAll [p] i xs j := by
  have hall := TakesAll.cons h (.nil j)
  rwa [List.append_nil] at hall

theorem TakesAll.runs {ps : List (Parser ι τ ν)} (h : s.TakesAll ps i xs j) (before : IRs τ) :
    Runs s.body (parseAnd s.irsAtEnd ps (before, i)) (.ok (before ++ xs, j)) := by
  induction h generalizing before with
  | nil i =>
    rw [List.append_nil]
    exact runs_ret.mpr rfl
  | @cons p ps i k j xs ys hp _ ih =>
    rw [← List.append_assoc]
    exact runs_ask.mpr ⟨_, hp.parse, ih (before ++ xs)⟩

theorem takes_and {id : ι} {rest : List (Parser ι τ ν)} (h : s.TakesAll (p :: rest) i xs j) :
    s.Takes (.and id p rest) i xs j := .of_runs (h.runs []) h.tiles

theorem TakesAll.runs_refused {ps : List (Parser ι τ ν)} (h : s.TakesAll ps i xs j)
    (hp : s.Refuses p j) (qs : List (Parser ι τ ν)) (before : IRs τ) :
    ∃ e, Runs s.body (parseAnd s.irsAtEnd (ps ++ p :: qs) (before, i)) (.error e) := by
  induction h generalizing before with
  | nil i =>
    obtain ⟨e, he⟩ := hp.parse
    exact ⟨_, runs_ask.mpr ⟨_, he, runs_ret.mpr rfl⟩⟩
  | @cons q ps i k j xs ys hq _ ih =>
    obtain ⟨e, he⟩ := ih hp (before ++ xs)
    exact ⟨e, runs_ask.mpr ⟨_, hq.parse, he⟩⟩

theorem refuses_and {id : ι} {rest : List (Parser ι τ ν)} (h : s.Refuses p i) :
    s.Refuses (.and id p rest) i := by
  obtain ⟨e, he⟩ := (TakesAll.nil i).runs_refused h rest []
  exact .of_runs he

/-- The second term fails. -/
theorem refuses_and_second {id : ι} {rest : List (Parser ι τ ν)} (h : s.Takes p i xs j)
    (hx : s.Refuses x j) : s.Refuses (.and id p (x :: rest)) i := by
  obtain ⟨e, he⟩ := h.all.runs_refused hx rest []
  exact .of_runs he

/-! ## Alternatives -/

theorem runs_parseOr {ps qs : List (Parser ι τ ν)} (hps : ∀ q ∈ ps, s.Refuses q i)
    (h : s.Takes p i xs j) (e : Exception ι τ ν) :
    Runs s.body (parseOr i (ps ++ p :: qs) e) (.ok (xs, j)) := by
  induction ps generalizing e with
  | nil => exact runs_ask.mpr ⟨_, h.parse, runs_ret.mpr rfl⟩
  | cons q ps ih =>
    obtain ⟨hq, hps⟩ := List.forall_mem_cons.mp hps
    obtain ⟨e', he'⟩ := hq.parse
    exact runs_ask.mpr ⟨_, he', ih hps _⟩

theorem takes_or_first {id : ι} {rest : List (Parser ι τ ν)} (h : s.Takes p i xs j) :
    s.Takes (.or id p rest) i xs j :=
  .of_runs (runs_ask.mpr ⟨_, h.parse, runs_ret.mpr rfl⟩) h.tiles

/-- The terms in front fail. -/
theorem takes_or {id : ι} {first : Parser ι τ ν} (ps : List (Parser ι τ ν)) {qs : List (Parser ι τ ν)}
    (hfirst : s.Refuses first i) (hps : ∀ q ∈ ps, s.Refuses q i) (h : s.Takes p i xs j) :
    s.Takes (.or id first (ps ++ p :: qs)) i xs j := by
  obtain ⟨e, he⟩ := hfirst.parse
  exact .of_runs (runs_ask.mpr ⟨_, he, runs_parseOr hps h e⟩) h.tiles

theorem takes_or_second {id : ι} {first : Parser ι τ ν} {rest : List (Parser ι τ ν)}
    (hfirst : s.Refuses first i) (h : s.Takes p i xs j) :
    s.Takes (.or id first (p :: rest)) i xs j :=
  takes_or [] hfirst (fun _ hq => nomatch hq) h

theorem refuses_or {id : ι} {first : Parser ι τ ν} {rest : List (Parser ι τ ν)}
    (h : ∀ q ∈ first :: rest, s.Refuses q i) : s.Refuses (.or id first rest) i := by
  obtain ⟨hfirst, hrest⟩ := List.forall_mem_cons.mp h
  have hall : ∀ e, ∃ e', Runs s.body (parseOr i rest e) (.error e') := by
    clear hfirst h
    induction rest with
    | nil => exact fun e => ⟨e, runs_ret.mpr rfl⟩
    | cons q rest ih =>
      intro e
      obtain ⟨hq, hrest⟩ := List.forall_mem_cons.mp hrest
      obtain ⟨e', he'⟩ := hq.parse
      obtain ⟨e'', he''⟩ := ih hrest (furthest e e')
      exact ⟨e'', runs_ask.mpr ⟨_, he', he''⟩⟩
  obtain ⟨e, he⟩ := hfirst.parse
  obtain ⟨e', he'⟩ := hall e
  exact .of_runs (runs_ask.mpr ⟨_, he, he'⟩)

theorem takes_not {id : ι} (h : s.Refuses x i) : s.Takes (.not id x) i [] i := by
  obtain ⟨e, he⟩ := h.parse
  exact .of_runs (runs_ask.mpr ⟨_, he, runs_ret.mpr rfl⟩) (.nil i)

theorem refuses_not {id : ι} (h : s.Takes x i xs j) : s.Refuses (.not id x) i :=
  .of_runs (runs_ask.mpr ⟨_, h.parse, runs_ret.mpr rfl⟩)

theorem takes_optional {id : ι} (h : s.Takes x i xs j) : s.Takes (.optional id x) i xs j :=
  .of_runs (runs_ask.mpr ⟨_, h.parse, runs_ret.mpr rfl⟩) h.tiles

theorem takes_nothing {id : ι} (h : s.Refuses x i) : s.Takes (.optional id x) i [] i := by
  obtain ⟨e, he⟩ := h.parse
  exact .of_runs (runs_ask.mpr ⟨_, he, runs_ret.mpr rfl⟩) (.nil i)

/-! ## Loops -/

theorem Repeats.tiles {turn : Nat → IRs τ → Nat → Prop} {stop : Nat → Prop}
    (hturn : ∀ {i xs j}, turn i xs j → Tiles i xs j) (h : Repeats turn stop i xs j) :
    Tiles i xs j := by
  induction h with
  | stop => exact .nil _
  | turn hx _ ih => exact (hturn hx).append ih

theorem takes_zeroOrMore {id : ι} (h : Repeats (s.Takes x) (s.Refuses x) i xs j) :
    s.Takes (.zeroOrMore id x) i xs j := by
  have hall : ∀ before, Answers s.body (.zeroOrMore x (before, i)) (.ok (before ++ xs, j)) := by
    induction h with
    | @stop i hx =>
      intro before
      obtain ⟨e, he⟩ := hx.parse
      rw [List.append_nil]
      exact answers_iff.mpr (runs_ask.mpr ⟨_, he, runs_ret.mpr rfl⟩)
    | @turn i k j xs ys hx _ ih =>
      intro before
      rw [← List.append_assoc]
      exact answers_iff.mpr (runs_ask.mpr ⟨_, hx.parse, runs_ask.mpr ⟨_, ih (before ++ xs), runs_ret.mpr rfl⟩⟩)
  exact .of_runs (runs_ask.mpr ⟨_, hall [], runs_ret.mpr rfl⟩) (h.tiles Takes.tiles)

/-- The first of the rests of a text for which `p` is true -/
def search (p : List Char → Prop) [DecidablePred p] : List Char → Option (List Char)
  | [] => if p [] then some [] else none
  | c :: x => if p (c :: x) then some (c :: x) else search p x

theorem search_of_pos {p : List Char → Prop} [DecidablePred p] {y : List Char} (h : p y) :
    search p y = some y := by
  cases y <;> rw [search, if_pos h]

theorem search_pos {p : List Char → Prop} [DecidablePred p] {y rest : List Char}
    (h : search p y = some rest) : p rest := by
  induction y with
  | nil =>
    rw [search] at h
    split_ifs at h with hp
    cases h
    exact hp
  | cons c y ih =>
    rw [search] at h
    split_ifs at h with hp
    · cases h
      exact hp
    · exact ih h

theorem answers_anyUntil {p : List Char → Prop} [DecidablePred p]
    (htakes : ∀ k, p (s.text.drop k) → ∃ ys k', s.Takes x k ys k')
    (hrefuses : ∀ k, ¬ p (s.text.drop k) → s.Refuses x k) {y : List Char} (start : Nat)
    (hy : s.text.drop i = y) :
    (∃ rest j, search p y = some rest ∧ s.text.drop j = rest ∧ i ≤ j ∧
      Answers s.body (.anyUntil x start i) (.ok ([.leaf start j], j))) ∨
    search p y = none ∧ ∃ e, Answers s.body (.anyUntil x start i) (.error e) := by
  induction y generalizing i with
  | nil =>
    by_cases hp : p []
    · obtain ⟨ys, k, hx⟩ := htakes i (hy ▸ hp)
      refine .inl ⟨[], i, search_of_pos hp, hy, le_rfl, ?_⟩
      exact answers_iff.mpr (runs_ask.mpr ⟨_, hx.answers, runs_ret.mpr rfl⟩)
    · obtain ⟨e, he⟩ := hrefuses i (hy ▸ hp)
      have hend : Answers s.body (.anyUntil x start i) (EndOfInput i) := by
        refine answers_iff.mpr (runs_ask.mpr ⟨_, he, ?_⟩)
        change Runs s.body (if s.text.length ≤ i then return EndOfInput i else _) _
        rw [if_pos (List.drop_eq_nil_iff.mp hy)]
        exact runs_ret.mpr rfl
      exact .inr ⟨by rw [search, if_neg hp], _, hend⟩
  | cons c y ih =>
    by_cases hp : p (c :: y)
    · obtain ⟨ys, k, hx⟩ := htakes i (hy ▸ hp)
      refine .inl ⟨c :: y, i, search_of_pos hp, hy, le_rfl, ?_⟩
      exact answers_iff.mpr (runs_ask.mpr ⟨_, hx.answers, runs_ret.mpr rfl⟩)
    · obtain ⟨e, he⟩ := hrefuses i (hy ▸ hp)
      have hlt : ¬ s.text.length ≤ i := fun hle => by simp [List.drop_eq_nil_iff.mpr hle] at hy
      have hstep : ∀ r, Answers s.body (.anyUntil x start (i + 1)) r →
          Answers s.body (.anyUntil x start i) r := by
        intro r hr
        refine answers_iff.mpr (runs_ask.mpr ⟨_, he, ?_⟩)
        change Runs s.body (if s.text.length ≤ i then return EndOfInput i else _) _
        rw [if_neg hlt]
        exact runs_ask.mpr ⟨_, hr, runs_ret.mpr rfl⟩
      rw [search, if_neg hp]
      rcases ih (drop_of_drop (x := [c]) hy) with ⟨rest, j, hsearch, hj, hle, hr⟩ | ⟨hsearch, e, he⟩
      · exact .inl ⟨rest, j, hsearch, hj, (Nat.le_succ i).trans hle, hstep _ hr⟩
      · exact .inr ⟨hsearch, e, hstep _ he⟩

/-- What is read up to the first place where another parser succeeds -/
theorem takes_anyUntil {p : List Char → Prop} [DecidablePred p] (id : ι)
    (htakes : ∀ k, p (s.text.drop k) → ∃ ys k', s.Takes x k ys k')
    (hrefuses : ∀ k, ¬ p (s.text.drop k) → s.Refuses x k) (i : Nat) :
    (∃ rest j, search p (s.text.drop i) = some rest ∧ s.text.drop j = rest ∧
      s.Takes (.anyUntil id x) i [.leaf i j] j) ∨
    search p (s.text.drop i) = none ∧ s.Refuses (.anyUntil id x) i := by
  rcases answers_anyUntil htakes hrefuses i rfl with ⟨rest, j, hsearch, hj, hle, hr⟩ | ⟨hsearch, e, he⟩
  · exact .inl ⟨rest, j, hsearch, hj,
      .of_runs (runs_ask.mpr ⟨_, hr, runs_ret.mpr rfl⟩) (.single hle)⟩
  · exact .inr ⟨hsearch, .of_runs (runs_ask.mpr ⟨_, he, runs_ret.mpr rfl⟩)⟩

/-- A turn of `ParseSpecificUntil`: its end is not there yet. -/
structure UntilTurn (s : Parsing ι τ ν) (match_ x : Parser ι τ ν) (i : Nat) (xs : IRs τ) (j : Nat) :
    Prop where
  refuses : s.Refuses x i
  takes : s.Takes match_ i xs j

theorem takes_specificUntil {id : ι} {match_ : Parser ι τ ν}
    (h : Repeats (UntilTurn s match_ x) (fun i => ∃ ys k, s.Takes x i ys k) i xs j) :
    s.Takes (.specificUntil id match_ x) i xs j := by
  have hall : ∀ before,
      Answers s.body (.specificUntil match_ x (before, i)) (.ok (before ++ xs, j)) := by
    induction h with
    | @stop i hx =>
      intro before
      obtain ⟨ys, k, hx⟩ := hx
      rw [List.append_nil]
      exact answers_iff.mpr (runs_ask.mpr ⟨_, hx.answers, runs_ret.mpr rfl⟩)
    | @turn i k j xs ys hx _ ih =>
      intro before
      obtain ⟨e, he⟩ := hx.refuses
      rw [← List.append_assoc]
      exact answers_iff.mpr (runs_ask.mpr ⟨_, he, runs_ask.mpr ⟨_, hx.takes.answers,
        runs_ask.mpr ⟨_, ih (before ++ xs), runs_ret.mpr rfl⟩⟩⟩)
  exact .of_runs (runs_ask.mpr ⟨_, hall [], runs_ret.mpr rfl⟩)
    (h.tiles fun hturn => hturn.takes.tiles)

/-! ## Names -/

theorem tiles_composite {type : τ} (h : Tiles i xs j) : Tiles i [Item.composite type i xs] j := by
  cases xs with
  | nil =>
    cases h
    exact .node (.single (Nat.le_refl i)) (.nil i)
  | cons first rest => exact .node h (.nil j)

/-- The constructor of the item does not throw. -/
theorem takes_named {id : ι} {type : τ} {name : String}
    (hconstruct : ∀ first rest, s.grammar.construct type first rest = none)
    (h : s.Takes x i xs j) : s.Takes (.named id type name x) i [Item.composite type i xs] j := by
  refine .of_runs (runs_ask.mpr ⟨_, h.parse, runs_ret.mpr ?_⟩) (tiles_composite h.tiles)
  cases xs <;> simp only [makeNamed, hconstruct, Item.composite]

theorem refuses_named {id : ι} {type : τ} {name : String} (h : s.Refuses x i) :
    s.Refuses (.named id type name x) i := by
  obtain ⟨e, he⟩ := h.parse
  exact .of_runs (runs_ask.mpr ⟨_, he, runs_ret.mpr rfl⟩)

theorem takes_anon {id : ι} {name : String} (h : s.Takes x i xs j) :
    s.Takes (.anon id name x) i xs j :=
  .of_runs (runs_ask.mpr ⟨_, h.parse, runs_ret.mpr rfl⟩) h.tiles

theorem refuses_anon {id : ι} {name : String} (h : s.Refuses x i) : s.Refuses (.anon id name x) i := by
  obtain ⟨e, he⟩ := h.parse
  exact .of_runs (runs_ask.mpr ⟨_, he, runs_ret.mpr rfl⟩)

theorem takes_reference {id : ι} {target : String} {name : ν} (hown : s.own name = none)
    (h : s.Takes (s.grammar.parserOf name) i xs j) : s.Takes (.reference id target name) i xs j := by
  refine .of_runs ?_ h.tiles
  simp only [parseClass, hown]
  exact runs_ask.mpr ⟨_, h.answers, runs_ret.mpr rfl⟩

theorem takes_own {id : ι} {target : String} {name : ν} {ownParse : Nat → ParseResult ι τ ν}
    (hown : s.own name = some ownParse) (h : ownParse i = .ok (xs, j)) (htiles : Tiles i xs j) :
    s.Takes (.reference id target name) i xs j := by
  refine .of_runs ?_ htiles
  simp only [parseClass, hown]
  exact runs_ret.mpr h.symm

theorem refuses_own {id : ι} {target : String} {name : ν} {ownParse : Nat → ParseResult ι τ ν}
    {e : Exception ι τ ν} (hown : s.own name = some ownParse) (h : ownParse i = .error e) :
    s.Refuses (.reference id target name) i := by
  refine .of_runs (e := e) ?_
  simp only [parseClass, hown]
  exact runs_ret.mpr h.symm

end Parsing

end Urnest.Hcp
