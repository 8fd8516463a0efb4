import Urnest.Hcp.Reading

/-!
# What was read

The other direction of `Takes`: from the success of a parser, that of its parts. `Goes` keeps
where the parser began and where it stopped, and forgets the items, as well as what has been
looked at only. A production is read backwards with one rule for each class.
-/

namespace Urnest.Hcp

open Lib Lib.Asking

variable {ι τ ν : Type}

namespace Parsing

variable (s : Parsing ι τ ν)

/-- The parser has gone from one position to another. -/
def Goes (p : Parser ι τ ν) (i j : Nat) : Prop := ∃ xs, Answers s.body (.parse_ p i) (.ok (xs, j))

/-- One after the other -/
inductive GoesAll : List (Parser ι τ ν) → Nat → Nat → Prop where
  | nil (i : Nat) : GoesAll [] i i
  | cons {p : Parser ι τ ν} {ps : List (Parser ι τ ν)} {i k j : Nat} :
    s.Goes p i k → GoesAll ps k j → GoesAll (p :: ps) i j

/-- Any number of times -/
inductive GoesMany (p : Parser ι τ ν) : Nat → Nat → Prop where
  | nil (i : Nat) : GoesMany p i i
  | cons {i k j : Nat} : s.Goes p i k → GoesMany p k j → GoesMany p i j

variable {s} {p x : Parser ι τ ν} {i j : Nat} {id : ι}

/-! ## Calls -/

theorem goes_of_parse {v : PV τ} (h : Answers s.body (.parse p i) (.ok v)) : s.Goes p i v.2 := by
  obtain ⟨r, hr, hrest⟩ := runs_ask.mp (answers_iff.mp h)
  cases r with
  | error e => cases runs_ret.mp hrest
  | ok w =>
    cases runs_ret.mp hrest
    exact ⟨_, hr⟩

theorem Goes.runs (h : s.Goes p i j) : ∃ xs, Runs s.body (s.parseClass p i) (.ok (xs, j)) := by
  obtain ⟨xs, hxs⟩ := h
  exact ⟨xs, answers_iff.mp hxs⟩

/-! ## Characters -/

theorem parseChar_eq_ok {text : List Char} {unexpected : Char → Option Cause} {v : PV τ}
    (h : (parseChar text i unexpected : ParseResult ι τ ν) = .ok v) :
    ∃ c rest, text.drop i = c :: rest ∧ unexpected c = none ∧ v.2 = i + 1 := by
  rw [parseChar] at h
  cases hc : text[i]? with
  | none =>
    rw [hc] at h
    cases h
  | some c =>
    rw [hc] at h
    obtain ⟨hlt, hget⟩ := List.getElem?_eq_some_iff.mp hc
    cases hunexpected : unexpected c with
    | some cause =>
      simp only [hunexpected] at h
      cases h
    | none =>
      simp only [hunexpected] at h
      cases h
      exact ⟨c, _, hget ▸ List.drop_eq_getElem_cons hlt, hunexpected, rfl⟩

theorem goes_oneOfChars {chars : List Char} (h : s.Goes (.oneOfChars id chars) i j) :
    ∃ c rest, s.text.drop i = c :: rest ∧ c ∈ chars ∧ j = i + 1 := by
  obtain ⟨xs, hxs⟩ := h.runs
  obtain ⟨c, rest, hdrop, hc, hj⟩ := parseChar_eq_ok (runs_ret.mp hxs).symm
  refine ⟨c, rest, hdrop, ?_, hj⟩
  by_contra hnot
  rw [if_neg hnot] at hc
  cases hc

theorem goes_charInRange {min max : Char} (h : s.Goes (.charInRange id min max) i j) :
    ∃ c rest, s.text.drop i = c :: rest ∧ min ≤ c ∧ c ≤ max ∧ j = i + 1 := by
  obtain ⟨xs, hxs⟩ := h.runs
  obtain ⟨c, rest, hdrop, hc, hj⟩ := parseChar_eq_ok (runs_ret.mp hxs).symm
  have hnot : ¬ (c < min ∨ max < c) := by
    intro hout
    rw [if_pos hout] at hc
    cases hc
  obtain ⟨hmin, hmax⟩ := not_or.mp hnot
  exact ⟨c, rest, hdrop, Char.not_lt.mp hmin, Char.not_lt.mp hmax, hj⟩

theorem mismatch_eq_ok {text : List Char} {start : Nat} (x : List Char) {v : PV τ}
    (h : (mismatch text start x i : ParseResult ι τ ν) = .ok v) :
    text.drop i = x ++ text.drop (i + x.length) ∧ v.2 = i + x.length := by
  induction x generalizing i with
  | nil =>
    cases h
    exact ⟨rfl, rfl⟩
  | cons c x ih =>
    rw [mismatch] at h
    cases hc : text[i]? with
    | none =>
      rw [hc] at h
      cases h
    | some got =>
      rw [hc] at h
      obtain ⟨hlt, hget⟩ := List.getElem?_eq_some_iff.mp hc
      by_cases heq : c = got
      · simp only [heq, ↓reduceIte] at h
        obtain ⟨hdrop, hv⟩ := ih h
        rw [List.length_cons, Nat.add_comm x.length, ← Nat.add_assoc]
        refine ⟨?_, hv⟩
        rw [List.drop_eq_getElem_cons hlt, hget, hdrop, heq, List.cons_append]
      · simp only [heq, ↓reduceIte] at h
        cases h

theorem goes_literal {x : String} (h : s.Goes (.literal id x) i j) :
    s.text.drop i = x.toList ++ s.text.drop j ∧ j = i + x.toList.length := by
  obtain ⟨xs, hxs⟩ := h.runs
  obtain ⟨hdrop, hj⟩ := mismatch_eq_ok _ (runs_ret.mp hxs).symm
  rw [show j = _ from hj]
  exact ⟨hdrop, rfl⟩

/-! ## One after the other -/

theorem goesAll_of_runs {ps : List (Parser ι τ ν)} {v w : PV τ}
    (h : Runs s.body (parseAnd s.irsAtEnd ps v) (.ok w)) : s.GoesAll ps v.2 w.2 := by
  induction ps generalizing v with
  | nil =>
    cases runs_ret.mp h
    exact .nil _
  | cons p ps ih =>
    obtain ⟨r, hr, hrest⟩ := runs_ask.mp h
    cases r with
    | error e =>
      have heq := runs_ret.mp hrest
      cases heq
    | ok br =>
      have hterms : Runs s.body (parseAnd s.irsAtEnd ps (v.1 ++ br.1, br.2)) (.ok w) := hrest
      have hgoes := ih hterms
      exact .cons (goes_of_parse hr) hgoes

theorem goes_and {rest : List (Parser ι τ ν)} (h : s.Goes (.and id p rest) i j) :
    s.GoesAll (p :: rest) i j := by
  obtain ⟨xs, hxs⟩ := h.runs
  exact goesAll_of_runs hxs

theorem goesAll_cons {ps : List (Parser ι τ ν)} (h : s.GoesAll (p :: ps) i j) :
    ∃ k, s.Goes p i k ∧ s.GoesAll ps k j := by
  cases h with
  | cons hp hps => exact ⟨_, hp, hps⟩

theorem goesAll_nil (h : s.GoesAll [] i j) : j = i := by
  cases h
  rfl

theorem goesAll_single (h : s.GoesAll [p] i j) : s.Goes p i j := by
  obtain ⟨k, hp, hnil⟩ := goesAll_cons h
  exact goesAll_nil hnil ▸ hp

/-! ## Alternatives -/

theorem goes_of_parseOr {ps : List (Parser ι τ ν)} {e : Exception ι τ ν} {v : PV τ}
    (h : Runs s.body (parseOr i ps e) (.ok v)) : ∃ q ∈ ps, s.Goes q i v.2 := by
  induction ps generalizing e with
  | nil => cases runs_ret.mp h
  | cons p ps ih =>
    obtain ⟨r, hr, hrest⟩ := runs_ask.mp h
    cases r with
    | error e' =>
      obtain ⟨q, hq, hgoes⟩ := ih hrest
      exact ⟨q, List.mem_cons_of_mem _ hq, hgoes⟩
    | ok w =>
      cases runs_ret.mp hrest
      exact ⟨p, List.mem_cons_self .., goes_of_parse hr⟩

theorem goes_or {rest : List (Parser ι τ ν)} (h : s.Goes (.or id p rest) i j) :
    ∃ q ∈ p :: rest, s.Goes q i j := by
  obtain ⟨xs, hxs⟩ := h.runs
  obtain ⟨r, hr, hrest⟩ := runs_ask.mp hxs
  cases r with
  | error e =>
    obtain ⟨q, hq, hgoes⟩ := goes_of_parseOr hrest
    exact ⟨q, List.mem_cons_of_mem _ hq, hgoes⟩
  | ok w =>
    cases runs_ret.mp hrest
    exact ⟨p, List.mem_cons_self .., goes_of_parse hr⟩

theorem goes_not (h : s.Goes (.not id x) i j) : j = i := by
  obtain ⟨xs, hxs⟩ := h.runs
  obtain ⟨r, hr, hrest⟩ := runs_ask.mp hxs
  cases r with
  | error e =>
    cases runs_ret.mp hrest
    rfl
  | ok w => cases runs_ret.mp hrest

theorem goes_optional (h : s.Goes (.optional id x) i j) : j = i ∨ s.Goes x i j := by
  obtain ⟨xs, hxs⟩ := h.runs
  obtain ⟨r, hr, hrest⟩ := runs_ask.mp hxs
  cases r with
  | error e =>
    cases runs_ret.mp hrest
    exact .inl rfl
  | ok w =>
    cases runs_ret.mp hrest
    exact .inr (goes_of_parse hr)

/-! ## Loops -/

/-- What is answered in a loop has gone through its turns. -/
def LoopGoes (s : Parsing ι τ ν) : Query ι τ ν → ParseResult ι τ ν → Prop
  | .zeroOrMore x result, r | .specificUntil x _ result, r =>
    ∀ v, r = .ok v → s.GoesMany x result.2 v.2
  | _, _ => True

theorem goesMany_of_eval {n : Nat} {q : Query ι τ ν} {r : ParseResult ι τ ν}
    (h : eval s.body n q = some r) : LoopGoes s q r := by
  induction n generalizing q r with
  | zero => cases h
  | succ n ih =>
    cases q with
    | zeroOrMore x result =>
      rintro v rfl
      obtain ⟨r, hr, hrest⟩ := Option.bind_eq_some_iff.mp (show Asking.run _ (s.body _) = _ from h)
      cases r with
      | error e =>
        cases hrest
        exact .nil _
      | ok w =>
        obtain ⟨r', hr', hrest⟩ := Option.bind_eq_some_iff.mp hrest
        cases hrest
        exact .cons (goes_of_parse ⟨n, hr⟩) (ih hr' v rfl)
    | specificUntil match_ x result =>
      rintro v rfl
      obtain ⟨r, hr, hrest⟩ := Option.bind_eq_some_iff.mp (show Asking.run _ (s.body _) = _ from h)
      cases r with
      | ok w =>
        cases hrest
        exact .nil _
      | error e =>
        obtain ⟨r', hr', hrest⟩ := Option.bind_eq_some_iff.mp hrest
        cases r' with
        | error e' => cases hrest
        | ok w =>
          obtain ⟨r'', hr'', hrest⟩ := Option.bind_eq_some_iff.mp hrest
          cases hrest
          exact .cons ⟨_, n, hr'⟩ (ih hr'' v rfl)
    | _ => trivial

theorem goes_zeroOrMore (h : s.Goes (.zeroOrMore id x) i j) : s.GoesMany x i j := by
  obtain ⟨xs, hxs⟩ := h.runs
  obtain ⟨r, ⟨n, hr⟩, hrest⟩ := runs_ask.mp hxs
  cases runs_ret.mp hrest
  exact goesMany_of_eval hr _ rfl

theorem goes_specificUntil {match_ : Parser ι τ ν} (h : s.Goes (.specificUntil id match_ x) i j) :
    s.GoesMany match_ i j := by
  obtain ⟨xs, hxs⟩ := h.runs
  obtain ⟨r, ⟨n, hr⟩, hrest⟩ := runs_ask.mp hxs
  cases runs_ret.mp hrest
  exact goesMany_of_eval hr _ rfl

/-! ## Names -/

theorem goes_named {type : τ} {name : String} (h : s.Goes (.named id type name x) i j) :
    s.Goes x i j := by
  obtain ⟨xs, hxs⟩ := h.runs
  obtain ⟨r, hr, hrest⟩ := runs_ask.mp hxs
  cases r with
  | error e => cases runs_ret.mp hrest
  | ok w =>
    have hmade := runs_ret.mp hrest
    have hj : j = w.2 := by
      obtain ⟨_ | ⟨first, rest⟩, k⟩ := w <;> simp only [makeNamed] at hmade <;> split at hmade
      · cases hmade
      · cases hmade
        rfl
      · cases hmade
      · cases hmade
        rfl
    rw [hj]
    exact goes_of_parse hr

theorem goes_anon {name : String} (h : s.Goes (.anon id name x) i j) : s.Goes x i j := by
  obtain ⟨xs, hxs⟩ := h.runs
  obtain ⟨r, hr, hrest⟩ := runs_ask.mp hxs
  cases runs_ret.mp hrest
  exact goes_of_parse hr

theorem goes_reference {target : String} {name : ν} (hown : s.own name = none)
    (h : s.Goes (.reference id target name) i j) : s.Goes (s.grammar.parserOf name) i j := by
  obtain ⟨xs, hxs⟩ := h.runs
  simp only [parseClass, hown] at hxs
  obtain ⟨r, hr, hrest⟩ := runs_ask.mp hxs
  cases runs_ret.mp hrest
  exact ⟨xs, hr⟩

theorem goes_own {target : String} {name : ν} {ownParse : Nat → ParseResult ι τ ν}
    (hown : s.own name = some ownParse) (h : s.Goes (.reference id target name) i j) :
    ∃ xs, ownParse i = .ok (xs, j) := by
  obtain ⟨xs, hxs⟩ := h.runs
  simp only [parseClass, hown] at hxs
  exact ⟨xs, (runs_ret.mp hxs).symm⟩

end Parsing

end Urnest.Hcp
