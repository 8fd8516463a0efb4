import Mathlib
import Urnest.Hcp.Tiling

/-!
# Parsing ends

The loops of the classes do not look whether they get on, so whether they end is a matter of
the grammar. `nullable` says of a parser that it may succeed without reading anything, and
`rank` how deep the calls at one position may be nested from it on: behind a term that is
not nullable a parser is at another position. `ends` is the check of every loop.

Where a grammar passes (`WellFormed`), every question leads to ones further on in the text,
or of a lower level at the same position (`below_body`), so that parsing
ends.
-/

namespace Urnest.Hcp

open Lib Lib.Asking

variable {ι τ ν : Type}

namespace Parser

/-! ## The check -/

section

variable (mayBeEmpty : ν → Bool)

mutual

/-- May the parser succeed without reading anything? -/
def nullable : Parser ι τ ν → Bool
  | anyChar _ | oneOfChars _ _ | anyCharExcept _ _ | charInRange _ _ _ | identifier _ | hash _
  | rawString _ _ => false
  | literal _ x => x.toList.isEmpty
  | endOfFile _ _ | optional _ _ | zeroOrMore _ _ | not _ _ | anyUntil _ _ | specificUntil _ _ _
  | balanced _ _ _ => true
  | and _ first rest => first.nullable && allNullable rest
  | or _ first rest => first.nullable || anyNullable rest
  | nToM _ n m x => n == 0 || m == 0 || x.nullable
  | nonEmptyListOf _ x _ => x.nullable
  | named _ _ _ x | anon _ _ x | wrapped _ _ x => x.nullable
  | reference _ _ name => mayBeEmpty name

def allNullable : List (Parser ι τ ν) → Bool
  | [] => true
  | x :: xs => x.nullable && allNullable xs

def anyNullable : List (Parser ι τ ν) → Bool
  | [] => false
  | x :: xs => x.nullable || anyNullable xs

end

variable (rankOf : ν → Nat) (balancedRank : Nat)

mutual

/-- How deep calls at one position may be nested. `balancedRank` is that of the parsers of
literals and comments. -/
def rank : Parser ι τ ν → Nat
  | anyChar _ | oneOfChars _ _ | anyCharExcept _ _ | charInRange _ _ _ | identifier _ | hash _
  | literal _ _ | endOfFile _ _ => 0
  | rawString _ o => o.rank + 2
  | optional _ x | zeroOrMore _ x | not _ x | anyUntil _ x | nToM _ _ _ x | named _ _ _ x
  | anon _ _ x | wrapped _ _ x => x.rank + 1
  | and _ first rest =>
    max first.rank (if first.nullable mayBeEmpty then frontRank rest else 0) + 1
  | or _ first rest => max first.rank (maxRank rest) + 1
  | specificUntil _ match_ x => max match_.rank x.rank + 1
  | balanced _ until_ _ => max until_.rank balancedRank + 1
  | nonEmptyListOf _ x moreIndicator => max x.rank moreIndicator.rank + 1
  | reference _ _ name => rankOf name + 1

/-- The rank of terms up to the first that is not nullable. -/
def frontRank : List (Parser ι τ ν) → Nat
  | [] => 0
  | x :: xs => max x.rank (if x.nullable mayBeEmpty then frontRank xs else 0)

def maxRank : List (Parser ι τ ν) → Nat
  | [] => 0
  | x :: xs => max x.rank (maxRank xs)

end

mutual

/-- Every loop in the parser gets on with each of its turns. -/
def ends : Parser ι τ ν → Bool
  | anyChar _ | oneOfChars _ _ | anyCharExcept _ _ | charInRange _ _ _ | identifier _ | hash _
  | literal _ _ | endOfFile _ _ | reference _ _ _ => true
  | rawString _ x | optional _ x | not _ x | anyUntil _ x | nToM _ _ _ x | named _ _ _ x
  | anon _ _ x | wrapped _ _ x | balanced _ x _ => x.ends
  | zeroOrMore _ x => !x.nullable mayBeEmpty && x.ends
  | and _ first rest | or _ first rest => first.ends && allEnd rest
  | specificUntil _ match_ x => !match_.nullable mayBeEmpty && match_.ends && x.ends
  | nonEmptyListOf _ x moreIndicator =>
    !(x.nullable mayBeEmpty && moreIndicator.nullable mayBeEmpty) && x.ends && moreIndicator.ends

def allEnd : List (Parser ι τ ν) → Bool
  | [] => true
  | x :: xs => x.ends && allEnd xs

end

end

end Parser

/-- A grammar in which parsing ends: `mayBeEmpty`, `rankOf` and `balancedRank` bound what they
say. -/
structure WellFormed (g : Grammar ι τ ν) (mayBeEmpty : ν → Bool) (rankOf : ν → Nat)
    (balancedRank : Nat) : Prop where
  nullable_le : ∀ name, (g.parserOf name).nullable mayBeEmpty = true → mayBeEmpty name = true
  rank_le : ∀ name, (g.parserOf name).rank mayBeEmpty rankOf balancedRank ≤ rankOf name
  parserOf_ends : ∀ name, (g.parserOf name).ends mayBeEmpty = true
  c_char_ends : g.c_char.ends mayBeEmpty = true
  literal_ends : ∀ p ∈ [g.stringLiteral, g.rawStringLiteral, g.comments],
    p.ends mayBeEmpty = true ∧ p.nullable mayBeEmpty = false ∧
      p.rank mayBeEmpty rankOf balancedRank ≤ balancedRank

/-! ## Getting on -/

variable {g : Grammar ι τ ν} {text : List Char} {irsAtEnd : Bool} {mayBeEmpty : ν → Bool}

/-- A parser that is not nullable gets on where it succeeds. -/
def Advances (mayBeEmpty : ν → Bool) (n : Nat) : Query ι τ ν → ParseResult ι τ ν → Prop
  | .parse p position, r | .parse_ p position, r => position ≤ n → ∀ v, r = .ok v →
    p.nullable mayBeEmpty = false → position < v.2
  | .nonEmptyListOf x _ result, r => result.2 ≤ n → ∀ v, r = .ok v →
    result.2 ≤ v.2 ∧ (x.nullable mayBeEmpty = false → result.2 < v.2)
  | _, _ => True

/-- Sound, and gets on. -/
def Moves (mayBeEmpty : ν → Bool) (text : List Char) (q : Query ι τ ν) (r : ParseResult ι τ ν) :
    Prop :=
  Sound text q r ∧ Advances mayBeEmpty text.length q r

section Calls

variable {α : Type} {post : α → Prop} {f : ParseResult ι τ ν → Member ι τ ν α}

theorem ends_parse_moves {x : Parser ι τ ν} {position : Nat} (hle : position ≤ text.length)
    (hok : ∀ v, position ≤ v.2 → v.2 ≤ text.length →
      (x.nullable mayBeEmpty = false → position < v.2) →
      (f (.ok v)).Ends (Moves mayBeEmpty text) post)
    (herror : ∀ e, (f (.error e)).Ends (Moves mayBeEmpty text) post) :
    (parse x position >>= f).Ends (Moves mayBeEmpty text) post := by
  intro r hr
  cases r with
  | ok v =>
    obtain ⟨-, hlo, hhi⟩ := hr.1 hle
    exact hok v hlo hhi (hr.2 hle v rfl)
  | error e => exact herror e

theorem ends_parse'_moves {x : Parser ι τ ν} {position : Nat} (hle : position ≤ text.length)
    (hok : ∀ v, position ≤ v.2 → v.2 ≤ text.length →
      (x.nullable mayBeEmpty = false → position < v.2) →
      (f (.ok v)).Ends (Moves mayBeEmpty text) post)
    (herror : ∀ e, (f (.error e)).Ends (Moves mayBeEmpty text) post) :
    (parse_ x position >>= f).Ends (Moves mayBeEmpty text) post := by
  intro r hr
  cases r with
  | ok v =>
    obtain ⟨⟨-, hlo, hhi⟩, -⟩ := hr.1 hle
    exact hok v hlo hhi (hr.2 hle v rfl)
  | error e => exact herror e

end Calls

theorem parseChar_eq_ok {position : Nat} {unexpected : Char → Option Cause} {v : PV τ}
    (h : (parseChar text position unexpected : ParseResult ι τ ν) = .ok v) : position < v.2 := by
  rw [parseChar] at h
  rcases hc : text[position]? with _ | c
  · simp only [hc] at h
    cases h
  · simp only [hc] at h
    rcases hcause : unexpected c with _ | cause
    · simp only [hcause] at h
      cases h
      exact Nat.lt_succ_self position
    · simp only [hcause] at h
      cases h

theorem mismatch_eq_ok {start position : Nat} {x : List Char} {v : PV τ}
    (h : (mismatch text start x position : ParseResult ι τ ν) = .ok v) :
    v.2 = position + x.length := by
  induction x generalizing position with
  | nil =>
    cases h
    rfl
  | cons wanted x ih =>
    rw [mismatch] at h
    rcases hc : text[position]? with _ | got
    · simp only [hc] at h
      cases h
    · simp only [hc] at h
      split_ifs at h
      · rw [ih h, List.length_cons, Nat.add_assoc, Nat.add_comm 1]
      · cases h

theorem parseIdentifier_eq_ok {position : Nat} {v : PV τ}
    (h : (parseIdentifier text position : ParseResult ι τ ν) = .ok v) : position < v.2 := by
  rw [parseIdentifier] at h
  rcases hc : text[position]? with _ | c
  · simp only [hc] at h
    cases h
  · simp only [hc] at h
    split_ifs at h
    · cases h
      exact Nat.lt_add_right _ (Nat.lt_succ_self position)
    · cases h

theorem makeNamed_eq_ok {type : τ} {position : Nat} {a v : PV τ}
    (h : (makeNamed g type position a : ParseResult ι τ ν) = .ok v) : v.2 = a.2 := by
  obtain ⟨items, end_⟩ := a
  rw [makeNamed] at h
  cases items with
  | nil =>
    simp only at h
    rcases hc : g.construct type (.leaf position position) [] with _ | what
    · simp only [hc] at h
      cases h
      rfl
    · simp only [hc] at h
      cases h
  | cons first rest =>
    simp only at h
    rcases hc : g.construct type first rest with _ | what
    · simp only [hc] at h
      cases h
      rfl
    · simp only [hc] at h
      cases h

/-- What is passed on. -/
def Passes (position : Nat) (nullable : Bool) (r : ParseResult ι τ ν) : Prop :=
  ∀ v, r = .ok v → nullable = false → position < v.2

theorem passes_error {position : Nat} {nullable : Bool} {e : Exception ι τ ν} :
    Passes position nullable (.error e) := fun _ h => nomatch h

theorem passes_true {position : Nat} {r : ParseResult ι τ ν} : Passes position true r :=
  fun _ _ h => nomatch h

theorem advances_parseRawString {id : ι} {position i : Nat} (hposition : position ≤ i)
    (hle : i ≤ text.length) : (parseRawString text id position i : Member ι τ ν _).Ends
      (Moves mayBeEmpty text) (Passes position false) := by
  have hdelimeter := delimeter_le (ι := ι) (τ := τ) (ν := ν) (n := 16) hle
  rw [parseRawString]
  rcases hj : (delimeter text 16 i : Except (Exception ι τ ν) Nat) with e | j
  · exact passes_error
  · rw [hj] at hdelimeter
    obtain ⟨hij, hj⟩ := hdelimeter
    refine ends_parse'_moves hj (fun rr hrr hrr' _ => ?_) fun e => passes_error
    refine ends_parse'_moves hrr' (fun rrr hrrr hrrr' hadvance => ?_) fun e => passes_error
    have hliteral : (Parser.literal id (String.ofList (')' :: slice text i j
        ++ [doubleQuoteChar])) : Parser ι τ ν).nullable mayBeEmpty = false := by
      rw [Parser.nullable, String.toList_ofList]
      rfl
    intro v hv _
    cases hv
    exact Nat.lt_of_le_of_lt (Nat.le_trans hposition (Nat.le_trans hij hrr)) (hadvance hliteral)

theorem advances_parseAnd (terms : List (Parser ι τ ν)) {result : PV τ}
    (hle : result.2 ≤ text.length) : (parseAnd irsAtEnd terms result).Ends (Moves mayBeEmpty text)
      fun r => ∀ v, r = .ok v → result.2 ≤ v.2 ∧
        (Parser.allNullable mayBeEmpty terms = false → result.2 < v.2) := by
  induction terms generalizing result with
  | nil =>
    intro v hv
    cases hv
    exact ⟨Nat.le_refl _, fun h => by cases h⟩
  | cons term terms ih =>
    rw [parseAnd]
    refine ends_parse_moves hle (fun br hlo hhi hadvance => ?_) fun e => fun _ h => by cases h
    refine (@ih (result.1 ++ br.1, br.2) hhi).mono fun r hr v hv => ?_
    obtain ⟨hle', hlt'⟩ := hr v hv
    refine ⟨Nat.le_trans hlo hle', fun hnull => ?_⟩
    rw [Parser.allNullable, Bool.and_eq_false_iff] at hnull
    rcases hnull with hterm | hterms
    · exact Nat.lt_of_lt_of_le (hadvance hterm) hle'
    · exact Nat.lt_of_le_of_lt hlo (hlt' hterms)

theorem advances_parseOr {position : Nat} (terms : List (Parser ι τ ν)) (e : Exception ι τ ν)
    (hle : position ≤ text.length) : (parseOr position terms e).Ends (Moves mayBeEmpty text)
      (Passes position (Parser.anyNullable mayBeEmpty terms)) := by
  induction terms generalizing e with
  | nil => exact passes_error
  | cons term terms ih =>
    rw [parseOr]
    refine ends_parse_moves hle (fun r _ _ hadvance => ?_) fun e' => (ih _).mono fun r hr v hv h => ?_
    · intro v hv hnull
      cases hv
      exact hadvance (Bool.or_eq_false_iff.mp hnull).1
    · exact hr v hv (Bool.or_eq_false_iff.mp h).2

theorem advances_parseNToM {n : Nat} {x : Parser ι τ ν} (k count : Nat) {result : PV τ}
    (hle : result.2 ≤ text.length) : (parseNToM n x k count result).Ends (Moves mayBeEmpty text)
      fun r => ∀ v, r = .ok v → result.2 ≤ v.2 ∧
        (k ≠ 0 → count < n → x.nullable mayBeEmpty = false → result.2 < v.2) := by
  induction k generalizing count result with
  | zero =>
    intro v hv
    cases hv
    exact ⟨Nat.le_refl _, fun h => absurd rfl h⟩
  | succ k ih =>
    rw [parseNToM]
    refine ends_parse_moves hle (fun r hlo hhi hadvance => ?_) fun e => ?_
    · refine (@ih (count + 1) (result.1 ++ r.1, r.2) hhi).mono fun r' hr' v hv => ?_
      obtain ⟨hle', -⟩ := hr' v hv
      exact ⟨Nat.le_trans hlo hle', fun _ _ hx => Nat.lt_of_lt_of_le (hadvance hx) hle'⟩
    · simp only
      split_ifs with hcount
      · intro v hv
        cases hv
        exact ⟨Nat.le_refl _, fun _ hlt => absurd hcount (Nat.not_le_of_lt hlt)⟩
      · exact fun _ h => by cases h

theorem advances_parseClass (hempty : ∀ name, (g.parserOf name).nullable mayBeEmpty = true →
      mayBeEmpty name = true) (p : Parser ι τ ν) {position : Nat} (hle : position ≤ text.length) :
    (parseClass g text irsAtEnd p position).Ends (Moves mayBeEmpty text)
      (Passes position (p.nullable mayBeEmpty)) := by
  cases p with
  | anyChar | oneOfChars | anyCharExcept | charInRange | hash =>
    exact fun v hv _ => parseChar_eq_ok hv
  | literal id x =>
    intro v hv hnull
    rw [mismatch_eq_ok hv]
    refine Nat.lt_add_of_pos_right (List.length_pos_of_ne_nil fun hx => ?_)
    rw [Parser.nullable, hx] at hnull
    cases hnull
  | identifier => exact fun v hv _ => parseIdentifier_eq_ok hv
  | endOfFile => exact passes_true
  | rawString id o =>
    refine ends_parse_moves hle (fun r hlo hhi _ => ?_) fun e => passes_error
    exact advances_parseRawString hlo hhi
  | optional id x => exact (ends_of_forall (fun r => passes_true) _)
  | zeroOrMore id x => exact (ends_of_forall (fun r => passes_true) _)
  | not id term => exact (ends_of_forall (fun r => passes_true) _)
  | anyUntil id x => exact (ends_of_forall (fun r => passes_true) _)
  | specificUntil id match_ x => exact (ends_of_forall (fun r => passes_true) _)
  | balanced id until_ angles => exact (ends_of_forall (fun r => passes_true) _)
  | and id first rest =>
    refine (advances_parseAnd (first :: rest) hle).mono fun r hr v hv hnull => (hr v hv).2 ?_
    exact hnull
  | or id first rest =>
    refine ends_parse_moves hle (fun r _ _ hadvance => ?_) fun e => ?_
    · intro v hv hnull
      cases hv
      exact hadvance (Bool.or_eq_false_iff.mp hnull).1
    · exact (advances_parseOr rest e hle).mono fun r hr v hv hnull =>
        hr v hv (Bool.or_eq_false_iff.mp hnull).2
  | nToM id n m x =>
    refine (advances_parseNToM m 0 hle).mono fun r hr v hv hnull => ?_
    obtain ⟨hnm, hx⟩ := Bool.or_eq_false_iff.mp hnull
    obtain ⟨hn, hm⟩ := Bool.or_eq_false_iff.mp hnm
    exact (hr v hv).2 (of_decide_eq_false hm) (Nat.pos_of_ne_zero (of_decide_eq_false hn)) hx
  | nonEmptyListOf id x moreIndicator =>
    exact fun r hr v hv hnull => (hr.2 hle v hv).2 hnull
  | named id type name x =>
    refine ends_parse_moves hle (fun a _ _ hadvance => ?_) fun e => passes_error
    intro v hv hnull
    rw [makeNamed_eq_ok hv]
    exact hadvance hnull
  | anon id name x => exact fun r hr v hv hnull => hr.2 hle v hv hnull
  | wrapped id target x => exact fun r hr v hv hnull => hr.2 hle v hv hnull
  | reference id target name =>
    intro r hr v hv hnull
    refine hr.2 hle v hv ?_
    by_contra hname
    rw [Bool.not_eq_false] at hname
    exact absurd (hempty name hname) (by rw [show mayBeEmpty name = false from hnull]; decide)

theorem moves_body (hempty : ∀ name, (g.parserOf name).nullable mayBeEmpty = true →
      mayBeEmpty name = true) (q : Query ι τ ν) :
    (body g text irsAtEnd q).Ends (Moves mayBeEmpty text) (Moves mayBeEmpty text q) := by
  refine ((ends_body q).strengthen fun q r hr => hr.1).and ?_
  cases q with
  | parse p position =>
    refine ends_forall fun hle => ends_parse'_moves hle (fun v _ _ hadvance => ?_) fun e => ?_
    · intro v' hv' hnull
      cases hv'
      exact hadvance hnull
    · exact fun _ h => nomatch h
  | parse_ p position => exact ends_forall fun hle => advances_parseClass hempty p hle
  | zeroOrMore x result => exact ends_of_forall (fun _ => trivial) _
  | anyUntil x start end_ => exact ends_of_forall (fun _ => trivial) _
  | specificUntil match_ x result => exact ends_of_forall (fun _ => trivial) _
  | balanced until_ angles start end_ => exact ends_of_forall (fun _ => trivial) _
  | nonEmptyListOf x moreIndicator result =>
    refine ends_forall fun hle => ends_parse_moves hle (fun r hlo hhi hadvance => ?_) fun e => ?_
    · refine ends_parse_moves hhi (fun more hlo' hhi' _ => ?_) fun e => ?_
      · intro r' hr' v hv
        obtain ⟨hle', -⟩ := hr'.2 hhi' v hv
        exact ⟨Nat.le_trans hlo (Nat.le_trans hlo' hle'), fun hx =>
          Nat.lt_of_lt_of_le (hadvance hx) (Nat.le_trans hlo' hle')⟩
      · intro v hv
        cases hv
        exact ⟨hlo, hadvance⟩
    · exact fun _ h => nomatch h

end Urnest.Hcp
