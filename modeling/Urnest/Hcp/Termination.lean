import Mathlib
import Urnest.Hcp.Progress

/-!
# Questions further on

The level of a question is its position, and at the position how deep it may still go. In a
well-formed grammar each question asks such as are `Further`, so that it has an answer
(`exists_answer_of_wellFormed`) and only leads to such as are further on
(`below_of_leadsTo`).
-/

namespace Urnest.Hcp

open Lib Lib.Asking

variable {ι τ ν : Type}

/-- Further on in a text of `n` characters, or at the same position and less deep. -/
def Further (n : Nat) (a b : Nat × Nat) : Prop := b.1 < a.1 ∧ a.1 ≤ n ∨ a.1 = b.1 ∧ a.2 < b.2

theorem further_of_le {n i j k l : Nat} (hle : i ≤ j) (hn : j ≤ n) (hlt : l < k) :
    Further n (j, l) (i, k) := by
  rcases Nat.eq_or_lt_of_le hle with rfl | hij
  · exact .inr ⟨rfl, hlt⟩
  · exact .inl ⟨hij, hn⟩

theorem Further.trans {n : Nat} {a b c : Nat × Nat} (hab : Further n a b) (hbc : Further n b c) :
    Further n a c := by
  rcases hab with ⟨hab, hn⟩ | ⟨hab, hk⟩
  · rcases hbc with ⟨hbc, -⟩ | ⟨hbc, -⟩
    · exact .inl ⟨Nat.lt_trans hbc hab, hn⟩
    · exact .inl ⟨hbc ▸ hab, hn⟩
  · rcases hbc with ⟨hbc, hn⟩ | ⟨hbc, hl⟩
    · exact .inl ⟨hab ▸ hbc, hab ▸ hn⟩
    · exact .inr ⟨hab.trans hbc, Nat.lt_trans hk hl⟩

theorem further_wf (n : Nat) : WellFounded (Further n) := by
  have hlex : WellFounded (Prod.Lex (· < ·) (· < ·) : Nat × Nat → Nat × Nat → Prop) :=
    (Prod.lex Nat.lt_wfRel Nat.lt_wfRel).wf
  refine Subrelation.wf ?_ (InvImage.wf (fun a : Nat × Nat => (n - a.1, a.2)) hlex)
  rintro ⟨i, k⟩ ⟨j, l⟩ (⟨hlt, hn⟩ | ⟨rfl, hlt⟩)
  · exact Prod.Lex.left _ _ (Nat.sub_lt_sub_left (Nat.lt_of_lt_of_le hlt hn) hlt)
  · exact Prod.Lex.right _ hlt

section

variable (mayBeEmpty : ν → Bool) (rankOf : ν → Nat) (balancedRank : Nat)

def level : Query ι τ ν → Nat × Nat
  | .parse p position => (position, 3 * p.rank mayBeEmpty rankOf balancedRank + 2)
  | .parse_ p position => (position, 3 * p.rank mayBeEmpty rankOf balancedRank + 1)
  | .zeroOrMore x result => (result.2, 3 * (x.rank mayBeEmpty rankOf balancedRank + 1))
  | .anyUntil x _ end_ => (end_, 3 * (x.rank mayBeEmpty rankOf balancedRank + 1))
  | .specificUntil x y result | .nonEmptyListOf x y result =>
    (result.2, 3 * (max (x.rank mayBeEmpty rankOf balancedRank)
      (y.rank mayBeEmpty rankOf balancedRank) + 1))
  | .balanced until_ _ _ end_ =>
    (end_, 3 * (max (until_.rank mayBeEmpty rankOf balancedRank) balancedRank + 1))

/-- Within the text, and the loops in it get on. -/
def Fits (n : Nat) : Query ι τ ν → Prop
  | .parse p position | .parse_ p position => p.ends mayBeEmpty = true ∧ position ≤ n
  | .zeroOrMore x result =>
    x.ends mayBeEmpty = true ∧ x.nullable mayBeEmpty = false ∧ result.2 ≤ n
  | .anyUntil x _ end_ | .balanced x _ _ end_ => x.ends mayBeEmpty = true ∧ end_ ≤ n
  | .specificUntil match_ x result => match_.ends mayBeEmpty = true ∧
    match_.nullable mayBeEmpty = false ∧ x.ends mayBeEmpty = true ∧ result.2 ≤ n
  | .nonEmptyListOf x y result => x.ends mayBeEmpty = true ∧ y.ends mayBeEmpty = true ∧
    (x.nullable mayBeEmpty = false ∨ y.nullable mayBeEmpty = false) ∧ result.2 ≤ n

/-- Questions that fit, further on than a level. -/
def Below (n : Nat) (a : Nat × Nat) (q : Query ι τ ν) : Prop :=
  Fits mayBeEmpty n q ∧ Further n (level mayBeEmpty rankOf balancedRank q) a

end

variable {g : Grammar ι τ ν} {text : List Char} {irsAtEnd : Bool} {mayBeEmpty : ν → Bool}
  {rankOf : ν → Nat} {balancedRank : Nat} {a : Nat × Nat}

section Calls

variable {α : Type} {f : ParseResult ι τ ν → Member ι τ ν α}

theorem below_parse {x : Parser ι τ ν} {position : Nat} (hx : x.ends mayBeEmpty = true)
    (hle : position ≤ text.length)
    (hfurther : Further text.length
      (position, 3 * x.rank mayBeEmpty rankOf balancedRank + 2) a)
    (hok : ∀ v, position ≤ v.2 → v.2 ≤ text.length →
      (x.nullable mayBeEmpty = false → position < v.2) → (f (.ok v)).Descends
        (Moves mayBeEmpty text) (Below mayBeEmpty rankOf balancedRank text.length a))
    (herror : ∀ e, (f (.error e)).Descends (Moves mayBeEmpty text)
      (Below mayBeEmpty rankOf balancedRank text.length a)) :
    (parse x position >>= f).Descends (Moves mayBeEmpty text)
      (Below mayBeEmpty rankOf balancedRank text.length a) := by
  refine ⟨⟨⟨hx, hle⟩, hfurther⟩, fun r hr => ?_⟩
  cases r with
  | ok v =>
    obtain ⟨-, hlo, hhi⟩ := hr.1 hle
    exact hok v hlo hhi (hr.2 hle v rfl)
  | error e => exact herror e

theorem below_parse_ {x : Parser ι τ ν} {position : Nat} (hx : x.ends mayBeEmpty = true)
    (hle : position ≤ text.length)
    (hfurther : Further text.length
      (position, 3 * x.rank mayBeEmpty rankOf balancedRank + 1) a)
    (hok : ∀ v, position ≤ v.2 → v.2 ≤ text.length →
      (x.nullable mayBeEmpty = false → position < v.2) → (f (.ok v)).Descends
        (Moves mayBeEmpty text) (Below mayBeEmpty rankOf balancedRank text.length a))
    (herror : ∀ e, (f (.error e)).Descends (Moves mayBeEmpty text)
      (Below mayBeEmpty rankOf balancedRank text.length a)) :
    (parse_ x position >>= f).Descends (Moves mayBeEmpty text)
      (Below mayBeEmpty rankOf balancedRank text.length a) := by
  refine ⟨⟨⟨hx, hle⟩, hfurther⟩, fun r hr => ?_⟩
  cases r with
  | ok v =>
    obtain ⟨⟨-, hlo, hhi⟩, -⟩ := hr.1 hle
    exact hok v hlo hhi (hr.2 hle v rfl)
  | error e => exact herror e

end Calls

/-! ## The classes -/

theorem below_parseAnd {position r : Nat} {terms : List (Parser ι τ ν)}
    (hterms : Parser.allEnd mayBeEmpty terms = true) (result : PV τ) (hlo : position ≤ result.2)
    (hhi : result.2 ≤ text.length)
    (hfront : result.2 = position →
      Parser.frontRank mayBeEmpty rankOf balancedRank terms ≤ r) :
    (parseAnd irsAtEnd terms result).Descends (Moves mayBeEmpty text)
      (Below mayBeEmpty rankOf balancedRank text.length (position, 3 * (r + 1) + 1)) := by
  induction terms generalizing result with
  | nil => trivial
  | cons term terms ih =>
    obtain ⟨hterm, hterms⟩ := (Bool.and_eq_true _ _).mp hterms
    have hfurther : Further text.length
        (result.2, 3 * term.rank mayBeEmpty rankOf balancedRank + 2) (position, 3 * (r + 1) + 1) := by
      rcases Nat.eq_or_lt_of_le hlo with heq | hlt
      · have hrank := Nat.le_trans (Nat.le_max_left _ _) (hfront heq.symm)
        exact .inr ⟨heq.symm, by omega⟩
      · exact .inl ⟨hlt, hhi⟩
    refine below_parse hterm hhi hfurther (fun br hlo' hhi' hadvance => ?_) fun e => trivial
    refine ih hterms (result.1 ++ br.1, br.2) (Nat.le_trans hlo hlo') hhi' fun heq => ?_
    -- nothing has been read, so the terms behind are in front too
    have hsame : result.2 = position := Nat.le_antisymm (heq ▸ hlo') hlo
    have hnull : term.nullable mayBeEmpty = true := by
      by_contra hnot
      have hlt := hadvance (Bool.eq_false_of_not_eq_true hnot)
      exact absurd (heq ▸ hlt) (Nat.not_lt_of_le hlo)
    have hrank := hfront hsame
    rw [Parser.frontRank, if_pos hnull] at hrank
    exact Nat.le_trans (Nat.le_max_right _ _) hrank

theorem below_parseOr {position r : Nat} {terms : List (Parser ι τ ν)} (e : Exception ι τ ν)
    (hterms : Parser.allEnd mayBeEmpty terms = true) (hle : position ≤ text.length)
    (hrank : Parser.maxRank mayBeEmpty rankOf balancedRank terms ≤ r) :
    (parseOr position terms e).Descends (Moves mayBeEmpty text)
      (Below mayBeEmpty rankOf balancedRank text.length (position, 3 * (r + 1) + 1)) := by
  induction terms generalizing e with
  | nil => trivial
  | cons term terms ih =>
    obtain ⟨hterm, hterms⟩ := (Bool.and_eq_true _ _).mp hterms
    have hfirst := Nat.le_trans (Nat.le_max_left _ _) hrank
    have hrest := Nat.le_trans (Nat.le_max_right _ _) hrank
    exact below_parse hterm hle (.inr ⟨rfl, by omega⟩) (fun r _ _ _ => trivial)
      fun e' => ih _ hterms hrest

theorem below_parseNToM {position n : Nat} {x : Parser ι τ ν} (hx : x.ends mayBeEmpty = true)
    (k count : Nat) (result : PV τ) (hlo : position ≤ result.2) (hhi : result.2 ≤ text.length) :
    (parseNToM n x k count result).Descends (Moves mayBeEmpty text)
      (Below mayBeEmpty rankOf balancedRank text.length
        (position, 3 * (x.rank mayBeEmpty rankOf balancedRank + 1) + 1)) := by
  induction k generalizing count result with
  | zero => trivial
  | succ k ih =>
    refine below_parse hx hhi (further_of_le hlo hhi (by omega)) (fun r hlo' hhi' _ => ?_) fun e => ?_
    · exact ih (count + 1) (result.1 ++ r.1, r.2) (Nat.le_trans hlo hlo') hhi'
    · simp only
      split <;> trivial

theorem below_parseRawString {id : ι} {position i k : Nat} (hlo : position ≤ i)
    (hhi : i ≤ text.length) : (parseRawString text id position i : Member ι τ ν _).Descends
      (Moves mayBeEmpty text)
      (Below mayBeEmpty rankOf balancedRank text.length (position, 3 * (k + 2) + 1)) := by
  have hdelimeter := delimeter_le (ι := ι) (τ := τ) (ν := ν) (n := 16) hhi
  rw [parseRawString]
  rcases hj : (delimeter text 16 i : Except (Exception ι τ ν) Nat) with e | j
  · trivial
  · rw [hj] at hdelimeter
    obtain ⟨hij, hj⟩ := hdelimeter
    have hle := Nat.le_trans hlo hij
    refine below_parse_ rfl hj (further_of_le hle hj ?_) (fun rr hrr hrr' _ => ?_) fun e => trivial
    · simp only [Parser.rank]
      omega
    · refine below_parse_ rfl hrr' (further_of_le (Nat.le_trans hle hrr) hrr' ?_)
        (fun rrr _ _ _ => trivial) fun e => trivial
      simp only [Parser.rank]
      omega

/-! ## Balanced text -/

section Balanced

theorem moves_parseQuoted {id : ι} {position : Nat} (hle : position ≤ text.length) :
    (parseQuoted g irsAtEnd id position).Ends (Moves mayBeEmpty text) fun r =>
      ∀ v, r = .ok v → position < v.2 ∧ v.2 ≤ text.length := by
  refine ends_parse'_moves hle (fun first _ hhi hadvance => ?_) fun e => fun _ h => nomatch h
  have hfirst : position < first.2 := hadvance rfl
  refine ends_parse_moves hhi (fun c hlo' hhi' _ => ?_) fun e => fun _ h => nomatch h
  refine ends_parse'_moves hhi' (fun last hlo'' hhi'' _ => ?_) fun e => fun _ h => nomatch h
  intro v hv
  cases hv
  exact ⟨Nat.lt_of_lt_of_le hfirst (Nat.le_trans hlo' hlo''), hhi''⟩

variable (hg : WellFormed g mayBeEmpty rankOf balancedRank)
include hg

theorem below_parseQuoted {id : ι} {position k : Nat} (hle : position ≤ text.length) :
    (parseQuoted g irsAtEnd id position).Descends (Moves mayBeEmpty text)
      (Below mayBeEmpty rankOf balancedRank text.length (position, 3 * (k + 1))) := by
  have hquote : Further text.length (position, 3 * 0 + 1) (position, 3 * (k + 1)) :=
    .inr ⟨rfl, by omega⟩
  refine below_parse_ rfl hle hquote (fun first _ hhi hadvance => ?_) fun e => trivial
  have hfirst : position < first.2 := hadvance rfl
  refine below_parse hg.c_char_ends hhi (.inl ⟨hfirst, hhi⟩) (fun c hlo' hhi' _ => ?_)
    fun e => trivial
  exact below_parse_ rfl hhi' (.inl ⟨Nat.lt_of_lt_of_le hfirst hlo', hhi'⟩)
    (fun last _ _ _ => trivial) fun e => trivial

/-- A turn of `balanced` gets on. -/
theorem moves_parseBalancedTurn {id : ι} {angles : Bool} {end_ : Nat} {c : Char}
    (hc : text[end_]? = some c) : (parseBalancedTurn g text irsAtEnd id angles end_ c).Ends
      (Moves mayBeEmpty text) fun r => ∀ i, r = .ok i → end_ < i ∧ i ≤ text.length := by
  have hlt := lt_length_of_some hc
  have hle := Nat.le_of_lt hlt
  have hliteral : ∀ p ∈ [g.stringLiteral, g.rawStringLiteral, g.comments],
      p.nullable mayBeEmpty = false := fun p hp => (hg.literal_ends p hp).2.1
  simp only [List.forall_mem_cons] at hliteral
  obtain ⟨hstring, hraw, hcomments, -⟩ := hliteral
  rw [parseBalancedTurn]
  split_ifs
  · refine ends_parse'_moves hle (fun v _ hhi hadvance => ?_) fun e => fun _ h => by cases h
    rintro i hi
    cases hi
    exact ⟨hadvance hraw, hhi⟩
  · refine (moves_parseQuoted hle).bind fun r hr i hi => ?_
    cases r with
    | ok v =>
      cases hi
      exact hr v rfl
    | error e => cases hi
  · refine ends_parse'_moves hle (fun v _ hhi hadvance => ?_) fun e => fun _ h => by cases h
    rintro i hi
    cases hi
    exact ⟨hadvance hstring, hhi⟩
  · refine ends_parse'_moves hle (fun v _ hhi hadvance => ?_) fun e => ?_
    · rintro i hi
      cases hi
      exact ⟨hadvance hcomments, hhi⟩
    · rintro i hi
      cases hi
      exact ⟨Nat.lt_succ_self end_, hlt⟩
  · rcases closer angles c with _ | close
    · rintro i hi
      cases hi
      exact ⟨Nat.lt_succ_self end_, hlt⟩
    · rintro r ⟨hr, -⟩
      obtain ⟨hgood, hstops⟩ := hr hlt
      cases r with
      | error e => exact fun _ h => by cases h
      | ok v =>
        rintro i hi
        cases hi
        exact ⟨Nat.lt_succ_of_le (Nat.le_of_succ_le hgood.2.1), hstops v rfl⟩

theorem below_parseBalancedTurn {id : ι} {angles : Bool} {end_ k : Nat} {c : Char}
    (hc : text[end_]? = some c) (hk : balancedRank ≤ k) :
    (parseBalancedTurn g text irsAtEnd id angles end_ c).Descends (Moves mayBeEmpty text)
      (Below mayBeEmpty rankOf balancedRank text.length (end_, 3 * (k + 1))) := by
  have hlt := lt_length_of_some hc
  have hle := Nat.le_of_lt hlt
  have hliteral : ∀ p ∈ [g.stringLiteral, g.rawStringLiteral, g.comments],
      p.ends mayBeEmpty = true ∧ Further text.length
        (end_, 3 * p.rank mayBeEmpty rankOf balancedRank + 1) (end_, 3 * (k + 1)) := by
    intro p hp
    obtain ⟨hends, -, hrank⟩ := hg.literal_ends p hp
    exact ⟨hends, .inr ⟨rfl, by omega⟩⟩
  simp only [List.forall_mem_cons] at hliteral
  obtain ⟨⟨hstring, hstring'⟩, ⟨hraw, hraw'⟩, ⟨hcomments, hcomments'⟩, -⟩ := hliteral
  rw [parseBalancedTurn]
  split_ifs
  · exact below_parse_ hraw hle hraw' (fun v _ _ _ => trivial) fun e => trivial
  · exact (below_parseQuoted hg hle).bind_forall fun r => trivial
  · exact below_parse_ hstring hle hstring' (fun v _ _ _ => trivial) fun e => trivial
  · exact below_parse_ hcomments hle hcomments' (fun v _ _ _ => trivial) fun e => trivial
  · rcases closer angles c with _ | close
    · trivial
    · exact below_parse_ rfl hlt (.inl ⟨Nat.lt_succ_self end_, hlt⟩) (fun v _ _ _ => trivial)
        fun e => trivial

/-! ## All questions -/

theorem below_parseClass {p : Parser ι τ ν} {position : Nat} (hp : p.ends mayBeEmpty = true)
    (hle : position ≤ text.length) : (parseClass g text irsAtEnd p position).Descends
      (Moves mayBeEmpty text) (Below mayBeEmpty rankOf balancedRank text.length
        (position, 3 * p.rank mayBeEmpty rankOf balancedRank + 1)) := by
  have hsame : ∀ {k l : Nat}, l < k → Further text.length (position, l) (position, k) :=
    fun h => .inr ⟨rfl, h⟩
  cases p with
  | anyChar | oneOfChars | anyCharExcept | charInRange | literal | identifier | hash
  | endOfFile => trivial
  | rawString id o =>
    rw [Parser.rank]
    refine below_parse hp hle (hsame (by omega)) (fun r hlo hhi _ => ?_) fun e => trivial
    exact below_parseRawString hlo hhi
  | optional id x | not id x =>
    rw [Parser.rank]
    exact below_parse hp hle (hsame (by omega)) (fun r _ _ _ => trivial) fun e => trivial
  | named id type name x =>
    rw [Parser.rank]
    exact below_parse hp hle (hsame (by omega)) (fun r _ _ _ => trivial) fun e => trivial
  | anon id name x =>
    rw [Parser.rank]
    exact ⟨⟨⟨hp, hle⟩, hsame (by omega)⟩, fun _ _ => trivial⟩
  | wrapped id target x =>
    rw [Parser.rank]
    exact ⟨⟨⟨hp, hle⟩, hsame (by omega)⟩, fun _ _ => trivial⟩
  -- A production may refer only to such as have a lower rank, if it reads nothing before.
  | reference id target name =>
    have hrank := hg.rank_le name
    rw [Parser.rank]
    exact ⟨⟨⟨hg.parserOf_ends name, hle⟩, hsame (by omega)⟩, fun _ _ => trivial⟩
  | zeroOrMore id x =>
    obtain ⟨hnull, hx⟩ := (Bool.and_eq_true _ _).mp hp
    rw [Parser.rank]
    exact ⟨⟨⟨hx, Bool.eq_false_of_not_eq_true' hnull, hle⟩, hsame (Nat.lt_succ_self _)⟩, fun _ _ => trivial⟩
  | anyUntil id x =>
    rw [Parser.rank]
    exact ⟨⟨⟨hp, hle⟩, hsame (Nat.lt_succ_self _)⟩, fun _ _ => trivial⟩
  | balanced id until_ angles =>
    rw [Parser.rank]
    exact ⟨⟨⟨hp, hle⟩, hsame (Nat.lt_succ_self _)⟩, fun _ _ => trivial⟩
  | specificUntil id match_ x =>
    obtain ⟨hmatch, hx⟩ := (Bool.and_eq_true _ _).mp hp
    obtain ⟨hnull, hmatch⟩ := (Bool.and_eq_true _ _).mp hmatch
    rw [Parser.rank]
    exact ⟨⟨⟨hmatch, Bool.eq_false_of_not_eq_true' hnull, hx, hle⟩, hsame (Nat.lt_succ_self _)⟩,
      fun _ _ => trivial⟩
  | nonEmptyListOf id x moreIndicator =>
    obtain ⟨hx, hmore⟩ := (Bool.and_eq_true _ _).mp hp
    obtain ⟨hnull, hx⟩ := (Bool.and_eq_true _ _).mp hx
    have hnull' := Bool.and_eq_false_iff.mp (Bool.eq_false_of_not_eq_true' hnull)
    rw [Parser.rank]
    exact ⟨⟨⟨hx, hmore, hnull', hle⟩, hsame (Nat.lt_succ_self _)⟩, fun _ _ => trivial⟩
  | and id first rest =>
    have hterms : Parser.allEnd mayBeEmpty (first :: rest) = true := hp
    exact below_parseAnd hterms ([], position) (Nat.le_refl position) hle
      fun _ => Nat.le_refl _
  | or id first rest =>
    obtain ⟨hfirst, hrest⟩ := (Bool.and_eq_true _ _).mp hp
    rw [Parser.rank]
    refine below_parse hfirst hle (hsame ?_) (fun r _ _ _ => trivial) fun e => ?_
    · have hmax := Nat.le_max_left (first.rank mayBeEmpty rankOf balancedRank)
        (Parser.maxRank mayBeEmpty rankOf balancedRank rest)
      omega
    · exact below_parseOr e hrest hle (Nat.le_max_right _ _)
  | nToM id n m x =>
    rw [Parser.rank]
    have hx : x.ends mayBeEmpty = true := hp
    exact below_parseNToM hx m 0 ([], position) (Nat.le_refl position) hle

/-- In a well-formed grammar, questions that fit lead to such as are further on. -/
theorem below_body {q : Query ι τ ν} (hq : Fits mayBeEmpty text.length q) :
    (body g text irsAtEnd q).Descends (Moves mayBeEmpty text)
      (Below mayBeEmpty rankOf balancedRank text.length
        (level mayBeEmpty rankOf balancedRank q)) := by
  cases q with
  | parse p position =>
    exact below_parse_ hq.1 hq.2 (.inr ⟨rfl, Nat.lt_succ_self _⟩) (fun r _ _ _ => trivial)
      fun e => trivial
  | parse_ p position => exact below_parseClass hg hq.1 hq.2
  -- One more round starts further on, since what is repeated reads something.
  | zeroOrMore x result =>
    obtain ⟨hx, hnull, hle⟩ := hq
    refine below_parse hx hle (.inr ⟨rfl, ?_⟩) (fun r _ hhi hadvance => ?_) fun e => trivial
    · simp only [level]
      omega
    · exact ⟨⟨⟨hx, hnull, hhi⟩, .inl ⟨hadvance hnull, hhi⟩⟩, fun _ _ => trivial⟩
  | anyUntil x start end_ =>
    obtain ⟨hx, hle⟩ := hq
    refine below_parse_ hx hle (.inr ⟨rfl, ?_⟩) (fun r _ _ _ => trivial) fun e => ?_
    · simp only [level]
      omega
    · simp only
      split_ifs with hend
      · trivial
      · have hlt := Nat.lt_of_not_le hend
        exact ⟨⟨⟨hx, hlt⟩, .inl ⟨Nat.lt_succ_self end_, hlt⟩⟩, fun _ _ => trivial⟩
  | specificUntil match_ x result =>
    obtain ⟨hmatch, hnull, hx, hle⟩ := hq
    have hleft := Nat.le_max_left (match_.rank mayBeEmpty rankOf balancedRank)
      (x.rank mayBeEmpty rankOf balancedRank)
    have hright := Nat.le_max_right (match_.rank mayBeEmpty rankOf balancedRank)
      (x.rank mayBeEmpty rankOf balancedRank)
    refine below_parse_ hx hle (.inr ⟨rfl, ?_⟩) (fun r _ _ _ => trivial) fun e => ?_
    · simp only [level]
      omega
    · refine below_parse_ hmatch hle (.inr ⟨rfl, ?_⟩) (fun r _ hhi hadvance => ?_) fun e => trivial
      · simp only [level]
        omega
      · exact ⟨⟨⟨hmatch, hnull, hx, hhi⟩, .inl ⟨hadvance hnull, hhi⟩⟩, fun _ _ => trivial⟩
  | balanced until_ angles start end_ =>
    obtain ⟨huntil, hle⟩ := hq
    have hleft := Nat.le_max_left (until_.rank mayBeEmpty rankOf balancedRank) balancedRank
    refine below_parse_ huntil hle (.inr ⟨rfl, ?_⟩) (fun r _ _ _ => trivial) fun e => ?_
    · simp only [level]
      omega
    · simp only
      rcases hc : text[end_]? with _ | c
      · trivial
      · refine (below_parseBalancedTurn hg hc (Nat.le_max_right _ _)).bind
          (moves_parseBalancedTurn hg hc) fun r hr => ?_
        cases r with
        | error e => trivial
        | ok i =>
          obtain ⟨hlt, hhi⟩ := hr i rfl
          exact ⟨⟨⟨huntil, hhi⟩, .inl ⟨hlt, hhi⟩⟩, fun _ _ => trivial⟩
  | nonEmptyListOf x moreIndicator result =>
    obtain ⟨hx, hmore, hnull, hle⟩ := hq
    have hleft := Nat.le_max_left (x.rank mayBeEmpty rankOf balancedRank)
      (moreIndicator.rank mayBeEmpty rankOf balancedRank)
    have hright := Nat.le_max_right (x.rank mayBeEmpty rankOf balancedRank)
      (moreIndicator.rank mayBeEmpty rankOf balancedRank)
    refine below_parse hx hle (.inr ⟨rfl, ?_⟩) (fun r hlo hhi hadvance => ?_) fun e => trivial
    · simp only [level]
      omega
    · refine below_parse hmore hhi (further_of_le hlo hhi ?_) (fun more hlo' hhi' hadvance' => ?_)
        fun e => trivial
      · omega
      -- Of an item and what says that there is another, one reads something.
      · have hlt : result.2 < more.2 := by
          rcases hnull with hx | hmore
          · exact Nat.lt_of_lt_of_le (hadvance hx) hlo'
          · exact Nat.lt_of_le_of_lt hlo (hadvance' hmore)
        exact ⟨⟨⟨hx, hmore, hnull, hhi'⟩, .inl ⟨hlt, hhi'⟩⟩, fun _ _ => trivial⟩

theorem moves_of_answers {q : Query ι τ ν} {r : ParseResult ι τ ν}
    (h : Answers (body g text irsAtEnd) q r) : Moves mayBeEmpty text q r :=
  h.of_ends (moves_body hg.nullable_le)

/-- In a well-formed grammar every question that fits is answered. -/
theorem exists_answer_of_wellFormed {q : Query ι τ ν} (hq : Fits mayBeEmpty text.length q) :
    ∃ r, Answers (body g text irsAtEnd) q r :=
  exists_answer (fun _ _ => moves_of_answers hg)
    (InvImage.wf (level mayBeEmpty rankOf balancedRank) (further_wf text.length))
    (fun _ hq => below_body hg hq) hq

/-- And it only leads to such as are further on. -/
theorem below_of_leadsTo {q q' : Query ι τ ν} (hq : Fits mayBeEmpty text.length q)
    (h : LeadsTo (body g text irsAtEnd) q q') :
    Below mayBeEmpty rankOf balancedRank text.length (level mayBeEmpty rankOf balancedRank q) q' :=
  LeadsTo.smaller (fun _ _ => moves_of_answers hg)
    (InvImage (Further text.length) (level mayBeEmpty rankOf balancedRank))
    (fun hab hbc => Further.trans hab hbc) (fun _ hq => below_body hg hq) hq h

end Balanced

end Urnest.Hcp
