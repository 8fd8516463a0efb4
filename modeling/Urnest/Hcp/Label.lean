import Urnest.Hcp.Cache
import Urnest.Hcp.Termination

/-!
# Addresses do not matter

A grammar is written down without the addresses of its parsers, and they get theirs when the
program runs: `relabel` gives a parser and its parts other ones. Whether parsing ends is not a
matter of the addresses (`WellFormed.of_relabel`).
-/

namespace Urnest.Hcp

open Lib Lib.Asking

variable {ι κ τ ν : Type}

namespace Parser

section

variable (f : Parser ι τ ν → κ)

mutual

/-- The same parser at other addresses. -/
def relabel : Parser ι τ ν → Parser κ τ ν
  | p@(anyChar _) => .anyChar (f p)
  | p@(oneOfChars _ chars) => .oneOfChars (f p) chars
  | p@(anyCharExcept _ chars) => .anyCharExcept (f p) chars
  | p@(charInRange _ min max) => .charInRange (f p) min max
  | p@(literal _ x) => .literal (f p) x
  | p@(identifier _) => .identifier (f p)
  | p@(hash _) => .hash (f p)
  | p@(rawString _ o) => .rawString (f p) o.relabel
  | p@(endOfFile _ type) => .endOfFile (f p) type
  | p@(optional _ x) => .optional (f p) x.relabel
  | p@(zeroOrMore _ x) => .zeroOrMore (f p) x.relabel
  | p@(and _ first rest) => .and (f p) first.relabel (relabelAll rest)
  | p@(or _ first rest) => .or (f p) first.relabel (relabelAll rest)
  | p@(not _ term) => .not (f p) term.relabel
  | p@(anyUntil _ x) => .anyUntil (f p) x.relabel
  | p@(specificUntil _ match_ x) => .specificUntil (f p) match_.relabel x.relabel
  | p@(balanced _ until_ angles) => .balanced (f p) until_.relabel angles
  | p@(nToM _ n m x) => .nToM (f p) n m x.relabel
  | p@(nonEmptyListOf _ x moreIndicator) =>
    .nonEmptyListOf (f p) x.relabel moreIndicator.relabel
  | p@(named _ type name x) => .named (f p) type name x.relabel
  | p@(anon _ name x) => .anon (f p) name x.relabel
  | p@(wrapped _ target x) => .wrapped (f p) target x.relabel
  | p@(reference _ target name) => .reference (f p) target name

def relabelAll : List (Parser ι τ ν) → List (Parser κ τ ν)
  | [] => []
  | x :: xs => x.relabel :: relabelAll xs

end

theorem id_relabel (p : Parser ι τ ν) : (p.relabel f).id = f p := by
  cases p <;> rfl

theorem relabelAll_eq_map (xs : List (Parser ι τ ν)) : relabelAll f xs = xs.map (relabel f) := by
  induction xs with
  | nil => rfl
  | cons x xs ih => rw [relabelAll, ih, List.map_cons]

theorem parts_relabel (p : Parser ι τ ν) : (p.relabel f).parts = p.parts.map (relabel f) := by
  cases p with
  | and id first rest | or id first rest =>
    rw [relabel, parts, parts, List.map_cons, relabelAll_eq_map]
  | _ => rfl

/-! ## What stays -/

variable (mayBeEmpty : ν → Bool) (rankOf : ν → Nat) (balancedRank : Nat)

mutual

theorem nullable_relabel : (p : Parser ι τ ν) →
    (p.relabel f).nullable mayBeEmpty = p.nullable mayBeEmpty
  | anyChar _ | oneOfChars _ _ | anyCharExcept _ _ | charInRange _ _ _ | identifier _ | hash _
  | rawString _ _ | literal _ _ | endOfFile _ _ | optional _ _ | zeroOrMore _ _ | not _ _
  | anyUntil _ _ | specificUntil _ _ _ | balanced _ _ _ | reference _ _ _ => by
    rw [relabel, nullable, nullable]
  | and _ first rest => by
    rw [relabel, nullable, nullable, nullable_relabel first, allNullable_relabelAll rest]
  | or _ first rest => by
    rw [relabel, nullable, nullable, nullable_relabel first, anyNullable_relabelAll rest]
  | nToM _ n m x => by rw [relabel, nullable, nullable, nullable_relabel x]
  | nonEmptyListOf _ x _ | named _ _ _ x | anon _ _ x | wrapped _ _ x => by
    rw [relabel, nullable, nullable, nullable_relabel x]

theorem allNullable_relabelAll : (xs : List (Parser ι τ ν)) →
    allNullable mayBeEmpty (relabelAll f xs) = allNullable mayBeEmpty xs
  | [] => rfl
  | x :: xs => by
    rw [relabelAll, allNullable, allNullable, nullable_relabel x, allNullable_relabelAll xs]

theorem anyNullable_relabelAll : (xs : List (Parser ι τ ν)) →
    anyNullable mayBeEmpty (relabelAll f xs) = anyNullable mayBeEmpty xs
  | [] => rfl
  | x :: xs => by
    rw [relabelAll, anyNullable, anyNullable, nullable_relabel x, anyNullable_relabelAll xs]

end

mutual

theorem rank_relabel : (p : Parser ι τ ν) → (p.relabel f).rank mayBeEmpty rankOf balancedRank =
    p.rank mayBeEmpty rankOf balancedRank
  | anyChar _ | oneOfChars _ _ | anyCharExcept _ _ | charInRange _ _ _ | identifier _ | hash _
  | literal _ _ | endOfFile _ _ | reference _ _ _ => by rw [relabel, rank, rank]
  | rawString _ x | optional _ x | zeroOrMore _ x | not _ x | anyUntil _ x | nToM _ _ _ x
  | named _ _ _ x | anon _ _ x | wrapped _ _ x | balanced _ x _ => by
    rw [relabel, rank, rank, rank_relabel x]
  | and _ first rest => by
    rw [relabel, rank, rank, rank_relabel first, frontRank_relabelAll rest, nullable_relabel]
  | or _ first rest => by
    rw [relabel, rank, rank, rank_relabel first, maxRank_relabelAll rest]
  | specificUntil _ x y | nonEmptyListOf _ x y => by
    rw [relabel, rank, rank, rank_relabel x, rank_relabel y]

theorem frontRank_relabelAll : (xs : List (Parser ι τ ν)) →
    frontRank mayBeEmpty rankOf balancedRank (relabelAll f xs) =
      frontRank mayBeEmpty rankOf balancedRank xs
  | [] => rfl
  | x :: xs => by
    rw [relabelAll, frontRank, frontRank, rank_relabel x, frontRank_relabelAll xs,
      nullable_relabel]

theorem maxRank_relabelAll : (xs : List (Parser ι τ ν)) →
    maxRank mayBeEmpty rankOf balancedRank (relabelAll f xs) =
      maxRank mayBeEmpty rankOf balancedRank xs
  | [] => rfl
  | x :: xs => by rw [relabelAll, maxRank, maxRank, rank_relabel x, maxRank_relabelAll xs]

end

mutual

theorem ends_relabel : (p : Parser ι τ ν) → (p.relabel f).ends mayBeEmpty = p.ends mayBeEmpty
  | anyChar _ | oneOfChars _ _ | anyCharExcept _ _ | charInRange _ _ _ | identifier _ | hash _
  | literal _ _ | endOfFile _ _ | reference _ _ _ => by rw [relabel, ends, ends]
  | rawString _ x | optional _ x | not _ x | anyUntil _ x | nToM _ _ _ x | named _ _ _ x
  | anon _ _ x | wrapped _ _ x | balanced _ x _ => by rw [relabel, ends, ends, ends_relabel x]
  | zeroOrMore _ x => by rw [relabel, ends, ends, ends_relabel x, nullable_relabel]
  | and _ first rest | or _ first rest => by
    rw [relabel, ends, ends, ends_relabel first, allEnd_relabelAll rest]
  | specificUntil _ x y | nonEmptyListOf _ x y => by
    simp only [relabel, ends, ends_relabel x, ends_relabel y, nullable_relabel]

theorem allEnd_relabelAll : (xs : List (Parser ι τ ν)) →
    allEnd mayBeEmpty (relabelAll f xs) = allEnd mayBeEmpty xs
  | [] => rfl
  | x :: xs => by rw [relabelAll, allEnd, allEnd, ends_relabel x, allEnd_relabelAll xs]

end

end

/-- The same parser without addresses. -/
def erase : Parser ι τ ν → Parser Unit τ ν := relabel fun _ => ()

/-- A parser's address may be what it is like. -/
def label : Parser ι τ ν → Parser (Parser ι τ ν) τ ν := relabel fun p => p

section

variable (f : Parser Unit τ ν → κ)

mutual

theorem erase_relabel : (p : Parser Unit τ ν) → (p.relabel f).relabel (fun _ => ()) = p
  | anyChar _ | oneOfChars _ _ | anyCharExcept _ _ | charInRange _ _ _ | identifier _ | hash _
  | literal _ _ | endOfFile _ _ | reference _ _ _ => by rw [relabel, relabel]
  | rawString _ x | optional _ x | zeroOrMore _ x | not _ x | anyUntil _ x | nToM _ _ _ x
  | named _ _ _ x | anon _ _ x | wrapped _ _ x | balanced _ x _ => by
    rw [relabel, relabel, erase_relabel x]
  | and _ first rest | or _ first rest => by
    rw [relabel, relabel, erase_relabel first, eraseAll_relabelAll rest]
  | specificUntil _ x y | nonEmptyListOf _ x y => by
    rw [relabel, relabel, erase_relabel x, erase_relabel y]

theorem eraseAll_relabelAll : (xs : List (Parser Unit τ ν)) →
    relabelAll (fun _ => ()) (relabelAll f xs) = xs
  | [] => rfl
  | x :: xs => by rw [relabelAll, relabelAll, erase_relabel x, eraseAll_relabelAll xs]

end

end

theorem erase_label (p : Parser Unit τ ν) : p.label.erase = p := erase_relabel _ p

end Parser

/-- The same grammar at other addresses. -/
def Grammar.relabel (f : Parser ι τ ν → κ) (g : Grammar ι τ ν) : Grammar κ τ ν where
  parserOf name := (g.parserOf name).relabel f
  c_char := g.c_char.relabel f
  stringLiteral := g.stringLiteral.relabel f
  rawStringLiteral := g.rawStringLiteral.relabel f
  comments := g.comments.relabel f
  construct := g.construct

def Grammar.erase : Grammar ι τ ν → Grammar Unit τ ν := relabel fun _ => ()

def Grammar.label : Grammar ι τ ν → Grammar (Parser ι τ ν) τ ν := relabel fun p => p

theorem Grammar.erase_label (g : Grammar Unit τ ν) : g.label.erase = g := by
  cases g
  simp only [erase, label, relabel, Parser.erase_relabel]

theorem WellFormed.of_relabel {f : Parser ι τ ν → κ} {g : Grammar ι τ ν} {mayBeEmpty : ν → Bool}
    {rankOf : ν → Nat} {balancedRank : Nat}
    (h : WellFormed (g.relabel f) mayBeEmpty rankOf balancedRank) :
    WellFormed g mayBeEmpty rankOf balancedRank := by
  obtain ⟨hnullable, hrank, hends, hchar, hliteral⟩ := h
  simp only [Grammar.relabel, Parser.nullable_relabel, Parser.rank_relabel,
    Parser.ends_relabel] at hnullable hrank hends hchar
  refine ⟨hnullable, hrank, hends, hchar, fun p hp => ?_⟩
  have := hliteral (p.relabel f) (List.mem_map_of_mem hp)
  rwa [Parser.nullable_relabel, Parser.rank_relabel, Parser.ends_relabel] at this

/-! ## The parsers of a grammar -/

/-- A parser that a grammar has, or the whole is made of. -/
inductive PartOf (g : Grammar ι τ ν) (whole : Parser ι τ ν) : Parser ι τ ν → Prop where
  | whole : PartOf g whole whole
  | parserOf (name : ν) : PartOf g whole (g.parserOf name)
  | c_char : PartOf g whole g.c_char
  | stringLiteral : PartOf g whole g.stringLiteral
  | rawStringLiteral : PartOf g whole g.rawStringLiteral
  | comments : PartOf g whole g.comments
  | parts {p x : Parser ι τ ν} : PartOf g whole p → x ∈ p.parts → PartOf g whole x

variable {g : Grammar ι τ ν} {whole p : Parser ι τ ν}

theorem closed_partOf : Closed g (PartOf g whole) :=
  ⟨.parserOf, .c_char, .stringLiteral, .rawStringLiteral, .comments, fun _ hp _ hx => .parts hp hx⟩

theorem Parser.ends_of_mem_allEnd {mayBeEmpty : ν → Bool} {xs : List (Parser ι τ ν)}
    (h : allEnd mayBeEmpty xs = true) : ∀ x ∈ xs, x.ends mayBeEmpty = true := by
  induction xs with
  | nil => exact fun x hx => nomatch hx
  | cons x xs ih =>
    obtain ⟨hx, hxs⟩ := (Bool.and_eq_true _ _).mp h
    exact List.forall_mem_cons.mpr ⟨hx, ih hxs⟩

theorem Parser.ends_of_mem_parts {mayBeEmpty : ν → Bool} {p x : Parser ι τ ν}
    (hp : p.ends mayBeEmpty = true) (hx : x ∈ p.parts) : x.ends mayBeEmpty = true := by
  cases p with
  | anyChar | oneOfChars | anyCharExcept | charInRange | identifier | hash | literal | endOfFile
  | reference => cases hx
  | rawString | optional | not | anyUntil | nToM | named | anon | wrapped | balanced =>
    rw [List.mem_singleton.mp hx]
    exact hp
  | zeroOrMore =>
    rw [List.mem_singleton.mp hx]
    exact ((Bool.and_eq_true _ _).mp hp).2
  | and id first rest | or id first rest =>
    have hterms : allEnd mayBeEmpty (first :: rest) = true := hp
    exact ends_of_mem_allEnd hterms x hx
  | specificUntil id match_ y =>
    obtain ⟨hmatch, hy⟩ := (Bool.and_eq_true _ _).mp hp
    rcases List.mem_pair.mp hx with rfl | rfl
    · exact ((Bool.and_eq_true _ _).mp hmatch).2
    · exact hy
  | nonEmptyListOf id y moreIndicator =>
    obtain ⟨hy, hmore⟩ := (Bool.and_eq_true _ _).mp hp
    rcases List.mem_pair.mp hx with rfl | rfl
    · exact ((Bool.and_eq_true _ _).mp hy).2
    · exact hmore

theorem PartOf.ends {mayBeEmpty : ν → Bool} {rankOf : ν → Nat} {balancedRank : Nat}
    (hg : WellFormed g mayBeEmpty rankOf balancedRank) (hwhole : whole.ends mayBeEmpty = true)
    (hp : PartOf g whole p) : p.ends mayBeEmpty = true := by
  have hliteral : ∀ p ∈ [g.stringLiteral, g.rawStringLiteral, g.comments],
      p.ends mayBeEmpty = true := fun p hp => (hg.literal_ends p hp).1
  simp only [List.forall_mem_cons] at hliteral
  obtain ⟨hstring, hraw, hcomments, -⟩ := hliteral
  induction hp with
  | whole => exact hwhole
  | parserOf name => exact hg.parserOf_ends name
  | c_char => exact hg.c_char_ends
  | stringLiteral => exact hstring
  | rawStringLiteral => exact hraw
  | comments => exact hcomments
  | parts _ hx ih => exact Parser.ends_of_mem_parts ih hx

/-- Where a parser's address is what it is like, no two have one. -/
theorem distinct_label {g : Grammar Unit τ ν} {whole : Parser Unit τ ν} :
    Distinct (PartOf g.label whole.label) := by
  have hlabel : ∀ p, PartOf g.label whole.label p → ∃ q : Parser Unit τ ν, p = q.label := by
    intro p hp
    induction hp with
    | whole => exact ⟨whole, rfl⟩
    | parserOf name => exact ⟨g.parserOf name, rfl⟩
    | c_char => exact ⟨g.c_char, rfl⟩
    | stringLiteral => exact ⟨g.stringLiteral, rfl⟩
    | rawStringLiteral => exact ⟨g.rawStringLiteral, rfl⟩
    | comments => exact ⟨g.comments, rfl⟩
    | parts _ hx ih =>
      obtain ⟨q, rfl⟩ := ih
      rw [Parser.label, Parser.parts_relabel] at hx
      obtain ⟨y, -, rfl⟩ := List.mem_map.mp hx
      exact ⟨y, rfl⟩
  intro p p' hp hp' hid
  obtain ⟨q, rfl⟩ := hlabel p hp
  obtain ⟨q', rfl⟩ := hlabel p' hp'
  simp only [Parser.label, Parser.id_relabel] at hid
  rw [hid]

end Urnest.Hcp
