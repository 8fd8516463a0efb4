import Urnest.Hcp.Cpp
import Urnest.Hcp.Label

/-!
# Parsing C++ ends

The productions are checked one loop and one rank at a time, by evaluation
(`wellFormed_grammar`). With the cache or without it, every parser that `file()` refers to
then comes to an end at every position of every text, and asks itself again only further on.
-/

namespace Urnest.Hcp

open Lib Lib.Asking

variable {ι τ ν : Type}

/-! ## Coming back -/

def Query.position : Query ι τ ν → Nat
  | .parse _ position | .parse_ _ position => position
  | .zeroOrMore _ result | .specificUntil _ _ result | .nonEmptyListOf _ _ result => result.2
  | .anyUntil _ _ end_ | .balanced _ _ _ end_ => end_

/-- Calls of one parser, or turns of one loop. -/
inductive Query.SameParser : Query ι τ ν → Query ι τ ν → Prop where
  | parse (p : Parser ι τ ν) (i j : Nat) : SameParser (.parse p i) (.parse p j)
  | parse_ (p : Parser ι τ ν) (i j : Nat) : SameParser (.parse_ p i) (.parse_ p j)
  | zeroOrMore (x : Parser ι τ ν) (r s : PV τ) : SameParser (.zeroOrMore x r) (.zeroOrMore x s)
  | anyUntil (x : Parser ι τ ν) (start i start' j : Nat) :
    SameParser (.anyUntil x start i) (.anyUntil x start' j)
  | specificUntil (match_ x : Parser ι τ ν) (r s : PV τ) :
    SameParser (.specificUntil match_ x r) (.specificUntil match_ x s)
  | balanced (until_ : Parser ι τ ν) (angles angles' : Bool) (start i start' j : Nat) :
    SameParser (.balanced until_ angles start i) (.balanced until_ angles' start' j)
  | nonEmptyListOf (x moreIndicator : Parser ι τ ν) (r s : PV τ) :
    SameParser (.nonEmptyListOf x moreIndicator r) (.nonEmptyListOf x moreIndicator s)

variable {g : Grammar ι τ ν} {text : List Char} {irsAtEnd : Bool} {mayBeEmpty : ν → Bool}
  {rankOf : ν → Nat} {balancedRank : Nat}

/-- Calls of one parser are equally deep, so one is further on only by its position. -/
theorem Query.SameParser.position_lt {n : Nat} {q q' : Query ι τ ν} (h : q.SameParser q')
    (hfurther : Further n (level mayBeEmpty rankOf balancedRank q')
      (level mayBeEmpty rankOf balancedRank q)) : q.position < q'.position := by
  cases h <;> exact hfurther.elim And.left fun hsame => absurd hsame.2 (Nat.lt_irrefl _)

/-- In a well-formed grammar, whatever a question leads to, a parser that asks itself again
does so further on. -/
theorem position_lt_of_leadsTo (hg : WellFormed g mayBeEmpty rankOf balancedRank)
    {q₀ q q' : Query ι τ ν} (hq₀ : Fits mayBeEmpty text.length q₀)
    (hq : LeadsTo (body g text irsAtEnd) q₀ q) (hq' : LeadsTo (body g text irsAtEnd) q q')
    (hsame : q.SameParser q') : q.position < q'.position := by
  obtain ⟨hfits, -⟩ := below_of_leadsTo hg hq₀ hq
  exact hsame.position_lt (below_of_leadsTo hg hfits hq').2

/-! ## The productions -/

namespace Cpp

/-- How deep the parsers that are referred to go at one position. -/
def depthOf : Rule → Nat
  | .var_fp => 19
  | .class_def => 11
  | .namespace_def => 2

theorem wellFormed_grammar : WellFormed grammar (fun _ => false) depthOf 6 where
  nullable_le name := by cases name <;> decide +kernel
  rank_le name := by cases name <;> decide +kernel
  parserOf_ends name := by cases name <;> decide +kernel
  c_char_ends := by decide +kernel
  literal_ends := by
    simp only [List.forall_mem_cons, List.not_mem_nil, false_imp_iff, implies_true, and_true]
    decide +kernel

theorem file_ends : file.ends (fun _ => false) = true := by decide +kernel

/-- `file()`, and every parser that it refers to, at whatever addresses they are, comes to an
end at every position of every text, with a cache and with none. No parser, and no loop, comes
back to where it was: the calls of one parser, and the turns of one loop, that lead to each
other are each further on in the text. -/
theorem parsing_ends [DecidableEq ι] {g : Grammar ι ItemType Rule} {file : Parser ι ItemType Rule}
    (hg : g.erase = grammar) (hfile : file.erase = Cpp.file)
    (hdistinct : Distinct (PartOf g file)) {p : Parser ι ItemType Rule} (hp : PartOf g file p)
    (text : List Char) (irsAtEnd : Bool) {position : Nat} (hle : position ≤ text.length) :
    (∃ r, Answers (body g text irsAtEnd) (.parse p position) r) ∧
      (∀ c, Remembered (body g text irsAtEnd) cacheKey (Asked (PartOf g file)) c →
        ∃ n r c', evalMemo (body g text irsAtEnd) cacheKey n (.parse p position) c =
          some (r, c')) ∧
      ∀ q q', LeadsTo (body g text irsAtEnd) (.parse p position) q →
        LeadsTo (body g text irsAtEnd) q q' → q.SameParser q' → q.position < q'.position := by
  have hwell : WellFormed g (fun _ => false) depthOf 6 := by
    refine .of_relabel (f := fun _ => ()) ?_
    rw [show g.relabel (fun _ => ()) = grammar from hg]
    exact wellFormed_grammar
  have hwhole : file.ends (fun _ => false) = true := by
    rw [← Parser.ends_relabel (fun _ => ()), show file.relabel (fun _ => ()) = Cpp.file from hfile]
    exact file_ends
  have hfits : Fits (fun _ => false) text.length (.parse p position) :=
    ⟨hp.ends hwell hwhole, hle⟩
  have ⟨r, hr⟩ : ∃ r, Answers (body g text irsAtEnd) (.parse p position) r :=
    exists_answer_of_wellFormed hwell hfits
  refine ⟨⟨r, hr⟩, fun c hc => ?_, fun q q' => position_lt_of_leadsTo hwell hfits⟩
  obtain ⟨n, c', hn⟩ := (hc.answers_iff (fun _ hq => descends_body closed_partOf hq)
    (eq_of_cacheKey hdistinct) (show Asked (PartOf g file) (.parse p position) from hp)).mpr hr
  exact ⟨n, r, c', hn⟩

/-- A declaration, where each parser's address is what it is like. -/
theorem parsing_ends_declaration : ∃ r,
    Answers (body grammar.label "int x;\n".toList false) (.parse file.label 0) r := by
  classical
  exact (parsing_ends grammar.erase_label file.erase_label distinct_label .whole
    "int x;\n".toList false (Nat.zero_le _)).1

end Cpp

end Urnest.Hcp
