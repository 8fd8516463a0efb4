import Urnest.Lib.Memo
import Urnest.Hcp.Parser

/-!
# The cache changes nothing

`Closed` is a grammar's set of parsers: with a parser its parts are in it, too. Where no two
of them have one address (`Distinct`), an entry of the cache can only have come from the
parser that finds it, at the same position of the same text, so that it is what the parser
would return again.
-/

namespace Urnest.Hcp

open Lib Lib.Asking

variable {ι τ ν : Type}

/-- The parsers that a parser was made of. -/
def Parser.parts : Parser ι τ ν → List (Parser ι τ ν)
  | .anyChar _ | .oneOfChars _ _ | .anyCharExcept _ _ | .charInRange _ _ _ | .literal _ _
  | .identifier _ | .hash _ | .endOfFile _ _ | .reference _ _ _ => []
  | .rawString _ x | .optional _ x | .zeroOrMore _ x | .not _ x | .anyUntil _ x
  | .balanced _ x _ | .nToM _ _ _ x | .named _ _ _ x | .anon _ _ x | .wrapped _ _ x => [x]
  | .and _ first rest | .or _ first rest => first :: rest
  | .specificUntil _ x y | .nonEmptyListOf _ x y => [x, y]

/-- The parsers of a grammar, all of them. -/
structure Closed (g : Grammar ι τ ν) (S : Parser ι τ ν → Prop) : Prop where
  parserOf : ∀ name, S (g.parserOf name)
  c_char : S g.c_char
  stringLiteral : S g.stringLiteral
  rawStringLiteral : S g.rawStringLiteral
  comments : S g.comments
  parts : ∀ p, S p → ∀ x ∈ p.parts, S x

/-- No two parsers have one address. -/
def Distinct (S : Parser ι τ ν → Prop) : Prop := ∀ p p', S p → S p' → p.id = p'.id → p = p'

/-- A parser of the grammar, or one that a `parse_` makes on the spot. -/
inductive Ready (S : Parser ι τ ν → Prop) : Parser ι τ ν → Prop where
  | ofGrammar {p : Parser ι τ ν} : S p → Ready S p
  | oneOfChars (id : ι) (chars : List Char) : Ready S (.oneOfChars id chars)
  | literal (id : ι) (x : String) : Ready S (.literal id x)
  | anyUntil (id : ι) {x : Parser ι τ ν} : Ready S x → Ready S (.anyUntil id x)
  | balanced (id : ι) {x : Parser ι τ ν} (angles : Bool) : Ready S x →
    Ready S (.balanced id x angles)

/-- What the parsers of a grammar ask each other: `parse` of those parsers only. -/
def Asked (S : Parser ι τ ν → Prop) : Query ι τ ν → Prop
  | .parse p _ => S p
  | .parse_ p _ => Ready S p
  | .zeroOrMore x _ => S x
  | .anyUntil x _ _ => Ready S x
  | .specificUntil match_ x _ => Ready S match_ ∧ Ready S x
  | .balanced until_ _ _ _ => Ready S until_
  | .nonEmptyListOf x moreIndicator _ => S x ∧ S moreIndicator

variable {g : Grammar ι τ ν} {text : List Char} {irsAtEnd : Bool} {S : Parser ι τ ν → Prop}
  {P : Query ι τ ν → ParseResult ι τ ν → Prop}

section Calls

variable {α : Type} {f : ParseResult ι τ ν → Member ι τ ν α}

theorem descends_parse {x : Parser ι τ ν} {position : Nat} (hx : S x)
    (hf : ∀ r, (f r).Descends P (Asked S)) : (parse x position >>= f).Descends P (Asked S) :=
  ⟨hx, fun r _ => hf r⟩

theorem descends_parse_ {x : Parser ι τ ν} {position : Nat} (hx : Ready S x)
    (hf : ∀ r, (f r).Descends P (Asked S)) : (parse_ x position >>= f).Descends P (Asked S) :=
  ⟨hx, fun r _ => hf r⟩

end Calls

theorem descends_parseAnd {terms : List (Parser ι τ ν)} (h : ∀ x ∈ terms, S x) (result : PV τ) :
    (parseAnd irsAtEnd terms result).Descends P (Asked S) := by
  induction terms generalizing result with
  | nil => trivial
  | cons term terms ih =>
    obtain ⟨hterm, hterms⟩ := List.forall_mem_cons.mp h
    refine descends_parse hterm fun r => ?_
    cases r with
    | ok r => exact ih hterms _
    | error e => trivial

theorem descends_parseOr {position : Nat} {terms : List (Parser ι τ ν)} (h : ∀ x ∈ terms, S x)
    (e : Exception ι τ ν) : (parseOr position terms e).Descends P (Asked S) := by
  induction terms generalizing e with
  | nil => trivial
  | cons term terms ih =>
    obtain ⟨hterm, hterms⟩ := List.forall_mem_cons.mp h
    refine descends_parse hterm fun r => ?_
    cases r with
    | ok r => trivial
    | error e' => exact ih hterms _

theorem descends_parseNToM {n : Nat} {x : Parser ι τ ν} (hx : S x) (k count : Nat) (result : PV τ) :
    (parseNToM n x k count result).Descends P (Asked S) := by
  induction k generalizing count result with
  | zero => trivial
  | succ k ih =>
    refine descends_parse hx fun r => ?_
    cases r with
    | ok r => exact ih _ _
    | error e =>
      simp only
      split <;> trivial

theorem descends_parseRawString (id : ι) (position i : Nat) :
    (parseRawString text id position i).Descends P (Asked S) := by
  rw [parseRawString]
  rcases delimeter text 16 i with e | j
  · trivial
  · refine descends_parse_ (.anyUntil id (.literal id _)) fun r => ?_
    cases r with
    | error e => trivial
    | ok rr =>
      refine descends_parse_ (.literal id _) fun r => ?_
      cases r <;> trivial

theorem descends_parseQuoted (hclosed : Closed g S) (id : ι) (position : Nat) :
    (parseQuoted g irsAtEnd id position).Descends P (Asked S) := by
  refine descends_parse_ (.oneOfChars id _) fun r => ?_
  cases r with
  | error e => trivial
  | ok first =>
    refine descends_parse hclosed.c_char fun r => ?_
    cases r with
    | error e => trivial
    | ok c =>
      refine descends_parse_ (.oneOfChars id _) fun r => ?_
      cases r <;> trivial

theorem descends_parseBalancedTurn (hclosed : Closed g S) (id : ι) (angles : Bool) (end_ : Nat)
    (c : Char) : (parseBalancedTurn g text irsAtEnd id angles end_ c).Descends P (Asked S) := by
  rw [parseBalancedTurn]
  split_ifs
  · exact descends_parse_ (.ofGrammar hclosed.rawStringLiteral) fun r => trivial
  · exact (descends_parseQuoted hclosed id end_).bind_forall fun r => trivial
  · exact descends_parse_ (.ofGrammar hclosed.stringLiteral) fun r => trivial
  · refine descends_parse_ (.ofGrammar hclosed.comments) fun r => ?_
    cases r <;> trivial
  · rcases closer angles c with _ | close
    · trivial
    · refine descends_parse_ (.balanced id angles (.oneOfChars id _)) fun r => ?_
      cases r <;> trivial

/-- A parser of the grammar asks the parsers that it was made of, and the grammar's own. -/
theorem descends_parseClass (hclosed : Closed g S) {p : Parser ι τ ν} (hp : ∀ x ∈ p.parts, S x)
    (position : Nat) : (parseClass g text irsAtEnd p position).Descends P (Asked S) := by
  cases p with
  | anyChar | oneOfChars | anyCharExcept | charInRange | literal | identifier | hash
  | endOfFile => trivial
  | rawString id o =>
    refine descends_parse (hp o List.mem_cons_self) fun r => ?_
    cases r with
    | error e => trivial
    | ok r => exact descends_parseRawString id position r.2
  | optional id x | not id x | named id type name x =>
    refine descends_parse (hp x List.mem_cons_self) fun r => ?_
    cases r <;> trivial
  | zeroOrMore id x => exact ⟨hp x List.mem_cons_self, fun _ _ => trivial⟩
  | and id first rest => exact descends_parseAnd hp _
  | or id first rest =>
    obtain ⟨hfirst, hrest⟩ := List.forall_mem_cons.mp hp
    refine descends_parse hfirst fun r => ?_
    cases r with
    | error e => exact descends_parseOr hrest e
    | ok r => trivial
  | anyUntil id x => exact ⟨.ofGrammar (hp x List.mem_cons_self), fun _ _ => trivial⟩
  | specificUntil id match_ x =>
    obtain ⟨hmatch, hx⟩ := List.forall_mem_cons.mp hp
    exact ⟨⟨.ofGrammar hmatch, .ofGrammar (hx x List.mem_cons_self)⟩, fun _ _ => trivial⟩
  | balanced id until_ angles =>
    exact ⟨.ofGrammar (hp until_ List.mem_cons_self), fun _ _ => trivial⟩
  | nToM id n m x => exact descends_parseNToM (hp x List.mem_cons_self) m 0 _
  | nonEmptyListOf id x moreIndicator =>
    obtain ⟨hx, hmore⟩ := List.forall_mem_cons.mp hp
    exact ⟨⟨hx, hmore moreIndicator List.mem_cons_self⟩, fun _ _ => trivial⟩
  | anon id name x => exact ⟨hp x List.mem_cons_self, fun _ _ => trivial⟩
  | wrapped id target x => exact ⟨.ofGrammar (hp x List.mem_cons_self), fun _ _ => trivial⟩
  | reference id target name => exact ⟨.ofGrammar (hclosed.parserOf name), fun _ _ => trivial⟩

theorem descends_ready (hclosed : Closed g S) {p : Parser ι τ ν} (hp : Ready S p) (position : Nat) :
    (parseClass g text irsAtEnd p position).Descends P (Asked S) := by
  cases hp with
  | ofGrammar hp => exact descends_parseClass hclosed (hclosed.parts p hp) position
  | oneOfChars | literal => trivial
  | anyUntil id hx => exact ⟨hx, fun _ _ => trivial⟩
  | balanced id angles hx => exact ⟨hx, fun _ _ => trivial⟩

/-- A grammar's parsers ask nothing outside the grammar. -/
theorem descends_body (hclosed : Closed g S) {q : Query ι τ ν} (hq : Asked S q) :
    (body g text irsAtEnd q).Descends P (Asked S) := by
  cases q with
  | parse p position =>
    refine descends_parse_ (.ofGrammar hq) fun r => ?_
    cases r <;> trivial
  | parse_ p position => exact descends_ready hclosed hq position
  | zeroOrMore x result =>
    refine descends_parse hq fun r => ?_
    cases r with
    | error e => trivial
    | ok r => exact ⟨hq, fun _ _ => trivial⟩
  | anyUntil x start end_ =>
    refine descends_parse_ hq fun r => ?_
    cases r with
    | ok r => trivial
    | error e =>
      simp only
      split_ifs
      · trivial
      · exact ⟨hq, fun _ _ => trivial⟩
  | specificUntil match_ x result =>
    refine descends_parse_ hq.2 fun r => ?_
    cases r with
    | ok r => trivial
    | error e =>
      refine descends_parse_ hq.1 fun r => ?_
      cases r with
      | error e => trivial
      | ok r => exact ⟨hq, fun _ _ => trivial⟩
  | balanced until_ angles start end_ =>
    refine descends_parse_ hq fun r => ?_
    cases r with
    | ok r => trivial
    | error e =>
      simp only
      rcases text[end_]? with _ | c
      · trivial
      · refine (descends_parseBalancedTurn hclosed until_.id angles end_ c).bind_forall fun r => ?_
        cases r with
        | error e => trivial
        | ok i => exact ⟨hq, fun _ _ => trivial⟩
  | nonEmptyListOf x moreIndicator result =>
    refine descends_parse hq.1 fun r => ?_
    cases r with
    | error e => trivial
    | ok r =>
      refine descends_parse hq.2 fun more => ?_
      cases more with
      | error e => trivial
      | ok more => exact ⟨hq, fun _ _ => trivial⟩

/-- A key of the cache has one question. -/
theorem eq_of_cacheKey (hdistinct : Distinct S) ⦃q q' : Query ι τ ν⦄ ⦃k : Nat × ι⦄ (hq : Asked S q)
    (hq' : Asked S q') (hkey : cacheKey q = some k) (hkey' : cacheKey q' = some k) : q = q' := by
  cases q with
  | parse p position =>
    cases q' with
    | parse p' position' =>
      obtain ⟨rfl, hid⟩ := Prod.mk.inj (Option.some.inj (hkey.trans hkey'.symm))
      rw [hdistinct p p' hq hq' hid]
    | _ => cases hkey'
  | _ => cases hkey

end Urnest.Hcp
