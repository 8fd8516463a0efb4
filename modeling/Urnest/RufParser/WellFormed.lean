import Urnest.RufParser.Parsers

/-!
# Well-formed programs

What a program must be for its parsers to come to an end: a back reference names one of its
back references, what is repeated consumes, and no parser calls itself again where it was
called.

`MayBeEmpty` says which parsers may match the empty string, and `LeftCalls` which parsers a
parser may call at its own place in the text.
-/

namespace Urnest.RufParser

/-- The parsers that a parser calls, with the back references that it was called with -/
def Parser.calls : Parser → List Ref
  | and first others => first :: others
  | or first others => first :: others
  | tagged _ content => [content]
  | atLeastOne x => [x]
  | zeroOrMore x => [x]
  | xUntilY x y => [x, y]
  | balancedUntilY pairs content y => content :: y :: (pairs.map Prod.fst ++ pairs.map Prod.snd)
  | switch first others => (first :: others).map Prod.fst ++ (first :: others).map Prod.snd
  | lookingAt x => [x]
  | not x => [x]
  | _ => []

/-- The parsers that a parser calls again and again -/
def Parser.repeated : Parser → List Ref
  | atLeastOne x => [x]
  | zeroOrMore x => [x]
  | xUntilY x _ => [x]
  | balancedUntilY pairs content _ => content :: pairs.map Prod.fst
  | _ => []

/-- The characters that a parser of one character takes -/
def Parser.takes? : Parser → Option (Char → Bool)
  | anyChar => some fun _ => true
  | digit => some fun c => '0' ≤ c ∧ c ≤ '9'
  | char x => some (· = x)
  | oneOfChars chars => some (· ∈ chars)
  | anyCharExcept chars => some (· ∉ chars)
  | _ => Option.none

/-- A parser may be called with these back references. -/
inductive Meets (program : Program) (root : Ref) : Ref → List BackReffable → Prop where
  | root : Meets program root root []
  | call {p q : Ref} {backrefs : List BackReffable} (h : Meets program root p backrefs)
      (hq : q ∈ (program p).calls) : Meets program root q backrefs
  | backRefs {p q : Ref} {backrefs inside : List BackReffable} (h : Meets program root p backrefs)
      (hp : program p = .backRefs inside q) : Meets program root q inside
  | backRef {p : Ref} {id : String} {backrefs : List BackReffable} {x : BackReffable}
      (h : Meets program root p backrefs) (hp : program p = .backRef id)
      (hx : (backrefs.find? fun y => y.1 = id) = some x) : Meets program root x.2 backrefs

section Calls

variable (program : Program) (target : Ref → Ref)

/-- A parser may match the empty string; `target` is what a back reference stands for. -/
inductive MayBeEmpty : Ref → Prop where
  | and {p first : Ref} {others : List Ref} (hp : program p = .and first others)
      (h : ∀ q ∈ first :: others, MayBeEmpty q) : MayBeEmpty p
  | or {p first q : Ref} {others : List Ref} (hp : program p = .or first others)
      (hq : q ∈ first :: others) (h : MayBeEmpty q) : MayBeEmpty p
  | none {p : Ref} (hp : program p = .none) : MayBeEmpty p
  | literal {p : Ref} (hp : program p = .literal []) : MayBeEmpty p
  | endOfInput {p : Ref} (hp : program p = .endOfInput) : MayBeEmpty p
  | tagged {p content : Ref} {tag : String} (hp : program p = .tagged tag content)
      (h : MayBeEmpty content) : MayBeEmpty p
  | atLeastOne {p x : Ref} (hp : program p = .atLeastOne x) (h : MayBeEmpty x) : MayBeEmpty p
  | zeroOrMore {p x : Ref} (hp : program p = .zeroOrMore x) : MayBeEmpty p
  | xUntilY {p x y : Ref} (hp : program p = .xUntilY x y) (h : MayBeEmpty y) : MayBeEmpty p
  | balancedUntilY {p content y : Ref} {pairs : List (Ref × Ref)}
      (hp : program p = .balancedUntilY pairs content y) : MayBeEmpty p
  | backRefs {p q : Ref} {inside : List BackReffable} (hp : program p = .backRefs inside q)
      (h : MayBeEmpty q) : MayBeEmpty p
  | backRef {p : Ref} {id : String} (hp : program p = .backRef id) (h : MayBeEmpty (target p)) :
      MayBeEmpty p
  | switch {p : Ref} {first x : Ref × Ref} {others : List (Ref × Ref)}
      (hp : program p = .switch first others) (hx : x ∈ first :: others) (h : MayBeEmpty x.1)
      (h' : MayBeEmpty x.2) : MayBeEmpty p
  | lookingAt {p x : Ref} (hp : program p = .lookingAt x) : MayBeEmpty p
  | not {p x : Ref} (hp : program p = .not x) : MayBeEmpty p

/-- `q` may be called by `p` where `p` was called. -/
inductive LeftCalls : Ref → Ref → Prop where
  | and {p q first : Ref} {others before behind : List Ref} (hp : program p = .and first others)
      (hsplit : first :: others = before ++ q :: behind)
      (h : ∀ r ∈ before, MayBeEmpty program target r) : LeftCalls q p
  | or {p q first : Ref} {others : List Ref} (hp : program p = .or first others)
      (hq : q ∈ first :: others) : LeftCalls q p
  | tagged {p q : Ref} {tag : String} (hp : program p = .tagged tag q) : LeftCalls q p
  | atLeastOne {p q : Ref} (hp : program p = .atLeastOne q) : LeftCalls q p
  | zeroOrMore {p q : Ref} (hp : program p = .zeroOrMore q) : LeftCalls q p
  | xUntilY {p q x y : Ref} (hp : program p = .xUntilY x y) (hq : q = x ∨ q = y) : LeftCalls q p
  | balancedUntilY {p q content y : Ref} {pairs : List (Ref × Ref)}
      (hp : program p = .balancedUntilY pairs content y)
      (hq : q = content ∨ q = y ∨ q ∈ pairs.map Prod.fst) : LeftCalls q p
  | backRefs {p q : Ref} {inside : List BackReffable} (hp : program p = .backRefs inside q) :
      LeftCalls q p
  | backRef {p : Ref} {id : String} (hp : program p = .backRef id) : LeftCalls (target p) p
  | case {p : Ref} {first x : Ref × Ref} {others : List (Ref × Ref)}
      (hp : program p = .switch first others) (hx : x ∈ first :: others) : LeftCalls x.1 p
  | content {p : Ref} {first x : Ref × Ref} {others : List (Ref × Ref)}
      (hp : program p = .switch first others) (hx : x ∈ first :: others)
      (h : MayBeEmpty program target x.1) : LeftCalls x.2 p
  | lookingAt {p q : Ref} (hp : program p = .lookingAt q) : LeftCalls q p
  | not {p q : Ref} (hp : program p = .not q) : LeftCalls q p

end Calls

/-- What is called on the left is called. -/
theorem LeftCalls.mem_calls {program : Program} {target : Ref → Ref} {p q : Ref}
    (h : LeftCalls program target q p) :
    q ∈ (program p).calls ∨ (∃ inside, program p = .backRefs inside q) ∨
      ∃ id, program p = .backRef id := by
  cases h with
  | and hp hsplit => left; rw [hp, Parser.calls, hsplit]; simp
  | or hp hq => left; rw [hp]; exact hq
  | tagged hp => left; rw [hp]; exact List.mem_singleton.mpr rfl
  | atLeastOne hp => left; rw [hp]; exact List.mem_singleton.mpr rfl
  | zeroOrMore hp => left; rw [hp]; exact List.mem_singleton.mpr rfl
  | xUntilY hp hq => left; rw [hp]; simpa [Parser.calls] using hq
  | balancedUntilY hp hq =>
    left
    rw [hp, Parser.calls, List.mem_cons, List.mem_cons, List.mem_append]
    exact hq.imp_right (Or.imp_right Or.inl)
  | backRefs hp => exact .inr (.inl ⟨_, hp⟩)
  | backRef hp => exact .inr (.inr ⟨_, hp⟩)
  | case hp hx => left; rw [hp]; exact List.mem_append_left _ (List.mem_map_of_mem hx)
  | content hp hx => left; rw [hp]; exact List.mem_append_right _ (List.mem_map_of_mem hx)
  | lookingAt hp => left; rw [hp]; exact List.mem_singleton.mpr rfl
  | not hp => left; rw [hp]; exact List.mem_singleton.mpr rfl

/-- Every back reference names one of its back references, and stands for the same parser
wherever it is used; what is repeated consumes; there is no left recursion. -/
structure WellFormed (program : Program) (root : Ref) (target : Ref → Ref) : Prop where
  named : ∀ p backrefs id, Meets program root p backrefs → program p = .backRef id →
    ∃ x, (backrefs.find? fun y => y.1 = id) = some x ∧ x.2 = target p
  consumes : ∀ p, ∀ q ∈ (program p).repeated, ¬ MayBeEmpty program target q
  leftCalls : WellFounded (LeftCalls program target)

end Urnest.RufParser
