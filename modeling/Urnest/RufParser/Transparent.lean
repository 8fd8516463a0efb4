import Urnest.Lib.Recording
import Urnest.RufParser.Parsers

/-!
# The cache

`parseAnew` evaluates as `parse` does, but never looks in the cache: it makes an entry of what
comes out of every parser at every place, as often as it is evaluated there. One parser may come
to be evaluated at one place under several `backrefs`, and then the entries for it may differ.
Where they do not, `parse` returns what `parseAnew` does.
-/

namespace Urnest.RufParser

open Lib

/-- `parse_some_of` without the cache -/
def parseSomeOfAnew (program : Program) : Nat → Call
  | 0, _, _, _, _ => throw .outOfFuel
  | n + 1, p, text, cache, backrefs => do
    if cache.len ≠ text.len + 1 then throw (.panic .assertion)
    recording (cache.start, p)
      (parseSomeOf_ n (parseSomeOfAnew program n) (program p) text cache backrefs)

/-- The outcome, and all that was evaluated on the way -/
def parseAnew (program : Program) (fuel : Nat) (parser : Ref) (chars : List Char) :
    Result (Outcome × Entries) :=
  (parseSomeOfAnew program fuel parser ⟨0, chars⟩ ⟨0, byteLen chars + 1⟩ []).run []

/-! ## One lemma for each combinator -/

section

variable {F : Entries} {call call' : Call} {backrefs : List BackReffable}
  (hcall : ∀ p text cache backrefs,
    Follows F (call p text cache backrefs) (call' p text cache backrefs))

include hcall

theorem follows_and (text : Str) (terms : List Ref) (rest : Str) (cache : CacheSlice)
    (components : Components) :
    Follows F (parseAnd call backrefs text terms rest cache components)
      (parseAnd call' backrefs text terms rest cache components) := by
  induction terms generalizing rest cache components with
  | nil => exact (Follows.lift _).bind fun _ => .pure _
  | cons term terms ih =>
    refine (hcall ..).bind fun result => ?_
    cases result.matched? with
    | none => exact .pure _
    | some matched => exact (Follows.lift _).bind fun t => (Follows.lift _).bind fun c => ih ..

theorem follows_or (text : Str) (cache : CacheSlice) (terms : List Ref)
    (components : Components) :
    Follows F (parseOr call backrefs text cache terms components)
      (parseOr call' backrefs text cache terms components) := by
  induction terms generalizing components with
  | nil => exact .pure _
  | cons term terms ih =>
    refine (hcall ..).bind fun result => ?_
    cases result.matched? with
    | none => exact ih _
    | some matched => exact .pure _

theorem follows_tagged (content : Ref) (text : Str) (cache : CacheSlice) :
    Follows F (parseTagged call backrefs content text cache)
      (parseTagged call' backrefs content text cache) := (hcall ..).bind fun _ => .pure _

theorem follows_more (x : Ref) (text : Str) (fuel : Nat) (rest : Str) (cache : CacheSlice)
    (components : Components) :
    Follows F (parseMore call backrefs x text fuel rest cache components)
      (parseMore call' backrefs x text fuel rest cache components) := by
  induction fuel generalizing rest cache components with
  | zero => exact .throw _
  | succ n ih =>
    refine (hcall ..).bind fun result => ?_
    cases result.matched? with
    | none => exact (Follows.lift _).bind fun _ => .pure _
    | some matched => exact (Follows.lift _).bind fun t => (Follows.lift _).bind fun c => ih ..

theorem follows_atLeastOne (fuel : Nat) (x : Ref) (text : Str) (cache : CacheSlice) :
    Follows F (parseAtLeastOne call backrefs fuel x text cache)
      (parseAtLeastOne call' backrefs fuel x text cache) := by
  refine (hcall ..).bind fun result => ?_
  cases result.matched? with
  | none => exact .pure _
  | some matched =>
    exact (Follows.lift _).bind fun t => (Follows.lift _).bind fun c => follows_more hcall ..

theorem follows_xUntilY (x y : Ref) (text : Str) (fuel : Nat) (rest : Str) (cache : CacheSlice)
    (components : Components) :
    Follows F (parseXUntilY call backrefs x y text fuel rest cache components)
      (parseXUntilY call' backrefs x y text fuel rest cache components) := by
  induction fuel generalizing rest cache components with
  | zero => exact .throw _
  | succ n ih =>
    refine (hcall ..).bind fun close => ?_
    cases close.matched? with
    | some matched => exact (Follows.lift _).bind fun _ => .pure _
    | none =>
      refine (hcall ..).bind fun item => ?_
      cases item.matched? with
      | none => exact .pure _
      | some matched => exact (Follows.lift _).bind fun t => (Follows.lift _).bind fun c => ih ..

theorem follows_balanced {toY toY' : Ref → Str → CacheSlice → Parse CompositeResult}
    (htoY : ∀ y text cache, Follows F (toY y text cache) (toY' y text cache)) (rest : Str)
    (cache : CacheSlice) (pairs : List (Ref × Ref)) :
    Follows F (parseBalanced call backrefs toY rest cache pairs)
      (parseBalanced call' backrefs toY' rest cache pairs) := by
  induction pairs with
  | nil => exact .pure _
  | cons pair pairs ih =>
    refine (hcall ..).bind fun opened => ?_
    cases opened.matched? with
    | none => exact ih
    | some matched =>
      refine (Follows.lift _).bind fun t => (Follows.lift _).bind fun c => ?_
      refine (htoY ..).bind fun inner => ?_
      cases inner.1 with
      | none => exact .pure _
      | some matched =>
        refine (Follows.lift _).bind fun t => (Follows.lift _).bind fun c => ?_
        refine (hcall ..).bind fun close => ?_
        cases close.matched? with
        | none => exact .throw _
        | some matched =>
          exact (Follows.lift _).bind fun t => (Follows.lift _).bind fun c => .pure _

theorem follows_toY (pairs : List (Ref × Ref)) (content : Ref) (fuel : Nat) (y : Ref)
    (text rest : Str) (cache : CacheSlice) (components : Components) :
    Follows F (parseToY call backrefs pairs content fuel y text rest cache components)
      (parseToY call' backrefs pairs content fuel y text rest cache components) := by
  induction fuel generalizing y text rest cache components with
  | zero => exact .throw _
  | succ n ih =>
    refine (hcall ..).bind fun ended => ?_
    cases ended.matched? with
    | some matched => exact (Follows.lift _).bind fun _ => .pure _
    | none =>
      refine (follows_balanced hcall (fun y text cache => ih ..) ..).bind fun nested => ?_
      cases nested with
      | failed more => exact .pure _
      | closed t c more => exact ih ..
      | unopened =>
        refine (hcall ..).bind fun item => ?_
        cases item.matched? with
        | none => exact .pure _
        | some matched => exact (Follows.lift _).bind fun t => (Follows.lift _).bind fun c => ih ..

theorem follows_backRef (id : String) (text : Str) (cache : CacheSlice) :
    Follows F (parseBackRef call backrefs id text cache)
      (parseBackRef call' backrefs id text cache) := by
  rw [parseBackRef, parseBackRef]
  cases backrefs.find? fun x => x.1 = id with
  | none => exact .throw _
  | some x => exact hcall ..

theorem follows_switch (text : Str) (cache : CacheSlice) (cases : List (Ref × Ref))
    (components : Components) :
    Follows F (parseSwitch call backrefs text cache cases components)
      (parseSwitch call' backrefs text cache cases components) := by
  induction cases generalizing components with
  | nil => exact .pure _
  | cons case cases ih =>
    refine (hcall ..).bind fun result => ?_
    cases result.matched? with
    | none => exact ih _
    | some matched =>
      refine (Follows.lift _).bind fun t => (Follows.lift _).bind fun c => ?_
      refine (hcall ..).bind fun inside => ?_
      cases inside.matched? with
      | none => exact .pure _
      | some matched => exact (Follows.lift _).bind fun _ => .pure _

theorem follows_lookingAt (x : Ref) (text : Str) (cache : CacheSlice) :
    Follows F (parseLookingAt call backrefs x text cache)
      (parseLookingAt call' backrefs x text cache) := by
  refine (hcall ..).bind fun r => ?_
  cases r.matched? with
  | none => exact .pure _
  | some matched => exact (Follows.lift _).bind fun _ => .pure _

theorem follows_not (x : Ref) (text : Str) (cache : CacheSlice) :
    Follows F (parseNot call backrefs x text cache) (parseNot call' backrefs x text cache) := by
  refine (hcall ..).bind fun r => ?_
  cases r.matched? with
  | none => exact (Follows.lift _).bind fun _ => .pure _
  | some matched => exact (Follows.lift _).bind fun _ => .pure _

theorem follows_parseSomeOf_ (fuel : Nat) (p : Parser) (text : Str) (cache : CacheSlice)
    (backrefs : List BackReffable) :
    Follows F (parseSomeOf_ fuel call p text cache backrefs)
      (parseSomeOf_ fuel call' p text cache backrefs) := by
  cases p with
  | none => exact (Follows.lift _).bind fun _ => .pure _
  | literal | endOfInput | anyChar | digit | char | oneOfChars | anyCharExcept =>
    exact Follows.lift _
  | and => exact follows_and hcall ..
  | or => exact follows_or hcall ..
  | tagged => exact follows_tagged hcall ..
  | atLeastOne => exact follows_atLeastOne hcall ..
  | zeroOrMore => exact follows_more hcall ..
  | xUntilY => exact follows_xUntilY hcall ..
  | balancedUntilY => exact (follows_toY hcall ..).bind fun _ => .pure _
  | backRefs => exact hcall ..
  | backRef => exact follows_backRef hcall ..
  | switch => exact follows_switch hcall ..
  | lookingAt => exact follows_lookingAt hcall ..
  | not => exact follows_not hcall ..

end

/-! ## The cache changes nothing where it is functional -/

theorem parseSomeOf_succ (program : Program) (n : Nat) (p : Ref) (text : Str)
    (cache : CacheSlice) (backrefs : List BackReffable) :
    parseSomeOf program (n + 1) p text cache backrefs = (do
      if cache.len ≠ text.len + 1 then throw (.panic .assertion)
      recalling (cache.start, p)
        (parseSomeOf_ n (parseSomeOf program n) (program p) text cache backrefs)) := by
  rw [parseSomeOf]
  split_ifs
  · rfl
  · dsimp only
    rw [recalling]
    refine congrArg _ (funext fun entries => ?_)
    cases entries.lookup (cache.start, p) <;> rfl

theorem follows_parseSomeOf (program : Program) {F : Entries} (hF : Functional F) (fuel : Nat)
    (p : Ref) (text : Str) (cache : CacheSlice) (backrefs : List BackReffable) :
    Follows F (parseSomeOf program fuel p text cache backrefs)
      (parseSomeOfAnew program fuel p text cache backrefs) := by
  induction fuel generalizing p text cache backrefs with
  | zero => exact .throw _
  | succ n ih =>
    have hbody := Follows.recalling (k := (cache.start, p)) hF
      (follows_parseSomeOf_ ih n (program p) text cache backrefs)
    rw [parseSomeOf_succ, parseSomeOfAnew]
    split_ifs
    · exact (Follows.throw _).bind fun _ => hbody
    · exact hbody

theorem parse_of_parseAnew {program : Program} {fuel : Nat} {parser : Ref} {chars : List Char}
    {outcome : Outcome} {entries : Entries}
    (h : parseAnew program fuel parser chars = .ok (outcome, entries))
    (hentries : Functional entries) : parse program fuel parser chars = .ok outcome := by
  obtain ⟨-, hfollows⟩ := (follows_parseSomeOf program hentries ..).run h
  obtain ⟨s, hs, -⟩ := hfollows (fun _ hx => hx) [] (List.nil_subset _)
  exact bind_eq_ok.mpr ⟨(outcome, s), hs, rfl⟩

/-- Of `a|a` at `b`, the second `a` is recalled. -/
theorem parse_of_parseAnew_again :
    let program : Program := fun
      | 0 => .or 1 [1]
      | _ => .char 'a'
    ∃ outcome, parse program 2 0 ['b'] = .ok outcome ∧ outcome.matched? = none := by
  intro program
  let failed : Outcome := .leaf ⟨0, []⟩ (some .char)
  let both : Outcome := .composite none [(⟨1, ⟨0, ['b']⟩⟩, failed), (⟨1, ⟨0, ['b']⟩⟩, failed)]
  let entries : Entries := [((0, 0), both), ((0, 1), failed), ((0, 1), failed)]
  have hanew : parseAnew program 2 0 ['b'] = .ok (both, entries) := rfl
  have hentries : Functional entries := by
    intro k v v' h h'
    simp only [entries, List.mem_cons, List.not_mem_nil, or_false, Prod.mk.injEq] at h h'
    grind
  exact ⟨both, parse_of_parseAnew hanew hentries, rfl⟩

/-- `backrefs([("x", a)], r) | backrefs([("x", b)], r)` at `b`, where `r` is `backref("x")` -/
theorem not_transparent : ¬∀ program fuel parser chars outcome entries,
    parseAnew program fuel parser chars = .ok (outcome, entries) →
      parse program fuel parser chars = .ok outcome := by
  intro h
  let program : Program := fun
    | 0 => .or 1 [2]
    | 1 => .backRefs [("x", 4)] 3
    | 2 => .backRefs [("x", 5)] 3
    | 3 => .backRef "x"
    | 4 => .char 'a'
    | _ => .char 'b'
  have hanew := h program 4 0 ['b'] _ _ rfl
  have hmatched := congrArg (Except.map Outcome.matched?) hanew
  have hcached : (parse program 4 0 ['b']).map Outcome.matched? = .ok none := by decide
  cases hcached.symm.trans hmatched

end Urnest.RufParser
