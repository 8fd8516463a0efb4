import Mathlib
import Urnest.RufParser.Derivation

/-!
# The AST and the derivation

What is evaluated without the cache reads the derivation, one lemma for each combinator; with
the cache it is the same wherever the cache changes nothing. So the AST is that of the
derivation just where no node of it is lost.
-/

namespace Urnest.RufParser

open Lib

variable {program : Program}

/-! ## What is kept -/

/-- All of `ys` but as many as are lost -/
def Kept (xs ys : List AST) (lost : Nat) : Prop :=
  forestCount xs + lost = forestCount ys ∧ (lost = 0 → xs = ys)

theorem Kept.nil : Kept [] [] 0 := ⟨rfl, fun _ => rfl⟩

theorem Kept.append {xs ys xs' ys' : List AST} {lost lost' : Nat} (h : Kept xs ys lost)
    (h' : Kept xs' ys' lost') : Kept (xs ++ xs') (ys ++ ys') (lost + lost') := by
  refine ⟨?_, fun hlost => ?_⟩
  · have hcount := h.1
    have hcount' := h'.1
    rw [forestCount_append, forestCount_append]
    omega
  · obtain ⟨hnone, hnone'⟩ := Nat.add_eq_zero_iff.mp hlost
    rw [h.2 hnone, h'.2 hnone']

theorem Kept.node {xs ys : List AST} {lost : Nat} (h : Kept xs ys lost) (item : Item) :
    Kept [.mk item xs] [.mk item ys] lost := by
  refine ⟨?_, fun hlost => by rw [h.2 hlost]⟩
  have hcount := h.1
  simp only [forestCount, nodeCount]
  omega

theorem Kept.iff {xs ys : List AST} {lost : Nat} (h : Kept xs ys lost) :
    xs = ys ↔ lost = 0 := by
  refine ⟨fun heq => ?_, h.2⟩
  have hcount := h.1
  rw [heq] at hcount
  omega

theorem eq_nil_of_forestCount {xs : List AST} (h : forestCount xs = 0) : xs = [] := by
  cases xs with
  | nil => rfl
  | cons x xs =>
    obtain ⟨item, children⟩ := x
    rw [forestCount, nodeCount] at h
    omega

theorem Kept.dropped (xs : List AST) : Kept [] xs (forestCount xs) :=
  ⟨Nat.zero_add _, fun h => (eq_nil_of_forestCount h).symm⟩

/-! ## Outcomes -/

variable (program)

/-- What an outcome gives under an untagged goal -/
def innerAsts : Outcome → List AST
  | .composite (some _) components => allAsts program components
  | .composite none _ => []
  | .leaf _ _ => []

/-- What comes of a parser that has no tag -/
structure Inner (outcome : Outcome) (d : Derived) : Prop where
  matched : outcome.matched? = d.matched
  kept : Kept (innerAsts program outcome) d.nodes d.lost

structure Reads (p : Ref) (outcome : Outcome) (d : Derived) : Prop where
  matched : outcome.matched? = d.matched
  kept : ∀ text, Kept (componentAsts program ⟨p, text⟩ outcome) d.nodes d.lost
  inner : Inner program outcome (d.behind program p)

theorem componentAsts_eq_inner {goal : Goal} (h : (program goal.parser).tag = none)
    (outcome : Outcome) : componentAsts program goal outcome = innerAsts program outcome := by
  cases outcome with
  | leaf => rfl
  | composite matched components =>
    cases matched with
    | none => rfl
    | some matched => rw [componentAsts, h, innerAsts]

theorem allAsts_append (xs ys : Components) :
    allAsts program (xs ++ ys) = allAsts program xs ++ allAsts program ys := by
  induction xs with
  | nil => rfl
  | cons x xs ih =>
    obtain ⟨goal, outcome⟩ := x
    rw [List.cons_append, allAsts, allAsts, ih, List.append_assoc]

variable {program}

theorem allAsts_single (goal : Goal) (outcome : Outcome) :
    allAsts program [(goal, outcome)] = componentAsts program goal outcome := by
  rw [allAsts, allAsts, List.append_nil]

theorem Inner.reads {p : Ref} (h : (program p).tag = none) {outcome : Outcome} {d : Derived}
    (hinner : Inner program outcome d) : Reads program p outcome d where
  matched := hinner.matched
  kept text := (componentAsts_eq_inner program h outcome : componentAsts program ⟨p, text⟩ outcome = _) ▸
    hinner.kept
  inner := by
    rw [Derived.behind, if_neg fun hsome => by rw [h] at hsome; cases hsome.1]
    exact hinner

theorem Inner.failed {components : Components} : Inner program (.composite none components) .failed :=
  ⟨rfl, .nil⟩

/-- A component more -/
theorem Reads.append {p : Ref} {outcome : Outcome} {d : Derived} (h : Reads program p outcome d)
    {components : Components} {nodes : List AST} {lost : Nat}
    (hkept : Kept (allAsts program components) nodes lost) (text : Str) :
    Kept (allAsts program (components ++ [(⟨p, text⟩, outcome)])) (nodes ++ d.nodes)
      (lost + d.lost) := by
  rw [allAsts_append, allAsts_single]
  exact hkept.append (h.kept text)

/-- One that failed adds nothing. -/
theorem Reads.append_failed {p : Ref} {outcome : Outcome} (h : outcome.matched? = none)
    (components : Components) (text : Str) :
    allAsts program (components ++ [(⟨p, text⟩, outcome)]) = allAsts program components := by
  rw [allAsts_append, allAsts_single]
  cases outcome with
  | leaf => exact List.append_nil _
  | composite matched cs =>
    cases h
    exact List.append_nil _

/-! ## Steps that go together -/

/-- Where the one returns so does the other, and what they return is related. -/
structure Simulates {α β : Type} (x : Parse α) (y : Result β) (rel : α → β → Prop) : Prop where
  run : ∀ {t v t'}, x t = .ok (v, t') → ∃ w, y = .ok w ∧ rel v w

namespace Simulates

variable {α β γ δ : Type} {rel : γ → δ → Prop}

theorem pure {v : γ} {w : δ} (h : rel v w) : Simulates (Pure.pure v) (Pure.pure w) rel := by
  refine ⟨fun {t v' t'} hrun => ?_⟩
  cases hrun
  exact ⟨w, rfl, h⟩

theorem throw (e : Stop) {y : Result δ} : Simulates (MonadExcept.throw e : Parse γ) y rel :=
  ⟨fun h => nomatch h⟩

theorem bind {rel' : α → β → Prop} {x : Parse α} {y : Result β} {f : α → Parse γ}
    {g : β → Result δ} (h : Simulates x y rel') (hf : ∀ a b, rel' a b → Simulates (f a) (g b) rel) :
    Simulates (x >>= f) (y >>= g) rel := by
  refine ⟨fun {t v t'} hrun => ?_⟩
  obtain ⟨a, s, hx, hfa⟩ := run_bind_eq_ok.mp hrun
  obtain ⟨b, rfl, hab⟩ := h.run hx
  exact (hf a b hab).run hfa

theorem lift_bind {r : Result α} {f : α → Parse γ} {g : α → Result δ}
    (h : ∀ a, Simulates (f a) (g a) rel) : Simulates (liftM r >>= f) (r >>= g) rel := by
  refine ⟨fun {t v t'} hrun => ?_⟩
  cases r with
  | error e => cases hrun
  | ok a => exact (h a).run hrun

/-- A step that the derivation does not have -/
theorem skip {r : Result α} {f : α → Parse γ} {y : Result δ}
    (h : ∀ a, Simulates (f a) y rel) : Simulates (liftM r >>= f) y rel := by
  refine ⟨fun {t v t'} hrun => ?_⟩
  cases r with
  | error e => cases hrun
  | ok a => exact (h a).run hrun

theorem mono {rel' : γ → δ → Prop} {x : Parse γ} {y : Result δ} (h : Simulates x y rel)
    (hrel : ∀ v w, rel v w → rel' v w) : Simulates x y rel' := by
  refine ⟨fun {t v t'} hrun => ?_⟩
  obtain ⟨w, hw, hvw⟩ := h.run hrun
  exact ⟨w, hw, hrel v w hvw⟩

end Simulates

/-! ## One lemma for each combinator -/

/-- Its components, and what comes of them -/
def ReadsComposite (program : Program) (result : CompositeResult) (d : Derived) : Prop :=
  Inner program (.composite result.1 result.2) d

theorem Inner.composite {components : Components} {nodes : List AST} {lost : Nat} (matched : Str)
    (h : Kept (allAsts program components) nodes lost) :
    Inner program (.composite (some matched) components) ⟨some matched, nodes, lost⟩ := ⟨rfl, h⟩

inductive ReadsNested (program : Program) : Nested → DerivedNested → Prop where
  | unopened : ReadsNested program .unopened .unopened
  | failed (components : Components) : ReadsNested program (.failed components) .failed
  | closed (rest : Str) (cache : CacheSlice) {components : Components} {nodes : List AST}
      {lost : Nat} (h : Kept (allAsts program components) nodes lost) :
      ReadsNested program (.closed rest cache components) (.closed rest nodes lost)

theorem Inner.leaf (matched : Str) (unexpected : Option Unexpected) :
    Inner program (.leaf matched unexpected) ⟨(Outcome.leaf matched unexpected).matched?, [], 0⟩ :=
  ⟨rfl, .nil⟩

theorem simulates_leaf {x : Result Outcome}
    (h : ∀ outcome, x = .ok outcome → ∃ matched unexpected, outcome = .leaf matched unexpected) :
    Simulates (liftM x) (deriveLeaf x) (Inner program) := by
  refine ⟨fun {t v t'} hrun => ?_⟩
  cases x with
  | error e => cases hrun
  | ok outcome =>
    cases hrun
    obtain ⟨matched, unexpected, rfl⟩ := h _ rfl
    exact ⟨_, rfl, .leaf matched unexpected⟩

theorem leaf_of_slice {slice : Result Str} {unexpected : Option Unexpected} {outcome : Outcome}
    (h : (do return .leaf (← slice) unexpected) = Except.ok outcome) :
    ∃ matched unexpected, outcome = .leaf matched unexpected := by
  obtain ⟨matched, -, heq⟩ := bind_eq_ok.mp h
  cases heq
  exact ⟨matched, unexpected, rfl⟩

theorem parseOne_leaf {takes : Char → Bool} {text : Str} {outcome : Outcome}
    (h : parseOne takes text = .ok outcome) :
    ∃ matched unexpected, outcome = .leaf matched unexpected := by
  rw [parseOne] at h
  split at h
  · split_ifs at h
    · exact leaf_of_slice h
    · exact leaf_of_slice h
  · exact leaf_of_slice h

theorem parseLiteral_leaf {text : Str} {i j : Nat} {cs ds : List Char} {outcome : Outcome}
    (h : parseLiteral text i j cs ds = .ok outcome) :
    ∃ matched unexpected, outcome = .leaf matched unexpected := by
  induction cs generalizing i j ds with
  | nil =>
    cases ds with
    | nil =>
      cases h
      exact ⟨_, _, rfl⟩
    | cons d ds => exact leaf_of_slice h
  | cons c cs ih =>
    cases ds with
    | nil => exact leaf_of_slice h
    | cons d ds =>
      rw [parseLiteral] at h
      split_ifs at h
      · exact ih h
      · exact leaf_of_slice h

theorem parseEndOfInput_leaf {text : Str} {outcome : Outcome}
    (h : parseEndOfInput text = .ok outcome) :
    ∃ matched unexpected, outcome = .leaf matched unexpected := by
  rw [parseEndOfInput] at h
  split at h
  · cases h
    exact ⟨_, _, rfl⟩
  · exact leaf_of_slice h

section

variable {call : Call} {read : Read} {backrefs : List BackReffable}
  (hread : ∀ p text cache backrefs,
    Simulates (call p text cache backrefs) (read p text backrefs) (Reads program p))

include hread

theorem simulates_and (text : Str) (terms : List Ref) (rest : Str) (cache : CacheSlice)
    {components : Components} {nodes : List AST} {lost : Nat}
    (hkept : Kept (allAsts program components) nodes lost) :
    Simulates (parseAnd call backrefs text terms rest cache components)
      (deriveAnd read backrefs text terms rest nodes lost) (Inner program) := by
  induction terms generalizing rest cache components nodes lost with
  | nil => exact .lift_bind fun matched => .pure (.composite matched hkept)
  | cons term terms ih =>
    refine (hread ..).bind fun result d hd => ?_
    rw [← hd.matched]
    cases result.matched? with
    | none => exact .pure .failed
    | some matched => exact .lift_bind fun t => .skip fun c => ih t c (hd.append hkept rest)

theorem simulates_or (text : Str) (cache : CacheSlice) (terms : List Ref)
    {components : Components} (hkept : allAsts program components = []) :
    Simulates (parseOr call backrefs text cache terms components)
      (deriveOr read backrefs text terms) (Inner program) := by
  induction terms generalizing components with
  | nil => exact .pure .failed
  | cons term terms ih =>
    refine (hread ..).bind fun result d hd => ?_
    have hmatched := hd.matched
    rw [← hmatched]
    cases hresult : result.matched? with
    | none => exact ih ((Reads.append_failed hresult _ text).trans hkept)
    | some matched =>
      refine .pure ⟨hresult.symm.trans hmatched, ?_⟩
      rw [innerAsts, allAsts_append, allAsts_single, hkept]
      exact hd.kept text

theorem simulates_tagged {p : Ref} {tag : String} {content : Ref}
    (hp : program p = .tagged tag content) (text : Str) (cache : CacheSlice) :
    Simulates (parseTagged call backrefs content text cache)
      (deriveTagged read backrefs tag content text) (Reads program p) := by
  refine (hread ..).bind fun result d hd => ?_
  rw [← hd.matched]
  cases result.matched? with
  | none =>
    refine .pure ⟨rfl, fun _ => .nil, ?_⟩
    rw [Derived.behind, if_neg fun hsome => by cases hsome.2]
    exact .failed
  | some matched =>
    have hkept := hd.kept text
    rw [← allAsts_single] at hkept
    refine .pure ⟨rfl, fun text' => ?_, ?_⟩
    · rw [componentAsts, hp]
      exact hkept.node _
    -- Under a goal without a tag the node is gone, and its children are in its place.
    · rw [Derived.behind, if_pos ⟨by rw [hp]; rfl, rfl⟩]
      have hcount := hkept.1
      refine ⟨rfl, ?_, fun hlost => nomatch hlost⟩
      simp only [innerAsts, forestCount, nodeCount]
      omega

theorem simulates_more (x : Ref) (text : Str) (fuel : Nat) (rest : Str) (cache : CacheSlice)
    {components : Components} {nodes : List AST} {lost : Nat}
    (hkept : Kept (allAsts program components) nodes lost) :
    Simulates (parseMore call backrefs x text fuel rest cache components)
      (deriveMore read backrefs x text fuel rest nodes lost) (Inner program) := by
  induction fuel generalizing rest cache components nodes lost with
  | zero => exact .throw _
  | succ n ih =>
    refine (hread ..).bind fun result d hd => ?_
    rw [← hd.matched]
    cases result.matched? with
    | none => exact .lift_bind fun matched => .pure (.composite matched hkept)
    | some matched => exact .lift_bind fun t => .skip fun c => ih t c (hd.append hkept rest)

theorem simulates_atLeastOne (fuel : Nat) (x : Ref) (text : Str) (cache : CacheSlice) :
    Simulates (parseAtLeastOne call backrefs fuel x text cache)
      (deriveAtLeastOne read backrefs fuel x text) (Inner program) := by
  refine (hread ..).bind fun result d hd => ?_
  rw [← hd.matched]
  cases result.matched? with
  | none => exact .pure .failed
  | some matched =>
    have hkept := hd.kept text
    rw [← allAsts_single] at hkept
    exact .lift_bind fun t => .skip fun c => simulates_more hread _ _ _ _ _ hkept

theorem simulates_xUntilY (x y : Ref) (text : Str) (fuel : Nat) (rest : Str) (cache : CacheSlice)
    {components : Components} {nodes : List AST} {lost : Nat}
    (hkept : Kept (allAsts program components) nodes lost) :
    Simulates (parseXUntilY call backrefs x y text fuel rest cache components)
      (deriveXUntilY read backrefs x y text fuel rest nodes lost) (Inner program) := by
  induction fuel generalizing rest cache components nodes lost with
  | zero => exact .throw _
  | succ n ih =>
    refine (hread ..).bind fun close d hd => ?_
    rw [← hd.matched]
    cases close.matched? with
    | some matched =>
      exact .lift_bind fun through => .pure (.composite through (hd.append hkept rest))
    | none =>
      refine (hread ..).bind fun item d' hd' => ?_
      rw [← hd'.matched]
      cases item.matched? with
      | none => exact .pure .failed
      | some matched => exact .lift_bind fun t => .skip fun c => ih t c (hd'.append hkept rest)

/-- What is between the brackets is not kept. -/
theorem simulates_balanced {toY : Ref → Str → CacheSlice → Parse CompositeResult}
    {toY' : Ref → Str → Result Derived}
    (htoY : ∀ y text cache, Simulates (toY y text cache) (toY' y text) (ReadsComposite program))
    (rest : Str) (cache : CacheSlice) (pairs : List (Ref × Ref)) :
    Simulates (parseBalanced call backrefs toY rest cache pairs)
      (deriveBalanced read backrefs toY' rest pairs) (ReadsNested program) := by
  induction pairs with
  | nil => exact .pure .unopened
  | cons pair pairs ih =>
    obtain ⟨pOpen, pClose⟩ := pair
    refine (hread ..).bind fun opened d hd => ?_
    rw [← hd.matched]
    cases opened.matched? with
    | none => exact ih
    | some matched =>
      refine .lift_bind fun t => .skip fun c => (htoY ..).bind fun inner d' hd' => ?_
      have hmatched : inner.1 = d'.matched := hd'.matched
      rw [← hmatched]
      cases inner.1 with
      | none => exact .pure (.failed _)
      | some matched =>
        refine .lift_bind fun t' => .skip fun c' => (hread ..).bind fun close d'' hd'' => ?_
        rw [← hd''.matched]
        cases close.matched? with
        | none => exact .throw _
        | some matched =>
          refine .lift_bind fun t'' => .skip fun c'' => .pure (.closed _ _ ?_)
          rw [allAsts, allAsts_single]
          -- The components between the brackets are dropped here, in the source as in the model.
          have hkept := ((hd.kept rest).append (Kept.dropped d'.nodes)).append (hd''.kept t'')
          rwa [List.append_nil] at hkept

theorem simulates_toY (pairs : List (Ref × Ref)) (content : Ref) (fuel : Nat) (y : Ref)
    (text rest : Str) (cache : CacheSlice) {components : Components} {nodes : List AST}
    {lost : Nat} (hkept : Kept (allAsts program components) nodes lost) :
    Simulates (parseToY call backrefs pairs content fuel y text rest cache components)
      (deriveToY read backrefs pairs content fuel y text rest nodes lost)
      (ReadsComposite program) := by
  induction fuel generalizing y text rest cache components nodes lost with
  | zero => exact .throw _
  | succ n ih =>
    refine (hread ..).bind fun ended d hd => ?_
    rw [← hd.matched]
    cases ended.matched? with
    | some matched => exact .lift_bind fun upTo => .pure (.composite upTo hkept)
    | none =>
      have hnone : Kept (allAsts program []) [] 0 := .nil
      -- Between brackets a run of its own begins.
      have hinner := fun y text cache => ih y text text cache hnone
      refine (simulates_balanced hread hinner ..).bind fun nested nested' hnested => ?_
      cases hnested with
      | failed more => exact .pure .failed
      | closed t c hmore =>
        refine ih _ _ _ _ ?_
        rw [allAsts_append]
        exact hkept.append hmore
      | unopened =>
        refine (hread ..).bind fun item d' hd' => ?_
        rw [← hd'.matched]
        cases item.matched? with
        | none => exact .pure .failed
        | some matched =>
          exact .lift_bind fun t => .skip fun c => ih _ _ t c (hd'.append hkept rest)

theorem simulates_behind (p : Ref) (text : Str) (cache : CacheSlice) :
    Simulates (call p text cache backrefs)
      (do return (← read p text backrefs).behind program p) (Inner program) := by
  refine ⟨fun {t v t'} hrun => ?_⟩
  obtain ⟨d, hd, hreads⟩ := (hread ..).run hrun
  exact ⟨_, bind_eq_ok.mpr ⟨d, hd, rfl⟩, hreads.inner⟩

theorem simulates_backRef (id : String) (text : Str) (cache : CacheSlice) :
    Simulates (parseBackRef call backrefs id text cache)
      (deriveBackRef read backrefs program id text) (Inner program) := by
  rw [parseBackRef, deriveBackRef]
  cases backrefs.find? fun x => x.1 = id with
  | none => exact .throw _
  | some x => exact simulates_behind hread x.2 text cache

theorem simulates_switch (text : Str) (cache : CacheSlice) (cases : List (Ref × Ref))
    {components : Components} (hkept : allAsts program components = []) :
    Simulates (parseSwitch call backrefs text cache cases components)
      (deriveSwitch read backrefs text cases) (Inner program) := by
  induction cases generalizing components with
  | nil => exact .pure .failed
  | cons case cases ih =>
    obtain ⟨case, content⟩ := case
    refine (hread ..).bind fun result d hd => ?_
    rw [← hd.matched]
    cases hresult : result.matched? with
    | none => exact ih ((Reads.append_failed hresult _ text).trans hkept)
    | some matched =>
      refine .lift_bind fun t => .skip fun c => (hread ..).bind fun inside d' hd' => ?_
      rw [← hd'.matched]
      cases inside.matched? with
      | none => exact .pure .failed
      | some matched =>
        refine .lift_bind fun through => .pure (.composite through ?_)
        rw [allAsts_append, hkept, allAsts, allAsts_single]
        exact (hd.kept text).append (hd'.kept t)

theorem simulates_lookingAt (x : Ref) (text : Str) (cache : CacheSlice) :
    Simulates (parseLookingAt call backrefs x text cache)
      (deriveLookingAt read backrefs x text) (Inner program) := by
  refine (hread ..).bind fun r d hd => ?_
  rw [← hd.matched]
  cases r.matched? with
  | none => exact .pure .failed
  | some matched => exact .lift_bind fun nothing => .pure (.leaf nothing none)

theorem simulates_not (x : Ref) (text : Str) (cache : CacheSlice) :
    Simulates (parseNot call backrefs x text cache) (deriveNot read backrefs x text)
      (Inner program) := by
  refine (hread ..).bind fun r d hd => ?_
  rw [← hd.matched]
  cases r.matched? with
  | none => exact .lift_bind fun nothing => .pure (.leaf nothing none)
  | some matched => exact .lift_bind fun nothing => .pure (.leaf nothing (some _))

end

theorem simulates_parseSomeOf_ {fuel : Nat} {call : Call} {read : Read}
    (hread : ∀ p text cache backrefs,
      Simulates (call p text cache backrefs) (read p text backrefs) (Reads program p))
    (p : Ref) (text : Str) (cache : CacheSlice) (backrefs : List BackReffable) :
    Simulates (parseSomeOf_ fuel call (program p) text cache backrefs)
      (deriveSomeOf_ program fuel read (program p) text backrefs) (Reads program p) := by
  have huntagged (h : (program p).tag = none) {x : Parse Outcome} {y : Result Derived}
      (hxy : Simulates x y (Inner program)) : Simulates x y (Reads program p) :=
    hxy.mono fun _ _ hinner => hinner.reads h
  cases hp : program p with
  | tagged tag content => exact simulates_tagged hread hp text cache
  | none =>
    refine huntagged (by rw [hp]; rfl) ⟨fun {t v t'} hrun => ?_⟩
    rw [parseSomeOf_] at hrun
    cases hslice : text.sliceTo 0 with
    | error e =>
      rw [hslice] at hrun
      cases hrun
    | ok nothing =>
      rw [hslice] at hrun
      cases hrun
      exact ⟨_, by rw [deriveSomeOf_, hslice]; rfl, .leaf nothing none⟩
  | literal x => exact huntagged (by rw [hp]; rfl) (simulates_leaf fun _ h => parseLiteral_leaf h)
  | endOfInput => exact huntagged (by rw [hp]; rfl) (simulates_leaf fun _ h => parseEndOfInput_leaf h)
  | anyChar | digit | char | oneOfChars | anyCharExcept =>
    exact huntagged (by rw [hp]; rfl) (simulates_leaf fun _ h => parseOne_leaf h)
  | and => exact huntagged (by rw [hp]; rfl) (simulates_and hread _ _ _ _ .nil)
  | or => exact huntagged (by rw [hp]; rfl) (simulates_or hread _ _ _ rfl)
  | atLeastOne => exact huntagged (by rw [hp]; rfl) (simulates_atLeastOne hread ..)
  | zeroOrMore => exact huntagged (by rw [hp]; rfl) (simulates_more hread _ _ _ _ _ .nil)
  | xUntilY => exact huntagged (by rw [hp]; rfl) (simulates_xUntilY hread _ _ _ _ _ _ .nil)
  | balancedUntilY pairs content y =>
    refine huntagged (by rw [hp]; rfl) ⟨fun {t v t'} hrun => ?_⟩
    obtain ⟨result, s, hresult, hv⟩ := run_bind_eq_ok.mp hrun
    cases hv
    have hnone : Kept (allAsts program []) [] 0 := .nil
    exact (simulates_toY hread _ _ _ _ _ _ _ hnone).run hresult
  | backRefs inside parser => exact huntagged (by rw [hp]; rfl) (simulates_behind hread ..)
  | backRef => exact huntagged (by rw [hp]; rfl) (simulates_backRef hread ..)
  | switch => exact huntagged (by rw [hp]; rfl) (simulates_switch hread _ _ _ rfl)
  | lookingAt => exact huntagged (by rw [hp]; rfl) (simulates_lookingAt hread ..)
  | not => exact huntagged (by rw [hp]; rfl) (simulates_not hread ..)

theorem Simulates.recording {k : Nat × Ref} {x : Parse Outcome} {y : Result Derived}
    {rel : Outcome → Derived → Prop} (h : Simulates x y rel) : Simulates (recording k x) y rel := by
  refine ⟨fun {t v t'} hrun => ?_⟩
  obtain ⟨a, s, hx, hrest⟩ := run_bind_eq_ok.mp hrun
  cases hrest
  exact h.run hx

theorem simulates_parseSomeOfAnew (program : Program) (fuel : Nat) (p : Ref) (text : Str)
    (cache : CacheSlice) (backrefs : List BackReffable) :
    Simulates (parseSomeOfAnew program fuel p text cache backrefs)
      (derive program fuel p text backrefs) (Reads program p) := by
  induction fuel generalizing p text cache backrefs with
  | zero => exact .throw _
  | succ n ih =>
    have hbody : Simulates (recording (cache.start, p) (parseSomeOf_ n
        (parseSomeOfAnew program n) (program p) text cache backrefs)) _ (Reads program p) :=
      (simulates_parseSomeOf_ ih p text cache backrefs).recording
    rw [parseSomeOfAnew, derive]
    split_ifs
    · exact ⟨fun h => by cases h⟩
    · exact hbody

/-! ## The AST is the derivation where no node is lost -/

/-- The AST of an outcome is its derivation under the root, and a parser that fails has none. -/
structure IsDerivation (program : Program) (goal : Goal) (outcome : Outcome) (d : Derived) :
    Prop where
  matched : outcome.matched? = d.matched
  ast : ∀ rootAstTag matched, d.matched = some matched →
    getAst program rootAstTag goal outcome = .ok (.ok (.mk ⟨rootAstTag, matched⟩ d.nodes))
  failed : ∀ rootAstTag ast, d.matched = none →
    getAst program rootAstTag goal outcome ≠ .ok (.ok ast)

theorem getAst_of_matched (program : Program) (rootAstTag : String) (goal : Goal)
    {outcome : Outcome} {matched : Str} (h : outcome.matched? = some matched) :
    getAst program rootAstTag goal outcome =
      .ok (.ok (.mk ⟨rootAstTag, matched⟩ (allAsts program [(goal, outcome)]))) := by
  match outcome, h with
  | .leaf _ none, rfl => rfl
  | .composite (some _) _, rfl => rfl

theorem getAst_of_failed (program : Program) (rootAstTag : String) (goal : Goal)
    {outcome : Outcome} (h : outcome.matched? = none) (ast : AST) :
    getAst program rootAstTag goal outcome ≠ .ok (.ok ast) := by
  intro hast
  match outcome, h with
  | .leaf _ (some _), _ =>
    obtain ⟨after, -, hfailed⟩ := bind_eq_ok.mp hast
    cases hfailed
  | .composite none _, _ =>
    obtain ⟨failure, -, hfailed⟩ := bind_eq_ok.mp hast
    cases hfailed

theorem Reads.isDerivation_iff {goal : Goal} {outcome : Outcome} {d : Derived}
    (h : Reads program goal.parser outcome d) :
    IsDerivation program goal outcome d ↔ d.matched = none ∨ d.lost = 0 := by
  have hkept := h.kept goal.text
  rw [← allAsts_single] at hkept
  refine ⟨fun hast => ?_, fun hlost => ⟨h.matched, fun rootAstTag matched hmatched => ?_,
    fun rootAstTag ast hfailed => getAst_of_failed _ _ _ (h.matched.trans hfailed) ast⟩⟩
  · cases hmatched : d.matched with
    | none => exact .inl rfl
    -- The count tells the two forests apart where a node is lost.
    | some matched =>
      have hsame := hast.ast "" matched hmatched
      rw [getAst_of_matched _ _ _ (h.matched.trans hmatched)] at hsame
      have hnodes := (Ruf.Node.mk.inj (Except.ok.inj (Except.ok.inj hsame))).2
      exact .inr (hkept.iff.mp hnodes)
  · rw [getAst_of_matched _ _ _ (h.matched.trans hmatched)]
    rcases hlost with hnone | hlost
    · cases hnone.symm.trans hmatched
    · rw [hkept.iff.mpr hlost]

theorem getAst_of_parseAnew {program : Program} {fuel : Nat} {parser : Ref} {chars : List Char}
    {outcome : Outcome} {entries : Entries}
    (h : parseAnew program fuel parser chars = .ok (outcome, entries))
    (hentries : Functional entries) :
    (∀ (a b c : Operand) (x y : Ref),
        ((a.add b).operand x).add c = a.add ((b.add c).operand y) ∧
        ((a.bitor b).operand x).bitor c = a.bitor ((b.bitor c).operand y)) ∧
      parse program fuel parser chars = .ok outcome ∧
      ∃ d, derive program fuel parser ⟨0, chars⟩ [] = .ok d ∧
        (IsDerivation program ⟨parser, ⟨0, chars⟩⟩ outcome d ↔ d.matched = none ∨ d.lost = 0) := by
  obtain ⟨d, hd, hreads⟩ := (simulates_parseSomeOfAnew program ..).run h
  obtain ⟨-, hfollows⟩ := (follows_parseSomeOf program hentries ..).run h
  obtain ⟨s, hs, -⟩ := hfollows (fun _ hx => hx) [] (List.nil_subset _)
  have hiff : IsDerivation program ⟨parser, ⟨0, chars⟩⟩ outcome d ↔ _ := hreads.isDerivation_iff
  exact ⟨fun a b c x y => ⟨a.add_assoc b c x y, a.bitor_assoc b c x y⟩,
    bind_eq_ok.mpr ⟨(outcome, s), hs, rfl⟩, d, hd, hiff⟩

/-- Of `tagged("t", a)` at `a` -/
theorem getAst_of_parseAnew_tagged :
    let program : Program := fun
      | 0 => .tagged "t" 1
      | _ => .char 'a'
    ∃ outcome d, parse program 2 0 ['a'] = .ok outcome ∧
      derive program 2 0 ⟨0, ['a']⟩ [] = .ok d ∧
      IsDerivation program ⟨0, ⟨0, ['a']⟩⟩ outcome d ∧ nodeCount (.mk ⟨"", ⟨0, []⟩⟩ d.nodes) = 2 := by
  intro program
  let matched : Str := ⟨0, ['a']⟩
  let tagged : Outcome := .composite (some matched) [(⟨1, matched⟩, .leaf matched none)]
  let entries : Entries := [((0, 0), tagged), ((0, 1), .leaf matched none)]
  have hanew : parseAnew program 2 0 ['a'] = .ok (tagged, entries) := rfl
  have hentries : Functional entries := by
    intro k v v' h h'
    simp only [entries, List.mem_cons, List.not_mem_nil, or_false, Prod.mk.injEq] at h h'
    grind
  obtain ⟨-, hparse, d, hd, hiff⟩ := getAst_of_parseAnew hanew hentries
  cases hd
  exact ⟨tagged, _, hparse, rfl, hiff.mpr (.inr rfl), rfl⟩

/-- `backrefs([("x", tagged("t", a))], backref("x"))` at `a` has no node. -/
theorem not_isDerivation : ¬∀ program fuel parser chars outcome entries d,
    parseAnew program fuel parser chars = .ok (outcome, entries) →
      derive program fuel parser ⟨0, chars⟩ [] = .ok d →
        ∃ outcome, parse program fuel parser chars = .ok outcome ∧
          IsDerivation program ⟨parser, ⟨0, chars⟩⟩ outcome d := by
  intro h
  let program : Program := fun p =>
    [.backRefs [("x", 2)] 1, .backRef "x", .tagged "t" 3].getD p (.char 'a')
  obtain ⟨outcome, hparse, hast⟩ := h program 4 0 ['a'] _ _ _ rfl rfl
  have hnodes := hast.ast "" _ rfl
  cases hparse
  have hcount := congrArg (fun r => (r.toOption.bind Except.toOption).map nodeCount) hnodes
  cases hcount

end Urnest.RufParser
