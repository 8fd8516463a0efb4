import Mathlib.Data.List.Forall2
import Urnest.RufParser.Transparent

/-!
# What was tried

`get_ast` reports of the failures that are recorded in an outcome one that is furthest through
(`best_of_getAst`). Not all that was tried is recorded: what `ParseXUntilY` and
`ParseBalancedUntilY` tried and found missing is forgotten where something else was there, and a
tagged parser that a back reference goes straight to is not known for what it is. `attempt` is
`parse` without these two omissions, and otherwise goes the same way (`Thins`).
-/

namespace Urnest.RufParser

open Lib

/-! ## Trying -/

section

variable (call : Call) (backrefs : List BackReffable)

/-- The loop of `ParseXUntilY`, with every `y` that was tried -/
def attemptXUntilY (x y : Ref) (text : Str) : Nat → Str → CacheSlice → Components → Parse Outcome
  | 0, _, _, _ => throw .outOfFuel
  | n + 1, rest, cache, components => do
    let close ← call y rest cache backrefs
    match close.matched? with
    | some matched =>
      return .composite (some (← text.through matched)) (components ++ [(⟨y, rest⟩, close)])
    | none =>
      let item ← call x rest cache backrefs
      match item.matched? with
      | none =>
        return .composite none (components ++ [(⟨y, rest⟩, close), (⟨x, rest⟩, item)])
      | some matched =>
        let t ← rest.after matched
        let c ← cache.from matched.len
        -- the code goes on without `close`
        attemptXUntilY x y text n t c (components ++ [(⟨y, rest⟩, close), (⟨x, rest⟩, item)])

/-- What comes of the balance pairs, and what was tried -/
inductive AttemptedPairs where
  | unopened (components : Components)
  | failed (components : Components)
  | closed (rest : Str) (cache : CacheSlice) (components : Components)

/-- The loop over the balance pairs, with every bracket that was tried, and what was tried between
those of a pair -/
def attemptBalanced (toY : Ref → Str → CacheSlice → Parse CompositeResult) (rest : Str)
    (cache : CacheSlice) : List (Ref × Ref) → Components → Parse AttemptedPairs
  | [], components => return .unopened components
  | (pOpen, pClose) :: pairs, components => do
    let opened ← call pOpen rest cache backrefs
    match opened.matched? with
    | none => attemptBalanced toY rest cache pairs (components ++ [(⟨pOpen, rest⟩, opened)])
    | some matched =>
      let t ← rest.after matched
      let c ← cache.from matched.len
      let inner ← toY pClose t c
      match inner.1 with
      | none => return .failed (components ++ (⟨pOpen, rest⟩, opened) :: inner.2)
      | some matched =>
        let t ← t.after matched
        let c ← c.from matched.len
        let close ← call pClose t c backrefs
        match close.matched? with
        | none => throw (.panic .neverReached)
        | some matched =>
          let t ← t.after matched
          let c ← c.from matched.len
          -- the code keeps the two brackets only
          return .closed t c
            (components ++ (⟨pOpen, rest⟩, opened) :: inner.2 ++ [(⟨pClose, t⟩, close)])

/-- The loop of `parse_to_y`, with every `y` that was tried -/
def attemptToY (pairs : List (Ref × Ref)) (content : Ref) :
    Nat → (y : Ref) → (text rest : Str) → CacheSlice → Components → Parse CompositeResult
  | 0, _, _, _, _, _ => throw .outOfFuel
  | n + 1, y, text, rest, cache, components => do
    let ended ← call y rest cache backrefs
    match ended.matched? with
    | some _ => return (some (← text.upTo rest), components)
    | none =>
      -- the code goes on without `ended`
      let nested ← attemptBalanced call backrefs
        (fun y text cache => attemptToY pairs content n y text text cache []) rest cache pairs
        (components ++ [(⟨y, rest⟩, ended)])
      match nested with
      | .failed components => return (none, components)
      | .closed t c components => attemptToY pairs content n y text t c components
      | .unopened components =>
        let item ← call content rest cache backrefs
        match item.matched? with
        | none => return (none, components ++ [(⟨content, rest⟩, item)])
        | some matched =>
          let t ← rest.after matched
          let c ← cache.from matched.len
          attemptToY pairs content n y text t c (components ++ [(⟨content, rest⟩, item)])

/-- The outcome of a back reference, with the goal that it stands for -/
def Outcome.of (goal : Goal) : Outcome → Outcome
  | .composite matched components => .composite matched [(goal, .composite matched components)]
  | .leaf matched unexpected => .leaf matched unexpected

def attemptBackRef (id : String) (text : Str) (cache : CacheSlice) : Parse Outcome :=
  match backrefs.find? fun x => x.1 = id with
  | none => throw (.panic .unwrap)
  | some x => do return (← call x.2 text cache backrefs).of ⟨x.2, text⟩

end

def attemptSomeOf_ (fuel : Nat) (call : Call) (p : Parser) (text : Str) (cache : CacheSlice)
    (backrefs : List BackReffable) : Parse Outcome :=
  match p with
  | .xUntilY x y => attemptXUntilY call backrefs x y text fuel text cache []
  | .balancedUntilY pairs content y => do
    let result ← attemptToY call backrefs pairs content fuel y text text cache []
    return .composite result.1 result.2
  | .backRefs inside parser => do return (← call parser text cache inside).of ⟨parser, text⟩
  | .backRef id => attemptBackRef call backrefs id text cache
  | p => parseSomeOf_ fuel call p text cache backrefs

/-- `parse_some_of`, with all that was tried -/
def attemptSomeOf (program : Program) : Nat → Call
  | 0, _, _, _, _ => throw .outOfFuel
  | n + 1, p, text, cache, backrefs => do
    if cache.len ≠ text.len + 1 then throw (.panic .assertion)
    recalling (cache.start, p)
      (attemptSomeOf_ n (attemptSomeOf program n) (program p) text cache backrefs)

/-- `parse`, with all that was tried -/
def attempt (program : Program) (fuel : Nat) (parser : Ref) (chars : List Char) :
    Result Outcome := do
  let x ← (attemptSomeOf program fuel parser ⟨0, chars⟩ ⟨0, byteLen chars + 1⟩ []).run []
  return x.1

variable (program : Program)

/-- The failure of a leaf in an outcome that failed, with the tagged parsers around it -/
inductive Recorded : Goal → Outcome → ParseFailed → Prop
  | leaf {goal : Goal} {matched at_ : Str} {why : Unexpected}
      (h : goal.text.after matched = .ok at_) :
      Recorded goal (.leaf matched (some why)) ⟨at_, why, contextOf program goal⟩
  | inside {goal : Goal} {x : Goal × Outcome} {components : Components} {r : ParseFailed}
      (hmem : x ∈ components) (h : Recorded x.1 x.2 r) :
      Recorded goal (.composite none components)
        { r with context := r.context ++ contextOf program goal }

/-- No back reference goes straight to a tagged parser. -/
def NoneTagged : Prop := ∀ p inside q, program p = .backRefs inside q →
  (program q).tag = none ∧ ∀ x ∈ inside, (program x.2).tag = none

/-- The same failure, but for what is not known behind a back reference -/
structure Same (r r' : ParseFailed) : Prop where
  at_ : r.at_ = r'.at_
  why : r.why = r'.why
  context : NoneTagged program → r.context = r'.context

/-- The second outcome went the same way, and has recorded no other failures. -/
structure Thins (p : Ref) (full v : Outcome) : Prop where
  matched : full.matched? = v.matched?
  leaf : ∀ matched unexpected, v = .leaf matched unexpected → full = v
  composite : ∀ matched components, v = .composite matched components →
    ∃ more, full = .composite matched more
  recorded : ∀ text r, Recorded program ⟨p, text⟩ v r →
    ∃ r', Recorded program ⟨p, text⟩ full r' ∧ Same program r' r

/-- So it is with components. -/
def ThinsAll (full components : Components) : Prop :=
  ∀ x ∈ components, ∀ r, Recorded program x.1 x.2 r →
    ∃ y ∈ full, ∃ r', Recorded program y.1 y.2 r' ∧ Same program r' r

variable {program}

/-! ## What is recorded -/

theorem Same.refl (r : ParseFailed) : Same program r r := ⟨rfl, rfl, fun _ => rfl⟩

theorem ThinsAll.nil (full : Components) : ThinsAll program full [] := fun _ hx => nomatch hx

/-- More that was tried -/
theorem ThinsAll.more {full components : Components} (h : ThinsAll program full components)
    (more : Components) : ThinsAll program (full ++ more) components := by
  intro x hx r hr
  obtain ⟨y, hy, r', hr', hsame⟩ := h x hx r hr
  exact ⟨y, List.mem_append_left _ hy, r', hr', hsame⟩

theorem ThinsAll.append {full components full' components' : Components}
    (h : ThinsAll program full components) (h' : ThinsAll program full' components') :
    ThinsAll program (full ++ full') (components ++ components') := by
  intro x hx r hr
  rcases List.mem_append.mp hx with hx | hx
  · exact h.more full' x hx r hr
  · obtain ⟨y, hy, r', hr', hsame⟩ := h' x hx r hr
    exact ⟨y, List.mem_append_right _ hy, r', hr', hsame⟩

theorem Thins.single {p : Ref} {full v : Outcome} (h : Thins program p full v) (text : Str) :
    ThinsAll program [(⟨p, text⟩, full)] [(⟨p, text⟩, v)] := by
  intro x hx r hr
  obtain rfl := List.mem_singleton.mp hx
  obtain ⟨r', hr', hsame⟩ := h.recorded text r hr
  exact ⟨_, List.mem_singleton_self _, r', hr', hsame⟩

theorem Thins.refl (p : Ref) (v : Outcome) : Thins program p v v :=
  ⟨rfl, fun _ _ _ => rfl, fun _ components h => ⟨components, h⟩, fun _ r hr => ⟨r, hr, .refl r⟩⟩

theorem ThinsAll.thins {full components : Components} (h : ThinsAll program full components)
    (p : Ref) (matched : Option Str) :
    Thins program p (.composite matched full) (.composite matched components) := by
  refine ⟨rfl, fun _ _ hv => (nomatch hv), fun _ _ hv => ⟨full, ?_⟩, fun text r hr => ?_⟩
  · cases hv
    rfl
  cases hr with
  | inside hmem hx =>
    obtain ⟨y, hy, r', hr', hsame⟩ := h _ hmem _ hx
    exact ⟨_, .inside hy hr', hsame.at_, hsame.why, fun hnone => by rw [hsame.context hnone]⟩

theorem eq_of_parts {r r' : ParseFailed} (hat : r.at_ = r'.at_) (hwhy : r.why = r'.why)
    (hcontext : r.context = r'.context) : r = r' := by
  obtain ⟨at_, why, context⟩ := r
  cases hat
  cases hwhy
  cases hcontext
  rfl

/-- An outcome of one parser that another hands on -/
theorem Thins.of {p q : Ref} {full v : Outcome} (h : Thins program q full v) (text : Str)
    (hq : NoneTagged program → (program q).tag = none) :
    Thins program p (full.of ⟨q, text⟩) v := by
  cases v with
  | leaf matched unexpected =>
    -- a tagged parser never gives a leaf, so nothing is put around it
    rw [h.leaf _ _ rfl]
    exact .refl p _
  | composite matched components =>
    obtain ⟨more, rfl⟩ := h.composite _ _ rfl
    refine ⟨rfl, fun _ _ hv => (nomatch hv),
      fun _ _ hv => ⟨[(⟨q, text⟩, .composite matched more)], ?_⟩, fun text' r hr => ?_⟩
    · cases hv
      rfl
    cases hr with
    | @inside _ x _ r hmem hx =>
      obtain ⟨r', hr', hsame⟩ :=
        h.recorded text _ (@Recorded.inside program ⟨q, text⟩ _ _ _ hmem hx)
      refine ⟨_, .inside (List.mem_singleton_self _) hr', hsame.at_, hsame.why, fun hnone => ?_⟩
      have hcontext : ∀ t, contextOf program ⟨q, t⟩ = [] := fun t => by
        rw [contextOf, hq hnone]
      simp only [hsame.context hnone, hcontext, List.append_nil]

/-! ## Going the same way -/

variable (program) in
/-- The two caches have outcomes for the same keys. -/
def Pairs (full entries : Entries) : Prop :=
  List.Forall₂ (fun x y => x.1 = y.1 ∧ Thins program x.1.2 x.2 y.2) full entries

variable (program) in
/-- Where the second returns so does the first. -/
structure Goes {α β : Type} (x : Parse α) (y : Parse β) (rel : α → β → Prop) : Prop where
  run : ∀ {t t' w s}, Pairs program t t' → y t' = .ok (w, s) →
    ∃ v s', x t = .ok (v, s') ∧ rel v w ∧ Pairs program s' s

namespace Goes

variable {α β γ δ : Type} {rel : γ → δ → Prop}

theorem pure {v : γ} {w : δ} (h : rel v w) : Goes program (Pure.pure v) (Pure.pure w) rel := by
  refine ⟨fun {t t' w' s} ht hrun => ?_⟩
  cases hrun
  exact ⟨v, t, rfl, h, ht⟩

theorem throw (e : Stop) {x : Parse γ} : Goes program x (MonadExcept.throw e : Parse δ) rel :=
  ⟨fun _ hrun => nomatch hrun⟩

theorem bind {rel' : α → β → Prop} {x : Parse α} {y : Parse β} {f : α → Parse γ} {g : β → Parse δ}
    (h : Goes program x y rel') (hf : ∀ a b, rel' a b → Goes program (f a) (g b) rel) :
    Goes program (x >>= f) (y >>= g) rel := by
  refine ⟨fun {t t' w s} ht hrun => ?_⟩
  obtain ⟨b, s₁, hy, hg⟩ := run_bind_eq_ok.mp hrun
  obtain ⟨a, t₁, hx, hab, ht₁⟩ := h.run ht hy
  obtain ⟨v, s', hfa, hv, hs⟩ := (hf a b hab).run ht₁ hg
  exact ⟨v, s', run_bind_eq_ok.mpr ⟨a, t₁, hx, hfa⟩, hv, hs⟩

/-- A step that both make -/
theorem lift_bind {r : Result α} {f : α → Parse γ} {g : α → Parse δ}
    (h : ∀ a, Goes program (f a) (g a) rel) : Goes program (liftM r >>= f) (liftM r >>= g) rel := by
  refine ⟨fun {t t' w s} ht hrun => ?_⟩
  cases r with
  | error e => cases hrun
  | ok a => exact (h a).run ht hrun

theorem lift {r : Result γ} {rel : γ → γ → Prop} (h : ∀ v, rel v v) :
    Goes program (liftM r) (liftM r) rel := by
  refine ⟨fun {t t' w s} ht hrun => ?_⟩
  cases r with
  | error e => cases hrun
  | ok a =>
    cases hrun
    exact ⟨_, t, rfl, h _, ht⟩

end Goes

/-! ## One lemma for each combinator -/

section

variable {call call' : Call} {backrefs : List BackReffable}
  (hcall : ∀ p text cache backrefs,
    (NoneTagged program → ∀ x ∈ backrefs, (program x.2).tag = none) →
      Goes program (call p text cache backrefs) (call' p text cache backrefs) (Thins program p))
  (hbackrefs : NoneTagged program → ∀ x ∈ backrefs, (program x.2).tag = none)

include hcall hbackrefs

theorem goes_and (p : Ref) (text : Str) (terms : List Ref) (rest : Str) (cache : CacheSlice)
    {full components : Components} (h : ThinsAll program full components) :
    Goes program (parseAnd call backrefs text terms rest cache full)
      (parseAnd call' backrefs text terms rest cache components) (Thins program p) := by
  induction terms generalizing rest cache full components with
  | nil => exact .lift_bind fun matched => .pure (h.thins p _)
  | cons term terms ih =>
    refine (hcall _ _ _ _ hbackrefs).bind fun result result' hthins => ?_
    rw [hthins.matched]
    cases result'.matched? with
    | none => exact .pure ((h.append (hthins.single rest)).thins p _)
    | some matched =>
      exact .lift_bind fun t => .lift_bind fun c => ih t c (h.append (hthins.single rest))

theorem goes_or (p : Ref) (text : Str) (cache : CacheSlice) (terms : List Ref)
    {full components : Components} (h : ThinsAll program full components) :
    Goes program (parseOr call backrefs text cache terms full)
      (parseOr call' backrefs text cache terms components) (Thins program p) := by
  induction terms generalizing full components with
  | nil => exact .pure (h.thins p _)
  | cons term terms ih =>
    refine (hcall _ _ _ _ hbackrefs).bind fun result result' hthins => ?_
    rw [hthins.matched]
    cases result'.matched? with
    | none => exact ih (h.append (hthins.single text))
    | some matched => exact .pure ((h.append (hthins.single text)).thins p _)

theorem goes_tagged (p content : Ref) (text : Str) (cache : CacheSlice) :
    Goes program (parseTagged call backrefs content text cache)
      (parseTagged call' backrefs content text cache) (Thins program p) := by
  refine (hcall _ _ _ _ hbackrefs).bind fun result result' hthins => .pure ?_
  rw [hthins.matched]
  exact (hthins.single text).thins p _

theorem goes_more (p x : Ref) (text : Str) (fuel : Nat) (rest : Str) (cache : CacheSlice)
    {full components : Components} (h : ThinsAll program full components) :
    Goes program (parseMore call backrefs x text fuel rest cache full)
      (parseMore call' backrefs x text fuel rest cache components) (Thins program p) := by
  induction fuel generalizing rest cache full components with
  | zero => exact .throw _
  | succ n ih =>
    refine (hcall _ _ _ _ hbackrefs).bind fun result result' hthins => ?_
    rw [hthins.matched]
    cases result'.matched? with
    | none => exact .lift_bind fun _ => .pure (h.thins p _)
    | some matched =>
      exact .lift_bind fun t => .lift_bind fun c => ih t c (h.append (hthins.single rest))

theorem goes_atLeastOne (p : Ref) (fuel : Nat) (x : Ref) (text : Str) (cache : CacheSlice) :
    Goes program (parseAtLeastOne call backrefs fuel x text cache)
      (parseAtLeastOne call' backrefs fuel x text cache) (Thins program p) := by
  refine (hcall _ _ _ _ hbackrefs).bind fun result result' hthins => ?_
  rw [hthins.matched]
  cases result'.matched? with
  | none => exact .pure ((hthins.single text).thins p _)
  | some matched =>
    exact .lift_bind fun t => .lift_bind fun c =>
      goes_more hcall hbackrefs p x text fuel t c (hthins.single text)

theorem goes_switch (p : Ref) (text : Str) (cache : CacheSlice) (cases : List (Ref × Ref))
    {full components : Components} (h : ThinsAll program full components) :
    Goes program (parseSwitch call backrefs text cache cases full)
      (parseSwitch call' backrefs text cache cases components) (Thins program p) := by
  induction cases generalizing full components with
  | nil => exact .pure (h.thins p _)
  | cons case cases ih =>
    refine (hcall _ _ _ _ hbackrefs).bind fun result result' hthins => ?_
    rw [hthins.matched]
    cases result'.matched? with
    | none => exact ih (h.append (hthins.single text))
    | some matched =>
      refine .lift_bind fun t => .lift_bind fun c => ?_
      refine (hcall _ _ _ _ hbackrefs).bind fun inside inside' hinside => ?_
      have hall := h.append ((hthins.single text).append (hinside.single t))
      rw [hinside.matched]
      cases inside'.matched? with
      | none => exact .pure (hall.thins p _)
      | some matched => exact .lift_bind fun _ => .pure (hall.thins p _)

theorem goes_lookingAt (p x : Ref) (text : Str) (cache : CacheSlice) :
    Goes program (parseLookingAt call backrefs x text cache)
      (parseLookingAt call' backrefs x text cache) (Thins program p) := by
  refine (hcall _ _ _ _ hbackrefs).bind fun r r' hthins => ?_
  rw [hthins.matched]
  cases r'.matched? with
  | none => exact .pure ((hthins.single text).thins p _)
  | some matched => exact .lift_bind fun _ => .pure (.refl p _)

theorem goes_not (p x : Ref) (text : Str) (cache : CacheSlice) :
    Goes program (parseNot call backrefs x text cache)
      (parseNot call' backrefs x text cache) (Thins program p) := by
  refine (hcall _ _ _ _ hbackrefs).bind fun r r' hthins => ?_
  rw [hthins.matched]
  cases r'.matched? with
  | none => exact .lift_bind fun _ => .pure (.refl p _)
  | some matched => exact .lift_bind fun _ => .pure (.refl p _)

/-- What was tried and is forgotten -/
theorem goes_xUntilY (p x y : Ref) (text : Str) (fuel : Nat) (rest : Str) (cache : CacheSlice)
    {full components : Components} (h : ThinsAll program full components) :
    Goes program (attemptXUntilY call backrefs x y text fuel rest cache full)
      (parseXUntilY call' backrefs x y text fuel rest cache components) (Thins program p) := by
  induction fuel generalizing rest cache full components with
  | zero => exact .throw _
  | succ n ih =>
    refine (hcall _ _ _ _ hbackrefs).bind fun close close' hclose => ?_
    rw [hclose.matched]
    cases close'.matched? with
    | some matched => exact .lift_bind fun _ => .pure ((h.append (hclose.single rest)).thins p _)
    | none =>
      refine (hcall _ _ _ _ hbackrefs).bind fun item item' hitem => ?_
      rw [hitem.matched]
      cases item'.matched? with
      | none =>
        exact .pure ((h.append ((hclose.single rest).append (hitem.single rest))).thins p _)
      | some matched =>
        refine .lift_bind fun t => .lift_bind fun c => ih t c ?_
        -- what was tried for `y` is more than the code has
        have hmore := (h.more [(⟨y, rest⟩, close)]).append (hitem.single rest)
        rwa [List.append_assoc] at hmore

/-- What the balance pairs give, behind the components so far -/
inductive NestedThins (program : Program) (before : Components) :
    AttemptedPairs → Nested → Prop where
  | unopened {full : Components} (h : ThinsAll program full before) :
      NestedThins program before (.unopened full) .unopened
  | failed {full more : Components} (h : ThinsAll program full (before ++ more)) :
      NestedThins program before (.failed full) (.failed more)
  | closed {full more : Components} (rest : Str) (cache : CacheSlice)
      (h : ThinsAll program full (before ++ more)) :
      NestedThins program before (.closed rest cache full) (.closed rest cache more)

theorem goes_balanced {toY toY' : Ref → Str → CacheSlice → Parse CompositeResult}
    (htoY : ∀ y text cache, Goes program (toY y text cache) (toY' y text cache)
      fun full result => full.1 = result.1 ∧ ThinsAll program full.2 result.2)
    (rest : Str) (cache : CacheSlice) (pairs : List (Ref × Ref)) {full components : Components}
    (h : ThinsAll program full components) :
    Goes program (attemptBalanced call backrefs toY rest cache pairs full)
      (parseBalanced call' backrefs toY' rest cache pairs) (NestedThins program components) := by
  induction pairs generalizing full with
  | nil => exact .pure (.unopened h)
  | cons pair pairs ih =>
    refine (hcall _ _ _ _ hbackrefs).bind fun opened opened' hopened => ?_
    rw [hopened.matched]
    cases opened'.matched? with
    | none => exact ih (h.more _)
    | some matched =>
      refine .lift_bind fun t => .lift_bind fun c => ?_
      refine (htoY _ _ _).bind fun inner inner' hinner => ?_
      rw [hinner.1]
      cases inner'.1 with
      | none => exact .pure (.failed (h.append ((hopened.single rest).append hinner.2)))
      | some matched =>
        refine .lift_bind fun t => .lift_bind fun c => ?_
        refine (hcall _ _ _ _ hbackrefs).bind fun close close' hclose => ?_
        rw [hclose.matched]
        cases close'.matched? with
        | none => exact .throw _
        | some matched =>
          refine .lift_bind fun t => .lift_bind fun c => .pure (.closed t c ?_)
          -- what was tried between the brackets is forgotten
          have hpair := ((hopened.single rest).more inner.2).append (hclose.single t)
          have hall := h.append hpair
          rwa [← List.append_assoc, List.singleton_append] at hall

theorem goes_toY (pairs : List (Ref × Ref)) (content : Ref) (fuel : Nat) (y : Ref)
    (text rest : Str) (cache : CacheSlice) {full components : Components}
    (h : ThinsAll program full components) :
    Goes program (attemptToY call backrefs pairs content fuel y text rest cache full)
      (parseToY call' backrefs pairs content fuel y text rest cache components)
      fun full result => full.1 = result.1 ∧ ThinsAll program full.2 result.2 := by
  induction fuel generalizing y text rest cache full components with
  | zero => exact .throw _
  | succ n ih =>
    refine (hcall _ _ _ _ hbackrefs).bind fun ended ended' hended => ?_
    rw [hended.matched]
    cases ended'.matched? with
    | some matched => exact .lift_bind fun _ => .pure ⟨rfl, h⟩
    | none =>
      refine (goes_balanced hcall hbackrefs (fun y text cache => ih y text text cache (.nil _)) rest
        cache pairs (h.more [(⟨y, rest⟩, ended)])).bind fun nested nested' hnested => ?_
      cases hnested with
      | failed hall => exact .pure ⟨rfl, hall⟩
      -- behind a closed pair, or behind the content, the loop goes on
      | closed t c hall => exact ih y text t c hall
      | unopened hall =>
        refine (hcall _ _ _ _ hbackrefs).bind fun item item' hitem => ?_
        rw [hitem.matched]
        cases item'.matched? with
        | none => exact .pure ⟨rfl, hall.append (hitem.single rest)⟩
        | some matched =>
          exact .lift_bind fun t => .lift_bind fun c =>
            ih y text t c (hall.append (hitem.single rest))

theorem goes_backRef (p : Ref) (id : String) (text : Str) (cache : CacheSlice) :
    Goes program (attemptBackRef call backrefs id text cache)
      (parseBackRef call' backrefs id text cache) (Thins program p) := by
  rw [attemptBackRef, parseBackRef]
  cases hfind : backrefs.find? fun x => x.1 = id with
  | none => exact .throw _
  | some x =>
    refine ⟨fun {t t' w s} ht hrun => ?_⟩
    obtain ⟨v, s', hv, hthins, hs⟩ := (hcall _ _ _ _ hbackrefs).run ht hrun
    exact ⟨_, s', run_bind_eq_ok.mpr ⟨v, s', hv, rfl⟩,
      hthins.of text fun hnone => hbackrefs hnone x (List.mem_of_find?_eq_some hfind), hs⟩

theorem goes_attemptSomeOf_ (fuel : Nat) (p : Ref) (text : Str) (cache : CacheSlice) :
    Goes program (attemptSomeOf_ fuel call (program p) text cache backrefs)
      (parseSomeOf_ fuel call' (program p) text cache backrefs) (Thins program p) := by
  cases hp : program p with
  | none => exact .lift_bind fun _ => .pure (.refl p _)
  | literal | endOfInput | anyChar | digit | char | oneOfChars | anyCharExcept =>
    exact .lift fun v => .refl p v
  | and => exact goes_and hcall hbackrefs p _ _ _ _ (.nil _)
  | or => exact goes_or hcall hbackrefs p _ _ _ (.nil _)
  | tagged => exact goes_tagged hcall hbackrefs p ..
  | atLeastOne => exact goes_atLeastOne hcall hbackrefs p ..
  | zeroOrMore => exact goes_more hcall hbackrefs p _ _ _ _ _ (.nil _)
  | xUntilY => exact goes_xUntilY hcall hbackrefs p _ _ _ _ _ _ (.nil _)
  | balancedUntilY =>
    refine (goes_toY hcall hbackrefs _ _ _ _ _ _ _ (.nil _)).bind
      fun full result hresult => .pure ?_
    rw [hresult.1]
    exact hresult.2.thins p _
  | backRefs inside q =>
    refine ⟨fun {t t' w s} ht hrun => ?_⟩
    obtain ⟨v, s', hv, hthins, hs⟩ :=
      (hcall q text cache inside fun hnone => (hnone p inside q hp).2).run ht hrun
    exact ⟨_, s', run_bind_eq_ok.mpr ⟨v, s', hv, rfl⟩,
      hthins.of text fun hnone => (hnone p inside q hp).1, hs⟩
  | backRef id => exact goes_backRef hcall hbackrefs p id text cache
  | switch => exact goes_switch hcall hbackrefs p _ _ _ (.nil _)
  | lookingAt => exact goes_lookingAt hcall hbackrefs p ..
  | not => exact goes_not hcall hbackrefs p ..

end

/-! ## The two runs -/

theorem Pairs.lookup {t t' : Entries} (h : Pairs program t t') (k : Nat × Ref) :
    (t.lookup k = none ∧ t'.lookup k = none) ∨
      ∃ v w, t.lookup k = some v ∧ t'.lookup k = some w ∧ Thins program k.2 v w := by
  induction h with
  | nil => exact .inl ⟨rfl, rfl⟩
  | @cons x y t t' hxy _ ih =>
    obtain ⟨x₁, v⟩ := x
    obtain ⟨y₁, w⟩ := y
    obtain ⟨rfl, hthins⟩ := hxy
    rw [List.lookup_cons, List.lookup_cons]
    cases hk : k == x₁ with
    | false => exact ih
    | true =>
      obtain rfl := eq_of_beq hk
      exact .inr ⟨v, w, rfl, rfl, hthins⟩

theorem goes_attemptSomeOf (fuel : Nat) (p : Ref) (text : Str) (cache : CacheSlice)
    (backrefs : List BackReffable)
    (hbackrefs : NoneTagged program → ∀ x ∈ backrefs, (program x.2).tag = none) :
    Goes program (attemptSomeOf program fuel p text cache backrefs)
      (parseSomeOf program fuel p text cache backrefs) (Thins program p) := by
  induction fuel generalizing p text cache backrefs with
  | zero => exact .throw _
  | succ n ih =>
    have hbody := goes_attemptSomeOf_ ih hbackrefs n p text cache
    rw [parseSomeOf_succ, attemptSomeOf]
    have hrecalling : Goes program
        (recalling (cache.start, p)
          (attemptSomeOf_ n (attemptSomeOf program n) (program p) text cache backrefs))
        (recalling (cache.start, p)
          (parseSomeOf_ n (parseSomeOf program n) (program p) text cache backrefs))
        (Thins program p) := by
      refine ⟨fun {t t' w s} ht hrun => ?_⟩
      obtain ⟨entries, t₁, hget, hrun⟩ := run_bind_eq_ok.mp hrun
      cases hget
      -- it is in both caches or in neither
      rcases ht.lookup (cache.start, p) with ⟨hmiss, hmiss'⟩ | ⟨v, v', hv, hv', hthins⟩
      · rw [hmiss'] at hrun
        obtain ⟨v', t₂, hbody', hrun⟩ := run_bind_eq_ok.mp hrun
        cases hrun
        obtain ⟨v, s', hv, hthins, hs⟩ := hbody.run ht hbody'
        refine ⟨v, ((cache.start, p), v) :: s', ?_, hthins, .cons ⟨rfl, hthins⟩ hs⟩
        exact run_bind_eq_ok.mpr ⟨t, t, rfl, by
          rw [hmiss]
          exact run_bind_eq_ok.mpr ⟨v, s', hv, rfl⟩⟩
      · rw [hv'] at hrun
        cases hrun
        exact ⟨v, t, run_bind_eq_ok.mpr ⟨t, t, rfl, by rw [hv]; rfl⟩, hthins, ht⟩
    split_ifs
    · exact ⟨fun _ hrun => nomatch hrun⟩
    · exact hrecalling

theorem attempt_of_parse {fuel : Nat} {parser : Ref} {chars : List Char} {v : Outcome}
    (h : parse program fuel parser chars = .ok v) :
    ∃ full, attempt program fuel parser chars = .ok full ∧ Thins program parser full v := by
  obtain ⟨x, hrun, hx⟩ := bind_eq_ok.mp h
  obtain rfl := Except.ok.inj hx
  obtain ⟨full, s, hfull, hthins, -⟩ := (goes_attemptSomeOf fuel parser _ _ []
    fun _ x hx => nomatch hx).run (.nil : Pairs program [] []) hrun
  exact ⟨full, bind_eq_ok.mpr ⟨(full, s), hfull, rfl⟩, hthins⟩

/-! ## The failure that is reported -/

/-- It is one of the failures, and none is further through: none leaves less of the text. -/
structure Best (failures : ParseFailed → Prop) (f : ParseFailed) : Prop where
  mem : failures f
  le : ∀ r, failures r → f.at_.len ≤ r.at_.len

/-- A leaf records one failure. -/
theorem best_leaf {goal : Goal} {matched at_ : Str} {why : Unexpected}
    (h : goal.text.after matched = .ok at_) :
    Best (Recorded program goal (.leaf matched (some why))) ⟨at_, why, contextOf program goal⟩ := by
  refine ⟨.leaf h, fun r hr => ?_⟩
  cases hr with
  | leaf h' =>
    cases h'.symm.trans h
    exact Nat.le_refl _

theorem byteLen_of_splitBytes {chars front back : List Char} {n : Nat}
    (h : splitBytes chars n = some (front, back)) : byteLen front = n := by
  induction chars generalizing n front with
  | nil =>
    cases n with
    | zero =>
      cases h
      rfl
    | succ n => cases h
  | cons c chars ih =>
    cases n with
    | zero =>
      cases h
      rfl
    | succ n =>
      rw [splitBytes] at h
      split_ifs at h with hle
      obtain ⟨x, hx, heq⟩ := Option.map_eq_some_iff.mp h
      cases heq
      rw [byteLen_cons, ih hx]
      omega

theorem len_of_upTo {text rest front : Str} (h : text.upTo rest = .ok front) :
    front.len + rest.len = text.len := by
  rw [Str.upTo] at h
  split_ifs at h with hle
  rw [Str.sliceTo] at h
  cases hsplit : splitBytes text.chars (text.len - rest.len) with
  | none =>
    rw [hsplit] at h
    cases h
  | some x =>
    rw [hsplit] at h
    cases h
    have hlen := byteLen_of_splitBytes hsplit
    change byteLen x.1 + rest.len = text.len
    omega

/-- The better of two, by what is before it -/
theorem better_of_eq_ok {text : Str} {last g result : ParseFailed}
    (h : (do
      let before ← text.upTo g.at_
      let best ← text.upTo last.at_
      return if before.len > best.len then g else last) = (.ok result : Result ParseFailed)) :
    (result = last ∨ result = g) ∧ result.at_.len ≤ last.at_.len ∧ result.at_.len ≤ g.at_.len := by
  obtain ⟨before, hbefore, h⟩ := bind_eq_ok.mp h
  obtain ⟨best, hbest, h⟩ := bind_eq_ok.mp h
  obtain rfl := Except.ok.inj h
  have hlen := len_of_upTo hbefore
  have hlen' := len_of_upTo hbest
  split_ifs with hlt
  · exact ⟨.inr rfl, by omega, Nat.le_refl _⟩
  · exact ⟨.inl rfl, Nat.le_refl _, by omega⟩

/-- The fold over the failures before the last -/
theorem best_of_foldlM {text : Str} {failures : List (Option ParseFailed)} {last f : ParseFailed}
    (h : failures.foldlM (fun (result : ParseFailed) f => match f with
      | none => return result
      | some f => do
        let before ← text.upTo f.at_
        let best ← text.upTo result.at_
        return if before.len > best.len then f else result) last = (.ok f : Result ParseFailed)) :
    Best (fun r => r = last ∨ some r ∈ failures) f := by
  induction failures generalizing last with
  | nil =>
    cases h
    exact ⟨.inl rfl, fun r hr => hr.elim (fun hr => by rw [hr]) fun hr => nomatch hr⟩
  | cons g failures ih =>
    rw [List.foldlM_cons] at h
    cases g with
    | none =>
      obtain ⟨hmem, hle⟩ := ih h
      exact ⟨hmem.imp_right (.tail _), fun r hr => hle r (hr.imp_right fun hr => by simpa using hr)⟩
    | some g =>
      obtain ⟨result, hstep, h⟩ := bind_eq_ok.mp h
      obtain ⟨hresult, hlast, hg⟩ := better_of_eq_ok hstep
      obtain ⟨hmem, hle⟩ := ih h
      have hfirst := hle result (.inl rfl)
      refine ⟨?_, fun r hr => ?_⟩
      · rcases hmem with rfl | hmem
        · rcases hresult with heq | heq
          · exact .inl heq
          · rw [heq]
            exact .inr (List.mem_cons_self ..)
        · exact .inr (.tail _ hmem)
      · rcases hr with rfl | hr
        · exact Nat.le_trans hfirst hlast
        · rcases List.mem_cons.mp hr with hr | hr
          · cases hr
            exact Nat.le_trans hfirst hg
          · exact hle r (.inr hr)

theorem furthest_best {text : Str} {failures : List (Option ParseFailed)} {f : ParseFailed}
    (h : furthest text failures = .ok f) : Best (fun r => some r ∈ failures) f := by
  rw [furthest] at h
  cases hlast : failures.getLast? with
  | none =>
    rw [hlast] at h
    cases h
  | some last =>
    rw [hlast] at h
    cases last with
    | none => cases h
    | some last =>
      obtain ⟨hmem, hle⟩ := best_of_foldlM h
      have hall : ∀ r, some r ∈ failures ↔ r = last ∨ some r ∈ failures.dropLast := by
        intro r
        obtain ⟨init, rfl⟩ := List.getLast?_eq_some_iff.mp hlast
        rw [List.dropLast_concat, List.mem_append, List.mem_singleton, or_comm, Option.some_inj]
      exact ⟨(hall f).mpr hmem, fun r hr => hle r ((hall r).mp hr)⟩

mutual

/-- The failure of a component is the best that its outcome has recorded. -/
theorem failureOf_best (goal : Goal) : (outcome : Outcome) → {f : Option ParseFailed} →
    failureOf program goal outcome = .ok f →
      (∀ r, Recorded program goal outcome r → f ≠ none) ∧
        ∀ r, f = some r → Best (Recorded program goal outcome) r
  | .composite none components, f, h => by
    obtain ⟨fs, hfs, h⟩ := bind_eq_ok.mp h
    obtain ⟨best, hfurthest, h⟩ := bind_eq_ok.mp h
    cases h
    obtain ⟨hall, hsome⟩ := failuresOf_best components hfs
    obtain ⟨hmem, hle⟩ := furthest_best hfurthest
    refine ⟨fun _ _ => nofun, fun r hr => ?_⟩
    obtain rfl := Option.some.inj hr
    obtain ⟨x, hx, hrecorded⟩ := hsome best hmem
    refine ⟨.inside hx hrecorded, fun r' hr' => ?_⟩
    cases hr' with
    | inside hy hrecorded' =>
      obtain ⟨r'', hr'', hle'⟩ := hall _ hy _ hrecorded'
      exact Nat.le_trans (hle r'' hr'') hle'
  | .leaf matched (some why), f, h => by
    obtain ⟨at_, hafter, h⟩ := bind_eq_ok.mp h
    cases h
    refine ⟨fun _ _ => nofun, fun r hr => ?_⟩
    obtain rfl := Option.some.inj hr
    exact best_leaf hafter
  | .composite (some _) _, f, h => by
    cases h
    exact ⟨fun r hr => (nomatch hr), fun r hr => nomatch hr⟩
  | .leaf _ none, f, h => by
    cases h
    exact ⟨fun r hr => (nomatch hr), fun r hr => nomatch hr⟩

theorem failuresOf_best : (components : Components) → {fs : List (Option ParseFailed)} →
    failuresOf program components = .ok fs →
      (∀ x ∈ components, ∀ r, Recorded program x.1 x.2 r → ∃ r', some r' ∈ fs ∧
        r'.at_.len ≤ r.at_.len) ∧
      ∀ r, some r ∈ fs → ∃ x ∈ components, Recorded program x.1 x.2 r
  | [], fs, h => by
    cases h
    exact ⟨fun x hx => (nomatch hx), fun r hr => nomatch hr⟩
  | (goal, outcome) :: components, fs, h => by
    obtain ⟨f, hf, h⟩ := bind_eq_ok.mp h
    obtain ⟨others, hothers, h⟩ := bind_eq_ok.mp h
    cases h
    obtain ⟨hne, hbest⟩ := failureOf_best goal outcome hf
    obtain ⟨hall, hsome⟩ := failuresOf_best components hothers
    refine ⟨fun x hx r hr => ?_, fun r hr => ?_⟩
    · rcases List.mem_cons.mp hx with rfl | hx
      · obtain ⟨best, rfl⟩ := Option.ne_none_iff_exists'.mp (hne r hr)
        exact ⟨best, List.mem_cons_self .., (hbest best rfl).le r hr⟩
      · obtain ⟨r', hr', hle⟩ := hall x hx r hr
        exact ⟨r', .tail _ hr', hle⟩
    · rcases List.mem_cons.mp hr with hr | hr
      · exact ⟨_, List.mem_cons_self .., (hbest r hr.symm).mem⟩
      · obtain ⟨x, hx, hrecorded⟩ := hsome r hr
        exact ⟨x, .tail _ hx, hrecorded⟩

end

/-- What `get_ast` reports is the best that is recorded, in the context of the root. -/
theorem best_of_getAst {tag : String} {goal : Goal} {v : Outcome} {f : ParseFailed}
    (hgoal : ∀ matched why, v = .leaf matched why → (program goal.parser).tag = none)
    (h : getAst program tag goal v = .ok (.error f)) :
    ∃ r, Best (Recorded program goal v) r ∧
      f = { r with context := r.context ++ [⟨tag, goal.text⟩] } := by
  match v, h with
  | .composite none components, h =>
    obtain ⟨best, hbest, h⟩ := bind_eq_ok.mp h
    cases h
    obtain ⟨fs, hfs, hfurthest⟩ := bind_eq_ok.mp hbest
    obtain ⟨hall, hsome⟩ := failuresOf_best [(goal, .composite none components)] hfs
    obtain ⟨hmem, hle⟩ := furthest_best hfurthest
    obtain ⟨x, hx, hrecorded⟩ := hsome best hmem
    obtain rfl := List.mem_singleton.mp hx
    refine ⟨best, ⟨hrecorded, fun r hr => ?_⟩, rfl⟩
    obtain ⟨r', hr', hle'⟩ := hall _ hx r hr
    exact Nat.le_trans (hle r' hr') hle'
  | .leaf matched (some why), h =>
    obtain ⟨at_, hafter, h⟩ := bind_eq_ok.mp h
    cases h
    have hcontext : contextOf program goal = [] := by rw [contextOf, hgoal _ _ rfl]
    refine ⟨⟨at_, why, contextOf program goal⟩, best_leaf hafter, ?_⟩
    rw [hcontext]
    rfl

theorem tag_of_parse_leaf {fuel : Nat} {parser : Ref} {chars : List Char} {matched : Str}
    {unexpected : Option Unexpected}
    (h : parse program fuel parser chars = .ok (.leaf matched unexpected)) :
    (program parser).tag = none := by
  obtain ⟨x, hrun, hx⟩ := bind_eq_ok.mp h
  obtain ⟨w, s⟩ := x
  cases hx
  cases hp : program parser with
  | tagged tag content =>
    match fuel with
    | 0 => cases hrun
    | n + 1 =>
      change parseSomeOf program (n + 1) parser ⟨0, chars⟩ ⟨0, byteLen chars + 1⟩ [] [] = _ at hrun
      rw [parseSomeOf_succ] at hrun
      simp only [Str.len, ne_eq, not_true_eq_false, if_false] at hrun
      obtain ⟨entries, t, hget, hrun⟩ := run_bind_eq_ok.mp hrun
      cases hget
      obtain ⟨w, s', hbody, hrun⟩ := run_bind_eq_ok.mp hrun
      cases hrun
      rw [hp] at hbody
      obtain ⟨result, s'', -, hresult⟩ := run_bind_eq_ok.mp hbody
      cases hresult
  | _ => rfl

variable (program) in
/-- What is reported is the furthest of all failures that were tried: it is where that leaf
failed, for its reason, and in the tagged parsers around it. -/
def ReportsFurthest (tag : String) (goal : Goal) (full : Outcome) (f : ParseFailed) : Prop :=
  ∃ r, Best (Recorded program goal full) r ∧
    f = { r with context := r.context ++ [⟨tag, goal.text⟩] }

theorem reportsFurthest_iff {tag : String} {goal : Goal} {full : Outcome} {best : ParseFailed} :
    ReportsFurthest program tag goal full
        { best with context := best.context ++ [⟨tag, goal.text⟩] } ↔
      Best (Recorded program goal full) best := by
  refine ⟨fun ⟨r, hr, heq⟩ => ?_, fun hbest => ⟨best, hbest, rfl⟩⟩
  obtain ⟨hat, hwhy, hcontext⟩ := ParseFailed.mk.inj heq
  rwa [eq_of_parts hat hwhy (List.append_cancel_right hcontext)]

variable (program) in
/-- Of all failures that were tried, none is further through than all that are recorded. -/
def NoneForgotten (goal : Goal) (full v : Outcome) : Prop :=
  ∀ r, Recorded program goal full r → ∃ r', Recorded program goal v r' ∧ r'.at_.len ≤ r.at_.len

variable (program) in
/-- The furthest of the recorded failures have all of the tagged parsers around them. -/
def KeepsTags (goal : Goal) (full v : Outcome) : Prop :=
  ∀ r, Best (Recorded program goal v) r → Recorded program goal full r

/-- Where parsing fails, `get_ast` reports the furthest failure that was tried if none that is
further was forgotten and those that it may report have their tags. Where no back reference goes
straight to a tagged parser, just if none was forgotten; and where no two of the recorded failures
are the furthest, just if both are so. -/
theorem reportsFurthest_of_parse {program : Program} {fuel : Nat} {parser : Ref}
    {chars : List Char} {v : Outcome} {tag : String} {f : ParseFailed}
    (h : parse program fuel parser chars = .ok v)
    (hf : getAst program tag ⟨parser, ⟨0, chars⟩⟩ v = .ok (.error f)) :
    ∃ full, attempt program fuel parser chars = .ok full ∧
      (NoneForgotten program ⟨parser, ⟨0, chars⟩⟩ full v ∧
          KeepsTags program ⟨parser, ⟨0, chars⟩⟩ full v →
        ReportsFurthest program tag ⟨parser, ⟨0, chars⟩⟩ full f) ∧
      (NoneTagged program → (ReportsFurthest program tag ⟨parser, ⟨0, chars⟩⟩ full f ↔
        NoneForgotten program ⟨parser, ⟨0, chars⟩⟩ full v)) ∧
      ((∀ r r', Best (Recorded program ⟨parser, ⟨0, chars⟩⟩ v) r →
          Best (Recorded program ⟨parser, ⟨0, chars⟩⟩ v) r' → r = r') →
        (ReportsFurthest program tag ⟨parser, ⟨0, chars⟩⟩ full f ↔
          NoneForgotten program ⟨parser, ⟨0, chars⟩⟩ full v ∧
            KeepsTags program ⟨parser, ⟨0, chars⟩⟩ full v)) := by
  obtain ⟨full, hfull, hthins⟩ := attempt_of_parse h
  have hleaf : ∀ matched why, v = .leaf matched why → (program parser).tag = none := by
    rintro matched why rfl
    exact tag_of_parse_leaf h
  obtain ⟨best, hbest, rfl⟩ := best_of_getAst hleaf hf
  refine ⟨full, hfull, ?_⟩
  rw [@reportsFurthest_iff program tag ⟨parser, ⟨0, chars⟩⟩ full best]
  have henough : NoneForgotten program ⟨parser, ⟨0, chars⟩⟩ full v ∧
      KeepsTags program ⟨parser, ⟨0, chars⟩⟩ full v →
        Best (Recorded program ⟨parser, ⟨0, chars⟩⟩ full) best := by
    rintro ⟨hkept, htags⟩
    refine ⟨htags best hbest, fun r hr => ?_⟩
    obtain ⟨r', hr', hle⟩ := hkept r hr
    exact Nat.le_trans (hbest.le r' hr') hle
  have hforgotten : Best (Recorded program ⟨parser, ⟨0, chars⟩⟩ full) best →
      NoneForgotten program ⟨parser, ⟨0, chars⟩⟩ full v :=
    fun hall r hr => ⟨best, hbest.mem, hall.le r hr⟩
  refine ⟨henough, fun hnone => ⟨hforgotten, fun hkept => ?_⟩,
    fun hunique => ⟨fun hall => ⟨hforgotten hall, fun r hr => ?_⟩, henough⟩⟩
  · -- no tag can be lost
    refine henough ⟨hkept, fun r hr => ?_⟩
    obtain ⟨r', hr', hat, hwhy, hcontext⟩ := hthins.recorded _ r hr.mem
    exact eq_of_parts hat hwhy (hcontext hnone) ▸ hr'
  · -- the one that is furthest is the one that is reported
    rw [hunique r best hr hbest]
    exact hall.mem

/-- `parse_x_until_y(char('a'), literal("abcd"))` -/
def aUntilAbcd : Program
  | 0 => .xUntilY 1 2
  | 1 => .char 'a'
  | 2 => .literal ['a', 'b', 'c', 'd']
  | _ + 3 => .none

/-- At `x` both are missing. -/
theorem reportsFurthest_of_parse_x : ∃ full f, attempt aUntilAbcd 3 0 ['x'] = .ok full ∧
    getAst aUntilAbcd "root" ⟨0, ⟨0, ['x']⟩⟩ full = .ok (.error f) ∧
      ReportsFurthest aUntilAbcd "root" ⟨0, ⟨0, ['x']⟩⟩ full f := by
  obtain ⟨full, hfull, -, hiff, -⟩ :=
    @reportsFurthest_of_parse aUntilAbcd 3 0 ['x'] _ "root" _ rfl rfl
  have hnone : NoneTagged aUntilAbcd := by
    intro p inside q hp
    match p with
    | 0 | 1 | 2 | _ + 3 => exact nomatch hp
  cases hfull
  exact ⟨_, _, rfl, rfl, (hiff hnone).mpr fun r hr => ⟨r, hr, Nat.le_refl _⟩⟩

/-- At `abcx` the literal is missing behind `abc`, but there is an `a`; and behind that, where no
more of the literal is there, both are missing. -/
theorem not_reportsFurthest : ¬ ∀ program fuel parser chars v tag f full,
    parse program fuel parser chars = .ok v →
      getAst program tag ⟨parser, ⟨0, chars⟩⟩ v = .ok (.error f) →
        attempt program fuel parser chars = .ok full →
          ReportsFurthest program tag ⟨parser, ⟨0, chars⟩⟩ full f := by
  intro h
  obtain ⟨r, hr, heq⟩ := h aUntilAbcd 4 0 ['a', 'b', 'c', 'x'] _ "root" _ _ rfl rfl rfl
  have hat : (⟨1, ['b', 'c', 'x']⟩ : Str) = r.at_ := (ParseFailed.mk.inj heq).1
  have hle := hr.le _ (.inside (List.mem_cons_self ..) (.leaf rfl))
  rw [← hat] at hle
  exact absurd hle (by decide)

end Urnest.RufParser
