import Mathlib
import Urnest.Lib.Fuel
import Urnest.RufParser.WellFormed

/-!
# What a parser returns

An outcome is good for the text that was parsed (`Good`) where what it has matched begins the
text, and the last component of every failed composite has itself failed; and so for what is
in the cache (`Valid`). A parser that is called where all that it calls in turn gives good
outcomes (`Answers`) gives one, and a success that matched nothing is one that `MayBeEmpty`
knows of (`Post`). One lemma for each combinator says so, from the answers of what it calls
(`Ready`).
-/

namespace Urnest.RufParser

open Lib

/-- The outcome is one that the text may have. -/
inductive Good : Str → Outcome → Prop where
  | leaf {text matched : Str} {unexpected : Option Unexpected} (h : matched.Begins text) :
      Good text (.leaf matched unexpected)
  | matched {text matched : Str} {components : Components} (h : matched.Begins text) :
      Good text (.composite (some matched) components)
  | failed {text : Str} {components : Components} {last : Goal × Outcome}
      (hlast : components.getLast? = some last) (hfailed : last.2.matched? = none)
      (hends : ∀ x ∈ components, x.2.matched? = none → x.1.text.Ends text)
      (hgood : ∀ x ∈ components, x.2.matched? = none → Good x.1.text x.2) :
      Good text (.composite none components)

theorem Good.begins {text matched : Str} {outcome : Outcome} (h : Good text outcome)
    (hm : outcome.matched? = some matched) : matched.Begins text := by
  cases h with
  | @leaf _ m unexpected h =>
    cases unexpected with
    | none =>
      cases hm
      exact h
    | some why => cases hm
  | matched h =>
    cases hm
    exact h
  | failed => cases hm

/-- The last component of every failed composite is itself failed. -/
inductive Sound : Outcome → Prop where
  | leaf {matched : Str} {unexpected : Option Unexpected} : Sound (.leaf matched unexpected)
  | matched {matched : Str} {components : Components} (h : ∀ x ∈ components, Sound x.2) :
      Sound (.composite (some matched) components)
  | failed {components : Components} {last : Goal × Outcome}
      (hlast : components.getLast? = some last) (hfailed : last.2.matched? = none)
      (h : ∀ x ∈ components, Sound x.2) : Sound (.composite none components)

/-- A component may stand in an outcome for the text: if it failed it is good for its own
text, which ends the whole text. -/
def Fits (text : Str) (x : Goal × Outcome) : Prop :=
  Sound x.2 ∧ (x.2.matched? = none → x.1.text.Ends text ∧ Good x.1.text x.2)

theorem fits_of_matched {text matched : Str} {x : Goal × Outcome} (hsound : Sound x.2)
    (h : x.2.matched? = some matched) : Fits text x :=
  ⟨hsound, fun hnone => by rw [h] at hnone; cases hnone⟩

theorem fits_concat {text : Str} {components : Components} {x : Goal × Outcome}
    (h : ∀ y ∈ components, Fits text y) (hx : Fits text x) :
    ∀ y ∈ components ++ [x], Fits text y := by
  intro y hy
  rcases List.mem_append.mp hy with hy | hy
  · exact h y hy
  · rw [List.mem_singleton.mp hy]
    exact hx

theorem fits_single {text : Str} {x : Goal × Outcome} (hx : Fits text x) :
    ∀ y ∈ [x], Fits text y := by
  intro y hy
  rw [List.mem_singleton.mp hy]
  exact hx

theorem Sound.of_fits {text matched : Str} {components : Components}
    (h : ∀ x ∈ components, Fits text x) : Sound (.composite (some matched) components) :=
  .matched fun x hx => (h x hx).1

/-- A failure whose last component failed -/
theorem good_of_fits {text : Str} {components : Components} {last : Goal × Outcome}
    (h : ∀ x ∈ components, Fits text x) (hfits : Fits text last) (hfailed : last.2.matched? = none) :
    Good text (.composite none (components ++ [last])) ∧
      Sound (.composite none (components ++ [last])) := by
  have hall := fits_concat h hfits
  exact ⟨.failed (List.getLast?_concat ..) hfailed (fun x hx hnone => ((hall x hx).2 hnone).1)
      fun x hx hnone => ((hall x hx).2 hnone).2,
    .failed (List.getLast?_concat ..) hfailed fun x hx => (hall x hx).1⟩

theorem good_single {text : Str} {x : Goal × Outcome} (hfits : Fits text x)
    (hfailed : x.2.matched? = none) :
    Good text (.composite none [x]) ∧ Sound (.composite none [x]) :=
  @good_of_fits text [] x (fun _ hx => by cases hx) hfits hfailed

/-- A failure inside of the text goes on with what was before it. -/
theorem good_append {text rest : Str} {components more : Components}
    (h : ∀ x ∈ components, Fits text x) (hends : rest.Ends text)
    (hgood : Good rest (.composite none more)) (hsound : Sound (.composite none more)) :
    Good text (.composite none (components ++ more)) ∧
      Sound (.composite none (components ++ more)) := by
  cases hgood with
  | @failed _ _ last hlast hfailed hfits hmore =>
    cases hsound with
    | failed _ _ hall =>
      have hlast' : (components ++ more).getLast? = some last := by
        rw [List.getLast?_append, hlast]
        rfl
      refine ⟨.failed hlast' hfailed (fun x hx hnone => ?_) fun x hx hnone => ?_,
        .failed hlast' hfailed fun x hx => ?_⟩
      · rcases List.mem_append.mp hx with hx | hx
        · exact ((h x hx).2 hnone).1
        · exact (hfits x hx hnone).trans hends
      · rcases List.mem_append.mp hx with hx | hx
        · exact ((h x hx).2 hnone).2
        · exact hmore x hx hnone
      · rcases List.mem_append.mp hx with hx | hx
        · exact (h x hx).1
        · exact hall x hx

/-- The slice of the cache that goes with a text -/
def CacheSlice.of (text : Str) : CacheSlice := ⟨text.ptr, text.len + 1⟩

/-- Behind a match the text and the cache go on together. -/
theorem advance {text matched : Str} (h : matched.Begins text) :
    ∃ rest, text.after matched = .ok rest ∧
      (CacheSlice.of text).from matched.len = .ok (CacheSlice.of rest) ∧ rest.Ends text ∧
      (matched.chars = [] → rest = text) ∧
      (matched.chars ≠ [] → rest.chars.length < text.chars.length) := by
  obtain ⟨rest, hafter, hends, hptr, hchars⟩ := Str.after_of_begins h
  have hlen : text.len = matched.len + rest.len := by
    rw [Str.len, hchars, byteLen_append, Str.len, Str.len]
  refine ⟨rest, hafter, ?_, hends, fun hnil => ?_, fun hne => ?_⟩
  · rw [CacheSlice.from, CacheSlice.of, if_pos (by simp only; omega), CacheSlice.of, hptr]
    simp only
    rw [show text.len + 1 - matched.len = rest.len + 1 by omega]
  · refine hends.eq (Str.Ends.refl text) ?_
    rw [hptr, Str.len, hnil, byteLen_nil, Nat.add_zero]
  · have hpos := List.length_pos_iff.mpr hne
    rw [hchars, List.length_append]
    omega

theorem Str.Ends.eq_or_shorter {rest text : Str} (h : rest.Ends text) :
    rest = text ∨ rest.chars.length < text.chars.length := by
  obtain ⟨front, hchars, hptr⟩ := h
  cases front with
  | nil =>
    left
    cases rest
    cases text
    simp only [List.nil_append, byteLen_nil, Nat.add_zero] at hchars hptr
    rw [hchars, hptr]
  | cons c front =>
    right
    rw [hchars, List.cons_append, List.length_cons, List.length_append]
    omega

section Answers

variable (program : Program) (target : Ref → Ref) (base : Str)

/-- What is known of the outcome of a parser -/
structure Post (p : Ref) (text : Str) (outcome : Outcome) : Prop where
  good : Good text outcome
  sound : Sound outcome
  empty : ∀ matched, outcome.matched? = some matched → matched.chars = [] →
    MayBeEmpty program target p

/-- All that is in the cache is known so, at its place in the text. -/
def Valid (entries : Entries) : Prop :=
  ∀ k outcome, entries.lookup k = some outcome → ∀ text : Str, text.Ends base → text.ptr = k.1 →
    Post program target k.2 text outcome

/-- An outcome that is known, and in the cache -/
structure Got (p : Ref) (text : Str) (outcome : Outcome) (entries : Entries) : Prop where
  post : Post program target p text outcome
  valid : Valid program target base entries
  cached : entries.lookup (text.ptr, p) = some outcome

/-- A call of the parser gives a good outcome. -/
def Answers (call : Nat → Call) (backrefs : List BackReffable) (p : Ref) (text : Str) : Prop :=
  ∀ entries, Valid program target base entries →
    Reaches (fun n => call n p text (.of text) backrefs) entries (Got program target base p text)

/-- A parser may be called from the call of `p` on the text, as the induction goes. -/
def Lower (p : Ref) (text : Str) (q : Ref) (rest : Str) : Prop :=
  rest.chars.length < text.chars.length ∨ rest = text ∧ LeftCalls program target q p

/-- All that `p` calls answers. -/
def Ready (call : Nat → Call) (backrefs : List BackReffable) (p : Ref) (text : Str) : Prop :=
  ∀ q rest, q ∈ (program p).calls → rest.Ends text → Lower program target p text q rest →
    Answers program target base call backrefs q rest

/-- What the body of a parser is to give -/
def Gives (p : Ref) (text : Str) (outcome : Outcome) (entries : Entries) : Prop :=
  Post program target p text outcome ∧ Valid program target base entries

end Answers

section Combinators

variable {program : Program} {target : Ref → Ref} {base : Str} {call : Nat → Call}
  {backrefs : List BackReffable} {p : Ref} {text : Str} {entries : Entries}

/-- A failed composite needs no match. -/
theorem Post.of_failed {outcome : Outcome} (h : Good text outcome ∧ Sound outcome)
    (hnone : outcome.matched? = none) : Post program target p text outcome :=
  ⟨h.1, h.2, fun _ hm => by rw [hnone] at hm; cases hm⟩

theorem Got.fits {q : Ref} {rest : Str} {outcome : Outcome}
    (h : Got program target base q rest outcome entries) (hends : rest.Ends text) :
    Fits text (⟨q, rest⟩, outcome) :=
  ⟨h.post.sound, fun _ => ⟨hends, h.post.good⟩⟩

/-- The terms of `And`: where nothing was matched yet, all terms so far may be empty. -/
theorem reaches_and {first : Ref} {others : List Ref} (before : List Ref) {terms : List Ref}
    {rest : Str} {components : Components} (hp : program p = .and first others)
    (hready : Ready program target base call backrefs p text)
    (hsplit : first :: others = before ++ terms) (hends : rest.Ends text)
    (hempty : rest = text → ∀ q ∈ before, MayBeEmpty program target q)
    (hfits : ∀ x ∈ components, Fits text x) (hvalid : Valid program target base entries) :
    Reaches (fun n => parseAnd (call n) backrefs text terms rest (.of rest) components) entries
      (Gives program target base p text) := by
  induction terms generalizing before rest components entries with
  | nil =>
    obtain ⟨matched, hupTo, hbegins, hchars⟩ := Str.upTo_of_ends hends
    simp only [parseAnd]
    refine .lift_bind hupTo (.pure ⟨⟨.matched hbegins, .of_fits hfits, fun m hm hnil => ?_⟩, hvalid⟩)
    cases hm
    rw [List.append_nil] at hsplit
    rw [hnil, List.nil_append] at hchars
    refine .and hp fun q hq => hempty ?_ q (hsplit ▸ hq)
    rcases hends.eq_or_shorter with h | h
    · exact h
    · rw [hchars] at h
      exact absurd h (Nat.lt_irrefl _)
  | cons term terms ih =>
    have hterm : Answers program target base call backrefs term rest := by
      refine hready term rest ?_ hends ?_
      · rw [hp, Parser.calls, hsplit]
        simp
      · rcases hends.eq_or_shorter with h | h
        · exact .inr ⟨h, .and hp hsplit (hempty h)⟩
        · exact .inl h
    simp only [parseAnd]
    refine .bind (hterm entries hvalid) fun result entries₁ hgot => ?_
    cases hm : result.matched? with
    | none => exact .pure ⟨.of_failed (good_of_fits hfits (hgot.fits hends) hm) rfl, hgot.valid⟩
    | some matched =>
      obtain ⟨rest₁, hafter, hfrom, hends₁, hsame, hshorter⟩ := advance (hgot.post.good.begins hm)
      refine .lift_bind hafter (.lift_bind hfrom (ih (before ++ [term]) ?_ (hends₁.trans hends) ?_
        (fits_concat hfits (hgot.fits hends)) hgot.valid))
      · rw [hsplit, List.append_assoc, List.singleton_append]
      -- The text is still the same one: this term, too, matched nothing.
      · intro hrest₁ q hq
        have hle := hends.length_le
        have hnil : matched.chars = [] := by
          by_contra hne
          have hlt := hshorter hne
          rw [hrest₁] at hlt
          exact absurd hlt (Nat.not_lt.mpr hle)
        rcases List.mem_append.mp hq with hq | hq
        · exact hempty ((hsame hnil).symm.trans hrest₁) q hq
        · rw [List.mem_singleton.mp hq]
          exact hgot.post.empty matched hm hnil

/-- The terms of `Or`: all so far failed, on the same text. -/
theorem reaches_or {first : Ref} {others terms : List Ref} {components : Components}
    (hp : program p = .or first others)
    (hready : Ready program target base call backrefs p text)
    (hterms : ∀ q ∈ terms, q ∈ first :: others)
    (hsome : terms = [] → ∃ init last, components = init ++ [last] ∧ last.2.matched? = none)
    (hfits : ∀ x ∈ components, Fits text x) (hvalid : Valid program target base entries) :
    Reaches (fun n => parseOr (call n) backrefs text (.of text) terms components) entries
      (Gives program target base p text) := by
  induction terms generalizing components entries with
  | nil =>
    obtain ⟨init, last, rfl, hfailed⟩ := hsome rfl
    simp only [parseOr]
    refine .pure ⟨.of_failed (good_of_fits (fun x hx => hfits x ?_) (hfits last ?_) hfailed) rfl, hvalid⟩
    · exact List.mem_append_left _ hx
    · simp
  | cons term terms ih =>
    have hmem := hterms term (List.mem_cons_self ..)
    have hterm : Answers program target base call backrefs term text := by
      refine hready term text ?_ (.refl text) (.inr ⟨rfl, .or hp hmem⟩)
      rw [hp]
      exact hmem
    simp only [parseOr]
    refine .bind (hterm entries hvalid) fun result entries₁ hgot => ?_
    cases hm : result.matched? with
    | none =>
      exact ih (fun q hq => hterms q (.tail _ hq)) (fun _ => ⟨components, _, rfl, hm⟩)
        (fits_concat hfits (hgot.fits (.refl text))) hgot.valid
    | some matched =>
      refine .pure ⟨⟨.matched (hgot.post.good.begins hm),
        .of_fits (fits_concat hfits (hgot.fits (.refl text))), fun m hm' hnil => ?_⟩, hgot.valid⟩
      cases hm'
      exact .or hp hmem (hgot.post.empty matched hm hnil)

theorem reaches_tagged {tag : String} {content : Ref} (hp : program p = .tagged tag content)
    (hready : Ready program target base call backrefs p text)
    (hvalid : Valid program target base entries) :
    Reaches (fun n => parseTagged (call n) backrefs content text (.of text)) entries
      (Gives program target base p text) := by
  have hcontent : Answers program target base call backrefs content text :=
    hready content text (by rw [hp]; exact List.mem_singleton.mpr rfl) (.refl text)
      (.inr ⟨rfl, .tagged hp⟩)
  simp only [parseTagged]
  refine .bind (hcontent entries hvalid) fun result entries₁ hgot => .pure ⟨?_, hgot.valid⟩
  cases hm : result.matched? with
  | none =>
    exact .of_failed (good_single (hgot.fits (.refl text)) hm) rfl
  | some matched =>
    refine ⟨.matched (hgot.post.good.begins hm), .of_fits (fits_single (hgot.fits (.refl text))),
      fun m hm' hnil => ?_⟩
    cases hm'
    exact .tagged hp (hgot.post.empty matched hm hnil)

theorem parseMore_of_pos {c : Call} {x : Ref} {fuel : Nat} {rest : Str} {cache : CacheSlice}
    {components : Components} (h : 1 ≤ fuel) :
    parseMore c backrefs x text fuel rest cache components = (do
      let result ← c x rest cache backrefs
      match result.matched? with
      | none => return .composite (some (← text.upTo rest)) components
      | some matched =>
        let t ← rest.after matched
        let behind ← cache.from matched.len
        parseMore c backrefs x text (fuel - 1) t behind (components ++ [(⟨x, rest⟩, result)])) := by
  cases fuel with
  | zero => exact absurd h (by decide)
  | succ n => rfl

/-- The loop of the repetitions. That `p` may be empty need only be known where nothing was
matched before. -/
theorem reaches_more {x : Ref} (hx : ¬ MayBeEmpty program target x) {g : Nat → Nat} (hg : Grows g)
    {rest : Str} {components : Components} (hends : rest.Ends text)
    (hcalls : ∀ r : Str, r.Ends rest → Answers program target base call backrefs x r)
    (hempty : rest = text → MayBeEmpty program target p)
    (hfits : ∀ z ∈ components, Fits text z) (hvalid : Valid program target base entries) :
    Reaches (fun n => parseMore (call n) backrefs x text (g n) rest (.of rest) components) entries
      (Gives program target base p text) := by
  induction hlength : rest.chars.length using Nat.strong_induction_on
    generalizing rest g components entries with
  | _ length ih =>
    obtain ⟨N, hN⟩ := hg 1
    refine .of_eventually N (fun n hn => congrFun (parseMore_of_pos (hN n hn)) entries) ?_
    refine .bind (hcalls rest (.refl rest) entries hvalid) fun result entries₁ hgot => ?_
    cases hm : result.matched? with
    | none =>
      obtain ⟨matched, hupTo, hbegins, hchars⟩ := Str.upTo_of_ends hends
      refine .lift_bind hupTo (.pure ⟨⟨.matched hbegins, .of_fits hfits, fun m hm hnil => ?_⟩,
        hgot.valid⟩)
      cases hm
      rw [hnil, List.nil_append] at hchars
      refine hempty (hends.eq_or_shorter.resolve_right fun h => ?_)
      rw [hchars] at h
      exact absurd h (Nat.lt_irrefl _)
    | some matched =>
      obtain ⟨rest₁, hafter, hfrom, hends₁, -, hshorter⟩ := advance (hgot.post.good.begins hm)
      have hlt := hshorter fun hnil => hx (hgot.post.empty matched hm hnil)
      refine .lift_bind hafter (.lift_bind hfrom ?_)
      refine ih _ (hlength ▸ hlt) hg.pred (hends₁.trans hends)
        (fun r hr => hcalls r (hr.trans hends₁)) (fun hrest₁ => ?_)
        (fits_concat hfits (hgot.fits hends)) hgot.valid rfl
      rw [hrest₁] at hlt
      exact absurd hlt (Nat.not_lt.mpr hends.length_le)

theorem reaches_zeroOrMore {x : Ref} (hp : program p = .zeroOrMore x)
    (hx : ¬ MayBeEmpty program target x)
    (hready : Ready program target base call backrefs p text)
    (hvalid : Valid program target base entries) :
    Reaches (fun n => parseMore (call n) backrefs x text n text (.of text) []) entries
      (Gives program target base p text) := by
  refine reaches_more hx grows_id (.refl text) (fun r hr => ?_) (fun _ => .zeroOrMore hp)
    (fun _ hz => by cases hz) hvalid
  refine hready x r (by rw [hp]; exact List.mem_singleton.mpr rfl) hr ?_
  exact hr.eq_or_shorter.symm.imp_right fun h => ⟨h, .zeroOrMore hp⟩

theorem reaches_atLeastOne {x : Ref} (hp : program p = .atLeastOne x)
    (hx : ¬ MayBeEmpty program target x)
    (hready : Ready program target base call backrefs p text)
    (hvalid : Valid program target base entries) :
    Reaches (fun n => parseAtLeastOne (call n) backrefs n x text (.of text)) entries
      (Gives program target base p text) := by
  have hcalls : ∀ r : Str, r.Ends text → Answers program target base call backrefs x r :=
    fun r hr => hready x r (by rw [hp]; exact List.mem_singleton.mpr rfl) hr
      (hr.eq_or_shorter.symm.imp_right fun h => ⟨h, .atLeastOne hp⟩)
  simp only [parseAtLeastOne]
  refine .bind (hcalls text (.refl text) entries hvalid) fun result entries₁ hgot => ?_
  cases hm : result.matched? with
  | none => exact .pure ⟨.of_failed (good_single (hgot.fits (.refl text)) hm) rfl, hgot.valid⟩
  | some matched =>
    obtain ⟨rest₁, hafter, hfrom, hends₁, -, hshorter⟩ := advance (hgot.post.good.begins hm)
    have hlt := hshorter fun hnil => hx (hgot.post.empty matched hm hnil)
    refine .lift_bind hafter (.lift_bind hfrom (reaches_more hx grows_id hends₁
      (fun r hr => hcalls r (hr.trans hends₁)) (fun hrest₁ => ?_)
      (fits_single (hgot.fits (.refl text))) hgot.valid))
    rw [hrest₁] at hlt
    exact absurd hlt (Nat.lt_irrefl _)

theorem parseXUntilY_of_pos {c : Call} {x y : Ref} {fuel : Nat} {rest : Str} {cache : CacheSlice}
    {components : Components} (h : 1 ≤ fuel) :
    parseXUntilY c backrefs x y text fuel rest cache components = (do
      let close ← c y rest cache backrefs
      match close.matched? with
      | some matched =>
        return .composite (some (← text.through matched)) (components ++ [(⟨y, rest⟩, close)])
      | none =>
        let item ← c x rest cache backrefs
        match item.matched? with
        | none =>
          return .composite none (components ++ [(⟨y, rest⟩, close), (⟨x, rest⟩, item)])
        | some matched =>
          let t ← rest.after matched
          let behind ← cache.from matched.len
          parseXUntilY c backrefs x y text (fuel - 1) t behind (components ++ [(⟨x, rest⟩, item)])) := by
  cases fuel with
  | zero => exact absurd h (by decide)
  | succ n => rfl

theorem reaches_xUntilY {x y : Ref} (hp : program p = .xUntilY x y)
    (hx : ¬ MayBeEmpty program target x)
    (hready : Ready program target base call backrefs p text) {g : Nat → Nat} (hg : Grows g)
    {rest : Str} {components : Components} (hends : rest.Ends text)
    (hfits : ∀ z ∈ components, Fits text z) (hvalid : Valid program target base entries) :
    Reaches (fun n => parseXUntilY (call n) backrefs x y text (g n) rest (.of rest) components)
      entries (Gives program target base p text) := by
  -- Each item is not empty, so the rest of the text gets shorter.
  induction hlength : rest.chars.length using Nat.strong_induction_on
    generalizing rest g components entries with
  | _ length ih =>
    have hcalls : ∀ q, q = x ∨ q = y → Answers program target base call backrefs q rest := by
      intro q hq
      refine hready q rest (by rw [hp]; simpa [Parser.calls] using hq) hends ?_
      exact hends.eq_or_shorter.symm.imp_right fun h => ⟨h, .xUntilY hp hq⟩
    obtain ⟨N, hN⟩ := hg 1
    refine .of_eventually N (fun n hn => congrFun (parseXUntilY_of_pos (hN n hn)) entries) ?_
    refine .bind (hcalls y (.inr rfl) entries hvalid) fun close entries₁ hclose => ?_
    cases hm : close.matched? with
    | some matched =>
      obtain ⟨t, hthrough, hbegins, hnil⟩ := Str.through_of_begins hends (hclose.post.good.begins hm)
      refine .lift_bind hthrough (.pure ⟨⟨.matched hbegins,
        .of_fits (fits_concat hfits (hclose.fits hends)), fun m hm' hempty => ?_⟩, hclose.valid⟩)
      cases hm'
      exact .xUntilY hp (hclose.post.empty matched hm (hnil hempty).1)
    | none =>
      refine .bind (hcalls x (.inl rfl) entries₁ hclose.valid) fun item entries₂ hitem => ?_
      cases hm' : item.matched? with
      | none =>
        have hgood := good_of_fits (fits_concat hfits (hclose.fits hends)) (hitem.fits hends) hm'
        rw [List.append_assoc] at hgood
        exact .pure ⟨.of_failed hgood rfl, hitem.valid⟩
      | some matched =>
        obtain ⟨rest₁, hafter, hfrom, hends₁, -, hshorter⟩ :=
          advance (hitem.post.good.begins hm')
        have hlt := hshorter fun hnil => hx (hitem.post.empty matched hm' hnil)
        exact .lift_bind hafter (.lift_bind hfrom (ih _ (hlength ▸ hlt) hg.pred
          (hends₁.trans hends) (fits_concat hfits (hitem.fits hends)) hitem.valid rfl))

/-- The cases of `Switch`: all so far failed, on the same text. -/
theorem reaches_switch {first : Ref × Ref} {others cases : List (Ref × Ref)}
    {components : Components} (hp : program p = .switch first others)
    (hready : Ready program target base call backrefs p text)
    (hcases : ∀ x ∈ cases, x ∈ first :: others)
    (hsome : cases = [] → ∃ init last, components = init ++ [last] ∧ last.2.matched? = none)
    (hfits : ∀ x ∈ components, Fits text x) (hvalid : Valid program target base entries) :
    Reaches (fun n => parseSwitch (call n) backrefs text (.of text) cases components) entries
      (Gives program target base p text) := by
  induction cases generalizing components entries with
  | nil =>
    obtain ⟨init, last, rfl, hfailed⟩ := hsome rfl
    simp only [parseSwitch]
    refine .pure ⟨.of_failed (good_of_fits (fun x hx => hfits x ?_) (hfits last ?_) hfailed) rfl, hvalid⟩
    · exact List.mem_append_left _ hx
    · simp
  | cons x cases ih =>
    have hmem := hcases x (List.mem_cons_self ..)
    have hcase : Answers program target base call backrefs x.1 text := by
      refine hready x.1 text ?_ (.refl text) (.inr ⟨rfl, .case hp hmem⟩)
      rw [hp]
      exact List.mem_append_left _ (List.mem_map_of_mem hmem)
    simp only [parseSwitch]
    refine .bind (hcase entries hvalid) fun result entries₁ hgot => ?_
    cases hm : result.matched? with
    | none =>
      exact ih (fun z hz => hcases z (.tail _ hz)) (fun _ => ⟨components, _, rfl, hm⟩)
        (fits_concat hfits (hgot.fits (.refl text))) hgot.valid
    | some matched =>
      obtain ⟨rest, hafter, hfrom, hends, hsame, hshorter⟩ := advance (hgot.post.good.begins hm)
      -- The content is behind the case, or on the same text if the case may be empty.
      have hcontent : Answers program target base call backrefs x.2 rest := by
        refine hready x.2 rest ?_ hends ?_
        · rw [hp]
          exact List.mem_append_right _ (List.mem_map_of_mem hmem)
        · by_cases hnil : matched.chars = []
          · exact .inr ⟨hsame hnil, .content hp hmem (hgot.post.empty matched hm hnil)⟩
          · exact .inl (hshorter hnil)
      refine .lift_bind hafter (.lift_bind hfrom (.bind (hcontent entries₁ hgot.valid)
        fun inside entries₂ hinside => ?_))
      cases hm' : inside.matched? with
      | none =>
        have hgood := good_of_fits (fits_concat hfits (hgot.fits (.refl text)))
          (hinside.fits hends) hm'
        rw [List.append_assoc] at hgood
        exact .pure ⟨.of_failed hgood rfl, hinside.valid⟩
      | some more =>
        obtain ⟨t, hthrough, hbegins, hnil⟩ :=
          Str.through_of_begins hends (hinside.post.good.begins hm')
        have hall := fits_concat (fits_concat hfits (hgot.fits (.refl text))) (hinside.fits hends)
        rw [List.append_assoc] at hall
        refine .lift_bind hthrough (.pure ⟨⟨.matched hbegins, .of_fits hall, fun m hmt hempty => ?_⟩,
          hinside.valid⟩)
        cases hmt
        obtain ⟨hmore, hrest⟩ := hnil hempty
        refine .switch hp hmem (hgot.post.empty matched hm ?_) (hinside.post.empty more hm' hmore)
        by_contra hne
        have hlt := hshorter hne
        rw [hrest] at hlt
        exact absurd hlt (Nat.lt_irrefl _)

theorem reaches_lookingAt {x : Ref} (hp : program p = .lookingAt x)
    (hready : Ready program target base call backrefs p text)
    (hvalid : Valid program target base entries) :
    Reaches (fun n => parseLookingAt (call n) backrefs x text (.of text)) entries
      (Gives program target base p text) := by
  have hx : Answers program target base call backrefs x text :=
    hready x text (by rw [hp]; exact List.mem_singleton.mpr rfl) (.refl text)
      (.inr ⟨rfl, .lookingAt hp⟩)
  simp only [parseLookingAt]
  refine .bind (hx entries hvalid) fun r entries₁ hgot => ?_
  cases hm : r.matched? with
  | none => exact .pure ⟨.of_failed (good_single (hgot.fits (.refl text)) hm) rfl, hgot.valid⟩
  | some matched =>
    exact .lift_bind text.sliceTo_zero
      (.pure ⟨⟨.leaf text.begins_nil, .leaf, fun _ _ _ => .lookingAt hp⟩, hgot.valid⟩)

theorem reaches_not {x : Ref} (hp : program p = .not x)
    (hready : Ready program target base call backrefs p text)
    (hvalid : Valid program target base entries) :
    Reaches (fun n => parseNot (call n) backrefs x text (.of text)) entries
      (Gives program target base p text) := by
  have hx : Answers program target base call backrefs x text :=
    hready x text (by rw [hp]; exact List.mem_singleton.mpr rfl) (.refl text)
      (.inr ⟨rfl, .not hp⟩)
  simp only [parseNot]
  refine .bind (hx entries hvalid) fun r entries₁ hgot => ?_
  cases r.matched? with
  | none =>
    exact .lift_bind text.sliceTo_zero
      (.pure ⟨⟨.leaf text.begins_nil, .leaf, fun _ _ _ => .not hp⟩, hgot.valid⟩)
  | some matched =>
    exact .lift_bind text.sliceTo_zero
      (.pure ⟨⟨.leaf text.begins_nil, .leaf, fun _ _ _ => .not hp⟩, hgot.valid⟩)

/-! ### Balanced text -/

/-- What is in the cache is returned. -/
def Hits (call : Nat → Call) (backrefs : List BackReffable) : Prop :=
  ∀ (q : Ref) (rest : Str) (entries : Entries) (outcome : Outcome),
    entries.lookup (rest.ptr, q) = some outcome →
      ∃ N, ∀ n ≥ N, call n q rest (.of rest) backrefs entries = .ok (outcome, entries)

/-- What `parse_to_y` gives: where it succeeds, `y` has matched behind it, and is cached. -/
structure ToY (program : Program) (target : Ref → Ref) (base : Str) (y : Ref) (text : Str)
    (result : CompositeResult) (entries : Entries) : Prop where
  good : Good text (.composite result.1 result.2)
  sound : Sound (.composite result.1 result.2)
  valid : Valid program target base entries
  cached : ∀ matched, result.1 = some matched → ∀ rest, text.after matched = .ok rest →
    ∃ outcome, entries.lookup (rest.ptr, y) = some outcome ∧ outcome.matched? ≠ none

/-- What the balance pairs give: a pair that is closed has consumed, and succeeded. -/
inductive NestedGood (rest : Str) : Nested → Prop where
  | unopened : NestedGood rest .unopened
  | failed {more : Components} (h : Good rest (.composite none more))
      (hsound : Sound (.composite none more)) : NestedGood rest (.failed more)
  | closed {t : Str} {more : Components} (hends : t.Ends rest)
      (hlt : t.chars.length < rest.chars.length) (hmore : ∀ x ∈ more, Fits rest x) :
      NestedGood rest (.closed t (.of t) more)

theorem reaches_balanced {toY : Nat → Ref → Str → CacheSlice → Parse CompositeResult} {rest : Str}
    {pairs : List (Ref × Ref)} (hbase : rest.Ends base) (hhits : Hits call backrefs)
    (hconsumes : ∀ x ∈ pairs, ¬ MayBeEmpty program target x.1)
    (hopen : ∀ x ∈ pairs, Answers program target base call backrefs x.1 rest)
    (htoY : ∀ x ∈ pairs, ∀ t : Str, t.Ends rest → t.chars.length < rest.chars.length →
      ∀ entries, Valid program target base entries →
        Reaches (fun n => toY n x.2 t (.of t)) entries (ToY program target base x.2 t))
    (hvalid : Valid program target base entries) :
    Reaches (fun n => parseBalanced (call n) backrefs (toY n) rest (.of rest) pairs) entries
      (fun nested entries => NestedGood rest nested ∧ Valid program target base entries) := by
  induction pairs generalizing entries with
  | nil =>
    simp only [parseBalanced]
    exact .pure ⟨.unopened, hvalid⟩
  | cons x pairs ih =>
    have hmem : x ∈ x :: pairs := List.mem_cons_self ..
    simp only [parseBalanced]
    refine .bind (hopen x hmem entries hvalid) fun opened entries₁ hopened => ?_
    cases hm : opened.matched? with
    | none =>
      exact ih (fun z hz => hconsumes z (.tail _ hz)) (fun z hz => hopen z (.tail _ hz))
        (fun z hz => htoY z (.tail _ hz)) hopened.valid
    | some matched =>
      obtain ⟨t, hafter, hfrom, hends, -, hshorter⟩ := advance (hopened.post.good.begins hm)
      have hlt := hshorter fun hnil => hconsumes x hmem (hopened.post.empty matched hm hnil)
      have hone : ∀ y ∈ [((⟨x.1, rest⟩ : Goal), opened)], Fits rest y :=
        fits_single (hopened.fits (.refl rest))
      refine .lift_bind hafter (.lift_bind hfrom (.bind (htoY x hmem t hends hlt entries₁
        hopened.valid) fun inner entries₂ hinner => ?_))
      obtain ⟨result, components⟩ := inner
      cases result with
      | none =>
        obtain ⟨hgood, hsound⟩ := good_append hone hends hinner.good hinner.sound
        exact .pure ⟨.failed hgood hsound, hinner.valid⟩
      | some matched =>
        obtain ⟨t₂, hafter₂, hfrom₂, hends₂, -, -⟩ := advance (hinner.good.begins rfl)
        -- What closes was parsed at the end of `parse_to_y` and is found in the cache, so it does not fail.
        obtain ⟨close, hcached, hsucceeded⟩ := hinner.cached matched rfl t₂ hafter₂
        have hcall : Reaches (fun n => call n x.2 t₂ (.of t₂) backrefs) entries₂
            fun o entries => o = close ∧ entries = entries₂ :=
          ⟨close, entries₂, ⟨rfl, rfl⟩, hhits x.2 t₂ entries₂ close hcached⟩
        refine .lift_bind hafter₂ (.lift_bind hfrom₂ (.bind hcall ?_))
        rintro o entries ⟨rfl, rfl⟩
        obtain ⟨more, hmore⟩ := Option.ne_none_iff_exists'.mp hsucceeded
        have hpost := hinner.valid _ o hcached t₂ (hends₂.trans (hends.trans hbase)) rfl
        obtain ⟨t₃, hafter₃, hfrom₃, hends₃, -, -⟩ := advance (hpost.good.begins hmore)
        simp only [hmore]
        refine .lift_bind hafter₃ (.lift_bind hfrom₃ (.pure ⟨.closed
          (hends₃.trans (hends₂.trans hends)) ?_ ?_, hinner.valid⟩))
        · exact Nat.lt_of_le_of_lt (Nat.le_trans hends₃.length_le hends₂.length_le) hlt
        · exact fits_concat hone (fits_of_matched hpost.sound hmore)

theorem parseToY_of_pos {c : Call} {pairs : List (Ref × Ref)} {content y : Ref} {fuel : Nat}
    {rest : Str} {cache : CacheSlice} {components : Components} (h : 1 ≤ fuel) :
    parseToY c backrefs pairs content fuel y text rest cache components = (do
      let ended ← c y rest cache backrefs
      match ended.matched? with
      | some _ => return (some (← text.upTo rest), components)
      | none =>
        let nested ← parseBalanced c backrefs
          (fun y text cache => parseToY c backrefs pairs content (fuel - 1) y text text cache [])
          rest cache pairs
        match nested with
        | .failed more => return (none, components ++ more)
        | .closed t behind more =>
          parseToY c backrefs pairs content (fuel - 1) y text t behind (components ++ more)
        | .unopened =>
          let item ← c content rest cache backrefs
          match item.matched? with
          | none => return (none, components ++ [(⟨content, rest⟩, item)])
          | some matched =>
            let t ← rest.after matched
            let behind ← cache.from matched.len
            parseToY c backrefs pairs content (fuel - 1) y text t behind
              (components ++ [(⟨content, rest⟩, item)])) := by
  cases fuel with
  | zero => exact absurd h (by decide)
  | succ n => rfl

/-- The loop, and what it calls itself for, which is behind an open -/
theorem reaches_toY {pairs : List (Ref × Ref)} {content : Ref} (hhits : Hits call backrefs)
    (hcontent : ¬ MayBeEmpty program target content)
    (hconsumes : ∀ x ∈ pairs, ¬ MayBeEmpty program target x.1) {g : Nat → Nat} (hg : Grows g)
    {y : Ref} {text rest : Str} {components : Components} (hbase : text.Ends base)
    (hends : rest.Ends text)
    (hcalls : ∀ q, q = y ∨ q = content ∨ q ∈ pairs.map Prod.fst → ∀ r : Str, r.Ends rest →
      Answers program target base call backrefs q r)
    (hcloses : ∀ x ∈ pairs, ∀ r : Str, r.Ends rest → r.chars.length < rest.chars.length →
      Answers program target base call backrefs x.2 r)
    (hfits : ∀ x ∈ components, Fits text x) (hvalid : Valid program target base entries) :
    Reaches (fun n => parseToY (call n) backrefs pairs content (g n) y text rest (.of rest) components)
      entries (ToY program target base y text) := by
  induction hlength : rest.chars.length using Nat.strong_induction_on
    generalizing y text rest g components entries with
  | _ length ih =>
    obtain ⟨N, hN⟩ := hg 1
    refine .of_eventually N (fun n hn => congrFun (parseToY_of_pos (hN n hn)) entries) ?_
    refine .bind (hcalls y (.inl rfl) rest (.refl rest) entries hvalid) fun ended entries₁ hended => ?_
    cases hm : ended.matched? with
    | some matched =>
      obtain ⟨front, hupTo, hbegins, hchars⟩ := Str.upTo_of_ends hends
      refine .lift_bind hupTo (.pure ⟨.matched hbegins, .of_fits hfits, hended.valid, fun m hm' r hafter => ?_⟩)
      cases hm'
      obtain ⟨r', hafter', hends', hptr, hchars'⟩ := Str.after_of_begins hbegins
      cases hafter'.symm.trans hafter
      refine ⟨ended, ?_, by rw [hm]; exact fun h => by cases h⟩
      have hsame : r.ptr = rest.ptr := by
        have hlen := hends.len
        have hlen' := hends'.len
        rw [hptr]
        have hfront : text.len = front.len + rest.len := by
          rw [Str.len, hchars, byteLen_append, Str.len, Str.len]
        omega
      rw [hsame]
      exact hended.cached
    | none =>
      have hopen : ∀ x ∈ pairs, Answers program target base call backrefs x.1 rest := fun x hx =>
        hcalls x.1 (.inr (.inr (List.mem_map_of_mem hx))) rest (.refl rest)
      have htoY : ∀ x ∈ pairs, ∀ t : Str, t.Ends rest → t.chars.length < rest.chars.length →
          ∀ entries, Valid program target base entries →
            Reaches (fun n => parseToY (call n) backrefs pairs content (g n - 1) x.2 t t (.of t) [])
              entries (ToY program target base x.2 t) := by
        intro x hx t ht hlt entries hvalid
        refine ih _ (hlength ▸ hlt) hg.pred (ht.trans (hends.trans hbase)) (.refl t) ?_ ?_
          (fun _ hz => by cases hz) hvalid rfl
        · rintro q (rfl | hq) r hr
          · exact hcloses x hx r (hr.trans ht) (Nat.lt_of_le_of_lt hr.length_le hlt)
          · exact hcalls q (.inr hq) r (hr.trans ht)
        · exact fun z hz r hr hlt' => hcloses z hz r (hr.trans ht) (Nat.lt_trans hlt' hlt)
      -- the loop goes on where less is left
      have hloop : ∀ (t : Str) (more : Components) (entries : Entries), t.Ends rest →
          t.chars.length < rest.chars.length → (∀ x ∈ more, Fits text x) →
          Valid program target base entries →
            Reaches (fun n => parseToY (call n) backrefs pairs content (g n - 1) y text t (.of t) more)
              entries (ToY program target base y text) := by
        intro t more entries ht hlt hmore hvalid
        exact ih _ (hlength ▸ hlt) hg.pred hbase (ht.trans hends)
          (fun q hq r hr => hcalls q hq r (hr.trans ht))
          (fun z hz r hr hlt' => hcloses z hz r (hr.trans ht) (Nat.lt_trans hlt' hlt)) hmore hvalid rfl
      refine .bind (reaches_balanced (hends.trans hbase) hhits hconsumes hopen htoY hended.valid)
        fun nested entries₂ hnested => ?_
      obtain ⟨hnested, hvalid₂⟩ := hnested
      cases hnested with
      | failed hgood hsound =>
        obtain ⟨hgood, hsound⟩ := good_append hfits hends hgood hsound
        exact .pure ⟨hgood, hsound, hvalid₂, fun _ hm => by cases hm⟩
      | @closed t more ht hlt hmore =>
        refine hloop t _ entries₂ ht hlt (fun x hx => ?_) hvalid₂
        rcases List.mem_append.mp hx with hx | hx
        · exact hfits x hx
        · exact ⟨(hmore x hx).1, fun hnone =>
            ⟨((hmore x hx).2 hnone).1.trans hends, ((hmore x hx).2 hnone).2⟩⟩
      | unopened =>
        refine .bind (hcalls content (.inr (.inl rfl)) rest (.refl rest) entries₂ hvalid₂)
          fun item entries₃ hitem => ?_
        cases hm' : item.matched? with
        | none =>
          obtain ⟨hgood, hsound⟩ := good_of_fits hfits (hitem.fits hends) hm'
          exact .pure ⟨hgood, hsound, hitem.valid, fun _ hm => by cases hm⟩
        | some matched =>
          obtain ⟨t, hafter, hfrom, ht, -, hshorter⟩ := advance (hitem.post.good.begins hm')
          have hlt := hshorter fun hnil => hcontent (hitem.post.empty matched hm' hnil)
          exact .lift_bind hafter (.lift_bind hfrom (hloop t _ entries₃ ht hlt
            (fits_concat hfits (hitem.fits hends)) hitem.valid))

end Combinators

end Urnest.RufParser
