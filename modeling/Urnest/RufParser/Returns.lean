import Mathlib
import Urnest.RufParser.Answers

/-!
# Parsing returns

In a well-formed program every parser answers on every end of the text (`answers`), as long
as the parsers of one character take characters of one byte only (`Narrow`): these slice one
byte off the text, whatever the character is. The induction is on what is left of the text
and then on the left calls.

From a good outcome `get_ast` gives a tree or a failure (`getAst_returns`).
-/

namespace Urnest.RufParser

open Lib

/-! ## Leaves -/

/-- Each character of the text that a parser of one character takes has one byte. -/
def Narrow (program : Program) (base : Str) : Prop :=
  ∀ p takes, (program p).takes? = some takes → ∀ c ∈ base.chars, takes c = true → c.utf8Size = 1

theorem sliceTo_append {text : Str} {front back : List Char} (h : text.chars = front ++ back) :
    text.sliceTo (byteLen front) = .ok ⟨text.ptr, front⟩ := by
  rw [Str.sliceTo, h, splitBytes_append]

theorem parseOne_returns {takes : Char → Bool} (text : Str)
    (h : ∀ c ∈ text.chars, takes c = true → c.utf8Size = 1) :
    ∃ outcome, parseOne takes text = .ok outcome ∧ Good text outcome ∧ Sound outcome ∧
      ∀ matched, outcome.matched? = some matched → matched.chars ≠ [] := by
  rw [parseOne]
  cases hchars : text.chars with
  | nil =>
    simp only [Str.sliceTo_zero]
    exact ⟨_, rfl, .leaf text.begins_nil, .leaf, fun _ hm => nomatch hm⟩
  | cons c chars =>
    cases htakes : takes c with
    | false =>
      simp only [htakes, Bool.false_eq_true, if_false, Str.sliceTo_zero]
      exact ⟨_, rfl, .leaf text.begins_nil, .leaf, fun _ hm => nomatch hm⟩
    | true =>
      have hone : byteLen [c] = 1 := by
        rw [byteLen_cons, byteLen_nil, h c (by rw [hchars]; exact List.mem_cons_self ..) htakes]
      have hslice : text.sliceTo 1 = .ok ⟨text.ptr, [c]⟩ := by
        rw [← hone]
        exact sliceTo_append hchars
      simp only [htakes, if_true, hslice]
      refine ⟨_, rfl, .leaf ⟨rfl, chars, hchars.symm⟩, .leaf, fun m hm => ?_⟩
      cases hm
      exact List.cons_ne_nil _ _

/-- As far as literal and text are the same their indices are. -/
theorem parseLiteral_returns {text : Str} (front cs : List Char) {ds : List Char} (h : text.chars = front ++ ds) :
    ∃ outcome, parseLiteral text (byteLen front) (byteLen front) cs ds = .ok outcome ∧
      Good text outcome ∧ Sound outcome ∧
      ∀ matched, outcome.matched? = some matched → matched.chars = [] → front = [] ∧ cs = [] := by
  have hslice := sliceTo_append h
  have hbegins : Str.Begins ⟨text.ptr, front⟩ text := ⟨rfl, ds, h.symm⟩
  induction cs generalizing front ds with
  | nil =>
    cases ds with
    | nil =>
      refine ⟨_, rfl, .leaf (.refl text), .leaf, fun m hm hnil => ?_⟩
      cases hm
      rw [h, List.append_nil] at hnil
      exact ⟨hnil, rfl⟩
    | cons d ds =>
      rw [parseLiteral, hslice]
      refine ⟨_, rfl, .leaf hbegins, .leaf, fun m hm hnil => ?_⟩
      cases hm
      exact ⟨hnil, rfl⟩
  | cons c cs ih =>
    cases ds with
    | nil =>
      rw [parseLiteral, hslice]
      exact ⟨_, rfl, .leaf hbegins, .leaf, fun _ hm => nomatch hm⟩
    | cons d ds =>
      rw [parseLiteral]
      by_cases hcd : c = d
      · subst hcd
        have hfront : text.chars = (front ++ [c]) ++ ds := by
          rw [h, List.append_assoc, List.singleton_append]
        have hlen : byteLen front + c.utf8Size = byteLen (front ++ [c]) := by simp
        rw [if_pos rfl, hlen]
        obtain ⟨outcome, hok, hgood, hsound, hempty⟩ :=
          ih (front ++ [c]) hfront (sliceTo_append hfront) ⟨rfl, ds, hfront.symm⟩
        refine ⟨outcome, hok, hgood, hsound, fun m hm hnil => ?_⟩
        exact absurd (hempty m hm hnil).1 (by simp)
      · rw [if_neg hcd, hslice]
        exact ⟨_, rfl, .leaf hbegins, .leaf, fun _ hm => nomatch hm⟩

theorem parseEndOfInput_returns (text : Str) :
    ∃ outcome, parseEndOfInput text = .ok outcome ∧ Good text outcome ∧ Sound outcome := by
  rw [parseEndOfInput]
  cases text.chars with
  | nil => exact ⟨_, rfl, .leaf (.refl text), .leaf⟩
  | cons c chars =>
    simp only [Str.sliceTo_zero]
    exact ⟨_, rfl, .leaf text.begins_nil, .leaf⟩

/-! ## The induction -/

variable {program : Program} {root : Ref} {target : Ref → Ref} {base : Str}

/-- A call with the slice of the cache that goes with the text -/
theorem parseSomeOf_of {n : Nat} {p : Ref} {text : Str} {backrefs : List BackReffable}
    {entries : Entries} :
    parseSomeOf program (n + 1) p text (.of text) backrefs entries =
      match entries.lookup (text.ptr, p) with
      | some v => .ok (v, entries)
      | none => (do
          let v ← parseSomeOf_ n (parseSomeOf program n) (program p) text (.of text) backrefs
          modify fun entries => ((text.ptr, p), v) :: entries
          return v : Parse Outcome) entries := by
  have hlen : ¬ (CacheSlice.of text).len ≠ text.len + 1 := not_not.mpr rfl
  rw [parseSomeOf, if_neg hlen]
  change (match entries.lookup (text.ptr, p) with | some v => _ | none => _ : Parse Outcome) entries = _
  cases entries.lookup (text.ptr, p) <;> rfl

theorem hits_parseSomeOf (backrefs : List BackReffable) : Hits (parseSomeOf program) backrefs := by
  intro q rest entries outcome h
  refine ⟨1, fun n hn => ?_⟩
  obtain ⟨k, rfl⟩ := Nat.exists_eq_add_of_le hn
  rw [Nat.add_comm, parseSomeOf_of, h]

/-- What a body gives is cached. -/
theorem answers_of_body {p : Ref} {text : Str} {backrefs : List BackReffable}
    (hbase : text.Ends base)
    (hbody : ∀ entries, Valid program target base entries →
      Reaches (fun n => parseSomeOf_ n (parseSomeOf program n) (program p) text (.of text) backrefs)
        entries (Gives program target base p text)) :
    Answers program target base (parseSomeOf program) backrefs p text := by
  intro entries hvalid
  cases hlookup : entries.lookup (text.ptr, p) with
  | some v =>
    exact ⟨v, entries, ⟨hvalid _ v hlookup text hbase rfl, hvalid, hlookup⟩,
      hits_parseSomeOf backrefs p text entries v hlookup⟩
  | none =>
    have hmiss : Reaches (fun n => do
        let v ← parseSomeOf_ n (parseSomeOf program n) (program p) text (.of text) backrefs
        modify fun entries => ((text.ptr, p), v) :: entries
        return v : Nat → Parse Outcome) entries (Got program target base p text) := by
      refine .bind (hbody entries hvalid) fun v entries₁ hv => ?_
      refine ⟨v, ((text.ptr, p), v) :: entries₁, ⟨hv.1, ?_, ?_⟩, 0, fun _ _ => rfl⟩
      · intro k outcome hk other hother hptr
        rw [List.lookup_cons] at hk
        split at hk
        · next hkey =>
          obtain rfl := eq_of_beq hkey
          cases hk
          rw [hother.eq hbase hptr]
          exact hv.1
        · exact hv.2 k outcome hk other hother hptr
      · rw [List.lookup_cons, beq_self_eq_true]
    refine .of_succ (.of_eventually 0 (fun n _ => ?_) hmiss)
    rw [parseSomeOf_of, hlookup]

theorem reaches_one {takes : Char → Bool} {p : Ref} {text : Str} {entries : Entries}
    (hbase : text.Ends base) (hnarrow : ∀ c ∈ base.chars, takes c = true → c.utf8Size = 1)
    (hvalid : Valid program target base entries) :
    Reaches (fun _ => (liftM (parseOne takes text) : Parse Outcome)) entries
      (Gives program target base p text) := by
  obtain ⟨front, hchars, -⟩ := hbase
  obtain ⟨outcome, hok, hgood, hsound, hne⟩ := parseOne_returns text fun c hc =>
    hnarrow c (by rw [hchars]; exact List.mem_append_right _ hc)
  exact .lift hok ⟨⟨hgood, hsound, fun m hm hnil => absurd hnil (hne m hm)⟩, hvalid⟩

/-- The induction: what is called is behind, or is a left call. -/
theorem answers (hwf : WellFormed program root target) (hnarrow : Narrow program base) {text : Str}
    (hbase : text.Ends base) {p : Ref} {backrefs : List BackReffable}
    (hmeets : Meets program root p backrefs) :
    Answers program target base (parseSomeOf program) backrefs p text := by
  -- A parser calls others on what is left of the text, or on the same text: there the left calls,
  -- which are well-founded, go on.
  induction hlength : text.chars.length using Nat.strong_induction_on
    generalizing text p backrefs with
  | _ length ihText =>
    induction p using hwf.leftCalls.induction generalizing backrefs with
    | _ p ihLeft =>
      have hready : Ready program target base (parseSomeOf program) backrefs p text := by
        intro q rest hq hends hlower
        rcases hlower with hlt | ⟨rfl, hleft⟩
        · exact ihText _ (hlength ▸ hlt) (hends.trans hbase) (.call hmeets hq) rfl
        · exact ihLeft q hleft (.call hmeets hq)
      have hconsumes := hwf.consumes p
      have hone := hnarrow p
      refine answers_of_body hbase fun entries hvalid => ?_
      cases hp : program p with
      | and first others =>
        exact reaches_and [] hp hready rfl (.refl text) (fun _ _ hq => by cases hq)
          (fun _ hx => by cases hx) hvalid
      | or first others =>
        exact reaches_or hp hready (fun _ hq => hq) (fun h => by cases h) (fun _ hx => by cases hx)
          hvalid
      | none =>
        exact .lift_bind text.sliceTo_zero
          (.pure ⟨⟨.leaf text.begins_nil, .leaf, fun _ _ _ => .none hp⟩, hvalid⟩)
      | literal x =>
        obtain ⟨outcome, hok, hgood, hsound, hempty⟩ :=
          parseLiteral_returns [] x (List.nil_append text.chars).symm
        refine .lift hok ⟨⟨hgood, hsound, fun m hm hnil => .literal ?_⟩, hvalid⟩
        rw [hp, (hempty m hm hnil).2]
      | endOfInput =>
        obtain ⟨outcome, hok, hgood, hsound⟩ := parseEndOfInput_returns text
        exact .lift hok ⟨⟨hgood, hsound, fun _ _ _ => .endOfInput hp⟩, hvalid⟩
      | tagged tag content => exact reaches_tagged hp hready hvalid
      | anyChar => exact reaches_one hbase (hone _ (by rw [hp]; rfl)) hvalid
      | digit => exact reaches_one hbase (hone _ (by rw [hp]; rfl)) hvalid
      | char x => exact reaches_one hbase (hone _ (by rw [hp]; rfl)) hvalid
      | oneOfChars chars => exact reaches_one hbase (hone _ (by rw [hp]; rfl)) hvalid
      | anyCharExcept chars => exact reaches_one hbase (hone _ (by rw [hp]; rfl)) hvalid
      | atLeastOne x =>
        rw [hp] at hconsumes
        exact reaches_atLeastOne hp (hconsumes x (List.mem_cons_self ..)) hready hvalid
      | zeroOrMore x =>
        rw [hp] at hconsumes
        exact reaches_zeroOrMore hp (hconsumes x (List.mem_cons_self ..)) hready hvalid
      | xUntilY x y =>
        rw [hp] at hconsumes
        exact reaches_xUntilY hp (hconsumes x (List.mem_cons_self ..)) hready grows_id
          (.refl text) (fun _ hz => by cases hz) hvalid
      | balancedUntilY pairs content y =>
        rw [hp] at hconsumes
        -- The closing parsers are called behind an opening one only, so they are no left calls.
        have hcalls : ∀ q, q = y ∨ q = content ∨ q ∈ pairs.map Prod.fst → ∀ r : Str, r.Ends text →
            Answers program target base (parseSomeOf program) backrefs q r := by
          intro q hq r hr
          refine hready q r ?_ hr ?_
          · rw [hp]
            rcases hq with rfl | rfl | hq
            · exact .tail _ (List.mem_cons_self ..)
            · exact List.mem_cons_self ..
            · exact .tail _ (.tail _ (List.mem_append_left _ hq))
          · refine hr.eq_or_shorter.symm.imp_right fun h => ⟨h, .balancedUntilY hp ?_⟩
            rcases hq with hq | hq | hq
            · exact .inr (.inl hq)
            · exact .inl hq
            · exact .inr (.inr hq)
        refine .bind (reaches_toY (hits_parseSomeOf backrefs) (hconsumes content
          (List.mem_cons_self ..)) (fun x hx => hconsumes x.1 (.tail _ (List.mem_map_of_mem hx)))
          grows_id hbase (.refl text) hcalls (fun x hx r hr hlt => ?_) (fun _ hz => by cases hz)
          hvalid) fun result entries₁ hresult => .pure ⟨⟨hresult.good, hresult.sound,
            fun _ _ _ => .balancedUntilY hp⟩, hresult.valid⟩
        refine hready x.2 r ?_ hr (.inl hlt)
        rw [hp]
        exact .tail _ (.tail _ (List.mem_append_right _ (List.mem_map_of_mem hx)))
      | backRefs inside q =>
        refine (ihLeft q (.backRefs hp) (.backRefs hmeets hp) entries hvalid).mono
          fun outcome entries₁ hgot => ⟨⟨hgot.post.good, hgot.post.sound, fun m hm hnil =>
            .backRefs hp (hgot.post.empty m hm hnil)⟩, hgot.valid⟩
      | backRef id =>
        obtain ⟨x, hx, htarget⟩ := hwf.named p backrefs id hmeets hp
        have hmeets' := Meets.backRef hmeets hp hx
        rw [htarget] at hmeets'
        simp only [parseSomeOf_, parseBackRef, hx, htarget]
        refine (ihLeft (target p) (.backRef hp) hmeets' entries hvalid).mono
          fun outcome entries₁ hgot => ⟨⟨hgot.post.good, hgot.post.sound, fun m hm hnil =>
            .backRef hp (hgot.post.empty m hm hnil)⟩, hgot.valid⟩
      | switch first others =>
        exact reaches_switch hp hready (fun _ hq => hq) (fun h => by cases h)
          (fun _ hx => by cases hx) hvalid
      | lookingAt x => exact reaches_lookingAt hp hready hvalid
      | not x => exact reaches_not hp hready hvalid

/-! ## The AST -/

theorem upTo_returns {r text : Str} (h : r.Ends text) : ∃ front, text.upTo r = .ok front := by
  obtain ⟨front, hupTo, -⟩ := Str.upTo_of_ends h
  exact ⟨front, hupTo⟩

/-- The furthest failure is one of the failures, which are all in the text. -/
theorem furthest_fold {text : Str} {fs : List (Option ParseFailed)} {result : ParseFailed}
    (hresult : result.at_.Ends text) (hfs : ∀ f : ParseFailed, some f ∈ fs → f.at_.Ends text) :
    ∃ f, fs.foldlM (fun (result : ParseFailed) f =>
      match f with
      | none => return result
      | some f => do
        let before ← text.upTo f.at_
        let best ← text.upTo result.at_
        return if before.len > best.len then f else result) result = (.ok f : Result ParseFailed) ∧
      f.at_.Ends text := by
  induction fs generalizing result with
  | nil => exact ⟨result, rfl, hresult⟩
  | cons f fs ih =>
    rw [List.foldlM_cons]
    cases f with
    | none => exact ih hresult fun f hf => hfs f (.tail _ hf)
    | some f =>
      have hf := hfs f (List.mem_cons_self ..)
      obtain ⟨before, hbefore⟩ := upTo_returns hf
      obtain ⟨best, hbest⟩ := upTo_returns hresult
      simp only [hbefore, hbest]
      refine @ih (if before.len > best.len then f else result) ?_ fun f hf => hfs f (.tail _ hf)
      split_ifs
      · exact hf
      · exact hresult

theorem furthest_returns {text : Str} {failures : List (Option ParseFailed)} (last : ParseFailed)
    (hlast : failures.getLast? = some (some last))
    (hends : ∀ f : ParseFailed, some f ∈ failures → f.at_.Ends text) :
    ∃ f, furthest text failures = .ok f ∧ f.at_.Ends text := by
  rw [furthest, hlast]
  refine furthest_fold (hends last ?_) fun f hf => hends f ?_
  · exact List.mem_of_getLast? hlast
  · exact (List.dropLast_sublist _).subset hf

/-- A component fails just where its outcome did, and then in its text. -/
structure Fails (text : Str) (outcome : Outcome) (f : Option ParseFailed) : Prop where
  isNone : f = none ↔ outcome.matched? ≠ none
  ends : ∀ failed, f = some failed → failed.at_.Ends text

theorem failureOf_of_matched {goal : Goal} {outcome : Outcome} (h : outcome.matched? ≠ none) :
    failureOf program goal outcome = .ok none := by
  match outcome, h with
  | .composite (some _) _, _ => rw [failureOf]; rfl
  | .composite none _, h => exact absurd rfl h
  | .leaf _ none, _ => rw [failureOf]; rfl
  | .leaf _ (some _), h => exact absurd rfl h

theorem failuresOf_map {components : Components} {F : Goal × Outcome → Option ParseFailed}
    (h : ∀ x ∈ components, failureOf program x.1 x.2 = .ok (F x)) :
    failuresOf program components = .ok (components.map F) := by
  induction components with
  | nil => rw [failuresOf]; rfl
  | cons x components ih =>
    obtain ⟨goal, outcome⟩ := x
    rw [failuresOf, h _ (List.mem_cons_self ..), ih fun x hx => h x (.tail _ hx)]
    rfl

theorem failureOf_returns {text : Str} {outcome : Outcome} (h : Good text outcome) :
    ∀ goal : Goal, goal.text = text →
      ∃ f, failureOf program goal outcome = .ok f ∧ Fails text outcome f := by
  induction h with
  | @leaf text matched unexpected hbegins =>
    rintro goal rfl
    cases unexpected with
    | none =>
      refine ⟨none, failureOf_of_matched (fun h => by cases h), ⟨iff_of_true rfl (fun h => by cases h),
        fun _ h => by cases h⟩⟩
    | some why =>
      obtain ⟨rest, hafter, hends, -⟩ := Str.after_of_begins hbegins
      rw [failureOf, hafter]
      refine ⟨_, rfl, ⟨iff_of_false (fun h => by cases h) fun h => h rfl, fun f hf => ?_⟩⟩
      cases hf
      exact hends
  | matched hbegins =>
    rintro goal rfl
    exact ⟨none, failureOf_of_matched (fun h => by cases h), ⟨iff_of_true rfl (fun h => by cases h),
      fun _ h => by cases h⟩⟩
  | @failed text components last hlast hfailed hends hgood ih =>
    rintro goal rfl
    have hone : ∀ x ∈ components, ∃ f, failureOf program x.1 x.2 = .ok f ∧ Fails goal.text x.2 f := by
      intro x hx
      by_cases hnone : x.2.matched? = none
      · obtain ⟨f, hok, hf⟩ := ih x hx hnone x.1 rfl
        exact ⟨f, hok, hf.isNone, fun r hr => (hf.ends r hr).trans (hends x hx hnone)⟩
      · exact ⟨none, failureOf_of_matched hnone, iff_of_true rfl hnone, fun _ h => by cases h⟩
    -- `furthest` is asked of all failures at once.
    choose! F hok hF using hone
    have hmem : last ∈ components := List.mem_of_getLast? hlast
    obtain ⟨r, hr⟩ : ∃ r, F last = some r := by
      refine Option.ne_none_iff_exists'.mp fun hnone => ?_
      exact (hF last hmem).isNone.mp hnone hfailed
    obtain ⟨best, hbest, hbestEnds⟩ : ∃ f, furthest goal.text (components.map F) = .ok f ∧
        f.at_.Ends goal.text := by
      refine furthest_returns r ?_ fun f hf => ?_
      · rw [List.getLast?_map, hlast, Option.map_some, hr]
      · obtain ⟨x, hx, hxf⟩ := List.mem_map.mp hf
        exact (hF x hx).ends f hxf
    rw [failureOf, failuresOf_map hok]
    change ∃ f, (furthest goal.text (components.map F) >>= fun r => _) = .ok f ∧ _
    rw [hbest]
    refine ⟨_, rfl, ⟨iff_of_false (fun h => by cases h) fun h => h rfl, fun f hf => ?_⟩⟩
    cases hf
    exact hbestEnds

theorem getAst_returns {tag : String} {goal : Goal} {outcome : Outcome}
    (h : Good goal.text outcome) : ∃ r, getAst program tag goal outcome = .ok r := by
  obtain ⟨f, hok, hf⟩ : ∃ f, failureOf program goal outcome = .ok f ∧ Fails goal.text outcome f :=
    failureOf_returns h goal rfl
  cases h with
  | matched => exact ⟨_, rfl⟩
  | @leaf _ matched unexpected hbegins =>
    cases unexpected with
    | none => exact ⟨_, rfl⟩
    | some why =>
      obtain ⟨rest, hafter, -⟩ := Str.after_of_begins hbegins
      rw [getAst, hafter]
      exact ⟨_, rfl⟩
  | failed =>
    cases f with
    | none => exact absurd rfl (hf.isNone.mp rfl)
    | some r =>
      obtain ⟨best, hbest, -⟩ := furthest_returns r List.getLast?_singleton
        fun f hf' => hf.ends f (List.mem_singleton.mp hf').symm
      rw [getAst, findBestFailure, failuresOf, hok, failuresOf]
      change ∃ x, (furthest goal.text [some r] >>= fun f => _) = .ok x
      rw [hbest]
      exact ⟨_, rfl⟩

/-! ## Parsing -/

/-- `parse`, and then `get_ast` with any tag, return; and every failed composite of the outcome
ends with a failure. -/
def Returns (program : Program) (root : Ref) (chars : List Char) : Prop :=
  ∃ outcome N, (∀ n ≥ N, parse program n root chars = .ok outcome) ∧ Sound outcome ∧
    ∀ tag, ∃ result, getAst program tag ⟨root, ⟨0, chars⟩⟩ outcome = .ok result

/-- Where the parsers of one character meet none of more than one byte, parsing returns. -/
theorem returns_of_narrow {chars : List Char} (hwf : WellFormed program root target)
    (hnarrow : Narrow program ⟨0, chars⟩) : Returns program root chars := by
  have hvalid : Valid program target ⟨0, chars⟩ [] := fun _ _ h => nomatch h
  obtain ⟨outcome, entries, hgot, N, hN⟩ :=
    answers hwf hnarrow (.refl ⟨0, chars⟩) .root [] hvalid
  refine ⟨outcome, N, fun n hn => ?_, hgot.post.sound, fun tag => getAst_returns hgot.post.good⟩
  have hrun : parseSomeOf program n root ⟨0, chars⟩ (.of ⟨0, chars⟩) [] [] = .ok (outcome, entries) :=
    hN n hn
  rw [parse]
  change (parseSomeOf program n root ⟨0, chars⟩ (.of ⟨0, chars⟩) [] [] >>= fun x => _) = _
  rw [hrun]
  rfl

/-- `literal(x) + any_char()` -/
def literalThenChar (x : List Char) : Program
  | 0 => .and 1 [2]
  | 1 => .literal x
  | 2 => .anyChar
  | _ + 3 => .none

theorem wellFormed_literalThenChar (x : List Char) : WellFormed (literalThenChar x) 0 id := by
  have hnot : ∀ p id, literalThenChar x p ≠ .backRef id := fun p id => by
    rcases p with _ | _ | _ | p <;> exact nofun
  refine ⟨fun p backrefs id _ hp => absurd hp (hnot p id), fun p q hq => ?_, ?_⟩
  · rcases p with _ | _ | _ | p <;> exact nomatch hq
  · -- only the first parser calls others
    have hcalls : ∀ q p, LeftCalls (literalThenChar x) id q p → 1 - q < 1 - p := by
      intro q p h
      rcases h.mem_calls with hq | ⟨inside, hp⟩ | ⟨id, hp⟩
      · rcases p with _ | _ | _ | p
        · rcases List.mem_cons.mp hq with rfl | hq
          · decide
          · rw [List.mem_singleton.mp hq]
            decide
        · exact nomatch hq
        · exact nomatch hq
        · exact nomatch hq
      · rcases p with _ | _ | _ | p <;> exact nomatch hp
      · exact absurd hp (hnot p id)
    exact Subrelation.wf (fun {q p} h => hcalls q p h) (measure fun p : Ref => 1 - p).wf

theorem parseLiteral_self {text : Str} (front : List Char) {cs ds : List Char} {d : Char}
    (h : text.chars = front ++ (cs ++ d :: ds)) :
    parseLiteral text (byteLen front) (byteLen front) cs (cs ++ d :: ds) =
      .ok (.leaf ⟨text.ptr, front ++ cs⟩ none) := by
  induction cs generalizing front with
  | nil =>
    rw [List.nil_append, parseLiteral, sliceTo_append h, List.append_nil]
    rfl
  | cons c cs ih =>
    have hlen : byteLen front + c.utf8Size = byteLen (front ++ [c]) := by simp
    rw [List.cons_append, parseLiteral, if_pos rfl, hlen, ih (front ++ [c]) (by rw [h]; simp),
      List.append_assoc,
      List.singleton_append]

/-- One byte is not a character that has more. -/
theorem parseOne_panics {takes : Char → Bool} {text : Str} {c : Char} {chars : List Char}
    (htext : text.chars = c :: chars) (htakes : takes c = true) (hsize : c.utf8Size ≠ 1) :
    parseOne takes text = .error (.panic .index) := by
  have hpos := c.utf8Size_pos
  have hslice : text.sliceTo 1 = .error (.panic .index) := by
    rw [Str.sliceTo, htext, splitBytes, if_neg (by omega)]
  rw [parseOne, htext]
  simp only [htakes, if_true, hslice]
  rfl

/-- The second parser stops inside of the character. -/
theorem not_returns_literalThenChar (x : List Char) {chars : List Char} {c : Char} (hsize : c.utf8Size ≠ 1) :
    ¬ Returns (literalThenChar x) 0 (x ++ c :: chars) := by
  rintro ⟨outcome, N, hN, -⟩
  obtain ⟨⟨y, s⟩, hy, -⟩ := Lib.bind_eq_ok.mp (hN (N + 2) (by omega))
  have hliteral : parseLiteral ⟨0, x ++ c :: chars⟩ 0 0 x (x ++ c :: chars) =
      .ok (.leaf ⟨0, x⟩ none) :=
    parseLiteral_self [] rfl
  have hbegins : Str.Begins ⟨0, x⟩ ⟨0, x ++ c :: chars⟩ := ⟨rfl, c :: chars, rfl⟩
  obtain ⟨rest, hafter, hfrom, -⟩ := advance hbegins
  obtain ⟨rest', hafter', -, -, hrest⟩ := Str.after_of_begins hbegins
  cases hafter'.symm.trans hafter
  have hstuck : parseOne (fun _ => true) rest = .error (.panic .index) :=
    parseOne_panics (List.append_cancel_left hrest).symm rfl hsize
  change parseSomeOf (literalThenChar x) (N + 1 + 1) 0 ⟨0, x ++ c :: chars⟩
    (.of ⟨0, x ++ c :: chars⟩) [] [] = _ at hy
  rw [parseSomeOf_of] at hy
  obtain ⟨v, s₁, hand, -⟩ := Lib.run_bind_eq_ok.mp hy
  obtain ⟨r, s₂, hr, hand⟩ := Lib.run_bind_eq_ok.mp hand
  -- the literal matches itself
  rw [parseSomeOf_of] at hr
  obtain ⟨r', s₃, hr', hr⟩ := Lib.run_bind_eq_ok.mp hr
  change (liftM (parseLiteral _ 0 0 x (x ++ c :: chars)) : Parse Outcome) [] = _ at hr'
  rw [hliteral] at hr'
  cases hr'
  cases hr
  obtain ⟨t, s₄, ht, hand⟩ := Lib.run_bind_eq_ok.mp hand
  rw [hafter] at ht
  cases ht
  obtain ⟨cache, s₅, hcache, hand⟩ := Lib.run_bind_eq_ok.mp hand
  rw [hfrom] at hcache
  cases hcache
  -- and the other parser is called behind it
  obtain ⟨r, s₆, hr, -⟩ := Lib.run_bind_eq_ok.mp hand
  have hlookup : List.lookup (rest.ptr, 2) [((0, 1), Outcome.leaf ⟨0, x⟩ none)] = none := by
    have hkey : ((rest.ptr, 2) == ((0, 1) : Nat × Ref)) = false :=
      beq_eq_false_iff_ne.mpr fun h => absurd (Prod.mk.inj h).2 (by decide)
    rw [List.lookup_cons, hkey]
    rfl
  rw [parseSomeOf_of] at hr
  simp only [hlookup] at hr
  obtain ⟨r', s₇, hr', -⟩ := Lib.run_bind_eq_ok.mp hr
  change (liftM (parseOne (fun _ => true) rest) : Parse Outcome) _ = _ at hr'
  rw [hstuck] at hr'
  cases hr'

end Urnest.RufParser
