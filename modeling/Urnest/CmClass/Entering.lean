import Mathlib
import Urnest.CmClass.Closing

/-!
# Entering

Entering an object enters its resources in the order of `plan`. When a step fails, those before it
are exited in reverse, and nothing is left entered (`enter_spec`).
-/

set_option linter.unusedSectionVars false

namespace Urnest.CmClass

open Function (update)
open Lib

mutual

/-- Where a class enters, in order: its bases, its attributes, and its own method -/
def plan : Class → List Site
  | .mk _ key bases attrs _ _ => plans bases ++ attrs.map (Site.attr key) ++ [.own key]

def plans : List Class → List Site
  | [] => []
  | b :: rest => plan b ++ plans rest

end

theorem plans_append (xs ys : List Class) : plans (xs ++ ys) = plans xs ++ plans ys := by
  induction xs with
  | nil => rw [plans, List.nil_append, List.nil_append]
  | cons x xs ih => rw [List.cons_append, plans, plans, ih, List.append_assoc]

/-- Steps have been entered, at these sites. -/
structure Opened (top : Class) (ks : List String) (sites : List Site) (steps : List Step)
    (s s' : State) : Prop where
  sites : steps.map Step.site = sites
  log : s'.log = s.log ++ steps.map .entered
  opens : s'.opens = steps.reverse ++ s.opens
  frame : Frame ks s.resources s'.resources
  tracks : Tracks top s'

/-- Some steps have been entered, the next has failed, and they have been exited in reverse. -/
structure Failed (top : Class) (ks : List String) (sites : List Site) (s s' : State) : Prop where
  log : ∃ (done : List Step) (x : Step), done.map Step.site ++ [x.site] <+: sites ∧
    s'.log = s.log ++ (done.map .entered ++ .failed x :: done.reverse.map .exited)
  opens : s'.opens = s.opens
  out : Out ks s'.resources
  frame : Frame ks s.resources s'.resources
  tracks : Tracks top s'

variable {F : Foreign} {top : Class}

theorem opened_nil {s : State} (h : Tracks top s) : Opened top [] [] [] s s :=
  ⟨rfl, (List.append_nil _).symm, rfl, fun _ _ => rfl, h⟩

theorem Opened.append {ks ks' : List String} {sites sites' : List Site} {xs ys : List Step}
    {s s₁ s₂ : State} (hxs : Opened top ks sites xs s s₁) (hys : Opened top ks' sites' ys s₁ s₂) :
    Opened top (ks ++ ks') (sites ++ sites') (xs ++ ys) s s₂ := by
  refine ⟨?_, ?_, ?_, ?_, hys.tracks⟩
  · rw [List.map_append, hxs.sites, hys.sites]
  · rw [hys.log, hxs.log, List.map_append, List.append_assoc]
  · rw [hys.opens, hxs.opens, List.reverse_append, List.append_assoc]
  · intro k hk
    rw [List.mem_append, not_or] at hk
    rw [hys.frame k hk.2, hxs.frame k hk.1]

/-- What had been entered before a failure is exited after it. -/
theorem Failed.under {ks ks' : List String} {sites sites' : List Site} {steps : List Step}
    {s s₁ s₂ s₃ : State} (hopened : Opened top ks sites steps s s₁)
    (hfailed : Failed top ks' sites' s₁ s₂) (hclosed : Closed top ks steps s.opens s₂ s₃)
    (hdisjoint : ∀ k ∈ ks', k ∉ ks) : Failed top (ks ++ ks') (sites ++ sites') s s₃ := by
  obtain ⟨done, x, hsites, hlog⟩ := hfailed.log
  refine ⟨⟨steps ++ done, x, ?_, ?_⟩, hclosed.opens, ?_, ?_, hclosed.tracks⟩
  · rw [List.map_append, hopened.sites, List.append_assoc]
    exact (List.prefix_append_right_inj sites).mpr hsites
  · rw [hclosed.log, hlog, hopened.log]
    simp
  · intro k hk
    rcases List.mem_append.mp hk with hk | hk
    · exact hclosed.out k hk
    · rw [hclosed.frame k (hdisjoint k hk)]
      exact hfailed.out k hk
  · intro k hk
    rw [List.mem_append, not_or] at hk
    rw [hclosed.frame k hk.1, hfailed.frame k hk.2, hopened.frame k hk.1]

/-- The same for more classes that held nothing, and more sites that were not reached. -/
theorem Failed.mono {ks ks' : List String} {sites sites' : List Site} {s s' : State}
    (h : Failed top ks sites s s') (hks : ∀ k ∈ ks, k ∈ ks') (hsites : sites <+: sites')
    (hout : Out ks' s.resources) : Failed top ks' sites' s s' := by
  obtain ⟨done, x, hdone, hlog⟩ := h.log
  refine ⟨⟨done, x, hdone.trans hsites, hlog⟩, h.opens, ?_, ?_, h.tracks⟩
  · intro k hk
    by_cases hmem : k ∈ ks
    · exact h.out k hmem
    · rw [h.frame k hmem]
      exact hout k hk
  · intro k hk
    exact h.frame k fun hmem => hk (hks k hmem)

/-! ## A step -/

theorem enterStep_spec {x : Step} {call : Act Value} (hcall : Harmless top call) {s s' : State}
    (hx : ∀ key name m, x = .attr key name m → s.attrs name = m) (h : Tracks top s)
    {r : Except Exc Value} (hrun : enterStep x call s = (r, s')) :
    s'.replaced = true ∨
      (match r with
        | .ok _ => Opened top [] [x.site] [x] s s'
        | .error _ => Failed top [] [x.site] s s') := by
  obtain ⟨hresources, hlog, hopens, htracks⟩ := hcall { s with opens := x :: s.opens }
  have htracks₀ : Tracks top { s with opens := x :: s.opens } := by
    intro hasync key name m hmem
    rcases List.mem_cons.mp hmem with hmem | hmem
    · exact hx key name m hmem.symm
    · exact h hasync key name m hmem
  replace htracks := htracks (.inr htracks₀)
  rw [enterStep] at hrun
  rcases hcall' : call { s with opens := x :: s.opens } with ⟨e | v, s₁⟩ <;>
    rw [hcall'] at hrun hresources hlog hopens htracks <;> cases hrun <;>
    dsimp only at hresources hlog hopens htracks
  · refine htracks.imp_right fun htracks => ⟨⟨[], x, List.prefix_refl _, ?_⟩, ?_,
      (fun _ h => by cases h), ?_, ?_⟩
    · dsimp only
      rw [hlog]
      rfl
    · dsimp only
      rw [hopens, List.erase_cons_head]
    · intro k _
      dsimp only
      rw [hresources]
    · intro hasync key name m hmem
      exact htracks hasync key name m (List.mem_of_mem_erase hmem)
  · refine htracks.imp_right fun htracks => ⟨rfl, ?_, hopens, ?_, htracks⟩
    · dsimp only
      rw [hlog]
      rfl
    · intro k _
      dsimp only
      rw [hresources]

/-! ## One after the other -/

theorem enterAll_append (xs ys : List (Act Callback)) (stack : List Callback) (s : State) :
    enterAll (xs ++ ys) stack s =
      match enterAll xs stack s with
      | (some e, stack, s) => (some e, stack, s)
      | (none, stack, s) => enterAll ys stack s := by
  induction xs generalizing stack s with
  | nil => rfl
  | cons x xs ih =>
    rw [List.cons_append, enterAll, enterAll]
    rcases x s with ⟨e | c, s'⟩
    · rfl
    · exact ih _ _

/-- All attributes have been entered, or one has failed after some have. -/
theorem enterAll_attrs {key : String} {attrs : List String} {stack stack' : List Callback}
    {s s' : State} {failure : Option Exc} (h : Tracks top s)
    (hrun : enterAll (attrs.map (enterAttr F top top.mode key)) stack s = (failure, stack', s')) :
    s'.replaced = true ∨
      (failure = none ∧ ∃ ms, ms.length = attrs.length ∧
        stack' = (attrCallbacks top.mode attrs ms).reverse ++ stack ∧
        Opened top [] (attrs.map (Site.attr key)) (attrSteps key attrs ms) s s') ∨
      ∃ e as name rest ms s₁, failure = some e ∧ attrs = as ++ name :: rest ∧
        ms.length = as.length ∧ stack' = (attrCallbacks top.mode as ms).reverse ++ stack ∧
        Opened top [] (as.map (Site.attr key)) (attrSteps key as ms) s s₁ ∧
        Failed top [] [.attr key name] s₁ s' := by
  induction attrs generalizing stack s with
  | nil =>
    cases hrun
    exact .inr (.inl ⟨rfl, [], rfl, rfl, opened_nil h⟩)
  | cons name attrs ih =>
    have hkeeps : ∀ x ∈ attrs.map (enterAttr F top top.mode key), KeepsReplaced (· = true) x := by
      intro x hx
      obtain ⟨n, -, rfl⟩ := List.mem_map.mp hx
      exact keeps_enterAttr assignKeeps_true _ _ n
    rw [List.map_cons, enterAll] at hrun
    rcases hstep : enterStep (.attr key name (s.attrs name))
      (callOut F top (.attr key name) .enter none) s with ⟨e | v, s₁⟩
    · have hspec := enterStep_spec (harmless_callOut _ _ _)
        (fun _ _ _ heq => by cases heq; rfl) h hstep
      have hattr : enterAttr F top top.mode key name s = (.error e, s₁) :=
        Action.bind_error hstep
      rw [hattr] at hrun
      cases hrun
      refine hspec.imp_right fun hfailed => .inr ?_
      exact ⟨e, [], name, attrs, [], s, rfl, rfl, rfl, rfl, opened_nil h, hfailed⟩
    · have hspec := enterStep_spec (harmless_callOut _ _ _)
        (fun _ _ _ heq => by cases heq; rfl) h hstep
      have hattr : enterAttr F top top.mode key name s
          = (.ok (keep top.mode name (s.attrs name)), s₁) :=
        Action.bind_ok hstep
      rw [hattr] at hrun
      dsimp only at hrun
      rcases hspec with hreplaced | hopened
      · have := keeps_enterAll hkeeps (keep top.mode name (s.attrs name) :: stack) hreplaced
        rw [hrun] at this
        exact .inl this
      dsimp only at hopened
      rcases ih hopened.tracks hrun with hreplaced | ⟨hnone, ms, hlen, hstack, hopened'⟩ |
          ⟨e, as, name', rest, ms, s₂, hsome, hattrs, hlen, hstack, hopened', hfailed⟩
      · exact .inl hreplaced
      · refine .inr (.inl ⟨hnone, s.attrs name :: ms, by simpa using hlen, ?_,
          hopened.append hopened'⟩)
        rw [hstack]
        simp [attrCallbacks]
      · refine .inr (.inr ⟨e, name :: as, name', rest, s.attrs name :: ms, s₂, hsome, ?_,
          by simpa using hlen, ?_, hopened.append hopened', hfailed⟩)
        · rw [hattrs, List.cons_append]
        · rw [hstack]
          simp [attrCallbacks]

/-- What entering a class does to an object that has not been entered -/
def Enters (F : Foreign) (top : Class) (C : Class) : Prop :=
  ∀ s r s', Out (keys C) s.resources → Tracks top s → enter F top C s = (r, s') →
    s'.replaced = true ∨
      (match r with
        | .ok _ => ∃ steps, Opened top (keys C) (plan C) steps s s' ∧ Entered s'.resources C steps
        | .error _ => Failed top (keys C) (plan C) s s')

/-- All bases have been entered, or one has failed after some have. -/
theorem enterAll_bases {bases : List Class} (henters : ∀ b ∈ bases, Enters F top b)
    (hnodup : (keysOf bases).Nodup) {k : Nat} {stack stack' : List Callback} {s s' : State}
    {failure : Option Exc} (hout : Out (keysOf bases) s.resources) (h : Tracks top s)
    (hrun : enterAll (enterBases k (bases.map (enter F top))) stack s = (failure, stack', s')) :
    s'.replaced = true ∨
      (failure = none ∧ ∃ below, stack' = (baseCallbacks k bases).reverse ++ stack ∧
        Opened top (keysOf bases) (plans bases) below s s' ∧
        EnteredAll s'.resources bases below) ∨
      ∃ e bs b rest below s₁, failure = some e ∧ bases = bs ++ b :: rest ∧
        stack' = (baseCallbacks k bs).reverse ++ stack ∧
        Opened top (keysOf bs) (plans bs) below s s₁ ∧ EnteredAll s₁.resources bs below ∧
        Failed top (keys b) (plan b) s₁ s' := by
  induction bases generalizing k stack s with
  | nil =>
    cases hrun
    refine .inr (.inl ⟨rfl, [], rfl, ?_, ?_⟩)
    · rw [keysOf_nil, plans]
      exact opened_nil h
    · rw [EnteredAll]
  | cons b bases ih =>
    rw [keysOf_cons] at hnodup hout
    obtain ⟨-, hnodup', hdisjoint⟩ := List.nodup_append.mp hnodup
    have hkeeps : ∀ x ∈ enterBases (k + 1) (bases.map (enter F top)),
        KeepsReplaced (· = true) x := by
      refine keeps_enterBases (fun x hx => ?_) _
      obtain ⟨c, -, rfl⟩ := List.mem_map.mp hx
      exact keeps_enter assignKeeps_true c
    rw [List.map_cons, enterBases, enterAll] at hrun
    rcases hb : enter F top b s with ⟨e | v, s₁⟩
    · have hspec := henters b (.head _) s _ s₁ (fun k hk => hout k (List.mem_append_left _ hk)) h hb
      rw [Action.bind_error hb] at hrun
      cases hrun
      refine hspec.imp_right fun hfailed => .inr ?_
      refine ⟨e, [], b, bases, [], s, rfl, rfl, rfl, ?_, ?_, hfailed⟩
      · rw [keysOf_nil, plans]
        exact opened_nil h
      · rw [EnteredAll]
    · have hspec := henters b (.head _) s _ s₁ (fun k hk => hout k (List.mem_append_left _ hk)) h hb
      rw [Action.bind_ok hb] at hrun
      dsimp only [Action.pure_apply] at hrun
      rcases hspec with hreplaced | ⟨xs, hopened, hentered⟩
      · have := keeps_enterAll hkeeps (.base k :: stack) hreplaced
        rw [show enterAll (enterBases (k + 1) (bases.map (enter F top))) (.base k :: stack) s₁ = _
          from hrun] at this
        exact .inl this
      have hout₁ : Out (keysOf bases) s₁.resources := by
        intro k hk
        rw [hopened.frame k fun hk' => hdisjoint k hk' k hk rfl]
        exact hout k (List.mem_append_right _ hk)
      -- the base stays entered while others are
      have hstays : ∀ {ks : List String} {r : String → Slot}, (∀ k ∈ ks, k ∈ keysOf bases) →
          Frame ks s₁.resources r → Entered r b xs := by
        intro ks r hks hframe
        refine hentered.congr fun k hk => hframe k fun hmem => ?_
        exact hdisjoint k hk k (hks k hmem) rfl
      rcases ih (fun c hc => henters c (.tail _ hc)) hnodup' hout₁ hopened.tracks hrun with
        hreplaced | ⟨hnone, ys, hstack, hopened', hall⟩ |
          ⟨e, bs, c, rest, ys, s₂, hsome, rfl, hstack, hopened', hall, hfailed⟩
      · exact .inl hreplaced
      · refine .inr (.inl ⟨hnone, xs ++ ys, ?_, ?_, ?_⟩)
        · rw [hstack, baseCallbacks, List.reverse_cons, List.append_assoc, List.singleton_append]
        · rw [keysOf_cons, plans]
          exact hopened.append hopened'
        · rw [EnteredAll]
          exact ⟨xs, ys, hstays (fun _ hk => hk) hopened'.frame, hall, rfl⟩
      · refine .inr (.inr ⟨e, b :: bs, c, rest, xs ++ ys, s₂, hsome, rfl, ?_, ?_, ?_, hfailed⟩)
        · rw [hstack, baseCallbacks, List.reverse_cons, List.append_assoc, List.singleton_append]
        · rw [keysOf_cons, plans]
          exact hopened.append hopened'
        · rw [EnteredAll]
          refine ⟨xs, ys, hstays (fun k hk => ?_) hopened'.frame, hall, rfl⟩
          rw [keysOf, classesOf_append, List.map_append]
          exact List.mem_append_left _ hk

/-! ## A class -/

theorem giveUp_error (call : Callback → Option Exc → Act Value) (stack : List Callback) (e : Exc)
    (s : State) : ∃ e', giveUp call stack e s
      = (.error e', (closeStack call stack ⟨some e, none, false⟩ s).2) := by
  rw [← giveUp_state]
  rw [giveUp]
  rcases stackExit call stack (some e) s with ⟨e | b, s'⟩
  · exact ⟨_, rfl⟩
  · cases b <;> exact ⟨_, rfl⟩

/-- Giving up after a failure exits what had been entered. -/
theorem failed_giveUp {bs : List Class} {handlers : List (Option Exc → Act Value)}
    (hkeeps : ∀ x ∈ handlers, ∀ received, KeepsReplaced (· = true) (x received))
    (hexits : ∀ b ∈ bs, Exits F top b) (hnodup : (keysOf bs).Nodup)
    (hhandlers : ∀ (i : Nat) b, bs[i]? = some b → handlers[i]? = some (exit F top b))
    {key : String} {as : List String} {ms : List Manager} (hlen : ms.length = as.length)
    {below : List Step} {ks' : List String} {sites sites' : List Site} {s s₁ s₂ s' : State} {e : Exc}
    {r : Except Exc Value}
    (hopened : Opened top (keysOf bs) sites (below ++ attrSteps key as ms) s s₁)
    (hentered : EnteredAll s₁.resources bs below) (hfailed : Failed top ks' sites' s₁ s₂)
    (hdisjoint : ∀ k ∈ ks', k ∉ keysOf bs)
    (hrun : giveUp (callback F top key handlers)
      (baseCallbacks 0 bs ++ attrCallbacks top.mode as ms).reverse e s₂ = (r, s')) :
    s'.replaced = true ∨
      (match r with
        | .ok _ => False
        | .error _ => Failed top (keysOf bs ++ ks') (sites ++ sites') s s') := by
  obtain ⟨e', hgiveUp⟩ := giveUp_error (callback F top key handlers)
    (baseCallbacks 0 bs ++ attrCallbacks top.mode as ms).reverse e s₂
  rw [hrun] at hgiveUp
  cases hgiveUp
  have hentered₂ : EnteredAll s₂.resources bs below :=
    EnteredAll.congr (fun k hk => hfailed.frame k fun hk' => hdisjoint k hk' hk) hentered
  refine (closes_entered hkeeps hexits hnodup hhandlers hlen hentered₂
    (hfailed.opens.trans hopened.opens) hfailed.tracks _).imp_right fun hclosed => ?_
  exact hfailed.under hopened hclosed hdisjoint

theorem enters_mk {key : String} {bases : List Class} {attrs : List String}
    {ownEnter ownExit : Bool} (hu : ∀ b ∈ bases, Uniform top.mode b)
    (hnodup : (key :: keysOf bases).Nodup) (henters : ∀ b ∈ bases, Enters F top b) :
    Enters F top (.mk top.mode key bases attrs ownEnter ownExit) := by
  intro s r s' hout h hrun
  rw [keys_mk] at hout ⊢
  obtain ⟨hnotMem, hnodup'⟩ := List.nodup_cons.mp hnodup
  have hexits := exits_spec (F := F) hu hnodup'
  have hkeeps : ∀ x ∈ bases.map (exit F top), ∀ received, KeepsReplaced (· = true) (x received) := by
    intro x hx received
    obtain ⟨b, -, rfl⟩ := List.mem_map.mp hx
    exact keeps_exit assignKeeps_true b received
  have hhandlers : ∀ (i : Nat) b, bases[i]? = some b →
      (bases.map (exit F top))[i]? = some (exit F top b) := by
    intro i b hb
    rw [List.getElem?_map, hb, Option.map_some]
  have hkeepsAttrs : ∀ x ∈ attrs.map (enterAttr F top top.mode key),
      KeepsReplaced (· = true) x := by
    intro x hx
    obtain ⟨name, -, rfl⟩ := List.mem_map.mp hx
    exact keeps_enterAttr assignKeeps_true _ _ name
  have hcall : ∀ c received, KeepsReplaced (· = true)
      (callback F top key (bases.map (exit F top)) c received) :=
    keeps_callback assignKeeps_true hkeeps
  have hfinish : ∀ x : Option Exc × List Callback × State, x.2.2.replaced = true →
      (finishEnter F top key ownEnter (callback F top key (bases.map (exit F top)))
        x).2.replaced = true :=
    fun x hx => keeps_finishEnter assignKeeps_true hcall x hx
  have hplan : plan (.mk top.mode key bases attrs ownEnter ownExit)
      = plans bases ++ attrs.map (Site.attr key) ++ [.own key] := by rw [plan]
  rw [enter, enters_eq F top hu, exits_eq F top hu, enterWith, enterAll_append] at hrun
  rcases hrunBases : enterAll (enterBases 0 (bases.map (enter F top))) [] s with ⟨failure, stack, s₁⟩
  rw [hrunBases] at hrun
  rcases enterAll_bases henters hnodup' (fun k hk => hout k (.tail _ hk)) h hrunBases with
    hreplaced | ⟨rfl, below, rfl, hopened, hall⟩ |
      ⟨e, bs, b, rest, below, s₂, rfl, rfl, rfl, hopened, hall, hfailed⟩
  · -- an attribute was replaced while the bases were entered
    left
    cases failure with
    | some e =>
      have := hfinish (some e, stack, s₁) hreplaced
      rwa [show finishEnter F top key ownEnter _ (some e, stack, s₁) = (r, s') from hrun] at this
    | none =>
      have := hfinish _ (keeps_enterAll hkeepsAttrs stack hreplaced)
      rwa [show finishEnter F top key ownEnter _ (enterAll _ stack s₁) = (r, s') from hrun] at this
  · -- the bases have been entered
    dsimp only at hrun
    rcases hrunAttrs : enterAll (attrs.map (enterAttr F top top.mode key))
      ((baseCallbacks 0 bases).reverse ++ []) s₁ with ⟨failure, stack, s₂⟩
    rw [hrunAttrs] at hrun
    have hstack : ∀ as ms, (attrCallbacks top.mode as ms).reverse
          ++ ((baseCallbacks 0 bases).reverse ++ [])
        = (baseCallbacks 0 bases ++ attrCallbacks top.mode as ms).reverse := by
      simp
    have hstays : ∀ {r : String → Slot}, Frame [] s₁.resources r → EnteredAll r bases below :=
      fun hframe => EnteredAll.congr (fun k _ => hframe k fun h => by cases h) hall
    rcases enterAll_attrs hopened.tracks hrunAttrs with
      hreplaced | ⟨rfl, ms, hlen, rfl, hopened'⟩ |
        ⟨e, as, name, rest, ms, s₃, rfl, rfl, hlen, rfl, hopened', hfailed⟩
    · have := hfinish (failure, stack, s₂) hreplaced
      rw [hrun] at this
      exact .inl this
    · have hboth := hopened.append hopened'
      rw [List.append_nil] at hboth
      have hkey : (s₂.resources key).isHeld = false := by
        rw [hboth.frame key hnotMem]
        exact hout key (.head _)
      rw [finishEnter, if_neg (by simp [hkey]), hstack] at hrun
      rcases hown : ownEnterStep F top key ownEnter s₂ with ⟨e | v, s₃⟩
      · rw [hown] at hrun
        dsimp only at hrun
        rcases enterStep_spec (x := .own key) (harmless_ite (harmless_callOut _ _ _) _ _)
          (fun _ _ _ heq => by cases heq) hboth.tracks hown with hreplaced | hfailed
        · have := keeps_closeStack hcall
            (baseCallbacks 0 bases ++ attrCallbacks top.mode attrs ms).reverse ⟨some e, none, false⟩
            hreplaced
          rw [← giveUp_state, hrun] at this
          exact .inl this
        · refine (failed_giveUp hkeeps hexits hnodup' hhandlers hlen hboth
            (hstays hopened'.frame) hfailed (fun _ h => by cases h) hrun).imp_right fun hresult => ?_
          cases r with
          | ok v => exact hresult.elim
          | error e =>
            refine Failed.mono hresult ?_ ?_ hout
            · rw [List.append_nil]
              exact fun k hk => .tail _ hk
            · rw [hplan]
              exact List.prefix_refl _
      · rw [hown] at hrun
        cases hrun
        rcases enterStep_spec (x := .own key) (harmless_ite (harmless_callOut _ _ _) _ _)
          (fun _ _ _ heq => by cases heq) hboth.tracks hown with hreplaced | hopened₃
        · exact .inl hreplaced
        right
        have hopened₄ := hboth.append hopened₃
        rw [List.append_nil] at hopened₄
        refine ⟨below ++ attrSteps key attrs ms ++ [.own key], ⟨?_, ?_, ?_, ?_, ?_⟩, ?_⟩
        · rw [hplan]
          exact hopened₄.sites
        · exact hopened₄.log
        · exact hopened₄.opens
        · intro k hk
          rw [List.mem_cons, not_or] at hk
          dsimp only
          rw [Function.update_of_ne hk.1, hopened₄.frame k hk.2]
        · exact hopened₄.tracks
        · rw [Entered]
          refine ⟨below, ms, hlen, ?_, Function.update_self .., rfl⟩
          refine EnteredAll.congr (fun k hk => ?_) (hstays hopened'.frame)
          have hne : k ≠ key := by
            rintro rfl
            exact hnotMem hk
          dsimp only
          rw [Function.update_of_ne hne, hopened₃.frame k fun h => by cases h]
    · have hboth := hopened.append hopened'
      rw [List.append_nil] at hboth
      rw [finishEnter, hstack] at hrun
      refine (failed_giveUp hkeeps hexits hnodup' hhandlers hlen hboth
        (hstays hopened'.frame) hfailed (fun _ h => by cases h) hrun).imp_right fun hresult => ?_
      cases r with
      | ok v => exact hresult.elim
      | error e =>
        refine Failed.mono hresult ?_ ?_ hout
        · rw [List.append_nil]
          exact fun k hk => .tail _ hk
        · rw [hplan, List.map_append, List.map_cons]
          simp
  · -- a base failed
    rw [finishEnter] at hrun
    rw [keysOf, classesOf_append, List.map_append, List.nodup_append] at hnodup'
    obtain ⟨hnodupBs, -, hdisjoint⟩ := hnodup'
    have hmem : ∀ k ∈ keys b, k ∈ (classesOf (b :: rest)).map Class.resourcesAttrName := by
      intro k hk
      rw [classesOf, List.map_append]
      exact List.mem_append_left _ hk
    have hstack : (baseCallbacks 0 bs).reverse ++ []
        = (baseCallbacks 0 bs ++ attrCallbacks top.mode [] []).reverse := by
      simp [attrCallbacks]
    have hsteps : below ++ attrSteps key [] [] = below := List.append_nil _
    rw [hstack] at hrun
    rw [← hsteps] at hopened
    refine (failed_giveUp hkeeps (fun c hc => hexits c (List.mem_append_left _ hc)) hnodupBs
      (fun i c hc => hhandlers i c ?_) rfl hopened hall hfailed
      (fun k hk hk' => hdisjoint k hk' k (hmem k hk) rfl) hrun).imp_right fun hresult => ?_
    · rw [List.getElem?_append_left (List.getElem?_eq_some_iff.mp hc).1]
      exact hc
    · cases r with
      | ok v => exact hresult.elim
      | error e =>
        refine Failed.mono hresult ?_ ?_ hout
        · intro k hk
          refine .tail _ ?_
          rw [keysOf, classesOf_append, List.map_append]
          exact List.mem_append.mpr ((List.mem_append.mp hk).imp_right (hmem k))
        · rw [hplan, plans_append, plans, List.append_assoc, List.append_assoc, List.append_assoc]
          exact (List.prefix_append_right_inj _).mpr (List.prefix_append _ _)

mutual

/-- Entering an object that has not been entered follows its plan. -/
theorem enter_spec : ∀ {C : Class}, Uniform top.mode C → (keys C).Nodup → Enters F top C
  | .mk mode key bases attrs ownEnter ownExit, hu, hnodup => by
    rw [keys_mk] at hnodup
    obtain rfl : mode = top.mode := hu.mode_eq
    exact enters_mk (fun b hb => hu.base hb) hnodup
      (enters_spec (fun b hb => hu.base hb) (List.nodup_cons.mp hnodup).2)

theorem enters_spec : ∀ {bases : List Class}, (∀ b ∈ bases, Uniform top.mode b) →
    (keysOf bases).Nodup → ∀ b ∈ bases, Enters F top b
  | [], _, _, _, hb => nomatch hb
  | b :: rest, hu, hnodup, c, hc => by
    rw [keysOf_cons] at hnodup
    obtain ⟨hnodup₁, hnodup₂, -⟩ := List.nodup_append.mp hnodup
    cases hc with
    | head => exact enter_spec (hu b (.head _)) hnodup₁
    | tail _ hc => exact enters_spec (fun d hd => hu d (.tail _ hd)) hnodup₂ c hc

end

end Urnest.CmClass
