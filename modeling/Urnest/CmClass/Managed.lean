import Urnest.CmClass.Entering

/-!
# Managed resources

An object is entered, used, and left. Its attributes cannot be replaced in between where the chain
of `__setattr__` methods guards them (`Guarded`); that chain goes through first bases only, so it
does not see what another base manages.

`async_cmclass` looks attributes up again at exit, and returns nothing from `__aexit__`. So in that
variant an attribute that an enter or exit step assigns must not be one that is entered at that
time, and an own exit method must return nothing (`managed`).
-/

namespace Urnest.CmClass

open Function (update)
open Lib

mutual

/-- The classes whose `__setattr__` an assignment goes through -/
def chain : Class → List Class
  | .mk mode key bases attrs ownEnter ownExit =>
    .mk mode key bases attrs ownEnter ownExit :: chainFirst bases

def chainFirst : List Class → List Class
  | [] => []
  | b :: _ => chain b

end

/-- A class manages an attribute of that name. -/
def Manages (top : Class) (name : String) : Prop := ∃ C ∈ classes top, name ∈ C.attrs

/-- Every managed attribute is managed by a class of the chain. -/
def Guarded (top : Class) : Prop := ∀ name, Manages top name → ∃ C ∈ chain top, name ∈ C.attrs

mutual

theorem guards_of_entered {r : String → Slot} {name : String} : ∀ {C : Class} {steps : List Step},
    Entered r C steps → ∀ D ∈ chain C, name ∈ D.attrs → guards r name C = true
  | .mk mode key bases attrs ownEnter ownExit, steps, h, D, hD, hname => by
    rw [Entered] at h
    obtain ⟨below, ms, -, hbelow, hkey, -⟩ := h
    rw [chain] at hD
    rw [guards, Bool.or_eq_true]
    cases hD with
    | head =>
      left
      have hmem : name ∈ attrs := hname
      rw [hkey]
      simpa [Slot.isHeld] using hmem
    | tail _ hD => exact .inr (guardsFirst_of_entered hbelow D hD hname)

theorem guardsFirst_of_entered {r : String → Slot} {name : String} :
    ∀ {bases : List Class} {steps : List Step},
    EnteredAll r bases steps → ∀ D ∈ chainFirst bases, name ∈ D.attrs →
      guardsFirst r name bases = true
  | [], _, _, D, hD, _ => by
    rw [chainFirst] at hD
    cases hD
  | b :: rest, steps, h, D, hD, hname => by
    rw [EnteredAll] at h
    obtain ⟨xs, ys, hxs, -, -⟩ := h
    rw [chainFirst] at hD
    rw [guardsFirst]
    exact guards_of_entered hxs D hD hname

end

mutual

/-- The attributes that have been entered are managed. -/
theorem manages_of_plan (key : String) {name : String} : ∀ {C : Class},
    Site.attr key name ∈ plan C → Manages C name
  | .mk mode k bases attrs ownEnter ownExit, h => by
    rw [plan, List.mem_append, List.mem_append] at h
    rcases h with (h | h) | h
    · obtain ⟨C, hC, hname⟩ := manages_of_plans key h
      refine ⟨C, ?_, hname⟩
      rw [classes]
      exact .tail _ hC
    · obtain ⟨n, hn, heq⟩ := List.mem_map.mp h
      cases heq
      exact ⟨_, mem_classes_self _, hn⟩
    · cases List.mem_singleton.mp h

theorem manages_of_plans (key : String) {name : String} : ∀ {bases : List Class},
    Site.attr key name ∈ plans bases → ∃ C ∈ classesOf bases, name ∈ C.attrs
  | [], h => by
    rw [plans] at h
    cases h
  | b :: rest, h => by
    rw [plans, List.mem_append] at h
    rw [classesOf]
    rcases h with h | h
    · obtain ⟨C, hC, hname⟩ := manages_of_plan key h
      exact ⟨C, List.mem_append_left _ hC, hname⟩
    · obtain ⟨C, hC, hname⟩ := manages_of_plans key h
      exact ⟨C, List.mem_append_right _ hC, hname⟩

end

variable {F : Foreign} {top : Class}

/-! ## Between enter and exit -/

/-- An assignment to a managed attribute of an entered object is refused. -/
theorem assign_of_entered (hguarded : Guarded top) {s : State} {steps : List Step}
    (h : Entered s.resources top steps) {name : String} (hname : Manages top name) (m : Manager) :
    assign top s (name, m) = s := by
  obtain ⟨C, hC, hmem⟩ := hguarded name hname
  rw [assign, if_pos (guards_of_entered h C hC hmem)]

/-- Whatever is assigned, the managed attributes of an entered object stay. -/
theorem body_spec (hguarded : Guarded top) {steps : List Step}
    (hplan : steps.map Step.site = plan top) (body : List (String × Manager)) {s : State}
    (h : Entered s.resources top steps) (hopens : s.opens = steps.reverse)
    (htracks : Tracks top s) :
    (body.foldl (assign top) s).resources = s.resources ∧
      (body.foldl (assign top) s).log = s.log ∧ (body.foldl (assign top) s).opens = s.opens ∧
      (body.foldl (assign top) s).replaced = s.replaced ∧ Tracks top (body.foldl (assign top) s) ∧
      ∀ name, Manages top name → (body.foldl (assign top) s).attrs name = s.attrs name := by
  induction body generalizing s with
  | nil => exact ⟨rfl, rfl, rfl, rfl, htracks, fun _ _ => rfl⟩
  | cons x body ih =>
    by_cases hx : Manages top x.1
    · rw [List.foldl_cons, show assign top s x = s from assign_of_entered hguarded h hx x.2]
      exact ih h hopens htracks
    -- an attribute that is not managed has not been entered
    obtain ⟨hresources, hlog, hopens'⟩ := assign_frame top s x
    have hnotOpen : s.opens.any (Step.isAttr x.1) = false := by
      rw [List.any_eq_false]
      intro y hy hattr
      cases y with
      | own key => cases hattr
      | attr key name m =>
        obtain rfl : name = x.1 := by simpa [Step.isAttr] using hattr
        rw [hopens, List.mem_reverse] at hy
        refine hx (manages_of_plan key ?_)
        rw [← hplan]
        exact List.mem_map.mpr ⟨_, hy, rfl⟩
    have hreplaced : (assign top s x).replaced = s.replaced := by
      rw [assign]
      split_ifs
      · rfl
      · simp [hnotOpen]
    have hattrs : ∀ name, Manages top name → (assign top s x).attrs name = s.attrs name := by
      intro name hname
      rw [assign]
      split_ifs
      · rfl
      · exact Function.update_of_ne (by rintro rfl; exact hx hname) _ _
    have htracks' : Tracks top (assign top s x) := by
      intro hasync key name m hmem
      rw [hopens'] at hmem
      have hmem' := hmem
      rw [hopens, List.mem_reverse] at hmem'
      rw [hattrs name (manages_of_plan key ?_)]
      · exact htracks hasync key name m hmem
      · rw [← hplan]
        exact List.mem_map.mpr ⟨_, hmem', rfl⟩
    rw [List.foldl_cons]
    obtain ⟨h₁, h₂, h₃, h₄, h₅, h₆⟩ := ih (hresources ▸ h) (hopens'.trans hopens) htracks'
    refine ⟨h₁.trans hresources, h₂.trans hlog, h₃.trans hopens', h₄.trans hreplaced, h₅, ?_⟩
    intro name hname
    rw [h₆ name hname, hattrs name hname]

/-! ## What is returned -/

/-- What the own enter method of a class returns, and `self` if it has none -/
def ownEnterResult (F : Foreign) (C : Class) (time : Nat) : Except Exc Value :=
  if C.ownEnter then F.outcome (.own C.resourcesAttrName) .enter time none else .ok .self

def ownExitResult (F : Foreign) (C : Class) (time : Nat) (received : Option Exc) :
    Except Exc Value :=
  if C.ownExit then F.outcome (.own C.resourcesAttrName) .exit time received else .ok .none

theorem ownEnterStep_value {key : String} {ownEnter : Bool} {s s' : State} {v : Value}
    (h : ownEnterStep F top key ownEnter s = (.ok v, s')) :
    (if ownEnter then F.outcome (.own key) .enter (s'.log.length - 1) none else .ok .self) = .ok v := by
  rw [ownEnterStep, enterStep] at h
  cases ownEnter with
  | false =>
    cases h
    rfl
  | true =>
    obtain ⟨-, hlog, -⟩ := callOut_frame F top (.own key) .enter none
      { s with opens := .own key :: s.opens }
    rcases hrun : callOut F top (.own key) .enter none { s with opens := .own key :: s.opens } with
      ⟨e | w, s₁⟩
    · rw [if_pos rfl, hrun] at h
      cases h
    · rw [if_pos rfl, hrun] at h
      rw [hrun] at hlog
      cases h
      rw [if_pos rfl]
      dsimp only at hlog ⊢
      rw [hlog, List.length_append, List.length_singleton, Nat.add_sub_cancel]
      have := congrArg Prod.fst hrun
      exact this

theorem enter_value {C : Class} {s s' : State} {v : Value} (h : enter F top C s = (.ok v, s')) :
    ownEnterResult F C (s'.log.length - 1) = .ok v := by
  obtain ⟨mode, key, bases, attrs, ownEnter, ownExit⟩ := C
  rw [enter, enterWith] at h
  have hgiveUp : ∀ call stack e (s : State), giveUp call stack e s ≠ (.ok v, s') := by
    intro call stack e s heq
    obtain ⟨e', hgiveUp⟩ := giveUp_error call stack e s
    rw [hgiveUp] at heq
    cases heq
  rcases hall : enterAll _ [] s with ⟨_ | e, stack, s₁⟩
  · rw [hall, finishEnter] at h
    split_ifs at h
    · exact absurd h (hgiveUp _ _ _ _)
    · rcases hown : ownEnterStep F top key ownEnter s₁ with ⟨e | w, s₂⟩
      · rw [hown] at h
        exact absurd h (hgiveUp _ _ _ _)
      · rw [hown] at h
        cases h
        have hvalue := ownEnterStep_value hown
        exact hvalue
  · rw [hall, finishEnter] at h
    exact absurd h (hgiveUp _ _ _ _)

theorem exit_value {C : Class} {received : Option Exc} {s s' : State} {v : Value}
    (h : exit F top C received s = (.ok v, s')) :
    (C.mode = .sync ∧ ownExitResult F C s.log.length received = .ok v) ∨
      (C.mode = .async ∧ v = .none ∧ ∃ w, ownExitResult F C s.log.length received = .ok w) := by
  obtain ⟨mode, key, bases, attrs, ownEnter, ownExit⟩ := C
  rw [exit, exitWith] at h
  have hown : ∀ s₀ : State, s₀.log = s.log → (ownExitStep F top key ownExit received s₀).1
      = ownExitResult F (.mk mode key bases attrs ownEnter ownExit) s.log.length received := by
    intro s₀ hlog
    rw [ownExitStep, exitStep, ownExitResult, ← hlog]
    cases ownExit <;> rfl
  cases hslot : s.resources key with
  | absent =>
    rw [hslot] at h
    cases h
  | cleared =>
    rw [hslot] at h
    cases h
  | holds stack =>
    rw [hslot] at h
    dsimp only at h
    rw [hown { s with resources := update s.resources key .cleared } rfl] at h
    rcases hclose : stackExit (callback F top key (exits F top mode bases)) stack none
      (ownExitStep F top key ownExit received
        { s with resources := update s.resources key .cleared }).2 with ⟨e | b, s₁⟩
    · rw [hclose] at h
      cases h
    · rw [hclose] at h
      have hvalue := congrArg Prod.fst h
      dsimp only at hvalue
      cases mode with
      | sync => exact .inl ⟨rfl, hvalue⟩
      | async =>
        rw [if_neg (by decide)] at hvalue
        cases hresult : ownExitResult F (.mk .async key bases attrs ownEnter ownExit) s.log.length
          received with
        | error e =>
          rw [hresult] at hvalue
          cases hvalue
        | ok w =>
          rw [hresult] at hvalue
          cases hvalue
          exact .inr ⟨rfl, rfl, w, rfl⟩

/-! ## The whole of it -/

theorem closed_of_body {ks : List String} {steps : List Step} {s s₁ s₂ : State}
    (hresources : s₁.resources = s.resources) (hlog : s₁.log = s.log)
    (h : Closed top ks steps [] s₁ s₂) : Closed top ks steps [] s s₂ := by
  refine ⟨?_, h.opens, h.out, ?_, h.tracks⟩
  · rw [h.log, hlog]
  · rw [← hresources]
    exact h.frame

theorem not_replaced (top : Class) {s s₁ : State} (hsync : ∀ _ : top.mode = .sync, s.replaced = false →
      s₁.replaced = false) (hreplaced : s.replaced = false)
    (hkept : top.mode = .async → s₁.replaced = false) : s₁.replaced = false := by
  cases hmode : top.mode with
  | sync => exact hsync hmode hreplaced
  | async => exact hkept hmode

/-- Resources are managed in balance: entering follows the plan and returns what the own method
returns, or fails, exits what was entered in reverse, and leaves nothing entered. While the object
is entered no managed attribute is replaced, and leaving it exits everything that was entered, in
reverse, and returns what the own method returns. -/
theorem managed (hu : Uniform top.mode top) (hnodup : (keys top).Nodup) (hguarded : Guarded top)
    (hnone : top.mode = .async →
      ∀ time received v, ownExitResult F top time received = .ok v → v = .none)
    {s : State} (hout : Out (keys top) s.resources) (hopens : s.opens = [])
    (hreplaced : s.replaced = false) {r : Except Exc Value} {s₁ : State}
    (henter : enter F top top s = (r, s₁)) (hkept : top.mode = .async → s₁.replaced = false) :
    match r with
    | .error _ => Failed top (keys top) (plan top) s s₁
    | .ok v => ownEnterResult F top (s₁.log.length - 1) = .ok v ∧
        (∀ name m, Manages top name → assign top s₁ (name, m) = s₁) ∧
        ∃ steps, Opened top (keys top) (plan top) steps s s₁ ∧
          ∀ (body : List (String × Manager)) received r' s₂,
            exit F top top received (body.foldl (assign top) s₁) = (r', s₂) →
            (∀ name, Manages top name →
              (body.foldl (assign top) s₁).attrs name = s₁.attrs name) ∧
            ((top.mode = .async → s₂.replaced = false) →
              Closed top (keys top) steps [] s₁ s₂ ∧
              ∀ v', r' = .ok v' → ownExitResult F top s₁.log.length received = .ok v') := by
  have hnone₁ : s₁.replaced = false := by
    refine not_replaced top (fun hsync hs => ?_) hreplaced hkept
    have := keeps_enter (assignKeeps_sync hsync) (F := F) top s hs
    rwa [henter] at this
  have htracks : Tracks top s := by
    intro _ key name m hmem
    rw [hopens] at hmem
    cases hmem
  have hspec := enter_spec hu hnodup s r s₁ hout htracks henter
  rw [hnone₁] at hspec
  replace hspec := hspec.resolve_left (by decide)
  cases r with
  | error e => exact hspec
  | ok v =>
    obtain ⟨steps, hopened, hentered⟩ := hspec
    have hopens₁ : s₁.opens = steps.reverse := by
      rw [hopened.opens, hopens, List.append_nil]
    refine ⟨enter_value henter, ?_, steps, hopened, ?_⟩
    · intro name m hname
      exact assign_of_entered hguarded hentered hname m
    intro body received r' s₂ hexit
    obtain ⟨hresources, hlog, hopens₂, hreplaced₂, htracks₂, hattrs⟩ :=
      body_spec hguarded hopened.sites body hentered hopens₁ hopened.tracks
    refine ⟨hattrs, fun hkept₂ => ?_⟩
    have hnone₂ : s₂.replaced = false := by
      refine not_replaced top (fun hsync hs => ?_) (hreplaced₂.trans hnone₁) hkept₂
      have := keeps_exit (assignKeeps_sync hsync) (F := F) top received _ hs
      rwa [hexit] at this
    have hclosed := exit_spec (F := F) hu hnodup received (body.foldl (assign top) s₁) steps []
      (hresources ▸ hentered) (by rw [hopens₂, hopens₁, List.append_nil]) htracks₂
    rw [hexit, hnone₂] at hclosed
    refine ⟨closed_of_body hresources hlog (hclosed.resolve_left (by decide)), ?_⟩
    rintro v' rfl
    rcases exit_value hexit with ⟨-, hvalue⟩ | ⟨hasync, rfl, w, hvalue⟩
    · rwa [hlog] at hvalue
    · rw [hlog] at hvalue
      rw [hvalue, hnone hasync _ _ _ hvalue]

/-- Code outside that neither raises nor assigns, and returns 7 from own methods -/
def quiet : Foreign where
  assigns _ _ _ := []
  outcome site _ _ _ :=
    match site with
    | .attr _ _ => .ok .none
    | .own _ => .ok (.object 7 true)

/-- Attributes a, d and x have the managers 1, 4 and 24, and nothing has been entered. -/
def fresh : State where
  attrs name := if name = "a" then 1 else if name = "d" then 4 else 24
  resources _ := .absent
  log := []
  opens := []
  replaced := false

/-- A class that manages a, and one derived from it that manages d -/
def derived (mode : Mode) : Class :=
  .mk mode "m_D" [.mk mode "m_B" [] ["a"] false false] ["d"] true true

theorem managed_derived :
    enter quiet (derived .sync) (derived .sync) fresh
        = (.ok (.object 7 true), (enter quiet (derived .sync) (derived .sync) fresh).2) ∧
      assign (derived .sync) (enter quiet (derived .sync) (derived .sync) fresh).2 ("a", 9)
        = (enter quiet (derived .sync) (derived .sync) fresh).2 := by
  have henter : enter quiet (derived .sync) (derived .sync) fresh
      = (.ok (.object 7 true), (enter quiet (derived .sync) (derived .sync) fresh).2) :=
    Prod.ext (by rfl) rfl
  have hguarded : Guarded (derived .sync) := by
    rintro name ⟨C, hC, hname⟩
    exact ⟨C, hC, hname⟩
  have hu : Uniform (derived .sync).mode (derived .sync) := by
    intro C hC
    simp only [derived, classes, classesOf, List.append_nil, List.mem_cons, List.not_mem_nil,
      or_false] at hC
    rcases hC with rfl | rfl <;> rfl
  have hmanages : Manages (derived .sync) "a" :=
    ⟨.mk .sync "m_B" [] ["a"] false false, .tail _ (.head _), .head _⟩
  have h := managed hu (by decide) hguarded (fun h => nomatch h) (fun _ _ => rfl)
    (rfl : fresh.opens = []) rfl henter (fun h => nomatch h)
  exact ⟨henter, h.2.1 "a" 9 hmanages⟩

/-- A class with two bases: the second manages a. -/
def twoBases (mode : Mode) : Class :=
  .mk mode "m_DD" [.mk mode "m_B2" [] ["d"] false false, .mk mode "m_B1" [] ["a"] false false] []
    false false

/-- A class that manages a and has an own exit method -/
def single (mode : Mode) : Class := .mk mode "m_A" [] ["a"] false true

/-- Code outside whose own exit methods assign 9 to a -/
def assigning : Foreign where
  assigns site phase _ := if site = .own "m_A" ∧ phase = .exit then [("a", 9)] else []
  outcome := quiet.outcome

/-- What the second base manages is replaced while the object is entered. What an own exit method
returns is not returned by `async_cmclass`, and when it assigns an attribute, a manager that was not
entered is exited. -/
theorem not_managed :
    ((enter quiet (twoBases .sync) (twoBases .sync) fresh).1 = .ok .self ∧
      (assign (twoBases .sync) (enter quiet (twoBases .sync) (twoBases .sync) fresh).2
        ("a", 9)).attrs "a" = 9) ∧
    (ownExitResult quiet (single .async) 2 none = .ok (.object 7 true) ∧
      (exit quiet (single .async) (single .async) none
        (enter quiet (single .async) (single .async) fresh).2).1 = .ok .none) ∧
    (exit assigning (single .async) (single .async) none
        (enter assigning (single .async) (single .async) fresh).2).2.log
      = [.entered (.attr "m_A" "a" 1), .entered (.own "m_A"), .exited (.own "m_A"),
        .exited (.attr "m_A" "a" 9)] := by
  refine ⟨⟨by rfl, by rfl⟩, ⟨by rfl, by rfl⟩, by rfl⟩

end Urnest.CmClass
