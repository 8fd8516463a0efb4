import Urnest.CmClass.Decorators

/-!
# Leaving what has been entered

`Entered` says what the resources of an entered object are, and which steps they stand for. Its
exits exit these steps in reverse, whatever raises (`exit_spec`), unless an attribute that is looked
up again has been assigned since it was entered (`replaced`).
-/

set_option linter.unusedSectionVars false

namespace Urnest.CmClass

open Function (update)
open Lib

/-! ## A hierarchy -/

mutual

/-- A class and all its bases -/
def classes : Class → List Class
  | .mk mode key bases attrs ownEnter ownExit =>
    .mk mode key bases attrs ownEnter ownExit :: classesOf bases

def classesOf : List Class → List Class
  | [] => []
  | b :: rest => classes b ++ classesOf rest

end

def keys (C : Class) : List String := (classes C).map Class.resourcesAttrName

def keysOf (bases : List Class) : List String := (classesOf bases).map Class.resourcesAttrName

@[simp] theorem keys_mk (mode : Mode) (key : String) (bases : List Class) (attrs : List String)
    (ownEnter ownExit : Bool) :
    keys (.mk mode key bases attrs ownEnter ownExit) = key :: keysOf bases := by
  rw [keys, classes, List.map_cons, keysOf, Class.resourcesAttrName]

@[simp] theorem keysOf_cons (b : Class) (rest : List Class) :
    keysOf (b :: rest) = keys b ++ keysOf rest := by
  rw [keysOf, classesOf, List.map_append, keys, keysOf]

@[simp] theorem keysOf_nil : keysOf [] = [] := by
  rw [keysOf, classesOf, List.map_nil]

theorem classesOf_append (xs ys : List Class) :
    classesOf (xs ++ ys) = classesOf xs ++ classesOf ys := by
  induction xs with
  | nil => rw [classesOf, List.nil_append, List.nil_append]
  | cons x xs ih => rw [List.cons_append, classesOf, classesOf, ih, List.append_assoc]

/-- All classes are decorated by one decorator. -/
def Uniform (mode : Mode) (C : Class) : Prop := ∀ D ∈ classes C, D.mode = mode

theorem mem_classes_self (C : Class) : C ∈ classes C := by
  cases C with
  | mk =>
    rw [classes]
    exact .head _

theorem Uniform.mode_eq {mode m : Mode} {key : String} {bases : List Class} {attrs : List String}
    {ownEnter ownExit : Bool} (h : Uniform mode (.mk m key bases attrs ownEnter ownExit)) :
    m = mode :=
  h (.mk m key bases attrs ownEnter ownExit) (mem_classes_self _)

theorem classes_subset_classesOf {b : Class} {bases : List Class} (hb : b ∈ bases) :
    ∀ D ∈ classes b, D ∈ classesOf bases := by
  induction hb with
  | head rest =>
    intro D hD
    rw [classesOf]
    exact List.mem_append_left _ hD
  | tail c _ ih =>
    intro D hD
    rw [classesOf]
    exact List.mem_append_right _ (ih D hD)

theorem Uniform.base {mode m : Mode} {key : String} {bases : List Class} {attrs : List String}
    {ownEnter ownExit : Bool} (h : Uniform mode (.mk m key bases attrs ownEnter ownExit))
    {b : Class} (hb : b ∈ bases) : Uniform mode b := by
  intro D hD
  refine h D ?_
  rw [classes]
  exact .tail _ (classes_subset_classesOf hb D hD)

/-- Every base is one that can be entered. -/
theorem exits_eq (F : Foreign) (top : Class) {mode : Mode} {bases : List Class}
    (h : ∀ b ∈ bases, Uniform mode b) : exits F top mode bases = bases.map (exit F top) := by
  induction bases with
  | nil => rw [exits, List.map_nil]
  | cons b rest ih =>
    have hb : b.mode = mode := h b (.head _) b (mem_classes_self b)
    rw [exits, if_pos hb, ih fun c hc => h c (.tail _ hc), List.map_cons]

theorem enters_eq (F : Foreign) (top : Class) {mode : Mode} {bases : List Class}
    (h : ∀ b ∈ bases, Uniform mode b) : enters F top mode bases = bases.map (enter F top) := by
  induction bases with
  | nil => rw [enters, List.map_nil]
  | cons b rest ih =>
    have hb : b.mode = mode := h b (.head _) b (mem_classes_self b)
    rw [enters, if_pos hb, ih fun c hc => h c (.tail _ hc), List.map_cons]

/-! ## What each action keeps of `replaced` -/

section Keeps

variable {F : Foreign} {top : Class} {Q : Bool → Prop}

/-- An assignment keeps `Q` true of `replaced`. -/
def AssignKeeps (top : Class) (Q : Bool → Prop) : Prop :=
  ∀ s x, Q s.replaced → Q (assign top s x).replaced

theorem assignKeeps_true : AssignKeeps top (· = true) := by
  intro s x h
  rw [assign]
  split_ifs
  · exact h
  · simp [h]

theorem assignKeeps_sync (h : top.mode = .sync) : AssignKeeps top (· = false) := by
  intro s x hs
  rw [assign]
  split_ifs
  · exact hs
  · simp [hs, h]

abbrev KeepsReplaced (Q : Bool → Prop) {α : Type} (x : Act α) : Prop :=
  Action.Keeps (fun s : State => Q s.replaced) x

variable (hQ : AssignKeeps top Q)

include hQ

theorem keeps_callOut (site : Site) (phase : Phase) (received : Option Exc) :
    KeepsReplaced Q (callOut F top site phase received) := by
  intro s hs
  rw [callOut]
  dsimp only
  generalize F.assigns site phase s.log.length = xs
  induction xs generalizing s with
  | nil => exact hs
  | cons x xs ih => exact ih _ (hQ s x hs)

omit hQ in
theorem keeps_enterStep {x : Step} {call : Act Value} (h : KeepsReplaced Q call) :
    KeepsReplaced Q (enterStep x call) := by
  intro s hs
  have hcall := h { s with opens := x :: s.opens } hs
  rw [enterStep]
  rcases hrun : call { s with opens := x :: s.opens } with ⟨e | v, s'⟩ <;> rwa [hrun] at hcall

omit hQ in
theorem keeps_exitStep {x : Step} {call : Act Value} (h : KeepsReplaced Q call) :
    KeepsReplaced Q (exitStep x call) := by
  intro s hs
  exact h { s with opens := s.opens.erase x } hs

theorem keeps_callback {key : String} {bases : List (Option Exc → Act Value)}
    (hbases : ∀ x ∈ bases, ∀ received, KeepsReplaced Q (x received)) (c : Callback)
    (received : Option Exc) : KeepsReplaced Q (callback F top key bases c received) := by
  cases c with
  | base k =>
    rw [callback]
    split
    · exact hbases _ (List.mem_of_getElem? (by assumption)) received
    · exact Action.Keeps.raise _
  | manager name m => exact keeps_exitStep (keeps_callOut hQ _ _ _)
  | attr name => exact fun s hs => keeps_exitStep (keeps_callOut hQ _ _ _) s hs

omit hQ in
theorem keeps_closeStack {call : Callback → Option Exc → Act Value}
    (h : ∀ c received, KeepsReplaced Q (call c received)) (stack : List Callback) (c : Closing)
    {s : State} (hs : Q s.replaced) : Q (closeStack call stack c s).2.replaced := by
  induction stack generalizing c s with
  | nil => exact hs
  | cons x rest ih =>
    have hcall := h x c.details s hs
    rw [closeStack]
    rcases hrun : call x c.details s with ⟨e | v, s'⟩ <;> rw [hrun] at hcall <;>
      exact ih _ hcall

omit hQ in
theorem stackExit_state (call : Callback → Option Exc → Act Value) (stack : List Callback)
    (received : Option Exc) (s : State) :
    (stackExit call stack received s).2 = (closeStack call stack ⟨received, none, false⟩ s).2 := by
  rw [stackExit]
  rcases closeStack call stack ⟨received, none, false⟩ s with ⟨c, s'⟩
  dsimp only
  split <;> rfl

omit hQ in
theorem giveUp_state (call : Callback → Option Exc → Act Value) (stack : List Callback) (e : Exc)
    (s : State) :
    (giveUp call stack e s).2 = (closeStack call stack ⟨some e, none, false⟩ s).2 := by
  rw [giveUp, ← stackExit_state]
  rcases stackExit call stack (some e) s with ⟨e | b, s'⟩
  · rfl
  · cases b <;> rfl

end Keeps

section Keeps

variable {F : Foreign} {top : Class} {Q : Bool → Prop} (hQ : AssignKeeps top Q)

include hQ

theorem keeps_ownExitStep (key : String) (ownExit : Bool) (received : Option Exc) :
    KeepsReplaced Q (ownExitStep F top key ownExit received) := by
  apply keeps_exitStep
  cases ownExit with
  | false => exact Action.Keeps.pure _
  | true => exact keeps_callOut hQ _ _ _

theorem keeps_exitWith {mode : Mode} {key : String} {ownExit : Bool}
    {bases : List (Option Exc → Act Value)}
    (hbases : ∀ x ∈ bases, ∀ received, KeepsReplaced Q (x received)) (received : Option Exc) :
    KeepsReplaced Q (exitWith F top mode key ownExit bases received) := by
  intro s hs
  have hown := keeps_ownExitStep hQ (F := F) key ownExit received
    { s with resources := update s.resources key .cleared } hs
  rw [exitWith]
  cases hslot : s.resources key with
  | absent => exact hs
  | cleared => exact hown
  | holds stack =>
    dsimp only
    have hcall : ∀ c received, KeepsReplaced Q (callback F top key bases c received) :=
      keeps_callback hQ hbases
    have hclose := keeps_closeStack hcall stack ⟨none, none, false⟩ hown
    rw [← stackExit_state] at hclose
    rcases hrun : stackExit (callback F top key bases) stack none _ with ⟨e | b, s'⟩ <;>
      rwa [hrun] at hclose

mutual

theorem keeps_exit : ∀ (C : Class) (received : Option Exc),
    KeepsReplaced Q (exit F top C received)
  | .mk mode key bases attrs ownEnter ownExit, received => by
    rw [exit]
    exact keeps_exitWith hQ (keeps_exits mode bases) received

theorem keeps_exits (mode : Mode) : ∀ bases : List Class, ∀ x ∈ exits F top mode bases,
    ∀ received, KeepsReplaced Q (x received)
  | [], x, hx, _ => by
    rw [exits] at hx
    cases hx
  | b :: rest, x, hx, received => by
    rw [exits] at hx
    split_ifs at hx
    · cases hx with
      | head => exact keeps_exit b received
      | tail _ hx => exact keeps_exits mode rest x hx received
    · exact keeps_exits mode rest x hx received

end

omit hQ in
theorem keeps_enterAll {entries : List (Act Callback)} (h : ∀ x ∈ entries, KeepsReplaced Q x)
    (stack : List Callback) {s : State} (hs : Q s.replaced) :
    Q (enterAll entries stack s).2.2.replaced := by
  induction entries generalizing stack s with
  | nil => exact hs
  | cons x rest ih =>
    have hx := h x (.head _) s hs
    rw [enterAll]
    rcases hrun : x s with ⟨e | c, s'⟩ <;> rw [hrun] at hx
    · exact hx
    · exact ih (fun y hy => h y (.tail _ hy)) _ hx

omit hQ in
theorem keeps_enterBases {bases : List (Act Value)} (h : ∀ x ∈ bases, KeepsReplaced Q x) (k : Nat) :
    ∀ x ∈ enterBases k bases, KeepsReplaced Q x := by
  induction bases generalizing k with
  | nil => exact fun _ hx => nomatch hx
  | cons b rest ih =>
    intro x hx
    cases hx with
    | head => exact (h b (.head _)).bind fun _ => Action.Keeps.pure _
    | tail _ hx => exact ih (fun y hy => h y (.tail _ hy)) (k + 1) x hx

theorem keeps_enterAttr (mode : Mode) (key name : String) :
    KeepsReplaced Q (enterAttr F top mode key name) := by
  intro s hs
  exact (keeps_enterStep (keeps_callOut hQ _ _ _)).bind (fun _ => Action.Keeps.pure _) s hs

theorem keeps_ownEnterStep (key : String) (ownEnter : Bool) :
    KeepsReplaced Q (ownEnterStep F top key ownEnter) := by
  apply keeps_enterStep
  cases ownEnter with
  | false => exact Action.Keeps.pure _
  | true => exact keeps_callOut hQ _ _ _

theorem keeps_finishEnter {key : String} {ownEnter : Bool}
    {call : Callback → Option Exc → Act Value}
    (hcall : ∀ c received, KeepsReplaced Q (call c received))
    (x : Option Exc × List Callback × State) (hx : Q x.2.2.replaced) :
    Q (finishEnter F top key ownEnter call x).2.replaced := by
  have hgiveUp : ∀ stack e s, Q s.replaced → Q (giveUp call stack e s).2.replaced := by
    intro stack e s hs
    rw [giveUp_state]
    exact keeps_closeStack hcall stack _ hs
  obtain ⟨_ | e, stack, s⟩ := x
  · rw [finishEnter]
    split_ifs
    · exact hgiveUp stack _ s hx
    · have hown := keeps_ownEnterStep hQ (F := F) key ownEnter s hx
      rcases hrun : ownEnterStep F top key ownEnter s with ⟨e | v, s₁⟩ <;> rw [hrun] at hown
      · exact hgiveUp stack _ s₁ hown
      · exact hown
  · exact hgiveUp stack e s hx

theorem keeps_enterWith {mode : Mode} {key : String} {attrs : List String} {ownEnter : Bool}
    {bases : List (Act Value)} {baseExits : List (Option Exc → Act Value)}
    (hbases : ∀ x ∈ bases, KeepsReplaced Q x)
    (hexits : ∀ x ∈ baseExits, ∀ received, KeepsReplaced Q (x received)) :
    KeepsReplaced Q (enterWith F top mode key attrs ownEnter bases baseExits) := by
  intro s hs
  refine keeps_finishEnter hQ (keeps_callback hQ hexits) _ ?_
  refine keeps_enterAll ?_ [] hs
  intro x hx
  rcases List.mem_append.mp hx with hx | hx
  · exact keeps_enterBases hbases 0 x hx
  · obtain ⟨name, -, rfl⟩ := List.mem_map.mp hx
    exact keeps_enterAttr hQ mode key name

mutual

theorem keeps_enter : ∀ C : Class, KeepsReplaced Q (enter F top C)
  | .mk mode key bases attrs ownEnter ownExit => by
    rw [enter]
    exact keeps_enterWith hQ (keeps_enters mode bases) (keeps_exits hQ mode bases)

theorem keeps_enters (mode : Mode) : ∀ bases : List Class, ∀ x ∈ enters F top mode bases,
    KeepsReplaced Q x
  | [], x, hx => by
    rw [enters] at hx
    cases hx
  | b :: rest, x, hx => by
    rw [enters] at hx
    split_ifs at hx
    · cases hx with
      | head => exact keeps_enter b
      | tail _ hx => exact keeps_enters mode rest x hx
    · exact keeps_enters mode rest x hx

end

end Keeps

/-! ## What has been entered -/

/-- The callbacks of bases, and of attributes, in the order they are entered -/
def baseCallbacks : Nat → List Class → List Callback
  | _, [] => []
  | k, _ :: rest => .base k :: baseCallbacks (k + 1) rest

def attrCallbacks (mode : Mode) (attrs : List String) (ms : List Manager) : List Callback :=
  List.zipWith (keep mode) attrs ms

def attrSteps (key : String) (attrs : List String) (ms : List Manager) : List Step :=
  List.zipWith (Step.attr key) attrs ms

mutual

/-- The resources of an object that has been entered, and the steps that did it -/
def Entered (r : String → Slot) : Class → List Step → Prop
  | .mk mode key bases attrs _ _, steps => ∃ below ms, ms.length = attrs.length ∧
      EnteredAll r bases below ∧
      r key = .holds (baseCallbacks 0 bases ++ attrCallbacks mode attrs ms).reverse ∧
      steps = below ++ attrSteps key attrs ms ++ [.own key]

def EnteredAll (r : String → Slot) : List Class → List Step → Prop
  | [], steps => steps = []
  | b :: rest, steps => ∃ xs ys, Entered r b xs ∧ EnteredAll r rest ys ∧ steps = xs ++ ys

end

/-- None of the classes holds resources. -/
def Out (ks : List String) (r : String → Slot) : Prop := ∀ k ∈ ks, (r k).isHeld = false

/-- The resources of other classes stay as they are. -/
def Frame (ks : List String) (r r' : String → Slot) : Prop := ∀ k, k ∉ ks → r' k = r k

/-- Attributes that will be looked up again are what they were. -/
def Tracks (top : Class) (s : State) : Prop :=
  top.mode = .async → ∀ key name m, .attr key name m ∈ s.opens → s.attrs name = m

mutual

theorem Entered.congr {r r' : String → Slot} : ∀ {C : Class} {steps : List Step},
    (∀ k ∈ keys C, r' k = r k) → Entered r C steps → Entered r' C steps
  | .mk mode key bases attrs ownEnter ownExit, steps, hr, h => by
    rw [keys_mk] at hr
    rw [Entered] at h ⊢
    obtain ⟨below, ms, hlen, hbelow, hkey, hsteps⟩ := h
    refine ⟨below, ms, hlen, ?_, ?_, hsteps⟩
    · exact EnteredAll.congr (fun k hk => hr k (.tail _ hk)) hbelow
    · rw [hr key (.head _), hkey]

theorem EnteredAll.congr {r r' : String → Slot} : ∀ {bases : List Class} {steps : List Step},
    (∀ k ∈ keysOf bases, r' k = r k) → EnteredAll r bases steps → EnteredAll r' bases steps
  | [], steps, _, h => by
    rw [EnteredAll] at h ⊢
    exact h
  | b :: rest, steps, hr, h => by
    rw [keysOf_cons] at hr
    rw [EnteredAll] at h ⊢
    obtain ⟨xs, ys, hxs, hys, hsteps⟩ := h
    refine ⟨xs, ys, ?_, ?_, hsteps⟩
    · exact Entered.congr (fun k hk => hr k (List.mem_append_left _ hk)) hxs
    · exact EnteredAll.congr (fun k hk => hr k (List.mem_append_right _ hk)) hys

end

/-! ## What code outside does to the state -/

theorem assign_frame (top : Class) (s : State) (x : String × Manager) :
    (assign top s x).resources = s.resources ∧ (assign top s x).log = s.log ∧
      (assign top s x).opens = s.opens := by
  rw [assign]
  split_ifs <;> exact ⟨rfl, rfl, rfl⟩

variable {F : Foreign} {top : Class}

theorem tracks_assign {s : State} (h : s.replaced = true ∨ Tracks top s) (x : String × Manager) :
    (assign top s x).replaced = true ∨ Tracks top (assign top s x) := by
  rcases h with h | h
  · exact .inl (assignKeeps_true s x h)
  rw [assign]
  split_ifs
  · exact .inr h
  · by_cases hopen : top.mode = .async ∧ s.opens.any (Step.isAttr x.1) = true
    · left
      simp [hopen.1, hopen.2]
    · -- the attribute is not one of them
      right
      intro hasync key name m hmem
      have hne : name ≠ x.1 := by
        intro heq
        refine hopen ⟨hasync, List.any_eq_true.mpr ⟨_, hmem, ?_⟩⟩
        simp [Step.isAttr, heq]
      dsimp only
      rw [Function.update_of_ne hne]
      exact h hasync key name m hmem

theorem callOut_frame (F : Foreign) (top : Class) (site : Site) (phase : Phase) (received : Option Exc) (s : State) :
    (callOut F top site phase received s).2.resources = s.resources ∧
      (callOut F top site phase received s).2.log = s.log ∧
      (callOut F top site phase received s).2.opens = s.opens := by
  rw [callOut]
  dsimp only
  generalize F.assigns site phase s.log.length = xs
  induction xs generalizing s with
  | nil => exact ⟨rfl, rfl, rfl⟩
  | cons x xs ih =>
    obtain ⟨hresources, hlog, hopens⟩ := ih (assign top s x)
    obtain ⟨hresources', hlog', hopens'⟩ := assign_frame top s x
    exact ⟨hresources.trans hresources', hlog.trans hlog', hopens.trans hopens'⟩

theorem tracks_callOut (site : Site) (phase : Phase) (received : Option Exc) {s : State}
    (h : s.replaced = true ∨ Tracks top s) :
    (callOut F top site phase received s).2.replaced = true ∨
      Tracks top (callOut F top site phase received s).2 := by
  rw [callOut]
  dsimp only
  generalize F.assigns site phase s.log.length = xs
  induction xs generalizing s with
  | nil => exact h
  | cons x xs ih => exact ih (tracks_assign h x)

/-- A call that changes nothing but attributes, and marks those that matter -/
def Harmless (top : Class) (call : Act Value) : Prop :=
  ∀ s, (call s).2.resources = s.resources ∧ (call s).2.log = s.log ∧ (call s).2.opens = s.opens ∧
    (s.replaced = true ∨ Tracks top s → (call s).2.replaced = true ∨ Tracks top (call s).2)

theorem harmless_callOut (site : Site) (phase : Phase) (received : Option Exc) :
    Harmless top (callOut F top site phase received) := by
  intro s
  obtain ⟨hresources, hlog, hopens⟩ := callOut_frame F top site phase received s
  exact ⟨hresources, hlog, hopens, tracks_callOut site phase received⟩

theorem harmless_ite {call : Act Value} (h : Harmless top call) (b : Bool) (v : Value) :
    Harmless top (if b then call else pure v) := by
  cases b with
  | false => exact fun s => ⟨rfl, rfl, rfl, id⟩
  | true => exact h

theorem exitStep_spec {x : Step} {call : Act Value} (hcall : Harmless top call) {s : State}
    {rest : List Step} (hopens : s.opens = x :: rest) (h : Tracks top s) :
    (exitStep x call s).2.resources = s.resources ∧
      (exitStep x call s).2.log = s.log ++ [.exited x] ∧ (exitStep x call s).2.opens = rest ∧
      ((exitStep x call s).2.replaced = true ∨ Tracks top (exitStep x call s).2) := by
  obtain ⟨hresources, hlog, hopens', htracks⟩ := hcall { s with opens := s.opens.erase x }
  have herase : s.opens.erase x = rest := by rw [hopens, List.erase_cons_head]
  rw [exitStep]
  refine ⟨hresources, ?_, hopens'.trans herase, ?_⟩
  · dsimp only
    rw [hlog]
  · refine htracks (.inr ?_)
    intro hasync key name m hmem
    refine h hasync key name m ?_
    rw [hopens]
    rw [← herase]
    exact .tail _ (by rwa [herase] at hmem ⊢)

/-! ## Closing a stack -/

theorem closeStack_append (call : Callback → Option Exc → Act Value) (xs ys : List Callback)
    (c : Closing) (s : State) :
    closeStack call (xs ++ ys) c s
      = closeStack call ys (closeStack call xs c s).1 (closeStack call xs c s).2 := by
  induction xs generalizing c s with
  | nil => rfl
  | cons x xs ih =>
    rw [List.cons_append, closeStack, closeStack]
    rcases call x c.details s with ⟨e | v, s'⟩ <;> exact ih _ _

/-- The steps have been exited in reverse, and nothing else. -/
structure Closed (top : Class) (ks : List String) (steps rest : List Step) (s s' : State) :
    Prop where
  log : s'.log = s.log ++ steps.reverse.map .exited
  opens : s'.opens = rest
  out : Out ks s'.resources
  frame : Frame ks s.resources s'.resources
  tracks : Tracks top s'

theorem closed_nil {s : State} (h : Tracks top s) : Closed top [] [] s.opens s s :=
  ⟨(List.append_nil _).symm, rfl, (fun _ h => nomatch h), fun _ _ => rfl, h⟩

/-- First the later steps, then the earlier. -/
theorem Closed.append {ks ks' : List String} {xs ys rest : List Step} {s s₁ s₂ : State}
    (hys : Closed top ks' ys (xs.reverse ++ rest) s s₁) (hxs : Closed top ks xs rest s₁ s₂)
    (hdisjoint : ∀ k ∈ ks', k ∉ ks) : Closed top (ks ++ ks') (xs ++ ys) rest s s₂ := by
  refine ⟨?_, hxs.opens, ?_, ?_, hxs.tracks⟩
  · rw [hxs.log, hys.log, List.reverse_append, List.map_append, List.append_assoc]
  · intro k hk
    rcases List.mem_append.mp hk with hk | hk
    · exact hxs.out k hk
    · rw [hxs.frame k (hdisjoint k hk)]
      exact hys.out k hk
  · intro k hk
    rw [List.mem_append, not_or] at hk
    rw [hxs.frame k hk.1, hys.frame k hk.2]

/-- Closing some callbacks exits some steps, unless an attribute has been replaced. -/
def Closes (top : Class) (call : Callback → Option Exc → Act Value) (stack : List Callback)
    (ks : List String) (steps rest : List Step) (s : State) : Prop :=
  ∀ c, (closeStack call stack c s).2.replaced = true ∨
    Closed top ks steps rest s (closeStack call stack c s).2

theorem Closes.append {call : Callback → Option Exc → Act Value}
    (hkeeps : ∀ c received, KeepsReplaced (· = true) (call c received)) {later earlier : List Callback}
    {ks ks' : List String} {xs ys rest : List Step} {s : State}
    (hlater : Closes top call later ks' ys (xs.reverse ++ rest) s)
    (hearlier : ∀ s₁, Closed top ks' ys (xs.reverse ++ rest) s s₁ →
      Closes top call earlier ks xs rest s₁)
    (hdisjoint : ∀ k ∈ ks', k ∉ ks) :
    Closes top call (later ++ earlier) (ks ++ ks') (xs ++ ys) rest s := by
  intro c
  rw [closeStack_append]
  rcases hlater c with hreplaced | hclosed
  · exact .inl (keeps_closeStack hkeeps earlier _ hreplaced)
  · rcases hearlier _ hclosed (closeStack call later c s).1 with hreplaced | hclosed'
    · exact .inl hreplaced
    · exact .inr (hclosed.append hclosed' hdisjoint)

theorem closeStack_single (call : Callback → Option Exc → Act Value) (x : Callback) (c : Closing)
    (s : State) : (closeStack call [x] c s).2 = (call x c.details s).2 := by
  rw [closeStack]
  rcases call x c.details s with ⟨e | v, s'⟩ <;> rfl

section Stack

variable {key : String} {handlers : List (Option Exc → Act Value)}
  (hkeeps : ∀ x ∈ handlers, ∀ received, KeepsReplaced (· = true) (x received))

include hkeeps

theorem closes_attr (name : String) (m : Manager) {rest : List Step} {s : State}
    (hopens : s.opens = .attr key name m :: rest) (h : Tracks top s) :
    Closes top (callback F top key handlers) [keep top.mode name m] [] [.attr key name m] rest s := by
  intro c
  rw [closeStack_single]
  -- the manager on the stack is the one the attribute has
  have hcall : callback F top key handlers (keep top.mode name m) c.details s
      = exitStep (.attr key name m) (callOut F top (.attr key name) .exit c.details) s := by
    cases hmode : top.mode with
    | sync => rfl
    | async =>
      have hattr : s.attrs name = m := by
        apply h hmode key name m
        rw [hopens]
        exact .head _
      rw [← hattr]
      rfl
  obtain ⟨hresources, hlog, hopens', htracks⟩ :=
    exitStep_spec (harmless_callOut (F := F) (.attr key name) .exit c.details) hopens h
  rw [hcall]
  refine htracks.imp_right fun htracks => ⟨hlog, hopens', (fun _ h => nomatch h), ?_,
    htracks⟩
  intro k _
  rw [hresources]

theorem closes_attrs {attrs : List String} {ms : List Manager} (hlen : ms.length = attrs.length)
    {rest : List Step} {s : State} (hopens : s.opens = (attrSteps key attrs ms).reverse ++ rest)
    (h : Tracks top s) :
    Closes top (callback F top key handlers) (attrCallbacks top.mode attrs ms).reverse []
      (attrSteps key attrs ms) rest s := by
  induction attrs generalizing ms rest s with
  | nil =>
    intro c
    refine .inr ?_
    rw [show attrSteps key [] ms = [] from rfl, List.reverse_nil, List.nil_append] at hopens
    rw [← hopens]
    exact closed_nil h
  | cons name attrs ih =>
    obtain _ | ⟨m, ms⟩ := ms
    · cases hlen
    rw [show attrCallbacks top.mode (name :: attrs) (m :: ms)
        = keep top.mode name m :: attrCallbacks top.mode attrs ms from rfl,
      show attrSteps key (name :: attrs) (m :: ms)
        = [.attr key name m] ++ attrSteps key attrs ms from rfl, List.reverse_cons]
    rw [show attrSteps key (name :: attrs) (m :: ms)
        = [.attr key name m] ++ attrSteps key attrs ms from rfl, List.reverse_append,
      List.append_assoc] at hopens
    have hlater := ih (Nat.succ.inj hlen) hopens h
    rw [← List.append_nil ([] : List String)]
    refine Closes.append (keeps_callback assignKeeps_true hkeeps) hlater ?_ (fun _ h => nomatch h)
    intro s₁ hclosed
    exact closes_attr hkeeps name m hclosed.opens hclosed.tracks

/-- What the exits of a class do to an object that has been entered -/
def Exits (F : Foreign) (top : Class) (C : Class) : Prop :=
  ∀ received s steps rest, Entered s.resources C steps → s.opens = steps.reverse ++ rest →
    Tracks top s → (exit F top C received s).2.replaced = true ∨
      Closed top (keys C) steps rest s (exit F top C received s).2

theorem closes_bases {bases : List Class} (hexits : ∀ b ∈ bases, Exits F top b)
    (hnodup : (keysOf bases).Nodup) {k : Nat}
    (hhandlers : ∀ i b, bases[i]? = some b → handlers[k + i]? = some (exit F top b))
    {steps rest : List Step} {s : State} (hentered : EnteredAll s.resources bases steps)
    (hopens : s.opens = steps.reverse ++ rest) (h : Tracks top s) :
    Closes top (callback F top key handlers) (baseCallbacks k bases).reverse (keysOf bases)
      steps rest s := by
  induction bases generalizing k steps rest s with
  | nil =>
    rw [EnteredAll] at hentered
    subst hentered
    intro c
    refine .inr ?_
    rw [List.reverse_nil, List.nil_append] at hopens
    rw [← hopens, keysOf_nil]
    exact closed_nil h
  | cons b bases ih =>
    rw [EnteredAll] at hentered
    obtain ⟨xs, ys, hxs, hys, rfl⟩ := hentered
    rw [keysOf_cons] at hnodup ⊢
    obtain ⟨-, hnodup', hdisjoint⟩ := List.nodup_append.mp hnodup
    rw [List.reverse_append, List.append_assoc] at hopens
    rw [baseCallbacks, List.reverse_cons]
    have hdisjoint' : ∀ k ∈ keysOf bases, k ∉ keys b := fun k hk hk' => hdisjoint k hk' k hk rfl
    refine Closes.append (keeps_callback assignKeeps_true hkeeps)
      (ih (fun c hc => hexits c (.tail _ hc)) hnodup' ?_ hys hopens h) ?_ hdisjoint'
    · intro i c hc
      have := hhandlers (i + 1) c hc
      rwa [Nat.add_assoc, Nat.add_comm 1]
    · intro s₁ hclosed c
      have hhandler := hhandlers 0 b rfl
      rw [closeStack_single, callback, show handlers[k]? = some (exit F top b) from hhandler]
      refine hexits b (.head _) c.details s₁ xs rest ?_ hclosed.opens hclosed.tracks
      refine hxs.congr fun k hk => hclosed.frame k fun hk' => hdisjoint' k hk' hk

/-- Bases and attributes that have been entered are exited. -/
theorem closes_entered {bases : List Class} (hexits : ∀ b ∈ bases, Exits F top b)
    (hnodup : (keysOf bases).Nodup)
    (hhandlers : ∀ (i : Nat) b, bases[i]? = some b → handlers[i]? = some (exit F top b))
    {attrs : List String} {ms : List Manager} (hlen : ms.length = attrs.length)
    {below rest : List Step} {s : State} (hentered : EnteredAll s.resources bases below)
    (hopens : s.opens = (below ++ attrSteps key attrs ms).reverse ++ rest) (h : Tracks top s) :
    Closes top (callback F top key handlers)
      (baseCallbacks 0 bases ++ attrCallbacks top.mode attrs ms).reverse (keysOf bases)
      (below ++ attrSteps key attrs ms) rest s := by
  rw [List.reverse_append, List.append_assoc] at hopens
  rw [List.reverse_append, ← List.append_nil (keysOf bases)]
  refine Closes.append (keeps_callback assignKeeps_true hkeeps)
    (closes_attrs hkeeps hlen hopens h) ?_ (fun _ h => nomatch h)
  intro s₁ hclosed
  refine closes_bases hkeeps hexits hnodup (k := 0) ?_ ?_ hclosed.opens hclosed.tracks
  · intro i b hb
    rw [Nat.zero_add]
    exact hhandlers i b hb
  · exact EnteredAll.congr (fun k _ => hclosed.frame k fun h => nomatch h) hentered

end Stack

/-! ## Exit -/

theorem exitWith_state {mode : Mode} {key : String} {ownExit : Bool}
    {bases : List (Option Exc → Act Value)} {received : Option Exc} {s : State}
    {stack : List Callback} (h : s.resources key = .holds stack) :
    (exitWith F top mode key ownExit bases received s).2
      = (closeStack (callback F top key bases) stack ⟨none, none, false⟩
          (ownExitStep F top key ownExit received
            { s with resources := update s.resources key .cleared }).2).2 := by
  rw [exitWith, h, ← stackExit_state]
  dsimp only
  rcases stackExit (callback F top key bases) stack none _ with ⟨e | b, s'⟩ <;> rfl

theorem exits_mk {key : String} {bases : List Class} {attrs : List String} {ownEnter ownExit : Bool}
    (hu : ∀ b ∈ bases, Uniform top.mode b) (hnodup : (key :: keysOf bases).Nodup)
    (hexits : ∀ b ∈ bases, Exits F top b) :
    Exits F top (.mk top.mode key bases attrs ownEnter ownExit) := by
  intro received s steps rest hentered hopens h
  rw [Entered] at hentered
  obtain ⟨below, ms, hlen, hbelow, hkey, rfl⟩ := hentered
  obtain ⟨hnotMem, hnodup'⟩ := List.nodup_cons.mp hnodup
  rw [List.reverse_append, List.reverse_singleton, List.singleton_append, List.cons_append] at hopens
  have hkeeps : ∀ x ∈ bases.map (exit F top), ∀ received, KeepsReplaced (· = true) (x received) := by
    intro x hx received
    obtain ⟨b, -, rfl⟩ := List.mem_map.mp hx
    exact keeps_exit assignKeeps_true b received
  rw [exit, exits_eq F top hu, exitWith_state hkey]
  obtain ⟨hresources, hlog, hopens₁, htracks⟩ := exitStep_spec
    (harmless_ite (harmless_callOut (F := F) (.own key) .exit received) ownExit .none)
    (s := { s with resources := update s.resources key .cleared }) hopens h
  rw [ownExitStep]
  generalize hs₁ : (exitStep (.own key)
    (if ownExit then callOut F top (.own key) .exit received else pure .none)
    { s with resources := update s.resources key .cleared }).2 = s₁
    at hresources hlog hopens₁ htracks
  dsimp only at hresources hlog
  rcases htracks with hreplaced | htracks
  · exact .inl (keeps_closeStack (keeps_callback assignKeeps_true hkeeps) _ _ hreplaced)
  have hbelow₁ : EnteredAll s₁.resources bases below := by
    refine EnteredAll.congr (fun k hk => ?_) hbelow
    rw [hresources, Function.update_of_ne]
    rintro rfl
    exact hnotMem hk
  have hhandlers : ∀ (i : Nat) b, bases[i]? = some b →
      (bases.map (exit F top))[i]? = some (exit F top b) := by
    intro i b hb
    rw [List.getElem?_map, hb, Option.map_some]
  refine (closes_entered hkeeps hexits hnodup' hhandlers hlen hbelow₁ hopens₁ htracks _).imp_right
    fun hclosed => ?_
  rw [keys_mk]
  refine ⟨?_, hclosed.opens, ?_, ?_, hclosed.tracks⟩
  · rw [hclosed.log, hlog]
    simp
  · intro k hk
    cases hk with
    | head =>
      rw [hclosed.frame key hnotMem, hresources, Function.update_self]
      rfl
    | tail _ hk => exact hclosed.out k hk
  · intro k hk
    rw [List.mem_cons, not_or] at hk
    rw [hclosed.frame k hk.2, hresources, Function.update_of_ne hk.1]

mutual

/-- Leaving an object that has been entered exits what was entered, in reverse. -/
theorem exit_spec : ∀ {C : Class}, Uniform top.mode C → (keys C).Nodup → Exits F top C
  | .mk mode key bases attrs ownEnter ownExit, hu, hnodup => by
    rw [keys_mk] at hnodup
    obtain rfl : mode = top.mode := hu.mode_eq
    exact exits_mk (fun b hb => hu.base hb) hnodup
      (exits_spec (fun b hb => hu.base hb) (List.nodup_cons.mp hnodup).2)

theorem exits_spec : ∀ {bases : List Class}, (∀ b ∈ bases, Uniform top.mode b) →
    (keysOf bases).Nodup → ∀ b ∈ bases, Exits F top b
  | [], _, _, _, hb => nomatch hb
  | b :: rest, hu, hnodup, c, hc => by
    rw [keysOf_cons] at hnodup
    obtain ⟨hnodup₁, hnodup₂, -⟩ := List.nodup_append.mp hnodup
    cases hc with
    | head => exact exit_spec (hu b (.head _)) hnodup₁
    | tail _ hc => exact exits_spec (fun d hd => hu d (.tail _ hd)) hnodup₂ c hc

end

end Urnest.CmClass
