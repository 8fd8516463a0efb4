import Urnest.Lib.Asking

/-!
# Remembered answers

`evalMemo` answers the questions of a recursion with a table at hand. A question with a key
is looked up before its body is followed, and entered behind it; one without a key is asked
again each time.

What every body keeps holds of the answers in the table, too (`evalMemo_keeps`), where the
questions with one key agree on it. Where each key has one question, the table changes no
answer (`Remembered.answers_iff`).
-/

namespace Lib

open Asking

variable {Q A α K : Type} [DecidableEq K]

def Asking.runMemo (f : Q → Dict K A → Option (A × Dict K A)) :
    Asking Q A α → Dict K A → Option (α × Dict K A)
  | ret a, c => some (a, c)
  | ask q k, c => (f q c).bind fun r => (k r.1).runMemo f r.2

/-- An entry is made once: one that is there stays, and is the answer. -/
def enter (k : K) (r : A × Dict K A) : A × Dict K A :=
  match r.2.get? k with
  | some a => (a, r.2)
  | none => (r.1, r.2.set k r.1)

def evalMemo (body : Q → Asking Q A A) (key : Q → Option K) :
    Nat → Q → Dict K A → Option (A × Dict K A)
  | 0, _, _ => none
  | n + 1, q, c =>
    match key q with
    | none => (body q).runMemo (evalMemo body key n) c
    | some k =>
      match c.get? k with
      | some a => some (a, c)
      | none => ((body q).runMemo (evalMemo body key n) c).map (enter k)

/-- The tables that come of questions in `R`. -/
inductive Remembered (body : Q → Asking Q A A) (key : Q → Option K) (R : Q → Prop) :
    Dict K A → Prop where
  | empty : Remembered body key R Dict.empty
  | step {c c' : Dict K A} {q : Q} {a : A} {n : Nat} : Remembered body key R c → R q →
    evalMemo body key n q c = some (a, c') → Remembered body key R c'

/-- What is in the table is as `P` says, of every question in `R` that it answers. -/
def Kept (key : Q → Option K) (R : Q → Prop) (P : Q → A → Prop) (c : Dict K A) : Prop :=
  ∀ k a, c.get? k = some a → ∀ q, R q → key q = some k → P q a

variable {body : Q → Asking Q A A} {key : Q → Option K} {R : Q → Prop} {P : Q → A → Prop}

theorem kept_empty : Kept key R P (Dict.empty : Dict K A) := fun _ _ h => nomatch h

/-- Questions with one key agree on `P`. -/
def Agree (key : Q → Option K) (R : Q → Prop) (P : Q → A → Prop) : Prop :=
  ∀ ⦃q q' : Q⦄ ⦃k : K⦄ ⦃a : A⦄, R q → R q' → key q = some k → key q' = some k → P q a → P q' a

theorem kept_enter {c : Dict K A} {k : K} {q : Q} {a : A} (hagree : Agree key R P) (hq : R q)
    (hkey : key q = some k) (hc : Kept key R P c) (ha : P q a) :
    P q (enter k (a, c)).1 ∧ Kept key R P (enter k (a, c)).2 := by
  rw [enter]
  rcases hget : c.get? k with _ | b
  · refine ⟨ha, fun k' a' hget' q' hq' hkey' => ?_⟩
    simp only [Dict.get?_set] at hget'
    by_cases hk : k' = k
    · rw [if_pos hk] at hget'
      cases hget'
      exact hagree hq hq' hkey (hk ▸ hkey') ha
    · rw [if_neg hk] at hget'
      exact hc k' a' hget' q' hq' hkey'
  · exact ⟨hc k b hget q hq hkey, hc⟩

theorem runMemo_keeps {f : Q → Dict K A → Option (A × Dict K A)}
    (hf : ∀ q c a c', R q → Kept key R P c → f q c = some (a, c') → P q a ∧ Kept key R P c')
    {x : Asking Q A α} {post : α → Prop} (hdescends : x.Descends P R) (hends : x.Ends P post)
    {c c' : Dict K A} {a : α} (hc : Kept key R P c) (h : x.runMemo f c = some (a, c')) :
    post a ∧ Kept key R P c' := by
  induction x generalizing c with
  | ret b =>
    cases h
    exact ⟨hends, hc⟩
  | ask q k ih =>
    obtain ⟨⟨b, d⟩, hb, hk⟩ := Option.bind_eq_some_iff.mp h
    obtain ⟨hP, hd⟩ := hf q c b d hdescends.1 hc hb
    exact ih b (hdescends.2 b hP) (hends b hP) hd hk

/-- What every body keeps holds of the answers, remembered or not. -/
theorem evalMemo_keeps (hdescends : ∀ q, R q → (body q).Descends P R)
    (hends : ∀ q, R q → (body q).Ends P (P q)) (hagree : Agree key R P) {n : Nat} {q : Q} {a : A}
    {c c' : Dict K A} (hq : R q) (hc : Kept key R P c)
    (h : evalMemo body key n q c = some (a, c')) : P q a ∧ Kept key R P c' := by
  induction n generalizing q a c c' with
  | zero => cases h
  | succ n ih =>
    rw [evalMemo] at h
    rcases hkey : key q with _ | k
    · rw [hkey] at h
      exact runMemo_keeps (fun _ _ _ _ => ih) (hdescends q hq) (hends q hq) hc h
    · rw [hkey] at h
      rcases hget : c.get? k with _ | b
      · simp only [hget] at h
        obtain ⟨⟨b, d⟩, hrun, henter⟩ := Option.map_eq_some_iff.mp h
        obtain ⟨hb, hd⟩ := runMemo_keeps (fun _ _ _ _ => ih) (hdescends q hq) (hends q hq) hc hrun
        obtain ⟨ha, hc'⟩ := kept_enter hagree hq hkey hd hb
        rw [henter] at ha hc'
        exact ⟨ha, hc'⟩
      · simp only [hget] at h
        cases h
        exact ⟨hc k _ hget q hq hkey, hc⟩

theorem Remembered.kept (hdescends : ∀ q, R q → (body q).Descends P R)
    (hends : ∀ q, R q → (body q).Ends P (P q)) (hagree : Agree key R P) {c : Dict K A}
    (hc : Remembered body key R c) : Kept key R P c := by
  induction hc with
  | empty => exact kept_empty
  | step _ hq h ih => exact (evalMemo_keeps hdescends hends hagree hq ih h).2

/-! ## The table changes no answer -/

theorem ends_answers (x : Asking Q A α) : x.Ends (Answers body) (Runs body x) := by
  induction x with
  | ret a => exact runs_ret.mpr rfl
  | ask q k ih => exact fun a ha => (ih a).mono fun b hb => runs_ask.mpr ⟨a, ha, hb⟩

theorem ends_body (q : Q) : (body q).Ends (Answers body) (Answers body q) :=
  (ends_answers (body q)).mono fun _ ha => answers_iff.mpr ha

omit [DecidableEq K] in
theorem agree_answers (h : ∀ ⦃q q' k⦄, R q → R q' → key q = some k → key q' = some k → q = q') :
    Agree key R (Answers body) :=
  fun _ _ _ _ hq hq' hkey hkey' ha => h hq hq' hkey hkey' ▸ ha

/-- Where each key has one question, what is answered without the table is answered with it. -/
theorem exists_evalMemo (hdescends : ∀ q, R q → (body q).Descends (Answers body) R)
    (h : ∀ ⦃q q' k⦄, R q → R q' → key q = some k → key q' = some k → q = q') {n : Nat} {q : Q}
    {a : A} {c : Dict K A} (hq : R q) (hc : Kept key R (Answers body) c)
    (ha : eval body n q = some a) : ∃ c', evalMemo body key n q c = some (a, c') := by
  suffices hsome : ∃ b c', evalMemo body key n q c = some (b, c') by
    obtain ⟨b, c', hb⟩ := hsome
    obtain ⟨hanswer, -⟩ :=
      evalMemo_keeps hdescends (fun q _ => ends_body q) (agree_answers h) hq hc hb
    obtain rfl := hanswer.unique ⟨n, ha⟩
    exact ⟨c', hb⟩
  induction n generalizing q a c with
  | zero => cases ha
  | succ n ih =>
    have hrun : ∀ (x : Asking Q A A) (c : Dict K A) (a : A), x.Descends (Answers body) R →
        Kept key R (Answers body) c → x.run (eval body n) = some a →
        ∃ b c', x.runMemo (evalMemo body key n) c = some (b, c') := by
      intro x
      induction x with
      | ret b => exact fun c _ _ _ _ => ⟨b, c, rfl⟩
      | ask q k ihk =>
        intro c a hx hc hrun
        obtain ⟨b, hb, hk⟩ := Option.bind_eq_some_iff.mp hrun
        obtain ⟨b', d, hb'⟩ := ih hx.1 hc hb
        obtain ⟨hanswer, hd⟩ :=
          evalMemo_keeps hdescends (fun q _ => ends_body q) (agree_answers h) hx.1 hc hb'
        obtain rfl := hanswer.unique ⟨n, hb⟩
        obtain ⟨e, c', he⟩ := ihk b' d a (hx.2 b' hanswer) hd hk
        exact ⟨e, c', Option.bind_eq_some_iff.mpr ⟨(b', d), hb', he⟩⟩
    obtain ⟨b, d, hb⟩ := hrun (body q) c a (hdescends q hq) hc ha
    rw [evalMemo]
    rcases hkey : key q with _ | k
    · exact ⟨b, d, hb⟩
    · rcases hget : c.get? k with _ | e
      · simp only [hget]
        exact ⟨_, _, Option.map_eq_some_iff.mpr ⟨(b, d), hb, rfl⟩⟩
      · simp only [hget]
        exact ⟨_, _, rfl⟩

/-- Where each key has one question, the table changes no answer. -/
theorem Remembered.answers_iff (hdescends : ∀ q, R q → (body q).Descends (Answers body) R)
    (h : ∀ ⦃q q' k⦄, R q → R q' → key q = some k → key q' = some k → q = q') {c : Dict K A}
    (hc : Remembered body key R c) {q : Q} (hq : R q) {a : A} :
    (∃ n c', evalMemo body key n q c = some (a, c')) ↔ Answers body q a := by
  have hkept := hc.kept hdescends (fun q _ => ends_body q) (agree_answers h)
  refine ⟨fun ⟨n, c', hn⟩ => ?_, fun ⟨n, hn⟩ => ?_⟩
  · exact (evalMemo_keeps hdescends (fun q _ => ends_body q) (agree_answers h) hq hkept hn).1
  · obtain ⟨c', hc'⟩ := exists_evalMemo hdescends h hq hkept hn
    exact ⟨n, c', hc'⟩

end Lib
