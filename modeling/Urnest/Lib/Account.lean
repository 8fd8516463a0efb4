import Urnest.Lib.Run

/-!
# Accounts of runs

An `Account` tells of a run, without running it, under what condition it does not
die and what its result shows. Accounts are put together the way runs are, and
`Describes` is kept by that (`Describes.bind`), so the account of a long run is read
off the accounts of its parts; the condition comes out as a conjunction of the
conditions met on the way.
-/

namespace Lib

universe u

/-- What can be told of a run: when it is safe, and what it then shows, if it returns. -/
@[ext] structure Account (β : Type u) where
  Safe : Prop
  shows? : Option β

namespace Account

variable {α β γ ε φ π ι : Type u}

/-- It returns, showing `b`. -/
def done (b : β) : Account β := ⟨True, some b⟩

/-- It throws. -/
def stop : Account β := ⟨True, none⟩

/-- It returns, showing `b`, or dies. -/
def require (p : Prop) (b : β) : Account β := ⟨p, some b⟩

/-- One after the other; the second depends on what the first shows. -/
def bind (a : Account β) (f : β → Account γ) : Account γ where
  Safe := a.Safe ∧ ∀ b, a.shows? = some b → (f b).Safe
  shows? := a.shows?.bind fun b => (f b).shows?

@[simp] theorem done_bind (b : β) (f : β → Account γ) : (done b).bind f = f b := by
  ext
  · simp [Account.bind, done]
  · simp [Account.bind, done]

@[simp] theorem stop_bind (f : β → Account γ) : (stop : Account β).bind f = stop := by
  ext
  · simp [Account.bind, stop]
  · simp [Account.bind, stop]

/-- It throws unless `p`. -/
def guard (p : Prop) [Decidable p] (a : Account β) : Account β := if p then a else stop

/-- The account is true of the run `x`, whose result is looked at through `view`. -/
structure Describes (a : Account β) (view : α → β) (x : Run ε φ α) : Prop where
  safe : Run.Survives x ↔ a.Safe
  shows : a.Safe → ∀ b, a.shows? = some b ↔ ∃ r, x = .ok r ∧ view r = b

theorem bind_assoc {δ : Type u} (a : Account β) (f : β → Account γ) (g : γ → Account δ) :
    (a.bind f).bind g = a.bind fun b => (f b).bind g := by
  ext
  · simp only [bind, Option.bind_eq_some_iff]
    constructor
    · rintro ⟨⟨ha, hf⟩, hg⟩
      exact ⟨ha, fun b hb => ⟨hf b hb, fun c hc => hg c ⟨b, hb, hc⟩⟩⟩
    · rintro ⟨ha, h⟩
      refine ⟨⟨ha, fun b hb => (h b hb).1⟩, ?_⟩
      rintro c ⟨b, hb, hc⟩
      exact (h b hb).2 c hc
  · simp only [bind, Option.bind_assoc]

theorem guard_bind (p : Prop) [Decidable p] (a : Account β) (f : β → Account γ) :
    (a.guard p).bind f = (a.bind f).guard p := by
  by_cases hp : p
  · simp only [guard, if_pos hp]
  · simp only [guard, if_neg hp, stop_bind]

variable {a : Account β} {view : α → β} {x : Run ε φ α}

theorem describes_ok {b : β} {r : α} (h : view r = b) :
    (done b).Describes view (.ok r : Run ε φ α) where
  safe := Iff.rfl
  shows _ b' := by
    constructor
    · intro hb
      exact ⟨r, rfl, h.trans (Option.some.inj hb)⟩
    · rintro ⟨r', hr, rfl⟩
      cases hr
      exact congrArg some h.symm

theorem describes_throws (view : α → β) (e : ε) :
    (stop : Account β).Describes view (.throws e : Run ε φ α) where
  safe := Iff.rfl
  shows _ b := by
    constructor
    · intro h
      cases h
    · rintro ⟨r, hr, -⟩
      cases hr

/-- A run that returns `r` where it does not die. -/
theorem describes_require {p : Prop} {r : α} {b : β} (h : p → x = .ok r) (hb : view r = b)
    (hp : Run.Survives x → p) : (require p b).Describes view x where
  safe := ⟨hp, fun hp => by rw [h hp]; trivial⟩
  shows hp b := by
    rw [h hp]
    exact (describes_ok hb).shows trivial b

/-- A part that survives returns what its account shows. -/
theorem Describes.exists_ok (h : a.Describes view x) (ha : a.Safe) {b : β}
    (hb : a.shows? = some b) : ∃ r, x = .ok r ∧ view r = b :=
  (h.shows ha b).mp hb

/-- The rest of a run is described where the first part returned. -/
theorem Describes.bind_of_ok {δ : Type u} {f : β → Account γ} {g : α → Run ε φ δ}
    {view' : δ → γ} (h : a.Describes view x)
    (hf : ∀ r, x = .ok r → (f (view r)).Describes view' (g r)) :
    (a.bind f).Describes view' (x >>= g) where
  safe := by
    rw [Run.survives_bind, h.safe]
    refine and_congr_right fun ha => ?_
    constructor
    · intro hg b hb
      obtain ⟨r, hr, rfl⟩ := h.exists_ok ha hb
      exact (hf r hr).safe.mp (hg r hr)
    · intro hsafe r hr
      exact (hf r hr).safe.mpr (hsafe _ ((h.shows ha _).mpr ⟨r, hr, rfl⟩))
  shows := by
    rintro ⟨ha, hsafe⟩ c
    simp only [Account.bind, Option.bind_eq_some_iff, Run.bind_eq_ok]
    constructor
    · rintro ⟨b, hb, hc⟩
      obtain ⟨r, hr, rfl⟩ := h.exists_ok ha hb
      obtain ⟨d, hd, hview⟩ := ((hf r hr).shows (hsafe _ hb) c).mp hc
      exact ⟨d, ⟨r, hr, hd⟩, hview⟩
    · rintro ⟨d, ⟨r, hr, hd⟩, hview⟩
      have hb := (h.shows ha _).mpr ⟨r, hr, rfl⟩
      exact ⟨view r, hb, ((hf r hr).shows (hsafe _ hb) c).mpr ⟨d, hd, hview⟩⟩

theorem Describes.bind {δ : Type u} {f : β → Account γ} {g : α → Run ε φ δ} {view' : δ → γ}
    (h : a.Describes view x) (hf : ∀ r, (f (view r)).Describes view' (g r)) :
    (a.bind f).Describes view' (x >>= g) :=
  h.bind_of_ok fun r _ => hf r

/-- When only the survival of the rest of a run is known. -/
theorem Describes.survives_bind {δ : Type u} {f : β → Account γ} {g : α → Run ε φ δ}
    (h : a.Describes view x) (hg : ∀ r, Run.Survives (g r) ↔ (f (view r)).Safe) :
    Run.Survives (x >>= g) ↔ (a.bind f).Safe := by
  rw [Run.survives_bind, h.safe]
  refine and_congr_right fun ha => ?_
  constructor
  · intro hsurvives b hb
    obtain ⟨r, hr, rfl⟩ := h.exists_ok ha hb
    exact (hg r).mp (hsurvives r hr)
  · intro hsafe r hr
    exact (hg r).mpr (hsafe _ ((h.shows ha _).mpr ⟨r, hr, rfl⟩))

theorem Describes.ite {p : Prop} [Decidable p] {b : Account β} {y : Run ε φ α}
    (ha : p → a.Describes view x) (hb : ¬ p → b.Describes view y) :
    (if p then a else b).Describes view (if p then x else y) := by
  by_cases hp : p
  · rw [if_pos hp, if_pos hp]
    exact ha hp
  · rw [if_neg hp, if_neg hp]
    exact hb hp

/-- What is made of the result does not matter to what is looked at. -/
theorem Describes.map {δ : Type u} {g : α → δ} {view' : δ → β} (h : a.Describes view x)
    (hg : ∀ r, view' (g r) = view r) :
    a.Describes view' (x >>= fun r => (.ok (g r) : Run ε φ δ)) where
  safe := by
    rw [Run.survives_bind, h.safe]
    exact and_iff_left fun _ _ => trivial
  shows ha b := by
    rw [h.shows ha b]
    constructor
    · rintro ⟨r, rfl, rfl⟩
      exact ⟨g r, rfl, hg r⟩
    · rintro ⟨d, hd, rfl⟩
      obtain ⟨r, hr, hr'⟩ := Run.bind_eq_ok.mp hd
      cases hr'
      exact ⟨r, hr, (hg r).symm⟩

/-! ## Loops -/

/-- Where the loop goes on from, if it goes on: what a turn shows. -/
def next : Turn π ι → Option π
  | .leave => none
  | .item _ q => some q

/-- Every turn from `p` on is safe, and one of them leaves or throws. -/
inductive Lasts (turn : π → Account (Option π)) : π → Prop where
  | stop {p : π} : (turn p).Safe → (∀ q, (turn p).shows? ≠ some (some q)) → Lasts turn p
  | go {p q : π} : (turn p).Safe → (turn p).shows? = some (some q) → Lasts turn q → Lasts turn p

variable {turn : π → Account (Option π)} {body : π → Run ε φ (Turn π ι)}

theorem lasts_iff (h : ∀ p, (turn p).Describes next (body p)) (p : π) :
    Lib.Lasts body p ↔ Lasts turn p := by
  constructor
  · intro hb
    induction hb with
    | @leave p hb =>
      have hsafe : (turn p).Safe := (h p).safe.mp (by rw [hb]; trivial)
      refine .stop hsafe fun q hq => ?_
      obtain ⟨r, hr, hnext⟩ := (h p).exists_ok hsafe hq
      rw [hb] at hr
      cases hr
      cases hnext
    | @threw p e hb =>
      have hsafe : (turn p).Safe := (h p).safe.mp (by rw [hb]; trivial)
      refine .stop hsafe fun q hq => ?_
      obtain ⟨r, hr, -⟩ := (h p).exists_ok hsafe hq
      rw [hb] at hr
      cases hr
    | @item p q y hb _ ih =>
      have hsafe : (turn p).Safe := (h p).safe.mp (by rw [hb]; trivial)
      exact .go hsafe (((h p).shows hsafe _).mpr ⟨_, hb, rfl⟩) ih
  -- A loop that ends has a body that leaves or throws, and then there is no next position.
  · intro ht
    induction ht with
    | @stop p hsafe hnone =>
      have hsurvives := (h p).safe.mpr hsafe
      rcases hb : body p with (e | f) | t
      · exact .threw hb
      · rw [hb] at hsurvives
        exact hsurvives.elim
      · cases t with
        | leave => exact .leave hb
        | item y q => exact absurd (((h p).shows hsafe _).mpr ⟨_, hb, rfl⟩) (hnone q)
    | @go p q hsafe hq _ ih =>
      obtain ⟨r, hr, hnext⟩ := (h p).exists_ok hsafe hq
      cases r with
      | leave => cases hnext
      | item y q' =>
        cases hnext
        exact .item hr ih

/-- A loop with a turn for every position survives when its turns last. -/
theorem survives_collect [Fintype π] {endless : φ} {n : Nat} (hn : Fintype.card π ≤ n)
    (h : ∀ p, (turn p).Describes next (body p)) (p : π) :
    Run.Survives (collect endless body n p) ↔ Lasts turn p := by
  rw [Lib.survives_collect hn, lasts_iff h]

end Account

end Lib
