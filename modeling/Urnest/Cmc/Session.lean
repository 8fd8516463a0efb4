import Urnest.Cmc.Books

/-!
# Sessions

A session is a store and the writers that have been made for it, and a run is a list of
operations on them, each of which may raise. Whatever it does, a session keeps its books
(`Session.step_books`).

It keeps its quotas as long as two kinds of step do not come up, which `Fits` names:
`create_bucket` with a single slot, where the assertion in `__trim_buckets` fails, and an
append of more than there is room for, where the assertion in `append` asserts nothing
(`quotas_iff`).
-/

namespace Urnest.Cmc

open Lib Action TStore

/-- A store and its writers, numbered as they were made. -/
structure Session where
  store : TStore
  writers : List Writer

inductive Op where
  | createBucket (b : Bucket)
  | makeRoomFor (byteCount : Int)
  | deleteBucket (b : Bucket)
  /-- make a reader and enter it -/
  | openReader (b : Bucket)
  | newWriter (b : Bucket)
  | enter (writer : Nat)
  | append (writer : Nat) (data : List UInt8)
  | exit (writer : Nat)
  deriving DecidableEq

namespace Session

def new (attrs : Attrs) : Session := ⟨.new attrs, []⟩

def onStore {α : Type} (x : Action TStore Error α) : Action Session Error α :=
  on Session.store (fun t s => { s with store := t }) x

/-- Writer `i`, if it has been made, is `w` from now on. -/
def setWriter (i : Nat) (w : Writer) : Action Session Error Unit :=
  change fun s => { s with writers := s.writers.set i w }

/-- One operation. There is nothing to be done with a writer that has not been made. -/
def step : Op → Action Session Error Unit
  | .createBucket b => onStore (createBucket b)
  | .makeRoomFor byteCount => onStore (makeRoomFor byteCount)
  | .deleteBucket b => onStore (deleteBucket b)
  | .openReader b => do
    let r ← onStore (newReader b)
    let _ ← onStore (openFile r.bucket)
    pure ()
  | .newWriter b => do
    let w ← onStore (newWriter b)
    change fun s => { s with writers := s.writers ++ [w] }
  | .enter i => do
    let s ← read
    match s.writers[i]? with
    | none => pure ()
    | some w => do
      let file ← onStore (openFile w.bucket)
      setWriter i { w with file := some file }
  | .append i data => do
    let s ← read
    match s.writers[i]? with
    | none => pure ()
    | some w => onStore (append w data)
  | .exit i => do
    let s ← read
    match s.writers[i]? with
    | none => pure ()
    | some w => setWriter i { w with file := none }

variable {s : Session} {op : Op}

/-! ## What a step does to the store -/

/-- The parts of a step that only look at the store leave it alone. -/
theorem keeps_onStore {α : Type} (t : TStore) {x : Action TStore Error α}
    (hx : ∀ t, (x t).2 = t) : Keeps (fun s : Session => s.store = t) (onStore x) := by
  rintro s rfl
  exact hx s.store

theorem keeps_writers (t : TStore) (f : Session → List Writer) :
    Keeps (fun s : Session => s.store = t)
      (change fun s => { s with writers := f s } : Action Session Error Unit) :=
  .change fun _ h => h

theorem step_openReader (b : Bucket) : (step (.openReader b) s).2.store = s.store := by
  refine Keeps.bind (keeps_onStore s.store (newReader_state b)) (fun r => ?_) s rfl
  exact (keeps_onStore s.store (openFile_state r.bucket)).bind fun _ => .pure _

theorem step_newWriter (b : Bucket) : (step (.newWriter b) s).2.store = s.store :=
  Keeps.bind (keeps_onStore s.store (newWriter_state b))
    (fun w => keeps_writers s.store fun s => s.writers ++ [w]) s rfl

theorem step_enter (i : Nat) : (step (.enter i) s).2.store = s.store := by
  rw [step, read_bind]
  cases s.writers[i]? with
  | none => rfl
  | some w =>
    exact Keeps.bind (keeps_onStore s.store (openFile_state w.bucket))
      (fun file => keeps_writers s.store fun s => s.writers.set i { w with file := some file })
      s rfl

theorem step_exit (i : Nat) : (step (.exit i) s).2.store = s.store := by
  rw [step, read_bind]
  cases s.writers[i]? <;> rfl

theorem step_append {i : Nat} {w : Writer} (data : List UInt8) (hw : s.writers[i]? = some w) :
    step (.append i data) s = onStore (append w data) s := by
  rw [step, read_bind, hw]

/-- The stores that a step can lead to. -/
inductive Effect (s : Session) (op : Op) : TStore → Prop where
  /-- what is left when some buckets have been deleted, if any -/
  | dropped {gone : List Bucket} : s.store.Deletable gone → Effect s op (s.store.dropAll gone)
  | added {gone : List Bucket} {b : Bucket} : op = .createBucket b → s.store.Deletable gone →
      b.1 ∉ s.store.buckets → (s.store.dropAll gone).buckets.length < s.store.attrs.maxBuckets →
      s.store.getPathOf b ∉ (s.store.dropAll gone).files.directory →
      Effect s op ((s.store.dropAll gone).addBucket b)
  | extended {i file size : Nat} {w : Writer} {data : List UInt8} : op = .append i data →
      s.writers[i]? = some w → w.file = some file → s.store.bucketSizes.get? w.bucket = some size →
      Effect s op (s.store.extend w.bucket file size data)

theorem Effect.same (s : Session) (op : Op) : Effect s op s.store :=
  .dropped (deletable_nil s.store)

theorem effect_createBucket (h : s.store.Books) (b : Bucket) :
    Effect s (.createBucket b) (createBucket b s.store).2 := by
  cases hb : s.store.buckets.get? b.1 with
  | some id =>
    rw [createBucket_exists hb]
    exact .same s _
  | none =>
    have habsent := Dict.get?_eq_none.mp hb
    by_cases hmax : s.store.attrs.maxBuckets ≤ 1
    · rw [createBucket_no_slot habsent hmax]
      exact .same s _
    · obtain ⟨gone, hgone, hslot, -, hcreate⟩ := createBucket_new h habsent (by omega)
      rw [hcreate]
      split_ifs with hpath
      · exact .dropped hgone
      · exact .added rfl hgone habsent hslot hpath

theorem effect_append (i : Nat) (data : List UInt8) :
    Effect s (.append i data) (step (.append i data) s).2.store := by
  cases hw : s.writers[i]? with
  | none =>
    rw [step, read_bind, hw]
    exact .same s _
  | some w =>
    rw [step_append data hw]
    change Effect s _ (append w data s.store).2
    by_cases hb : w.bucket ∈ s.store.bucketSizes
    · obtain ⟨size, hsize⟩ := Dict.exists_get? hb
      cases hfile : w.file with
      | none =>
        rw [append_closed data hsize hfile]
        exact .same s _
      | some file =>
        rw [append_open data hsize hfile]
        exact .extended rfl hw hfile hsize
    · rw [append_missing data hb]
      exact .same s _

theorem step_effect (h : s.store.Books) (op : Op) : Effect s op (step op s).2.store := by
  cases op with
  | createBucket b => exact effect_createBucket h b
  | makeRoomFor byteCount =>
    change Effect s _ (makeRoomFor byteCount s.store).2
    by_cases hcount : byteCount < s.store.attrs.maxSize
    · obtain ⟨gone, hgone, hroom, -⟩ := makeRoomFor_eq h hcount
      rw [hroom]
      exact .dropped hgone
    · rw [makeRoomFor_refused hcount]
      exact .same s _
  | deleteBucket b =>
    change Effect s _ (TStore.deleteBucket b s.store).2
    by_cases hb : b ∈ s.store.bucketSizes
    · rw [deleteBucket_recorded h hb]
      have hgone : s.store.Deletable [b] :=
        ⟨List.nodup_singleton b, fun c hc => List.mem_singleton.mp hc ▸ hb⟩
      exact .dropped hgone
    · rw [deleteBucket_missing hb]
      exact .same s _
  | openReader b =>
    rw [step_openReader]
    exact .same s _
  | newWriter b =>
    rw [step_newWriter]
    exact .same s _
  | enter i =>
    rw [step_enter]
    exact .same s _
  | append i data => exact effect_append i data
  | exit i =>
    rw [step_exit]
    exact .same s _

theorem Effect.attrs {t : TStore} (h : Effect s op t) : t.attrs = s.store.attrs := by
  cases h with
  | dropped hgone => exact dropAll_attrs _ _
  | added hop hgone hb hslot hpath => exact dropAll_attrs _ _
  | extended hop hw hfile hsize => rfl

theorem Effect.books {t : TStore} (h : Effect s op t) (hbooks : s.store.Books) : t.Books := by
  cases h with
  | dropped hgone => exact hbooks.dropAll hgone
  | added hop hgone hb hslot hpath =>
    refine (hbooks.dropAll hgone).add (fun hmem => hb ?_) ?_
    · exact mem_buckets_dropAll hmem
    · rwa [getPathOf, dropAll_attrs]
  | extended hop hw hfile hsize => exact hbooks.extend hsize _ _

/-- Every step keeps the books. -/
theorem step_books (h : s.store.Books) (op : Op) : (step op s).2.store.Books :=
  (step_effect h op).books h

/-! ## Quotas -/

/-- What a store promises of its books. -/
structure Quotas (t : TStore) : Prop where
  slots : t.buckets.length ≤ t.attrs.maxBuckets
  room : t.currentSize ≤ t.attrs.maxSize
  sum : t.currentSize = t.bucketSizes.total id
  agree : ∀ b, b ∈ t.bucketSizes ↔ b ∈ t.buckets.items

/-- A bucket that is not there is created, unless its start has a bucket already or its
file is there. -/
def FindsSlot (s : Session) : Op → Prop
  | .createBucket b => b ∉ s.store.bucketSizes →
    (step (.createBucket b) s).1 = .ok () ∨
      (∃ id, (step (.createBucket b) s).1 = .error (.bucketExists b.1 id)) ∨
      (step (.createBucket b) s).1 = .error .fileExists
  | _ => True

/-- A step that the quotas survive: there is more than one slot, if one is needed, and
room for what is appended. -/
def Fits (s : Session) : Op → Prop
  | .createBucket b => s.store.attrs.maxBuckets ≠ 1 ∨ b.1 ∈ s.store.buckets
  | .append i data => ∀ w, s.writers[i]? = some w → w.file.isSome →
    w.bucket ∈ s.store.bucketSizes → s.store.currentSize + data.length ≤ s.store.attrs.maxSize
  | _ => True

theorem Effect.slots {t : TStore} (h : Effect s op t)
    (hslots : s.store.buckets.length ≤ s.store.attrs.maxBuckets) :
    t.buckets.length ≤ t.attrs.maxBuckets := by
  rw [h.attrs]
  cases h with
  | @dropped gone hgone =>
    have hle := length_dropAll_le s.store gone
    omega
  | @added gone b hop hgone hb hslot hpath =>
    have hnew : b.1 ∉ (s.store.dropAll gone).buckets := fun hmem => hb (mem_buckets_dropAll hmem)
    have hlength := Dict.length_set_new hnew b.2
    change ((((s.store.dropAll gone).buckets.set b.1 b.2).length : Nat) : Int) ≤ _
    omega
  | extended hop hw hfile hsize => exact hslots

theorem Effect.room {t : TStore} (h : Effect s op t)
    (hroom : s.store.currentSize ≤ s.store.attrs.maxSize) (hfits : Fits s op) :
    t.currentSize ≤ t.attrs.maxSize := by
  rw [h.attrs]
  cases h with
  | @dropped gone hgone => exact (currentSize_dropAll_le s.store gone).trans hroom
  | @added gone b hop hgone hb hslot hpath =>
    exact (currentSize_dropAll_le s.store gone).trans hroom
  | @extended i file size w data hop hw hfile hsize =>
    subst hop
    exact hfits w hw (by simp [hfile]) (Dict.mem_of_get? hsize)

/-- With more than one slot there is always one. -/
theorem findsSlot_createBucket (h : s.store.Books) (hmax : 1 ≤ s.store.attrs.maxBuckets)
    (b : Bucket) : FindsSlot s (.createBucket b) ↔ Fits s (.createBucket b) := by
  have hstep : (step (.createBucket b) s).1 = (createBucket b s.store).1 := rfl
  rw [FindsSlot, hstep, Fits]
  cases hb : s.store.buckets.get? b.1 with
  | some id =>
    rw [createBucket_exists hb]
    exact iff_of_true (fun _ => .inr (.inl ⟨id, rfl⟩)) (.inr (Dict.mem_of_get? hb))
  | none =>
    have habsent := Dict.get?_eq_none.mp hb
    have hnot : b ∉ s.store.bucketSizes := fun hmem => habsent (h.mem_buckets hmem)
    by_cases hone : s.store.attrs.maxBuckets = 1
    · rw [createBucket_no_slot habsent hone.le]
      simp [hone, hnot, habsent]
    · obtain ⟨gone, -, -, -, hcreate⟩ := createBucket_new h habsent (by omega)
      rw [hcreate]
      refine iff_of_true (fun _ => ?_) (.inl hone)
      split_ifs
      · exact .inr (.inr rfl)
      · exact .inl rfl

/-- An append of too much is too much afterwards. -/
theorem fits_append {i : Nat} {data : List UInt8}
    (h : (step (.append i data) s).2.store.currentSize
      ≤ (step (.append i data) s).2.store.attrs.maxSize) : Fits s (.append i data) := by
  intro w hw hopen hb
  obtain ⟨file, hfile⟩ := Option.isSome_iff_exists.mp hopen
  obtain ⟨size, hsize⟩ := Dict.exists_get? hb
  have hstore : (step (.append i data) s).2.store
      = s.store.extend w.bucket file size data := by
    rw [step_append data hw]
    change (append w data s.store).2 = _
    rw [append_open data hsize hfile]
  rw [hstore] at h
  exact h

theorem step_quotas_iff (hbooks : s.store.Books) (hquotas : Quotas s.store)
    (hmax : 1 ≤ s.store.attrs.maxBuckets) (op : Op) :
    Quotas (step op s).2.store ∧ FindsSlot s op ↔ Fits s op := by
  have heffect := step_effect hbooks op
  have hnext : Fits s op → Quotas (step op s).2.store := fun hfits =>
    ⟨heffect.slots hquotas.slots, heffect.room hquotas.room hfits,
      (step_books hbooks op).sum, (step_books hbooks op).agree⟩
  constructor
  · rintro ⟨hquotas', hslot⟩
    cases op with
    | createBucket b => exact (findsSlot_createBucket hbooks hmax b).mp hslot
    | append i data => exact fits_append hquotas'.room
    | _ => trivial
  · intro hfits
    refine ⟨hnext hfits, ?_⟩
    cases op with
    | createBucket b => exact (findsSlot_createBucket hbooks hmax b).mpr hfits
    | _ => trivial

theorem quotas_new {attrs : Attrs} (hmax : 1 ≤ attrs.maxBuckets) :
    Quotas (Session.new attrs).store where
  slots := by
    change ((0 : Nat) : Int) ≤ attrs.maxBuckets
    omega
  room := Int.natCast_nonneg _
  sum := rfl
  agree _ := Iff.rfl

/-- A run keeps the quotas, and finds a slot for every bucket, just when every step of it
fits. -/
theorem quotas_iff (attrs : Attrs) (hmax : 1 ≤ attrs.maxBuckets) (ops : List Op) :
    AllSteps step (fun s op => Quotas (step op s).2.store ∧ FindsSlot s op) (.new attrs) ops ↔
      AllSteps step Fits (.new attrs) ops := by
  refine allSteps_congr
    (I := fun s => s.store.attrs = attrs ∧ s.store.Books ∧ Quotas s.store) ?_ ?_
    ⟨rfl, books_new attrs, quotas_new hmax⟩ ops
  · rintro s op ⟨rfl, hbooks, hquotas⟩
    exact step_quotas_iff hbooks hquotas hmax op
  · rintro s op ⟨rfl, hbooks, hquotas⟩ hfits
    exact ⟨(step_effect hbooks op).attrs, step_books hbooks op,
      ((step_quotas_iff hbooks hquotas hmax op).mpr hfits).1⟩

/-- Two buckets of a store of two, and an append there is room for. -/
theorem quotas_iff_two : (1 : Int) ≤ 2 ∧
    (AllSteps step (fun s op => Quotas (step op s).2.store ∧ FindsSlot s op)
        (.new ⟨1, 2, 10, by decide⟩)
        [.createBucket (0, "a"), .newWriter (0, "a"), .enter 0, .append 0 [1, 2, 3]] ↔
      AllSteps step Fits (.new ⟨1, 2, 10, by decide⟩)
        [.createBucket (0, "a"), .newWriter (0, "a"), .enter 0, .append 0 [1, 2, 3]]) :=
  ⟨by decide, quotas_iff ⟨1, 2, 10, by decide⟩ (by decide) _⟩

/-- A store of one bucket cannot have its first bucket, and a store takes more than its
size. -/
theorem not_quotas :
    ¬ AllSteps step (fun s op => Quotas (step op s).2.store ∧ FindsSlot s op)
      (.new ⟨1, 1, 10, by decide⟩) [.createBucket (0, "a")] ∧
    ¬ AllSteps step (fun s op => Quotas (step op s).2.store ∧ FindsSlot s op)
      (.new ⟨1, 2, 2, by decide⟩)
      [.createBucket (0, "a"), .newWriter (0, "a"), .enter 0, .append 0 [1, 2, 3]] := by
  constructor
  · rintro ⟨⟨-, hslot⟩, -⟩
    have hfails : (step (.createBucket (0, "a")) (.new ⟨1, 1, 10, by decide⟩)).1
        = .error .assertFailed := rfl
    rw [FindsSlot, hfails] at hslot
    simpa using hslot (Dict.not_mem_empty _)
  · rintro ⟨-, -, -, ⟨hquotas, -⟩, -⟩
    exact absurd hquotas.room (by decide +kernel)

end Session

end Urnest.Cmc
