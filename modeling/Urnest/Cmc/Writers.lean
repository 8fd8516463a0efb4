import Urnest.Cmc.Session
import Urnest.Cmc.View

/-!
# Writers whose bucket is gone

A writer keeps its bucket's key and its file open while the bucket may be deleted,
evicted or made again. `Stale` says that this has happened.

A run keeps the book of sizes accurate as long as no stale writer appends
(`safe_iff`). One that does is told of a `KeyError` if its bucket is gone, and nothing
at all if a bucket of that start and identifier has been made again: its bytes go to the
old file, and into the new bucket's size.
-/

namespace Urnest.Cmc.Session

open Lib Action TStore

variable {s : Session} {op : Op} {t : TStore} {w : Writer} {file : Nat}

/-- The writer's bucket is not recorded, or the file it has open is not the bucket's. -/
def Stale (t : TStore) (w : Writer) : Prop :=
  w.bucket ∉ t.bucketSizes ∨
    ∃ file, w.file = some file ∧ t.files.directory.get? (t.getPathOf w.bucket) ≠ some file

/-- A stale writer is told that there is no such bucket, and nothing is recorded. -/
def StaleRefused (s : Session) : Op → Prop
  | .append i data => ∀ w, s.writers[i]? = some w → Stale s.store w →
    (step (.append i data) s).1 = .error (.noSuchBucket w.bucket.1) ∧
      (step (.append i data) s).2.store.bucketSizes = s.store.bucketSizes ∧
      (step (.append i data) s).2.store.currentSize = s.store.currentSize
  | _ => True

def StaleAppend (s : Session) : Op → Prop
  | .append i _ => ∃ w, s.writers[i]? = some w ∧ Stale s.store w
  | _ => False

/-! ## Sizes -/

theorem Effect.accurate (h : Effect s op t) (hbooks : s.store.Books)
    (haccurate : s.store.Accurate) (hstale : ¬ StaleAppend s op) : t.Accurate := by
  cases h with
  | dropped hgone => exact haccurate.dropAll hbooks hgone
  | @added gone b hop hgone hb hslot hpath =>
    refine (haccurate.dropAll hbooks hgone).add (hbooks.dropAll hgone) (fun hmem => ?_) ?_
    · exact hb (hbooks.mem_buckets (mem_dropAll.mp hmem).1)
    · rwa [getPathOf, dropAll_attrs]
  | @extended i file size w data hop hw hfile hsize =>
    subst hop
    have hown : s.store.files.directory.get? (s.store.getPathOf w.bucket) = some file := by
      by_contra hne
      exact hstale ⟨w, hw, .inr ⟨file, hfile, hne⟩⟩
    exact (haccurate.extend hbooks hsize hown data).2

/-- There is no way for an append to raise `NoSuchBucket`. -/
theorem append_ne_noSuchBucket (w : Writer) (data : List UInt8) (t : TStore)
    (start : BucketStart) : (append w data t).1 ≠ .error (.noSuchBucket start) := by
  by_cases hb : w.bucket ∈ t.bucketSizes
  · obtain ⟨size, hsize⟩ := Dict.exists_get? hb
    cases hfile : w.file with
    | none =>
      rw [append_closed data hsize hfile]
      simp
    | some file =>
      rw [append_open data hsize hfile]
      simp
  · rw [append_missing data hb]
    simp

theorem staleRefused_iff : StaleRefused s op ↔ ¬ StaleAppend s op := by
  cases op with
  | append i data =>
    constructor
    · rintro hrefused ⟨w, hw, hstale⟩
      obtain ⟨herror, -⟩ := hrefused w hw hstale
      rw [step_append data hw] at herror
      exact append_ne_noSuchBucket w data s.store _ herror
    · intro hnot w hw hstale
      exact absurd ⟨w, hw, hstale⟩ hnot
  | _ => exact iff_of_true trivial id

/-- A run keeps the sizes accurate and refuses stale writers just when no stale writer
appends. -/
theorem safe_iff (attrs : Attrs) (ops : List Op) :
    AllSteps step (fun s op => (step op s).2.store.Accurate ∧ StaleRefused s op) (.new attrs) ops ↔
      AllSteps step (fun s op => ¬ StaleAppend s op) (.new attrs) ops := by
  refine allSteps_congr (I := fun s => s.store.Books ∧ s.store.Accurate) ?_ ?_
    ⟨books_new attrs, accurate_new attrs⟩ ops
  · rintro s op ⟨hbooks, haccurate⟩
    rw [staleRefused_iff]
    exact and_iff_right_of_imp ((step_effect hbooks op).accurate hbooks haccurate)
  · rintro s op ⟨hbooks, haccurate⟩ hstale
    have heffect := step_effect hbooks op
    exact ⟨step_books hbooks op, heffect.accurate hbooks haccurate hstale⟩

/-- A writer whose bucket has been made again, and one whose bucket is gone. -/
theorem not_safe :
    ¬ AllSteps step (fun s op => (step op s).2.store.Accurate ∧ StaleRefused s op)
      (.new ⟨1, 3, 10, by decide⟩) [.createBucket (0, "a"), .newWriter (0, "a"), .enter 0,
        .deleteBucket (0, "a"), .createBucket (0, "a"), .append 0 [1, 2, 3]] ∧
    ¬ AllSteps step (fun s op => (step op s).2.store.Accurate ∧ StaleRefused s op)
      (.new ⟨1, 3, 10, by decide⟩) [.createBucket (0, "a"), .newWriter (0, "a"), .enter 0,
        .deleteBucket (0, "a"), .append 0 [1, 2, 3]] := by
  constructor
  · rintro ⟨-, -, -, -, -, ⟨haccurate, -⟩, -⟩
    exact absurd (haccurate (0, "a")) (by decide +kernel)
  · rintro ⟨-, -, -, -, ⟨-, hrefused⟩, -⟩
    obtain ⟨herror, -⟩ := hrefused ⟨(0, "a"), some 0⟩ (by decide +kernel)
      (.inl (by decide +kernel))
    exact absurd herror (by decide +kernel)

end Urnest.Cmc.Session
