import Urnest.Cmc.Mirroring
import Urnest.Cmc.Reopen

/-!
# Restarting

A log whose store is opened again on what lies in its directory. Whatever has been recorded, and
whatever has failed or been evicted on the way, its books come out as they were
(`recorded_reopens`), as long as no bucket of a recorder is made again.
-/

namespace Urnest.Cmc.PerfLog

open Lib Action TStore Recorder

variable {Nested : Type} {host : Host Nested} {s : PerfLog} {entries : Entries Nested}

/-- A new bucket gets an identifier that can be a file's name. -/
def Named : Op Nested → Prop
  | .newRecorder => True
  | .record _ _ now => IsFileName now

theorem attrs_of_outcome {t : TStore} {writers : Dict Bucket Writer} {start : BucketStart}
    {now : BucketID} {encoded : List UInt8} {r : Except Error Unit × Recorder}
    (h : Outcome t writers start now encoded r) : r.2.tstore.attrs = t.attrs := by
  cases h with
  | failed e hgone hgone' => rw [dropAll_attrs, dropAll_attrs]
  | recorded hgone hopened hkeeping hsize =>
    cases hopened with
    | there => exact dropAll_attrs ..
    | made => exact (dropAll_attrs ..).trans (dropAll_attrs ..)

/-- A record is put where its time belongs. -/
theorem step_allPlaced (h : Faithful host s.tstore s.schema s.recorders entries)
    (hplaced : s.tstore.AllPlaced) {op : Op Nested} (hop : Named op) :
    (step host op s).2.tstore.AllPlaced := by
  cases op with
  | newRecorder => exact hplaced
  | record i e now =>
    rcases step_outcome h i e now with
      hsame | ⟨writers, start, encoded, r, -, houtcome, hstep, hstart⟩
    · rwa [hsame]
    · intro b hb
      rw [hstep] at hb ⊢
      rw [attrs_of_outcome houtcome]
      rcases mem_of_outcome houtcome hb with hold | rfl
      · exact hplaced b hold
      · exact ⟨⟨_, hstart⟩, hop⟩

theorem after_allPlaced (h : Faithful host s.tstore s.schema s.recorders entries)
    (hplaced : s.tstore.AllPlaced) {ops : List (Op Nested)} (hnamed : ∀ op ∈ ops, Named op)
    (hops : AllSteps (step host) (fun s op => ¬ MadeAgain host s op) s ops) :
    (after (step host) s ops).tstore.AllPlaced := by
  induction ops generalizing s entries with
  | nil => exact hplaced
  | cons op ops ih =>
    obtain ⟨hop, hnamed⟩ := List.forall_mem_cons.mp hnamed
    exact ih (step_faithful h hops.1) (step_allPlaced h hplaced hop) hnamed hops.2

/-- However its directory is listed, and whatever else lies there. -/
theorem recorded_reopens (host : Host Nested) (attrs : Attrs) (schema : Schema)
    (ops : List (Op Nested)) (hnamed : ∀ op ∈ ops, Named op)
    (hops : AllSteps (step host) (fun s op => ¬ MadeAgain host s op) (.new attrs schema) ops) :
    (after (step host) (.new attrs schema) ops).tstore.Reopens := by
  have hnew := faithful_new host attrs schema
  have hfaithful := after_faithful hnew hops
  have hplaced := after_allPlaced hnew (fun b hb => absurd hb (Dict.not_mem_empty b)) hnamed hops
  exact (reopens_iff_accurate hfaithful.books hplaced).mpr hfaithful.accurate

theorem recorded_reopens_five :
    (after (step sampleHost) (.new ⟨1, 2, 100, by decide⟩ .empty)
      (recordAll [⟨.ofInt 5, []⟩])).tstore.Reopens := by
  refine recorded_reopens sampleHost _ _ _ (fun op hop => ?_) ⟨?_, ?_, trivial⟩
  · rcases List.mem_cons.mp hop with rfl | hop
    · trivial
    · obtain rfl := List.mem_singleton.mp hop
      exact ⟨by decide, by decide, by decide, by decide, by decide⟩
  · rintro ⟨ws, hws, -⟩
    cases hws
  · rintro ⟨ws, hws, b, hb, -⟩
    obtain rfl := List.mem_singleton.mp hws
    exact Dict.not_mem_empty b hb

end Urnest.Cmc.PerfLog
