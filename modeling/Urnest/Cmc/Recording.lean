import Urnest.Cmc.Naming
import Urnest.Cmc.Records
import Urnest.Cmc.View

/-!
# Recording

Some recorders put records into one log. `Faithful` says what is true of its store after any
run of theirs: the bytes of a bucket are the lines of the entries that have been recorded in it
since it was made, in the order they came in, and a writer whose bucket is there has the file of
that bucket open.

The second does not survive a bucket that is made again under the identifier it had when a
recorder opened it (`MadeAgain`). Identifiers are times, and `now` is a parameter here.
-/

namespace Urnest.Cmc

open Lib Action TStore

variable {Nested : Type}

/-- What is recorded. -/
structure TimedRecord (Nested : Type) where
  timestamp : Binary64
  record : List (Value Nested)
  deriving DecidableEq

/-- The entries of each bucket -/
abbrev Entries (Nested : Type) := Bucket → List (TimedRecord Nested)

/-- A log with its recorders, each of which has the writers that it keeps. -/
structure PerfLog where
  tstore : TStore
  schema : Schema
  recorders : List (Dict Bucket Writer)

/-- `record`: what is recorded in a bucket is encoded with the time since the bucket's start. -/
def Recorder.recordEntry (host : Host Nested) (schema : Schema) (e : TimedRecord Nested)
    (now : BucketID) : Action Recorder Failure Unit := do
  let r ← read
  match Cmc.calcBucketStart r.tstore.attrs.hoursPerBucket e.timestamp.val with
  | none => raise .year
  | some bucketStart =>
    match encodeTimestampedRecord host (e.timestamp - .ofInt bucketStart) e.record schema with
    | .error failure => raise failure
    | .ok encoded => mapError .store (record e.timestamp.val.floor encoded now)

namespace PerfLog

inductive Op (Nested : Type) where
  | newRecorder
  /-- by the recorder of a number; `now` is for the bucket, if there has to be a new one -/
  | record (recorder : Nat) (e : TimedRecord Nested) (now : BucketID)

def new (attrs : Attrs) (schema : Schema) : PerfLog := ⟨.new attrs, schema, []⟩

variable (host : Host Nested)

/-- One operation; nothing, of a recorder that has not been made. -/
def step : Op Nested → Action PerfLog Failure Unit
  | .newRecorder => change fun s => { s with recorders := s.recorders ++ [.empty] }
  | .record i e now => do
    let s ← read
    match s.recorders[i]? with
    | none => pure ()
    | some writers =>
      on (fun s => ⟨s.tstore, writers⟩)
        (fun r s => { s with tstore := r.tstore, recorders := s.recorders.set i r.writers })
        (Recorder.recordEntry host s.schema e now)

/-- The file at the path of a bucket -/
def fileOf (t : TStore) (b : Bucket) : Option Nat := t.files.directory.get? (t.getPathOf b)

/-- The entry is the last of its bucket, and the only one if the file is a new one. -/
def added (t t' : TStore) (e : TimedRecord Nested) (entries : Entries Nested) : Entries Nested :=
  let bucketStart := t.calcBucketStart e.timestamp.val.floor
  match t'.buckets.get? bucketStart with
  | none => entries
  | some bucketId =>
    let b := (bucketStart, bucketId)
    Function.update entries b ((if fileOf t' b = fileOf t b then entries b else []) ++ [e])

/-- The entries after an operation, of which there is one more if it recorded one. -/
def noted (s : PerfLog) (entries : Entries Nested) : Op Nested → Entries Nested
  | .newRecorder => entries
  | .record i e now =>
    match s.recorders[i]?, step host (.record i e now) s with
    | some _, (.ok _, s') => added s.tstore s'.tstore e entries
    | _, _ => entries

/-- The entries after some operations -/
def entriesAfter (s : PerfLog) (entries : Entries Nested) : List (Op Nested) → Entries Nested
  | [] => entries
  | op :: ops => entriesAfter (step host op s).2 (noted host s entries op) ops

/-- A bucket that a recorder has a writer for gets another file. -/
def MadeAgain (s : PerfLog) (op : Op Nested) : Prop :=
  ∃ writers ∈ s.recorders, ∃ b ∈ writers, ∃ file,
    fileOf (step host op s).2.tstore b = some file ∧ fileOf s.tstore b ≠ some file

end PerfLog

/-! ## One record -/

namespace Recorder

open PerfLog (fileOf)

variable {t : TStore} {ws : Dict Bucket Writer} {start : BucketStart} {now : BucketID}

/-- The store with the bucket to record in: it was there, or is a new one. -/
inductive Opened (t : TStore) (start : BucketStart) (now : BucketID) :
    BucketID → TStore → Prop where
  | there {id : BucketID} : t.buckets.get? start = some id → Opened t start now id t
  | made {gone : List Bucket} : t.Deletable gone → start ∉ (t.dropAll gone).buckets →
      t.getPathOf (start, now) ∉ (t.dropAll gone).files.directory →
      Opened t start now now ((t.dropAll gone).addBucket (start, now))

theorem onStore_apply {α : Type} (x : Action TStore Error α) (r : Recorder) :
    onStore x r = ((x r.tstore).1, { r with tstore := (x r.tstore).2 }) := rfl

theorem bucketFor_cases (h : t.Books) (start : BucketStart) (now : BucketID) :
    (∃ e gone, t.Deletable gone ∧
      bucketFor start now ⟨t, ws⟩ = (.error e, ⟨t.dropAll gone, ws⟩)) ∨
    ∃ id t₁, Opened t start now id t₁ ∧ bucketFor start now ⟨t, ws⟩ = (.ok id, ⟨t₁, ws⟩) := by
  cases hstart : t.buckets.get? start with
  | some id =>
    refine .inr ⟨id, t, .there hstart, handle_ok ?_⟩
    rw [onStore_apply, getBucket, read_bind, hstart]
    rfl
  | none =>
    have habsent := Dict.get?_eq_none.mp hstart
    have hget : onStore (getBucket start) ⟨t, ws⟩ = (.error (.noSuchBucket start), ⟨t, ws⟩) := by
      rw [onStore_apply, getBucket, read_bind, hstart]
      rfl
    rw [bucketFor, handle_error hget]
    by_cases hmax : t.attrs.maxBuckets ≤ 1
    · have hcreate := createBucket_no_slot (b := (start, now)) habsent hmax
      refine .inl ⟨.assertFailed, [], deletable_nil t, bind_error ?_⟩
      rw [onStore_apply, hcreate]
      rfl
    · obtain ⟨gone, hgone, -, -, hcreate⟩ :=
        createBucket_new (b := (start, now)) h habsent (not_le.mp hmax)
      split_ifs at hcreate with hpath
      · refine .inl ⟨.fileExists, gone, hgone, bind_error ?_⟩
        rw [onStore_apply, hcreate]
      · refine .inr ⟨now, _, .made hgone (fun hmem => habsent (mem_buckets_dropAll hmem)) hpath,
          bind_ok (a := ()) ?_⟩
        rw [onStore_apply, hcreate]

/-- A writer has the file of its bucket open, if the bucket is there. -/
def Open (t : TStore) (b : Bucket) (w : Writer) : Prop :=
  ∃ file, w = ⟨b, some file⟩ ∧ (b ∈ t.bucketSizes → fileOf t b = some file)

/-- The writers after `writerFor`, and the file that it has for the bucket. -/
inductive Keeping (t : TStore) (ws : Dict Bucket Writer) (b : Bucket) :
    Nat → Dict Bucket Writer → Prop where
  | kept {file : Nat} : ws.get? b = some ⟨b, some file⟩ → Keeping t ws b file ws
  | opened {file : Nat} : fileOf t b = some file →
      Keeping t ws b file (Dict.empty.set b ⟨b, some file⟩)

theorem writerFor_cases (h : t.Books) {b : Bucket} (hb : b ∈ t.bucketSizes)
    (hws : ∀ w, ws.get? b = some w → ∃ file, w = ⟨b, some file⟩) :
    ∃ file ws', Keeping t ws b file ws' ∧
      writerFor b ⟨t, ws⟩ = (.ok ⟨b, some file⟩, ⟨t, ws'⟩) := by
  cases hw : ws.get? b with
  | some w =>
    obtain ⟨file, rfl⟩ := hws w hw
    refine ⟨file, ws, .kept hw, ?_⟩
    rw [writerFor, read_bind, hw]
    rfl
  | none =>
    obtain ⟨file, hfile, -⟩ := h.exists_file hb
    refine ⟨file, _, .opened hfile, ?_⟩
    have hnew : newWriter b t = (.ok ⟨b, none⟩, t) := by
      rw [newWriter, bind_ok (verifyBucketExists_recorded h hb)]
      rfl
    have hstored : onStore (newWriter b) ⟨t, .empty⟩ = (.ok ⟨b, none⟩, ⟨t, .empty⟩) := by
      rw [onStore_apply, hnew]
    have hopened : onStore (openFile b) ⟨t, .empty⟩ = (.ok file, ⟨t, .empty⟩) := by
      rw [onStore_apply, openFile_eq hfile]
    rw [writerFor, read_bind, hw]
    simp only [change_bind, bind_ok hstored, bind_ok hopened]
    rfl

/-- What a record comes to: it is not recorded, for want of room or of a bucket, or it is added
to the bucket of its start. -/
inductive Outcome (t : TStore) (ws : Dict Bucket Writer) (start : BucketStart) (now : BucketID)
    (encoded : List UInt8) : Except Error Unit × Recorder → Prop where
  | failed {gone gone' : List Bucket} (e : Error) : t.Deletable gone →
      (t.dropAll gone).Deletable gone' →
      Outcome t ws start now encoded (.error e, ⟨(t.dropAll gone).dropAll gone', ws⟩)
  | recorded {gone : List Bucket} {id : BucketID} {t₁ : TStore} {file size : Nat}
      {ws' : Dict Bucket Writer} : t.Deletable gone → Opened (t.dropAll gone) start now id t₁ →
      Keeping t₁ ws (start, id) file ws' → t₁.bucketSizes.get? (start, id) = some size →
      Outcome t ws start now encoded (.ok (), ⟨t₁.extend (start, id) file size encoded, ws'⟩)

theorem Opened.books {id : BucketID} {t₁ : TStore} (h : Opened t start now id t₁)
    (hbooks : t.Books) : t₁.Books ∧ (start, id) ∈ t₁.bucketSizes := by
  cases h with
  | there hstart => exact ⟨hbooks, (hbooks.get?_buckets (start, id)).mp hstart⟩
  | @made gone hgone hstart hpath =>
    refine ⟨(hbooks.dropAll hgone).add hstart ?_, mem_addBucket.mpr (.inl rfl)⟩
    rwa [getPathOf, dropAll_attrs]

theorem record_outcome (h : t.Books) (hws : ∀ b w, ws.get? b = some w → ∃ file, w = ⟨b, some file⟩)
    (timestamp : Int) (encoded : List UInt8) (now : BucketID) :
    Outcome t ws (t.calcBucketStart timestamp) now encoded
      (record timestamp encoded now ⟨t, ws⟩) := by
  rw [record, read_bind]
  by_cases hroom : (encoded.length : Int) < t.attrs.maxSize
  · obtain ⟨gone, hgone, hmake, -⟩ := makeRoomFor_eq h hroom
    have hmake' : onStore (makeRoomFor encoded.length) ⟨t, ws⟩
        = (.ok (), ⟨t.dropAll gone, ws⟩) := by
      rw [onStore_apply, hmake]
    have hbooks := h.dropAll hgone
    simp only [bind_ok hmake']
    rcases @bucketFor_cases _ ws hbooks (t.calcBucketStart timestamp) now with
      ⟨e, gone', hgone', hfor⟩ | ⟨id, t₁, hopened, hfor⟩
    · rw [bind_error hfor]
      exact .failed e hgone hgone'
    · obtain ⟨hbooks₁, hb⟩ := hopened.books hbooks
      obtain ⟨file, ws', hkeeping, hwriter⟩ := writerFor_cases hbooks₁ hb (hws _)
      obtain ⟨size, hsize⟩ := Dict.exists_get? hb
      simp only [bind_ok hfor, bind_ok hwriter, onStore_apply,
        append_open (w := ⟨_, some file⟩) encoded hsize rfl]
      exact .recorded hgone hopened hkeeping hsize
  · have hmake : onStore (makeRoomFor encoded.length) ⟨t, ws⟩
        = (.error .assertFailed, ⟨t, ws⟩) := by
      rw [onStore_apply, makeRoomFor_refused hroom]
    rw [bind_error hmake]
    exact .failed _ (deletable_nil t) (deletable_nil t)

end Recorder

/-! ## What is kept -/

namespace PerfLog

open Recorder

variable {host : Host Nested} {t : TStore} {schema : Schema} {recorders : List (Dict Bucket Writer)}
  {entries : Entries Nested} {b : Bucket} {e : TimedRecord Nested}

/-- The line of an entry in its bucket -/
def lineOf (host : Host Nested) (schema : Schema) (b : Bucket) (e : TimedRecord Nested) :
    List UInt8 :=
  match encodeTimestampedRecord host (e.timestamp - .ofInt b.1) e.record schema with
  | .ok line => line
  | .error _ => []

/-- The entry belongs in the bucket, and has a line. -/
structure Belongs (host : Host Nested) (schema : Schema) (hoursPerBucket : Nat) (b : Bucket)
    (e : TimedRecord Nested) : Prop where
  start : Cmc.calcBucketStart hoursPerBucket e.timestamp.val = some b.1
  encoded : encodeTimestampedRecord host (e.timestamp - .ofInt b.1) e.record schema
    = .ok (lineOf host schema b e)

theorem lineOf_eq {line : List UInt8}
    (h : encodeTimestampedRecord host (e.timestamp - .ofInt b.1) e.record schema = .ok line) :
    lineOf host schema b e = line := by
  rw [lineOf, h]

/-- The store has the entries, and the writers have the files of their buckets. -/
structure Faithful (host : Host Nested) (t : TStore) (schema : Schema)
    (recorders : List (Dict Bucket Writer)) (entries : Entries Nested) : Prop where
  books : t.Books
  accurate : t.Accurate
  isOpen : ∀ writers ∈ recorders, ∀ b w, writers.get? b = some w → Open t b w
  bytes : ∀ b ∈ t.bucketSizes,
    t.bytesOf b = ((entries b).map (lineOf host schema b)).flatten
  belongs : ∀ b, ∀ e ∈ entries b, Belongs host schema t.attrs.hoursPerBucket b e

theorem faithful_new (host : Host Nested) (attrs : Attrs) (schema : Schema) :
    Faithful host (.new attrs) schema [] fun _ => [] where
  books := books_new attrs
  accurate := accurate_new attrs
  isOpen _ h := nomatch h
  bytes _ h := absurd h (Dict.not_mem_empty _)
  belongs _ _ h := nomatch h

theorem fileOf_dropAll (h : t.Books) {gone : List Bucket} (hgone : t.Deletable gone)
    (hb : b ∈ (t.dropAll gone).bucketSizes) : fileOf (t.dropAll gone) b = fileOf t b := by
  obtain ⟨file, hfile, -⟩ := (h.dropAll hgone).exists_file hb
  rw [fileOf, hfile, fileOf]
  rw [getPathOf, dropAll_attrs, ← getPathOf] at hfile
  exact (file_dropAll hfile).symm

theorem Faithful.dropAll (h : Faithful host t schema recorders entries) {gone : List Bucket}
    (hgone : t.Deletable gone) : Faithful host (t.dropAll gone) schema recorders entries where
  books := h.books.dropAll hgone
  accurate := h.accurate.dropAll h.books hgone
  isOpen writers hwriters b w hw := by
    obtain ⟨file, rfl, hfile⟩ := h.isOpen writers hwriters b w hw
    refine ⟨file, rfl, fun hb => ?_⟩
    rw [fileOf_dropAll h.books hgone hb]
    exact hfile (mem_dropAll.mp hb).1
  bytes b hb := by
    rw [bytesOf, view_dropAll h.books hgone, if_neg (mem_dropAll.mp hb).2]
    exact h.bytes b (mem_dropAll.mp hb).1
  belongs := by
    rw [dropAll_attrs]
    exact h.belongs

theorem fileOf_addBucket_self (t : TStore) (b : Bucket) :
    fileOf (t.addBucket b) b = some t.files.contents.length := Dict.get?_set_self ..

/-- A new bucket has no entries. -/
theorem Faithful.addBucket (h : Faithful host t schema recorders entries) (hb : b.1 ∉ t.buckets)
    (hpath : t.getPathOf b ∉ t.files.directory) (hnone : ∀ writers ∈ recorders, b ∉ writers) :
    Faithful host (t.addBucket b) schema recorders (Function.update entries b []) := by
  have hnot : b ∉ t.bucketSizes := fun hmem => hb (h.books.mem_buckets hmem)
  refine ⟨h.books.add hb hpath, h.accurate.add h.books hnot hpath, ?_, ?_, ?_⟩
  · intro writers hwriters c w hw
    obtain ⟨file, rfl, hfile⟩ := h.isOpen writers hwriters c w hw
    have hne : c ≠ b := fun heq => hnone writers hwriters (heq ▸ Dict.mem_of_get? hw)
    refine ⟨file, rfl, fun hc => ?_⟩
    have hc' := (mem_addBucket.mp hc).resolve_left hne
    have hpaths : t.getPathOf c ≠ t.getPathOf b := fun heq =>
      hpath (heq ▸ (h.books.stored _).mpr ⟨c, hc', rfl⟩)
    rw [← hfile hc']
    change (t.files.directory.set (t.getPathOf b) _).get? (t.getPathOf c) = _
    rw [Dict.get?_set, if_neg hpaths, fileOf]
  · intro c hc
    rw [bytesOf, view_addBucket h.books hnot hpath, Function.update_apply, Function.update_apply]
    split_ifs with heq
    · rfl
    · exact h.bytes c ((mem_addBucket.mp hc).resolve_left heq)
  · intro c e he
    rw [Function.update_apply] at he
    split_ifs at he
    · cases he
    · exact h.belongs c e he

/-- An entry at the end of the bucket's file is its last. -/
theorem Faithful.extend (h : Faithful host t schema recorders entries) {file size : Nat}
    (hsize : t.bucketSizes.get? b = some size) (hfile : fileOf t b = some file)
    (he : Belongs host schema t.attrs.hoursPerBucket b e) :
    Faithful host (t.extend b file size (lineOf host schema b e)) schema recorders
      (Function.update entries b (entries b ++ [e])) := by
  have hb := Dict.mem_of_get? hsize
  obtain ⟨rfl, haccurate⟩ := h.accurate.extend h.books hsize hfile (lineOf host schema b e)
  refine ⟨h.books.extend hsize _ _, haccurate, ?_, ?_, ?_⟩
  · intro writers hwriters c w hw
    obtain ⟨file', rfl, hfile'⟩ := h.isOpen writers hwriters c w hw
    exact ⟨file', rfl, fun hc => hfile' ((mem_extend hb).mp hc)⟩
  · intro c hc
    rw [bytesOf, view_extend h.books hb hfile, Function.update_apply, Function.update_apply]
    split_ifs with heq
    · subst heq
      rw [Option.getD_some, ← bytesOf_eq hb hfile, h.bytes c hb]
      simp
    · exact h.bytes c ((mem_extend hb).mp hc)
  · intro c e' he'
    rw [Function.update_apply] at he'
    split_ifs at he' with heq
    · subst heq
      rcases List.mem_append.mp he' with hold | hnew
      · exact h.belongs c e' hold
      · rw [List.mem_singleton.mp hnew]
        exact he
    · exact h.belongs c e' he'

/-- One of the recorders has the writer it needs. -/
theorem Faithful.setWriters (h : Faithful host t schema recorders entries) (i : Nat)
    {writers : Dict Bucket Writer}
    (hwriters : ∀ b w, writers.get? b = some w → Open t b w) :
    Faithful host t schema (recorders.set i writers) entries :=
  { h with
    isOpen := fun ws hws => by
      rcases List.mem_or_eq_of_mem_set hws with hold | rfl
      · exact h.isOpen ws hold
      · exact hwriters }

/-! ## Runs -/

variable {s : PerfLog} {writers : Dict Bucket Writer}

/-- The writers that a recorder has are entered. -/
theorem Faithful.entered (h : Faithful host t schema recorders entries) {i : Nat}
    (hi : recorders[i]? = some writers) (b : Bucket) (w : Writer)
    (hw : writers.get? b = some w) : ∃ file, w = ⟨b, some file⟩ := by
  obtain ⟨file, heq, -⟩ := h.isOpen writers (List.mem_of_getElem? hi) b w hw
  exact ⟨file, heq⟩

theorem step_record {i : Nat} (hi : s.recorders[i]? = some writers) (e : TimedRecord Nested)
    (now : BucketID) : step host (.record i e now) s
      = on (fun s => ⟨s.tstore, writers⟩)
        (fun r s => { s with tstore := r.tstore, recorders := s.recorders.set i r.writers })
        (recordEntry host s.schema e now) s := by
  rw [step, read_bind, hi]

/-- What is not of the years, or does not encode, leaves everything as it is. -/
theorem recordEntry_cases (host : Host Nested) (schema : Schema) (e : TimedRecord Nested)
    (now : BucketID) (r : Recorder) :
    (∃ failure, recordEntry host schema e now r = (.error failure, r)) ∨
    ∃ start encoded,
      Cmc.calcBucketStart r.tstore.attrs.hoursPerBucket e.timestamp.val = some start ∧
      encodeTimestampedRecord host (e.timestamp - .ofInt start) e.record schema = .ok encoded ∧
      recordEntry host schema e now r
        = mapError .store (record e.timestamp.val.floor encoded now) r := by
  rw [recordEntry, read_bind]
  cases hstart : Cmc.calcBucketStart r.tstore.attrs.hoursPerBucket e.timestamp.val with
  | none => exact .inl ⟨_, rfl⟩
  | some start =>
    dsimp only
    cases hencode : encodeTimestampedRecord host (e.timestamp - .ofInt start) e.record schema with
    | error failure => exact .inl ⟨failure, rfl⟩
    | ok encoded => exact .inr ⟨start, encoded, rfl, hencode, rfl⟩

/-- The bucket that is opened has the entries it had, or none if it is made. -/
theorem Faithful.opened (h : Faithful host t schema recorders entries) {gone : List Bucket}
    (hgone : t.Deletable gone) {start : BucketStart} {now id : BucketID} {t₁ : TStore}
    (hopened : Opened (t.dropAll gone) start now id t₁)
    (hnot : ∀ writers ∈ recorders, ∀ b ∈ writers, ∀ file,
      fileOf t₁ b = some file → fileOf t b = some file) :
    Faithful host t₁ schema recorders (Function.update entries (start, id)
      (if fileOf t₁ (start, id) = fileOf t (start, id) then entries (start, id) else [])) := by
  have hdropped := h.dropAll hgone
  cases hopened with
  | there hstart =>
    have hb := (hdropped.books.get?_buckets (start, id)).mp hstart
    rw [if_pos (fileOf_dropAll h.books hgone hb), Function.update_eq_self]
    exact hdropped
  | @made gone' hgone' hstart hpath =>
    have hfile : fileOf (((t.dropAll gone).dropAll gone').addBucket (start, now)) (start, now)
        = some t.files.contents.length := by
      rw [fileOf_addBucket_self, contents_dropAll, contents_dropAll]
    have hnew : fileOf t (start, now) ≠ some t.files.contents.length := fun hold =>
      lt_irrefl _ (h.books.numbered _ _ hold)
    rw [if_neg fun heq => hnew (heq.symm.trans hfile)]
    refine (hdropped.dropAll hgone').addBucket hstart ?_ fun ws hws hb => hnew ?_
    · rwa [getPathOf, dropAll_attrs]
    · exact hnot ws hws _ hb _ hfile

theorem isOpen_of_keeping {ws ws' : Dict Bucket Writer} {file : Nat} (h : Keeping t ws b file ws')
    (hb : b ∈ t.bucketSizes) (hws : ∀ b w, ws.get? b = some w → Open t b w) :
    fileOf t b = some file ∧ ∀ b w, ws'.get? b = some w → Open t b w := by
  cases h with
  | kept hw =>
    obtain ⟨file', heq, hfile⟩ := hws b _ hw
    cases heq
    exact ⟨hfile hb, hws⟩
  | opened hfile =>
    refine ⟨hfile, fun c w hw => ?_⟩
    rw [Dict.get?_set, Dict.get?_empty] at hw
    split_ifs at hw with heq
    cases hw
    subst heq
    exact ⟨file, rfl, fun _ => hfile⟩

/-- What a record comes to is noted. -/
theorem Faithful.recorded (h : Faithful host t schema recorders entries) {i : Nat}
    (hi : recorders[i]? = some writers) {gone : List Bucket} (hgone : t.Deletable gone)
    {start : BucketStart} {now id : BucketID} {t₁ : TStore}
    (hopened : Opened (t.dropAll gone) start now id t₁)
    (hnot : ∀ writers ∈ recorders, ∀ b ∈ writers, ∀ file,
      fileOf t₁ b = some file → fileOf t b = some file)
    {file size : Nat} {writers' : Dict Bucket Writer}
    (hkeeping : Keeping t₁ writers (start, id) file writers')
    (hsize : t₁.bucketSizes.get? (start, id) = some size)
    (hstart : t.calcBucketStart e.timestamp.val.floor = start)
    (he : Belongs host schema t.attrs.hoursPerBucket (start, id) e) :
    let t' := t₁.extend (start, id) file size (lineOf host schema (start, id) e)
    Faithful host t' schema (recorders.set i writers') (added t t' e entries) := by
  intro t'
  have hfaithful := h.opened hgone hopened hnot
  have hb := Dict.mem_of_get? hsize
  obtain ⟨hfile, hisOpen⟩ := isOpen_of_keeping hkeeping hb
    (hfaithful.isOpen writers (List.mem_of_getElem? hi))
  have hattrs : t₁.attrs = t.attrs := by
    cases hopened with
    | there => exact dropAll_attrs ..
    | made => exact (dropAll_attrs ..).trans (dropAll_attrs ..)
  have hid : t'.buckets.get? start = some id := (hfaithful.books.get?_buckets (start, id)).mpr hb
  have hadded : added t t' e entries = Function.update entries (start, id)
      ((if fileOf t₁ (start, id) = fileOf t (start, id) then entries (start, id) else [])
        ++ [e]) := by
    rw [added]
    simp only [hstart, hid]
    rfl
  have hextended := (hfaithful.setWriters i hisOpen).extend hsize hfile (hattrs ▸ he)
  rw [Function.update_self, Function.update_idem] at hextended
  rw [hadded]
  exact hextended

/-- A step that makes no bucket of a recorder's again keeps the store faithful. -/
theorem step_faithful (h : Faithful host s.tstore s.schema s.recorders entries) {op : Op Nested}
    (hop : ¬ MadeAgain host s op) :
    Faithful host (step host op s).2.tstore (step host op s).2.schema (step host op s).2.recorders
      (noted host s entries op) := by
  cases op with
  | newRecorder =>
    refine { h with isOpen := fun writers hwriters => ?_ }
    rcases List.mem_append.mp hwriters with hold | hnew
    · exact h.isOpen writers hold
    · rw [List.mem_singleton.mp hnew]
      exact fun b w hw => nomatch hw
  | record i e now =>
    cases hi : s.recorders[i]? with
    | none =>
      have hstep : step host (.record i e now) s = (.ok (), s) := by
        rw [step, read_bind, hi]
        rfl
      rw [noted, hi, hstep]
      exact h
    | some writers =>
      have hopen := h.isOpen writers (List.mem_of_getElem? hi)
      have hwriters := h.entered hi
      have hstep : step host (.record i e now) s = _ := step_record hi e now
      rcases recordEntry_cases host s.schema e now ⟨s.tstore, writers⟩ with
        ⟨failure, hfailed⟩ | ⟨start, encoded, hstart, hencoded, hrecord⟩
      · rw [on_apply, hfailed] at hstep
        rw [noted, hi, hstep]
        exact h.setWriters i hopen
      · have hhours : FactorOf24 s.tstore.attrs.hoursPerBucket := s.tstore.attrs.factorOf24
        have hstart' : s.tstore.calcBucketStart e.timestamp.val.floor = start :=
          (hhours.start_eq hstart).symm
        have houtcome := record_outcome h.books hwriters e.timestamp.val.floor encoded now
        rw [hstart'] at houtcome
        rw [on_apply, hrecord, mapError] at hstep
        generalize Recorder.record e.timestamp.val.floor encoded now ⟨s.tstore, writers⟩ = r
          at houtcome hstep
        cases houtcome with
        | failed failure hgone hgone' =>
          rw [noted, hi, hstep]
          have hdropped := (h.dropAll hgone).dropAll hgone'
          exact hdropped.setWriters i (hdropped.isOpen writers (List.mem_of_getElem? hi))
        | @recorded gone id t₁ file size writers' hgone hopened hkeeping hsize =>
          obtain rfl := lineOf_eq (b := (start, id)) hencoded
          have hnot : ∀ writers ∈ s.recorders, ∀ b ∈ writers, ∀ file,
              fileOf t₁ b = some file → fileOf s.tstore b = some file := by
            intro ws hws b hb file' hfile
            by_contra hne
            refine hop ⟨ws, hws, b, hb, file', ?_, hne⟩
            rw [hstep]
            exact hfile
          rw [noted, hi, hstep]
          exact h.recorded hi hgone hopened hnot hkeeping hsize hstart' ⟨hstart, hencoded⟩

theorem fileOf_of_dropAll {gone : List Bucket} {file : Nat}
    (hfile : fileOf (t.dropAll gone) b = some file) : fileOf t b = some file := by
  rw [fileOf, getPathOf, dropAll_attrs] at hfile
  exact file_dropAll hfile

/-- The file of a bucket of another identifier is the one it had. -/
theorem fileOf_of_outcome {start : BucketStart} {now : BucketID} {encoded : List UInt8}
    {r : Except Error Unit × Recorder} (h : Outcome t writers start now encoded r) {file : Nat}
    (hnow : b.2 ≠ now) (hfile : fileOf r.2.tstore b = some file) : fileOf t b = some file := by
  cases h with
  | failed e hgone hgone' => exact fileOf_of_dropAll (fileOf_of_dropAll hfile)
  | @recorded gone _ _ _ _ _ hgone hopened hkeeping hsize =>
    cases hopened with
    | there => exact fileOf_of_dropAll hfile
    | @made gone' hgone' hstart hpath =>
      have hset := (Dict.get?_set _ _ _ _).symm.trans hfile
      rw [if_neg fun heq => hnow (congrArg Prod.snd heq)] at hset
      have hkept : fileOf ((t.dropAll gone).dropAll gone') b = some file := hset
      exact fileOf_of_dropAll (fileOf_of_dropAll hkept)

/-- The store is left alone, or it is what comes of a record. -/
theorem step_outcome (h : Faithful host s.tstore s.schema s.recorders entries) (i : Nat)
    (e : TimedRecord Nested) (now : BucketID) :
    (step host (.record i e now) s).2.tstore = s.tstore ∨
      ∃ writers start encoded r, r = Recorder.record e.timestamp.val.floor encoded now
          ⟨s.tstore, writers⟩ ∧ Outcome s.tstore writers start now encoded r ∧
        (step host (.record i e now) s).2.tstore = r.2.tstore ∧
        Cmc.calcBucketStart s.tstore.attrs.hoursPerBucket e.timestamp.val = some start := by
  cases hi : s.recorders[i]? with
  | none =>
    rw [step, read_bind, hi]
    exact .inl rfl
  | some writers =>
    rw [step_record hi]
    rcases recordEntry_cases host s.schema e now ⟨s.tstore, writers⟩ with
      ⟨failure, hfailed⟩ | ⟨start, encoded, hstart, -, hrecord⟩
    · rw [on_apply, hfailed]
      exact .inl rfl
    · have hhours : FactorOf24 s.tstore.attrs.hoursPerBucket := s.tstore.attrs.factorOf24
      have houtcome := record_outcome h.books (h.entered hi) e.timestamp.val.floor encoded now
      rw [TStore.calcBucketStart, ← hhours.start_eq hstart] at houtcome
      rw [on_apply, hrecord]
      exact .inr ⟨writers, start, encoded, _, rfl, houtcome, rfl, hstart⟩

theorem fileOf_of_step (h : Faithful host s.tstore s.schema s.recorders entries) {i : Nat}
    {now : BucketID} (hnow : b.2 ≠ now) {file : Nat}
    (hfile : fileOf (step host (.record i e now) s).2.tstore b = some file) :
    fileOf s.tstore b = some file := by
  rcases step_outcome h i e now with hsame | ⟨writers, start, encoded, r, -, houtcome, hstep, -⟩
  · rwa [hsame] at hfile
  · rw [hstep] at hfile
    exact fileOf_of_outcome houtcome hnow hfile

/-- A clock that does not give the identifier of a writer's bucket makes none of them again. -/
theorem not_madeAgain (h : Faithful host s.tstore s.schema s.recorders entries) {i : Nat}
    {now : BucketID} (hnow : ∀ writers ∈ s.recorders, ∀ b ∈ writers, b.2 ≠ now) :
    ¬ MadeAgain host s (.record i e now) := by
  rintro ⟨ws, hws, b, hb, file, hfile, hnew⟩
  exact hnew (fileOf_of_step h (hnow ws hws b hb) hfile)

theorem after_faithful (h : Faithful host s.tstore s.schema s.recorders entries)
    {ops : List (Op Nested)}
    (hops : AllSteps (step host) (fun s op => ¬ MadeAgain host s op) s ops) :
    Faithful host (after (step host) s ops).tstore (after (step host) s ops).schema
      (after (step host) s ops).recorders (entriesAfter host s entries ops) := by
  induction ops generalizing s entries with
  | nil => exact h
  | cons op ops ih => exact ih (step_faithful h hops.1) hops.2

end PerfLog

end Urnest.Cmc
