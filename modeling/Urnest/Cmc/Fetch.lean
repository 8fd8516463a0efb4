import Mathlib
import Urnest.Cmc.Interval
import Urnest.Cmc.Recording
import Urnest.Lib.Stopping

/-!
# Fetching

`fetch` goes through the buckets of an interval, and through the lines of each; it yields the
records of the interval and returns after the one with which a limit has been reached.

The number of records is not exceeded, if it is not zero. The number of bytes may be, by the
last record, since what `fetch` goes by is how many bytes have been yielded already.

A timestamp comes back as the start of its bucket and the time since then. From the epoch on
that is the timestamp; before it may be rounded (`restored_eq`).
-/

namespace Urnest.Cmc

open Lib Action TStore

variable {Nested : Type}

/-- What has been yielded, and how much of it there is. -/
structure Fetching (Nested : Type) where
  tstore : TStore
  yielded : List (Binary64 × List (Value Nested))
  recordsYielded : Nat
  bytesYielded : Nat

/-- An entry and the bucket it is in -/
abbrev Located (Nested : Type) := Bucket × TimedRecord Nested

namespace PerfLog

section Fetch

variable (host : Host Nested) (schema : Schema) (begin_ end_ : Binary64)
  (maxRecords maxBytes : Int) (corruptionHandler : Failure → Except Failure Unit)

/-- A call of the caller's function, which may raise. -/
def handleCorruption (failure : Failure) : Action (Fetching Nested) Failure Unit :=
  match corruptionHandler failure with
  | .ok _ => pure ()
  | .error e => raise e

/-- One turn of the inner loop of `fetch`; true to return. -/
def fetchLine (bucketStart : Binary64) (l : List UInt8) : Action (Fetching Nested) Failure Bool :=
  let decoded := if l.getLast? ≠ some newline then .error .assertFailed
    else decodeTimestampedRecord host l schema
  match decoded with
  | .error failure => do
    handleCorruption corruptionHandler failure
    pure false
  | .ok (timeDelta, colValues, size) => do
    let timestamp := bucketStart + timeDelta
    if begin_.val ≤ timestamp.val ∧ timestamp.val < end_.val then do
      change fun s => { s with
        yielded := s.yielded ++ [(timestamp, colValues)]
        recordsYielded := s.recordsYielded + 1
        bytesYielded := s.bytesYielded + size }
      let s ← read
      pure (decide (s.recordsYielded = maxRecords ∨ s.bytesYielded ≥ maxBytes))
    else pure false

/-- The inner loop of `fetch` -/
def fetchLines (bucketStart : Binary64) :
    List (List UInt8) → Action (Fetching Nested) Failure Bool
  | [] => pure false
  | l :: ls => do
    let done ← fetchLine host schema begin_ end_ maxRecords maxBytes corruptionHandler bucketStart l
    if done then pure true else fetchLines bucketStart ls

def onStore {α : Type} (x : Action TStore Error α) : Action (Fetching Nested) Failure α :=
  mapError .store (on Fetching.tstore (fun t s => { s with tstore := t }) x)

/-- One turn of the outer loop of `fetch` -/
def fetchBucket (b : Bucket) : Action (Fetching Nested) Failure Bool :=
  handle
    (do
      let r ← onStore (newReader b)
      let file ← onStore (openFile r.bucket)
      let s ← read
      fetchLines host schema begin_ end_ maxRecords maxBytes corruptionHandler (.ofInt b.1)
        (readLines (s.tstore.files.content file)))
    fun failure => do
      handleCorruption corruptionHandler failure
      pure false

/-- The outer loop of `fetch` -/
def fetchBuckets : List Bucket → Action (Fetching Nested) Failure Unit
  | [] => pure ()
  | b :: bs => do
    let done ← fetchBucket host schema begin_ end_ maxRecords maxBytes corruptionHandler b
    if done then pure () else fetchBuckets bs

/-- `fetch` -/
def fetch : Action (Fetching Nested) Failure Unit := do
  let s ← read
  match s.tstore.getBucketsOf begin_.val end_.val with
  | none => raise .year
  | some bs => fetchBuckets host schema begin_ end_ maxRecords maxBytes corruptionHandler bs

end Fetch

/-! ## What is yielded -/

/-- The timestamp that an entry of a bucket comes back with -/
def restored (b : Bucket) (e : TimedRecord Nested) : Binary64 :=
  .ofInt b.1 + (e.timestamp - .ofInt b.1)

def inInterval (begin_ end_ x : Binary64) : Bool := begin_.val ≤ x.val ∧ x.val < end_.val

/-- The entries of a bucket that come back in an interval -/
def fetchedOf (begin_ end_ : Binary64) (b : Bucket) (es : List (TimedRecord Nested)) :
    List (Located Nested) :=
  (es.filter fun e => inInterval begin_ end_ (restored b e)).map (b, ·)

/-- The stored bytes of some entries -/
def storedBytes (host : Host Nested) (schema : Schema) (p : List (Located Nested)) : Nat :=
  (p.map fun x => (lineOf host schema x.1 x.2).length).sum

/-- The state of `fetch` when it has yielded some entries -/
def fetching (host : Host Nested) (schema : Schema) (t : TStore)
    (p : List (Located Nested)) : Fetching Nested :=
  ⟨t, p.map fun x => (restored x.1 x.2, x.2.record), p.length, storedBytes host schema p⟩

/-- As `fetch` tells that it has yielded enough -/
def enough (host : Host Nested) (schema : Schema) (maxRecords maxBytes : Int)
    (p : List (Located Nested)) : Bool :=
  p.length = maxRecords ∨ storedBytes host schema p ≥ maxBytes

variable {host : Host Nested} {t : TStore} {schema : Schema} {recorders : List (Dict Bucket Writer)}
  {entries : Entries Nested} {b : Bucket} {e : TimedRecord Nested} {begin_ end_ : Binary64}
  {maxRecords maxBytes : Int} {corruptionHandler : Failure → Except Failure Unit}

theorem fetching_concat (p : List (Located Nested)) :
    fetching host schema t (p ++ [(b, e)]) =
      { fetching host schema t p with
        yielded := (fetching host schema t p).yielded ++ [(restored b e, e.record)]
        recordsYielded := (fetching host schema t p).recordsYielded + 1
        bytesYielded := (fetching host schema t p).bytesYielded
          + (lineOf host schema b e).length } := by
  simp [fetching, storedBytes]

theorem fetchLine_eq {hours : Nat} (he : Belongs host schema hours b e)
    (p : List (Located Nested)) :
    fetchLine host schema begin_ end_ maxRecords maxBytes corruptionHandler (.ofInt b.1)
        (lineOf host schema b e) (fetching host schema t p)
      = if begin_.val ≤ (restored b e).val ∧ (restored b e).val < end_.val
        then (.ok (enough host schema maxRecords maxBytes (p ++ [(b, e)])),
          fetching host schema t (p ++ [(b, e)]))
        else (.ok false, fetching host schema t p) := by
  obtain ⟨-, -, hline⟩ := encode_eq_ok.mp he.encoded
  have hlast : (lineOf host schema b e).getLast? = some newline := by
    rw [hline]
    exact List.getLast?_concat
  rw [fetchLine, if_neg (not_not.mpr hlast), decode_encode he.encoded]
  dsimp only
  rw [← restored]
  split_ifs with hin
  · rw [fetching_concat]
    simp [enough, fetching, storedBytes, pure_apply]
  · rfl

theorem fetchLines_eq {hours : Nat} {es : List (TimedRecord Nested)}
    (hes : ∀ e ∈ es, Belongs host schema hours b e) (p : List (Located Nested)) :
    fetchLines host schema begin_ end_ maxRecords maxBytes corruptionHandler (.ofInt b.1)
        (es.map (lineOf host schema b)) (fetching host schema t p)
      = (.ok (takeUntil (enough host schema maxRecords maxBytes) p
          (fetchedOf begin_ end_ b es)).2,
        fetching host schema t (takeUntil (enough host schema maxRecords maxBytes) p
          (fetchedOf begin_ end_ b es)).1) := by
  induction es generalizing p with
  | nil => rfl
  | cons e es ih =>
    obtain ⟨he, hes⟩ := List.forall_mem_cons.mp hes
    rw [List.map_cons, fetchLines]
    by_cases hin : begin_.val ≤ (restored b e).val ∧ (restored b e).val < end_.val
    · have hfetched : fetchedOf begin_ end_ b (e :: es) = (b, e) :: fetchedOf begin_ end_ b es := by
        simp [fetchedOf, inInterval, hin]
      rw [bind_ok ((fetchLine_eq he p).trans (if_pos hin)), hfetched, takeUntil]
      split_ifs with henough
      · rfl
      · exact ih hes _
    · have hfetched : fetchedOf begin_ end_ b (e :: es) = fetchedOf begin_ end_ b es := by
        simp [fetchedOf, inInterval, hin]
      rw [bind_ok ((fetchLine_eq he p).trans (if_neg hin)), hfetched]
      exact ih hes p

/-- What a bucket that is recorded has to be fetched is yielded. -/
theorem fetchBucket_eq (h : Faithful host t schema recorders entries) (hb : b ∈ t.bucketSizes)
    (p : List (Located Nested)) :
    fetchBucket host schema begin_ end_ maxRecords maxBytes corruptionHandler b
        (fetching host schema t p)
      = (.ok (takeUntil (enough host schema maxRecords maxBytes) p
          (fetchedOf begin_ end_ b (entries b))).2,
        fetching host schema t (takeUntil (enough host schema maxRecords maxBytes) p
          (fetchedOf begin_ end_ b (entries b))).1) := by
  obtain ⟨file, hfile, -⟩ := h.books.exists_file hb
  have hreader : newReader b t = (.ok ⟨b⟩, t) := by
    rw [newReader, bind_ok (verifyBucketExists_recorded h.books hb)]
    rfl
  have hlines : readLines (t.files.content file) = (entries b).map (lineOf host schema b) := by
    rw [← bytesOf_eq hb hfile, h.bytes b hb]
    refine @readLines_flatten _ host schema _ fun l hl => ?_
    obtain ⟨e, he, rfl⟩ := List.mem_map.mp hl
    exact ⟨_, _, (h.belongs b e he).encoded⟩
  have hreader' : onStore (newReader b) (fetching host schema t p)
      = (.ok ⟨b⟩, fetching host schema t p) := by
    simp only [onStore, mapError, on_apply, fetching, hreader, Except.mapError]
  have hopened : onStore (openFile b) (fetching host schema t p)
      = (.ok file, fetching host schema t p) := by
    simp only [onStore, mapError, on_apply, fetching, openFile_eq hfile, Except.mapError]
  refine handle_ok ?_
  rw [bind_ok hreader', bind_ok hopened, read_bind]
  change fetchLines host schema begin_ end_ maxRecords maxBytes corruptionHandler (.ofInt b.1)
    (readLines (t.files.content file)) _ = _
  rw [hlines]
  exact fetchLines_eq (h.belongs b) p

theorem fetchBuckets_eq (h : Faithful host t schema recorders entries) {bs : List Bucket}
    (hbs : ∀ b ∈ bs, b ∈ t.bucketSizes) (p : List (Located Nested)) :
    fetchBuckets host schema begin_ end_ maxRecords maxBytes corruptionHandler bs
        (fetching host schema t p)
      = (.ok (), fetching host schema t (takeUntil (enough host schema maxRecords maxBytes) p
          (bs.flatMap fun b => fetchedOf begin_ end_ b (entries b))).1) := by
  induction bs generalizing p with
  | nil => rfl
  | cons b bs ih =>
    obtain ⟨hb, hbs⟩ := List.forall_mem_cons.mp hbs
    rw [fetchBuckets, bind_ok (fetchBucket_eq h hb p), List.flatMap_cons, takeUntil_append]
    split_ifs with hdone
    · rfl
    · exact ih hbs _

/-! ## What is wanted -/

/-- Some entries of a store, in the order of the buckets, and of each in the order they came. -/
def inOrder (t : TStore) (entries : Entries Nested)
    (p : Bucket → TimedRecord Nested → Bool) : List (Located Nested) :=
  (sortBuckets t.buckets.items).flatMap fun b => ((entries b).filter (p b)).map (b, ·)

/-- An entry is wanted for its timestamp; before the epoch, for the one that it comes back with,
if its bucket is one of those that are looked in. -/
def wanted (t : TStore) (begin_ end_ : Binary64) (b : Bucket) (e : TimedRecord Nested) : Bool :=
  if 0 ≤ e.timestamp.val then inInterval begin_ end_ e.timestamp
  else b ∈ (t.getBucketsOf begin_.val end_.val).getD [] && inInterval begin_ end_ (restored b e)

/-- The timestamp that is yielded: that of the entry, or, before the epoch, what is left of it. -/
def returned (b : Bucket) (e : TimedRecord Nested) : Binary64 :=
  if 0 ≤ e.timestamp.val then e.timestamp else restored b e

/-- What is kept of a timestamp is the timestamp, from the epoch on. -/
theorem restored_eq (hstart : Cmc.calcBucketStart t.attrs.hoursPerBucket e.timestamp.val = some b.1)
    (hepoch : 0 ≤ e.timestamp.val) : restored b e = e.timestamp := by
  obtain ⟨⟨-, hyear⟩, -⟩ := timegm_eq.mp hstart
  have hnonneg : 0 ≤ b.1 := by
    rw [FactorOf24.start_eq t.attrs.factorOf24 hstart]
    have hfloor : 0 ≤ e.timestamp.val.floor := Rat.le_floor_iff.mpr hepoch
    positivity
  have hsmall : e.timestamp.val.floor + 1 ≤ 2 ^ 53 := by
    have hlast := Calendar.lt_yearOf (epochOrd + e.timestamp.val.floor / 86400)
    simp only [gmtime, Calendar.ofOrdinal, epochOrd] at hyear hlast
    omega
  refine Binary64.add_sub_cancel hnonneg (calcBucketStart_bounds hstart).1 ?_
  have hlt : e.timestamp.val < (e.timestamp.val.floor + 1 : ℤ) :=
    Rat.floor_lt_iff.mp (Int.lt_succ _)
  exact hlt.trans_le (by exact_mod_cast hsmall)

/-- What a filter leaves out adds nothing. -/
theorem flatMap_filter {α β : Type} (p : α → Bool) (f : α → List β) (l : List α) :
    (l.filter p).flatMap f = l.flatMap fun a => if p a then f a else [] := by
  induction l with
  | nil => rfl
  | cons a l ih => cases hp : p a <;> simp [hp, ih]

/-- What is wanted is looked in, and comes back in the interval. -/
theorem wanted_eq {bs : List Bucket} (hbs : t.getBucketsOf begin_.val end_.val = some bs)
    (hb : b ∈ t.buckets.items) (he : Belongs host schema t.attrs.hoursPerBucket b e) :
    wanted t begin_ end_ b e = (decide (b ∈ bs) && inInterval begin_ end_ (restored b e)) := by
  rw [wanted, hbs, Option.getD_some]
  split_ifs with hepoch
  · rw [restored_eq he.start hepoch]
    cases hin : inInterval begin_ end_ e.timestamp with
    | false => rw [Bool.and_false]
    | true =>
      have hmem : b ∈ bs := by
        obtain ⟨hbegin, hend⟩ := of_decide_eq_true hin
        obtain ⟨beginBucket, endBucket, hbegin', hend', rfl⟩ := getBucketsOf_eq_some hbs
        have hfrom := calcBucketStart_le hbegin' he.start hbegin
        have hto := calcBucketStart_le he.start hend' hend.le
        simp [mem_sortBuckets, hb, hfrom, hto]
      rw [decide_eq_true hmem]
      rfl
  · rfl

/-- The buckets that are looked in have what is wanted, in its order. -/
theorem flatMap_fetchedOf (h : Faithful host t schema recorders entries) {bs : List Bucket}
    (hbs : t.getBucketsOf begin_.val end_.val = some bs) :
    (bs.flatMap fun b => fetchedOf begin_ end_ b (entries b))
      = inOrder t entries (wanted t begin_ end_) := by
  obtain ⟨beginBucket, endBucket, -, -, heq⟩ := getBucketsOf_eq_some hbs
  have hmem : ∀ b ∈ sortBuckets t.buckets.items,
      decide (b ∈ bs) = decide (beginBucket ≤ b.1 ∧ b.1 ≤ endBucket) := by
    intro b hb
    simp [heq, hb]
  rw [heq, flatMap_filter, inOrder]
  refine List.flatMap_congr fun b hb => ?_
  have hwanted : (entries b).filter (wanted t begin_ end_ b) = (entries b).filter fun e =>
      decide (beginBucket ≤ b.1 ∧ b.1 ≤ endBucket) && inInterval begin_ end_ (restored b e) := by
    refine List.filter_congr fun e he => ?_
    rw [wanted_eq hbs (mem_sortBuckets.mp hb) (h.belongs b e he), hmem b hb]
  rw [hwanted]
  split_ifs with hbetween <;> simp [fetchedOf, hbetween]

/-! ## Limits -/

/-- No more records than the limit, and none once the bytes have come to theirs. -/
structure Respects (host : Host Nested) (schema : Schema) (maxRecords maxBytes : Int)
    (p : List (Located Nested)) : Prop where
  records : p.length ≤ maxRecords
  bytes : ∀ front x, p = front ++ [x] → storedBytes host schema front < maxBytes

theorem storedBytes_append (p q : List (Located Nested)) :
    storedBytes host schema (p ++ q) = storedBytes host schema p + storedBytes host schema q := by
  simp [storedBytes]

theorem enough_eq_false {p : List (Located Nested)} :
    enough host schema maxRecords maxBytes p = false ↔
      (p.length : Int) ≠ maxRecords ∧ storedBytes host schema p < maxBytes := by
  rw [enough, decide_eq_false_iff_not, not_or, not_le]

/-- `fetch` stops where a limit that is not zero tells it to. -/
theorem notBefore_iff_respects (hrecords : 0 < maxRecords) (hbytes : 0 < maxBytes)
    (p : List (Located Nested)) :
    NotBefore (enough host schema maxRecords maxBytes) p ↔
      Respects host schema maxRecords maxBytes p := by
  constructor
  · intro h
    constructor
    · by_contra hlt
      have hlength : maxRecords.toNat < p.length := by omega
      have hfront : (p.take maxRecords.toNat).length = maxRecords.toNat :=
        List.length_take_of_le hlength.le
      have henough := h _ _ (List.take_append_drop maxRecords.toNat p).symm
        (List.ne_nil_of_length_pos (by omega)) (List.ne_nil_of_length_pos (by simp [hlength]))
      exact (enough_eq_false.mp henough).1 (by omega)
    · rintro front x rfl
      rcases eq_or_ne front [] with rfl | hne
      · exact hbytes
      · exact (enough_eq_false.mp (h front [x] rfl hne (List.cons_ne_nil _ _))).2
  · rintro ⟨hlength, hlast⟩ front back rfl hfront hback
    obtain ⟨back, x, rfl⟩ := (List.eq_nil_or_concat back).resolve_left hback
    rw [List.concat_eq_append, ← List.append_assoc] at hlast
    rw [List.concat_eq_append, ← List.append_assoc, List.length_append] at hlength
    have hstored := hlast (front ++ back) x rfl
    rw [storedBytes_append] at hstored
    rw [List.length_append, List.length_singleton] at hlength
    exact enough_eq_false.mpr ⟨by omega, by omega⟩

/-! ## Fetching -/

/-- The time is in the years of `datetime`. -/
def inYears (t : TStore) (x : Binary64) : Bool :=
  (Cmc.calcBucketStart t.attrs.hoursPerBucket x.val).isSome

theorem returned_eq (he : Belongs host schema t.attrs.hoursPerBucket b e) :
    restored b e = returned b e := by
  rw [returned]
  split_ifs with hepoch
  · exact restored_eq he.start hepoch
  · rfl

theorem fetch_outside {s : Fetching Nested}
    (hyears : ¬ (inYears s.tstore begin_ ∧ inYears s.tstore end_)) :
    fetch host schema begin_ end_ maxRecords maxBytes corruptionHandler s = (.error .year, s) := by
  have hnone : s.tstore.getBucketsOf begin_.val end_.val = none := by
    by_contra hsome
    obtain ⟨bs, hbs⟩ := Option.ne_none_iff_exists'.mp hsome
    obtain ⟨beginBucket, endBucket, hbegin, hend, -⟩ := getBucketsOf_eq_some hbs
    exact hyears ⟨by rw [inYears, hbegin]; rfl, by rw [inYears, hend]; rfl⟩
  rw [fetch, read_bind, hnone]
  rfl

/-- A fetch yields as many of the entries as a limit lets it, with the timestamps they have. -/
def Fetches (host : Host Nested) (schema : Schema) (t : TStore)
    (x : Action (Fetching Nested) Failure Unit) (limit : List (Located Nested) → Prop)
    (es : List (Located Nested)) (timestamp : Bucket → TimedRecord Nested → Binary64) : Prop :=
  ∃ p, Longest limit p es ∧ x ⟨t, [], 0, 0⟩ = (.ok (),
    ⟨t, p.map fun e => (timestamp e.1 e.2, e.2.record), p.length, storedBytes host schema p⟩)

variable {x : Action (Fetching Nested) Failure Unit}
  {limit : List (Located Nested) → Prop} {es : List (Located Nested)}
  {timestamp : Bucket → TimedRecord Nested → Binary64}

theorem Fetches.bytesYielded_eq (h : Fetches host schema t x limit es timestamp) :
    ∃ p, limit p ∧ storedBytes host schema p = (x ⟨t, [], 0, 0⟩).2.bytesYielded := by
  obtain ⟨p, hlongest, hfetch⟩ := h
  exact ⟨p, hlongest.has, by rw [hfetch]⟩

/-- Where the limit lets it, all is yielded. -/
theorem Fetches.recordsYielded_eq (h : Fetches host schema t x limit es timestamp)
    (hes : limit es) :
    (x ⟨t, [], 0, 0⟩).2.recordsYielded = es.length := by
  obtain ⟨p, hlongest, hfetch⟩ := h
  have hall := hlongest.longest es List.prefix_rfl hes
  rw [hfetch, hall.eq_of_length_le hlongest.begins.length_le]

theorem fetch_eq (h : Faithful host t schema recorders entries)
    (hyears : inYears t begin_ ∧ inYears t end_) (hrecords : 0 < maxRecords)
    (hbytes : 0 < maxBytes) :
    Fetches host schema t (fetch host schema begin_ end_ maxRecords maxBytes corruptionHandler)
      (Respects host schema maxRecords maxBytes) (inOrder t entries (wanted t begin_ end_))
      returned := by
  obtain ⟨beginBucket, hbegin⟩ := Option.isSome_iff_exists.mp hyears.1
  obtain ⟨endBucket, hend⟩ := Option.isSome_iff_exists.mp hyears.2
  have hbs := mem_getBucketsOf hbegin hend
  have hmem : ∀ b ∈ (sortBuckets t.buckets.items).filter fun b =>
      beginBucket ≤ b.1 ∧ b.1 ≤ endBucket, b ∈ t.bucketSizes := fun b hb =>
    (h.books.agree b).mpr (mem_sortBuckets.mp (List.mem_filter.mp hb).1)
  have hfetch : fetch host schema begin_ end_ maxRecords maxBytes corruptionHandler
      (fetching host schema t []) = (.ok (), fetching host schema t
        (takeUntil (enough host schema maxRecords maxBytes) []
          (inOrder t entries (wanted t begin_ end_))).1) := by
    have hanswer : (fetching host schema t []).tstore.getBucketsOf begin_.val end_.val = _ := hbs
    rw [fetch, read_bind, ← flatMap_fetchedOf h hbs, hanswer]
    exact fetchBuckets_eq h hmem []
  have hlongest := (longest_takeUntil (enough host schema maxRecords maxBytes)
    (inOrder t entries (wanted t begin_ end_))).congr (notBefore_iff_respects hrecords hbytes)
  refine ⟨_, hlongest, hfetch.trans ?_⟩
  have hreturned : ∀ x ∈ (takeUntil (enough host schema maxRecords maxBytes) []
      (inOrder t entries (wanted t begin_ end_))).1,
      (restored x.1 x.2, x.2.record) = (returned x.1 x.2, x.2.record) := by
    intro x hx
    obtain ⟨b, -, hb⟩ := List.mem_flatMap.mp (hlongest.begins.subset hx)
    obtain ⟨e, he, rfl⟩ := List.mem_map.mp hb
    rw [returned_eq (h.belongs b e (List.mem_filter.mp he).1)]
  rw [fetching, List.map_congr_left hreturned]

section Runs

variable (host : Host Nested) (attrs : Attrs) (schema : Schema) (ops : List (Op Nested))
  (begin_ end_ : Binary64) (maxRecords maxBytes : Int)
  (corruptionHandler : Failure → Except Failure Unit)

/-- A fetch after a run yields the longest beginning of what is wanted that respects the limits,
where the interval is in the years of `datetime`. -/
def FetchesRecorded : Prop :=
  let s := after (step host) (.new attrs schema) ops
  let entries := entriesAfter host (.new attrs schema) (fun _ => []) ops
  let fetching := fetch host s.schema begin_ end_ maxRecords maxBytes corruptionHandler
  if inYears s.tstore begin_ ∧ inYears s.tstore end_ then
    Fetches host s.schema s.tstore fetching (Respects host s.schema maxRecords maxBytes)
      (inOrder s.tstore entries (wanted s.tstore begin_ end_)) returned
  else fetching ⟨s.tstore, [], 0, 0⟩ = (.error .year, ⟨s.tstore, [], 0, 0⟩)

/-- A fetch after a run yields the longest beginning of the entries of the interval that has no
more records and no more bytes than the limits. -/
def FetchesWithin : Prop :=
  let s := after (step host) (.new attrs schema) ops
  let entries := entriesAfter host (.new attrs schema) (fun _ => []) ops
  Fetches host s.schema s.tstore
    (fetch host s.schema begin_ end_ maxRecords maxBytes corruptionHandler)
    (fun p => p.length ≤ maxRecords ∧ storedBytes host s.schema p ≤ maxBytes)
    (inOrder s.tstore entries fun _ e => inInterval begin_ end_ e.timestamp)
    fun _ e => e.timestamp

variable {attrs schema ops maxRecords maxBytes}

/-- Limits that are not zero are respected after any run in which no bucket that a recorder has a
writer for is made again. -/
theorem fetch_recorded
    (hops : AllSteps (step host) (fun s op => ¬ MadeAgain host s op) (.new attrs schema) ops)
    (hrecords : 0 < maxRecords) (hbytes : 0 < maxBytes) :
    FetchesRecorded host attrs schema ops begin_ end_ maxRecords maxBytes corruptionHandler := by
  have hfaithful := after_faithful (faithful_new host attrs schema) hops
  rw [FetchesRecorded]
  split_ifs with hyears
  · exact fetch_eq hfaithful hyears hrecords hbytes
  · exact fetch_outside hyears

end Runs

/-! ## A small `json` -/

/-- What a value is made of -/
def toParts : Value Empty → Unit ⊕ Bool ⊕ Int ⊕ ℚ ⊕ List Nat
  | .null => .inl ()
  | .bool b => .inr (.inl b)
  | .int i => .inr (.inr (.inl i))
  | .float x => .inr (.inr (.inr (.inl x.val)))
  | .str s => .inr (.inr (.inr (.inr (s.toList.map Char.toNat))))

def ofParts : Unit ⊕ Bool ⊕ Int ⊕ ℚ ⊕ List Nat → Option (Value Empty)
  | .inl () => some .null
  | .inr (.inl b) => some (.bool b)
  | .inr (.inr (.inl i)) => some (.int i)
  | .inr (.inr (.inr (.inl x))) => if h : Has53Bits x then some (.float ⟨x, h⟩) else none
  | .inr (.inr (.inr (.inr s))) => some (.str (String.ofList (s.map Char.ofNat)))

theorem ofParts_toParts (value : Value Empty) : ofParts (toParts value) = some value := by
  cases value with
  | float x => exact dif_pos x.has53Bits
  | str s => simp [toParts, ofParts, Function.comp_def]
  | nested x => exact x.elim
  | _ => rfl

instance : Encodable (Value Empty) := Encodable.ofLeftInjection toParts ofParts ofParts_toParts

/-- `[5.0]` -/
def five : List UInt8 := [91, 53, 46, 48, 93]

/-- `[3600.0]` -/
def anHour : List UInt8 := [91, 51, 54, 48, 48, 46, 48, 93]

theorem replicate_ne {text : List UInt8} {c : UInt8} (hc : c ∈ text) (hne : c ≠ 48) (n : Nat) :
    List.replicate n 48 ≠ text :=
  fun heq => hne (List.eq_of_mem_replicate (heq.symm ▸ hc))

/-- Two texts as `json` has them; others have their number in place of it. -/
def sampleHost : Host Empty where
  dumps xs :=
    if xs = [.float (.ofInt 5)] then five
    else if xs = [.float (.ofInt 3600)] then anHour
    else List.replicate (Encodable.encode xs) 48
  loads text :=
    if text = five then some (.array [.float (.ofInt 5)])
    else if text = anHour then some (.array [.float (.ofInt 3600)])
    else (Encodable.decode text.length).map .array
  loads_dumps xs := by
    by_cases hfive : xs = [.float (.ofInt 5)]
    · rw [if_pos hfive, if_pos rfl, hfive]
    · rw [if_neg hfive]
      by_cases hhour : xs = [.float (.ofInt 3600)]
      · rw [if_pos hhour, if_neg (by decide), if_pos rfl, hhour]
      · have hbracket : (91 : UInt8) ∈ five ∧ (91 : UInt8) ∈ anHour := by decide
        rw [if_neg hhour, if_neg (replicate_ne hbracket.1 (by decide) _),
          if_neg (replicate_ne hbracket.2 (by decide) _), List.length_replicate, Encodable.encodek]
        rfl
  newline_not_mem xs := by
    split_ifs
    · decide
    · decide
    · exact fun hmem => absurd (List.eq_of_mem_replicate hmem) (by decide)

/-- A recorder has been made, and has recorded some entries. -/
def recordAll (es : List (TimedRecord Empty)) : List (Op Empty) :=
  .newRecorder :: es.map fun e => .record 0 e "a"

theorem fetch_recorded_five :
    AllSteps (step sampleHost) (fun s op => ¬ MadeAgain sampleHost s op)
      (.new ⟨1, 2, 100, by decide⟩ .empty) (recordAll [⟨.ofInt 5, []⟩]) ∧ (0 : Int) < 1 ∧
    FetchesRecorded sampleHost ⟨1, 2, 100, by decide⟩ .empty (recordAll [⟨.ofInt 5, []⟩])
      (.ofInt 0) (.ofInt 10) 1 1 .error := by
  have hops : AllSteps (step sampleHost) (fun s op => ¬ MadeAgain sampleHost s op)
      (.new ⟨1, 2, 100, by decide⟩ .empty) (recordAll [⟨.ofInt 5, []⟩]) := by
    refine ⟨?_, ?_, trivial⟩
    · rintro ⟨ws, hws, -⟩
      cases hws
    · rintro ⟨ws, hws, b, hb, -⟩
      obtain rfl := List.mem_singleton.mp hws
      exact Dict.not_mem_empty b hb
  exact ⟨hops, by decide, fetch_recorded sampleHost _ _ _ hops (by decide) (by decide)⟩

/-- More bytes than the limit; a timestamp before the epoch, which comes back as the epoch; and a
bucket made again for its recorder, who goes on with the file that it had. -/
theorem not_fetchesWithin :
    ¬ FetchesWithin sampleHost ⟨1, 2, 100, by decide⟩ .empty (recordAll [⟨.ofInt 5, []⟩])
      (.ofInt 0) (.ofInt 10) 1 1 .error ∧
    ¬ FetchesWithin sampleHost ⟨1, 2, 100, by decide⟩ .empty
      (recordAll [⟨.rounded (-1 / 2 ^ 60), []⟩]) (.ofInt (-1)) (.ofInt 0) 1 100 .error ∧
    ¬ FetchesWithin sampleHost ⟨1, 2, 10, by decide⟩ .empty
      (recordAll [⟨.ofInt 5, []⟩, ⟨.ofInt 5, []⟩]) (.ofInt 0) (.ofInt 10) 1 100 .error := by
  refine ⟨fun h => ?_, fun h => ?_, fun h => ?_⟩ <;> simp only [FetchesWithin] at h
  · obtain ⟨p, hlimit, hbytes⟩ := h.bytesYielded_eq
    rw [hbytes] at hlimit
    exact absurd hlimit.2 (by decide +kernel)
  · exact absurd (h.recordsYielded_eq (by decide +kernel)) (by decide +kernel)
  · exact absurd (h.recordsYielded_eq (by decide +kernel)) (by decide +kernel)

end PerfLog

end Urnest.Cmc
