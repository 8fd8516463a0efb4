import Urnest.Cmc.TStore

/-!
# Performance logs

A `PerfLog` keeps the lines of its records in the buckets of a store. Its `Recorder`s
write them; what a mirror has not seen of them is listed by `get_some_unseen_data` and
written to the mirror's store by its `Tracker`.

Sets are gone through in an order of their own, which is a parameter here.
-/

namespace Urnest.Cmc

open Lib Action

/-- The order in which sets are gone through. -/
structure Arrangement where
  order : List Bucket → List Bucket
  perm : ∀ bs, (order bs).Perm bs

/-- Where unseen data goes: a position in each bucket, and the bytes from there on. -/
abbrev Unseen := Dict Bucket (Nat × List UInt8)

namespace TStore

/-- `calc_bucket_start`, of a time in whole seconds. -/
def calcBucketStart (t : TStore) (timestamp : Int) : BucketStart :=
  timestamp / (3600 * t.attrs.hoursPerBucket) * (3600 * t.attrs.hoursPerBucket)

/-- Two of the loops of `list_unseen`: list the sizes that are wanted. -/
def listSizes (wanted : Bucket → Nat → Bool) :
    List Bucket → Dict Bucket Nat → Action TStore Error (Dict Bucket Nat)
  | [], result => pure result
  | b :: bs, result => do
    let currentSize ← getBucketSize b
    listSizes wanted bs (if wanted b currentSize then result.set b currentSize else result)

/-- `list_unseen` -/
def listUnseen (a : Arrangement) (seen : Dict Bucket Nat) :
    Action TStore Error (Dict Bucket Nat) := do
  let t ← read
  let bucketKeys := t.buckets.items
  let gone := a.order (seen.keys.filter (· ∉ bucketKeys))
  let result := gone.foldl (fun result b => result.set b 0) .empty
  let result ← listSizes (fun b size => size ≠ 0 && seen.get? b ≠ some size)
    (a.order (seen.keys.filter (· ∈ bucketKeys))) result
  listSizes (fun _ size => size ≠ 0) (a.order (bucketKeys.filter (· ∉ seen.keys))) result

end TStore

open TStore

/-! ## Recording -/

/-- A recorder, entered, with the store it shares with the others. -/
structure Recorder where
  tstore : TStore
  /-- the writers it keeps, entered as they are put in -/
  writers : Dict Bucket Writer

namespace Recorder

def onStore {α : Type} (x : Action TStore Error α) : Action Recorder Error α :=
  on tstore (fun t r => { r with tstore := t }) x

/-- The identifier of the bucket to record in, which is made if need be. -/
def bucketFor (bucketStart : BucketStart) (now : BucketID) : Action Recorder Error BucketID :=
  handle (onStore (getBucket bucketStart)) fun
    | .noSuchBucket _ => do
      onStore (createBucket (bucketStart, now))
      pure now
    | e => raise e

/-- The writer for a bucket, which takes the place of the one before. -/
def writerFor (b : Bucket) : Action Recorder Error Writer := do
  let r ← read
  match r.writers.get? b with
  | some w => pure w
  | none => do
    change fun r => { r with writers := .empty }
    let w ← onStore (newWriter b)
    let file ← onStore (openFile w.bucket)
    change fun r => { r with writers := r.writers.set b { w with file := some file } }
    pure { w with file := some file }

/-- `record`, of an encoded record; `now` is the identifier that a new bucket gets. -/
def record (timestamp : Int) (encoded : List UInt8) (now : BucketID) :
    Action Recorder Error Unit := do
  let r ← read
  let bucketStart := r.tstore.calcBucketStart timestamp
  onStore (makeRoomFor encoded.length)
  let bucketId ← bucketFor bucketStart now
  let w ← writerFor (bucketStart, bucketId)
  onStore (append w encoded)

end Recorder

/-! ## Mirroring -/

namespace PerfLog

/-- The loop of `get_some_unseen_data`; a file that cannot be read is skipped. -/
def readUnseen (seen : Dict Bucket Nat) (maxBytes : Nat) :
    List (Bucket × Nat) → Unseen → Nat → Action TStore Error Unseen
  | [], result, _ => pure result
  | (b, size) :: rest, result, resultSize =>
    if size = 0 then readUnseen seen maxBytes rest (result.set b (0, [])) resultSize
    else do
      let seenSize := (seen.get? b).getD 0
      let seenSize := if seenSize > size then 0 else seenSize
      let (result, resultSize) ← handle
        (do
          let r ← newReader b
          let file ← openFile r.bucket
          let readSize := size - seenSize
          let readSize := if readSize > maxBytes - resultSize then maxBytes - resultSize else readSize
          let data ← readAt file seenSize readSize
          pure (result.set b (seenSize, data), resultSize + data.length))
        fun _ => pure (result, resultSize)
      if resultSize = maxBytes then pure result
      else readUnseen seen maxBytes rest result resultSize

/-- `get_some_unseen_data` -/
def getSomeUnseenData (a : Arrangement) (seen : Dict Bucket Nat) (maxBytes : Nat) :
    Action TStore Error Unseen := do
  let sizes ← listUnseen a seen
  readUnseen seen maxBytes sizes.items .empty 0

end PerfLog

namespace Tracker

/-- One turn of `write_unseen_data`. -/
def writeEntry (b : Bucket) (position : Nat) (data : List UInt8) : Action TStore Error Unit := do
  handle
    (do
      let existingId ← getBucket b.1
      if existingId ≠ b.2 then do
        deleteBucket (b.1, existingId)
        let _ ← getBucket b.1
        pure ()
      else pure ())
    fun
      | .noSuchBucket _ => createBucket b
      | e => raise e
  if position = 0 then deleteBucket b else pure ()
  if data ≠ [] then do
    handle (createBucket b) fun
      | .bucketExists _ _ => pure ()
      | e => raise e
    let w ← newWriter b
    let file ← openFile w.bucket
    let size ← getBucketSize w.bucket
    if size = position then append { w with file := some file } data else raise .assertFailed
  else pure ()

/-- The loop of `write_unseen_data`. -/
def writeEntries : List (Bucket × Nat × List UInt8) → Action TStore Error Unit
  | [] => pure ()
  | (b, position, data) :: rest => do
    writeEntry b position data
    writeEntries rest

/-- `write_unseen_data` -/
def writeUnseenData (unseen : Unseen) : Action TStore Error Unit := writeEntries unseen.items

end Tracker

namespace PerfLog

def newline : UInt8 := 10

end PerfLog

end Urnest.Cmc
