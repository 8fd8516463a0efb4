import Mathlib.Data.String.Basic
import Urnest.Lib.Action
import Urnest.Lib.Dict

/-!
# The time based store

`TStore` keeps append-only bucket files, one for each period of some hours, and two
books about them: the identifier of the bucket at each start, and the size of each
bucket, with the sum of the sizes beside it. The directory is part of the state, since
the books are about it: a file has a number, which a `Writer` that has the file open
keeps when the path is unlinked.

The methods are translated as actions, so a method that raises leaves behind what it
did before. Empty directories, which `delete_bucket` removes and `create_bucket` makes
again, do not matter to any of them and are left out.
-/

namespace Urnest.Cmc

open Lib Action

/-- Seconds since the epoch. -/
abbrev BucketStart := Int

abbrev BucketID := String

/-- `(bucket_start, bucket_id)` -/
abbrev Bucket := BucketStart × BucketID

instance : LawfulBEq Bucket := inferInstance

/-- What the methods raise. -/
inductive Error where
  | noSuchBucket (bucketStart : BucketStart)
  | bucketExists (bucketStart : BucketStart) (bucketId : BucketID)
  /-- `KeyError` -/
  | keyError
  /-- an `Assert` that compares -/
  | assertFailed
  /-- `FileExistsError` -/
  | fileExists
  /-- `FileNotFoundError` -/
  | fileNotFound
  /-- `AttributeError`, of a file that has not been opened -/
  | notOpen
  deriving DecidableEq, Repr

/-! ## Files -/

/-- The directory of a period and the identifier that names the file. The name of the
directory is the date and hour of the period's beginning; here it is the period's
number. -/
abbrev Path := Int × BucketID

/-- The files below the storage path. -/
structure Files where
  /-- the number of the file at each path -/
  directory : Dict Path Nat
  /-- the bytes of each file, unlinked ones too, by number -/
  contents : List (List UInt8)

namespace Files

/-- The bytes of a file. -/
def content (fs : Files) (file : Nat) : List UInt8 := fs.contents.getD file []

/-- Write at a position, which may be beyond the end; writing nothing changes nothing. -/
def writeAt (old : List UInt8) (position : Nat) (data : List UInt8) : List UInt8 :=
  if data = [] then old
  else old.take position ++ List.replicate (position - old.length) 0 ++ data
    ++ old.drop (position + data.length)

def write (fs : Files) (file position : Nat) (data : List UInt8) : Files :=
  { fs with contents := fs.contents.modify file fun old => writeAt old position data }

/-- A new empty file at a path. -/
def create (fs : Files) (path : Path) : Files :=
  ⟨fs.directory.set path fs.contents.length, fs.contents ++ [[]]⟩

def unlink (fs : Files) (path : Path) : Files := { fs with directory := fs.directory.erase path }

end Files

/-! ## The store -/

/-- The attributes of a store. -/
structure Attrs where
  hoursPerBucket : Nat
  maxBuckets : Int
  maxSize : Nat
  /-- checked when the store is created -/
  factorOf24 : hoursPerBucket ∈ [1, 2, 3, 4, 6, 8, 12, 24]

structure TStore where
  attrs : Attrs
  buckets : Dict BucketStart BucketID
  bucketSizes : Dict Bucket Nat
  currentSize : Int
  files : Files

namespace TStore

/-- A new store. -/
def new (attrs : Attrs) : TStore := ⟨attrs, .empty, .empty, 0, ⟨.empty, []⟩⟩

/-- `get_path_of`: hours are counted from midnight, and 24 is a multiple of the hours of
a bucket, so the files of a period are those of its multiple of the epoch's hours. -/
def getPathOf (t : TStore) (b : Bucket) : Path :=
  (b.1 / (3600 * t.attrs.hoursPerBucket), b.2)

/-- Lists of buckets are sorted as pairs. -/
def sortBuckets (bs : List Bucket) : List Bucket :=
  bs.mergeSort fun a b => a.1 < b.1 || a.1 == b.1 && a.2 ≤ b.2

/-- `verify_bucket_exists` -/
def verifyBucketExists (b : Bucket) : Action TStore Error Unit := do
  let t ← read
  match t.buckets.get? b.1 with
  | none => raise (.noSuchBucket b.1)
  | some id => if b ∈ t.bucketSizes then pure () else raise (.bucketExists b.1 id)

/-- `get_bucket` -/
def getBucket (bucketStart : BucketStart) : Action TStore Error BucketID := do
  let t ← read
  match t.buckets.get? bucketStart with
  | some id => pure id
  | none => raise (.noSuchBucket bucketStart)

/-- `get_bucket_size` -/
def getBucketSize (b : Bucket) : Action TStore Error Nat := do
  let t ← read
  match t.bucketSizes.get? b with
  | some size => pure size
  | none => raise .keyError

/-- `path.unlink()` -/
def unlink (path : Path) : Action TStore Error Unit := do
  let t ← read
  if path ∈ t.files.directory then change fun t => { t with files := t.files.unlink path }
  else raise .fileNotFound

/-- Opening with `must_not_exist`, and closing. -/
def createFile (path : Path) : Action TStore Error Unit := do
  let t ← read
  if path ∈ t.files.directory then raise .fileExists
  else change fun t => { t with files := t.files.create path }

/-- `delete_bucket` -/
def deleteBucket (b : Bucket) : Action TStore Error Unit := do
  let bucketSize ← getBucketSize b
  let t ← read
  unlink (t.getPathOf b)
  change fun t => { t with currentSize := t.currentSize - bucketSize }
  let t ← read
  if b.1 ∈ t.buckets then
    change fun t => { t with buckets := t.buckets.erase b.1, bucketSizes := t.bucketSizes.erase b }
  else raise .keyError

/-- The loop of the two trims: delete buckets, in order, while there are too many. -/
def trimWhile (tooMuch : TStore → Bool) : List Bucket → Action TStore Error Unit
  | [] => pure ()
  | b :: bs => do
    let t ← read
    if tooMuch t then do
      deleteBucket b
      trimWhile tooMuch bs
    else pure ()

/-- `__trim_buckets` -/
def trimBuckets (maxBuckets : Int) : Action TStore Error Unit := do
  if maxBuckets > 0 then do
    let t ← read
    trimWhile (fun t => t.buckets.length > maxBuckets) (sortBuckets t.buckets.items)
  else raise .assertFailed

/-- `__trim_bytes` -/
def trimBytes (ensureAtMost : Int) : Action TStore Error Unit := do
  let t ← read
  trimWhile (fun t => t.currentSize > ensureAtMost) (sortBuckets t.bucketSizes.keys)

/-- `create_bucket` -/
def createBucket (b : Bucket) : Action TStore Error Unit := do
  let t ← read
  match t.buckets.get? b.1 with
  | some id => raise (.bucketExists b.1 id)
  | none => do
    trimBuckets (t.attrs.maxBuckets - 1)
    createFile (t.getPathOf b)
    change fun t =>
      { t with buckets := t.buckets.set b.1 b.2, bucketSizes := t.bucketSizes.set b 0 }

/-- `make_room_for`; a byte count is an `int`, and not checked to be positive. -/
def makeRoomFor (byteCount : Int) : Action TStore Error Unit := do
  let t ← read
  if byteCount < t.attrs.maxSize then trimBytes (t.attrs.maxSize - byteCount)
  else raise .assertFailed

/-- The file at a bucket's path, for the reader or writer that opens it. -/
def openFile (b : Bucket) : Action TStore Error Nat := do
  let t ← read
  match t.files.directory.get? (t.getPathOf b) with
  | some file => pure file
  | none => raise .fileNotFound

end TStore

/-! ## Readers and writers -/

/-- A reader, which opens its file when it is entered. -/
structure Reader where
  bucket : Bucket
  deriving DecidableEq

/-- A writer, which opens its file when it is entered. -/
structure Writer where
  bucket : Bucket
  /-- the file it has open -/
  file : Option Nat
  deriving DecidableEq

namespace TStore

/-- `new_reader` -/
def newReader (b : Bucket) : Action TStore Error Reader := do
  verifyBucketExists b
  pure ⟨b⟩

/-- `read` of a reader that has been moved to a position. -/
def readAt (file position maxBytes : Nat) : Action TStore Error (List UInt8) := do
  let t ← read
  pure (((t.files.content file).drop position).take maxBytes)

/-- `new_writer` -/
def newWriter (b : Bucket) : Action TStore Error Writer := do
  verifyBucketExists b
  pure ⟨b, none⟩

/-- `appended`, which the writer calls after it has written. -/
def appended (b : Bucket) (numberOfBytes : Nat) : Action TStore Error Unit := do
  change fun t => { t with currentSize := t.currentSize + numberOfBytes }
  let size ← getBucketSize b
  change fun t => { t with bucketSizes := t.bucketSizes.set b (size + numberOfBytes) }

/-- `Writer.append`. The `Assert` on the room there is compares nothing: its argument is
the comparison. -/
def append (w : Writer) (data : List UInt8) : Action TStore Error Unit := do
  let size ← getBucketSize w.bucket
  match w.file with
  | none => raise .notOpen
  | some file => do
    change fun t => { t with files := t.files.write file size data }
    appended w.bucket data.length

end TStore

end Urnest.Cmc
