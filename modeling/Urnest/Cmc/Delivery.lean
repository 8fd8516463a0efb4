import Urnest.Cmc.PerfLog
import Urnest.Cmc.View

/-!
# What a mirror makes of it

A mirror deletes a bucket of which it gets a notice (`writeEntries_notices`), and adds to one of
which it gets more (`writeEntry_more`). A bucket that is new to it is made, deleted and made
again first; it evicts nothing for it as long as there is a slot (`writeEntry_new`).
-/

namespace Urnest.Cmc

open Lib Action

variable {b : Bucket}

namespace TStore

variable {t : TStore}

/-- A store as a mirror keeps it. -/
structure Clean (t : TStore) : Prop where
  books : t.Books
  accurate : t.Accurate
  nonempty : ∀ b, t.view b ≠ some []

theorem Clean.mem_iff (h : t.Clean) : b ∈ t.bucketSizes ↔ t.bytesOf b ≠ [] := by
  rw [← h.books.view_isSome, bytesOf]
  cases hview : t.view b with
  | none => simp
  | some bytes => simpa [hview] using h.nonempty b

theorem Clean.dropAll (h : t.Clean) {gone : List Bucket} (hgone : t.Deletable gone) :
    (t.dropAll gone).Clean := by
  refine ⟨h.books.dropAll hgone, h.accurate.dropAll h.books hgone, fun b hb => ?_⟩
  rw [view_dropAll h.books hgone] at hb
  split_ifs at hb
  exact h.nonempty b hb

/-- `t'` is the store `t` with what it holds made `v`. -/
structure Becomes (t t' : TStore) (v : Bucket → Option (List UInt8)) : Prop where
  books : t'.Books
  accurate : t'.Accurate
  attrs : t'.attrs = t.attrs
  view : t'.view = v

theorem Becomes.trans {t t' t'' : TStore} {v v' : Bucket → Option (List UInt8)}
    (h : Becomes t t' v) (h' : Becomes t' t'' v') : Becomes t t'' v' :=
  ⟨h'.books, h'.accurate, h'.attrs.trans h.attrs, h'.view⟩

theorem becomes_dropBucket (h : t.Books) (haccurate : t.Accurate) (hb : b ∈ t.bucketSizes) :
    Becomes t (t.dropBucket b) (Function.update t.view b none) :=
  ⟨h.drop hb, haccurate.drop h hb, rfl, view_dropBucket h hb⟩

theorem becomes_addBucket (h : t.Books) (haccurate : t.Accurate) (hb : b.1 ∉ t.buckets)
    (hpath : t.getPathOf b ∉ t.files.directory) :
    Becomes t (t.addBucket b) (Function.update t.view b (some [])) :=
  have hnot : b ∉ t.bucketSizes := fun hmem => hb (h.mem_buckets hmem)
  ⟨h.add hb hpath, haccurate.add h hnot hpath, rfl, view_addBucket h hnot hpath⟩

theorem becomes_extend (h : t.Books) (haccurate : t.Accurate) {file size : Nat}
    (hb : t.bucketSizes.get? b = some size)
    (hfile : t.files.directory.get? (t.getPathOf b) = some file) (data : List UInt8) :
    Becomes t (t.extend b file size data)
      (Function.update t.view b (some (t.bytesOf b ++ data))) := by
  have hmem := Dict.mem_of_get? hb
  obtain ⟨rfl, haccurate'⟩ := haccurate.extend h hb hfile data
  refine ⟨h.extend hb file data, haccurate', rfl, ?_⟩
  rw [view_extend h hmem hfile, bytesOf_eq hmem hfile]

theorem createBucket_room (h : t.Books) (hb : b.1 ∉ t.buckets) (hmax : 1 < t.attrs.maxBuckets)
    (hslot : t.buckets.length < t.attrs.maxBuckets) (hpath : t.getPathOf b ∉ t.files.directory) :
    createBucket b t = (.ok (), t.addBucket b) := by
  obtain ⟨gone, -, -, hstay, hcreate⟩ := createBucket_new h hb hmax
  rw [hcreate, hstay hslot, dropAll_nil, if_neg hpath]

end TStore

namespace Tracker

open TStore

variable {t : TStore}

/-! ## One turn -/

theorem getBucket_recorded (h : t.Books) (hb : b ∈ t.bucketSizes) :
    getBucket b.1 t = (.ok b.2, t) := by
  rw [getBucket, read_bind, (h.get?_buckets b).mpr hb]
  rfl

theorem getBucket_missing (hb : b.1 ∉ t.buckets) :
    getBucket b.1 t = (.error (.noSuchBucket b.1), t) := by
  rw [getBucket, read_bind, Dict.get?_eq_none.mpr hb]
  rfl

/-- The writing of a turn. -/
theorem write_eq (h : t.Books) (haccurate : t.Accurate) (hb : b ∈ t.bucketSizes)
    (data : List UInt8) :
    ∃ t', Becomes t t' (Function.update t.view b (some (t.bytesOf b ++ data))) ∧
      (do
        let w ← newWriter b
        let file ← openFile w.bucket
        let size ← getBucketSize w.bucket
        if size = (t.bytesOf b).length then append { w with file := some file } data
        else raise .assertFailed : Action TStore Error Unit) t = (.ok (), t') := by
  obtain ⟨file, hfile, -⟩ := h.exists_file hb
  obtain ⟨size, hsize⟩ := Dict.exists_get? hb
  have hlength := (haccurate.extend h hsize hfile data).1
  rw [← bytesOf_eq hb hfile] at hlength
  have hwriter : newWriter b t = (.ok ⟨b, none⟩, t) := by
    rw [newWriter, bind_ok (verifyBucketExists_recorded h hb)]
    rfl
  refine ⟨_, becomes_extend h haccurate hsize hfile data, ?_⟩
  rw [bind_ok hwriter, bind_ok (openFile_eq hfile), bind_ok (getBucketSize_recorded hsize),
    if_pos hlength, append_open data hsize rfl]

/-- A notice takes the bucket away. -/
theorem writeEntry_notice (h : t.Books) (hb : b ∈ t.bucketSizes) :
    writeEntry b 0 [] t = (.ok (), t.dropBucket b) := by
  refine (bind_ok (a := ()) (handle_ok ?_)).trans ((bind_ok (deleteBucket_recorded h hb)).trans rfl)
  rw [bind_ok (getBucket_recorded h hb), if_neg (not_not.mpr rfl)]
  rfl

/-- More bytes for a bucket that is there. -/
theorem writeEntry_more (h : t.Books) (haccurate : t.Accurate) (hb : b ∈ t.bucketSizes)
    (hbytes : t.bytesOf b ≠ []) {data : List UInt8} (hdata : data ≠ []) :
    ∃ t', Becomes t t' (Function.update t.view b (some (t.bytesOf b ++ data))) ∧
      writeEntry b (t.bytesOf b).length data t = (.ok (), t') := by
  obtain ⟨t', hbecomes, hwrite⟩ := write_eq h haccurate hb data
  refine ⟨t', hbecomes, (bind_ok (a := ()) (t := t) (handle_ok ?_)).trans ?_⟩
  · rw [bind_ok (getBucket_recorded h hb), if_neg (not_not.mpr rfl)]
    rfl
  · rw [if_neg (fun hzero => hbytes (List.eq_nil_of_length_eq_zero hzero))]
    beta_reduce
    rw [if_pos hdata]
    refine (bind_ok (a := ()) (t := t) ?_).trans hwrite
    exact handle_error (createBucket_exists ((h.get?_buckets b).mpr hb))

/-- The first bytes of a bucket, which is made, deleted and made again. -/
theorem writeEntry_new (h : t.Books) (haccurate : t.Accurate) (hb : b.1 ∉ t.buckets)
    (hmax : 1 < t.attrs.maxBuckets) (hslot : t.buckets.length < t.attrs.maxBuckets)
    (hpath : t.getPathOf b ∉ t.files.directory) {data : List UInt8} (hdata : data ≠ []) :
    ∃ t', Becomes t t' (Function.update t.view b (some data)) ∧
      writeEntry b 0 data t = (.ok (), t') := by
  have hmade := becomes_addBucket h haccurate hb hpath
  have hmem : b ∈ (t.addBucket b).bucketSizes := mem_addBucket.mpr (.inl rfl)
  have hdeleted := becomes_dropBucket hmade.books hmade.accurate hmem
  have hb' : b.1 ∉ ((t.addBucket b).dropBucket b).buckets := fun hmem =>
    (Dict.mem_erase.mp hmem).1 rfl
  have hpath' : ((t.addBucket b).dropBucket b).getPathOf b
      ∉ ((t.addBucket b).dropBucket b).files.directory := fun hmem =>
    (Dict.mem_erase.mp hmem).1 rfl
  have hlength : (((t.addBucket b).dropBucket b).buckets.length : Int) < t.attrs.maxBuckets := by
    have hset := Dict.length_set_new hb b.2
    have herase := Dict.length_erase (d := t.buckets.set b.1 b.2) (Dict.mem_set.mpr (.inl rfl))
    change ((((t.buckets.set b.1 b.2).erase b.1).length : Nat) : Int) < _
    omega
  have hagain := becomes_addBucket hdeleted.books hdeleted.accurate hb' hpath'
  have hmem' : b ∈ (((t.addBucket b).dropBucket b).addBucket b).bucketSizes :=
    mem_addBucket.mpr (.inl rfl)
  have hbytes : (((t.addBucket b).dropBucket b).addBucket b).bytesOf b = [] := by
    rw [bytesOf, hagain.view, Function.update_self]
    rfl
  obtain ⟨t', hwritten, hwrite⟩ := write_eq hagain.books hagain.accurate hmem' data
  rw [hbytes] at hwritten hwrite
  refine ⟨t', ?_, ?_⟩
  · have hview : Function.update (((t.addBucket b).dropBucket b).addBucket b).view b
        (some ([] ++ data)) = Function.update t.view b (some data) := by
      rw [hagain.view, hdeleted.view, hmade.view]
      simp
    exact hview ▸ hmade.trans (hdeleted.trans (hagain.trans hwritten))
  · refine (bind_ok (a := ()) (t := t.addBucket b) ?_).trans ?_
    · refine (handle_error (bind_error (getBucket_missing hb))).trans ?_
      exact createBucket_room h hb hmax hslot hpath
    · refine (bind_ok (deleteBucket_recorded hmade.books hmem)).trans ?_
      rw [if_pos hdata]
      refine (bind_ok (a := ()) (handle_ok ?_)).trans hwrite
      exact createBucket_room hdeleted.books hb' hmax hlength hpath'

/-! ## Notices -/

theorem writeEntries_notices (h : t.Books) {gone : List Bucket} (hgone : t.Deletable gone)
    (es : List (Bucket × Nat × List UInt8)) :
    writeEntries (gone.map (fun b => (b, 0, [])) ++ es) t = writeEntries es (t.dropAll gone) := by
  induction gone generalizing t with
  | nil => rfl
  | cons b gone ih =>
    obtain ⟨hb, hrest⟩ := hgone.cons
    rw [List.map_cons, List.cons_append, writeEntries, bind_ok (writeEntry_notice h hb),
      ih (h.drop hb) hrest, dropAll_cons]

end Tracker

end Urnest.Cmc
