import Urnest.Cmc.TStore

/-!
# The books of a store

`Books` is what a store keeps true of itself through every method: the two books name
the same buckets, the sum is the sum, and the directory has a file of its own for each
bucket and no other.

On a store with `Books` there are three changes: `dropBucket`, `addBucket` and
`extend`. Every method is described by them (`deleteBucket_recorded`,
`trimWhile_eq`, `createBucket_cases`, `append_cases`), so nothing after this module
looks at the methods again.
-/

namespace Urnest.Cmc.TStore

open Lib Action

variable {t : TStore} {b c : Bucket}

/-! ## The invariant -/

structure Books (t : TStore) : Prop where
  agree : ∀ b, b ∈ t.bucketSizes ↔ b ∈ t.buckets.items
  sum : t.currentSize = t.bucketSizes.total id
  /-- the files are those of the buckets -/
  stored : ∀ p, p ∈ t.files.directory ↔ ∃ b ∈ t.bucketSizes, t.getPathOf b = p
  apart : ∀ b ∈ t.bucketSizes, ∀ c ∈ t.bucketSizes, t.getPathOf b = t.getPathOf c → b = c
  numbered : ∀ p file, t.files.directory.get? p = some file → file < t.files.contents.length
  distinct : ∀ p q file, t.files.directory.get? p = some file →
    t.files.directory.get? q = some file → p = q

theorem books_new (attrs : Attrs) : (new attrs).Books where
  agree _ := Iff.rfl
  sum := rfl
  stored p := by simp [new]
  apart _ hb := absurd hb (Dict.not_mem_empty _)
  numbered _ _ h := nomatch h
  distinct _ _ _ h := nomatch h

/-- A start has one bucket. -/
theorem Books.eq_of_start (h : t.Books) (hb : b ∈ t.bucketSizes) (hc : c ∈ t.bucketSizes)
    (hstart : b.1 = c.1) : b = c := by
  have hb' := (h.agree b).mp hb
  have hc' := (h.agree c).mp hc
  obtain ⟨start, id⟩ := b
  obtain ⟨start', id'⟩ := c
  cases hstart
  rw [Dict.value_unique hb' hc']

theorem Books.mem_buckets (h : t.Books) (hb : b ∈ t.bucketSizes) : b.1 ∈ t.buckets :=
  Dict.mem_of_mem_items ((h.agree b).mp hb)

theorem Books.get?_buckets (h : t.Books) (b : Bucket) :
    t.buckets.get? b.1 = some b.2 ↔ b ∈ t.bucketSizes := by
  rw [Dict.get?_eq_some, h.agree]

/-- Both books are of the same length. -/
theorem Books.length_eq (h : t.Books) : t.buckets.length = t.bucketSizes.length := by
  have hperm : t.buckets.items.Perm t.bucketSizes.keys := by
    refine (List.perm_ext_iff_of_nodup t.buckets.nodup.of_map t.bucketSizes.nodup).mpr fun b => ?_
    exact (h.agree b).symm
  simpa [Dict.length, Dict.keys] using hperm.length_eq

/-! ## The three changes -/

/-- The store without a bucket. -/
def dropBucket (t : TStore) (b : Bucket) : TStore :=
  { t with
    buckets := t.buckets.erase b.1
    bucketSizes := t.bucketSizes.erase b
    currentSize := t.currentSize - ((t.bucketSizes.get? b).getD 0 : Nat)
    files := t.files.unlink (t.getPathOf b) }

/-- The store with a new bucket. -/
def addBucket (t : TStore) (b : Bucket) : TStore :=
  { t with
    buckets := t.buckets.set b.1 b.2
    bucketSizes := t.bucketSizes.set b 0
    files := t.files.create (t.getPathOf b) }

/-- The store after a write to a file at a position, which the books take for the size of
the bucket. -/
def extend (t : TStore) (b : Bucket) (file size : Nat) (data : List UInt8) : TStore :=
  { t with
    bucketSizes := t.bucketSizes.set b (size + data.length)
    currentSize := t.currentSize + data.length
    files := t.files.write file size data }

theorem mem_dropBucket : c ∈ (t.dropBucket b).bucketSizes ↔ c ≠ b ∧ c ∈ t.bucketSizes :=
  Dict.mem_erase

theorem mem_addBucket : c ∈ (t.addBucket b).bucketSizes ↔ c = b ∨ c ∈ t.bucketSizes :=
  Dict.mem_set

theorem mem_extend {file size : Nat} {data : List UInt8} (hb : b ∈ t.bucketSizes) :
    c ∈ (t.extend b file size data).bucketSizes ↔ c ∈ t.bucketSizes := by
  change c ∈ t.bucketSizes.set b _ ↔ _
  rw [Dict.mem_set]
  constructor
  · rintro (rfl | hc)
    · exact hb
    · exact hc
  · exact .inr

theorem Books.drop (h : t.Books) (hb : b ∈ t.bucketSizes) : (t.dropBucket b).Books where
  agree c := by
    change c ∈ t.bucketSizes.erase b ↔ c ∈ (t.buckets.erase b.1).items
    rw [Dict.mem_erase, Dict.mem_items_erase, ← h.agree c, and_comm]
    refine and_congr_right fun hc => ?_
    constructor
    · intro hne hstart
      exact hne (h.eq_of_start hc hb hstart)
    · rintro hne rfl
      exact hne rfl
  sum := by
    obtain ⟨size, hsize⟩ := Dict.exists_get? hb
    have htotal := Dict.total_erase id hsize
    change t.currentSize - ((t.bucketSizes.get? b).getD 0 : Nat) = (t.bucketSizes.erase b).total id
    rw [h.sum, hsize, ← htotal]
    simp
  stored p := by
    change p ∈ t.files.directory.erase (t.getPathOf b) ↔ ∃ c ∈ t.bucketSizes.erase b, t.getPathOf c = p
    rw [Dict.mem_erase, h.stored]
    constructor
    · rintro ⟨hne, c, hc, rfl⟩
      exact ⟨c, Dict.mem_erase.mpr ⟨fun heq => hne (heq ▸ rfl), hc⟩, rfl⟩
    · rintro ⟨c, hc, rfl⟩
      obtain ⟨hne, hc⟩ := Dict.mem_erase.mp hc
      exact ⟨fun heq => hne (h.apart c hc b hb heq), c, hc, rfl⟩
  apart c hc d hd :=
    h.apart c (mem_dropBucket.mp hc).2 d (mem_dropBucket.mp hd).2
  numbered p file hp := by
    change (t.files.directory.erase _).get? p = _ at hp
    rw [Dict.get?_erase] at hp
    split_ifs at hp
    exact h.numbered p file hp
  distinct p q file hp hq := by
    change (t.files.directory.erase _).get? _ = _ at hp hq
    rw [Dict.get?_erase] at hp hq
    split_ifs at hp hq
    exact h.distinct p q file hp hq

/-- A file for a path that had none. -/
theorem Books.get?_create (h : t.Books) {p q : Path} {file : Nat}
    (hq : (t.files.create p).directory.get? q = some file) :
    q = p ∧ file = t.files.contents.length ∨
      q ≠ p ∧ t.files.directory.get? q = some file ∧ file < t.files.contents.length := by
  change (t.files.directory.set p _).get? q = some file at hq
  rw [Dict.get?_set] at hq
  split_ifs at hq with heq
  · cases hq
    exact .inl ⟨heq, rfl⟩
  · exact .inr ⟨heq, hq, h.numbered q file hq⟩

theorem Books.add (h : t.Books) (hb : b.1 ∉ t.buckets)
    (hp : t.getPathOf b ∉ t.files.directory) : (t.addBucket b).Books where
  agree c := by
    rw [mem_addBucket]
    change _ ↔ c ∈ (t.buckets.set b.1 b.2).items
    rw [Dict.mem_items_set, h.agree]
    refine or_congr Iff.rfl ?_
    constructor
    · intro hc
      exact ⟨hc, fun hstart => hb (hstart ▸ Dict.mem_of_mem_items hc)⟩
    · exact And.left
  sum := by
    have hnew : b ∉ t.bucketSizes := fun hmem => hb (h.mem_buckets hmem)
    change t.currentSize = (t.bucketSizes.set b 0).total id
    rw [Dict.total_set_new id hnew, h.sum]
    rfl
  stored p := by
    change p ∈ t.files.directory.set (t.getPathOf b) _ ↔ _
    rw [Dict.mem_set, h.stored]
    constructor
    · rintro (rfl | ⟨c, hc, rfl⟩)
      · exact ⟨b, mem_addBucket.mpr (.inl rfl), rfl⟩
      · exact ⟨c, mem_addBucket.mpr (.inr hc), rfl⟩
    · rintro ⟨c, hc, rfl⟩
      rcases mem_addBucket.mp hc with rfl | hc
      · exact .inl rfl
      · exact .inr ⟨c, hc, rfl⟩
  apart c hc d hd heq := by
    have hfree : ∀ c ∈ t.bucketSizes, t.getPathOf c ≠ t.getPathOf b := fun c hc hcb =>
      hp (hcb ▸ (h.stored _).mpr ⟨c, hc, rfl⟩)
    rcases mem_addBucket.mp hc with rfl | hold
    · rcases mem_addBucket.mp hd with rfl | hold
      · rfl
      · exact absurd heq.symm (hfree d hold)
    · rcases mem_addBucket.mp hd with rfl | hold'
      · exact absurd heq (hfree c hold)
      · exact h.apart c hold d hold' heq
  numbered p file hfile := by
    change file < (t.files.contents ++ [[]]).length
    rw [List.length_append]
    rcases h.get?_create hfile with ⟨-, rfl⟩ | ⟨-, -, hlt⟩
    · exact Nat.lt_succ_self _
    · exact Nat.lt_succ_of_lt hlt
  distinct p q file hfile hfile' := by
    rcases h.get?_create hfile with ⟨rfl, rfl⟩ | ⟨-, hold, hlt⟩
    · rcases h.get?_create hfile' with ⟨rfl, -⟩ | ⟨-, -, hlt⟩
      · rfl
      · exact absurd hlt (lt_irrefl _)
    · rcases h.get?_create hfile' with ⟨-, rfl⟩ | ⟨-, hold', -⟩
      · exact absurd hlt (lt_irrefl _)
      · exact h.distinct p q file hold hold'

theorem Books.extend (h : t.Books) {size : Nat} (hb : t.bucketSizes.get? b = some size)
    (file : Nat) (data : List UInt8) : (t.extend b file size data).Books where
  agree c := by
    rw [mem_extend (Dict.mem_of_get? hb)]
    exact h.agree c
  sum := by
    have htotal := Dict.total_set id hb (size + data.length)
    change t.currentSize + data.length = (t.bucketSizes.set b (size + data.length)).total id
    rw [h.sum]
    simp only [id] at htotal
    omega
  stored p := by
    change p ∈ t.files.directory ↔ _
    rw [h.stored]
    refine exists_congr fun c => and_congr_left fun _ => ?_
    exact (mem_extend (Dict.mem_of_get? hb)).symm
  apart c hc d hd := h.apart c ((mem_extend (Dict.mem_of_get? hb)).mp hc) d
    ((mem_extend (Dict.mem_of_get? hb)).mp hd)
  numbered p f hf := by
    change f < (t.files.contents.modify _ _).length
    rw [List.length_modify]
    exact h.numbered p f hf
  distinct := h.distinct

/-! ## Deleting -/

theorem getBucketSize_recorded {size : Nat} (hb : t.bucketSizes.get? b = some size) :
    getBucketSize b t = (.ok size, t) := by
  rw [getBucketSize, read_bind, hb]
  rfl

theorem getBucketSize_missing (hb : b ∉ t.bucketSizes) :
    getBucketSize b t = (.error .keyError, t) := by
  rw [getBucketSize, read_bind, Dict.get?_eq_none.mpr hb]
  rfl

theorem deleteBucket_recorded (h : t.Books) (hb : b ∈ t.bucketSizes) :
    deleteBucket b t = (.ok (), t.dropBucket b) := by
  obtain ⟨size, hsize⟩ := Dict.exists_get? hb
  have hpath : t.getPathOf b ∈ t.files.directory := (h.stored _).mpr ⟨b, hb, rfl⟩
  have hunlink : unlink (t.getPathOf b) t
      = (.ok (), { t with files := t.files.unlink (t.getPathOf b) }) := by
    rw [unlink, read_bind, if_pos hpath]
    rfl
  rw [deleteBucket, bind_ok (getBucketSize_recorded hsize), read_bind, bind_ok hunlink,
    change_bind, read_bind, if_pos (h.mem_buckets hb), change_apply, dropBucket, hsize,
    Option.getD_some]

theorem deleteBucket_missing (hb : b ∉ t.bucketSizes) :
    deleteBucket b t = (.error .keyError, t) := by
  rw [deleteBucket, bind_error (getBucketSize_missing hb)]

/-- The store without some buckets. -/
def dropAll (t : TStore) (gone : List Bucket) : TStore := gone.foldl dropBucket t

@[simp] theorem dropAll_nil (t : TStore) : t.dropAll [] = t := rfl

@[simp] theorem dropAll_cons (t : TStore) (b : Bucket) (gone : List Bucket) :
    t.dropAll (b :: gone) = (t.dropBucket b).dropAll gone := rfl

@[simp] theorem dropAll_attrs (t : TStore) (gone : List Bucket) :
    (t.dropAll gone).attrs = t.attrs := by
  induction gone generalizing t with
  | nil => rfl
  | cons b gone ih => exact ih _

theorem mem_dropAll {gone : List Bucket} :
    c ∈ (t.dropAll gone).bucketSizes ↔ c ∈ t.bucketSizes ∧ c ∉ gone := by
  induction gone generalizing t with
  | nil => simp
  | cons b gone ih =>
    rw [dropAll_cons, ih, mem_dropBucket, List.mem_cons, not_or]
    tauto

theorem mem_buckets_dropAll {start : BucketStart} {gone : List Bucket}
    (h : start ∈ (t.dropAll gone).buckets) : start ∈ t.buckets := by
  induction gone generalizing t with
  | nil => exact h
  | cons b gone ih => exact (Dict.mem_erase.mp (ih h)).2

theorem length_dropAll_le (t : TStore) (gone : List Bucket) :
    (t.dropAll gone).buckets.length ≤ t.buckets.length := by
  induction gone generalizing t with
  | nil => exact le_rfl
  | cons b gone ih => exact (ih _).trans (Dict.length_erase_le ..)

theorem currentSize_dropAll_le (t : TStore) (gone : List Bucket) :
    (t.dropAll gone).currentSize ≤ t.currentSize := by
  induction gone generalizing t with
  | nil => exact le_rfl
  | cons b gone ih => exact (ih _).trans (Int.sub_le_self _ (Int.natCast_nonneg _))

theorem contents_dropAll (t : TStore) (gone : List Bucket) :
    (t.dropAll gone).files.contents = t.files.contents := by
  induction gone generalizing t with
  | nil => rfl
  | cons b gone ih => exact ih _

/-- Deleting moves no file. -/
theorem file_dropAll {gone : List Bucket} {p : Path} {file : Nat}
    (h : (t.dropAll gone).files.directory.get? p = some file) :
    t.files.directory.get? p = some file := by
  induction gone generalizing t with
  | nil => exact h
  | cons b gone ih =>
    have hdrop : (t.files.directory.erase (t.getPathOf b)).get? p = some file := ih h
    rw [Dict.get?_erase] at hdrop
    split_ifs at hdrop
    exact hdrop

/-- Buckets that can be deleted one after the other. -/
structure Deletable (t : TStore) (gone : List Bucket) : Prop where
  nodup : gone.Nodup
  recorded : ∀ b ∈ gone, b ∈ t.bucketSizes

theorem deletable_nil (t : TStore) : t.Deletable [] := ⟨.nil, fun _ hb => nomatch hb⟩

theorem Deletable.cons {gone : List Bucket} (h : t.Deletable (b :: gone)) :
    b ∈ t.bucketSizes ∧ (t.dropBucket b).Deletable gone := by
  obtain ⟨hnot, hnodup⟩ := List.nodup_cons.mp h.nodup
  refine ⟨h.recorded b (List.mem_cons_self ..), hnodup, fun c hc => ?_⟩
  exact mem_dropBucket.mpr ⟨fun heq => hnot (heq ▸ hc), h.recorded c (List.mem_cons_of_mem _ hc)⟩

theorem Deletable.of_append {gone rest : List Bucket} (h : t.Deletable (gone ++ rest)) :
    t.Deletable gone :=
  ⟨h.nodup.of_append_left, fun b hb => h.recorded b (List.mem_append_left _ hb)⟩

theorem Books.dropAll (h : t.Books) {gone : List Bucket} (hgone : t.Deletable gone) :
    (t.dropAll gone).Books := by
  induction gone generalizing t with
  | nil => exact h
  | cons b gone ih =>
    obtain ⟨hb, hrest⟩ := hgone.cons
    exact ih (h.drop hb) hrest

/-- A store whose buckets have all been deleted. -/
theorem Books.empty (h : t.Books) (hnone : ∀ b, b ∉ t.bucketSizes) :
    t.currentSize = 0 ∧ t.buckets.length = 0 := by
  have hitems : t.bucketSizes.items = [] :=
    List.eq_nil_iff_forall_not_mem.mpr fun x hx => hnone x.1 (Dict.mem_of_mem_items hx)
  rw [h.sum, h.length_eq, Dict.total, Dict.length, hitems]
  exact ⟨rfl, rfl⟩

/-! ## Trimming -/

theorem mem_sortBuckets {bs : List Bucket} : b ∈ sortBuckets bs ↔ b ∈ bs := List.mem_mergeSort

theorem nodup_sortBuckets {bs : List Bucket} (h : bs.Nodup) : (sortBuckets bs).Nodup :=
  (List.mergeSort_perm bs _).nodup_iff.mpr h

/-- The loop deletes buckets from the front until there are not too many, or none left. -/
theorem trimWhile_eq (tooMuch : TStore → Bool) {bs : List Bucket} (h : t.Books)
    (hbs : t.Deletable bs) :
    ∃ gone rest, bs = gone ++ rest ∧ trimWhile tooMuch bs t = (.ok (), t.dropAll gone) ∧
      (rest = [] ∨ tooMuch (t.dropAll gone) = false) ∧ (tooMuch t = false → gone = []) := by
  induction bs generalizing t with
  | nil => exact ⟨[], [], rfl, rfl, .inl rfl, fun _ => rfl⟩
  | cons b bs ih =>
    rw [trimWhile, read_bind]
    by_cases htoo : tooMuch t = true
    · obtain ⟨hb, hrest⟩ := hbs.cons
      obtain ⟨gone, rest, rfl, htrim, hend, -⟩ := ih (h.drop hb) hrest
      refine ⟨b :: gone, rest, rfl, ?_, hend, fun hnot => by simp [htoo] at hnot⟩
      rw [if_pos htoo, bind_ok (deleteBucket_recorded h hb), htrim, dropAll_cons]
    · have hnot : tooMuch t = false := by simpa using htoo
      exact ⟨[], b :: bs, rfl, by rw [if_neg htoo]; rfl, .inr hnot, fun _ => rfl⟩

/-- A trim of all the buckets, sorted. -/
theorem trimWhile_all (tooMuch : TStore → Bool) (h : t.Books) {bs : List Bucket}
    (hnodup : bs.Nodup) (hbs : ∀ b, b ∈ bs ↔ b ∈ t.bucketSizes)
    (hempty : ∀ t' : TStore, t'.currentSize = 0 → t'.buckets.length = 0 → tooMuch t' = false) :
    ∃ gone, t.Deletable gone ∧ trimWhile tooMuch (sortBuckets bs) t = (.ok (), t.dropAll gone) ∧
      tooMuch (t.dropAll gone) = false ∧ (tooMuch t = false → gone = []) := by
  have hall : t.Deletable (sortBuckets bs) :=
    ⟨nodup_sortBuckets hnodup, fun b hb => (hbs b).mp (mem_sortBuckets.mp hb)⟩
  obtain ⟨gone, rest, heq, htrim, hend, hstay⟩ := trimWhile_eq tooMuch h hall
  have hgone : t.Deletable gone := (heq ▸ hall).of_append
  refine ⟨gone, hgone, htrim, ?_, hstay⟩
  rcases hend with rfl | hend
  · rw [List.append_nil] at heq
    have hnone : ∀ b, b ∉ (t.dropAll gone).bucketSizes := by
      intro b hb
      obtain ⟨hmem, hnot⟩ := mem_dropAll.mp hb
      exact hnot (heq ▸ mem_sortBuckets.mpr ((hbs b).mpr hmem))
    obtain ⟨hsize, hlength⟩ := (h.dropAll hgone).empty hnone
    exact hempty _ hsize hlength
  · exact hend

theorem trimBuckets_eq (h : t.Books) {maxBuckets : Int} (hmax : 0 < maxBuckets) :
    ∃ gone, t.Deletable gone ∧ trimBuckets maxBuckets t = (.ok (), t.dropAll gone) ∧
      (t.dropAll gone).buckets.length ≤ maxBuckets ∧
      (t.buckets.length ≤ maxBuckets → gone = []) := by
  obtain ⟨gone, hgone, htrim, hend, hstay⟩ :=
    trimWhile_all (fun t => decide (t.buckets.length > maxBuckets)) h
      (t.buckets.nodup.of_map) (fun b => (h.agree b).symm) fun t' _ hlength => by
        simp only [hlength, decide_eq_false_iff_not]
        omega
  refine ⟨gone, hgone, ?_, by simpa using hend, fun hle => hstay (by simpa using hle)⟩
  rw [trimBuckets, if_pos hmax, read_bind]
  exact htrim

theorem trimBytes_eq (h : t.Books) {ensureAtMost : Int} (hmost : 0 ≤ ensureAtMost) :
    ∃ gone, t.Deletable gone ∧ trimBytes ensureAtMost t = (.ok (), t.dropAll gone) ∧
      (t.dropAll gone).currentSize ≤ ensureAtMost ∧
      (t.currentSize ≤ ensureAtMost → gone = []) := by
  obtain ⟨gone, hgone, htrim, hend, hstay⟩ :=
    trimWhile_all (fun t => decide (t.currentSize > ensureAtMost)) h
      t.bucketSizes.nodup (fun b => Iff.rfl) fun t' hsize _ => by
        simp only [hsize, decide_eq_false_iff_not]
        omega
  refine ⟨gone, hgone, ?_, by simpa using hend, fun hle => hstay (by simpa using hle)⟩
  rw [trimBytes, read_bind]
  exact htrim

theorem makeRoomFor_eq (h : t.Books) {byteCount : Int} (hcount : byteCount < t.attrs.maxSize) :
    ∃ gone, t.Deletable gone ∧ makeRoomFor byteCount t = (.ok (), t.dropAll gone) ∧
      (t.dropAll gone).currentSize ≤ t.attrs.maxSize - byteCount := by
  obtain ⟨gone, hgone, htrim, hsize, -⟩ := trimBytes_eq h (Int.sub_nonneg_of_le hcount.le)
  refine ⟨gone, hgone, ?_, hsize⟩
  rw [makeRoomFor, read_bind, if_pos hcount, htrim]

theorem makeRoomFor_refused {byteCount : Int} (hcount : ¬ byteCount < t.attrs.maxSize) :
    makeRoomFor byteCount t = (.error .assertFailed, t) := by
  rw [makeRoomFor, read_bind, if_neg hcount]
  rfl

/-! ## Creating -/

theorem createBucket_exists {id : BucketID} (hb : t.buckets.get? b.1 = some id) :
    createBucket b t = (.error (.bucketExists b.1 id), t) := by
  rw [createBucket, read_bind, hb]
  rfl

theorem createBucket_no_slot (hb : b.1 ∉ t.buckets) (hmax : t.attrs.maxBuckets ≤ 1) :
    createBucket b t = (.error .assertFailed, t) := by
  have htrim : trimBuckets (t.attrs.maxBuckets - 1) t = (.error .assertFailed, t) := by
    rw [trimBuckets, if_neg (by omega)]
    rfl
  rw [createBucket, read_bind, Dict.get?_eq_none.mpr hb]
  exact bind_error htrim

/-- The oldest buckets make room, even where the path then turns out to be taken by a
bucket of the same period and identifier. -/
theorem createBucket_new (h : t.Books) (hb : b.1 ∉ t.buckets) (hmax : 1 < t.attrs.maxBuckets) :
    ∃ gone, t.Deletable gone ∧ (t.dropAll gone).buckets.length < t.attrs.maxBuckets ∧
      (t.buckets.length < t.attrs.maxBuckets → gone = []) ∧
      createBucket b t = if t.getPathOf b ∈ (t.dropAll gone).files.directory
        then (.error .fileExists, t.dropAll gone) else (.ok (), (t.dropAll gone).addBucket b) := by
  obtain ⟨gone, hgone, htrim, hlength, hstay⟩ := trimBuckets_eq h (Int.sub_pos_of_lt hmax)
  refine ⟨gone, hgone, by omega, fun hlt => hstay (by omega), ?_⟩
  have hcreate : createBucket b t = (do
      createFile (t.getPathOf b)
      change fun t => { t with buckets := t.buckets.set b.1 b.2
                               bucketSizes := t.bucketSizes.set b 0 }) (t.dropAll gone) := by
    rw [createBucket, read_bind, Dict.get?_eq_none.mpr hb]
    exact bind_ok htrim
  rw [hcreate]
  split_ifs with hpath
  · refine bind_error ?_
    rw [createFile, read_bind, if_pos hpath]
    rfl
  · refine (bind_ok (a := ()) (t := { t.dropAll gone with
      files := (t.dropAll gone).files.create (t.getPathOf b) }) ?_).trans ?_
    · rw [createFile, read_bind, if_neg hpath]
      rfl
    · rw [change_apply, addBucket, getPathOf, getPathOf, dropAll_attrs]

/-! ## Opening and appending -/

theorem verifyBucketExists_state (b : Bucket) (t : TStore) : (verifyBucketExists b t).2 = t := by
  rw [verifyBucketExists, read_bind]
  cases t.buckets.get? b.1 with
  | none => rfl
  | some id => by_cases hb : b ∈ t.bucketSizes <;> simp [hb]

theorem verifyBucketExists_recorded (h : t.Books) (hb : b ∈ t.bucketSizes) :
    verifyBucketExists b t = (.ok (), t) := by
  rw [verifyBucketExists, read_bind, (h.get?_buckets b).mpr hb]
  exact congrFun (if_pos hb) t

theorem newReader_state (b : Bucket) (t : TStore) : (newReader b t).2 = t := by
  rcases h : verifyBucketExists b t with ⟨e | _, t'⟩
  · rw [newReader, bind_error h, ← verifyBucketExists_state b t, h]
  · rw [newReader, bind_ok h, pure_apply, ← verifyBucketExists_state b t, h]

theorem newWriter_state (b : Bucket) (t : TStore) : (newWriter b t).2 = t := by
  rcases h : verifyBucketExists b t with ⟨e | _, t'⟩
  · rw [newWriter, bind_error h, ← verifyBucketExists_state b t, h]
  · rw [newWriter, bind_ok h, pure_apply, ← verifyBucketExists_state b t, h]

theorem openFile_state (b : Bucket) (t : TStore) : (openFile b t).2 = t := by
  rw [openFile, read_bind]
  cases t.files.directory.get? (t.getPathOf b) <;> rfl

theorem openFile_eq {file : Nat} (hfile : t.files.directory.get? (t.getPathOf b) = some file) :
    openFile b t = (.ok file, t) := by
  rw [openFile, read_bind, hfile]
  rfl

theorem append_missing {w : Writer} (data : List UInt8) (hb : w.bucket ∉ t.bucketSizes) :
    append w data t = (.error .keyError, t) := by
  rw [append, bind_error (getBucketSize_missing hb)]

theorem append_closed {w : Writer} (data : List UInt8) {size : Nat}
    (hb : t.bucketSizes.get? w.bucket = some size) (hw : w.file = none) :
    append w data t = (.error .notOpen, t) := by
  rw [append, bind_ok (getBucketSize_recorded hb), hw]
  rfl

theorem append_open {w : Writer} (data : List UInt8) {size file : Nat}
    (hb : t.bucketSizes.get? w.bucket = some size) (hw : w.file = some file) :
    append w data t = (.ok (), t.extend w.bucket file size data) := by
  rw [append, bind_ok (getBucketSize_recorded hb), hw]
  simp only [change_bind, appended]
  exact bind_ok (getBucketSize_recorded (t := { t with
    currentSize := t.currentSize + data.length, files := t.files.write file size data }) hb)

end Urnest.Cmc.TStore
