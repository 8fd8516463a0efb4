import Mathlib
import Urnest.Cmc.Naming
import Urnest.Cmc.Order
import Urnest.Cmc.Writers

/-!
# Opening a store again

A store that is opened on an existing directory has nothing but names and sizes of files
to make its books from. `readFiles` goes through the directories of years, months, days
and hours, whose names it reads as numbers, and takes the file in each for a bucket.

What it makes of a store's own files is the map from buckets to the lengths of their
files (`readFiles_eq`), in whatever order the directories are listed. So the books come
out as they were just when they were accurate (`reopens_iff_accurate`), and over a run
that is what a stale writer breaks, and nothing else (`invisible_iff`).
-/

namespace Urnest.Cmc

open Lib Action

/-! ## Directories -/

/-- The files below a directory, with the names on the way to each, and their sizes. -/
abbrev Listing := List (List String × Nat)

namespace Listing

variable (d : Listing)

/-- `iterdir`, by name -/
def iterdir (dir : List String) : List String :=
  (d.filterMap fun f => if dir <+: f.1 then f.1[dir.length]? else none).dedup

/-- `is_file` -/
def isFile (path : List String) : Bool := path ∈ d.map Prod.fst

/-- `is_dir` -/
def isDir (path : List String) : Bool := d.any fun f => path <+: f.1 ∧ path ≠ f.1

/-- `stat().st_size` -/
def size? (path : List String) : Option Nat := (d.find? fun f => f.1 = path).map Prod.snd

/-- The directories in a directory. -/
def subdirs (dir : List String) : List String :=
  (d.iterdir dir).filter fun name => d.isDir (dir ++ [name])

/-- The files in a directory. -/
def filesIn (dir : List String) : List String :=
  (d.iterdir dir).filter fun name => d.isFile (dir ++ [name])

end Listing

/-! ## Reading the files -/

inductive ReadError where
  /-- of `int` -/
  | notANumber (name : String)
  /-- of `timegm` -/
  | notADate
  | expectedAtMostOne (bucketIds : List BucketID)
  | fileNotFound
  deriving DecidableEq, Repr

def removesuffix (name suffix : String) : String :=
  if suffix.toList <:+ name.toList then
    String.ofList (name.toList.take (name.toList.length - suffix.toList.length))
  else name

abbrev Sizes := Dict Bucket Nat

/-- The loop that `read_files` has for years, months, days and hours. -/
def forDirs (d : Listing) (dir : List String)
    (body : String → Int → Sizes → Except ReadError Sizes) (result : Sizes) :
    Except ReadError Sizes :=
  (d.subdirs dir).foldlM (fun result name =>
    match int name with
    | none => .error (.notANumber name)
    | some number => body name number result) result

/-- What is done in the directory of an hour. -/
def readHour (d : Listing) (hdir : List String) (year month mday hour : Int) (result : Sizes) :
    Except ReadError Sizes :=
  match timegm year month mday hour with
  | none => .error .notADate
  | some bucketStart =>
    match (d.filesIn hdir).map (removesuffix · ".txt") with
    | [] => .ok result
    | [bucketId] =>
      match d.size? (hdir ++ [bucketId ++ ".txt"]) with
      | none => .error .fileNotFound
      | some size => .ok (result.set (bucketStart, bucketId) size)
    | bucketIds => .error (.expectedAtMostOne bucketIds)

/-- `read_files` -/
def readFiles (d : Listing) : Except ReadError Sizes :=
  forDirs d [] (fun ydir year =>
    forDirs d [ydir] fun mdir month =>
      forDirs d [ydir, mdir] fun ddir mday =>
        forDirs d [ydir, mdir, ddir] fun hdir hour =>
          readHour d [ydir, mdir, ddir, hdir] year month mday hour) .empty

/-- `TStore.__init__` of an existing store, whose attributes have been read. -/
def reopen (attrs : Attrs) (files : Files) (d : Listing) : Except ReadError TStore := do
  let bucketSizes ← readFiles d
  return {
    attrs
    buckets := bucketSizes.keys.foldl (fun buckets b => buckets.set b.1 b.2) .empty
    bucketSizes
    currentSize := bucketSizes.values.sum
    files }

/-! ## What is on the disk -/

namespace TStore

variable {t : TStore} {d : Listing}

/-- The bucket files of a store. -/
def listing (t : TStore) : Listing :=
  t.files.directory.items.map fun f =>
    (f.1.names t.attrs.hoursPerBucket, (t.files.content f.2).length)

/-- A listing of a store's directory. Beside the directories of the years there is
`tstore.json`, and there may be other files. -/
def ListedAs (t : TStore) (others : Listing) (d : Listing) : Prop :=
  d.Perm (t.listing ++ others) ∧ ∀ f ∈ others, ∃ name, f.1 = [name]

/-- A name that a file may have. -/
structure IsFileName (name : String) : Prop where
  nonempty : name ≠ ""
  not_dot : name ≠ "."
  not_dots : name ≠ ".."
  no_slash : '/' ∉ name.toList
  no_nul : Char.ofNat 0 ∉ name.toList

/-- A bucket whose start has been calculated, and whose identifier can be a file's name. -/
structure Placed (attrs : Attrs) (b : Bucket) : Prop where
  start : ∃ timestamp, Cmc.calcBucketStart attrs.hoursPerBucket timestamp = some b.1
  id : IsFileName b.2

/-- All buckets of the store are so. -/
def AllPlaced (t : TStore) : Prop := ∀ b ∈ t.bucketSizes, Placed t.attrs b

/-- A bucket and the length of its file. -/
def Filed (t : TStore) (e : Bucket × Nat) : Prop := (t.view e.1).map List.length = some e.2

theorem Filed.mem {e : Bucket × Nat} (h : t.Filed e) : e.1 ∈ t.bucketSizes := by
  obtain ⟨bytes, hview, -⟩ := Option.map_eq_some_iff.mp h
  exact mem_of_view hview

/-- The files of the listing are those of the buckets, as long as one looks below the
storage path. -/
theorem ListedAs.mem_iff {others : Listing} (hd : t.ListedAs others d) (h : t.Books)
    {f : List String × Nat} (hf : 1 < f.1.length) : f ∈ d ↔
      ∃ e, t.Filed e ∧ f = (pathNames t.attrs.hoursPerBucket e.1, e.2) := by
  have hnot : f ∉ others := by
    intro hmem
    obtain ⟨name, hname⟩ := hd.2 f hmem
    rw [hname] at hf
    exact lt_irrefl _ hf
  rw [hd.1.mem_iff, List.mem_append, or_iff_left hnot, listing, List.mem_map]
  constructor
  · rintro ⟨⟨p, file⟩, hitem, rfl⟩
    have hfile := Dict.get?_eq_some.mpr hitem
    obtain ⟨b, hb, rfl⟩ := (h.stored p).mp (Dict.mem_of_get? hfile)
    refine ⟨(b, (t.files.content file).length), ?_, ?_⟩
    · rw [Filed, view, if_pos hb, hfile]
      rfl
    · simp only [pathNames_getPathOf]
  · rintro ⟨⟨b, size⟩, hfiled, rfl⟩
    obtain ⟨file, hfile, hview⟩ := h.exists_file hfiled.mem
    refine ⟨(t.getPathOf b, file), Dict.get?_eq_some.mp hfile, ?_⟩
    rw [Filed, hview] at hfiled
    have hsize : (t.files.content file).length = size := Option.some.inj hfiled
    simp only [pathNames_getPathOf, hsize]

theorem Filed.eq {e e' : Bucket × Nat} (h : t.Filed e) (h' : t.Filed e') (hb : e'.1 = e.1) :
    e' = e := by
  rw [Filed, hb, h] at h'
  exact Prod.ext hb (Option.some.inj h').symm

end TStore

namespace Listing

variable {d : Listing} {dir : List String} {name : String}

theorem mem_iterdir : name ∈ d.iterdir dir ↔ ∃ f ∈ d, dir ++ [name] <+: f.1 := by
  rw [iterdir, List.mem_dedup, List.mem_filterMap]
  refine exists_congr fun f => and_congr_right fun _ => ?_
  rw [Option.ite_none_right_eq_some]
  constructor
  · rintro ⟨⟨rest, hrest⟩, hname⟩
    rw [← hrest, List.getElem?_append_right le_rfl, Nat.sub_self] at hname
    obtain ⟨more, rfl⟩ : ∃ more, rest = name :: more := by
      rw [← List.head?_eq_getElem?] at hname
      exact List.head?_eq_some_iff.mp hname
    exact ⟨more, by rw [← hrest, List.append_assoc]; rfl⟩
  · rintro ⟨more, hmore⟩
    rw [← hmore, List.append_assoc]
    refine ⟨List.prefix_append _ _, ?_⟩
    rw [List.getElem?_append_right le_rfl, Nat.sub_self]
    rfl

theorem mem_subdirs :
    name ∈ d.subdirs dir ↔ ∃ f ∈ d, dir ++ [name] <+: f.1 ∧ dir ++ [name] ≠ f.1 := by
  rw [subdirs, List.mem_filter, mem_iterdir, isDir, List.any_eq_true]
  simp only [decide_eq_true_eq]
  exact and_iff_right_of_imp fun ⟨f, hf, hbelow, _⟩ => ⟨f, hf, hbelow⟩

theorem mem_filesIn : name ∈ d.filesIn dir ↔ ∃ f ∈ d, f.1 = dir ++ [name] := by
  rw [filesIn, List.mem_filter, mem_iterdir, isFile, decide_eq_true_eq, List.mem_map]
  exact and_iff_right_of_imp fun ⟨f, hf, hpath⟩ => ⟨f, hf, hpath ▸ List.prefix_refl _⟩

theorem nodup_filesIn (d : Listing) (dir : List String) : (d.filesIn dir).Nodup :=
  (List.nodup_dedup _).filter _

/-- The size of a path that all files of the listing agree about. -/
theorem size?_eq {path : List String} {size : Nat} (hmem : (path, size) ∈ d)
    (hall : ∀ f ∈ d, f.1 = path → f.2 = size) : d.size? path = some size := by
  obtain ⟨f, hf⟩ : ∃ f, d.find? (fun f => f.1 = path) = some f := by
    rw [← Option.isSome_iff_exists, List.find?_isSome]
    exact ⟨(path, size), hmem, by simp⟩
  have hpath : f.1 = path := by simpa using List.find?_some hf
  rw [size?, hf, Option.map_some, hall f (List.mem_of_find?_eq_some hf) hpath]

end Listing

/-! ## What is read -/

namespace TStore

variable {t : TStore} {d others : Listing} {dir : List String} {e : Bucket × Nat}

/-- Looking into a directory adds the buckets that are filed below it. -/
def ReadsBelow (t : TStore) (dir : List String) (x : Sizes → Except ReadError Sizes) : Prop :=
  ∀ result, (∀ e ∈ result.items, t.Filed e) → ∃ result', x result = .ok result' ∧
    ∀ e, e ∈ result'.items ↔
      e ∈ result.items ∨ t.Filed e ∧ dir <+: pathNames t.attrs.hoursPerBucket e.1

theorem one_lt_length {hours : Nat} {b : Bucket} : 1 < (pathNames hours b).length :=
  Nat.lt_of_sub_eq_succ rfl

theorem foldlM_reads {body : Sizes → String → Except ReadError Sizes} {names : List String}
    (hbody : ∀ name ∈ names, t.ReadsBelow (dir ++ [name]) (body · name)) :
    ∀ result, (∀ e ∈ result.items, t.Filed e) → ∃ result', names.foldlM body result = .ok result' ∧
      ∀ e, e ∈ result'.items ↔ e ∈ result.items ∨ t.Filed e ∧
        ∃ name ∈ names, dir ++ [name] <+: pathNames t.attrs.hoursPerBucket e.1 := by
  induction names with
  | nil => exact fun result hresult => ⟨result, rfl, by simp⟩
  | cons name names ih =>
    intro result hresult
    obtain ⟨r₁, hr₁, hmem₁⟩ := hbody name (List.mem_cons_self ..) result hresult
    have hfiled : ∀ e ∈ r₁.items, t.Filed e := fun e he =>
      ((hmem₁ e).mp he).elim (hresult e) And.left
    obtain ⟨r₂, hr₂, hmem₂⟩ := ih (fun n hn => hbody n (List.mem_cons_of_mem _ hn)) r₁ hfiled
    refine ⟨r₂, ?_, fun e => ?_⟩
    · change body result name = _ at hr₁
      rw [List.foldlM_cons, hr₁]
      exact hr₂
    · rw [hmem₂, hmem₁, List.exists_mem_cons_iff]
      tauto

/-- The directories in a directory are on the way to files of buckets. -/
theorem ListedAs.mem_subdirs (hd : t.ListedAs others d) (h : t.Books) {name : String} :
    name ∈ d.subdirs dir ↔ ∃ e, t.Filed e ∧
      dir ++ [name] <+: pathNames t.attrs.hoursPerBucket e.1 ∧
        dir ++ [name] ≠ pathNames t.attrs.hoursPerBucket e.1 := by
  rw [Listing.mem_subdirs]
  constructor
  · rintro ⟨f, hf, hbelow, hne⟩
    have hlt : (dir ++ [name]).length < f.1.length :=
      hbelow.length_le.lt_of_ne fun heq => hne (hbelow.eq_of_length heq)
    rw [List.length_append, List.length_singleton] at hlt
    obtain ⟨e, he, rfl⟩ := (hd.mem_iff h (by omega)).mp hf
    exact ⟨e, he, hbelow, hne⟩
  · rintro ⟨e, he, hbelow, hne⟩
    exact ⟨_, (hd.mem_iff h one_lt_length).mpr ⟨e, he, rfl⟩, hbelow, hne⟩

/-- The names above a file are numbers. -/
theorem exists_int {hours : Nat} {b : Bucket} (hyear : 1 ≤ (gmtime b.1).year) {name : String}
    (hdir : dir.length < 4) (hname : dir ++ [name] <+: pathNames hours b) :
    ∃ number, int name = some number := by
  obtain ⟨rest, hrest⟩ := hname
  have hget : (pathNames hours b)[dir.length]? = some name := by
    rw [← hrest, List.append_assoc, List.getElem?_append_right le_rfl, Nat.sub_self]
    rfl
  generalize dir.length = i at hget hdir
  simp only [pathNames] at hget
  obtain rfl | rfl | rfl | rfl : i = 0 ∨ i = 1 ∨ i = 2 ∨ i = 3 := by omega
  · exact ⟨_, Option.some.inj hget ▸ int_year hyear⟩
  all_goals exact ⟨_, Option.some.inj hget ▸ int_zeroPadded 2 _⟩

/-- One of the four loops. -/
theorem readsBelow_forDirs (hd : t.ListedAs others d) (h : t.Books) (hplaced : t.AllPlaced)
    {body : String → Int → Sizes → Except ReadError Sizes} (hdir : dir.length < 4)
    (hbody : ∀ name number e, t.Filed e →
      dir ++ [name] <+: pathNames t.attrs.hoursPerBucket e.1 → int name = some number →
        t.ReadsBelow (dir ++ [name]) (body name number)) :
    t.ReadsBelow dir (forDirs d dir body) := by
  intro result hresult
  have hnames : ∀ name ∈ d.subdirs dir, t.ReadsBelow (dir ++ [name]) fun result =>
      match int name with
      | none => .error (.notANumber name)
      | some number => body name number result := by
    intro name hname
    obtain ⟨e, he, hbelow, -⟩ := (hd.mem_subdirs h).mp hname
    obtain ⟨timestamp, hstart⟩ := (hplaced e.1 he.mem).start
    obtain ⟨-, hyear, -⟩ := FactorOf24.calcBucketStart_eq t.attrs.factorOf24 hstart
    obtain ⟨number, hnumber⟩ := exists_int hyear hdir hbelow
    simp only [hnumber]
    exact hbody name number e he hbelow hnumber
  obtain ⟨result', hfold, hmem⟩ := foldlM_reads hnames result hresult
  refine ⟨result', hfold, fun e => ?_⟩
  rw [hmem]
  refine or_congr_right (and_congr_right fun he => ?_)
  constructor
  · rintro ⟨name, -, hbelow⟩
    exact (List.prefix_append dir [name]).trans hbelow
  · intro hbelow
    obtain ⟨rest, hrest⟩ := hbelow
    have hlength := congrArg List.length hrest
    rw [List.length_append] at hlength
    change _ = 5 at hlength
    obtain ⟨name, more, rfl⟩ := List.exists_cons_of_length_pos (by omega : 0 < rest.length)
    have hbelow : dir ++ [name] <+: pathNames t.attrs.hoursPerBucket e.1 :=
      ⟨more, by rw [← hrest, List.append_assoc]; rfl⟩
    refine ⟨name, (hd.mem_subdirs h).mpr ⟨e, he, hbelow, fun heq => ?_⟩, hbelow⟩
    have hshort := congrArg List.length heq
    rw [List.length_append] at hshort
    change dir.length + 1 = 5 at hshort
    omega

/-- The numbers of an hour's directory are the start of a bucket that is filed in it. -/
theorem Placed.timegm_eq {attrs : Attrs} {b : Bucket} (h : Placed attrs b)
    {ydir mdir ddir hdir : String} {year month mday hour : Int}
    (hbelow : [ydir, mdir, ddir, hdir] <+: pathNames attrs.hoursPerBucket b)
    (hyear : int ydir = some year) (hmonth : int mdir = some month)
    (hmday : int ddir = some mday) (hhour : int hdir = some hour) :
    timegm year month mday hour = some b.1 := by
  obtain ⟨timestamp, hstart⟩ := h.start
  obtain ⟨hwhole, hyears⟩ := FactorOf24.calcBucketStart_eq attrs.factorOf24 hstart
  have hperiod := FactorOf24.period attrs.factorOf24 b.1
  obtain ⟨rest, hrest⟩ := hbelow
  simp only [pathNames, List.cons_append, List.nil_append, List.cons.injEq] at hrest
  obtain ⟨rfl, rfl, rfl, rfl, -⟩ := hrest
  rw [int_year hyears.1, Option.some.injEq] at hyear
  rw [int_zeroPadded, Option.some.injEq] at hmonth hmday hhour
  subst hyear hmonth hmday hhour
  refine Cmc.timegm_eq.mpr ⟨hyears, ?_⟩
  rw [hperiod]
  exact (Int.ediv_mul_cancel (Int.dvd_of_emod_eq_zero hwhole)).symm

theorem removesuffix_append (id suffix : String) : removesuffix (id ++ suffix) suffix = id := by
  rw [removesuffix, String.toList_append, if_pos (List.suffix_append _ _), List.length_append,
    Nat.add_sub_cancel, List.take_left, String.ofList_toList]

/-- An hour has the file of one bucket. -/
theorem readsBelow_readHour (hd : t.ListedAs others d) (h : t.Books) (hplaced : t.AllPlaced)
    (he : t.Filed e) {ydir mdir ddir hdir : String} {year month mday hour : Int}
    (hbelow : [ydir, mdir, ddir, hdir] <+: pathNames t.attrs.hoursPerBucket e.1)
    (hyear : int ydir = some year) (hmonth : int mdir = some month)
    (hmday : int ddir = some mday) (hhour : int hdir = some hour) :
    t.ReadsBelow [ydir, mdir, ddir, hdir]
      (readHour d [ydir, mdir, ddir, hdir] year month mday hour) := by
  have hstart : ∀ e, t.Filed e →
      [ydir, mdir, ddir, hdir] <+: pathNames t.attrs.hoursPerBucket e.1 →
        timegm year month mday hour = some e.1.1 := fun e he hbelow =>
    (hplaced e.1 he.mem).timegm_eq hbelow hyear hmonth hmday hhour
  -- The four directories give the start, and a start has one bucket.
  have honly : ∀ e', t.Filed e' →
      [ydir, mdir, ddir, hdir] <+: pathNames t.attrs.hoursPerBucket e'.1 → e' = e := by
    intro e' he' hbelow'
    have hstarts := (hstart e' he' hbelow').symm.trans (hstart e he hbelow)
    exact he.eq he' (h.eq_of_start he'.mem he.mem (Option.some.inj hstarts))
  have hpath : pathNames t.attrs.hoursPerBucket e.1
      = [ydir, mdir, ddir, hdir] ++ [e.1.2 ++ ".txt"] := by
    obtain ⟨rest, hrest⟩ := hbelow
    simp only [pathNames, List.cons_append, List.nil_append, List.cons.injEq] at hrest ⊢
    exact ⟨hrest.1.symm, hrest.2.1.symm, hrest.2.2.1.symm, hrest.2.2.2.1.symm, trivial⟩
  have hfile : ∀ f ∈ d, ∀ name, f.1 = [ydir, mdir, ddir, hdir] ++ [name] →
      f = (pathNames t.attrs.hoursPerBucket e.1, e.2) := by
    intro f hf name hname
    obtain ⟨e', he', rfl⟩ := (hd.mem_iff h (by rw [hname]; exact Nat.lt_of_sub_eq_succ rfl)).mp hf
    change pathNames _ _ = _ at hname
    obtain rfl := honly e' he' ⟨[name], hname.symm⟩
    rfl
  have hmem : (pathNames t.attrs.hoursPerBucket e.1, e.2) ∈ d :=
    (hd.mem_iff h one_lt_length).mpr ⟨e, he, rfl⟩
  have hfiles : d.filesIn [ydir, mdir, ddir, hdir] = [e.1.2 ++ ".txt"] := by
    rw [← List.perm_singleton,
      List.perm_ext_iff_of_nodup (d.nodup_filesIn _) (List.nodup_singleton _)]
    intro name
    rw [Listing.mem_filesIn, List.mem_singleton]
    constructor
    · rintro ⟨f, hf, hname⟩
      rw [hfile f hf name hname, hpath] at hname
      exact (List.cons.inj (List.append_cancel_left hname)).1.symm
    · rintro rfl
      exact ⟨_, hmem, hpath⟩
  have hsize : d.size? ([ydir, mdir, ddir, hdir] ++ [e.1.2 ++ ".txt"]) = some e.2 := by
    refine Listing.size?_eq (hpath ▸ hmem) fun f hf hname => ?_
    rw [hfile f hf _ hname]
  intro result hresult
  refine ⟨result.set e.1 e.2, ?_, fun e' => ?_⟩
  · simp only [readHour, hstart e he hbelow, hfiles, List.map_cons, List.map_nil,
      removesuffix_append, hsize]
  · rw [Dict.mem_items_set]
    constructor
    · rintro (rfl | ⟨hold, -⟩)
      · exact .inr ⟨he, hbelow⟩
      · exact .inl hold
    · rintro (hold | ⟨he', hbelow'⟩)
      -- The bucket was there already, from another root: its length is the same.
      · by_cases hsame : e'.1 = e.1
        · exact .inl (he.eq (hresult e' hold) hsame)
        · exact .inr ⟨hold, hsame⟩
      · exact .inl (honly e' he' hbelow')

/-- What `read_files` gives is the length of each bucket's file. -/
theorem readFiles_eq (hd : t.ListedAs others d) (h : t.Books) (hplaced : t.AllPlaced) :
    ∃ sizes, readFiles d = .ok sizes ∧ ∀ b, sizes.get? b = (t.view b).map List.length := by
  have hreads : t.ReadsBelow [] fun result => forDirs d [] (fun ydir year =>
      forDirs d [ydir] fun mdir month =>
        forDirs d [ydir, mdir] fun ddir mday =>
          forDirs d [ydir, mdir, ddir] fun hdir hour =>
            readHour d [ydir, mdir, ddir, hdir] year month mday hour) result := by
    refine readsBelow_forDirs hd h hplaced (by decide) fun ydir year _ _ _ hyear => ?_
    refine readsBelow_forDirs hd h hplaced (by simp) fun mdir month _ _ _ hmonth => ?_
    refine readsBelow_forDirs hd h hplaced (by simp) fun ddir mday _ _ _ hmday => ?_
    refine readsBelow_forDirs hd h hplaced (by simp) fun hdir hour e he hbelow hhour => ?_
    exact readsBelow_readHour hd h hplaced he hbelow hyear hmonth hmday hhour
  obtain ⟨sizes, hsizes, hmem⟩ := hreads .empty (by simp)
  refine ⟨sizes, hsizes, fun b => Option.ext fun size => ?_⟩
  rw [Dict.get?_eq_some, hmem]
  simp [Filed]

/-! ## The store that is opened -/

/-- A store that was opened again is as good as the one that was there. -/
structure Same (t t' : TStore) : Prop where
  ordered : sortBuckets t'.buckets.items = sortBuckets t.buckets.items
  sizes : ∀ b, t'.bucketSizes.get? b = t.bucketSizes.get? b
  currentSize : t'.currentSize = t.currentSize
  /-- no file is taken for a bucket that was not written as one -/
  written : ∀ b ∈ t'.bucketSizes, t.getPathOf b ∈ t.files.directory

/-- However its directory is listed, and whatever else lies there, the store can be opened
again and is the same. -/
def Reopens (t : TStore) : Prop :=
  ∀ others d, t.ListedAs others d → ∃ t', reopen t.attrs t.files d = .ok t' ∧ t.Same t'

theorem mem_items_foldl_set {bs : List Bucket} (hstarts : (bs.map Prod.fst).Nodup)
    (buckets : Dict BucketStart BucketID) (hnew : ∀ b ∈ bs, b.1 ∉ buckets) (c : Bucket) :
    c ∈ (bs.foldl (fun buckets b => buckets.set b.1 b.2) buckets).items ↔
      c ∈ buckets.items ∨ c ∈ bs := by
  induction bs generalizing buckets with
  | nil => simp
  | cons b bs ih =>
    obtain ⟨hnot, hstarts⟩ := List.nodup_cons.mp hstarts
    obtain ⟨hb, hnew⟩ := List.forall_mem_cons.mp hnew
    rw [List.foldl_cons, ih hstarts, Dict.mem_items_set, List.mem_cons]
    · have hkept : c ∈ buckets.items ∧ c.1 ≠ b.1 ↔ c ∈ buckets.items :=
        and_iff_left_of_imp fun hc heq => hb (heq ▸ Dict.mem_of_mem_items hc)
      rw [hkept]
      tauto
    · intro c hc hmem
      rcases Dict.mem_set.mp hmem with heq | hold
      · exact hnot (heq ▸ List.mem_map_of_mem hc)
      · exact hnew c hc hold

/-- Two dictionaries that say the same have the same items, in some order. -/
theorem items_perm {x y : Sizes} (h : ∀ b, x.get? b = y.get? b) : x.items.Perm y.items := by
  refine (List.perm_ext_iff_of_nodup x.nodup.of_map y.nodup.of_map).mpr fun e => ?_
  rw [← Dict.get?_eq_some, h, Dict.get?_eq_some]

theorem same_of_sizes (h : t.Books) {sizes : Sizes}
    (hsizes : ∀ b, sizes.get? b = t.bucketSizes.get? b) : t.Same {
      attrs := t.attrs
      buckets := sizes.keys.foldl (fun buckets b => buckets.set b.1 b.2) .empty
      bucketSizes := sizes
      currentSize := sizes.values.sum
      files := t.files } where
  ordered := by
    have hkeys : sizes.keys.Perm t.bucketSizes.keys := (items_perm hsizes).map Prod.fst
    have hstarts : (sizes.keys.map Prod.fst).Nodup := by
      refine List.Nodup.map_on (fun b hb c hc heq => ?_) sizes.nodup_keys
      exact h.eq_of_start (hkeys.mem_iff.mp hb) (hkeys.mem_iff.mp hc) heq
    refine sortBuckets_perm ((List.perm_ext_iff_of_nodup (Dict.nodup _).of_map
      t.buckets.nodup.of_map).mpr fun b => ?_)
    rw [mem_items_foldl_set hstarts .empty (by simp), ← h.agree b, Dict.mem_def, ← hkeys.mem_iff]
    simp
  sizes := hsizes
  currentSize := by
    rw [h.sum, Dict.total]
    exact congrArg _ ((items_perm hsizes).map Prod.snd).sum_eq
  written b hb := by
    obtain ⟨size, hsize⟩ := Dict.exists_get? hb
    rw [hsizes] at hsize
    exact (h.stored _).mpr ⟨b, Dict.mem_of_get? hsize, rfl⟩

/-- A store comes back as it was just when its sizes are the lengths of its files. -/
theorem reopens_iff_accurate (h : t.Books) (hplaced : t.AllPlaced) : t.Reopens ↔ t.Accurate := by
  constructor
  · intro hreopens b
    have hd : t.ListedAs [] t.listing := ⟨by rw [List.append_nil], fun f hf => nomatch hf⟩
    obtain ⟨sizes, hsizes, hview⟩ := readFiles_eq hd h hplaced
    obtain ⟨t', ht', hsame⟩ := hreopens [] t.listing hd
    rw [reopen, hsizes] at ht'
    cases ht'
    exact (hsame.sizes b).symm.trans (hview b)
  · intro haccurate others d hd
    obtain ⟨sizes, hsizes, hview⟩ := readFiles_eq hd h hplaced
    refine ⟨_, ?_, same_of_sizes h fun b => (hview b).trans (haccurate b).symm⟩
    rw [reopen, hsizes]
    rfl

end TStore

/-! ## Runs -/

namespace Session

open TStore

variable {s : Session} {op : Op}

/-- What `create_bucket` is asked for. -/
def PlacedOp (attrs : Attrs) (op : Op) : Prop := ∀ b, op = .createBucket b → Placed attrs b

/-- A writer whose file is no longer that of its bucket writes something to it, and the
bucket is recorded, that is, it has been made again. -/
def StaleWrite (s : Session) : Op → Prop
  | .append i data => data ≠ [] ∧ ∃ w file, s.writers[i]? = some w ∧ w.file = some file ∧
    w.bucket ∈ s.store.bucketSizes ∧
      s.store.files.directory.get? (s.store.getPathOf w.bucket) ≠ some file
  | _ => False

theorem Effect.allPlaced {t : TStore} (h : Effect s op t) (hplaced : s.store.AllPlaced)
    (hop : PlacedOp s.store.attrs op) : t.AllPlaced := by
  have hattrs := h.attrs
  cases h with
  | dropped hgone =>
    intro b hb
    rw [hattrs]
    exact hplaced b (mem_dropAll.mp hb).1
  | added heq hgone hnew hslot hpath =>
    intro c hc
    rw [hattrs]
    rcases mem_addBucket.mp hc with rfl | hold
    · exact hop _ heq
    · exact hplaced c (mem_dropAll.mp hold).1
  | extended heq hw hfile hsize =>
    intro b hb
    exact hplaced b ((mem_extend (Dict.mem_of_get? hsize)).mp hb)

/-- Bytes that go to another file are in the bucket's size and not in its file. -/
theorem not_accurate_extend {t : TStore} (h : t.Books) (haccurate : t.Accurate) {b : Bucket}
    {size file : Nat} (hsize : t.bucketSizes.get? b = some size)
    (hfile : t.files.directory.get? (t.getPathOf b) ≠ some file) {data : List UInt8}
    (hdata : data ≠ []) : ¬ (t.extend b file size data).Accurate := by
  intro hextend
  have hb := Dict.mem_of_get? hsize
  obtain ⟨own, hown, hview⟩ := h.exists_file hb
  have hne : own ≠ file := fun heq => hfile (heq ▸ hown)
  have hcontent : (t.files.write file size data).content own = t.files.content own := by
    simp only [Files.content, Files.write, List.getD_eq_getElem?_getD, List.getElem?_modify]
    simp [Ne.symm hne]
  have hbefore := haccurate b
  have hafter := hextend b
  rw [view, if_pos ((mem_extend hb).mpr hb)] at hafter
  change (t.bucketSizes.set b (size + data.length)).get? b
    = Option.map List.length (Option.map (t.files.write file size data).content
      (t.files.directory.get? (t.getPathOf b))) at hafter
  rw [Dict.get?_set_self, hown, Option.map_some, hcontent] at hafter
  rw [hsize, hview] at hbefore
  have hlength := Option.some.inj (hafter.trans hbefore.symm)
  exact hdata (List.length_eq_zero_iff.mp (by omega))

/-- Writing nothing changes nothing that is recorded. -/
theorem accurate_extend_nil {t : TStore} (h : t.Accurate) {b : Bucket} {size : Nat} (file : Nat)
    (hsize : t.bucketSizes.get? b = some size) : (t.extend b file size []).Accurate := by
  have hb := Dict.mem_of_get? hsize
  have hcontent : (t.files.write file size []).content = t.files.content := by
    funext g
    simp only [Files.content, Files.write, List.getD_eq_getElem?_getD, List.getElem?_modify]
    split_ifs <;> cases t.files.contents[g]? <;> simp [Files.writeAt]
  intro c
  rw [view_congr (mem_extend hb) rfl fun g _ => congrFun hcontent g, ← h c]
  change (t.bucketSizes.set b size).get? c = _
  rw [Dict.get?_set]
  split_ifs with heq
  · rw [heq, hsize]
  · rfl

theorem step_accurate_iff (h : s.store.Books) (haccurate : s.store.Accurate) (op : Op) :
    (step op s).2.store.Accurate ↔ ¬ StaleWrite s op := by
  by_cases hstale : StaleAppend s op
  · cases op with
    | append i data =>
      obtain ⟨w, hw, hstale⟩ := hstale
      have hstore : (step (.append i data) s).2.store = (append w data s.store).2 := by
        rw [step_append data hw]
        rfl
      have hwriter : ∀ w', s.writers[i]? = some w' → w' = w := fun w' hw' =>
        Option.some.inj (hw'.symm.trans hw)
      rw [hstore]
      by_cases hb : w.bucket ∈ s.store.bucketSizes
      · obtain ⟨file, hfile, hne⟩ := hstale.resolve_left fun hnot => hnot hb
        obtain ⟨size, hsize⟩ := Dict.exists_get? hb
        rw [append_open data hsize hfile]
        by_cases hdata : data = []
        · subst hdata
          exact iff_of_true (accurate_extend_nil haccurate file hsize) fun hwrite => hwrite.1 rfl
        · refine iff_of_false (not_accurate_extend h haccurate hsize hne hdata) fun hnot => ?_
          exact hnot ⟨hdata, w, file, hw, hfile, hb, hne⟩
      · rw [append_missing data hb]
        refine iff_of_true haccurate ?_
        rintro ⟨-, w', file, hw', -, hmem, -⟩
        exact hb (hwriter w' hw' ▸ hmem)
    | _ => exact absurd hstale id
  · refine iff_of_true ((step_effect h op).accurate h haccurate hstale) fun hwrite => hstale ?_
    cases op with
    | append i data =>
      obtain ⟨-, w, file, hw, hfile, -, hne⟩ := hwrite
      exact ⟨w, hw, .inr ⟨file, hfile, hne⟩⟩
    | _ => exact hwrite

/-- In a run, opening the store again makes no difference at any time just when no stale
writer writes. -/
theorem invisible_iff (attrs : Attrs) (ops : List Op) (hops : ∀ op ∈ ops, PlacedOp attrs op) :
    ((Session.new attrs).store.Reopens ∧
        AllSteps step (fun s op => (step op s).2.store.Reopens) (.new attrs) ops) ↔
      AllSteps step (fun s op => ¬ StaleWrite s op) (.new attrs) ops := by
  have hnew : (TStore.new attrs).AllPlaced := fun b hb => absurd hb (Dict.not_mem_empty b)
  have hfirst : (Session.new attrs).store.Reopens :=
    (reopens_iff_accurate (books_new attrs) hnew).mpr (accurate_new attrs)
  refine (and_iff_right hfirst).trans (allSteps_congr_of
    (I := fun s => s.store.attrs = attrs ∧ s.store.Books ∧ s.store.AllPlaced ∧ s.store.Accurate)
    ?_ ?_ hops ⟨rfl, books_new attrs, hnew, accurate_new attrs⟩)
  · rintro s op hop ⟨rfl, hbooks, hplaced, haccurate⟩
    have heffect := step_effect hbooks op
    rw [reopens_iff_accurate (heffect.books hbooks) (heffect.allPlaced hplaced hop)]
    exact step_accurate_iff hbooks haccurate op
  · rintro s op hop ⟨rfl, hbooks, hplaced, haccurate⟩ hwrite
    have heffect := step_effect hbooks op
    exact ⟨heffect.attrs, heffect.books hbooks, heffect.allPlaced hplaced hop,
      (step_accurate_iff hbooks haccurate op).mpr hwrite⟩

theorem placedOp_epoch {attrs : Attrs} (hhours : attrs.hoursPerBucket = 1) {op : Op}
    (hop : ∀ b, op = .createBucket b → b = (0, "a")) : PlacedOp attrs op := by
  intro b hb
  obtain rfl := hop b hb
  refine ⟨⟨1, ?_⟩, ⟨by decide, by decide, by decide, by decide, by decide⟩⟩
  rw [hhours]
  decide +kernel

/-- A bucket that is written by its own writer. -/
theorem invisible_iff_one :
    (∀ op ∈ [Op.createBucket (0, "a"), .newWriter (0, "a"), .enter 0, .append 0 [1, 2, 3]],
        PlacedOp ⟨1, 3, 10, by decide⟩ op) ∧
      (((Session.new ⟨1, 3, 10, by decide⟩).store.Reopens ∧
          AllSteps step (fun s op => (step op s).2.store.Reopens) (.new ⟨1, 3, 10, by decide⟩)
            [.createBucket (0, "a"), .newWriter (0, "a"), .enter 0, .append 0 [1, 2, 3]]) ↔
        AllSteps step (fun s op => ¬ StaleWrite s op) (.new ⟨1, 3, 10, by decide⟩)
          [.createBucket (0, "a"), .newWriter (0, "a"), .enter 0, .append 0 [1, 2, 3]]) := by
  have hops : ∀ op ∈ [Op.createBucket (0, "a"), .newWriter (0, "a"), .enter 0,
      .append 0 [1, 2, 3]], PlacedOp ⟨1, 3, 10, by decide⟩ op := by
    intro op hop
    refine placedOp_epoch rfl fun b hb => ?_
    subst hb
    simpa using hop
  exact ⟨hops, invisible_iff ⟨1, 3, 10, by decide⟩ _ hops⟩

/-- A writer that was opened before its bucket was deleted and made again writes three
bytes, which are lost when the store is opened again. -/
theorem not_invisible :
    (∀ op ∈ [Op.createBucket (0, "a"), .newWriter (0, "a"), .enter 0, .deleteBucket (0, "a"),
        .createBucket (0, "a"), .append 0 [1, 2, 3]], PlacedOp ⟨1, 3, 10, by decide⟩ op) ∧
      ¬ ((Session.new ⟨1, 3, 10, by decide⟩).store.Reopens ∧
        AllSteps step (fun s op => (step op s).2.store.Reopens) (.new ⟨1, 3, 10, by decide⟩)
          [.createBucket (0, "a"), .newWriter (0, "a"), .enter 0, .deleteBucket (0, "a"),
            .createBucket (0, "a"), .append 0 [1, 2, 3]]) := by
  refine ⟨fun op hop => placedOp_epoch rfl fun b hb => ?_, ?_⟩
  · subst hb
    simpa using hop
  · rintro ⟨-, -, -, -, -, -, hlast, -⟩
    obtain ⟨t', ht', hsame⟩ := hlast [] _ ⟨by rw [List.append_nil], fun f hf => nomatch hf⟩
    have hempty := congrArg (Except.map TStore.currentSize) ht'
    change _ = Except.ok t'.currentSize at hempty
    rw [hsame.currentSize] at hempty
    exact absurd hempty (by decide +kernel)

end Session

end Urnest.Cmc
