import Mathlib.Algebra.Order.BigOperators.Group.Finset
import Urnest.Cmc.Delivery
import Urnest.Cmc.Fetch
import Urnest.Cmc.Session
import Urnest.Cmc.Unseen

/-!
# A log and its mirror

Records are put into a log, and from time to time its mirror is told what it has not seen and
takes it (`sync`). However the two alternate, a round always succeeds, and no bucket of the
mirror has anything but the beginning of what the log's bucket has. A round either brings all that
is missing or as many bytes as it may (`Follows.round`), so the mirror has everything, and is sent
nothing more, after so many rounds that it may have been sent as many bytes as there are in the
log (`mirror_follows`).
-/

namespace Urnest.Cmc

open Lib Action TStore

/-! ## What a mirror keeps -/

/-- The mirror has the beginning of what the log has, and as many slots. -/
structure Follows (t m : TStore) : Prop where
  books : t.Books
  accurate : t.Accurate
  several : 1 < t.attrs.maxBuckets
  slots : t.buckets.length ≤ t.attrs.maxBuckets
  ids : ∀ b ∈ t.bucketSizes, ∀ c ∈ t.bucketSizes, b.2 = c.2 → b = c
  clean : m.Clean
  sameSlots : m.attrs.maxBuckets = t.attrs.maxBuckets
  begins : ∀ b ∈ t.bucketSizes, m.bytesOf b <+: t.bytesOf b

/-- It has no other buckets. -/
structure Within (t m : TStore) : Prop extends Follows t m where
  within : ∀ b ∈ m.bucketSizes, b ∈ t.bucketSizes

/-- The bytes that the mirror has of the log's buckets -/
def weight (t m : TStore) : Nat := ∑ b ∈ t.bucketSizes.keys.toFinset, (m.bytesOf b).length

theorem bytesOf_of_not_mem {t : TStore} {b : Bucket} (hb : b ∉ t.bucketSizes) :
    t.bytesOf b = [] := by
  rw [bytesOf, view_of_not_mem hb]
  rfl

section Round

variable {t m m' : TStore} {b : Bucket} {bs : List Bucket} {seen : Dict Bucket Nat}
  {data : List UInt8} {a : Arrangement} {n : Nat}

theorem Within.beginning (h : Within t m) (b : Bucket) : m.bytesOf b <+: t.bytesOf b := by
  by_cases hb : b ∈ t.bucketSizes
  · exact h.begins b hb
  · rw [bytesOf_of_not_mem fun hm => hb (h.within b hm)]
    exact List.nil_prefix

theorem weight_write (hb : b ∈ t.bucketSizes)
    (hbytes : ∀ c, m'.bytesOf c = if c = b then m.bytesOf b ++ data else m.bytesOf c) :
    weight t m' = weight t m + data.length := by
  have hmem : b ∈ t.bucketSizes.keys.toFinset := List.mem_toFinset.mpr hb
  rw [weight, weight, ← Finset.add_sum_erase _ _ hmem, ← Finset.add_sum_erase _ _ hmem, hbytes b,
    if_pos rfl, List.length_append, Nat.add_right_comm]
  congr 2
  refine Finset.sum_congr rfl fun c hc => ?_
  rw [hbytes c, if_neg (Finset.ne_of_mem_erase hc)]

/-- There is room for a bucket of the log. -/
theorem Within.room (h : Within t m) (hb : b ∈ t.bucketSizes) (hnew : b ∉ m.bucketSizes) :
    b.1 ∉ m.buckets ∧ m.buckets.length < m.attrs.maxBuckets ∧
      m.getPathOf b ∉ m.files.directory := by
  refine ⟨fun hmem => ?_, ?_, fun hmem => ?_⟩
  · obtain ⟨id, hid⟩ := Dict.exists_mem_items hmem
    have hother := (h.clean.books.agree (b.1, id)).mpr hid
    have hthere := (h.books.agree _).mp (h.within _ hother)
    obtain rfl : id = b.2 := Dict.value_unique hthere ((h.books.agree b).mp hb)
    exact hnew hother
  · have hnodup : (b :: m.bucketSizes.keys).Nodup :=
      List.nodup_cons.mpr ⟨hnew, m.bucketSizes.nodup_keys⟩
    have hsub : b :: m.bucketSizes.keys ⊆ t.bucketSizes.keys :=
      List.cons_subset.mpr ⟨hb, fun c hc => h.within c hc⟩
    have hle := (List.subperm_of_subset hnodup hsub).length_le
    have hslots := h.slots
    rw [h.books.length_eq, Dict.length] at hslots
    rw [List.length_cons, Dict.keys, Dict.keys, List.length_map, List.length_map] at hle
    rw [h.clean.books.length_eq, h.sameSlots, Dict.length]
    omega
  · obtain ⟨c, hc, hpath⟩ := (h.clean.books.stored _).mp hmem
    have hid : c.2 = b.2 := (Prod.mk.inj hpath).2
    exact hnew (h.ids c (h.within c hc) b hb hid ▸ hc)

/-- A slice from where the mirror is -/
theorem Within.writeEntry (h : Within t m) (hb : b ∈ t.bucketSizes) (hdata : data ≠ [])
    (hbegins : m.bytesOf b ++ data <+: t.bytesOf b) :
    ∃ m', Tracker.writeEntry b (m.bytesOf b).length data m = (.ok (), m') ∧ Within t m' ∧
      ∀ c, m'.bytesOf c = if c = b then m.bytesOf b ++ data else m.bytesOf c := by
  obtain ⟨m', hbecomes, hwrite⟩ : ∃ m',
      Becomes m m' (Function.update m.view b (some (m.bytesOf b ++ data))) ∧
        Tracker.writeEntry b (m.bytesOf b).length data m = (.ok (), m') := by
    by_cases hmem : b ∈ m.bucketSizes
    · exact Tracker.writeEntry_more h.clean.books h.clean.accurate hmem
        (h.clean.mem_iff.mp hmem) hdata
    · obtain ⟨hstart, hslot, hpath⟩ := h.room hb hmem
      rw [bytesOf_of_not_mem hmem]
      exact Tracker.writeEntry_new h.clean.books h.clean.accurate hstart
        (h.sameSlots ▸ h.several) hslot hpath hdata
  have hbytes (c : Bucket) :
      m'.bytesOf c = if c = b then m.bytesOf b ++ data else m.bytesOf c := by
    rw [bytesOf, hbecomes.view, Function.update_apply]
    split_ifs <;> rfl
  refine ⟨m', hwrite, { h with
    clean := ⟨hbecomes.books, hbecomes.accurate, fun c hc => ?_⟩
    sameSlots := (congrArg Attrs.maxBuckets hbecomes.attrs).trans h.sameSlots
    begins := fun c hc => ?_
    within := fun c hc => ?_ }, hbytes⟩
  -- A slice is not empty, so neither is its bucket.
  · rw [hbecomes.view, Function.update_apply] at hc
    split_ifs at hc
    · exact hdata (List.append_eq_nil_iff.mp (Option.some.inj hc)).2
    · exact h.clean.nonempty c hc
  · rw [hbytes]
    split_ifs with heq
    · exact heq ▸ hbegins
    · exact h.begins c hc
  · by_cases heq : c = b
    · exact heq ▸ hb
    · refine h.within c (h.clean.books.view_isSome.mp ?_)
      have hsome := hbecomes.books.view_isSome.mpr hc
      rwa [hbecomes.view, Function.update_of_ne heq] at hsome

/-- Slices from where the mirror is bring it as many bytes as they may, or all of the buckets. -/
theorem Within.writeEntries (h : Within t m) (hnodup : bs.Nodup)
    (hbs : ∀ b ∈ bs, b ∈ t.bucketSizes ∧ PerfLog.seenOf seen b < (t.bytesOf b).length)
    (hseen : ∀ b ∈ bs, PerfLog.seenOf seen b = (m.bytesOf b).length) (hn : 0 < n) :
    ∃ m', Tracker.writeEntries (PerfLog.slices t seen bs n) m = (.ok (), m') ∧ Within t m' ∧
      (weight t m' = weight t m + n ∨
        ∀ b, m'.bytesOf b = if b ∈ bs then t.bytesOf b else m.bytesOf b) := by
  induction bs generalizing m n with
  | nil => exact ⟨m, rfl, h, .inr fun b => rfl⟩
  | cons b bs ih =>
    obtain ⟨hnot, hnodup⟩ := List.nodup_cons.mp hnodup
    obtain ⟨⟨hb, hlt⟩, hbs⟩ := List.forall_mem_cons.mp hbs
    obtain ⟨hlength, hseen⟩ := List.forall_mem_cons.mp hseen
    obtain ⟨rest, hrest⟩ := h.begins b hb
    have hdrop : (t.bytesOf b).drop (PerfLog.seenOf seen b) = rest := by
      rw [← hrest, hlength, List.drop_left]
    have hdata : rest.take n ≠ [] := by
      have htotal := congrArg List.length hrest
      rw [List.length_append, ← hlength] at htotal
      exact List.ne_nil_of_length_pos (by rw [List.length_take]; omega)
    have hbegins : m.bytesOf b ++ rest.take n <+: t.bytesOf b :=
      hrest ▸ ((List.prefix_append_right_inj _).mpr <| List.take_prefix n rest)
    obtain ⟨m₁, hwrite, hwithin, hbytes⟩ := h.writeEntry hb hdata hbegins
    have hweight := weight_write hb hbytes
    rw [PerfLog.slices, hdrop, hlength, Tracker.writeEntries, bind_ok hwrite]
    split_ifs with hfull
    · exact ⟨m₁, rfl, hwithin, .inl (hfull ▸ hweight)⟩
    · have hle := List.length_take_le n rest
      have hall : rest.take n = rest := List.take_of_length_le (by simp at hfull; omega)
      have hseen' : ∀ c ∈ bs, PerfLog.seenOf seen c = (m₁.bytesOf c).length := by
        intro c hc
        have hne : c ≠ b := fun heq => hnot (heq ▸ hc)
        rw [hbytes, if_neg hne, hseen c hc]
      have hmore : 0 < n - (rest.take n).length := by omega
      obtain ⟨m', hwrites, hwithin', hround⟩ := ih hwithin hnodup hbs hseen' hmore
      refine ⟨m', hwrites, hwithin', hround.imp (fun hround => by omega) fun hround c => ?_⟩
      rw [hround, hbytes, hall, hrest]
      by_cases heq : c = b
      · subst heq
        rw [if_neg hnot, if_pos rfl, if_pos (List.mem_cons_self ..)]
      · simp only [heq, List.mem_cons, false_or, if_false]

theorem Follows.seenOf_eq (h : Follows t m) (b : Bucket) :
    PerfLog.seenOf m.bucketSizes b = (m.bytesOf b).length := by
  rw [PerfLog.seenOf, h.clean.accurate b, bytesOf]
  cases m.view b <;> rfl

/-- What a round writes -/
theorem Follows.round (h : Follows t m) (a : Arrangement) (hn : 0 < n) :
    ∃ m', Tracker.writeEntries ((t.goneFrom a m.bucketSizes).map (fun b => (b, 0, [])) ++
        PerfLog.slices t m.bucketSizes (t.differingFrom a m.bucketSizes) n) m = (.ok (), m') ∧
      Within t m' ∧ (weight t m' = weight t m + n ∨ ∀ b, m'.bytesOf b = t.bytesOf b) := by
  have hgone : m.Deletable (t.goneFrom a m.bucketSizes) :=
    ⟨nodup_goneFrom, fun b hb => ((mem_goneFrom h.books).mp hb).1⟩
  generalize hdrop : m.dropAll (t.goneFrom a m.bucketSizes) = m₁
  have hattrs : m₁.attrs = m.attrs := hdrop ▸ dropAll_attrs ..
  -- After the notices the mirror has what it had of the log's buckets.
  have hsame (b : Bucket) (hb : b ∈ t.bucketSizes) : m₁.bytesOf b = m.bytesOf b := by
    rw [← hdrop, bytesOf, bytesOf, view_dropAll h.clean.books hgone,
      if_neg fun hmem => ((mem_goneFrom h.books).mp hmem).2 hb]
  have hwithin : Within t m₁ :=
    { h with
      clean := hdrop ▸ h.clean.dropAll hgone
      sameSlots := (congrArg Attrs.maxBuckets hattrs).trans h.sameSlots
      begins := fun b hb => hsame b hb ▸ h.begins b hb
      within := fun b hb => by
        obtain ⟨hb, hkept⟩ := mem_dropAll.mp (hdrop ▸ hb)
        by_contra hnot
        exact hkept ((mem_goneFrom h.books).mpr ⟨hb, hnot⟩) }
  have hseen : ∀ b ∈ t.bucketSizes,
      PerfLog.seenOf m.bucketSizes b ≤ (t.bytesOf b).length :=
    fun b hb => h.seenOf_eq b ▸ (h.begins b hb).length_le
  have hbs := fun b (hb : b ∈ t.differingFrom a m.bucketSizes) =>
    PerfLog.seenOf_lt h.accurate h.books hseen hb
  obtain ⟨m', hwrite, hwithin', hround⟩ := hwithin.writeEntries nodup_differingFrom hbs
    (fun b hb => by rw [h.seenOf_eq, hsame b (hbs b hb).1]) hn
  have hweight : weight t m₁ = weight t m :=
    Finset.sum_congr rfl fun b hb => by rw [hsame b (List.mem_toFinset.mp hb)]
  refine ⟨m', ?_, hwithin', hround.imp (fun hround => hround.trans (by rw [hweight])) ?_⟩
  · rw [Tracker.writeEntries_notices h.clean.books hgone, hdrop, hwrite]
  · intro hround b
    rw [hround]
    split_ifs with hb
    · rfl
    -- There is nothing more in what is not listed.
    · by_cases hmem : b ∈ t.bucketSizes
      · have hseen := mt (mem_differingFrom h.books).mpr hb
        rw [h.accurate.recordedSize_eq h.books hmem] at hseen
        simp only [not_and, not_not] at hseen
        have hbegins := hwithin.begins b hmem
        refine hbegins.eq_of_length ?_
        by_cases hbytes : (t.bytesOf b).length = 0
        · exact Nat.le_antisymm hbegins.length_le (hbytes ▸ Nat.zero_le _)
        · have hsize := hseen hmem hbytes
          have hlength := h.seenOf_eq b
          rw [PerfLog.seenOf, hsize] at hlength
          rw [hsame b hmem, ← hlength, Option.getD_some]
      · rw [bytesOf_of_not_mem hmem, bytesOf_of_not_mem fun hm => hmem (hwithin.within b hm)]

/-- What is all there is not sent again. -/
theorem Within.nothing_unseen (h : Within t m) (hequal : ∀ b, m.bytesOf b = t.bytesOf b)
    (a : Arrangement) (hn : 0 < n) :
    PerfLog.getSomeUnseenData a m.bucketSizes n t = (.ok .empty, t) := by
  have hseen (b : Bucket) : PerfLog.seenOf m.bucketSizes b = (t.bytesOf b).length := by
    rw [h.seenOf_eq, hequal]
  obtain ⟨unseen, hget, hitems⟩ :=
    PerfLog.getSomeUnseenData_eq h.accurate h.books a (fun b _ => (hseen b).le) hn
  have hgone : t.goneFrom a m.bucketSizes = [] := by
    refine List.eq_nil_iff_forall_not_mem.mpr fun b hb => ?_
    obtain ⟨hmem, hnot⟩ := (mem_goneFrom h.books).mp hb
    exact hnot (h.within b hmem)
  have hdiffering : t.differingFrom a m.bucketSizes = [] := by
    refine List.eq_nil_iff_forall_not_mem.mpr fun b hb => ?_
    exact (PerfLog.seenOf_lt h.accurate h.books (fun b _ => (hseen b).le) hb).2.ne (hseen b)
  rw [hgone, hdiffering] at hitems
  obtain rfl : unseen = .empty := Dict.ext hitems
  exact hget

end Round

/-! ## What is recorded -/

section Record

open PerfLog Recorder

variable {Nested : Type} {host : Host Nested} {s : PerfLog} {entries : Entries Nested} {b : Bucket}

/-- A record keeps what the methods of the store keep. -/
theorem record_keeps {P : TStore → Prop}
    (hP : ∀ (s : Session) (op : Cmc.Op), P s.store → P (Session.step op s).2.store)
    (timestamp : Int) (encoded : List UInt8) (now : BucketID) :
    Keeps (fun r : Recorder => P r.tstore) (record timestamp encoded now) := by
  have hstore {α : Type} {x : Action TStore Error α} (hx : ∀ t, P t → P (x t).2) :
      Keeps (fun r : Recorder => P r.tstore) (onStore x) := fun r hr => hx r.tstore hr
  have hsame {α : Type} {x : Action TStore Error α} (hx : ∀ t, (x t).2 = t) :
      Keeps (fun r : Recorder => P r.tstore) (onStore x) := hstore fun t ht => by rwa [hx]
  have hwriters (f : Recorder → Dict Bucket Writer) : Keeps (fun r : Recorder => P r.tstore)
      (change fun r => { r with writers := f r } : Action Recorder Error Unit) := fun _ hr => hr
  have hroom := hstore fun t ht => hP ⟨t, []⟩ (.makeRoomFor encoded.length) ht
  have hfor (start : BucketStart) :
      Keeps (fun r : Recorder => P r.tstore) (bucketFor start now) := by
    refine .handle (hsame fun t => ?_) fun e => ?_
    · rw [getBucket, read_bind]
      cases t.buckets.get? start <;> rfl
    · cases e with
      | noSuchBucket =>
        have hcreate := hstore fun t ht => hP ⟨t, []⟩ (.createBucket (start, now)) ht
        exact hcreate.bind fun _ => .pure now
      | _ => exact .raise _
  have hwriter (b : Bucket) : Keeps (fun r : Recorder => P r.tstore) (writerFor b) := by
    refine .read_bind fun r hr => ?_
    cases r.writers.get? b with
    | some w => exact hr
    | none =>
      exact (hwriters fun _ => .empty).bind (fun _ => (hsame (newWriter_state b)).bind fun w =>
        (hsame (openFile_state w.bucket)).bind fun file =>
          (hwriters fun r => r.writers.set b { w with file := some file }).bind fun _ =>
            .pure _) r hr
  refine .read_bind fun r hr => hroom.bind (fun _ => (hfor _).bind fun id =>
    (hwriter _).bind fun w => hstore fun t ht => ?_) r hr
  have hstep := hP ⟨t, [w]⟩ (.append 0 encoded) ht
  rwa [Session.step_append encoded rfl] at hstep

/-- So it keeps the number of buckets in bounds. -/
theorem slots_record {t : TStore} (h : t.Books) (hslots : t.buckets.length ≤ t.attrs.maxBuckets)
    (writers : Dict Bucket Writer) (timestamp : Int) (encoded : List UInt8) (now : BucketID) :
    (record timestamp encoded now ⟨t, writers⟩).2.tstore.attrs = t.attrs ∧
      (record timestamp encoded now ⟨t, writers⟩).2.tstore.buckets.length
        ≤ t.attrs.maxBuckets := by
  obtain ⟨-, hattrs, hslots'⟩ := @record_keeps
    (fun x => x.Books ∧ x.attrs = t.attrs ∧ x.buckets.length ≤ x.attrs.maxBuckets)
    (fun s op hs => by
      have heffect := Session.step_effect hs.1 op
      exact ⟨heffect.books hs.1, heffect.attrs.trans hs.2.1, heffect.slots hs.2.2⟩)
    timestamp encoded now ⟨t, writers⟩ ⟨h, rfl, hslots⟩
  exact ⟨hattrs, hattrs ▸ hslots'⟩

theorem mem_of_outcome {t : TStore} {writers : Dict Bucket Writer} {start : BucketStart}
    {now : BucketID} {encoded : List UInt8} {r : Except Error Unit × Recorder}
    (h : Outcome t writers start now encoded r) (hb : b ∈ r.2.tstore.bucketSizes) :
    b ∈ t.bucketSizes ∨ b = (start, now) := by
  cases h with
  | failed e hgone hgone' => exact .inl (mem_dropAll.mp (mem_dropAll.mp hb).1).1
  | recorded hgone hopened hkeeping hsize =>
    have hb' := (mem_extend (Dict.mem_of_get? hsize)).mp hb
    cases hopened with
    | there => exact .inl (mem_dropAll.mp hb').1
    | made =>
      refine (mem_addBucket.mp hb').symm.imp_left fun hmem => ?_
      exact (mem_dropAll.mp (mem_dropAll.mp hmem).1).1

/-- The entries of a bucket that keeps its file are only added to. -/
theorem prefix_noted {i : Nat} {e : TimedRecord Nested} {now : BucketID}
    (hfile : fileOf (step host (.record i e now) s).2.tstore b = fileOf s.tstore b) :
    entries b <+: PerfLog.noted host s entries (.record i e now) b := by
  rw [PerfLog.noted]
  cases s.recorders[i]? with
  | none => exact List.prefix_refl _
  | some writers =>
    rcases hstep : step host (.record i e now) s with ⟨failure | ⟨⟩, s'⟩
    · exact List.prefix_refl _
    · rw [hstep] at hfile
      simp only [added]
      cases s'.tstore.buckets.get? (s.tstore.calcBucketStart e.timestamp.val.floor) with
      | none => exact List.prefix_refl _
      | some id =>
        dsimp only
        rw [Function.update_apply]
        split_ifs with heq hsame
        · rw [heq]
          exact List.prefix_append ..
        · rw [heq] at hfile
          exact absurd hfile hsame
        · exact List.prefix_refl _

/-- The mirror has the beginning of what there is after a record, too, if the record has an
identifier of its own for a new bucket. -/
theorem Follows.record {m : TStore} (h : Follows s.tstore m)
    (hfaithful : Faithful host s.tstore s.schema s.recorders entries) {i : Nat}
    {e : TimedRecord Nested} {now : BucketID}
    (hnow : ∀ b, b ∈ s.tstore.bucketSizes ∨ b ∈ m.bucketSizes → b.2 ≠ now)
    (hfaithful' : Faithful host (step host (.record i e now) s).2.tstore
      (step host (.record i e now) s).2.schema (step host (.record i e now) s).2.recorders
      (PerfLog.noted host s entries (.record i e now))) :
    Follows (step host (.record i e now) s).2.tstore m := by
  obtain ⟨start, ⟨hattrs, hslots⟩, hmem⟩ : ∃ start,
      ((step host (.record i e now) s).2.tstore.attrs = s.tstore.attrs ∧
        (step host (.record i e now) s).2.tstore.buckets.length ≤ s.tstore.attrs.maxBuckets) ∧
      ∀ b ∈ (step host (.record i e now) s).2.tstore.bucketSizes,
        b ∈ s.tstore.bucketSizes ∨ b = (start, now) := by
    rcases step_outcome hfaithful i e now with
      hsame | ⟨ws, start, encoded, r, rfl, houtcome, hstep, -⟩
    · rw [hsame]
      exact ⟨0, ⟨rfl, h.slots⟩, fun b hb => .inl hb⟩
    · rw [hstep]
      exact ⟨start, slots_record h.books h.slots ws _ encoded now,
        fun b hb => mem_of_outcome houtcome hb⟩
  have hschema : (step host (.record i e now) s).2.schema = s.schema := by
    rw [step, read_bind]
    cases s.recorders[i]? <;> rfl
  refine ⟨hfaithful'.books, hfaithful'.accurate, hattrs ▸ h.several, hattrs ▸ hslots, ?_,
    h.clean, h.sameSlots.trans (congrArg Attrs.maxBuckets hattrs.symm), fun b hb => ?_⟩
  · intro b hb c hc heq
    rcases hmem b hb with hb | rfl <;> rcases hmem c hc with hc | rfl
    · exact h.ids b hb c hc heq
    · exact absurd heq (hnow b (.inl hb))
    · exact absurd heq.symm (hnow c (.inl hc))
    · rfl
  · rcases hmem b hb with hold | rfl
    · obtain ⟨file, hfile, -⟩ := hfaithful'.books.exists_file hb
      have hsame := fileOf_of_step hfaithful (hnow b (.inl hold)) hfile
      have hbegins : entries b <+: _ := prefix_noted (hfile.trans hsame.symm)
      refine (h.begins b hold).trans ?_
      rw [hfaithful.bytes b hold, hfaithful'.bytes b hb, hschema]
      exact (hbegins.map _).flatten
    · have hnot : (start, now) ∉ m.bucketSizes := fun hm => hnow _ (.inr hm) rfl
      rw [bytesOf_of_not_mem hnot]
      exact List.nil_prefix

end Record

/-! ## Runs -/

/-- A log, and the store of its mirror -/
structure Mirrored where
  source : PerfLog
  mirror : TStore

namespace Mirrored

open PerfLog

/-- The mirror's tracker is sent some of what it has not seen, and writes it. -/
def sync (a : Arrangement) (maxBytes : Nat) : Action Mirrored Error Unit := do
  let s ← read
  let unseen ← on (fun s => s.source.tstore)
    (fun t s => { s with source := { s.source with tstore := t } })
    (getSomeUnseenData a s.mirror.bucketSizes maxBytes)
  on mirror (fun m s => { s with mirror := m }) (Tracker.writeUnseenData unseen)

variable {Nested : Type} (host : Host Nested)

inductive Event (Nested : Type) where
  | log (op : PerfLog.Op Nested)
  | sync (a : Arrangement) (maxBytes : Nat)

def step : Event Nested → Action Mirrored Failure Unit
  | .log op => on source (fun log s => { s with source := log }) (PerfLog.step host op)
  | .sync a maxBytes => mapError .store (sync a maxBytes)

/-- Rounds without anything recorded in between -/
def syncs (rounds : List (Arrangement × Nat)) : List (Event Nested) :=
  rounds.map fun r => .sync r.1 r.2

/-- A new log with a new mirror -/
def new (attrs attrs' : Attrs) (schema : Schema) : Mirrored := ⟨.new attrs schema, .new attrs'⟩

/-- No identifier that a bucket has somewhere is given to a new one, and a round may send
something. -/
def Regular (s : Mirrored) : Event Nested → Prop
  | .log .newRecorder => True
  | .log (.record _ _ now) => ∀ b, (b ∈ s.source.tstore.bucketSizes ∨ b ∈ s.mirror.bucketSizes ∨
      ∃ writers ∈ s.source.recorders, b ∈ writers) → b.2 ≠ now
  | .sync _ maxBytes => 0 < maxBytes

/-- A bucket that both have is the log's up to some byte in the mirror. A round succeeds, and the
mirror then has no other buckets. -/
def Mirrors (s : Mirrored) (e : Event Nested) : Prop :=
  (∀ b ∈ (step host e s).2.source.tstore.bucketSizes,
    (step host e s).2.mirror.bytesOf b <+: (step host e s).2.source.tstore.bytesOf b) ∧
  match e with
  | .log _ => True
  | .sync _ _ => (step host e s).1 = .ok () ∧ (step host e s).2.source = s.source ∧
      ∀ b ∈ (step host e s).2.mirror.bucketSizes, b ∈ s.source.tstore.bucketSizes

/-- The mirror has what the log has, and is sent nothing more. -/
def UpToDate (s : Mirrored) : Prop :=
  (∀ b, s.mirror.bytesOf b = s.source.tstore.bytesOf b) ∧
  ∀ (a : Arrangement) (maxBytes : Nat), 0 < maxBytes →
    getSomeUnseenData a s.mirror.bucketSizes maxBytes s.source.tstore
      = (.ok .empty, s.source.tstore)

/-- What is true of a run's states, whatever has been recorded -/
def Kept (s : Mirrored) : Prop :=
  Follows s.source.tstore s.mirror ∧ ∃ entries,
    Faithful host s.source.tstore s.source.schema s.source.recorders entries

variable {host} {s : Mirrored}

/-- A round succeeds, and brings as many bytes as it may, or all. -/
theorem step_sync (host : Host Nested) (h : Follows s.source.tstore s.mirror) (a : Arrangement)
    {n : Nat} (hn : 0 < n) : ∃ m', step host (.sync a n) s = (.ok (), { s with mirror := m' }) ∧
      Within s.source.tstore m' ∧
        (weight s.source.tstore m' = weight s.source.tstore s.mirror + n ∨
          ∀ b, m'.bytesOf b = s.source.tstore.bytesOf b) := by
  obtain ⟨unseen, hget, hitems⟩ := getSomeUnseenData_eq h.accurate h.books a
    (fun b hb => h.seenOf_eq b ▸ (h.begins b hb).length_le) hn
  obtain ⟨m', hwrite, hround⟩ := h.round a hn
  refine ⟨m', ?_, hround⟩
  rw [← hitems] at hwrite
  have hsync : sync a n s = (.ok (), { s with mirror := m' }) := by
    rw [sync, read_bind]
    refine (bind_ok (a := unseen) (t := s) ?_).trans ?_
    · rw [on_apply, hget]
    · rw [on_apply, Tracker.writeUnseenData, hwrite]
  rw [step, mapError, hsync]
  rfl

theorem step_kept (h : Kept host s) {e : Event Nested} (he : Regular s e) :
    Kept host (step host e s).2 ∧ Mirrors host s e := by
  obtain ⟨hfollows, entries, hfaithful⟩ := h
  cases e with
  | log op =>
    suffices hnext : Kept host (step host (.log op) s).2 from ⟨hnext, hnext.1.begins, trivial⟩
    have hop : ¬ MadeAgain host s.source op := by
      cases op with
      | newRecorder =>
        rintro ⟨ws, hws, b, hb, file, hfile, hnew⟩
        exact hnew hfile
      | record i e now =>
        exact not_madeAgain hfaithful fun ws hws b hb => he b (.inr (.inr ⟨ws, hws, hb⟩))
    have hfaithful' := step_faithful hfaithful hop
    refine ⟨?_, _, hfaithful'⟩
    cases op with
    | newRecorder => exact hfollows
    | record i e now =>
      exact hfollows.record hfaithful (fun b hb => he b (hb.imp_right .inl)) hfaithful'
  | sync a n =>
    obtain ⟨m', hstep, hwithin, -⟩ := step_sync host hfollows a he
    rw [Mirrors, hstep]
    exact ⟨⟨hwithin.toFollows, entries, hfaithful⟩, hwithin.begins, rfl, rfl, hwithin.within⟩

/-- After rounds that may send as many bytes as are missing none is missing. -/
theorem rounds_equal (host : Host Nested) (h : Follows s.source.tstore s.mirror)
    {rounds : List (Arrangement × Nat)} (hne : rounds ≠ []) (hpos : ∀ r ∈ rounds, 0 < r.2)
    (hsum : weight s.source.tstore s.source.tstore
      ≤ weight s.source.tstore s.mirror + (rounds.map Prod.snd).sum) :
    UpToDate (after (step host) s (syncs rounds)) := by
  induction rounds generalizing s with
  | nil => exact absurd rfl hne
  | cons r rounds ih =>
    obtain ⟨hr, hpos⟩ := List.forall_mem_cons.mp hpos
    obtain ⟨m', hstep, hwithin, hround⟩ := step_sync host h r.1 hr
    rw [List.map_cons, List.sum_cons] at hsum
    rw [syncs, List.map_cons, ← syncs, after, hstep]
    have hsum' : weight s.source.tstore s.source.tstore
        ≤ weight s.source.tstore m' + (rounds.map Prod.snd).sum := by
      rcases hround with hround | hround
      · omega
      · refine Nat.le_add_right_of_le (Finset.sum_le_sum fun b _ => ?_)
        exact (congrArg List.length (hround b)).ge
    by_cases hrounds : rounds = []
    · subst hrounds
      suffices hequal : ∀ b, m'.bytesOf b = s.source.tstore.bytesOf b from
        ⟨hequal, fun a n hn => hwithin.nothing_unseen hequal a hn⟩
      intro b
      by_cases hb : b ∈ s.source.tstore.bucketSizes
      · have hle : ∀ b ∈ s.source.tstore.bucketSizes.keys.toFinset,
            (m'.bytesOf b).length ≤ (s.source.tstore.bytesOf b).length := fun b _ =>
          (hwithin.beginning b).length_le
        have heq := (Finset.sum_eq_sum_iff_of_le hle).mp
          (le_antisymm (Finset.sum_le_sum hle) hsum')
        exact (hwithin.beginning b).eq_of_length (heq b (List.mem_toFinset.mpr hb))
      · rw [bytesOf_of_not_mem hb]
        exact bytesOf_of_not_mem fun hm => hb (hwithin.within b hm)
    · exact ih hwithin.toFollows hrounds hpos hsum'

/-- The size of a store is that of its buckets. -/
theorem weight_self {t : TStore} (h : t.Books) (haccurate : t.Accurate) :
    (weight t t : Int) = t.currentSize := by
  rw [h.sum, weight, List.sum_toFinset _ t.bucketSizes.nodup_keys, Dict.keys, List.map_map,
    Dict.total]
  congr 2
  refine List.map_congr_left fun x hx => ?_
  have hsize := haccurate.recordedSize_eq h (Dict.mem_of_mem_items hx)
  rw [recordedSize, Dict.get?_eq_some.mpr hx] at hsize
  exact hsize.symm

theorem follows_new {attrs attrs' : Attrs} (hseveral : 1 < attrs.maxBuckets)
    (hsame : attrs'.maxBuckets = attrs.maxBuckets) : Follows (.new attrs) (.new attrs') where
  books := books_new attrs
  accurate := accurate_new attrs
  several := hseveral
  slots := (Int.zero_le_ofNat 1).trans hseveral.le
  ids _ h := absurd h (Dict.not_mem_empty _)
  clean := ⟨books_new attrs', accurate_new attrs', nofun⟩
  sameSlots := hsame
  begins _ h := absurd h (Dict.not_mem_empty _)

theorem run_mirrors {events : List (Event Nested)} (h : Kept host s)
    (hregular : AllSteps (step host) Regular s events) :
    AllSteps (step host) (Mirrors host) s events := by
  induction events generalizing s with
  | nil => trivial
  | cons e events ih =>
    obtain ⟨hkept, hmirrors⟩ := step_kept h hregular.1
    exact ⟨hmirrors, ih hkept hregular.2⟩

theorem run_equal {done : List (Event Nested)} {rounds : List (Arrangement × Nat)}
    (h : Kept host s) (hregular : AllSteps (step host) Regular s (done ++ syncs rounds))
    (hne : rounds ≠ [])
    (hsum : (after (step host) s done).source.tstore.currentSize ≤ (rounds.map Prod.snd).sum) :
    UpToDate (after (step host) s (done ++ syncs rounds)) := by
  induction done generalizing s with
  | nil =>
    have hpos : ∀ r ∈ rounds, 0 < r.2 := by
      intro r hr
      obtain ⟨before, behind, rfl⟩ := List.append_of_mem hr
      exact allSteps_iff_forall.mp hregular (syncs before) (.sync r.1 r.2) (syncs behind)
        (by simp [syncs])
    rw [after, ← weight_self h.1.books h.1.accurate] at hsum
    exact rounds_equal host h.1 hne hpos (by omega)
  | cons e done ih => exact ih (step_kept h hregular.1).1 hregular.2 hsum

/-- However a log and its mirror go on, in which order, and whatever fails in the log. -/
theorem mirror_follows (host : Host Nested) {attrs attrs' : Attrs} (schema : Schema)
    (hseveral : 1 < attrs.maxBuckets) (hsame : attrs'.maxBuckets = attrs.maxBuckets)
    (events : List (Event Nested))
    (hregular : AllSteps (step host) Regular (new attrs attrs' schema) events) :
    AllSteps (step host) (Mirrors host) (new attrs attrs' schema) events ∧
    ∀ (done : List (Event Nested)) (rounds : List (Arrangement × Nat)),
      events = done ++ syncs rounds → rounds ≠ [] →
      (after (step host) (new attrs attrs' schema) done).source.tstore.currentSize
        ≤ (rounds.map Prod.snd).sum →
      UpToDate (after (step host) (new attrs attrs' schema) events) := by
  have hkept : Kept host (new attrs attrs' schema) :=
    ⟨follows_new hseveral hsame, _, faithful_new host attrs schema⟩
  refine ⟨run_mirrors hkept hregular, ?_⟩
  rintro done rounds rfl hne hsum
  exact run_equal hkept hregular hne hsum

/-- One record, and one round -/
def sampleEvents : List (Event Empty) :=
  [.log .newRecorder, .log (.record 0 ⟨.ofInt 5, []⟩ "a"), .sync ⟨id, fun _ => .refl _⟩ 100]

def sample : Mirrored := new ⟨1, 2, 100, by decide⟩ ⟨1, 2, 100, by decide⟩ .empty

theorem mirror_follows_five :
    AllSteps (step sampleHost) (Mirrors sampleHost) sample sampleEvents ∧
      UpToDate (after (step sampleHost) sample sampleEvents) := by
  have hregular : AllSteps (step sampleHost) Regular sample sampleEvents := by
    refine ⟨trivial, fun b hb => ?_, Nat.succ_pos 99, trivial⟩
    rcases hb with hb | hb | ⟨ws, hws, hb⟩
    · exact absurd hb (Dict.not_mem_empty b)
    · exact absurd hb (Dict.not_mem_empty b)
    · obtain rfl := List.mem_singleton.mp hws
      exact absurd hb (Dict.not_mem_empty b)
  have hfollows := mirror_follows sampleHost .empty (by decide) rfl sampleEvents hregular
  exact ⟨hfollows.1, hfollows.2 [_, _] [(_, 100)] rfl (by simp) (by decide +kernel)⟩

end Mirrored

end Urnest.Cmc
