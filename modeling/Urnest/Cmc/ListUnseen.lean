import Mathlib
import Urnest.Cmc.Eviction
import Urnest.Cmc.PerfLog

/-!
# Listing what is unseen

`list_unseen` compares what has been seen with the book of sizes: it lists the buckets that
are gone, with size 0, and the buckets with bytes of which another size has been seen
(`listUnseen_items`). Once that is noted, with the buckets of size 0 forgotten, there is
nothing more to list (`listUnseen_noted`).
-/

namespace Urnest.Cmc

open Lib Action

namespace TStore

variable {t : TStore} {b : Bucket}

variable (a : Arrangement) (seen : Dict Bucket Nat)

/-- What has been seen and is gone. -/
def goneFrom (t : TStore) : List Bucket := a.order (seen.keys.filter (· ∉ t.buckets.items))

/-- The buckets with bytes that are not of the size that has been seen. -/
def differingFrom (t : TStore) : List Bucket :=
  (a.order (seen.keys.filter (· ∈ t.buckets.items))).filter
      (fun b => t.recordedSize b ≠ 0 && seen.get? b ≠ some (t.recordedSize b)) ++
    (a.order (t.buckets.items.filter (· ∉ seen.keys))).filter fun b => t.recordedSize b ≠ 0

variable {a seen}

theorem mem_goneFrom (h : t.Books) : b ∈ t.goneFrom a seen ↔ b ∈ seen ∧ b ∉ t.bucketSizes := by
  rw [goneFrom, (a.perm _).mem_iff, List.mem_filter, h.agree]
  simp [Dict.mem_def]

theorem nodup_goneFrom : (t.goneFrom a seen).Nodup :=
  (a.perm _).nodup_iff.mpr (seen.nodup_keys.filter _)

theorem mem_differingFrom (h : t.Books) : b ∈ t.differingFrom a seen ↔
    b ∈ t.bucketSizes ∧ t.recordedSize b ≠ 0 ∧ seen.get? b ≠ some (t.recordedSize b) := by
  simp only [differingFrom, List.mem_append, List.mem_filter, (a.perm _).mem_iff, h.agree,
    ne_eq, Bool.and_eq_true, decide_eq_true_eq]
  constructor
  · rintro (⟨⟨-, hb⟩, hbytes, hsize⟩ | ⟨⟨hb, hnot⟩, hbytes⟩)
    · exact ⟨hb, hbytes, hsize⟩
    · refine ⟨hb, hbytes, fun hsize => hnot ?_⟩
      exact Dict.mem_of_get? hsize
  · rintro ⟨hb, hbytes, hsize⟩
    by_cases hseen : b ∈ seen.keys
    · exact .inl ⟨⟨hseen, hb⟩, hbytes, hsize⟩
    · exact .inr ⟨⟨hb, hseen⟩, hbytes⟩

theorem nodup_differingFrom : (t.differingFrom a seen).Nodup := by
  refine List.Nodup.append (((a.perm _).nodup_iff.mpr (seen.nodup_keys.filter _)).filter _)
    (((a.perm _).nodup_iff.mpr (t.buckets.nodup.of_map.filter _)).filter _) ?_
  intro b hb hb'
  have hseen := (List.mem_filter.mp ((a.perm _).mem_iff.mp (List.mem_of_mem_filter hb))).1
  have hnot := (List.mem_filter.mp ((a.perm _).mem_iff.mp (List.mem_of_mem_filter hb'))).2
  simp [hseen] at hnot

/-! ## Listing -/

theorem getBucketSize_recordedSize (hb : b ∈ t.bucketSizes) :
    getBucketSize b t = (.ok (t.recordedSize b), t) := by
  obtain ⟨size, hsize⟩ := Dict.exists_get? hb
  rw [getBucketSize_recorded hsize, recordedSize, hsize]
  rfl

theorem listSizes_eq (wanted : Bucket → Nat → Bool) {bs : List Bucket}
    (hbs : ∀ b ∈ bs, b ∈ t.bucketSizes) (hnodup : bs.Nodup)
    {result : Dict Bucket Nat} (hnew : ∀ b ∈ bs, b ∉ result) :
    ∃ result' : Dict Bucket Nat, listSizes wanted bs result t = (.ok result', t) ∧
      result'.items = result.items ++ (bs.filter fun b => wanted b (t.recordedSize b)).map
        fun b => (b, t.recordedSize b) := by
  induction bs generalizing result with
  | nil => exact ⟨result, rfl, by simp⟩
  | cons b bs ih =>
    obtain ⟨hnot, hnodup⟩ := List.nodup_cons.mp hnodup
    have hrest : ∀ c ∈ bs, c ∈ t.bucketSizes := fun c hc => hbs c (List.mem_cons_of_mem _ hc)
    rw [listSizes, bind_ok (getBucketSize_recordedSize (hbs b (List.mem_cons_self ..)))]
    by_cases hwanted : wanted b (t.recordedSize b) = true
    · have hitems := Dict.items_set_new (hnew b (List.mem_cons_self ..)) (t.recordedSize b)
      have hnew' : ∀ c ∈ bs, c ∉ result.set b (t.recordedSize b) := by
        intro c hc hmem
        rcases Dict.mem_set.mp hmem with rfl | hmem
        · exact hnot hc
        · exact hnew c (List.mem_cons_of_mem _ hc) hmem
      obtain ⟨result', hlist, hresult⟩ := ih hrest hnodup hnew'
      rw [if_pos hwanted]
      refine ⟨result', hlist, ?_⟩
      rw [hresult, hitems, List.filter_cons, if_pos hwanted]
      simp
    · obtain ⟨result', hlist, hresult⟩ := ih hrest hnodup fun c hc =>
        hnew c (List.mem_cons_of_mem _ hc)
      rw [if_neg hwanted]
      exact ⟨result', hlist, by rw [hresult, List.filter_cons, if_neg hwanted]⟩

theorem listUnseen_items (hbooks : t.Books) (a : Arrangement) (seen : Dict Bucket Nat) :
    ∃ sizes : Dict Bucket Nat, listUnseen a seen t = (.ok sizes, t) ∧
      sizes.items = (t.goneFrom a seen).map (fun b => (b, 0)) ++
        (t.differingFrom a seen).map fun b => (b, t.recordedSize b) := by
  have hgone := Dict.items_foldl_set (d := .empty) (fun _ : Bucket => 0)
    (show (t.goneFrom a seen).Nodup from nodup_goneFrom) fun b _ => Dict.not_mem_empty b
  generalize hfold : (t.goneFrom a seen).foldl (fun (result : Dict Bucket Nat) b => result.set b 0)
    Dict.empty = gone at hgone
  -- The three loops go over disjoint buckets, so none replaces what another has set.
  have hstill : ∀ b ∈ a.order (seen.keys.filter (· ∈ t.buckets.items)), b ∉ gone := by
    intro b hb hmem
    rw [Dict.mem_def, Dict.keys, hgone] at hmem
    have hmem : b ∈ t.goneFrom a seen := by simpa using hmem
    have hnot := ((mem_goneFrom hbooks).mp hmem).2
    have hkeys := (List.mem_filter.mp ((a.perm _).mem_iff.mp hb)).2
    exact hnot ((hbooks.agree b).mpr (by simpa using hkeys))
  obtain ⟨still, hlist, hstill⟩ := listSizes_eq
    (fun b size => size ≠ 0 && seen.get? b ≠ some size)
    (fun b hb => (hbooks.agree b).mpr
      (by simpa using (List.mem_filter.mp ((a.perm _).mem_iff.mp hb)).2))
    ((a.perm _).nodup_iff.mpr (seen.nodup_keys.filter _)) hstill
  have hnew : ∀ b ∈ a.order (t.buckets.items.filter (· ∉ seen.keys)), b ∉ still := by
    intro b hb hmem
    rw [Dict.mem_def, Dict.keys, hstill, hgone, List.map_append, List.mem_append] at hmem
    have hnot : b ∉ seen.keys := by
      simpa using (List.mem_filter.mp ((a.perm _).mem_iff.mp hb)).2
    rcases hmem with hmem | hmem
    · have hmem : b ∈ t.goneFrom a seen := by simpa using hmem
      exact hnot ((mem_goneFrom hbooks).mp hmem).1
    · have hmem : b ∈ a.order (seen.keys.filter (· ∈ t.buckets.items)) := by
        simp only [List.map_map, List.mem_map, List.mem_filter] at hmem
        obtain ⟨c, hc, rfl⟩ := hmem
        exact hc.1
      exact hnot (List.mem_filter.mp ((a.perm _).mem_iff.mp hmem)).1
  obtain ⟨sizes, hlist', hsizes⟩ := listSizes_eq (fun _ size => size ≠ 0)
    (fun b hb => (hbooks.agree b).mpr (List.mem_filter.mp ((a.perm _).mem_iff.mp hb)).1)
    ((a.perm _).nodup_iff.mpr (t.buckets.nodup.of_map.filter _)) hnew
  refine ⟨sizes, ?_, ?_⟩
  · rw [listUnseen, read_bind]
    rw [← hfold] at hlist
    exact (bind_ok hlist).trans hlist'
  · rw [hsizes, hstill, hgone]
    simp [differingFrom]

/-- What is listed of each bucket -/
theorem listUnseen_get? (hbooks : t.Books) (a : Arrangement) (seen : Dict Bucket Nat) :
    ∃ sizes : Dict Bucket Nat, listUnseen a seen t = (.ok sizes, t) ∧
      ∀ b, sizes.get? b = if b ∈ t.bucketSizes then
          if t.recordedSize b ≠ 0 ∧ seen.get? b ≠ some (t.recordedSize b) then
            some (t.recordedSize b)
          else none
        else if b ∈ seen then some 0 else none := by
  obtain ⟨sizes, hlist, hitems⟩ := listUnseen_items hbooks a seen
  refine ⟨sizes, hlist, fun b => Option.ext fun n => ?_⟩
  rw [Dict.get?_eq_some, hitems, List.mem_append, List.mem_map, List.mem_map]
  simp only [mem_goneFrom hbooks, mem_differingFrom hbooks, Prod.mk.injEq]
  constructor
  · rintro (⟨c, ⟨hseen, hgone⟩, rfl, rfl⟩ | ⟨c, ⟨hc, hdiffers⟩, rfl, rfl⟩)
    · rw [if_neg hgone, if_pos hseen]
    · rw [if_pos hc, if_pos hdiffers]
  · intro h
    split_ifs at h with hb hdiffers hseen
    · exact .inr ⟨b, ⟨hb, hdiffers⟩, rfl, Option.some.inj h⟩
    · exact .inl ⟨b, ⟨hseen, hb⟩, rfl, Option.some.inj h⟩

/-! ## Noting it -/

/-- What has been seen once a listing is noted: the sizes in it, and no buckets of size 0. -/
def noted (seen sizes : Dict Bucket Nat) : Dict Bucket Nat :=
  sizes.items.foldl (fun seen e => if e.2 = 0 then seen.erase e.1 else seen.set e.1 e.2) seen

theorem get?_foldl_noted {es : List (Bucket × Nat)} (hnodup : (es.map Prod.fst).Nodup)
    (seen : Dict Bucket Nat) (b : Bucket) :
    (es.foldl (fun seen e => if e.2 = 0 then seen.erase e.1 else seen.set e.1 e.2) seen).get? b
      = match es.find? fun e => e.1 = b with
        | none => seen.get? b
        | some e => if e.2 = 0 then none else some e.2 := by
  induction es generalizing seen with
  | nil => rfl
  | cons e es ih =>
    obtain ⟨hnot, hnodup⟩ := List.nodup_cons.mp hnodup
    rw [List.foldl_cons, ih hnodup, List.find?_cons]
    by_cases heb : e.1 = b
    · have hnone : es.find? (fun e => e.1 = b) = none := by
        rw [List.find?_eq_none]
        intro e' he' hb
        exact hnot (heb ▸ of_decide_eq_true hb ▸ List.mem_map_of_mem he')
      rw [hnone]
      simp only [heb, decide_true]
      split_ifs with hzero
      · rw [Dict.get?_erase, if_pos rfl]
      · exact Dict.get?_set_self ..
    · have hother : (if e.2 = 0 then seen.erase e.1 else seen.set e.1 e.2).get? b = seen.get? b := by
        split_ifs with hzero
        · rw [Dict.get?_erase, if_neg (Ne.symm heb)]
        · rw [Dict.get?_set, if_neg (Ne.symm heb)]
      simp only [heb, decide_false, hother]

theorem get?_noted (seen sizes : Dict Bucket Nat) (b : Bucket) :
    (noted seen sizes).get? b = match sizes.get? b with
      | none => seen.get? b
      | some n => if n = 0 then none else some n := by
  rw [noted, get?_foldl_noted sizes.nodup,
    show sizes.get? b = (sizes.items.find? fun e => e.1 = b).map Prod.snd from rfl]
  cases sizes.items.find? fun e => e.1 = b with
  | none => rfl
  | some e => rfl

/-- After that nothing is listed. -/
theorem listUnseen_noted (hbooks : t.Books) {a : Arrangement} {seen sizes : Dict Bucket Nat}
    (hlist : listUnseen a seen t = (.ok sizes, t)) (a' : Arrangement) :
    listUnseen a' (noted seen sizes) t = (.ok .empty, t) := by
  obtain ⟨sizes', hlist', hget⟩ := listUnseen_get? hbooks a seen
  obtain rfl : sizes' = sizes := by
    rw [hlist] at hlist'
    exact (Except.ok.inj (Prod.mk.inj hlist').1).symm
  obtain ⟨more, hmore, hitems⟩ := listUnseen_items hbooks a' (noted seen sizes')
  have hgone : t.goneFrom a' (noted seen sizes') = [] := by
    refine List.eq_nil_iff_forall_not_mem.mpr fun b hb => ?_
    obtain ⟨hnoted, hnot⟩ := (mem_goneFrom hbooks).mp hb
    refine Dict.get?_eq_none.mp ?_ hnoted
    rw [get?_noted, hget, if_neg hnot]
    split_ifs with hseen
    · rfl
    · exact Dict.get?_eq_none.mpr hseen
  have hdiffering : t.differingFrom a' (noted seen sizes') = [] := by
    refine List.eq_nil_iff_forall_not_mem.mpr fun b hb => ?_
    obtain ⟨hmem, hbytes, hsize⟩ := (mem_differingFrom hbooks).mp hb
    refine hsize ?_
    rw [get?_noted, hget, if_pos hmem]
    by_cases hseen : seen.get? b = some (t.recordedSize b)
    · rw [if_neg (by simp [hseen]), hseen]
    · rw [if_pos ⟨hbytes, hseen⟩]
      exact if_neg hbytes
  rw [hgone, hdiffering] at hitems
  rw [hmore, show more = .empty from Dict.ext hitems]

end TStore

namespace Session

open TStore

/-- After any run, and whatever has been seen: a bucket that is gone is listed with size 0, a
bucket with bytes if it is not of the size that has been seen, and a bucket without bytes not,
if none of it has been seen. Once that is noted nothing is listed. -/
theorem listUnseen_exact (attrs : Attrs) (ops : List Op) (a : Arrangement)
    (seen : Dict Bucket Nat) :
    ∃ sizes : Dict Bucket Nat,
      listUnseen a seen (after step (.new attrs) ops).store
        = (.ok sizes, (after step (.new attrs) ops).store) ∧
      (∀ b ∉ (after step (.new attrs) ops).store.bucketSizes,
        sizes.get? b = if b ∈ seen then some 0 else none) ∧
      (∀ b n, (after step (.new attrs) ops).store.bucketSizes.get? b = some (n + 1) →
        sizes.get? b = if seen.get? b = some (n + 1) then none else some (n + 1)) ∧
      (∀ b, (after step (.new attrs) ops).store.bucketSizes.get? b = some 0 →
        (seen.get? b).getD 0 = 0 → sizes.get? b = none) ∧
      ∀ a', listUnseen a' (noted seen sizes) (after step (.new attrs) ops).store
        = (.ok .empty, (after step (.new attrs) ops).store) := by
  obtain ⟨-, hbooks⟩ := after_books attrs ops
  obtain ⟨sizes, hlist, hget⟩ := listUnseen_get? hbooks a seen
  refine ⟨sizes, hlist, fun b hb => by rw [hget, if_neg hb], fun b n hb => ?_, fun b hb _ => ?_,
    fun a' => listUnseen_noted hbooks hlist a'⟩
  · rw [hget, if_pos (Dict.mem_of_get? hb), recordedSize, hb, Option.getD_some]
    by_cases hseen : seen.get? b = some (n + 1)
    · rw [if_pos hseen, if_neg (by simp [hseen])]
    · rw [if_neg hseen, if_pos ⟨Nat.succ_ne_zero n, hseen⟩]
  · rw [hget, if_pos (Dict.mem_of_get? hb), recordedSize, hb, Option.getD_some, if_neg (by simp)]

/-- A bucket that was seen when it was new, with no bytes, and has been deleted since. -/
theorem not_listUnseen_exact :
    ¬ ∀ (attrs : Attrs) (ops : List Op) (a : Arrangement) (seen sizes : Dict Bucket Nat),
      (listUnseen a seen (after step (.new attrs) ops).store).1 = .ok sizes →
        ∀ b, b ∈ sizes ↔ ((after step (.new attrs) ops).store.bucketSizes.get? b).getD 0
          ≠ (seen.get? b).getD 0 := by
  intro h
  let ops : List Op := [.createBucket (0, "a"), .deleteBucket (0, "a")]
  obtain ⟨-, hbooks⟩ := after_books ⟨1, 2, 10, by decide⟩ ops
  obtain ⟨sizes, hlist, hget⟩ := listUnseen_get? hbooks ⟨id, fun _ => .refl _⟩
    (Dict.empty.set (0, "a") 0)
  have hgone : ((0, "a") : Bucket)
      ∉ (after step (.new ⟨1, 2, 10, by decide⟩) ops).store.bucketSizes := by decide +kernel
  have hlisted := hget (0, "a")
  rw [if_neg hgone, if_pos (by decide)] at hlisted
  have hdiffers := (h _ ops _ _ sizes (congrArg Prod.fst hlist) (0, "a")).mp
    (Dict.mem_of_get? hlisted)
  exact hdiffers (by decide +kernel)

end Session

end Urnest.Cmc
