import Mathlib
import Urnest.Cmc.Order
import Urnest.Cmc.Session

/-!
# Making room

`make_room_for` deletes buckets from the front of the sorted list until there is room. What
it deletes is a prefix of the list, and no longer than it has to be (`trimBytes_minimal`).
It asks for less than the size of the store, so there is no making room for as much as the
store has (`evictsMinimally_iff`).
-/

namespace Urnest.Cmc

open Lib Action TStore

namespace TStore

variable {t : TStore} {gone rest : List Bucket}

/-- The buckets, sorted -/
def ordered (t : TStore) : List Bucket := sortBuckets t.bucketSizes.keys

/-- The size in the book -/
def recordedSize (t : TStore) (b : Bucket) : Nat := (t.bucketSizes.get? b).getD 0

/-- The bytes in some buckets -/
def bytesIn (t : TStore) (bs : List Bucket) : Nat := (bs.map t.recordedSize).sum

/-- The sum of a store is the bytes in its buckets. -/
theorem Books.currentSize_eq (h : t.Books) : t.currentSize = t.bytesIn t.ordered := by
  have hsizes : t.bucketSizes.keys.map t.recordedSize = t.bucketSizes.items.map Prod.snd := by
    rw [Dict.keys, List.map_map]
    refine List.map_congr_left fun x hx => ?_
    rw [Function.comp_apply, recordedSize, Dict.get?_eq_some.mpr hx]
    rfl
  have hperm : t.ordered.Perm t.bucketSizes.keys := List.mergeSort_perm _ _
  rw [h.sum, bytesIn, (hperm.map t.recordedSize).sum_eq, hsizes]
  rfl

theorem nodup_ordered (t : TStore) : t.ordered.Nodup := nodup_sortBuckets t.bucketSizes.nodup_keys

theorem mem_ordered {b : Bucket} : b ∈ t.ordered ↔ b ∈ t.bucketSizes := mem_sortBuckets

theorem deletable_ordered (t : TStore) : t.Deletable t.ordered :=
  ⟨t.nodup_ordered, fun _ => mem_ordered.mp⟩

/-! ## Deleting from the front -/

/-- The sizes of the others stay. -/
theorem recordedSize_dropAll {b : Bucket} (hb : b ∉ gone) : (t.dropAll gone).recordedSize b = t.recordedSize b := by
  induction gone generalizing t with
  | nil => rfl
  | cons c gone ih =>
    obtain ⟨hne, hb⟩ := not_or.mp (mt List.mem_cons.mpr hb)
    rw [dropAll_cons, ih hb]
    change ((t.bucketSizes.erase c).get? b).getD 0 = _
    rw [Dict.get?_erase, if_neg hne]
    rfl

/-- What is left of the list is the list of what is left. -/
theorem ordered_dropAll (h : t.ordered = gone ++ rest) : (t.dropAll gone).ordered = rest := by
  have hnodup := h ▸ t.nodup_ordered
  have hsorted : (gone ++ rest).Pairwise fun b c => notBehind b c = true :=
    h ▸ sortBuckets_sorted _
  have hperm : (t.dropAll gone).bucketSizes.keys.Perm rest := by
    refine (List.perm_ext_iff_of_nodup (Dict.nodup_keys _) hnodup.of_append_right).mpr fun b => ?_
    change b ∈ (t.dropAll gone).bucketSizes ↔ _
    rw [mem_dropAll, ← mem_ordered, h, List.mem_append]
    have hapart := List.disjoint_of_nodup_append hnodup (a := b)
    tauto
  rw [ordered, sortBuckets_perm hperm, sortBuckets_eq_self (List.pairwise_append.mp hsorted).2.1]

theorem currentSize_dropAll (hbooks : t.Books) (h : t.ordered = gone ++ rest) :
    (t.dropAll gone).currentSize = t.bytesIn rest := by
  have hdeletable : t.Deletable gone := (h ▸ t.deletable_ordered).of_append
  have hnodup := h ▸ t.nodup_ordered
  rw [(hbooks.dropAll hdeletable).currentSize_eq, ordered_dropAll h, bytesIn, bytesIn]
  congr 2
  refine List.map_congr_left fun b hb => recordedSize_dropAll fun hgone => ?_
  exact List.disjoint_of_nodup_append hnodup hgone hb

/-- The loop does not stop late: before its last turn there was too much. -/
theorem trimWhile_minimal (tooMuch : TStore → Bool) {bs : List Bucket} (h : t.Books)
    (hbs : t.Deletable bs) :
    ∃ gone rest, bs = gone ++ rest ∧ trimWhile tooMuch bs t = (.ok (), t.dropAll gone) ∧
      (rest = [] ∨ tooMuch (t.dropAll gone) = false) ∧
      ∀ short b, gone = short ++ [b] → tooMuch (t.dropAll short) = true := by
  induction bs generalizing t with
  | nil => exact ⟨[], [], rfl, rfl, .inl rfl, by simp⟩
  | cons b bs ih =>
    rw [trimWhile, read_bind]
    by_cases htoo : tooMuch t = true
    · obtain ⟨hb, hrest⟩ := hbs.cons
      obtain ⟨gone, rest, rfl, htrim, hend, hlast⟩ := ih (h.drop hb) hrest
      refine ⟨b :: gone, rest, rfl, ?_, hend, ?_⟩
      · rw [if_pos htoo, bind_ok (deleteBucket_recorded h hb), htrim, dropAll_cons]
      · rintro (_ | ⟨c, short⟩) d hgone
        · exact htoo
        · obtain ⟨rfl, hgone'⟩ := List.cons.inj hgone
          exact hlast short d hgone'
    · have hnot : tooMuch t = false := by simpa using htoo
      exact ⟨[], b :: bs, rfl, by rw [if_neg htoo]; rfl, .inr hnot, by simp⟩

theorem trimBytes_minimal (h : t.Books) (ensureAtMost : Nat) :
    ∃ gone rest, t.ordered = gone ++ rest ∧
      trimBytes ensureAtMost t = (.ok (), t.dropAll gone) ∧ t.bytesIn rest ≤ ensureAtMost ∧
      ∀ short b, gone = short ++ [b] → ensureAtMost < t.bytesIn (b :: rest) := by
  obtain ⟨gone, rest, hordered, htrim, hend, hlast⟩ :=
    trimWhile_minimal (fun t => decide (t.currentSize > ensureAtMost)) h t.deletable_ordered
  refine ⟨gone, rest, hordered, ?_, ?_, fun short b hgone => ?_⟩
  · rw [trimBytes, read_bind]
    exact htrim
  · rcases hend with rfl | hend
    · exact Nat.zero_le _
    · rw [currentSize_dropAll h hordered] at hend
      simpa using hend
  · have htoo := hlast short b hgone
    have hsplit : t.ordered = short ++ b :: rest := by
      rw [hordered, hgone, List.append_assoc]
      rfl
    rw [currentSize_dropAll h hsplit] at htoo
    simpa using htoo

/-! ## Making room -/

/-- Room for `n` bytes is made by deleting a prefix of the sorted buckets, and one bucket
less would not do. There is none for more than the size of the store. -/
def EvictsMinimally (t : TStore) (n : Nat) : Prop :=
  if n ≤ t.attrs.maxSize then
    ∃ gone rest t', makeRoomFor n t = (.ok (), t') ∧ t.ordered = gone ++ rest ∧
      t'.ordered = rest ∧ (∀ b ∈ rest, t'.recordedSize b = t.recordedSize b) ∧
      t'.currentSize + n ≤ t.attrs.maxSize ∧
      ∀ short b, gone = short ++ [b] → t.attrs.maxSize < t.bytesIn (b :: rest) + n
  else ∃ e, makeRoomFor n t = (.error e, t)

theorem Books.evictsMinimally_iff_ne (h : t.Books) (n : Nat) :
    EvictsMinimally t n ↔ n ≠ t.attrs.maxSize := by
  rw [EvictsMinimally]
  rcases lt_trichotomy n t.attrs.maxSize with hlt | heq | hgt
  · rw [if_pos hlt.le]
    refine iff_of_true ?_ hlt.ne
    obtain ⟨gone, rest, hordered, htrim, hroom, hlast⟩ :=
      trimBytes_minimal h (t.attrs.maxSize - n)
    have hnodup := hordered ▸ t.nodup_ordered
    have hsize := currentSize_dropAll h hordered
    refine ⟨gone, rest, t.dropAll gone, ?_, hordered, ordered_dropAll hordered,
      fun b hb => recordedSize_dropAll fun hgone => ?_, by omega, fun short b hgone => ?_⟩
    · rw [Int.ofNat_sub hlt.le] at htrim
      rw [makeRoomFor, read_bind, if_pos (by omega), htrim]
    · exact List.disjoint_of_nodup_append hnodup hgone hb
    · have := hlast short b hgone
      omega
  · rw [if_pos heq.le]
    refine iff_of_false ?_ (not_not_intro heq)
    rintro ⟨gone, rest, t', hmade, -⟩
    rw [makeRoomFor_refused (by omega)] at hmade
    cases hmade
  · rw [if_neg (by omega)]
    exact iff_of_true ⟨_, makeRoomFor_refused (by omega)⟩ hgt.ne'

end TStore

namespace Session

theorem after_books (attrs : Attrs) (ops : List Op) :
    (after step (.new attrs) ops).store.attrs = attrs ∧
      (after step (.new attrs) ops).store.Books := by
  refine after_keeps (I := fun s : Session => s.store.attrs = attrs ∧ s.store.Books) ?_
    ⟨rfl, books_new attrs⟩ ops
  rintro s op ⟨hattrs, hbooks⟩
  exact ⟨(step_effect hbooks op).attrs.trans hattrs, step_books hbooks op⟩

/-- After any run room is made with as few buckets as possible, the oldest first, but for as
much as the store may have. -/
theorem evictsMinimally_iff (attrs : Attrs) (ops : List Op) (n : Nat) :
    EvictsMinimally (after step (.new attrs) ops).store n ↔ n ≠ attrs.maxSize := by
  obtain ⟨hattrs, hbooks⟩ := after_books attrs ops
  rw [hbooks.evictsMinimally_iff_ne n, hattrs]

/-- An empty store of ten bytes has no room for ten. -/
theorem not_evictsMinimally : ¬ EvictsMinimally (TStore.new ⟨1, 2, 10, by decide⟩) 10 := by
  rw [EvictsMinimally, if_pos (by decide)]
  rintro ⟨gone, rest, t', hmade, -⟩
  cases hmade

end Session

end Urnest.Cmc
