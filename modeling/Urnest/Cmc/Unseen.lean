import Urnest.Cmc.ListUnseen
import Urnest.Cmc.View

/-!
# What a mirror is told

The answer to a mirror that has seen so much of each bucket: first a notice for each
bucket that is gone, then a slice of each bucket with more bytes, from where the mirror
is to where the bytes to send run out (`getSomeUnseenData_eq`).
-/

namespace Urnest.Cmc

open Lib Action

namespace TStore

variable {t : TStore} {b : Bucket}

/-- In an accurate book the sizes are the numbers of bytes. -/
theorem Accurate.recordedSize_eq (h : t.Accurate) (hbooks : t.Books) (hb : b ∈ t.bucketSizes) :
    t.recordedSize b = (t.bytesOf b).length := by
  obtain ⟨bytes, hview⟩ := Option.isSome_iff_exists.mp (hbooks.view_isSome.mpr hb)
  rw [recordedSize, h b, bytesOf, hview]
  rfl

end TStore

/-! ## Reading -/

namespace PerfLog

open TStore

variable {t : TStore} {b : Bucket} {a : Arrangement} {seen : Dict Bucket Nat}

def seenOf (seen : Dict Bucket Nat) (b : Bucket) : Nat := (seen.get? b).getD 0

/-- What is listed has more bytes than have been seen, where nothing has been seen that was not
there. -/
theorem seenOf_lt (h : t.Accurate) (hbooks : t.Books)
    (hseen : ∀ b ∈ t.bucketSizes, seenOf seen b ≤ (t.bytesOf b).length)
    (hb : b ∈ t.differingFrom a seen) :
    b ∈ t.bucketSizes ∧ seenOf seen b < (t.bytesOf b).length := by
  obtain ⟨hmem, hbytes, hsize⟩ := (mem_differingFrom hbooks).mp hb
  rw [h.recordedSize_eq hbooks hmem] at hbytes hsize
  refine ⟨hmem, lt_of_le_of_ne (hseen b hmem) fun heq => ?_⟩
  rw [seenOf] at heq
  cases hget : seen.get? b with
  | none =>
    rw [hget] at heq
    exact hbytes heq.symm
  | some n =>
    rw [hget] at heq hsize
    exact hsize (congrArg some heq)

/-- Slices of some buckets, of so many bytes together. -/
def slices (t : TStore) (seen : Dict Bucket Nat) :
    List Bucket → Nat → List (Bucket × Nat × List UInt8)
  | [], _ => []
  | b :: bs, bytes =>
    let data := ((t.bytesOf b).drop (seenOf seen b)).take bytes
    (b, seenOf seen b, data) ::
      if data.length = bytes then [] else slices t seen bs (bytes - data.length)

/-- One file is read. -/
theorem readSlice_eq (hbooks : t.Books) (hb : b ∈ t.bucketSizes) (position bytes : Nat)
    {size : Nat} (hsize : size = (t.bytesOf b).length - position) (result : Unseen)
    (resultSize : Nat) :
    (do
      let r ← newReader b
      let file ← openFile r.bucket
      let data ← readAt file position (if size > bytes then bytes else size)
      pure (result.set b (position, data), resultSize + data.length)) t
    = (.ok (result.set b (position, ((t.bytesOf b).drop position).take bytes),
        resultSize + (((t.bytesOf b).drop position).take bytes).length), t) := by
  obtain ⟨file, hfile, hview⟩ := hbooks.exists_file hb
  have hreader : newReader b t = (.ok ⟨b⟩, t) := by
    rw [newReader, bind_ok (verifyBucketExists_recorded hbooks hb)]
    rfl
  have hbytes : t.bytesOf b = t.files.content file := by rw [bytesOf, hview]; rfl
  have hread : readAt file position (if size > bytes then bytes else size) t
      = (.ok (((t.bytesOf b).drop position).take bytes), t) := by
    rw [readAt, read_bind, ← hbytes]
    split_ifs with hmore
    · rfl
    · rw [List.take_of_length_le (by simp [hsize]), List.take_of_length_le (by simp; omega)]
      rfl
  rw [bind_ok hreader, bind_ok (openFile_eq hfile), bind_ok hread]
  rfl

theorem readUnseen_eq (hbooks : t.Books) {bs : List Bucket} {maxBytes : Nat}
    (hbs : ∀ b ∈ bs, b ∈ t.bucketSizes ∧ seenOf seen b < (t.bytesOf b).length)
    (hnodup : bs.Nodup) {result : Unseen} (hnew : ∀ b ∈ bs, b ∉ result) {resultSize : Nat}
    (hsize : resultSize < maxBytes) :
    ∃ result' : Unseen, readUnseen seen maxBytes (bs.map fun b => (b, (t.bytesOf b).length))
        result resultSize t = (.ok result', t) ∧
      result'.items = result.items ++ slices t seen bs (maxBytes - resultSize) := by
  induction bs generalizing result resultSize with
  | nil => exact ⟨result, rfl, by simp [slices]⟩
  | cons b bs ih =>
    obtain ⟨hnot, hnodup⟩ := List.nodup_cons.mp hnodup
    obtain ⟨hb, hlt⟩ := hbs b (List.mem_cons_self ..)
    generalize hdata : ((t.bytesOf b).drop (seenOf seen b)).take (maxBytes - resultSize) = data
    have hlength : data.length ≤ maxBytes - resultSize := hdata ▸ List.length_take_le ..
    have hitems := Dict.items_set_new (hnew b (List.mem_cons_self ..)) (seenOf seen b, data)
    have hread := readSlice_eq hbooks hb (seenOf seen b) (maxBytes - resultSize) rfl result
      resultSize
    rw [hdata] at hread
    have hstep : readUnseen seen maxBytes ((b :: bs).map fun b => (b, (t.bytesOf b).length))
        result resultSize t = (if resultSize + data.length = maxBytes
          then pure (result.set b (seenOf seen b, data))
          else readUnseen seen maxBytes (bs.map fun b => (b, (t.bytesOf b).length))
            (result.set b (seenOf seen b, data)) (resultSize + data.length)) t := by
      rw [List.map_cons, readUnseen, if_neg (by omega)]
      rw [show (seen.get? b).getD 0 = seenOf seen b from rfl, if_neg (not_lt.mpr hlt.le)]
      rw [bind_ok (handle_ok hread)]
    rw [hstep, slices, hdata]
    -- The loop ends where the answer is full.
    by_cases hfull : resultSize + data.length = maxBytes
    · refine ⟨result.set b (seenOf seen b, data), by rw [if_pos hfull]; rfl, ?_⟩
      rw [if_pos (by omega), hitems]
    · have hnew' : ∀ c ∈ bs, c ∉ result.set b (seenOf seen b, data) := by
        intro c hc hmem
        rcases Dict.mem_set.mp hmem with rfl | hmem
        · exact hnot hc
        · exact hnew c (List.mem_cons_of_mem _ hc) hmem
      have hmore : resultSize + data.length < maxBytes := by omega
      obtain ⟨result', hrest, hresult⟩ := ih (fun c hc => hbs c (List.mem_cons_of_mem _ hc))
        hnodup hnew' hmore
      refine ⟨result', by rw [if_neg hfull, hrest], ?_⟩
      rw [hresult, hitems, if_neg (by omega), Nat.sub_sub]
      simp

/-- Notices come first, and cost nothing. -/
theorem readUnseen_notices (seen : Dict Bucket Nat) (maxBytes : Nat) (gone : List Bucket)
    (rest : List (Bucket × Nat)) (result : Unseen) (resultSize : Nat) :
    readUnseen seen maxBytes (gone.map (fun b => (b, 0)) ++ rest) result resultSize
      = readUnseen seen maxBytes rest (gone.foldl (fun r b => r.set b (0, [])) result)
        resultSize := by
  induction gone generalizing result with
  | nil => rfl
  | cons b gone ih =>
    rw [List.map_cons, List.cons_append, readUnseen, if_pos rfl, ih]
    rfl

/-- The answer, where nothing has been seen that was not there. -/
theorem getSomeUnseenData_eq (h : t.Accurate) (hbooks : t.Books) (a : Arrangement)
    (hseen : ∀ b ∈ t.bucketSizes, seenOf seen b ≤ (t.bytesOf b).length)
    {maxBytes : Nat} (hmax : 0 < maxBytes) :
    ∃ unseen : Unseen, getSomeUnseenData a seen maxBytes t = (.ok unseen, t) ∧
      unseen.items = (t.goneFrom a seen).map (fun b => (b, 0, [])) ++
        slices t seen (t.differingFrom a seen) maxBytes := by
  obtain ⟨sizes, hlist, hsizes⟩ := listUnseen_items hbooks a seen
  have hgone := Dict.items_foldl_set (d := .empty) (fun _ : Bucket => ((0, []) : Nat × List UInt8))
    (show (t.goneFrom a seen).Nodup from nodup_goneFrom) fun b _ => Dict.not_mem_empty b
  generalize hfold : (t.goneFrom a seen).foldl (fun (r : Unseen) b => r.set b (0, []))
    Dict.empty = notices at hgone
  have hbs : ∀ b ∈ t.differingFrom a seen,
      b ∈ t.bucketSizes ∧ seenOf seen b < (t.bytesOf b).length :=
    fun b hb => seenOf_lt h hbooks hseen hb
  have hnew : ∀ b ∈ t.differingFrom a seen, b ∉ notices := by
    intro b hb hmem
    rw [Dict.mem_def, Dict.keys, hgone] at hmem
    have hmem : b ∈ t.goneFrom a seen := by simpa using hmem
    exact ((mem_goneFrom hbooks).mp hmem).2 (hbs b hb).1
  have hlengths : (t.differingFrom a seen).map (fun b => (b, t.recordedSize b))
      = (t.differingFrom a seen).map fun b => (b, (t.bytesOf b).length) :=
    List.map_congr_left fun b hb => by rw [h.recordedSize_eq hbooks (hbs b hb).1]
  obtain ⟨unseen, hread, hunseen⟩ := readUnseen_eq hbooks hbs nodup_differingFrom hnew hmax
  refine ⟨unseen, ?_, ?_⟩
  · rw [getSomeUnseenData, bind_ok hlist, hsizes, hlengths, readUnseen_notices, hfold, hread]
  · rw [hunseen, hgone, Nat.sub_zero]
    rfl

end PerfLog

end Urnest.Cmc
