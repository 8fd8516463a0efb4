import Urnest.Cmc.Books

/-!
# What a store holds

Seen from outside, a store is a map from buckets to their bytes. `view` is that map, and
the changes of `Books` are changes of the map at one bucket: it goes, it comes with no
bytes, or bytes are added at its end (`view_dropBucket`, `view_addBucket`,
`view_extend`).

`Accurate` relates the map to the book of sizes, and is not kept by everything: a write
to a file that is no longer the bucket's changes the book and not the map.
-/

namespace Urnest.Cmc

open Lib

namespace Files

variable {fs : Files}

theorem content_write (fs : Files) {file : Nat} (hfile : file < fs.contents.length)
    (position : Nat) (data : List UInt8) (g : Nat) : (fs.write file position data).content g
      = if g = file then writeAt (fs.content file) position data else fs.content g := by
  simp only [content, write, List.getD_eq_getElem?_getD, List.getElem?_modify]
  by_cases heq : g = file
  · subst heq
    simp [hfile]
  · simp [heq, Ne.symm heq]

/-- The other files stay as they are, and one that is not there yet is as good as empty. -/
theorem content_create (fs : Files) (p : Path) (g : Nat) :
    (fs.create p).content g = fs.content g := by
  simp only [content, create, List.getD_eq_getElem?_getD]
  by_cases hlt : g < fs.contents.length
  · rw [List.getElem?_append_left hlt]
  · rw [List.getElem?_append_right (not_lt.mp hlt), List.getElem?_eq_none (not_lt.mp hlt)]
    cases g - fs.contents.length <;> rfl

theorem writeAt_end (old data : List UInt8) : writeAt old old.length data = old ++ data := by
  rw [writeAt]
  split_ifs with hdata
  · simp [hdata]
  · simp

end Files

namespace TStore

variable {t : TStore} {b c : Bucket}

/-- The bytes of each recorded bucket's file. -/
def view (t : TStore) (b : Bucket) : Option (List UInt8) :=
  if b ∈ t.bucketSizes then (t.files.directory.get? (t.getPathOf b)).map t.files.content else none

theorem view_of_not_mem (hb : b ∉ t.bucketSizes) : t.view b = none := if_neg hb

theorem Books.exists_file (h : t.Books) (hb : b ∈ t.bucketSizes) :
    ∃ file, t.files.directory.get? (t.getPathOf b) = some file ∧
      t.view b = some (t.files.content file) := by
  obtain ⟨file, hfile⟩ := Dict.exists_get? ((h.stored _).mpr ⟨b, hb, rfl⟩)
  exact ⟨file, hfile, by rw [view, if_pos hb, hfile]; rfl⟩

theorem Books.view_isSome (h : t.Books) : (t.view b).isSome ↔ b ∈ t.bucketSizes := by
  constructor
  · intro hsome
    by_contra hb
    rw [view_of_not_mem hb] at hsome
    cases hsome
  · intro hb
    obtain ⟨file, -, hview⟩ := h.exists_file hb
    rw [hview]
    rfl

theorem mem_of_view {bytes : List UInt8} (h : t.view b = some bytes) : b ∈ t.bucketSizes := by
  by_contra hb
  rw [view_of_not_mem hb] at h
  cases h

/-- Two stores show the same of a bucket if their files for it have the same bytes. -/
theorem view_congr {t t' : TStore} (hb : b ∈ t'.bucketSizes ↔ b ∈ t.bucketSizes)
    (hfile : t'.files.directory.get? (t'.getPathOf b) = t.files.directory.get? (t.getPathOf b))
    (hcontent : ∀ file, t.files.directory.get? (t.getPathOf b) = some file →
      t'.files.content file = t.files.content file) : t'.view b = t.view b := by
  simp only [view, hb, hfile]
  refine if_congr Iff.rfl ?_ rfl
  exact Option.map_congr fun file hmem => hcontent file (Option.mem_def.mp hmem)

theorem view_dropBucket (h : t.Books) (hb : b ∈ t.bucketSizes) :
    (t.dropBucket b).view = Function.update t.view b none := by
  funext c
  by_cases heq : c = b
  · subst heq
    rw [Function.update_self]
    exact view_of_not_mem fun hmem => (mem_dropBucket.mp hmem).1 rfl
  · rw [Function.update_of_ne heq]
    by_cases hc : c ∈ t.bucketSizes
    · refine view_congr (by rw [mem_dropBucket]; simp [heq]) ?_ fun file _ => rfl
      change (t.files.directory.erase (t.getPathOf b)).get? (t.getPathOf c) = _
      rw [Dict.get?_erase, if_neg fun hpath => heq (h.apart c hc b hb hpath)]
    · rw [view_of_not_mem hc, view_of_not_mem fun hmem => hc (mem_dropBucket.mp hmem).2]

theorem view_dropAll (h : t.Books) {gone : List Bucket} (hgone : t.Deletable gone) (c : Bucket) :
    (t.dropAll gone).view c = if c ∈ gone then none else t.view c := by
  induction gone generalizing t with
  | nil => rfl
  | cons b gone ih =>
    obtain ⟨hb, hrest⟩ := hgone.cons
    rw [dropAll_cons, ih (h.drop hb) hrest, view_dropBucket h hb]
    by_cases heq : c = b
    · simp [heq]
    · simp [heq]

theorem view_addBucket (h : t.Books) (hb : b ∉ t.bucketSizes)
    (hpath : t.getPathOf b ∉ t.files.directory) :
    (t.addBucket b).view = Function.update t.view b (some []) := by
  have hnew : t.files.content t.files.contents.length = [] := by simp [Files.content]
  funext c
  by_cases heq : c = b
  · subst heq
    have hfile : (t.files.create (t.getPathOf c)).directory.get? (t.getPathOf c)
        = some t.files.contents.length := Dict.get?_set_self ..
    rw [Function.update_self, view, if_pos (mem_addBucket.mpr (.inl rfl))]
    change Option.map (t.files.create _).content
      ((t.files.create _).directory.get? (t.getPathOf c)) = _
    rw [hfile, Option.map_some, Files.content_create, hnew]
  · rw [Function.update_of_ne heq]
    by_cases hc : c ∈ t.bucketSizes
    · refine view_congr (by rw [mem_addBucket]; simp [heq]) ?_ fun file _ =>
        Files.content_create ..
      have hne : t.getPathOf c ≠ t.getPathOf b := fun heq =>
        hpath (heq ▸ (h.stored _).mpr ⟨c, hc, rfl⟩)
      change (t.files.directory.set (t.getPathOf b) _).get? (t.getPathOf c) = _
      rw [Dict.get?_set, if_neg hne]
    · rw [view_of_not_mem hc, view_of_not_mem fun hmem => ?_]
      exact (mem_addBucket.mp hmem).elim heq hc

/-- Bytes written at the end of the bucket's own file. -/
theorem view_extend (h : t.Books) {file : Nat} (hb : b ∈ t.bucketSizes)
    (hfile : t.files.directory.get? (t.getPathOf b) = some file) (data : List UInt8) :
    (t.extend b file (t.files.content file).length data).view
      = Function.update t.view b (some (t.files.content file ++ data)) := by
  have hwrite := t.files.content_write (h.numbered _ _ hfile) (t.files.content file).length data
  funext c
  by_cases heq : c = b
  · subst heq
    rw [Function.update_self, view, if_pos ((mem_extend hb).mpr hb)]
    change Option.map (t.files.write _ _ _).content (t.files.directory.get? (t.getPathOf c)) = _
    rw [hfile, Option.map_some, hwrite, if_pos rfl, Files.writeAt_end]
  · rw [Function.update_of_ne heq]
    by_cases hc : c ∈ t.bucketSizes
    · refine view_congr (mem_extend hb) rfl fun g hg => ?_
      have hne : g ≠ file := by
        rintro rfl
        exact heq (h.apart c hc b hb (h.distinct _ _ _ hg hfile))
      change (t.files.write _ _ _).content g = _
      rw [hwrite, if_neg hne]
    · rw [view_of_not_mem hc, view_of_not_mem fun hmem => hc ((mem_extend hb).mp hmem)]

/-! ## Sizes -/

/-- The book of sizes has the lengths of the files. -/
def Accurate (t : TStore) : Prop := ∀ b, t.bucketSizes.get? b = (t.view b).map List.length

/-- The bytes of a bucket; none, if it is not recorded. -/
def bytesOf (t : TStore) (b : Bucket) : List UInt8 := (t.view b).getD []

theorem bytesOf_eq (hb : b ∈ t.bucketSizes) {file : Nat}
    (hfile : t.files.directory.get? (t.getPathOf b) = some file) :
    t.bytesOf b = t.files.content file := by
  rw [bytesOf, view, if_pos hb, hfile]
  rfl

theorem accurate_new (attrs : Attrs) : (new attrs).Accurate := fun _ => rfl

theorem Accurate.drop (h : t.Accurate) (hbooks : t.Books) (hb : b ∈ t.bucketSizes) :
    (t.dropBucket b).Accurate := by
  intro c
  rw [view_dropBucket hbooks hb]
  change (t.bucketSizes.erase b).get? c = _
  rw [Dict.get?_erase, Function.update_apply]
  split_ifs
  · rfl
  · exact h c

theorem Accurate.dropAll (h : t.Accurate) (hbooks : t.Books) {gone : List Bucket}
    (hgone : t.Deletable gone) : (t.dropAll gone).Accurate := by
  induction gone generalizing t with
  | nil => exact h
  | cons b gone ih =>
    obtain ⟨hb, hrest⟩ := hgone.cons
    exact ih (h.drop hbooks hb) (hbooks.drop hb) hrest

theorem Accurate.add (h : t.Accurate) (hbooks : t.Books) (hb : b ∉ t.bucketSizes)
    (hpath : t.getPathOf b ∉ t.files.directory) : (t.addBucket b).Accurate := by
  intro c
  rw [view_addBucket hbooks hb hpath]
  change (t.bucketSizes.set b 0).get? c = _
  rw [Dict.get?_set, Function.update_apply]
  split_ifs
  · rfl
  · exact h c

/-- An append through a writer that has the bucket's own file open. -/
theorem Accurate.extend (h : t.Accurate) (hbooks : t.Books) {file size : Nat}
    (hb : t.bucketSizes.get? b = some size)
    (hfile : t.files.directory.get? (t.getPathOf b) = some file) (data : List UInt8) :
    size = (t.files.content file).length ∧ (t.extend b file size data).Accurate := by
  have hmem := Dict.mem_of_get? hb
  have hsize : size = (t.files.content file).length := by
    have hb' := h b
    rw [hb, view, if_pos hmem, hfile] at hb'
    exact Option.some.inj hb'
  refine ⟨hsize, fun c => ?_⟩
  subst hsize
  rw [view_extend hbooks hmem hfile]
  change (t.bucketSizes.set b _).get? c = _
  rw [Dict.get?_set, Function.update_apply]
  split_ifs
  · simp
  · exact h c

end TStore

end Urnest.Cmc
