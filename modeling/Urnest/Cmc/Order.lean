import Urnest.Cmc.Books

/-!
# Sorted buckets

Buckets are sorted as pairs: by their starts, and by their identifiers where these are the
same. There is one sorted list of some buckets, in whatever order they come
(`sortBuckets_perm`).
-/

namespace Urnest.Cmc.TStore

open Lib

variable {b c d : Bucket} {bs bs' : List Bucket}

/-- `b` is not sorted behind `c`. -/
def notBehind (b c : Bucket) : Bool := b.1 < c.1 || b.1 == c.1 && b.2 ≤ c.2

theorem notBehind_iff : notBehind b c = true ↔ b.1 < c.1 ∨ b.1 = c.1 ∧ b.2 ≤ c.2 := by
  simp [notBehind]

theorem notBehind_trans (h : notBehind b c = true) (h' : notBehind c d = true) :
    notBehind b d = true := by
  rw [notBehind_iff] at *
  rcases h with h | ⟨h, hid⟩
  · rcases h' with h' | ⟨h', -⟩
    · exact .inl (h.trans h')
    · exact .inl (h' ▸ h)
  · rcases h' with h' | ⟨h', hid'⟩
    · exact .inl (h ▸ h')
    · exact .inr ⟨h.trans h', hid.trans hid'⟩

theorem notBehind_total (b c : Bucket) : (notBehind b c || notBehind c b) = true := by
  rw [Bool.or_eq_true, notBehind_iff, notBehind_iff]
  rcases lt_trichotomy b.1 c.1 with hlt | heq | hgt
  · exact .inl (.inl hlt)
  · exact (le_total b.2 c.2).imp (fun hle => .inr ⟨heq, hle⟩) fun hle => .inr ⟨heq.symm, hle⟩
  · exact .inr (.inl hgt)

theorem eq_of_notBehind (h : notBehind b c = true) (h' : notBehind c b = true) : b = c := by
  rw [notBehind_iff] at h h'
  rcases h with h | ⟨h, hid⟩
  · rcases h' with h' | ⟨h', -⟩
    · exact absurd h' h.asymm
    · exact absurd h h'.not_gt
  · rcases h' with h' | ⟨-, hid'⟩
    · exact absurd h' (h ▸ lt_irrefl _)
    · exact Prod.ext h (le_antisymm hid hid')

theorem fst_le_of_notBehind (h : notBehind b c = true) : b.1 ≤ c.1 := by
  rcases notBehind_iff.mp h with hlt | ⟨heq, -⟩
  · exact hlt.le
  · exact heq.le

theorem sortBuckets_sorted (bs : List Bucket) :
    (sortBuckets bs).Pairwise fun b c => notBehind b c = true := by
  change (bs.mergeSort notBehind).Pairwise _
  exact @List.pairwise_mergeSort _ notBehind (fun _ _ _ => notBehind_trans) notBehind_total bs

theorem sortBuckets_perm (h : bs.Perm bs') : sortBuckets bs = sortBuckets bs' := by
  have hperm : (sortBuckets bs).Perm (sortBuckets bs') :=
    (List.mergeSort_perm bs _).trans (h.trans (List.mergeSort_perm bs' _).symm)
  exact hperm.eq_of_pairwise (fun _ _ _ _ => eq_of_notBehind) (sortBuckets_sorted bs)
    (sortBuckets_sorted bs')

theorem sortBuckets_eq_self (h : bs.Pairwise fun b c => notBehind b c = true) :
    sortBuckets bs = bs :=
  List.mergeSort_of_pairwise h

end Urnest.Cmc.TStore
