import Urnest.Hcp.Tiling
import Urnest.Hcp.Split

/-!
# The offset map of a stream

A stream that copies from where it left off needs no entry in its offset map. Where it has
to make one, there must be none yet for what it writes next: that is what the assertion in
`OStream::copy` is about. A stream is `Loose` where an entry can be made, `Ready` for a
position if a copy from there will do, and no longer loose after it has copied nothing from
somewhere else.
-/

namespace Urnest.Hcp.Split

open Cpp

variable {text : List Char} {o : OStream} {b e : Nat}

namespace OStream

/-- The last entry is not for something yet to be written, -/
def Sane (o : OStream) : Prop := ∀ p ∈ o.sourceOffsetMap.head?, p.1 ≤ o.outputOffset

/-- and not for what is written next. -/
def Loose (o : OStream) : Prop := ∀ p ∈ o.sourceOffsetMap.head?, p.1 < o.outputOffset

theorem Loose.sane (h : o.Loose) : o.Sane := fun p hp => Nat.le_of_lt (h p hp)

theorem Sane.write (h : o.Sane) (x : List Char) : (o.write x).Sane :=
  fun p hp => (h p hp).trans (Nat.le_add_right ..)

/-- Text makes a stream loose. -/
theorem Sane.loose_write (h : o.Sane) {x : List Char} (hx : x ≠ []) : (o.write x).Loose :=
  fun p hp => (h p hp).trans_lt (Nat.lt_add_of_pos_right (List.length_pos_of_ne_nil hx))

theorem loose_write_nil : (o.write []).Loose ↔ o.Loose := Iff.rfl

theorem Sane.mappedOffset_write (h : o.Sane) (x : List Char) :
    (o.write x).mappedOffset = o.mappedOffset + x.length := by
  obtain ⟨s, outputOffset, map⟩ := o
  cases map with
  | nil => rfl
  | cons p map =>
    have hle : p.1 ≤ outputOffset := h p rfl
    simp only [OStream.mappedOffset, OStream.write]
    omega

theorem Loose.insert (h : o.Loose) (b : Nat) : (o.insert b).Sane ∧ ¬ (o.insert b).Loose ∧
    (o.insert b).mappedOffset = b := by
  obtain ⟨s, outputOffset, map⟩ := o
  have hnew : ∀ map : List (Nat × Nat), (OStream.mk s outputOffset ((outputOffset, b) :: map)).Sane ∧
      ¬ (OStream.mk s outputOffset ((outputOffset, b) :: map)).Loose ∧
        (OStream.mk s outputOffset ((outputOffset, b) :: map)).mappedOffset = b := by
    intro map
    refine ⟨?_, fun hloose => lt_irrefl _ (hloose (outputOffset, b) rfl), ?_⟩
    · rintro p ⟨⟩
      exact Nat.le_refl outputOffset
    · simp only [OStream.mappedOffset, Nat.sub_self, Nat.zero_add]
  cases map with
  | nil => exact hnew []
  | cons p map =>
    have hne : p.1 ≠ outputOffset := Nat.ne_of_lt (h p rfl)
    simp only [OStream.insert, if_neg hne]
    exact hnew (p :: map)

theorem Sane.insert_of_not_loose (h : o.Sane) (hloose : ¬ o.Loose) (b : Nat) : o.insert b = o := by
  obtain ⟨s, outputOffset, map⟩ := o
  cases map with
  | nil => exact absurd (fun p hp => nomatch hp) hloose
  | cons p map =>
    have heq : p.1 = outputOffset := by
      have hle : p.1 ≤ outputOffset := h p rfl
      by_contra hne
      refine hloose ?_
      rintro _ ⟨⟩
      exact Nat.lt_of_le_of_ne hle hne
    simp only [OStream.insert, if_pos heq]

theorem copy_aligned (text : List Char) (e : Nat) (h : o.mappedOffset = b) :
    o.copy text b e = .ok (o.write (slice text b e)) := by
  simp only [OStream.copy, h, ne_eq, not_true_eq_false, if_false, if_true]

theorem Loose.copy (text : List Char) (e : Nat) (h : o.Loose) (hne : o.mappedOffset ≠ b) :
    o.copy text b e = .ok ((o.insert b).write (slice text b e)) := by
  simp only [OStream.copy, if_pos hne, if_pos (h.insert b).2.2]

/-- There is an entry already. -/
theorem Sane.copy_error (text : List Char) (e : Nat) (h : o.Sane) (hloose : ¬ o.Loose)
    (hne : o.mappedOffset ≠ b) : ∃ a, o.copy text b e = .error a := by
  simp only [OStream.copy, if_pos hne, h.insert_of_not_loose hloose b, if_neg hne]
  exact ⟨_, rfl⟩

theorem length_slice (hlen : e ≤ text.length) : (slice text b e).length = e - b := by
  rw [slice, List.length_take, List.length_drop]
  omega

/-- A copy from the position will do. -/
structure Ready (o : OStream) (position : Nat) : Prop where
  sane : o.Sane
  free : o.mappedOffset = position ∨ o.Loose

theorem Loose.ready (h : o.Loose) (position : Nat) : o.Ready position := ⟨h.sane, .inr h⟩

/-- What a copy leaves behind. -/
structure Copied (o : OStream) (b e : Nat) (o' : OStream) : Prop where
  sane : o'.Sane
  mapped : o'.mappedOffset = e
  loose_iff : o'.Loose ↔ b < e ∨ o.Loose ∧ o.mappedOffset = b

theorem Ready.copy (h : o.Ready b) (hle : b ≤ e) (hlen : e ≤ text.length) :
    ∃ o', o.copy text b e = .ok o' ∧ Copied o b e o' := by
  have hlength := length_slice (b := b) hlen
  have hwrite : ∀ o' : OStream, o'.Sane → o'.mappedOffset = b →
      (o'.write (slice text b e)).Sane ∧ (o'.write (slice text b e)).mappedOffset = e ∧
        ((o'.write (slice text b e)).Loose ↔ b < e ∨ o'.Loose) := by
    intro o' hsane hmapped
    refine ⟨hsane.write _, ?_, ?_⟩
    · rw [hsane.mappedOffset_write, hmapped, hlength]
      omega
    · by_cases hlt : b < e
      · refine iff_of_true (hsane.loose_write fun hnil => ?_) (.inl hlt)
        rw [hnil, List.length_nil] at hlength
        omega
      · have hnil : slice text b e = [] := List.eq_nil_of_length_eq_zero (by omega)
        rw [hnil, loose_write_nil, or_iff_right hlt]
  by_cases hmapped : o.mappedOffset = b
  · obtain ⟨hsane, hend, hloose⟩ := hwrite o h.sane hmapped
    refine ⟨_, copy_aligned text e hmapped, hsane, hend, ?_⟩
    rw [hloose, and_iff_left hmapped]
  · have hfree := h.free.resolve_left hmapped
    obtain ⟨hsane', hpinned, hb⟩ := hfree.insert b
    obtain ⟨hsane, hend, hloose⟩ := hwrite _ hsane' hb
    refine ⟨_, hfree.copy text e hmapped, hsane, hend, ?_⟩
    rw [hloose, or_iff_left hpinned]
    exact ⟨.inl, fun h => h.resolve_right fun h => hmapped h.2⟩

end OStream

end Urnest.Hcp.Split
