import Urnest.Utf8.Utf8String

/-!
# The original bytes

A `Utf8String` is to have the bytes it was made of. It has those of its characters, so an
overlong sequence, which the decoder reads as well as any other, comes back as a shorter one
(`preserves_iff`).
-/

namespace Urnest.Utf8

/-- `v` is the UTF-8 of scalar values. -/
structure IsUtf8 (v : List UInt8) (ns : List Nat) : Prop where
  scalar : ∀ n ∈ ns, Scalar n
  eq : v = ns.flatMap utf8

/-- Sequences of bytes with scalar values, however many bytes they need -/
inductive Sequences : List UInt8 → List Nat → Prop where
  | nil : Sequences [] []
  | cons {i rest : List UInt8} {n : Nat} {ns : List Nat} : Reads i n rest → Scalar n →
    Sequences rest ns → Sequences i (n :: ns)

/-- Sequences of bytes with scalar values, and one is overlong. -/
inductive HasOverlong : List UInt8 → Prop where
  | here {i rest : List UInt8} {n : Nat} {ns : List Nat} : Overlong i → Reads i n rest →
    Scalar n → Sequences rest ns → HasOverlong i
  | later {i rest : List UInt8} {n : Nat} : Reads i n rest → Scalar n → HasOverlong rest →
    HasOverlong i

/-! ## Sequences -/

theorem Sequences.scalar {v : List UInt8} {ns : List Nat} (h : Sequences v ns) :
    ∀ n ∈ ns, Scalar n := by
  induction h with
  | nil => simp
  | cons _ hscalar _ ih => exact List.forall_mem_cons.mpr ⟨hscalar, ih⟩

/-- Sequences are as short as they can be, or one is overlong. -/
theorem Sequences.eq_or_hasOverlong {v : List UInt8} {ns : List Nat} (h : Sequences v ns) :
    v = ns.flatMap utf8 ∨ HasOverlong v := by
  induction h with
  | nil => exact .inl rfl
  | @cons i rest n ns hreads hscalar hrest ih =>
    rcases ih with heq | hoverlong
    · by_cases hlong : Overlong i
      · exact .inr (.here hlong hreads hscalar hrest)
      · left
        rw [hreads.eq_utf8 hscalar hlong, List.flatMap_cons, ← heq]
    · exact .inr (.later hreads hscalar hoverlong)

theorem IsUtf8.sequences {v : List UInt8} {ns : List Nat} (h : IsUtf8 v ns) : Sequences v ns := by
  obtain ⟨hscalar, rfl⟩ := h
  induction ns with
  | nil => exact .nil
  | cons n ns ih =>
    obtain ⟨hn, hscalar⟩ := List.forall_mem_cons.mp hscalar
    exact .cons (reads_utf8 hn.1 _) hn (ih hscalar)

/-! ## Lengths -/

theorem length_utf8 (n : Nat) : (utf8 n).length =
    if n < 0x80 then 1 else if n < 0x800 then 2 else if n < 0x10000 then 3 else 4 := by
  rw [utf8]
  split_ifs <;> rfl

/-- A sequence has no fewer bytes than its value needs. -/
theorem Reads.length_utf8_le {i rest : List UInt8} {n : Nat} (h : Reads i n rest) :
    (utf8 n).length + rest.length ≤ i.length := by
  rw [length_utf8]
  cases h with
  | @one b rest hb =>
    have hlt : b.toNat < 0x80 := hb
    rw [if_pos hlt, List.length_cons]
    omega
  | two =>
    simp only [List.length_cons]
    split_ifs <;> omega
  | three =>
    simp only [List.length_cons]
    split_ifs <;> omega
  | four =>
    simp only [List.length_cons]
    split_ifs <;> omega

/-- An overlong one has more. -/
theorem Overlong.length_utf8_lt {i rest : List UInt8} {n : Nat} (h : Overlong i)
    (hreads : Reads i n rest) : (utf8 n).length + rest.length < i.length := by
  rw [length_utf8]
  cases h with
  | two hfirst htrailing =>
    rcases hfirst with rfl | rfl
    all_goals
      cases hreads with
      | one h => exact absurd h (by decide)
      | two =>
        simp only [List.length_cons, UInt8.reduceToNat]
        split_ifs <;> omega
      | three h => exact absurd h (by decide)
      | four h => exact absurd h (by decide)
  | @three b₂ b₃ rest htrailing hle htrailing' =>
    have hle' : b₂.toNat ≤ 0x9f := hle
    have hge := (isTrailing_iff.mp htrailing).1
    cases hreads with
    | one h => exact absurd h (by decide)
    | two _ h => exact absurd h (by decide)
    | three =>
      simp only [List.length_cons, UInt8.reduceToNat]
      split_ifs <;> omega
    | four h => exact absurd h (by decide)
  | @four b₂ b₃ b₄ rest htrailing hle =>
    have hle' : b₂.toNat ≤ 0x8f := hle
    have hge := (isTrailing_iff.mp htrailing).1
    cases hreads with
    | one h => exact absurd h (by decide)
    | two _ h => exact absurd h (by decide)
    | three _ h => exact absurd h (by decide)
    | four =>
      simp only [List.length_cons, UInt8.reduceToNat]
      split_ifs <;> omega

theorem Sequences.length_le {v : List UInt8} {ns : List Nat} (h : Sequences v ns) :
    (ns.flatMap utf8).length ≤ v.length := by
  induction h with
  | nil => exact Nat.le_refl _
  | cons hreads _ _ ih =>
    have hle := hreads.length_utf8_le
    rw [List.flatMap_cons, List.length_append]
    omega

theorem HasOverlong.exists_shorter {v : List UInt8} (h : HasOverlong v) :
    ∃ ns, Sequences v ns ∧ (ns.flatMap utf8).length < v.length := by
  induction h with
  | @here i rest n ns hlong hreads hscalar hrest =>
    have hlt := hlong.length_utf8_lt hreads
    have hle := hrest.length_le
    refine ⟨n :: ns, .cons hreads hscalar hrest, ?_⟩
    rw [List.flatMap_cons, List.length_append]
    omega
  | @later i rest n hreads hscalar _ ih =>
    obtain ⟨ns, hrest, hlt⟩ := ih
    have hle := hreads.length_utf8_le
    refine ⟨n :: ns, .cons hreads hscalar hrest, ?_⟩
    rw [List.flatMap_cons, List.length_append]
    omega

/-! ## Validating -/

/-- What is valid, and what becomes of it -/
theorem validate_eq_ok {v value : List UInt8} {size : Nat} :
    validate v = .ok (value, size) ↔
      ∃ ns, Sequences v ns ∧ value = ns.flatMap utf8 ∧ size = ns.length := by
  constructor
  · intro h
    induction hlength : v.length using Nat.strongRecOn generalizing v value size with
    | _ m ih =>
      rw [validate] at h
      split_ifs at h with hv
      · cases h
        exact ⟨[], hv ▸ .nil, rfl, rfl⟩
      · split at h
        · cases h
        next c rest hstep =>
          obtain ⟨hreads, hscalar⟩ := decodeCodePoint_eq_ok.mp hstep
          rw [encodeCodePoint_of_scalar hscalar] at h
          cases hrest : validate rest with
          | error e => rw [hrest] at h; cases h
          | ok others =>
            rw [hrest] at h
            cases h
            have hlt := length_lt_of_decodeCodePoint hstep
            obtain ⟨ns, hns, hvalue, hsize⟩ := ih rest.length (hlength ▸ hlt) hrest rfl
            refine ⟨c.toNat :: ns, .cons hreads hscalar hns, ?_, ?_⟩
            · rw [List.flatMap_cons, ← hvalue]
            · rw [List.length_cons, ← hsize]
  · rintro ⟨ns, h, rfl, rfl⟩
    induction h with
    | nil => rw [validate, if_pos rfl]; rfl
    | @cons i rest n ns hreads hscalar _ ih =>
      have hn : (UInt32.ofNat n).toNat = n := UInt32.toNat_ofNat_of_lt (by
        have hlast := hscalar.1
        rw [UInt32.size]
        omega)
      have hstep : decodeCodePoint i = .ok (UInt32.ofNat n, rest) :=
        decodeCodePoint_eq_ok.mpr (hn.symm ▸ ⟨hreads, hscalar⟩)
      have hne : i ≠ [] := by
        rintro rfl
        have hlt := hreads.length_lt
        simp at hlt
      rw [validate, if_neg hne]
      split
      next e herror => rw [hstep] at herror; cases herror
      next c rest' hok =>
        rw [hstep] at hok
        cases hok
        rw [encodeCodePoint_of_scalar (hn.symm ▸ hscalar), ih, hn]
        rfl

theorem Utf8String.make_of_validate {v value : List UInt8} {size : Nat}
    (h : validate v = .ok (value, size)) : ∃ s, make v = .ok s ∧ s.value = value ∧ s.size = size := by
  rw [make]
  split
  next value' size' hok =>
    rw [h] at hok
    cases hok
    exact ⟨_, rfl, rfl, rfl⟩
  next e herror =>
    rw [h] at herror
    cases herror

/-- What is accepted is UTF-8 and is kept byte for byte, with the number of its code points,
and is what encoding those again gives. What is rejected is not UTF-8. -/
def Preserves (v : List UInt8) : Prop :=
  match Utf8String.make v with
  | .ok s => s.value = v ∧ (∃ ns, IsUtf8 v ns ∧ s.size = ns.length) ∧
    validate s.value = .ok (v, s.size)
  | .error _ => ∀ ns, ¬ IsUtf8 v ns

/-- What is kept of an overlong sequence is shorter. -/
theorem HasOverlong.not_preserves {v : List UInt8} (hlong : HasOverlong v) : ¬ Preserves v := by
  intro h
  obtain ⟨ns, hns, hlt⟩ := hlong.exists_shorter
  obtain ⟨s, hmake, hvalue, -⟩ :=
    Utf8String.make_of_validate (validate_eq_ok.mpr ⟨ns, hns, rfl, rfl⟩)
  rw [Preserves, hmake] at h
  rw [← hvalue, h.1] at hlt
  exact absurd hlt (Nat.lt_irrefl _)

/-- The bytes are preserved just where no sequence is overlong. -/
theorem preserves_iff (v : List UInt8) : Preserves v ↔ ¬ HasOverlong v := by
  constructor
  · exact fun h hlong => hlong.not_preserves h
  · intro hshort
    rw [Preserves]
    split
    next s hmake =>
      cases hv : validate v with
      | error e =>
        rw [Utf8String.make] at hmake
        split at hmake
        next value size hok => rw [hv] at hok; cases hok
        next => cases hmake
      | ok r =>
        obtain ⟨value, size⟩ := r
        obtain ⟨s', hmake', hvalue, hsize⟩ := Utf8String.make_of_validate hv
        obtain rfl : s' = s := Except.ok.inj (hmake'.symm.trans hmake)
        obtain ⟨ns, hns, hbytes, hlength⟩ := validate_eq_ok.mp hv
        have heq := hns.eq_or_hasOverlong.resolve_right hshort
        have hkept : s'.value = v := by rw [hvalue, hbytes, ← heq]
        refine ⟨hkept, ⟨ns, ⟨hns.scalar, heq⟩, by rw [hsize, hlength]⟩, ?_⟩
        rw [s'.validate_value, hkept]
    next e hmake =>
      intro ns hutf8
      obtain ⟨s, hmake', -⟩ :=
        Utf8String.make_of_validate (validate_eq_ok.mpr ⟨ns, hutf8.sequences, rfl, rfl⟩)
      rw [hmake'] at hmake
      cases hmake

/-- Two bytes for NUL become one. -/
theorem not_preserves_overlong : ¬ Preserves [0xc0, 0x80] := by
  have htrailing : IsTrailing 0x80 := by decide
  have hlong : HasOverlong [0xc0, 0x80] :=
    .here (.two (.inl rfl) htrailing) (.two (by decide) (by decide) htrailing)
      ⟨by decide, by decide⟩ .nil
  exact hlong.not_preserves

end Urnest.Utf8
