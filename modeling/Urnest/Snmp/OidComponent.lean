import Urnest.Snmp.ReadBack
import Urnest.Snmp.Safety

/-!
# Components of identifiers

A component is a number to the base 128: an octet for each digit, most significant first,
of which all but the last have the continuation bit. `decodeOidComponent` shifts what it
has read so far to the left and has 32 bits for it, so of a larger number it keeps the low
32 bits (`decodeOidComponent_digits`).
-/

namespace Urnest.Snmp

open DecodeIterator Lib

variable {data : List UInt8}

/-! ## Numbers to the base 128 -/

/-- The number that octets go on with, the continuation bits left out. -/
def base128From (n : Nat) (octets : List UInt8) : Nat :=
  octets.foldl (fun n b => n * 128 + b.toNat % 128) n

/-- The octets of a component. -/
structure IsComponent (octets : List UInt8) : Prop where
  continued : ∀ b ∈ octets.dropLast, 0x80 ≤ b
  ends : ∃ b, octets.getLast? = some b ∧ b < 0x80

theorem IsComponent.exists_eq {octets : List UInt8} (h : IsComponent octets) :
    ∃ hs b, octets = hs ++ [b] ∧ (∀ c ∈ hs, 0x80 ≤ c) ∧ b < 0x80 := by
  obtain ⟨b, hlast, hb⟩ := h.ends
  obtain ⟨hs, rfl⟩ := List.getLast?_eq_some_iff.mp hlast
  refine ⟨hs, b, rfl, fun c hc => h.continued c ?_, hb⟩
  rwa [List.dropLast_concat]

theorem isComponent_concat {hs : List UInt8} {b : UInt8} (hcontinued : ∀ c ∈ hs, 0x80 ≤ c)
    (hb : b < 0x80) : IsComponent (hs ++ [b]) :=
  ⟨by rwa [List.dropLast_concat], b, by simp, hb⟩

/-- Seven bits at the end of a number of which the last seven are clear. -/
theorem or_digit (n : Nat) {b : UInt8} (hb : b < 0x80) :
    UInt32.ofNat (n * 128) ||| b.toUInt32 = UInt32.ofNat (n * 128 + b.toNat) := by
  have hlt : b.toNat < 2 ^ 7 := hb
  have hmod : n * 128 % 2 ^ 32 = 2 ^ 7 * (n % 2 ^ 25) := by omega
  apply UInt32.toNat_inj.mp
  rw [UInt32.toNat_or, UInt32.toNat_ofNat', UInt32.toNat_ofNat', UInt8.toNat_toUInt32, hmod,
    ← Nat.two_pow_add_eq_or_of_lt hlt]
  omega

theorem shift_digit (n : Nat) : UInt32.ofNat n <<< 7 = UInt32.ofNat (n * 128) := by
  apply UInt32.toNat_inj.mp
  rw [UInt32.toNat_shiftLeft, UInt32.toNat_ofNat', UInt32.toNat_ofNat']
  change (n % 2 ^ 32) <<< 7 % 2 ^ 32 = _
  rw [Nat.shiftLeft_eq]
  omega

/-- A turn of the loop: `n` has been read, and is in place for the next digit. -/
theorem next_digit (n : Nat) (b : UInt8) :
    (UInt32.ofNat (n * 128) ||| (b &&& ~~~0x80).toUInt32) <<< 7
      = UInt32.ofNat ((n * 128 + b.toNat % 128) * 128) := by
  have hdigit : (b &&& ~~~0x80).toNat = b.toNat % 128 := by
    rw [UInt8.toNat_and]
    exact Nat.and_two_pow_sub_one_eq_mod b.toNat 7
  have hlow : (b &&& ~~~0x80) < 0x80 := by
    rw [UInt8.lt_iff_toNat_lt, hdigit]
    exact Nat.mod_lt _ (by decide)
  rw [or_digit n hlow, shift_digit, hdigit]

/-! ## Decoding -/

theorem oidComponentFrom_digits {hs : List UInt8} (hcontinued : ∀ c ∈ hs, 0x80 ≤ c) {b : UInt8}
    (hb : b < 0x80) (ts : List UInt8) (i : DecodeIterator data) (n : Nat) :
    oidComponentFrom (hs ++ b :: ts) i (UInt32.ofNat (n * 128))
      = .ok (UInt32.ofNat (base128From n (hs ++ [b])), i.past (hs.length + 1)) := by
  induction hs generalizing i n with
  | nil =>
    have hlast : ¬ (b &&& 0x80 ≠ 0) := by
      rw [and_half_ne_zero_iff]
      exact UInt8.not_le.mpr hb
    have hmod : b.toNat % 128 = b.toNat := Nat.mod_eq_of_lt hb
    rw [List.nil_append, oidComponentFrom, if_neg hlast, or_digit n hb]
    simp [base128From, hmod]
  | cons c hs ih =>
    obtain ⟨hc, hrest⟩ := List.forall_mem_cons.mp hcontinued
    rw [List.cons_append, oidComponentFrom, if_pos ((and_half_ne_zero_iff c).mpr hc),
      next_digit, ih hrest, past_past, List.length_cons, Nat.add_comm 1]
    rfl

/-- What is read of the octets of a component: the low 32 bits of the number. -/
theorem decodeOidComponent_digits {i : DecodeIterator data} {octets : List UInt8}
    (h : IsComponent octets) (hreads : i.Reads octets) :
    decodeOidComponent i = .ok (UInt32.ofNat (base128From 0 octets), i.past octets.length) := by
  obtain ⟨hs, b, rfl, hcontinued, hb⟩ := h.exists_eq
  obtain ⟨ts, hrest⟩ := hreads
  have hdigits := oidComponentFrom_digits hcontinued hb ts i 0
  rw [decodeOidComponent, ← hrest, List.append_assoc, List.length_append]
  exact hdigits

/-- Without an octet to end it there is no component. -/
theorem decodeOidComponent_unended {i : DecodeIterator data} (h : ∀ b ∈ i.rest, 0x80 ≤ b) :
    decodeOidComponent i = .error (.threw (endOfData data)) := by
  rcases oidComponentFrom_spec i.rest i 0 with ⟨-, hthrew⟩ | ⟨hs, b, ts, c, hrest, -, hb, -⟩
  · exact hthrew
  · exact absurd (h b (by simp [hrest])) (UInt8.not_le.mpr hb)

/-- A component is read exactly or not at all: the number, if it has 32 bits, up to the first
octet without the continuation bit. -/
def DecodesExactly (i : DecodeIterator data) : Prop :=
  (∀ octets, IsComponent octets → i.Reads octets →
    if base128From 0 octets < 2 ^ 32 then
      ∃ c : UInt32, c.toNat = base128From 0 octets ∧
        decodeOidComponent i = .ok (c, i.past octets.length)
    else ∃ e, decodeOidComponent i = .error (.threw e)) ∧
  ((∀ b ∈ i.rest, 0x80 ≤ b) → ∃ e, decodeOidComponent i = .error (.threw e))

/-- The component in front, if it ends, is a number of 32 bits. -/
def Fits (i : DecodeIterator data) : Prop :=
  ∀ octets, IsComponent octets → i.Reads octets → base128From 0 octets < 2 ^ 32

theorem decodesExactly_iff_fits (i : DecodeIterator data) : DecodesExactly i ↔ Fits i := by
  constructor
  · intro h octets hcomponent hreads
    by_contra hlarge
    have hexact := h.1 octets hcomponent hreads
    rw [if_neg hlarge, decodeOidComponent_digits hcomponent hreads] at hexact
    obtain ⟨e, he⟩ := hexact
    cases he
  · intro h
    refine ⟨fun octets hcomponent hreads => ?_, fun hunended => ?_⟩
    · have hfits := h octets hcomponent hreads
      rw [if_pos hfits]
      refine ⟨_, ?_, decodeOidComponent_digits hcomponent hreads⟩
      rw [UInt32.toNat_ofNat', Nat.mod_eq_of_lt hfits]
    · exact ⟨_, decodeOidComponent_unended hunended⟩

/-- Wherever a component is written to, it is read back from. -/
def RoundTrips (c : UInt32) : Prop :=
  (encodeOidComponent c).length = encodedLengthOfOidComponent c ∧
    ∀ (data : List UInt8) (i : DecodeIterator data), i.Reads (encodeOidComponent c) →
      decodeOidComponent i = .ok (c, i.past (encodedLengthOfOidComponent c))

/-- Components are read exactly just where they have 32 bits, and those that are written
come back. -/
theorem oidComponent_exact_iff (i : DecodeIterator data) (c : UInt32) :
    (DecodesExactly i ↔ Fits i) ∧ RoundTrips c := by
  have hlength := length_encodeOidComponent c
  refine ⟨decodesExactly_iff_fits i, hlength, fun data i hreads => ?_⟩
  rw [← hlength]
  exact decodeOidComponent_encode hreads

/-- `2 ^ 32` is read as zero. -/
theorem oidComponent_two_pow_32 :
    ¬ DecodesExactly (start [0x90, 0x80, 0x80, 0x80, 0x00]) := by
  rw [decodesExactly_iff_fits]
  intro h
  have hcomponent : IsComponent [0x90, 0x80, 0x80, 0x80, 0x00] :=
    @isComponent_concat [0x90, 0x80, 0x80, 0x80] 0x00 (by simp) (by simp)
  have hlarge : base128From 0 [0x90, 0x80, 0x80, 0x80, 0x00] = 2 ^ 32 := by decide +kernel
  have hfits := h _ hcomponent (reads_start _)
  rw [hlarge] at hfits
  exact lt_irrefl _ hfits

end Urnest.Snmp
