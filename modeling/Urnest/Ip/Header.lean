import Urnest.Ip.Checksum

/-!
# IPv4 headers

`encodeHeader` writes a header with the checksum of what it writes, whatever checksum the
header has; `decodeHeader` reads the fields of a header, the checksum among them, and leaves
it to `validate` to say whether it is right.

A header that fits its fields comes back with its checksum made right (`decodeHeader_encode`).
Any bytes either have a header at their front, with an internal header length of at least
five words that are all there, or `decodeHeader` throws (`decodeHeader_total`).
-/

namespace Urnest.Ip

open Lib Xju

structure Header where
  /-- 4 bits -/
  version_ : UInt8
  /-- 4 bits -/
  ihl_ : UInt8
  /-- 6 bits -/
  dscp_ : UInt8
  /-- 2 bits -/
  ecn_ : UInt8
  totalLength_ : UInt16
  identification_ : UInt16
  /-- 3 bits -/
  flags_ : UInt8
  /-- 13 bits -/
  fragmentOffset_ : UInt16
  ttl_ : UInt8
  protocol_ : UInt8
  headerChecksum_ : UInt16
  sourceAddress_ : UInt32
  destAddress_ : UInt32
  options_ : List UInt32
  deriving DecidableEq

/-! ## Encoding -/

def word16 (x : UInt16) : List UInt8 := [(x >>> 8).toUInt8, (x &&& 0xff).toUInt8]

def word32 (x : UInt32) : List UInt8 :=
  [(x >>> 24).toUInt8, ((x >>> 16) &&& 0xff).toUInt8, ((x >>> 8) &&& 0xff).toUInt8,
    ((x >>> 0) &&& 0xff).toUInt8]

/-- `for(auto j=5;j!=h.ihl_.value();++j)`, none where it goes beyond the options. -/
def encodeOptions (ihl : UInt8) : Nat → List UInt32 → Option (List UInt8)
  | j, [] => if j ≠ ihl.toNat then none else some []
  | j, x :: rest =>
    if j ≠ ihl.toNat then (encodeOptions ihl (j + 1) rest).map (word32 x ++ ·) else some []

/-- The five words that every header has. -/
def encodeFixed (h : Header) (checksum : UInt16) : List UInt8 :=
  [(h.version_ <<< 4) + h.ihl_, (h.dscp_ <<< 2) + h.ecn_]
    ++ word16 h.totalLength_ ++ word16 h.identification_
    ++ [(h.flags_ <<< 5) + (h.fragmentOffset_ >>> 8).toUInt8,
      (h.fragmentOffset_ &&& 0xff).toUInt8, h.ttl_, h.protocol_]
    ++ word16 checksum ++ word32 h.sourceAddress_ ++ word32 h.destAddress_

/-- `encodeHeader` with a checksum -/
def encodeHeaderWith (h : Header) (checksum : UInt16) : Option (List UInt8) :=
  (encodeOptions h.ihl_ 5 h.options_).map (encodeFixed h checksum ++ ·)

/-- `encodeHeader`, with the checksum of the header that has zero in its place. -/
def encodeHeader (h : Header) : Option (List UInt8) := do
  let x ← encodeHeaderWith h 0
  let c ← (calculate (makeIterator x)).toOption
  encodeHeaderWith h c

/-! ## Decoding -/

/-- The fields of the five words that every header has. -/
def getFixed : Reader Header := do
  let version ← getBits 4 "version"
  let ihl ← getBits 4 "internal header length"
  let dscp ← getBits 6 "DSCP"
  let ecn ← getBits 2 "ECN"
  let totalLength ← get16Bits "total length"
  let identification ← get16Bits "identification"
  let flags ← getBits 3 "flags"
  let fragment ← getBits 5 "fragment offset..."
  let fragment' ← get8Bits "... fragment offset"
  let ttl ← get8Bits "time to live"
  let protocol ← get8Bits "protocol"
  let headerChecksum ← get16Bits "header checksum"
  let sourceAddress ← get32Bits "source address"
  let destAddress ← get32Bits "dest address"
  return {
    version_ := version
    ihl_ := ihl
    dscp_ := dscp
    ecn_ := ecn
    totalLength_ := totalLength
    identification_ := identification
    flags_ := flags
    fragmentOffset_ := (fragment.toUInt16 <<< 8) + fragment'.toUInt16
    ttl_ := ttl
    protocol_ := protocol
    headerChecksum_ := headerChecksum
    sourceAddress_ := sourceAddress
    destAddress_ := destAddress
    options_ := [] }

/-- `for(auto j=5;j!=ihl.value();++j)`, on fuel. No input is long enough for `j`, which is an
`int`, to come round again. -/
def getOptions (ihl : UInt8) : Nat → Nat → Reader (List UInt32)
  | 0, _ => fun _ => .error .endless
  | fuel + 1, j =>
    if j ≠ ihl.toNat then do
      let x ← get32Bits "options"
      let rest ← getOptions ihl fuel (j + 1)
      return x :: rest
    else return []

/-- `decodeHeader`: the header and the iterator after it -/
def decodeHeader (at_ : Iterator) : Except Stop (Header × Iterator) :=
  whileReading (fun _ => "decode IPv4 header at offset " ++ at_.offset.toString)
    (do
      let h ← getFixed
      -- each turn takes four bytes
      let options ← getOptions h.ihl_ (at_.rest.length + 1) 5
      return { h with options_ := options })
    at_

/-! ## What takes how much -/

theorem getFixed_takes : Takes getFixed 160 0 0 := by
  have h : Takes getFixed (4 + (4 + (6 + (2 + (16 + (16 + (3 + (5 + (8 + (8 + (8 + (16
      + (32 + (32 + 0)))))))))))))) 0 0 := by
    refine Takes.bind (getBits_takes (p := 0) _ (by omega) (by omega) (by omega)) fun _ => ?_
    refine Takes.bind (getBits_takes (p := 4) _ (by omega) (by omega) (by omega)) fun _ => ?_
    refine Takes.bind (getBits_takes (p := 0) _ (by omega) (by omega) (by omega)) fun _ => ?_
    refine Takes.bind (getBits_takes (p := 6) _ (by omega) (by omega) (by omega)) fun _ => ?_
    refine Takes.bind (get16Bits_takes _) fun _ => ?_
    refine Takes.bind (get16Bits_takes _) fun _ => ?_
    refine Takes.bind (getBits_takes (p := 0) _ (by omega) (by omega) (by omega)) fun _ => ?_
    refine Takes.bind (getBits_takes (p := 3) _ (by omega) (by omega) (by omega)) fun _ => ?_
    refine Takes.bind (get8Bits_takes _) fun _ => ?_
    refine Takes.bind (get8Bits_takes _) fun _ => ?_
    refine Takes.bind (get8Bits_takes _) fun _ => ?_
    refine Takes.bind (get16Bits_takes _) fun _ => ?_
    refine Takes.bind (get32Bits_takes _) fun _ => ?_
    exact Takes.bind (get32Bits_takes _) fun _ => Takes.pure _ 0
  exact h

/-- Options are a word each. -/
theorem getOptions_takes {ihl : UInt8} {j : Nat} (hj : j ≤ ihl.toNat) (fuel : Nat)
    (hfuel : ihl.toNat - j < fuel) :
    Takes (getOptions ihl fuel j) (32 * (ihl.toNat - j)) 0 0 := by
  induction fuel generalizing j with
  | zero => omega
  | succ fuel ih =>
    rw [getOptions]
    split_ifs with hne
    · have hsum : 32 * (ihl.toNat - j) = 32 + (32 * (ihl.toNat - (j + 1)) + 0) := by omega
      rw [hsum]
      exact Takes.bind (get32Bits_takes _) fun _ =>
        Takes.bind (ih (by omega) (by omega)) fun _ => Takes.pure _ 0
    · rw [not_not.mp hne, Nat.sub_self]
      exact Takes.pure _ 0

/-- With too small a length, options are read until there is no input left. -/
theorem getOptions_throws {ihl : UInt8} {fuel j : Nat} (hj : ihl.toNat < j) {i : Iterator}
    (hi : i.Inside 0) (hfuel : i.bitsLeft < 32 * fuel) :
    ∃ e offset, getOptions ihl fuel j i = .error (.threw e offset) := by
  induction fuel generalizing j i with
  | zero => omega
  | succ fuel ih =>
    rw [getOptions, if_pos (by omega)]
    by_cases hleft : 32 ≤ i.bitsLeft
    · obtain ⟨x, i', hx, hi', hleft'⟩ := (get32Bits_takes "options" i hi).1 hleft
      obtain ⟨e, offset, he⟩ := ih (j := j + 1) (by omega) hi' (by omega)
      refine ⟨e, offset, ?_⟩
      change (get32Bits "options" i >>= fun x => _) = _
      rw [hx]
      change (getOptions ihl fuel (j + 1) i' >>= fun x => _) = _
      rw [he]
      rfl
    · obtain ⟨e, offset, he⟩ := (get32Bits_takes "options" i hi).2 (by omega)
      refine ⟨e, offset, ?_⟩
      change (get32Bits "options" i >>= fun x => _) = _
      rw [he]
      rfl

/-! ## What has a header -/

/-- The internal header length that is in the first byte. -/
def ihlOf (bytes : List UInt8) : Nat := (bytes.headD 0).toNat % 16

/-- There is a header at the front of the bytes. -/
def HasHeader (bytes : List UInt8) : Prop := 5 ≤ ihlOf bytes ∧ 4 * ihlOf bytes ≤ bytes.length

instance (bytes : List UInt8) : Decidable (HasHeader bytes) :=
  inferInstanceAs (Decidable (_ ∧ _))

theorem getFixed_ihl {i i' : Iterator} {h : Header} (hi : i.Inside 0)
    (hget : getFixed i = .ok (h, i')) : h.ihl_.toNat = ihlOf i.rest := by
  obtain ⟨rest, ⟨bytes, bits⟩⟩ := i
  obtain ⟨hbits, -⟩ := hi
  change bits = 0 at hbits
  subst hbits
  obtain ⟨version, i₁, h₁, hget⟩ := run_bind_eq_ok.mp hget
  obtain ⟨ihl, i₂, h₂, hget⟩ := run_bind_eq_ok.mp hget
  cases rest with
  | nil =>
    rw [getBits_nil "version" (by omega) (by omega) (by omega)] at h₁
    cases h₁
  | cons b t =>
    rw [getBits_cons "version" (by omega) (by omega) (by omega)] at h₁
    cases h₁
    -- the other half of the byte
    have hihl := getBits_cons "internal header length" (n := 4) (p := 4) (by omega) (by omega)
      (by omega) b t bytes
    have heq := h₂.symm.trans hihl
    cases heq
    iterate 12 obtain ⟨_, _, -, hget⟩ := run_bind_eq_ok.mp hget
    cases hget
    rw [bitsOf_toNat b (by omega) (by omega)]
    change b.toNat / 2 ^ 0 % 2 ^ 4 = b.toNat % 16
    omega

/-- A header is decoded from any bytes that have one, and all others throw. -/
theorem decodeHeader_total {i : Iterator} (hi : i.Inside 0) :
    (HasHeader i.rest → ∃ h i', decodeHeader i = .ok (h, i')) ∧
      (¬ HasHeader i.rest → ∃ e offset, decodeHeader i = .error (.threw e offset)) := by
  have hbits := hi.bits
  have hleft : i.bitsLeft = 8 * i.rest.length := by
    rw [Iterator.bitsLeft, hbits, Nat.sub_zero]
  have hthrow : ∀ {e offset}, (do
        let h ← getFixed
        let options ← getOptions h.ihl_ (i.rest.length + 1) 5
        return { h with options_ := options } : Reader Header) i = .error (.threw e offset) →
      ∃ e offset, decodeHeader i = .error (.threw e offset) := by
    intro e offset he
    refine ⟨e.addContext ("decode IPv4 header at offset " ++ i.offset.toString), offset, ?_⟩
    rw [decodeHeader, whileReading, he]
  by_cases hlen : 20 ≤ i.rest.length
  · obtain ⟨h, i', hfixed, hi', hleft'⟩ := (getFixed_takes i hi).1 (by omega)
    have hihl := getFixed_ihl hi hfixed
    have hsmall : ihlOf i.rest < 16 := Nat.mod_lt _ (by omega)
    rw [HasHeader, ← hihl]
    by_cases h5 : 5 ≤ h.ihl_.toNat
    · have htakes := getOptions_takes h5 (i.rest.length + 1) (by omega) i' hi'
      constructor
      · rintro ⟨-, hall⟩
        obtain ⟨options, i'', hoptions, -⟩ := htakes.1 (by omega)
        refine ⟨{ h with options_ := options }, i'', run_whileReading ?_⟩
        exact run_bind_eq_ok.mpr ⟨h, i', hfixed, run_bind_eq_ok.mpr ⟨options, i'', hoptions, rfl⟩⟩
      · intro hnot
        obtain ⟨e, offset, he⟩ := htakes.2 (by omega)
        refine @hthrow e offset ?_
        change (getFixed i >>= fun x => _) = _
        rw [hfixed]
        change (getOptions h.ihl_ (i.rest.length + 1) 5 i' >>= fun x => _) = _
        rw [he]
        rfl
    · refine ⟨fun hnot => absurd hnot.1 h5, fun _ => ?_⟩
      obtain ⟨e, offset, he⟩ :=
        @getOptions_throws h.ihl_ (i.rest.length + 1) 5 (by omega) i' hi' (by omega)
      refine @hthrow e offset ?_
      change (getFixed i >>= fun x => _) = _
      rw [hfixed]
      change (getOptions h.ihl_ (i.rest.length + 1) 5 i' >>= fun x => _) = _
      rw [he]
      rfl
  · refine ⟨fun hhas => ?_, fun _ => ?_⟩
    · obtain ⟨h5, hall⟩ := hhas
      omega
    · obtain ⟨e, offset, he⟩ := (getFixed_takes i hi).2 (by omega)
      refine @hthrow e offset ?_
      change (getFixed i >>= fun x => _) = _
      rw [he]
      rfl

/-! ## What comes back -/

/-- The fields are as wide as those of the wire, and the length counts the options. -/
structure Fits (h : Header) : Prop where
  version : h.version_.toNat < 16
  ihl : h.ihl_.toNat = 5 + h.options_.length ∧ h.ihl_.toNat < 16
  dscp : h.dscp_.toNat < 64
  ecn : h.ecn_.toNat < 4
  flags : h.flags_.toNat < 8
  fragmentOffset : h.fragmentOffset_.toNat < 2 ^ 13

/-- Two fields in a byte. -/
theorem toNat_pack {hi lo : UInt8} {k : Nat} (hk : k < 8) (hhi : hi.toNat < 2 ^ (8 - k))
    (hlo : lo.toNat < 2 ^ k) :
    ((hi <<< UInt8.ofNat k) + lo).toNat = hi.toNat * 2 ^ k + lo.toNat := by
  have hk' : (UInt8.ofNat k).toNat = k := UInt8.toNat_ofNat_of_lt' (by change k < 256; omega)
  have hpow : 2 ^ (8 - k) * 2 ^ k = 2 ^ 8 := by
    rw [← Nat.pow_add, Nat.sub_add_cancel (by omega)]
  have hle := Nat.mul_le_mul_right (2 ^ k) (show hi.toNat + 1 ≤ 2 ^ (8 - k) from hhi)
  rw [hpow, Nat.add_mul, Nat.one_mul] at hle
  rw [UInt8.toNat_add, UInt8.toNat_shiftLeft, hk', Nat.mod_eq_of_lt hk, Nat.shiftLeft_eq,
    Nat.mod_eq_of_lt (show hi.toNat * 2 ^ k < 2 ^ 8 by omega)]
  exact Nat.mod_eq_of_lt (by omega)

/-- The upper field is read first. -/
theorem bitsOf_high {hi lo : UInt8} {k : Nat} (hpos : 0 < k) (hk : k < 8)
    (hhi : hi.toNat < 2 ^ (8 - k)) (hlo : lo.toNat < 2 ^ k) :
    bitsOf ((hi <<< UInt8.ofNat k) + lo) (8 - k) 0 = hi := by
  apply UInt8.toNat_inj.mp
  rw [bitsOf_toNat _ (by omega) (by omega), toNat_pack hk hhi hlo,
    show 8 - (8 - k) - 0 = k by omega, Nat.mul_comm, Nat.mul_add_div (Nat.two_pow_pos k),
    Nat.div_eq_of_lt hlo, Nat.add_zero, Nat.mod_eq_of_lt hhi]

theorem bitsOf_low {hi lo : UInt8} {k : Nat} (hpos : 0 < k) (hk : k < 8)
    (hhi : hi.toNat < 2 ^ (8 - k)) (hlo : lo.toNat < 2 ^ k) :
    bitsOf ((hi <<< UInt8.ofNat k) + lo) k (8 - k) = lo := by
  apply UInt8.toNat_inj.mp
  rw [bitsOf_toNat _ (by omega) (by omega), toNat_pack hk hhi hlo,
    show 8 - k - (8 - k) = 0 by omega, Nat.pow_zero, Nat.div_one, Nat.mul_comm,
    Nat.mul_add_mod, Nat.mod_eq_of_lt hlo]

theorem toNat_low8 (x : UInt16) : (x &&& 0xff).toUInt8.toNat = x.toNat % 256 := by
  rw [UInt16.toNat_toUInt8, UInt16.toNat_and]
  have h := Nat.and_two_pow_sub_one_eq_mod x.toNat 8
  change (x.toNat &&& (2 ^ 8 - 1)) % 2 ^ 8 = x.toNat % 256
  rw [h, Nat.mod_mod]

theorem toNat_high8 (x : UInt16) : (x >>> 8).toUInt8.toNat = x.toNat / 256 := by
  have := x.toNat_lt
  rw [UInt16.toNat_toUInt8, UInt16.toNat_shiftRight, Nat.shiftRight_eq_div_pow]
  change x.toNat / 2 ^ 8 % 2 ^ 8 = x.toNat / 256
  omega

theorem toNat_join16 (b c : UInt8) :
    ((b.toUInt16 <<< 8) + c.toUInt16).toNat = b.toNat * 256 + c.toNat := by
  have := b.toNat_lt
  have := c.toNat_lt
  rw [UInt16.toNat_add, UInt16.toNat_shiftLeft, Nat.shiftLeft_eq]
  change (b.toNat * 2 ^ 8 % 2 ^ 16 + c.toNat) % 2 ^ 16 = _
  omega

/-- A word is put together from its bytes. -/
theorem join_word16 (x : UInt16) :
    ((x >>> 8).toUInt8.toUInt16 <<< 8) + (x &&& 0xff).toUInt8.toUInt16 = x := by
  apply UInt16.toNat_inj.mp
  rw [toNat_join16, toNat_high8, toNat_low8]
  omega

theorem toNat_byte32 (x s : UInt32) (hs : s.toNat < 32) :
    ((x >>> s) &&& 0xff).toUInt8.toNat = x.toNat / 2 ^ s.toNat % 256 := by
  rw [UInt32.toNat_toUInt8, UInt32.toNat_and, UInt32.toNat_shiftRight, Nat.mod_eq_of_lt hs,
    Nat.shiftRight_eq_div_pow]
  have h := Nat.and_two_pow_sub_one_eq_mod (x.toNat / 2 ^ s.toNat) 8
  change (_ &&& (2 ^ 8 - 1)) % 2 ^ 8 = _ % 256
  rw [h, Nat.mod_mod]

theorem join_word32 (x : UInt32) :
    ((((x >>> 24).toUInt8.toUInt16 <<< 8) + ((x >>> 16) &&& 0xff).toUInt8.toUInt16).toUInt32 <<< 16)
      + ((((x >>> 8) &&& 0xff).toUInt8.toUInt16 <<< 8)
        + ((x >>> 0) &&& 0xff).toUInt8.toUInt16).toUInt32 = x := by
  have hlt := x.toNat_lt
  have h24 : (x >>> 24).toUInt8.toNat = x.toNat / 2 ^ 24 := by
    rw [UInt32.toNat_toUInt8, UInt32.toNat_shiftRight, Nat.shiftRight_eq_div_pow]
    change x.toNat / 2 ^ 24 % 2 ^ 8 = _
    omega
  apply UInt32.toNat_inj.mp
  rw [UInt32.toNat_add, UInt32.toNat_shiftLeft, UInt16.toNat_toUInt32, UInt16.toNat_toUInt32,
    toNat_join16, toNat_join16, h24, toNat_byte32 x 16 (by decide), toNat_byte32 x 8 (by decide),
    toNat_byte32 x 0 (by decide), Nat.shiftLeft_eq]
  change ((x.toNat / 2 ^ 24 * 256 + x.toNat / 2 ^ 16 % 256) * 2 ^ 16 % 2 ^ 32
    + (x.toNat / 2 ^ 8 % 256 * 256 + x.toNat / 2 ^ 0 % 256)) % 2 ^ 32 = x.toNat
  omega

theorem encodeOptions_eq {ihl : UInt8} {j : Nat} {options : List UInt32}
    (h : ihl.toNat = j + options.length) :
    encodeOptions ihl j options = some (options.flatMap word32) := by
  induction options generalizing j with
  | nil =>
    rw [encodeOptions, if_neg (by rw [not_not, h]; rfl)]
    rfl
  | cons x rest ih =>
    rw [List.length_cons] at h
    rw [encodeOptions, if_pos (by omega), ih (by omega)]
    rfl

theorem getOptions_flatMap {ihl : UInt8} {fuel j : Nat} {options : List UInt32}
    (h : ihl.toNat = j + options.length) (hfuel : options.length < fuel) (suffix : List UInt8)
    (bytes : Nat) :
    getOptions ihl fuel j ⟨options.flatMap word32 ++ suffix, ⟨bytes, 0⟩⟩
      = .ok (options, ⟨suffix, ⟨bytes + 4 * options.length, 0⟩⟩) := by
  induction options generalizing fuel j bytes with
  | nil =>
    obtain ⟨fuel, rfl⟩ : ∃ n, fuel = n + 1 := ⟨fuel - 1, by rw [List.length_nil] at hfuel; omega⟩
    rw [getOptions, if_neg (by rw [not_not, h]; rfl)]
    rfl
  | cons x rest ih =>
    rw [List.length_cons] at h hfuel
    obtain ⟨fuel, rfl⟩ : ∃ n, fuel = n + 1 := ⟨fuel - 1, by omega⟩
    rw [getOptions, if_pos (by omega)]
    have hget := get32Bits_cons "options" (x >>> 24).toUInt8 ((x >>> 16) &&& 0xff).toUInt8
      ((x >>> 8) &&& 0xff).toUInt8 ((x >>> 0) &&& 0xff).toUInt8 (rest.flatMap word32 ++ suffix) bytes
    rw [join_word32] at hget
    have hrest := ih (by omega : ihl.toNat = j + 1 + rest.length) (by omega : rest.length < fuel)
      (bytes + 4)
    rw [show bytes + 4 + 4 * rest.length = bytes + 4 * (rest.length + 1) by omega] at hrest
    exact run_bind_eq_ok.mpr ⟨x, _, hget, run_bind_eq_ok.mpr ⟨rest, _, hrest, rfl⟩⟩

theorem getBits_eq {n p : Nat} {b x : UInt8} (hx : bitsOf b n p = x) (hpos : 0 < n) (h8 : n < 8)
    (hfits : n + p ≤ 8) (name : String) (t : List UInt8) (bytes : Nat) :
    getBits n name ⟨b :: t, ⟨bytes, p⟩⟩
      = .ok (x, if n + p = 8 then ⟨t, ⟨bytes + 1, 0⟩⟩ else ⟨b :: t, ⟨bytes, p + n⟩⟩) := by
  rw [getBits_cons name hpos h8 hfits, hx]

/-- The fields that are written are read. -/
theorem getFixed_encodeFixed {h : Header} (hh : Fits h) (c : UInt16) (suffix : List UInt8)
    (bytes : Nat) :
    getFixed ⟨encodeFixed h c ++ suffix, ⟨bytes, 0⟩⟩
      = .ok ({ h with headerChecksum_ := c, options_ := [] }, ⟨suffix, ⟨bytes + 20, 0⟩⟩) := by
  have hihl : h.ihl_.toNat < 2 ^ 4 := hh.ihl.2
  have hfragment : (h.fragmentOffset_ >>> 8).toUInt8.toNat < 2 ^ 5 := by
    have := hh.fragmentOffset
    rw [toNat_high8]
    omega
  unfold encodeFixed
  simp only [List.append_assoc]
  refine run_bind_eq_ok.mpr ⟨_, _, getBits_eq
    (bitsOf_high (k := 4) (by omega) (by omega) hh.version hihl) (by omega) (by omega) (by omega) ..,
    ?_⟩
  refine run_bind_eq_ok.mpr ⟨_, _, getBits_eq
    (bitsOf_low (k := 4) (by omega) (by omega) hh.version hihl) (by omega) (by omega) (by omega) ..,
    ?_⟩
  refine run_bind_eq_ok.mpr ⟨_, _, getBits_eq
    (bitsOf_high (k := 2) (by omega) (by omega) hh.dscp hh.ecn) (by omega) (by omega) (by omega) ..,
    ?_⟩
  refine run_bind_eq_ok.mpr ⟨_, _, getBits_eq
    (bitsOf_low (k := 2) (by omega) (by omega) hh.dscp hh.ecn) (by omega) (by omega) (by omega) ..,
    ?_⟩
  refine run_bind_eq_ok.mpr ⟨_, _, get16Bits_cons .., ?_⟩
  refine run_bind_eq_ok.mpr ⟨_, _, get16Bits_cons .., ?_⟩
  refine run_bind_eq_ok.mpr ⟨_, _, getBits_eq
    (bitsOf_high (k := 5) (by omega) (by omega) hh.flags hfragment) (by omega) (by omega)
    (by omega) .., ?_⟩
  refine run_bind_eq_ok.mpr ⟨_, _, getBits_eq
    (bitsOf_low (k := 5) (by omega) (by omega) hh.flags hfragment) (by omega) (by omega)
    (by omega) .., ?_⟩
  refine run_bind_eq_ok.mpr ⟨_, _, get8Bits_cons .., ?_⟩
  refine run_bind_eq_ok.mpr ⟨_, _, get8Bits_cons .., ?_⟩
  refine run_bind_eq_ok.mpr ⟨_, _, get8Bits_cons .., ?_⟩
  refine run_bind_eq_ok.mpr ⟨_, _, get16Bits_cons .., ?_⟩
  refine run_bind_eq_ok.mpr ⟨_, _, get32Bits_cons .., ?_⟩
  refine run_bind_eq_ok.mpr ⟨_, _, get32Bits_cons .., ?_⟩
  simp only [join_word16, join_word32]
  rfl

/-- The bytes of a header with a checksum. -/
def bytesOf (h : Header) (c : UInt16) : List UInt8 := encodeFixed h c ++ h.options_.flatMap word32

theorem encodeHeaderWith_eq {h : Header} (hh : Fits h) (c : UInt16) :
    encodeHeaderWith h c = some (bytesOf h c) := by
  rw [encodeHeaderWith, encodeOptions_eq hh.ihl.1]
  rfl

theorem length_bytesOf (h : Header) (c : UInt16) :
    (bytesOf h c).length = 20 + 4 * h.options_.length := by
  have hoptions : ∀ options : List UInt32, (options.flatMap word32).length = 4 * options.length := by
    intro options
    induction options with
    | nil => rfl
    | cons x rest ih =>
      rw [List.flatMap_cons, List.length_append, ih, List.length_cons, word32, List.length_cons,
        List.length_cons, List.length_cons, List.length_cons, List.length_nil]
      omega
  rw [bytesOf, List.length_append, hoptions]
  rfl

/-- A header that was written is read, with the checksum that was written. -/
theorem decodeHeader_bytesOf {h : Header} (hh : Fits h) (c : UInt16) (suffix : List UInt8)
    (bytes : Nat) :
    decodeHeader ⟨bytesOf h c ++ suffix, ⟨bytes, 0⟩⟩
      = .ok ({ h with headerChecksum_ := c },
          ⟨suffix, ⟨bytes + 4 * h.ihl_.toNat, 0⟩⟩) := by
  have hfixed := getFixed_encodeFixed hh c (h.options_.flatMap word32 ++ suffix) bytes
  have hfuel : h.options_.length < (bytesOf h c ++ suffix).length + 1 := by
    rw [List.length_append, length_bytesOf]
    omega
  have hoptions := getOptions_flatMap hh.ihl.1 hfuel suffix (bytes + 20)
  have hbytes : bytes + 20 + 4 * h.options_.length = bytes + 4 * h.ihl_.toNat := by
    rw [hh.ihl.1]
    omega
  rw [hbytes] at hoptions
  rw [← List.append_assoc] at hfixed
  exact run_whileReading (run_bind_eq_ok.mpr ⟨_, _, hfixed,
    run_bind_eq_ok.mpr ⟨_, _, hoptions, rfl⟩⟩)

/-! ## The checksum of a header -/

theorem wordSum_pair (b c : UInt8) (rest : List UInt8) :
    wordSum (b :: c :: rest) = b.toNat * 256 + c.toNat + wordSum rest := rfl

theorem wordSum_word16 (c : UInt16) (rest : List UInt8) :
    wordSum (word16 c ++ rest) = c.toNat + wordSum rest := by
  change (c >>> 8).toUInt8.toNat * 256 + (c &&& 0xff).toUInt8.toNat + wordSum rest = _
  rw [toNat_high8, toNat_low8]
  omega

/-- The checksum adds to the sum of the rest. -/
theorem wordSum_bytesOf (h : Header) (c : UInt16) :
    wordSum (bytesOf h c) = wordSum (bytesOf h 0) + c.toNat := by
  have hsplit : ∃ pre post : List UInt8, 2 ∣ pre.length ∧
      ∀ c, bytesOf h c = pre ++ (word16 c ++ post) := by
    refine ⟨[(h.version_ <<< 4) + h.ihl_, (h.dscp_ <<< 2) + h.ecn_]
      ++ (word16 h.totalLength_ ++ (word16 h.identification_
      ++ [(h.flags_ <<< 5) + (h.fragmentOffset_ >>> 8).toUInt8,
        (h.fragmentOffset_ &&& 0xff).toUInt8, h.ttl_, h.protocol_])),
      word32 h.sourceAddress_ ++ (word32 h.destAddress_ ++ h.options_.flatMap word32), ⟨5, rfl⟩, ?_⟩
    intro c
    rw [bytesOf, encodeFixed]
    simp only [List.append_assoc]
  obtain ⟨pre, post, heven, hbytes⟩ := hsplit
  rw [hbytes, hbytes, wordSum_append heven, wordSum_append heven, wordSum_word16, wordSum_word16]
  change _ = wordSum pre + (0 + wordSum post) + c.toNat
  omega

theorem wordSum_bytesOf_pos {h : Header} (hh : Fits h) : 0 < wordSum (bytesOf h 0) := by
  have hfirst : ∃ b rest, bytesOf h 0 = ((h.version_ <<< 4) + h.ihl_) :: b :: rest := ⟨_, _, rfl⟩
  obtain ⟨b, rest, hbytes⟩ := hfirst
  have hpack := toNat_pack (k := 4) (by omega) hh.version (show h.ihl_.toNat < 2 ^ 4 from hh.ihl.2)
  have hihl := hh.ihl.1
  rw [hbytes, wordSum_pair]
  change ((h.version_ <<< 4) + h.ihl_).toNat = _ at hpack
  omega

/-- Some other word in the place of one, unless each is a zero. -/
def Changes (a b a' b' : UInt8) : Prop :=
  (a, b) ≠ (a', b') ∧ ¬ ((a, b) = (0, 0) ∧ (a', b') = (0xff, 0xff)) ∧
    ¬ ((a, b) = (0xff, 0xff) ∧ (a', b') = (0, 0))

/-- `validate` accepts the bytes, and none that differ in one word. -/
def Protected (bytes : List UInt8) : Prop :=
  validate (makeIterator bytes) = .ok () ∧
    ∀ (pre : List UInt8) (a b : UInt8) (post : List UInt8), bytes = pre ++ a :: b :: post →
      2 ∣ pre.length → ∀ a' b', Changes a b a' b' →
        ∃ e offset, validate (makeIterator (pre ++ a' :: b' :: post)) = .error (.threw e offset)

theorem changes_toNat {a b a' b' : UInt8} (h : Changes a b a' b') :
    ¬ (a.toNat * 256 + b.toNat = a'.toNat * 256 + b'.toNat ∨
      (a.toNat * 256 + b.toNat = 0 ∧ a'.toNat * 256 + b'.toNat = 65535) ∨
      (a.toNat * 256 + b.toNat = 65535 ∧ a'.toNat * 256 + b'.toNat = 0)) := by
  have ha := a.toNat_lt
  have hb := b.toNat_lt
  have ha' := a'.toNat_lt
  have hb' := b'.toNat_lt
  obtain ⟨hne, hzero, hones⟩ := h
  have hzero_iff : ∀ x : UInt8, x = 0 ↔ x.toNat = 0 := fun x => UInt8.toNat_inj.symm
  have hones_iff : ∀ x : UInt8, x = 0xff ↔ x.toNat = 255 := fun x => UInt8.toNat_inj.symm
  simp only [Ne, Prod.mk.injEq, hzero_iff, hones_iff, ← UInt8.toNat_inj] at hne hzero hones
  omega

/-- Bytes whose sum is all ones are protected. -/
theorem protected_of_sum {bytes : List UInt8} (hlen : bytes.length ≤ 60)
    (h : onesSum 65535 (wordSum bytes) = 65535) : Protected bytes := by
  refine ⟨(validate_eq_ok (i := makeIterator bytes) rfl hlen).mpr h, ?_⟩
  rintro pre a b post rfl heven a' b' hchanges
  rw [wordSum_append heven, wordSum_pair] at h
  have hlen' : (pre ++ a' :: b' :: post).length ≤ 60 := by
    simp only [List.length_append, List.length_cons] at hlen ⊢
    exact hlen
  refine ⟨_, _, validate_throws (i := makeIterator (pre ++ a' :: b' :: post)) rfl hlen' ?_⟩
  change onesSum 65535 (wordSum (pre ++ a' :: b' :: post)) ≠ 65535
  rw [wordSum_append heven, wordSum_pair]
  intro h'
  have hword : ∀ x y : UInt8, x.toNat * 256 + y.toNat ≤ 65535 := by
    intro x y
    have := x.toNat_lt
    have := y.toNat_lt
    omega
  have hcomm : ∀ w, wordSum pre + (w + wordSum post) = wordSum pre + wordSum post + w := by omega
  rw [hcomm] at h h'
  exact changes_toNat hchanges (onesSum_replace (by omega) (hword a b) (hword a' b') h h')

/-- `encodeHeader` writes the checksum that completes the header. -/
theorem encodeHeader_eq {h : Header} (hh : Fits h) :
    ∃ c, calculate (makeIterator (bytesOf h 0)) = .ok c ∧ encodeHeader h = some (bytesOf h c) ∧
      Protected (bytesOf h c) := by
  have hlen : ∀ c, (bytesOf h c).length ≤ 60 := by
    intro c
    have := hh.ihl
    rw [length_bytesOf]
    omega
  obtain ⟨c, hc, hvalue⟩ := calculate_eq (i := makeIterator (bytesOf h 0)) rfl (hlen 0)
  refine ⟨c, hc, ?_, protected_of_sum (hlen c) ?_⟩
  · rw [encodeHeader, encodeHeaderWith_eq hh]
    change ((calculate (makeIterator (bytesOf h 0))).toOption >>= fun c => encodeHeaderWith h c) = _
    rw [hc]
    exact encodeHeaderWith_eq hh c
  · rw [wordSum_bytesOf, hvalue]
    exact onesSum_complement (by omega) (wordSum_bytesOf_pos hh)

/-- A header that fits comes back, with the checksum calculated for it, which protects the bytes
written; any bytes that have no header throw, and no others do. -/
theorem decodeHeader_encodeHeader :
    (∀ h, Fits h → ∃ x c bytes,
      encodeHeaderWith h 0 = some x ∧ calculate (makeIterator x) = .ok c ∧
      encodeHeader h = some bytes ∧
      (∀ suffix n, decodeHeader ⟨bytes ++ suffix, ⟨n, 0⟩⟩
        = .ok ({ h with headerChecksum_ := c }, ⟨suffix, ⟨n + bytes.length, 0⟩⟩)) ∧
      Protected bytes) ∧
    ∀ i : Iterator, i.Inside 0 →
      (HasHeader i.rest → ∃ h i', decodeHeader i = .ok (h, i')) ∧
      (¬ HasHeader i.rest → ∃ e offset, decodeHeader i = .error (.threw e offset)) := by
  refine ⟨fun h hh => ?_, fun i hi => decodeHeader_total hi⟩
  obtain ⟨c, hc, hbytes, hprotected⟩ := encodeHeader_eq hh
  refine ⟨bytesOf h 0, c, bytesOf h c, encodeHeaderWith_eq hh 0, hc, hbytes, fun suffix n => ?_,
    hprotected⟩
  have hlen : (bytesOf h c).length = 4 * h.ihl_.toNat := by
    rw [length_bytesOf, hh.ihl.1]
    omega
  rw [hlen]
  exact decodeHeader_bytesOf hh c suffix n

/-- A header of an echo request, with an option and no checksum. -/
def echoRequest : Header :=
  ⟨4, 6, 0, 0, 0x54, 0xbbdb, 2, 0, 0x40, 1, 0, 0xc0a80003, 0xc0a80001, [0x01010101]⟩

theorem fits_echoRequest : Fits echoRequest :=
  ⟨by decide, by decide, by decide, by decide, by decide, by decide⟩

theorem decodeHeader_encodeHeader_echoRequest :
    (∃ x c bytes, encodeHeaderWith echoRequest 0 = some x ∧
      calculate (makeIterator x) = .ok c ∧ encodeHeader echoRequest = some bytes ∧
      (∀ suffix n, decodeHeader ⟨bytes ++ suffix, ⟨n, 0⟩⟩
        = .ok ({ echoRequest with headerChecksum_ := c },
            ⟨suffix, ⟨n + bytes.length, 0⟩⟩)) ∧ Protected bytes) ∧
      (∃ h i', decodeHeader (makeIterator (bytesOf echoRequest 0)) = .ok (h, i')) ∧
      ∃ e offset, decodeHeader (makeIterator [0x44, 0, 0]) = .error (.threw e offset) := by
  have hinside : ∀ bytes, (makeIterator bytes).Inside 0 := fun _ => ⟨rfl, fun h => absurd rfl h⟩
  exact ⟨decodeHeader_encodeHeader.1 echoRequest fits_echoRequest,
    (decodeHeader_encodeHeader.2 _ (hinside _)).1 (by decide),
    (decodeHeader_encodeHeader.2 _ (hinside _)).2 (by decide)⟩

/-- The checksum in the header is not written: the one calculated comes back. And a header that
has a wrong one is read all the same, though it is not the front of anything written. -/
theorem echoRequest_checksum :
    (∃ bytes, encodeHeader echoRequest = some bytes ∧
      ∀ i', decodeHeader (makeIterator bytes) ≠ .ok (echoRequest, i')) ∧
    (∃ h i', decodeHeader (makeIterator (bytesOf echoRequest 0)) = .ok (h, i')) ∧
    ∀ h bytes suffix, Fits h → encodeHeader h = some bytes →
      bytesOf echoRequest 0 ≠ bytes ++ suffix := by
  have hinside : ∀ bytes, (makeIterator bytes).Inside 0 := fun _ => ⟨rfl, fun h => absurd rfl h⟩
  refine ⟨?_, (decodeHeader_total (hinside _)).1 (by decide), ?_⟩
  · obtain ⟨c, hc, hbytes, -⟩ := encodeHeader_eq fits_echoRequest
    obtain ⟨c', hc', hvalue⟩ :=
      calculate_eq (i := makeIterator (bytesOf echoRequest 0)) rfl (by decide)
    rw [hc] at hc'
    cases hc'
    refine ⟨_, hbytes, fun i' h => ?_⟩
    have hback := decodeHeader_bytesOf fits_echoRequest c [] 0
    rw [List.append_nil] at hback
    have heq := congrArg Prod.fst (Except.ok.inj (hback.symm.trans h))
    have hzero : c = 0 := congrArg Header.headerChecksum_ heq
    rw [hzero] at hvalue
    exact absurd hvalue (by decide)
  · intro h bytes suffix hh hbytes hsplit
    obtain ⟨c, -, hencode, hprotected⟩ := encodeHeader_eq hh
    rw [hbytes] at hencode
    cases hencode
    -- the first byte says how long the header is
    have hfirst : (0x46 : UInt8) = (h.version_ <<< 4) + h.ihl_ :=
      congrArg (fun bs => bs.headD 0) hsplit
    have hpack := toNat_pack (k := 4) (by omega) hh.version
      (show h.ihl_.toNat < 2 ^ 4 from hh.ihl.2)
    have hnat := congrArg UInt8.toNat hfirst
    have hihl := hh.ihl
    have hlen := congrArg List.length hsplit
    rw [List.length_append, length_bytesOf, length_bytesOf] at hlen
    change 20 + 4 * 1 = _ at hlen
    change 70 = ((h.version_ <<< 4) + h.ihl_).toNat at hnat
    change ((h.version_ <<< 4) + h.ihl_).toNat = h.version_.toNat * 16 + h.ihl_.toNat at hpack
    obtain rfl : suffix = [] := List.length_eq_zero_iff.mp (by omega)
    rw [List.append_nil] at hsplit
    rw [← hsplit] at hprotected
    have hsum := (validate_eq_ok (i := makeIterator (bytesOf echoRequest 0)) rfl (by decide)).mp
      hprotected.1
    exact absurd hsum (by decide)

end Urnest.Ip
