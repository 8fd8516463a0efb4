import Urnest.Netflow.V5

/-!
# The layout of version 5

`field data i n` is the big-endian number of the `n` bytes at `i`, and `layout` is the
packet that has these numbers in its fields. `decode` reads the same layout, with one
difference (`decode_eq_ok`): up times, times and the times of flows go through an `int`, so
that one with its top bit set is read `2 ^ 32` less (`signed`). Counters and addresses are
made unsigned again.

Decoding returns the packet of the layout where those top bits are clear, and a packet
comes back from `encode` where its times are below `2 ^ 31`
(`conforms_iff`).
-/

namespace Urnest.Netflow.V5

open Lib Xju

/-! ## Fields -/

/-- The big-endian number of `n` bytes. -/
def field (data : List UInt8) (i n : Nat) : Nat := ofBytes ((data.drop i).take n)

/-- What an `int` makes of 32 bits. -/
def signed (n : Nat) : Int := if n < 2 ^ 31 then n else n - 2 ^ 32

/-- The packet header, times read by `time`. -/
def headerOf (time : Nat → Int) (data : List UInt8) : Header where
  routerUpTime_ := time (field data 4 4)
  routerTime_ := seconds (time (field data 8 4)) + time (field data 12 4)
  flowNumberOfFirstFlow_ := .ofNat (field data 16 4)

/-- The record at `i`, times read by `time`. -/
def flowOf (time : Nat → Int) (data : List UInt8) (h : Header) (i : Nat) : Flow where
  srcAddress_ := .ofNat (field data (i + 0) 4)
  srcPort_ := .ofNat (field data (i + 32) 2)
  destAddress_ := .ofNat (field data (i + 4) 4)
  destPort_ := .ofNat (field data (i + 34) 2)
  inputInterfaceSnmpIndex_ := .ofNat (field data (i + 12) 2)
  outputInterfaceSnmpIndex_ := .ofNat (field data (i + 14) 2)
  nextHopRouter_ := .ofNat (field data (i + 8) 4)
  flowStart_ := h.routerStartTime + milliseconds (time (field data (i + 24) 4))
  flowEnd_ := h.routerStartTime + milliseconds (time (field data (i + 28) 4))
  packetsInFlow_ := .ofNat (field data (i + 16) 4)
  bytesInFlow_ := .ofNat (field data (i + 20) 4)
  tcpFlags_ := .ofNat (field data (i + 37) 1)
  ipProtocol_ := .ofNat (field data (i + 38) 1)
  ipTOS_ := .ofNat (field data (i + 39) 1)
  srcNetmaskBits_ := .ofNat (field data (i + 44) 1)
  dstNetmaskBits_ := .ofNat (field data (i + 45) 1)
  bgpSrcAs_ := .ofNat (field data (i + 40) 2)
  bgpDstAs_ := .ofNat (field data (i + 42) 2)

/-- How many records start in the bytes from `i` on. -/
def recordCount (data : List UInt8) (i : Nat) : Nat := (data.length - i + 47) / 48

def packetOf (time : Nat → Int) (data : List UInt8) : Packet :=
  (headerOf time data,
    (List.range (recordCount data 24)).map fun k =>
      flowOf time data (headerOf time data) (24 + 48 * k))

/-- The packet that the layout has in the bytes. -/
def layout (data : List UInt8) : Packet := packetOf (fun n => n) data

/-- The bytes are of version 5 and have every field of the header and of each record. -/
structure Complete (data : List UInt8) : Prop where
  version : field data 0 2 = 5
  header : 20 ≤ data.length
  records : ∀ k < recordCount data 24, 24 + 48 * k + 45 < data.length

/-! ## The helpers -/

variable {data : List UInt8}

theorem field_add (data : List UInt8) (i j n : Nat) :
    field data (i + j) n = field (data.drop i) j n := by
  rw [field, field, List.drop_drop]

theorem field_succ {i : Nat} (h : i < data.length) (n : Nat) :
    field data i (n + 1)
      = (byteAt data i).toNat * 256 ^ min n (data.length - (i + 1)) + field data (i + 1) n := by
  have hbyte : byteAt data i = data[i] := by
    rw [byteAt, List.getD_eq_getElem?_getD, List.getElem?_eq_getElem h, Option.getD_some]
  rw [field, List.drop_eq_getElem_cons h, List.take_succ_cons, ofBytes, field, hbyte,
    List.length_take, List.length_drop]

theorem field_one {i : Nat} (h : i < data.length) : field data i 1 = (byteAt data i).toNat := by
  rw [field_succ h]
  simp [field, ofBytes]

theorem field_two {i : Nat} (h : i + 1 < data.length) :
    field data i 2 = (byteAt data i).toNat * 256 + (byteAt data (i + 1)).toNat := by
  rw [field_succ (by omega), field_one h, Nat.min_eq_left (by omega), pow_one]

theorem field_four {i : Nat} (h : i + 3 < data.length) :
    field data i 4
      = (byteAt data i).toNat * 256 ^ 3 + (byteAt data (i + 1)).toNat * 256 ^ 2
        + (byteAt data (i + 2)).toNat * 256 + (byteAt data (i + 3)).toNat := by
  rw [field_succ (by omega), field_succ (by omega), field_succ (by omega), field_one (by omega),
    Nat.min_eq_left (by omega), Nat.min_eq_left (by omega), Nat.min_eq_left (by omega), pow_one,
    Nat.add_assoc i 1 1, Nat.add_assoc i 2 1]
  omega

/-- The bytes that `get32` shifts and adds. -/
theorem get32_value (a b c d : UInt8) :
    ((a.toUInt32.toInt32 <<< 24) + (b.toUInt32.toInt32 <<< 16)
      + (c.toUInt32.toInt32 <<< 8) + (d.toUInt32.toInt32 <<< 0)).toUInt32.toNat
      = a.toNat * 256 ^ 3 + b.toNat * 256 ^ 2 + c.toNat * 256 + d.toNat := by
  have ha := a.toNat_lt
  have hb := b.toNat_lt
  have hc := c.toNat_lt
  have hd := d.toNat_lt
  change ((a.toUInt32 <<< 24) + (b.toUInt32 <<< 16) + (c.toUInt32 <<< 8)
    + (d.toUInt32 <<< 0)).toNat = _
  simp only [UInt32.toNat_add, UInt32.toNat_shiftLeft, UInt8.toNat_toUInt32, Nat.shiftLeft_eq]
  change (((a.toNat * 2 ^ 24 % 2 ^ 32 + b.toNat * 2 ^ 16 % 2 ^ 32) % 2 ^ 32
    + c.toNat * 2 ^ 8 % 2 ^ 32) % 2 ^ 32 + d.toNat * 2 ^ 0 % 2 ^ 32) % 2 ^ 32 = _
  omega

theorem get16_value (a b : UInt8) :
    ((a.toUInt32.toInt32 <<< 8) + (b.toUInt32.toInt32 <<< 0)).toUInt32.toNat
      = a.toNat * 256 + b.toNat := by
  have ha := a.toNat_lt
  have hb := b.toNat_lt
  change ((a.toUInt32 <<< 8) + (b.toUInt32 <<< 0)).toNat = _
  simp only [UInt32.toNat_add, UInt32.toNat_shiftLeft, UInt8.toNat_toUInt32, Nat.shiftLeft_eq]
  change (a.toNat * 2 ^ 8 % 2 ^ 32 + b.toNat * 2 ^ 0 % 2 ^ 32) % 2 ^ 32 = _
  omega

@[simp] theorem addContext_ok {α : Type} (s : String) (a : α) : addContext s (.ok a) = .ok a := rfl

theorem addContext_eq_ok {α : Type} {s : String} {x : Result α} {a : α} :
    addContext s x = .ok a ↔ x = .ok a := by
  cases x with
  | ok b => exact Iff.rfl
  | error e => exact iff_of_false (fun h => nomatch h) (fun h => nomatch h)

theorem get8_ok {i : Nat} (h : i < data.length) (name : String) :
    get8 data i name = .ok (.ofNat (field data i 1)) := by
  rw [get8, if_neg (by omega), addContext_ok, field_one h, UInt8.ofNat_toNat]

theorem get16_ok {i : Nat} (h : i + 1 < data.length) (name : String) :
    get16 data i name = .ok (UInt32.ofNat (field data i 2)).toInt32 := by
  rw [get16, if_neg (by omega), addContext_ok, field_two h, ← get16_value, UInt32.ofNat_toNat]
  rfl

theorem get32_ok {i : Nat} (h : i + 3 < data.length) (name : String) :
    get32 data i name = .ok (UInt32.ofNat (field data i 4)).toInt32 := by
  rw [get32, if_neg (by omega), addContext_ok, field_four h, ← get32_value, UInt32.ofNat_toNat]
  rfl

theorem lt_of_get8 {i : Nat} {name : String} {x : UInt8} (h : get8 data i name = .ok x) :
    i < data.length := by
  by_contra hlen
  rw [get8, if_pos (by omega)] at h
  cases h

theorem lt_of_get16 {i : Nat} {name : String} {x : Int32} (h : get16 data i name = .ok x) :
    i + 1 < data.length := by
  by_contra hlen
  rw [get16, if_pos (by omega)] at h
  cases h

theorem lt_of_get32 {i : Nat} {name : String} {x : Int32} (h : get32 data i name = .ok x) :
    i + 3 < data.length := by
  by_contra hlen
  rw [get32, if_pos (by omega)] at h
  cases h

theorem field_lt (data : List UInt8) (i n : Nat) : field data i n < 256 ^ n := by
  have hlt := ofBytes_lt ((data.drop i).take n)
  have hle : 256 ^ ((data.drop i).take n).length ≤ 256 ^ n :=
    Nat.pow_le_pow_right (by omega) (List.length_take_le ..)
  exact lt_of_lt_of_le hlt hle

/-- What an `int` has made of a field. -/
theorem toInt_field (data : List UInt8) (i : Nat) :
    (UInt32.ofNat (field data i 4)).toInt32.toInt = signed (field data i 4) := by
  have hlt : field data i 4 < 2 ^ 32 := field_lt data i 4
  have hcond := BitVec.toInt_eq_toNat_cond (UInt32.ofNat (field data i 4)).toBitVec
  have hnat : (UInt32.ofNat (field data i 4)).toBitVec.toNat = field data i 4 :=
    UInt32.toNat_ofNat_of_lt' hlt
  rw [hnat] at hcond
  change (UInt32.ofNat (field data i 4)).toBitVec.toInt = _
  rw [hcond, signed]
  split_ifs <;> omega

theorem asUInt16_field (n : Nat) : asUInt16 (UInt32.ofNat n).toInt32 = .ofNat n := by
  apply UInt16.toNat_inj.mp
  change n % 2 ^ 32 % 2 ^ 16 = n % 2 ^ 16
  omega

theorem toUInt32_field (data : List UInt8) (i : Nat) :
    (UInt16.ofNat (field data i 2)).toUInt32 = .ofNat (field data i 2) := by
  have hlt : field data i 2 < 2 ^ 16 := field_lt data i 2
  apply UInt32.toNat_inj.mp
  change field data i 2 % 2 ^ 16 = field data i 2 % 2 ^ 32
  omega

/-! ## What is decoded -/

theorem getHeader_ok (h : 20 ≤ data.length) : getHeader data = .ok (headerOf signed data) := by
  rw [getHeader, get32_ok (by omega), get32_ok (by omega), get32_ok (by omega),
    get32_ok (by omega), headerOf, ← toInt_field, ← toInt_field, ← toInt_field]
  rfl

theorem length_of_getHeader {h : Header} (hget : getHeader data = .ok h) : 20 ≤ data.length := by
  obtain ⟨flowSequence, hseq, -⟩ := bind_eq_ok.mp hget
  have := lt_of_get32 hseq
  omega

/-- A record needs no more than its first 46 bytes, and all of them. -/
theorem getFlow_ok {i : Nat} (h : Header) (hlen : i + 45 < data.length) :
    getFlow data h i = .ok (flowOf signed data h i) := by
  rw [getFlow, get16_ok (by omega), get16_ok (by omega), get8_ok (by omega), get8_ok (by omega),
    get8_ok (by omega), get8_ok (by omega), get8_ok (by omega), get32_ok (by omega),
    get32_ok (by omega), get32_ok (by omega), get32_ok (by omega), get32_ok (by omega),
    get16_ok (by omega), get16_ok (by omega), get16_ok (by omega), get32_ok (by omega),
    get16_ok (by omega), get32_ok (by omega)]
  refine congrArg Except.ok ?_
  rw [flowOf, ← toInt_field, ← toInt_field]
  simp only [asUInt16_field, toUInt32_field]
  rfl

theorem length_of_getFlow {i : Nat} {h : Header} {r : Flow} (hget : getFlow data h i = .ok r) :
    i + 45 < data.length := by
  obtain ⟨bgpDstAs, -, hget⟩ := bind_eq_ok.mp hget
  obtain ⟨bgpSrcAs, -, hget⟩ := bind_eq_ok.mp hget
  obtain ⟨dstNetmaskBits, hmask, -⟩ := bind_eq_ok.mp hget
  exact lt_of_get8 hmask

theorem recordCount_of_ge {i : Nat} (h : ¬ i < data.length) : recordCount data i = 0 := by
  rw [recordCount]
  omega

theorem recordCount_of_lt {i : Nat} (h : i < data.length) :
    recordCount data i = recordCount data (i + 48) + 1 := by
  rw [recordCount, recordCount]
  omega

/-- The loop reads every record that starts in the data, and each must be there. -/
theorem getFlows_eq_ok {h : Header} {i : Nat} {records rs : List Flow} :
    getFlows data h i records = .ok rs ↔
      (∀ k < recordCount data i, i + 48 * k + 45 < data.length) ∧
        rs = records ++ (List.range (recordCount data i)).map fun k =>
          flowOf signed data h (i + 48 * k) := by
  induction i, records using getFlows.induct data with
  | case1 i records hlt ih =>
    rw [getFlows, if_pos hlt, bind_eq_ok, recordCount_of_lt hlt, List.range_succ_eq_map]
    have hstep : ∀ k, i + 48 * (k + 1) = i + 48 + 48 * k := by omega
    constructor
    · rintro ⟨r, hr, hrest⟩
      rw [addContext_eq_ok] at hr
      have hlen := length_of_getFlow hr
      rw [getFlow_ok h hlen] at hr
      cases hr
      obtain ⟨hall, rfl⟩ := (ih _).mp hrest
      refine ⟨?_, by simp [hstep]⟩
      intro k hk
      cases k with
      | zero => exact hlen
      | succ k =>
        rw [hstep]
        exact hall k (by omega)
    · rintro ⟨hall, rfl⟩
      have hlen : i + 45 < data.length := hall 0 (by omega)
      refine ⟨flowOf signed data h i, ?_, (ih _).mpr ⟨?_, by simp [hstep]⟩⟩
      · rw [getFlow_ok h hlen, addContext_ok]
      · intro k hk
        rw [← hstep]
        exact hall (k + 1) (by omega)
  | case2 i records hge =>
    rw [getFlows, if_neg hge, recordCount_of_ge hge]
    simp [eq_comm]

/-- `decode` returns where the bytes are complete, and then the packet whose times are what an
`int` makes of the fields. -/
theorem decode_eq_ok {x : Packet} : decode data = .ok x ↔ Complete data ∧ x = packetOf signed data := by
  have hversion : ∀ n < 256 ^ 2, (UInt32.ofNat n).toInt32 ≠ 5 ↔ n ≠ 5 := by
    intro n hn
    rw [not_iff_not]
    constructor
    · intro h
      have hnat := congrArg (fun x : Int32 => x.toUInt32.toNat) h
      change n % 2 ^ 32 = 5 at hnat
      omega
    · rintro rfl
      rfl
  rw [decode, addContext_eq_ok, bind_eq_ok]
  constructor
  · rintro ⟨version, hget, h⟩
    have hlen := lt_of_get16 hget
    rw [get16_ok hlen] at hget
    cases hget
    split_ifs at h with h5
    · cases h
    · obtain ⟨header, hheader, h⟩ := bind_eq_ok.mp h
      obtain ⟨records, hrecords, h⟩ := bind_eq_ok.mp h
      cases h
      have h20 := length_of_getHeader hheader
      rw [getHeader_ok h20] at hheader
      cases hheader
      obtain ⟨hall, rfl⟩ := getFlows_eq_ok.mp hrecords
      rw [hversion _ (field_lt data 0 2), not_not] at h5
      exact ⟨⟨h5, h20, hall⟩, rfl⟩
  · rintro ⟨hcomplete, rfl⟩
    have hlen := hcomplete.header
    refine ⟨_, get16_ok (by omega) _, ?_⟩
    rw [if_neg ((hversion _ (field_lt data 0 2)).not.mpr (not_not.mpr hcomplete.version)),
      getHeader_ok hlen]
    exact bind_eq_ok.mpr ⟨_, rfl, bind_eq_ok.mpr ⟨_,
      getFlows_eq_ok.mpr ⟨hcomplete.records, rfl⟩, rfl⟩⟩

/-! ## Times with the top bit set -/

/-- No up time and no time has its top bit set. -/
structure SmallTimes (data : List UInt8) : Prop where
  sysUptime : field data 4 4 < 2 ^ 31
  secs : field data 8 4 < 2 ^ 31
  nsecs : field data 12 4 < 2 ^ 31
  flows : ∀ k < recordCount data 24, field data (24 + 48 * k + 24) 4 < 2 ^ 31 ∧
    field data (24 + 48 * k + 28) 4 < 2 ^ 31

theorem signed_eq_iff (n : Nat) : signed n = n ↔ n < 2 ^ 31 := by
  rw [signed]
  split_ifs <;> omega

theorem headerOf_signed_iff : headerOf signed data = headerOf (fun n => n) data ↔
    field data 4 4 < 2 ^ 31 ∧ field data 8 4 < 2 ^ 31 ∧ field data 12 4 < 2 ^ 31 := by
  simp only [headerOf, Header.mk.injEq, signed_eq_iff, and_true]
  refine and_congr_right fun _ => ?_
  -- seconds and nanoseconds are off by multiples of `2 ^ 32`, both in one direction
  have hsecs : signed (field data 8 4) ≤ field data 8 4 := by
    rw [signed]
    split_ifs <;> omega
  have hnsecs : signed (field data 12 4) ≤ field data 12 4 := by
    rw [signed]
    split_ifs <;> omega
  rw [← signed_eq_iff, ← signed_eq_iff, seconds, seconds]
  omega

theorem flowOf_signed_iff {h : Header} {i : Nat} :
    flowOf signed data h i = flowOf (fun n => n) data h i ↔
      field data (i + 24) 4 < 2 ^ 31 ∧ field data (i + 28) 4 < 2 ^ 31 := by
  have htime : ∀ n : Nat, h.routerStartTime + milliseconds (signed n)
      = h.routerStartTime + milliseconds n ↔ n < 2 ^ 31 := by
    intro n
    rw [← signed_eq_iff, milliseconds, milliseconds]
    omega
  rw [flowOf, flowOf, Flow.mk.injEq, htime, htime]
  tauto

/-- The two readings agree where the top bits are clear, and nowhere else. -/
theorem packetOf_signed_iff : packetOf signed data = layout data ↔ SmallTimes data := by
  rw [layout, packetOf, packetOf, Prod.mk.injEq, headerOf_signed_iff]
  constructor
  · rintro ⟨hheader, hflows⟩
    rw [headerOf_signed_iff.mpr hheader, List.map_inj_left] at hflows
    obtain ⟨h4, h8, h12⟩ := hheader
    exact ⟨h4, h8, h12, fun k hk => flowOf_signed_iff.mp (hflows k (List.mem_range.mpr hk))⟩
  · rintro ⟨h4, h8, h12, hflows⟩
    refine ⟨⟨h4, h8, h12⟩, ?_⟩
    rw [headerOf_signed_iff.mpr ⟨h4, h8, h12⟩, List.map_inj_left]
    exact fun k hk => flowOf_signed_iff.mpr (hflows k (List.mem_range.mp hk))

/-! ## What is written -/

theorem ofBytes_put8 (n : UInt8) : ofBytes (put8 n) = n.toNat := by
  simp [put8, ofBytes]

theorem ofBytes_put16 (n : UInt16) : ofBytes (put16 n) = n.toNat := by
  have hlt := n.toNat_lt
  have h8 : (n >>> 8).toUInt8.toNat = n.toNat / 2 ^ 8 % 2 ^ 8 := by
    rw [UInt16.toNat_toUInt8, UInt16.toNat_shiftRight, Nat.shiftRight_eq_div_pow]
    rfl
  have h0 : (n >>> 0).toUInt8.toNat = n.toNat % 2 ^ 8 := by
    rw [UInt16.toNat_toUInt8, UInt16.toNat_shiftRight]
    rfl
  simp only [put16, ofBytes, h8, h0, List.length_cons, List.length_nil]
  omega

theorem ofBytes_put32 (n : UInt32) : ofBytes (put32 n) = n.toNat := by
  have hlt := n.toNat_lt
  have hbyte : ∀ s : UInt32, s.toNat < 32 →
      (n >>> s).toUInt8.toNat = n.toNat / 2 ^ s.toNat % 2 ^ 8 := by
    intro s hs
    rw [UInt32.toNat_toUInt8, UInt32.toNat_shiftRight, Nat.mod_eq_of_lt hs,
      Nat.shiftRight_eq_div_pow]
  simp only [put32, ofBytes, hbyte 24 (by decide), hbyte 16 (by decide), hbyte 8 (by decide),
    hbyte 0 (by decide), List.length_cons, List.length_nil]
  change n.toNat / 2 ^ 24 % 2 ^ 8 * 256 ^ 3 + (n.toNat / 2 ^ 16 % 2 ^ 8 * 256 ^ 2
    + (n.toNat / 2 ^ 8 % 2 ^ 8 * 256 ^ 1 + (n.toNat / 2 ^ 0 % 2 ^ 8 * 256 ^ 0 + 0))) = _
  omega

/-- A number of 32 bits is written as it is. -/
theorem toNat_ofInt {x : Int} (h0 : 0 ≤ x) (h : x < 2 ^ 32) :
    ((UInt32.ofInt x).toNat : Int) = x := by
  have hmod : x % 2 ^ 32 = x := Int.emod_eq_of_lt h0 h
  change (((x % 2 ^ 32).toNat % 2 ^ 32 : Nat) : Int) = x
  rw [hmod]
  omega

theorem length_put8 (n : UInt8) : (put8 n).length = 1 := rfl

theorem length_put16 (n : UInt16) : (put16 n).length = 2 := rfl

theorem length_put32 (n : UInt32) : (put32 n).length = 4 := rfl

theorem length_putHeader (x : Header) (size : Nat) : (putHeader x size).length = 24 := by
  unfold putHeader
  simp only [List.length_append, length_put8, length_put16, length_put32]

theorem length_putFlow (start : Int) (f : Flow) : (putFlow start f).length = 48 := by
  unfold putFlow
  simp only [List.length_append, length_put8, length_put16, length_put32]

/-- The bytes of a packet. -/
def bytesOf (x : Packet) : List UInt8 :=
  putHeader x.1 x.2.length ++ x.2.flatMap (putFlow x.1.routerStartTime)

theorem length_flatMap_putFlow (start : Int) (fs : List Flow) :
    (fs.flatMap (putFlow start)).length = 48 * fs.length := by
  induction fs with
  | nil => rfl
  | cons f fs ih =>
    rw [List.flatMap_cons, List.length_append, ih, length_putFlow, List.length_cons]
    omega

theorem length_bytesOf (x : Packet) : (bytesOf x).length = 24 + 48 * x.2.length := by
  rw [bytesOf, List.length_append, length_putHeader, length_flatMap_putFlow]

/-- No assertion of `encode` fails. -/
theorem encode_eq (x : Packet) : encode x = some (bytesOf x) := by
  rw [encode]
  dsimp only
  rw [if_pos (length_putHeader ..)]
  exact if_pos (length_bytesOf x)

theorem drop_flatMap_putFlow (start : Int) (fs : List Flow) (k : Nat) :
    (fs.flatMap (putFlow start)).drop (48 * k) = (fs.drop k).flatMap (putFlow start) := by
  induction k generalizing fs with
  | zero => rfl
  | succ k ih =>
    cases fs with
    | nil => simp
    | cons f fs =>
      have hlen : 48 * (k + 1) = (putFlow start f).length + 48 * k := by
        rw [length_putFlow]
        omega
      rw [List.flatMap_cons, hlen, List.drop_length_add_append, ih, List.drop_succ_cons]

/-- Where the record of a flow begins. -/
theorem drop_bytesOf (x : Packet) {k : Nat} (hk : k < x.2.length) :
    ∃ rest, (bytesOf x).drop (24 + 48 * k) = putFlow x.1.routerStartTime x.2[k] ++ rest := by
  refine ⟨(x.2.drop (k + 1)).flatMap (putFlow x.1.routerStartTime), ?_⟩
  rw [bytesOf, ← length_putHeader x.1 x.2.length, List.drop_length_add_append,
    drop_flatMap_putFlow, List.drop_eq_getElem_cons hk, List.flatMap_cons]

/-! ## What comes back -/

/-- A flow fits the wire format of a router started at `start`: its interface indexes are of
16 bits, and its times so many whole milliseconds later. -/
structure Flow.Fits (start : Int) (f : Flow) : Prop where
  inputInterface : f.inputInterfaceSnmpIndex_.toNat < 2 ^ 16
  outputInterface : f.outputInterfaceSnmpIndex_.toNat < 2 ^ 16
  flowStart : ∃ n : Nat, n < 2 ^ 32 ∧ f.flowStart_ = start + milliseconds n
  flowEnd : ∃ n : Nat, n < 2 ^ 32 ∧ f.flowEnd_ = start + milliseconds n

/-- A packet fits the wire format. -/
structure Fits (x : Packet) : Prop where
  upTime : 0 ≤ x.1.routerUpTime_ ∧ x.1.routerUpTime_ < 2 ^ 32
  time : 0 ≤ x.1.routerTime_ ∧ x.1.routerTime_ < seconds (2 ^ 32)
  count : x.2.length ≤ 65535
  flows : ∀ f ∈ x.2, f.Fits x.1.routerStartTime

/-- The up time, the time and the times of flows relative to router start are below `2 ^ 31`
of their units. -/
structure Low (x : Packet) : Prop where
  upTime : x.1.routerUpTime_ < 2 ^ 31
  time : x.1.routerTime_ < seconds (2 ^ 31)
  flows : ∀ f ∈ x.2, f.flowStart_ - x.1.routerStartTime < milliseconds (2 ^ 31) ∧
    f.flowEnd_ - x.1.routerStartTime < milliseconds (2 ^ 31)

/-- The milliseconds written for a time. -/
def relative (start time : Int) : Nat := (UInt32.ofInt ((time - start).tdiv 1000000)).toNat

theorem relative_eq {start time : Int} (h : ∃ n : Nat, n < 2 ^ 32 ∧ time = start + milliseconds n) :
    start + milliseconds (relative start time) = time := by
  obtain ⟨n, hn, rfl⟩ := h
  have hdiv : (start + milliseconds n - start).tdiv 1000000 = n := by
    rw [milliseconds, add_sub_cancel_left]
    exact Int.mul_tdiv_cancel _ (by decide)
  rw [relative, hdiv, toNat_ofInt (by omega) (by omega)]

theorem field_flowStart {i : Nat} {start : Int} {f : Flow} {rest : List UInt8}
    (h : data.drop i = putFlow start f ++ rest) :
    field data (i + 24) 4 = relative start f.flowStart_ ∧
      field data (i + 28) 4 = relative start f.flowEnd_ := by
  unfold putFlow at h
  simp only [List.append_assoc] at h
  rw [field_add, field_add, h]
  exact ⟨ofBytes_put32 _, ofBytes_put32 _⟩

/-- The layout has the flow that was written. -/
theorem flowOf_putFlow {i : Nat} {header : Header} {f : Flow} {rest : List UInt8}
    (hf : f.Fits header.routerStartTime)
    (h : data.drop i = putFlow header.routerStartTime f ++ rest) :
    flowOf (fun n => n) data header i = f := by
  obtain ⟨hstart, hend⟩ := field_flowStart h
  have hin : UInt32.ofNat f.inputInterfaceSnmpIndex_.toUInt16.toNat
      = f.inputInterfaceSnmpIndex_ := by
    rw [UInt32.toNat_toUInt16, Nat.mod_eq_of_lt hf.inputInterface, UInt32.ofNat_toNat]
  have hout : UInt32.ofNat f.outputInterfaceSnmpIndex_.toUInt16.toNat
      = f.outputInterfaceSnmpIndex_ := by
    rw [UInt32.toNat_toUInt16, Nat.mod_eq_of_lt hf.outputInterface, UInt32.ofNat_toNat]
  unfold putFlow at h
  simp only [List.append_assoc] at h
  rw [flowOf, hstart, hend, relative_eq hf.flowStart, relative_eq hf.flowEnd]
  simp only [field_add data i, h]
  change ({
    srcAddress_ := .ofNat (ofBytes (put32 f.srcAddress_))
    srcPort_ := .ofNat (ofBytes (put16 f.srcPort_))
    destAddress_ := .ofNat (ofBytes (put32 f.destAddress_))
    destPort_ := .ofNat (ofBytes (put16 f.destPort_))
    inputInterfaceSnmpIndex_ := .ofNat (ofBytes (put16 f.inputInterfaceSnmpIndex_.toUInt16))
    outputInterfaceSnmpIndex_ := .ofNat (ofBytes (put16 f.outputInterfaceSnmpIndex_.toUInt16))
    nextHopRouter_ := .ofNat (ofBytes (put32 f.nextHopRouter_))
    flowStart_ := f.flowStart_
    flowEnd_ := f.flowEnd_
    packetsInFlow_ := .ofNat (ofBytes (put32 f.packetsInFlow_))
    bytesInFlow_ := .ofNat (ofBytes (put32 f.bytesInFlow_))
    tcpFlags_ := .ofNat (ofBytes (put8 f.tcpFlags_))
    ipProtocol_ := .ofNat (ofBytes (put8 f.ipProtocol_))
    ipTOS_ := .ofNat (ofBytes (put8 f.ipTOS_))
    srcNetmaskBits_ := .ofNat (ofBytes (put8 f.srcNetmaskBits_))
    dstNetmaskBits_ := .ofNat (ofBytes (put8 f.dstNetmaskBits_))
    bgpSrcAs_ := .ofNat (ofBytes (put16 f.bgpSrcAs_))
    bgpDstAs_ := .ofNat (ofBytes (put16 f.bgpDstAs_)) } : Flow) = f
  simp only [ofBytes_put8, ofBytes_put16, ofBytes_put32, UInt8.ofNat_toNat, UInt16.ofNat_toNat,
    UInt32.ofNat_toNat, hin, hout]

/-- The fields of the header that was written. -/
theorem field_bytesOf (x : Packet) :
    field (bytesOf x) 0 2 = 5 ∧
      field (bytesOf x) 4 4 = (UInt32.ofInt x.1.routerUpTime_).toNat ∧
      field (bytesOf x) 8 4 = (UInt32.ofInt (x.1.routerTime_.tdiv 1000000000)).toNat ∧
      field (bytesOf x) 12 4
        = (UInt32.ofInt (x.1.routerTime_ - seconds (x.1.routerTime_.tdiv 1000000000))).toNat ∧
      field (bytesOf x) 16 4 = x.1.flowNumberOfFirstFlow_.toNat := by
  unfold bytesOf putHeader
  simp only [List.append_assoc]
  exact ⟨ofBytes_put16 _, ofBytes_put32 _, ofBytes_put32 _, ofBytes_put32 _, ofBytes_put32 _⟩

theorem recordCount_bytesOf (x : Packet) : recordCount (bytesOf x) 24 = x.2.length := by
  rw [recordCount, length_bytesOf]
  omega

theorem complete_bytesOf (x : Packet) : Complete (bytesOf x) := by
  have hlen := length_bytesOf x
  refine ⟨(field_bytesOf x).1, by omega, fun k hk => ?_⟩
  rw [recordCount_bytesOf] at hk
  omega

/-- Seconds and nanoseconds of a time after the epoch. -/
theorem time_parts {time : Int} (h0 : 0 ≤ time) (h : time < seconds (2 ^ 32)) :
    ((UInt32.ofInt (time.tdiv 1000000000)).toNat : Int) = time / 1000000000 ∧
      ((UInt32.ofInt (time - seconds (time.tdiv 1000000000))).toNat : Int)
        = time % 1000000000 := by
  rw [seconds] at h
  rw [seconds, Int.tdiv_eq_ediv_of_nonneg h0, toNat_ofInt (by omega) (by omega),
    toNat_ofInt (by omega) (by omega)]
  omega

/-- `encode` writes the packet whose layout it is. -/
theorem layout_bytesOf {x : Packet} (hx : Fits x) : layout (bytesOf x) = x := by
  obtain ⟨-, h4, h8, h12, h16⟩ := field_bytesOf x
  obtain ⟨hsecs, hnsecs⟩ := time_parts hx.time.1 hx.time.2
  have hheader : headerOf (fun n => n) (bytesOf x) = x.1 := by
    rw [headerOf, h4, h8, h12, h16, toNat_ofInt hx.upTime.1 hx.upTime.2, hsecs, hnsecs,
      UInt32.ofNat_toNat]
    have htime : seconds (x.1.routerTime_ / 1000000000) + x.1.routerTime_ % 1000000000
        = x.1.routerTime_ := by
      rw [seconds]
      omega
    rw [htime]
  rw [layout, packetOf, hheader, recordCount_bytesOf]
  refine Prod.ext rfl (List.ext_getElem (by simp) fun k hk hk' => ?_)
  rw [List.getElem_map, List.getElem_range]
  obtain ⟨rest, hrest⟩ := drop_bytesOf x hk'
  exact flowOf_putFlow (hx.flows _ (List.getElem_mem hk')) hrest

theorem smallTimes_bytesOf_iff {x : Packet} (hx : Fits x) : SmallTimes (bytesOf x) ↔ Low x := by
  obtain ⟨-, h4, h8, h12, -⟩ := field_bytesOf x
  obtain ⟨hsecs, hnsecs⟩ := time_parts hx.time.1 hx.time.2
  have hup := toNat_ofInt hx.upTime.1 hx.upTime.2
  have hrelative : ∀ time : Int,
      (∃ n : Nat, n < 2 ^ 32 ∧ time = x.1.routerStartTime + milliseconds n) →
      (relative x.1.routerStartTime time < 2 ^ 31 ↔
        time - x.1.routerStartTime < milliseconds (2 ^ 31)) := by
    intro time htime
    have := relative_eq htime
    rw [milliseconds] at this
    rw [milliseconds]
    omega
  have hflow : ∀ (k : Nat) (hk : k < x.2.length),
      field (bytesOf x) (24 + 48 * k + 24) 4 < 2 ^ 31 ∧
          field (bytesOf x) (24 + 48 * k + 28) 4 < 2 ^ 31 ↔
        x.2[k].flowStart_ - x.1.routerStartTime < milliseconds (2 ^ 31) ∧
          x.2[k].flowEnd_ - x.1.routerStartTime < milliseconds (2 ^ 31) := by
    intro k hk
    have hfits := hx.flows _ (List.getElem_mem hk)
    obtain ⟨rest, hrest⟩ := drop_bytesOf x hk
    obtain ⟨hstart, hend⟩ := field_flowStart hrest
    rw [hstart, hend, hrelative _ hfits.flowStart, hrelative _ hfits.flowEnd]
  constructor
  · intro h
    have hsysUptime := h.sysUptime
    have hsecs' := h.secs
    rw [h4] at hsysUptime
    rw [h8] at hsecs'
    refine ⟨by omega, by rw [seconds]; omega, fun f hf => ?_⟩
    obtain ⟨k, hk, rfl⟩ := List.mem_iff_getElem.mp hf
    exact (hflow k hk).mp (h.flows k (by rwa [recordCount_bytesOf]))
  · intro h
    have hlow := h.time
    have hlow' := h.upTime
    rw [seconds] at hlow
    refine ⟨by rw [h4]; omega, by rw [h8]; omega, by rw [h12]; omega, fun k hk => ?_⟩
    rw [recordCount_bytesOf] at hk
    exact (hflow k hk).mpr (h.flows _ (List.getElem_mem hk))

/-- A packet is written and comes back. -/
def RoundTrips (x : Packet) : Prop := ∃ bytes, encode x = some bytes ∧ decode bytes = .ok x

/-- Decoding throws, or returns the packet of the layout. -/
def FollowsLayout (data : List UInt8) : Prop := ∀ x, decode data = .ok x → x = layout data

/-- The header of a router that has been up for an hour, with one flow of two seconds. -/
def hourUp : Packet :=
  (⟨3600000, 1700000000000000005, 7⟩,
    [⟨0xc0a80102, 80, 0xc1a91357, 443, 3, 9, 0xbc362101, 1699996400000000005,
      1699996402000000005, 21284, 2110124, 7, 17, 3, 24, 16, 35, 119⟩])

end Urnest.Netflow.V5
