import Mathlib
import Urnest.Ssh.Stream

/-!
# SSH packets

What encodePacket.hcp and decodePacket.hcp, and the ciphers `None` and `AES256ctr`, make of
the body of a packet. How much padding there is, and its bytes, is chosen at random; the
choices are an argument here. `AES256ctr` is a key stream that both sides have, and how much
of it is used up.

The encoded packet is a whole number of blocks with 4 to 255 bytes of padding
(`packetSize_spec`), and is read back from the stream to its last byte
(`reads_decryptPacket`).
-/

namespace Urnest.Ssh

/-! ## Encoding -/

/-- What is chosen at random for a packet -/
structure Choices where
  extraBlocks : Nat
  padding : Nat → UInt8

/-- The loop for the minimum requirements, on `actualSize` -/
def grow (blockSize bodySize actualSize : Nat) (h : 0 < blockSize) : Nat :=
  if actualSize - 4 - bodySize - 1 < 4 ∨ actualSize < 16 then
    grow blockSize bodySize (actualSize + blockSize) h
  else actualSize
termination_by bodySize + 25 - actualSize
decreasing_by omega

/-- `actualSize`, of the whole packet -/
def packetSize (blockSize bodySize extraBlocks : Nat) : Nat :=
  let useBlockSize := max blockSize 8
  let minSize := 4 + 1 + bodySize
  let minBlocks := (minSize + useBlockSize - 1) / useBlockSize
  let minPaddingBytes := minBlocks * useBlockSize - minSize
  let maxExtraBlocks := (255 - minPaddingBytes) / useBlockSize
  grow useBlockSize bodySize (useBlockSize * (minBlocks + min extraBlocks maxExtraBlocks))
    (Nat.lt_of_lt_of_le (by decide) (Nat.le_max_right ..))

/-- The padding of a packet -/
def paddingOf (blockSize bodySize : Nat) (choices : Choices) : Bytes :=
  (List.range (packetSize blockSize bodySize choices.extraBlocks - 4 - bodySize - 1)).map
    choices.padding

/-- `encodePacket` -/
def encodePacket (blockSize : Nat) (body : Bytes) (choices : Choices) : Bytes :=
  let padding := paddingOf blockSize body.length choices
  put32 (UInt32.ofNat (packetSize blockSize body.length choices.extraBlocks - 4)) ++
    (put8 (UInt8.ofNat padding.length) ++ (body ++ padding))

/-- `decodePacket`: the body and the padding -/
def decodePacket (maxBodyBytes : Nat) : Decoder (Bytes × Bytes) := do
  let packetLength ← get32
  if packetLength.toNat < 1 then throw .emptyPacket
  let paddingLength ← get8
  if packetLength.toNat - 1 < paddingLength.toNat then
    throw (.paddingOverruns paddingLength.toNat packetLength.toNat)
  if maxBodyBytes < packetLength.toNat - paddingLength.toNat - 1 then
    throw (.tooLong (packetLength.toNat - paddingLength.toNat - 1) maxBodyBytes)
  let body ← getN (packetLength.toNat - paddingLength.toNat - 1)
  let padding ← getN paddingLength.toNat
  return (body.1, padding.1)

/-! ## Ciphers -/

inductive Cipher where
  | none
  | aes256ctr (keyStream : Nat → UInt8)

/-- Bytes that are encrypted, or decrypted, from a position of the key stream on -/
def xorFrom (keyStream : Nat → UInt8) : Nat → Bytes → Bytes
  | _, [] => []
  | i, x :: xs => (x ^^^ keyStream i) :: xorFrom keyStream (i + 1) xs

namespace Cipher

def blockSize : Cipher → Nat
  | none => 8
  | aes256ctr _ => 16

/-- `encryptPacket`, from position `i` of the key stream on -/
def encryptPacket (cipher : Cipher) (i : Nat) (body : Bytes) (choices : Choices) : Bytes :=
  let packet := encodePacket cipher.blockSize body choices
  match cipher with
  | none => packet
  | aes256ctr keyStream => xorFrom keyStream i packet

/-- So many blocks, decrypted -/
def decryptBlocks (keyStream : Nat → UInt8) (i : Nat) : Nat → Decoder Bytes
  | 0 => return []
  | n + 1 => do
    let block ← getN 16
    let others ← decryptBlocks keyStream (i + 16) n
    return xorFrom keyStream i block.1 ++ others

/-- The length in the first bytes of a packet -/
def packetLength (decrypted : Bytes) : UInt32 :=
  (decrypted.take 4).foldl (fun length b => (length <<< 8) + b.toUInt32) 0

/-- What is in memory is decoded; what is behind the packet in it is not looked at. -/
def decodeAll (maxBytes : Nat) (decrypted : Bytes) : Decoder (Bytes × Bytes) :=
  match decodePacket maxBytes decrypted with
  | .ok (x, _) => return x
  | .error e => throw e

/-- `decryptPacket`: the body and the padding, and the position that the key stream is at -/
def decryptPacket (cipher : Cipher) (i maxBytes : Nat) : Decoder ((Bytes × Bytes) × Nat) :=
  match cipher with
  | none => do
    let x ← decodePacket maxBytes
    return (x, i)
  | aes256ctr keyStream => do
    let block ← getN 16
    let first := xorFrom keyStream i block.1
    let length := packetLength first + 4
    if maxBytes < length.toNat then throw (.tooLong length.toNat maxBytes)
    if length.toNat % 16 ≠ 0 then throw (.partialBlock length.toNat)
    let others ← decryptBlocks keyStream (i + 16) (length.toNat / 16 - 1)
    let x ← decodeAll maxBytes (first ++ others)
    return (x, i + 16 + 16 * (length.toNat / 16 - 1))

/-- How far the key stream is after a packet -/
def after (cipher : Cipher) (i bodySize extraBlocks : Nat) : Nat :=
  match cipher with
  | none => i
  | aes256ctr _ => i + packetSize 16 bodySize extraBlocks

end Cipher

/-! ## Sizes -/

/-- The loop ends with what is required, and keeps that the padding fits a byte. -/
theorem grow_spec {blockSize bodySize actualSize : Nat} (h : 0 < blockSize) (hle : blockSize ≤ 252)
    (hdvd : blockSize ∣ actualSize) (hmin : bodySize + 5 ≤ actualSize)
    (hmax : actualSize ≤ bodySize + 5 + 255) :
    blockSize ∣ grow blockSize bodySize actualSize h ∧
      bodySize + 5 + 4 ≤ grow blockSize bodySize actualSize h ∧
      16 ≤ grow blockSize bodySize actualSize h ∧
      grow blockSize bodySize actualSize h ≤ bodySize + 5 + 255 := by
  induction actualSize using grow.induct blockSize bodySize h with
  | case1 actualSize hsmall ih =>
    rw [grow, if_pos hsmall]
    -- a packet that is too small has no block that is larger
    have hblock : blockSize ≤ actualSize := Nat.le_of_dvd (by omega) hdvd
    exact ih (Nat.dvd_add hdvd (Nat.dvd_refl _)) (by omega) (by omega)
  | case2 actualSize hsmall =>
    rw [grow, if_neg hsmall]
    exact ⟨hdvd, by omega, by omega, hmax⟩

theorem packetSize_spec (blockSize : Nat) (hmin : 8 ≤ blockSize) (hmax : blockSize ≤ 252)
    (bodySize extraBlocks : Nat) :
    blockSize ∣ packetSize blockSize bodySize extraBlocks ∧
      bodySize + 5 + 4 ≤ packetSize blockSize bodySize extraBlocks ∧
      16 ≤ packetSize blockSize bodySize extraBlocks ∧
      packetSize blockSize bodySize extraBlocks ≤ bodySize + 5 + 255 := by
  have huse : max blockSize 8 = blockSize := Nat.max_eq_left hmin
  simp only [packetSize, huse]
  -- so many blocks as are needed, with less than a block of padding
  have hblocks : 4 + 1 + bodySize ≤ (4 + 1 + bodySize + blockSize - 1) / blockSize * blockSize := by
    have hlt := Nat.lt_div_mul_add (a := 4 + 1 + bodySize + blockSize - 1) (show 0 < blockSize by omega)
    omega
  have hextra : ∀ n, min extraBlocks ((255 - n) / blockSize) * blockSize ≤ 255 - n := fun n =>
    Nat.le_trans (Nat.mul_le_mul_right _ (Nat.min_le_right ..)) (Nat.div_mul_le_self ..)
  refine grow_spec _ hmax (Nat.dvd_mul_right ..) ?_ ?_ <;>
    rw [Nat.mul_comm, Nat.add_mul]
  · omega
  · have hle := hextra ((4 + 1 + bodySize + blockSize - 1) / blockSize * blockSize - (4 + 1 + bodySize))
    have hdiv := Nat.div_mul_le_self (4 + 1 + bodySize + blockSize - 1) blockSize
    omega

theorem length_paddingOf (blockSize bodySize : Nat) (choices : Choices) :
    (paddingOf blockSize bodySize choices).length =
      packetSize blockSize bodySize choices.extraBlocks - 4 - bodySize - 1 := by
  simp [paddingOf]

/-- As RFC 4253 wants it, and `calculatePacketMac` -/
theorem length_paddingOf_spec {blockSize : Nat} (hmin : 8 ≤ blockSize) (hmax : blockSize ≤ 252)
    (bodySize : Nat) (choices : Choices) :
    4 ≤ (paddingOf blockSize bodySize choices).length ∧
      (paddingOf blockSize bodySize choices).length ≤ 255 := by
  obtain ⟨-, hleast, -, hmost⟩ := packetSize_spec _ hmin hmax bodySize choices.extraBlocks
  rw [length_paddingOf]
  omega

theorem length_put32 (x : UInt32) : (put32 x).length = 4 := rfl

theorem length_encodePacket (blockSize : Nat) (hmin : 8 ≤ blockSize) (hmax : blockSize ≤ 252)
    (body : Bytes) (choices : Choices) :
    (encodePacket blockSize body choices).length =
      packetSize blockSize body.length choices.extraBlocks := by
  obtain ⟨-, hleast, -, -⟩ := packetSize_spec _ hmin hmax body.length choices.extraBlocks
  rw [encodePacket, List.length_append, List.length_append, List.length_append, length_put32,
    length_paddingOf, put8, List.length_singleton]
  omega

/-! ## Reading packets back -/

theorem reads_decodePacket (blockSize : Nat) {maxBytes : Nat} {body : Bytes} (choices : Choices)
    (hmin : 8 ≤ blockSize) (hmax : blockSize ≤ 252)
    (hsize : packetSize blockSize body.length choices.extraBlocks < 2 ^ 32)
    (hbytes : body.length ≤ maxBytes) :
    Reads (decodePacket maxBytes) (encodePacket blockSize body choices)
      (body, paddingOf blockSize body.length choices) := by
  obtain ⟨-, hleast, -, hmost⟩ := packetSize_spec _ hmin hmax body.length choices.extraBlocks
  have hpadding := length_paddingOf blockSize body.length choices
  have hlength : (UInt32.ofNat (packetSize blockSize body.length choices.extraBlocks - 4)).toNat =
      packetSize blockSize body.length choices.extraBlocks - 4 :=
    UInt32.toNat_ofNat_of_lt (show _ < 2 ^ 32 by omega)
  have hbyte : (UInt8.ofNat (paddingOf blockSize body.length choices).length).toNat =
      (paddingOf blockSize body.length choices).length :=
    UInt8.toNat_ofNat_of_lt (show _ < 2 ^ 8 by omega)
  have hbody : packetSize blockSize body.length choices.extraBlocks - 4 -
      (paddingOf blockSize body.length choices).length - 1 = body.length := by
    omega
  refine (reads_get32 _).bind (.check (by omega) ((reads_get8 _).bind (.check (by omega)
    (.check ?_ ?_))))
  · rw [hlength, hbyte, hbody]
    omega
  · rw [hlength, hbyte, hbody]
    exact (reads_getN ⟨body, rfl⟩).bind (Reads.map (reads_getN ⟨_, rfl⟩))

theorem length_xorFrom (keyStream : Nat → UInt8) (i : Nat) (bytes : Bytes) :
    (xorFrom keyStream i bytes).length = bytes.length := by
  induction bytes generalizing i with
  | nil => rfl
  | cons x xs ih => exact congrArg (· + 1) (ih (i + 1))

theorem xorFrom_append (keyStream : Nat → UInt8) (i : Nat) (xs ys : Bytes) :
    xorFrom keyStream i (xs ++ ys) =
      xorFrom keyStream i xs ++ xorFrom keyStream (i + xs.length) ys := by
  induction xs generalizing i with
  | nil => rfl
  | cons x xs ih =>
    rw [List.cons_append, xorFrom, ih, xorFrom, List.cons_append, List.length_cons,
      Nat.add_assoc, Nat.add_comm 1]

theorem xorFrom_block (keyStream : Nat → UInt8) (i : Nat) {bytes : Bytes}
    (h : 16 ≤ bytes.length) :
    xorFrom keyStream i bytes =
      xorFrom keyStream i (bytes.take 16) ++ xorFrom keyStream (i + 16) (bytes.drop 16) := by
  have hblock := xorFrom_append keyStream i (bytes.take 16) (bytes.drop 16)
  rwa [List.take_append_drop, List.length_take_of_le h] at hblock

/-- The same key stream decrypts. -/
theorem xorFrom_xorFrom (keyStream : Nat → UInt8) (i : Nat) (bytes : Bytes) :
    xorFrom keyStream i (xorFrom keyStream i bytes) = bytes := by
  induction bytes generalizing i with
  | nil => rfl
  | cons x xs ih => rw [xorFrom, xorFrom, ih, UInt8.xor_assoc, UInt8.xor_self, UInt8.xor_zero]

namespace Cipher

/-- A block is decrypted at the position at which it was encrypted. -/
theorem reads_decryptBlocks (keyStream : Nat → UInt8) (i n : Nat) {bytes : Bytes}
    (h : bytes.length = 16 * n) :
    Reads (decryptBlocks keyStream i n) (xorFrom keyStream i bytes) bytes := by
  induction n generalizing i bytes with
  | zero =>
    obtain rfl := List.length_eq_zero_iff.mp h
    exact Reads.pure []
  | succ n ih =>
    have hlength : 16 ≤ bytes.length := by omega
    have hdrop : (bytes.drop 16).length = 16 * n := by rw [List.length_drop]; omega
    have hblock : (xorFrom keyStream i (bytes.take 16)).length = 16 :=
      (length_xorFrom ..).trans (List.length_take_of_le hlength)
    have hread : Reads (decryptBlocks keyStream i (n + 1)) _
        (xorFrom keyStream i (xorFrom keyStream i (bytes.take 16)) ++ bytes.drop 16) :=
      (reads_getN ⟨_, hblock⟩).bind (Reads.map (ih (i + 16) hdrop))
    rwa [xorFrom_xorFrom, List.take_append_drop, ← xorFrom_block keyStream i hlength] at hread

/-- The length is in the first four bytes. -/
theorem packetLength_put32 (x : UInt32) (rest : Bytes) : packetLength (put32 x ++ rest) = x := by
  apply UInt32.toNat_inj.mp
  have hx := x.toNat_lt
  have hlow8 : ∀ n : Nat, n &&& 255 = n % 2 ^ 8 := fun n => Nat.and_two_pow_sub_one_eq_mod _ 8
  have hlow16 : ∀ n : Nat, n &&& 65535 = n % 2 ^ 16 := fun n =>
    Nat.and_two_pow_sub_one_eq_mod _ 16
  simp [packetLength, put32, put16, put8, Nat.shiftRight_eq_div_pow, Nat.shiftLeft_eq, hlow8,
    hlow16]
  omega

/-- The first block says how long a packet is. -/
theorem toNat_packetLength {body : Bytes} {choices : Choices}
    (hsize : packetSize 16 body.length choices.extraBlocks < 2 ^ 32) :
    (packetLength ((encodePacket 16 body choices).take 16) + 4).toNat =
      packetSize 16 body.length choices.extraBlocks := by
  obtain ⟨-, -, hleast, -⟩ := packetSize_spec 16 (by decide) (by decide)
    body.length choices.extraBlocks
  have hfirst : packetLength ((encodePacket 16 body choices).take 16) =
      UInt32.ofNat (packetSize 16 body.length choices.extraBlocks - 4) :=
    packetLength_put32 _ _
  have hlength : (UInt32.ofNat (packetSize 16 body.length choices.extraBlocks - 4)).toNat =
      packetSize 16 body.length choices.extraBlocks - 4 :=
    UInt32.toNat_ofNat_of_lt (show _ < 2 ^ 32 by omega)
  rw [hfirst, UInt32.toNat_add, hlength]
  change (_ + 4) % 2 ^ 32 = _
  omega

/-- Block by block it is read to its last byte. -/
theorem reads_decryptPacket (cipher : Cipher) (i : Nat) {maxBytes : Nat} {body : Bytes}
    {choices : Choices}
    (hsize : packetSize cipher.blockSize body.length choices.extraBlocks < 2 ^ 32)
    (hbytes : packetSize cipher.blockSize body.length choices.extraBlocks ≤ maxBytes) :
    Reads (cipher.decryptPacket i maxBytes) (cipher.encryptPacket i body choices)
      ((body, paddingOf cipher.blockSize body.length choices),
        cipher.after i body.length choices.extraBlocks) := by
  cases cipher with
  | none =>
    obtain ⟨-, hleast, -, -⟩ := packetSize_spec 8 (by decide) (by decide)
      body.length choices.extraBlocks
    simp only [blockSize] at hsize hbytes
    exact Reads.map (reads_decodePacket 8 choices (by decide) (by decide) hsize (by omega))
  | aes256ctr keyStream =>
    simp only [blockSize] at hsize hbytes
    obtain ⟨hdvd, hleast, hblock, -⟩ := packetSize_spec 16 (by decide) (by decide)
      body.length choices.extraBlocks
    have hlength := length_encodePacket 16 (by decide) (by decide) body choices
    have hdecode := reads_decodePacket 16 choices (by decide) (by decide) hsize
      (show body.length ≤ maxBytes by omega) []
    have htotal := toNat_packetLength hsize
    simp only [encryptPacket, after, blockSize, decryptPacket]
    -- The first block is decrypted alone, for the length in it says how many follow.
    generalize hpacket : encodePacket 16 body choices = packet at *
    generalize packetSize 16 body.length choices.extraBlocks = size at *
    have hfirst : (xorFrom keyStream i (packet.take 16)).length = 16 :=
      (length_xorFrom ..).trans (List.length_take_of_le (by omega))
    have hothers : (packet.drop 16).length = 16 * (size / 16 - 1) := by
      rw [List.length_drop]
      omega
    have hall : Reads (decodeAll maxBytes (packet.take 16 ++ packet.drop 16)) []
        (body, paddingOf 16 body.length choices) := by
      intro rest
      rw [decodeAll, List.take_append_drop, ← List.append_nil packet, hdecode]
      rfl
    have hposition : i + size = i + 16 + 16 * (size / 16 - 1) := by omega
    rw [xorFrom_block keyStream i (by omega), hposition]
    refine (reads_getN ⟨_, hfirst⟩).bind ?_
    simp only [xorFrom_xorFrom, htotal]
    refine .check (by omega) (.check (by omega) ?_)
    exact (reads_decryptBlocks keyStream (i + 16) _ hothers).last (hall.last (.pure _))

theorem length_encryptPacket (cipher : Cipher) (i : Nat) (body : Bytes) (choices : Choices) :
    (cipher.encryptPacket i body choices).length =
      packetSize cipher.blockSize body.length choices.extraBlocks := by
  cases cipher with
  | none => exact length_encodePacket 8 (by decide) (by decide) body choices
  | aes256ctr keyStream =>
    exact (length_xorFrom ..).trans (length_encodePacket 16 (by decide) (by decide) body choices)

theorem blockSize_spec (cipher : Cipher) : 8 ≤ cipher.blockSize ∧ cipher.blockSize ≤ 252 := by
  cases cipher with
  | none => exact ⟨by decide, by decide⟩
  | aes256ctr keyStream => exact ⟨Nat.le_add_right 8 8, Nat.le_add_right 16 236⟩

/-! ## What is taken -/

/-- How many bytes a packet has that begins with these four -/
def packetBytes (cipher : Cipher) (i : Nat) (first : Bytes) : Nat :=
  match cipher with
  | none => (packetLength first).toNat + 4
  | aes256ctr keyStream => max 16 (packetLength (xorFrom keyStream i first) + 4).toNat

theorem of_get32 {bytes left : Bytes} {x : UInt32} (h : get32 bytes = .ok (x, left)) :
    ∃ first, bytes = first ++ left ∧ first.length = 4 ∧ packetLength first = x := by
  match bytes, h with
  | a :: b :: c :: d :: rest, h =>
    cases h
    refine ⟨[a, b, c, d], rfl, rfl, UInt32.toNat_inj.mp ?_⟩
    have ha := a.toNat_lt
    have hb := b.toNat_lt
    have hc := c.toNat_lt
    have hd := d.toNat_lt
    simp [packetLength, Nat.shiftLeft_eq]
    omega

theorem of_decodePacket {maxBytes : Nat} {bytes left : Bytes} {x : Bytes × Bytes}
    (h : decodePacket maxBytes bytes = .ok (x, left)) :
    ∃ front, bytes = front ++ left ∧
      front.length = (packetLength (bytes.take 4)).toNat + 4 := by
  obtain ⟨n, bytes₁, hn, h⟩ := Lib.run_bind_eq_ok.mp h
  obtain ⟨hpositive, h⟩ := of_check h
  obtain ⟨m, bytes₂, hm, h⟩ := Lib.run_bind_eq_ok.mp h
  obtain ⟨hfits, h⟩ := of_check h
  obtain ⟨-, h⟩ := of_check h
  obtain ⟨body, bytes₃, hbody, h⟩ := Lib.run_bind_eq_ok.mp h
  obtain ⟨padding, bytes₄, hpadding, h⟩ := Lib.run_bind_eq_ok.mp h
  cases h
  obtain ⟨first, rfl, hfirst, rfl⟩ := of_get32 hn
  obtain rfl := of_get8 hm
  obtain rfl := of_getN hbody
  obtain rfl := of_getN hpadding
  refine ⟨first ++ m :: (body.1 ++ padding.1), by simp, ?_⟩
  have hbodyLength := body.2
  have hpaddingLength := padding.2
  rw [List.take_left' hfirst, List.length_append, List.length_cons, List.length_append]
  omega

theorem of_decryptBlocks {keyStream : Nat → UInt8} {i n : Nat} {bytes left blocks : Bytes}
    (h : decryptBlocks keyStream i n bytes = .ok (blocks, left)) :
    ∃ front, bytes = front ++ left ∧ front.length = 16 * n := by
  induction n generalizing i bytes blocks with
  | zero =>
    cases h
    exact ⟨[], rfl, rfl⟩
  | succ n ih =>
    obtain ⟨block, bytes₁, hblock, h⟩ := Lib.run_bind_eq_ok.mp h
    obtain ⟨others, bytes₂, hothers, h⟩ := Lib.run_bind_eq_ok.mp h
    cases h
    obtain ⟨front, rfl, hfront⟩ := ih hothers
    have hlength := block.2
    refine ⟨block.1 ++ front, by rw [of_getN hblock, List.append_assoc], ?_⟩
    rw [List.length_append]
    omega

theorem of_decodeAll {maxBytes : Nat} {decrypted bytes left : Bytes} {x : Bytes × Bytes}
    (h : decodeAll maxBytes decrypted bytes = .ok (x, left)) :
    bytes = left ∧ ∃ behind, decodePacket maxBytes decrypted = .ok (x, behind) := by
  rw [decodeAll] at h
  cases hdecode : decodePacket maxBytes decrypted with
  | error e =>
    rw [hdecode] at h
    cases h
  | ok y =>
    rw [hdecode] at h
    cases h
    exact ⟨rfl, y.2, rfl⟩

theorem xorFrom_take (keyStream : Nat → UInt8) (i n : Nat) (bytes : Bytes) :
    xorFrom keyStream i (bytes.take n) = (xorFrom keyStream i bytes).take n := by
  induction bytes generalizing i n with
  | nil => rw [List.take_nil, xorFrom, List.take_nil]
  | cons x xs ih =>
    cases n with
    | zero => rfl
    | succ n => exact congrArg _ (ih (i + 1) n)

/-- As many bytes are taken as the first four say. -/
theorem of_decryptPacket {cipher : Cipher} {i maxBytes : Nat} {bytes left : Bytes}
    {x : (Bytes × Bytes) × Nat} (h : cipher.decryptPacket i maxBytes bytes = .ok (x, left)) :
    ∃ front, bytes = front ++ left ∧ front.length = cipher.packetBytes i (bytes.take 4) := by
  cases cipher with
  | none =>
    obtain ⟨y, bytes₁, hy, h⟩ := Lib.run_bind_eq_ok.mp h
    cases h
    exact of_decodePacket hy
  | aes256ctr keyStream =>
    obtain ⟨block, bytes₁, hblock, h⟩ := Lib.run_bind_eq_ok.mp h
    obtain ⟨-, h⟩ := of_check h
    obtain ⟨hwhole, h⟩ := of_check h
    obtain ⟨others, bytes₂, hothers, h⟩ := Lib.run_bind_eq_ok.mp h
    obtain ⟨y, bytes₃, hy, h⟩ := Lib.run_bind_eq_ok.mp h
    cases h
    obtain ⟨rfl, -⟩ := of_decodeAll hy
    obtain ⟨front, rfl, hfront⟩ := of_decryptBlocks hothers
    obtain rfl := of_getN hblock
    have hlength := block.2
    have hfour : packetLength (xorFrom keyStream i ((block.1 ++ (front ++ bytes₂)).take 4)) =
        packetLength (xorFrom keyStream i block.1) := by
      rw [List.take_append_of_le_length (by omega), xorFrom_take, packetLength, List.take_take,
        Nat.min_self, packetLength]
    refine ⟨block.1 ++ front, by rw [List.append_assoc], ?_⟩
    rw [packetBytes, hfour, List.length_append]
    omega

end Cipher

end Urnest.Ssh
