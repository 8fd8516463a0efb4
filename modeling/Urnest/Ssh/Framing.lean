import Mathlib
import Urnest.Ssh.Channel

/-!
# What is written around a body

`encodePacket` for any block size of a byte's padding: 1 to 252. Whatever is chosen at random,
the packet is legal and is read back (`legal_encodePacket`).

RFC 4253 6.4 has the MAC cover the sequence number and the whole packet. What
calculatePacketMac.hcp and verifyPacket.hcp put together for it has no packet length, for no
packet (`macInput_ne`).
-/

namespace Urnest.Ssh

/-! ## Padding -/

theorem packetSize_max (blockSize bodySize extraBlocks : Nat) :
    packetSize (max blockSize 8) bodySize extraBlocks =
      packetSize blockSize bodySize extraBlocks := by
  have huse : max (max blockSize 8) 8 = max blockSize 8 := by omega
  simp only [packetSize, huse]

theorem paddingOf_max (blockSize bodySize : Nat) (choices : Choices) :
    paddingOf (max blockSize 8) bodySize choices = paddingOf blockSize bodySize choices := by
  rw [paddingOf, packetSize_max, paddingOf]

theorem encodePacket_max (blockSize : Nat) (body : Bytes) (choices : Choices) :
    encodePacket (max blockSize 8) body choices = encodePacket blockSize body choices := by
  rw [encodePacket, packetSize_max, paddingOf_max, encodePacket]

/-- The packet of a body and its padding: `packet_length`, `padding_length`, payload, padding -/
def plaintext (body padding : Bytes) : Bytes :=
  put32 (UInt32.ofNat (1 + body.length + padding.length)) ++
    (put8 (UInt8.ofNat padding.length) ++ (body ++ padding))

theorem length_plaintext (body padding : Bytes) :
    (plaintext body padding).length = 5 + body.length + padding.length := by
  rw [plaintext, List.length_append, List.length_append, List.length_append, length_put32, put8,
    List.length_singleton]
  omega

theorem encodePacket_eq_plaintext (blockSize : Nat) (hmax : blockSize ≤ 252) (body : Bytes)
    (choices : Choices) :
    encodePacket blockSize body choices =
      plaintext body (paddingOf blockSize body.length choices) := by
  obtain ⟨-, hleast, -, -⟩ := packetSize_spec (max blockSize 8) (by omega) (by omega) body.length
    choices.extraBlocks
  rw [packetSize_max] at hleast
  have hlength : packetSize blockSize body.length choices.extraBlocks - 4 =
      1 + body.length + (paddingOf blockSize body.length choices).length := by
    rw [length_paddingOf]
    omega
  rw [encodePacket, hlength, plaintext]

/-- What a packet has to be, with the padding that was returned for it -/
structure Legal (blockSize : Nat) (body packet padding : Bytes) : Prop where
  blocks : max blockSize 8 ∣ packet.length
  least : 16 ≤ packet.length
  leastPadding : 4 ≤ padding.length
  mostPadding : padding.length ≤ 255
  /-- the length fields hold what they are to say, and the padding is the one returned -/
  fields : ∃ packetLength paddingLength,
    packet = put32 packetLength ++ (put8 paddingLength ++ (body ++ padding)) ∧
      packetLength.toNat + 4 = packet.length ∧ paddingLength.toNat = padding.length
  /-- `decodePacket` gives both back and leaves what is behind the packet -/
  decoded : ∀ maxBodyBytes, body.length ≤ maxBodyBytes →
    Reads (decodePacket maxBodyBytes) packet (body, padding)

theorem legal_encodePacket (blockSize : Nat) (body : Bytes) (choices : Choices)
    (hmin : 1 ≤ blockSize) (hmax : blockSize ≤ 252)
    (hsize : (encodePacket blockSize body choices).length < 2 ^ 32) :
    Legal blockSize body (encodePacket blockSize body choices)
      (paddingOf blockSize body.length choices) := by
  have hplain := encodePacket_eq_plaintext blockSize hmax body choices
  rw [← encodePacket_max, ← paddingOf_max] at *
  have hlow : 8 ≤ max blockSize 8 := by omega
  have hhigh : max blockSize 8 ≤ 252 := by omega
  have hlength := length_encodePacket _ hlow hhigh body choices
  have hpadding := length_paddingOf_spec hlow hhigh body.length choices
  obtain ⟨hblocks, -, hleast, -⟩ := packetSize_spec _ hlow hhigh body.length choices.extraBlocks
  rw [← hlength] at hblocks hleast
  have hsum := length_plaintext body (paddingOf (max blockSize 8) body.length choices)
  rw [← hplain] at hsum
  refine ⟨hblocks, hleast, hpadding.1, hpadding.2, ⟨_, _, hplain, ?_, ?_⟩, ?_⟩
  · have hword : (UInt32.ofNat (1 + body.length +
        (paddingOf (max blockSize 8) body.length choices).length)).toNat = 1 + body.length +
        (paddingOf (max blockSize 8) body.length choices).length :=
      UInt32.toNat_ofNat_of_lt (show _ < 2 ^ 32 by omega)
    omega
  · exact UInt8.toNat_ofNat_of_lt (show _ < 2 ^ 8 by omega)
  · intro maxBodyBytes hbytes
    exact reads_decodePacket _ choices hlow hhigh (hlength ▸ hsize) hbytes

theorem legal_encodePacket_one : Legal 1 [7] (encodePacket 1 [7] ⟨5, fun _ => 9⟩)
    (paddingOf 1 1 ⟨5, fun _ => 9⟩) :=
  legal_encodePacket 1 [7] ⟨5, fun _ => 9⟩ (by decide) (by decide) (by
    rw [← encodePacket_max]
    have hlength := length_encodePacket 8 (by decide) (by decide) [7] ⟨5, fun _ => 9⟩
    obtain ⟨-, -, -, hmost⟩ := packetSize_spec 8 (by decide) (by decide) 1 5
    rw [show max 1 8 = 8 from rfl, hlength]
    exact Nat.lt_of_le_of_lt hmost (by decide))

/-! ## Authentication -/

/-- These are the bytes that `calculatePacketMac` gives to whichever calculator. -/
def CalculatedOf (nextSeq : UInt32) (body padding bytes : Bytes) : Prop :=
  ∀ calculator : Authenticator,
    calculatePacketMac calculator nextSeq body padding = .ok (calculator.calculateMac bytes)

/-- These are the bytes that `verifyPacket` gives to whichever verifier. -/
def VerifiedOf (nextSeq : UInt32) (body padding bytes : Bytes) : Prop :=
  ∀ (macVerifier : Authenticator) (mac : Bytes),
    verifyPacket macVerifier nextSeq body padding mac = .ok () ↔
      mac = macVerifier.calculateMac bytes

theorem calculatedOf_macInput (nextSeq : UInt32) (body : Bytes) {padding : Bytes}
    (hmin : 4 ≤ padding.length) (hmax : padding.length ≤ 255) :
    CalculatedOf nextSeq body padding (macInput nextSeq body padding) := by
  intro calculator
  rw [calculatePacketMac, if_neg (not_not.mpr hmax), if_neg (not_not.mpr hmin)]
  rfl

theorem eq_of_calculatePacketMac {calculator : Authenticator} {nextSeq : UInt32}
    {body padding mac : Bytes}
    (h : calculatePacketMac calculator nextSeq body padding = .ok mac) :
    calculator.calculateMac (macInput nextSeq body padding) = mac := by
  by_cases hmax : padding.length ≤ 255
  · by_cases hmin : 4 ≤ padding.length
    · rw [calculatedOf_macInput nextSeq body hmin hmax] at h
      exact Except.ok.inj h
    · rw [calculatePacketMac, if_neg (not_not.mpr hmax), if_pos hmin] at h
      cases h
  · rw [calculatePacketMac, if_pos hmax] at h
    cases h

theorem verifiedOf_macInput (nextSeq : UInt32) (body padding : Bytes) :
    VerifiedOf nextSeq body padding (macInput nextSeq body padding) := by
  intro macVerifier mac
  rw [verifyPacket]
  split_ifs with h
  · exact iff_of_true rfl h
  · exact iff_of_false (fun hok => by cases hok) h

/-- A MAC that shows how many bytes it is of -/
def lengthMac : Authenticator := ⟨1, fun message => [UInt8.ofNat message.length], fun _ => rfl⟩

/-- It tells what is four bytes longer. -/
theorem lengthMac_ne (nextSeq : UInt32) (body padding : Bytes) :
    lengthMac.calculateMac (macInput nextSeq body padding) ≠
      lengthMac.calculateMac (put32 nextSeq ++ plaintext body padding) := by
  have hlong : (put32 nextSeq ++ plaintext body padding).length =
      (macInput nextSeq body padding).length + 4 := by
    rw [List.length_append, length_plaintext, length_put32, macInput, List.length_append,
      List.length_append, List.length_append, length_put32, put8, List.length_singleton]
    omega
  intro h
  have hbytes := congrArg UInt8.toNat (List.cons.inj h).1
  rw [UInt8.toNat_ofNat', UInt8.toNat_ofNat', hlong] at hbytes
  omega

/-- Neither end has its MAC cover a packet with its length, whatever the packet. -/
theorem macInput_ne (nextSeq : UInt32) (body padding : Bytes) :
    ¬ CalculatedOf nextSeq body padding (put32 nextSeq ++ plaintext body padding) ∧
      ¬ VerifiedOf nextSeq body padding (put32 nextSeq ++ plaintext body padding) := by
  have hne := lengthMac_ne nextSeq body padding
  constructor
  · intro h
    exact hne (eq_of_calculatePacketMac (h lengthMac))
  · intro h
    exact hne ((h lengthMac _).mp ((verifiedOf_macInput nextSeq body padding lengthMac _).mpr rfl))

/-- The packet of one body with the four bytes of padding that it has at least -/
theorem not_covered :
    ¬ (CalculatedOf 3 [97, 98, 99, 100, 101, 102, 103] [0, 0, 0, 0]
        (put32 3 ++ plaintext [97, 98, 99, 100, 101, 102, 103] [0, 0, 0, 0]) ∧
      VerifiedOf 3 [97, 98, 99, 100, 101, 102, 103] [0, 0, 0, 0]
        (put32 3 ++ plaintext [97, 98, 99, 100, 101, 102, 103] [0, 0, 0, 0])) := by
  intro h
  have hmac := (h.2 lengthMac _).mp ((verifiedOf_macInput _ _ _ lengthMac _).mpr rfl)
  exact absurd hmac (by decide)

end Urnest.Ssh
