import Mathlib
import Urnest.Ssh.Packet

/-!
# The packet channel

`O` of O.hcp sends message bodies and `I` of I.hcp receives them. Each has its cipher, its
MAC and its sequence number; the two are in step (`InStep`) where these agree.

What is sent is received to its last byte, and both are in step again (`reads_next`); so by
induction is all that is sent (`reads_receiveAll`). A KexInit is not returned from
`receiveMessage` but kept for a `RekeyLock`, and `Rekeying` thrown.

The receiver takes nothing whose MAC does not stand behind it (`next_authentic`).
-/

namespace Urnest.Ssh

/-! ## Message authentication -/

/-- A `MacCalculator`, and the `MacVerifier` that goes with it -/
structure Authenticator where
  macSize : Nat
  calculateMac : Bytes → Bytes
  length_calculateMac : ∀ message, (calculateMac message).length = macSize

/-- What a MAC is calculated of -/
def macInput (nextSeq : UInt32) (body padding : Bytes) : Bytes :=
  put32 nextSeq ++ (put8 (UInt8.ofNat padding.length) ++ (body ++ padding))

def calculatePacketMac (calculator : Authenticator) (nextSeq : UInt32) (body padding : Bytes) :
    Except Exception Bytes := do
  if ¬ padding.length ≤ 255 then throw .assertion
  if ¬ 4 ≤ padding.length then throw .assertion
  return calculator.calculateMac (macInput nextSeq body padding)

def verifyPacket (macVerifier : Authenticator) (nextSeq : UInt32) (body padding mac : Bytes) :
    Except Exception Unit :=
  if mac = macVerifier.calculateMac (macInput nextSeq body padding) then return ()
  else throw .notAuthentic

/-- `++` of a `SequenceNumber` -/
def increment (x : UInt32) : Except Exception UInt32 :=
  if x = 0xffffffff then throw .overflow else return x + 1

/-! ## The sender -/

structure O where
  encrypter : Cipher
  position : Nat
  macCalculator : Authenticator
  nextSeq : UInt32
  rekeying : Bool

namespace O

/-- `sendMessage` with the lock held: what is written -/
def sendMessageLocked (o : O) (body : Bytes) (choices : Choices) :
    Except Exception (Bytes × O) := do
  let mac ← calculatePacketMac o.macCalculator o.nextSeq body
    (paddingOf o.encrypter.blockSize body.length choices)
  let nextSeq ← increment o.nextSeq
  return (o.encrypter.encryptPacket o.position body choices ++ mac,
    { o with
      position := o.encrypter.after o.position body.length choices.extraBlocks
      nextSeq := nextSeq })

def sendMessage (o : O) (body : Bytes) (choices : Choices) : Except Exception (Bytes × O) :=
  if o.rekeying then throw .rekeying else o.sendMessageLocked body choices

/-- `sendMessage` of a `RekeyLock` -/
def lockSendMessage (o : O) (body : Bytes) (choices : Choices) : Except Exception (Bytes × O) :=
  if o.rekeying then o.sendMessageLocked body choices else throw .assertion

/-- Who may send sends. -/
def next (o : O) (body : Bytes) (choices : Choices) : Except Exception (Bytes × O) :=
  if o.rekeying then o.lockSendMessage body choices else o.sendMessage body choices

end O

/-! ## The receiver -/

structure I where
  decrypter : Cipher
  position : Nat
  packetAuthenticator : Authenticator
  nextSeq : UInt32
  peerKexInit : Option Bytes

/-- How a call of `receiveMessage` ends, when it takes a packet; `Rekeying` is no
`xju::Exception`. -/
inductive Outcome where
  | message (body : Bytes)
  | rekeying
  deriving DecidableEq

/-- `MSG::KEXINIT` -/
def kexInit : UInt8 := 20

namespace I

/-- An authentic packet: a KexInit is kept, where none is, and `Rekeying` thrown. -/
def accept (i : I) (x : (Bytes × Bytes) × Nat) (nextSeq : UInt32) : I × Outcome :=
  if x.1.1.head? = some kexInit ∧ i.peerKexInit = none then
    ({ i with position := x.2, nextSeq := nextSeq, peerKexInit := some x.1.1 }, .rekeying)
  else
    ({ i with position := x.2, nextSeq := nextSeq }, .message x.1.1)

/-- `receiveMessage` with the lock held -/
def receiveMessageLocked (i : I) (maxBytes : Nat) : Decoder (I × Outcome) := do
  let x ← i.decrypter.decryptPacket i.position maxBytes
  let mac ← getN i.packetAuthenticator.macSize
  verifyPacket i.packetAuthenticator i.nextSeq x.1.1 x.1.2 mac.1
  let nextSeq ← increment i.nextSeq
  return i.accept x nextSeq

def receiveMessage (i : I) (maxBytes : Nat) : Decoder (I × Outcome) :=
  if i.peerKexInit.isSome then throw .rekeying else i.receiveMessageLocked maxBytes

/-- `receiveMessage` of a `RekeyLock`, which has the peer's KexInit -/
def lockReceiveMessage (i : I) (maxBytes : Nat) : Decoder (I × Outcome) :=
  if i.peerKexInit.isSome then i.receiveMessageLocked maxBytes else throw .assertion

/-- Who may receive receives. -/
def next (i : I) (maxBytes : Nat) : Decoder (I × Outcome) :=
  if i.peerKexInit.isSome then i.lockReceiveMessage maxBytes else i.receiveMessage maxBytes

theorem next_eq (i : I) (maxBytes : Nat) : i.next maxBytes = i.receiveMessageLocked maxBytes := by
  rw [next, lockReceiveMessage, receiveMessage]
  split_ifs <;> rfl

end I

theorem O.next_eq (o : O) (body : Bytes) (choices : Choices) :
    o.next body choices = o.sendMessageLocked body choices := by
  rw [next, lockSendMessage, sendMessage]
  split_ifs <;> rfl

/-! ## Runs -/

/-- A message that is sent, and then received -/
structure Step where
  body : Bytes
  choices : Choices
  /-- whether the sender has a `RekeyLock` -/
  rekeying : Bool
  /-- whether the receiver's `RekeyLock` is gone -/
  cleared : Bool

/-- The packets of messages, each with the sequence number behind it -/
def O.sendAll (o : O) : List Step → Except Exception (List (Bytes × UInt32) × O)
  | [] => return ([], o)
  | s :: steps => do
    let x ← { o with rekeying := s.rekeying }.next s.body s.choices
    let xs ← x.2.sendAll steps
    return ((x.1, x.2.nextSeq) :: xs.1, xs.2)

/-- What is kept where a `RekeyLock` may be gone -/
def keep (peerKexInit : Option Bytes) (cleared : Bool) : Option Bytes :=
  if cleared then none else peerKexInit

/-- What comes of each call, with the sequence number behind it -/
def I.receiveAll (i : I) (maxBytes : Nat) : List Step → Decoder (List (Outcome × UInt32) × I)
  | [] => return ([], i)
  | s :: steps => do
    let x ← { i with peerKexInit := keep i.peerKexInit s.cleared }.next maxBytes
    let xs ← x.1.receiveAll maxBytes steps
    return ((x.2, x.1.nextSeq) :: xs.1, xs.2)

/-- What a call is to give, and the KexInit that is kept behind it -/
def deliver (peerKexInit : Option Bytes) (body : Bytes) : Outcome × Option Bytes :=
  if body.head? = some kexInit ∧ peerKexInit = none then (.rekeying, some body)
  else (.message body, peerKexInit)

/-- Every body in order, but for a KexInit where none is kept -/
def deliveries : Option Bytes → List Step → List Outcome
  | _, [] => []
  | peerKexInit, s :: steps =>
    let x := deliver (keep peerKexInit s.cleared) s.body
    x.1 :: deliveries x.2 steps

/-! ## Delivery -/

/-- The two sides agree. -/
structure InStep (o : O) (i : I) : Prop where
  cipher : i.decrypter = o.encrypter
  position : i.position = o.position
  mac : i.packetAuthenticator = o.macCalculator
  nextSeq : i.nextSeq = o.nextSeq

/-- What can be said to be sent in one packet, and taken -/
structure Sendable (cipher : Cipher) (maxBytes : Nat) (s : Step) : Prop where
  size_lt : packetSize cipher.blockSize s.body.length s.choices.extraBlocks < 2 ^ 32
  size_le : packetSize cipher.blockSize s.body.length s.choices.extraBlocks ≤ maxBytes

theorem reads_lift {α : Type} {x : Except Exception α} {a : α} (h : x = .ok a) :
    Reads (monadLift x : Decoder α) [] a := by
  rw [h]
  exact fun _ => rfl

/-- What a send that returns has done -/
theorem sendMessageLocked_eq_ok {o o' : O} {body bytes : Bytes} {choices : Choices}
    (h : o.sendMessageLocked body choices = .ok (bytes, o')) :
    increment o.nextSeq = .ok o'.nextSeq ∧
      bytes = o.encrypter.encryptPacket o.position body choices ++
        o.macCalculator.calculateMac (macInput o.nextSeq body
          (paddingOf o.encrypter.blockSize body.length choices)) ∧
      o' = { o with
        position := o.encrypter.after o.position body.length choices.extraBlocks
        nextSeq := o'.nextSeq } := by
  obtain ⟨hmin, hmax⟩ := o.encrypter.blockSize_spec
  obtain ⟨hleast, hmost⟩ := length_paddingOf_spec hmin hmax body.length choices
  rw [O.sendMessageLocked, calculatePacketMac, if_neg (not_not.mpr hmost),
    if_neg (not_not.mpr hleast)] at h
  cases hnext : increment o.nextSeq with
  | error e =>
    rw [hnext] at h
    cases h
  | ok nextSeq =>
    rw [hnext] at h
    cases h
    exact ⟨rfl, rfl, rfl⟩

theorem accept_eq (i : I) (x : (Bytes × Bytes) × Nat) (nextSeq : UInt32) :
    i.accept x nextSeq =
      ({ i with
          position := x.2
          nextSeq := nextSeq
          peerKexInit := (deliver i.peerKexInit x.1.1).2 },
        (deliver i.peerKexInit x.1.1).1) := by
  rw [I.accept, deliver]
  split_ifs <;> rfl

/-- As long as the sequence numbers last every send returns. -/
theorem sendMessageLocked_returns (o : O) (body : Bytes) (choices : Choices)
    (h : o.nextSeq ≠ 0xffffffff) :
    ∃ bytes o', o.sendMessageLocked body choices = .ok (bytes, o') ∧ o'.nextSeq = o.nextSeq + 1 := by
  obtain ⟨hmin, hmax⟩ := o.encrypter.blockSize_spec
  obtain ⟨hleast, hmost⟩ := length_paddingOf_spec hmin hmax body.length choices
  rw [O.sendMessageLocked, calculatePacketMac, if_neg (not_not.mpr hmost),
    if_neg (not_not.mpr hleast), increment, if_neg h]
  exact ⟨_, _, rfl, rfl⟩

theorem sendAll_returns {o : O} {steps : List Step} (h : o.nextSeq.toNat + steps.length < 2 ^ 32) :
    ∃ packets o', o.sendAll steps = .ok (packets, o') := by
  induction steps generalizing o with
  | nil => exact ⟨[], o, rfl⟩
  | cons s steps ih =>
    rw [List.length_cons] at h
    have hlast : o.nextSeq ≠ 0xffffffff := by
      intro hlast
      rw [hlast] at h
      exact absurd h (by simp; omega)
    obtain ⟨bytes, o₁, hfirst, hseq⟩ := sendMessageLocked_returns
      { o with rekeying := s.rekeying } s.body s.choices hlast
    have hnext : o₁.nextSeq.toNat = o.nextSeq.toNat + 1 := by
      rw [hseq, UInt32.toNat_add]
      exact Nat.mod_eq_of_lt (show o.nextSeq.toNat + 1 < 2 ^ 32 by omega)
    obtain ⟨packets, o₂, hothers⟩ := ih (show o₁.nextSeq.toNat + steps.length < 2 ^ 32 by omega)
    refine ⟨(bytes, o₁.nextSeq) :: packets, o₂, ?_⟩
    rw [O.sendAll, O.next_eq, hfirst]
    change (o₁.sendAll steps >>= fun xs => _) = _
    rw [hothers]
    rfl

/-- A packet is received to its last byte, with both sides in step behind it. -/
theorem reads_next {o o' : O} {i : I} {maxBytes : Nat} {s : Step} {bytes : Bytes}
    (h : InStep o i) (hsendable : Sendable o.encrypter maxBytes s)
    (hsend : o.next s.body s.choices = .ok (bytes, o')) :
    ∃ i', Reads (i.next maxBytes) bytes (i', (deliver i.peerKexInit s.body).1) ∧
      i'.peerKexInit = (deliver i.peerKexInit s.body).2 ∧ InStep o' i' ∧
      o'.encrypter = o.encrypter := by
  rw [O.next_eq] at hsend
  obtain ⟨hnext, rfl, ho'⟩ := sendMessageLocked_eq_ok hsend
  have hdecrypt := Cipher.reads_decryptPacket o.encrypter o.position hsendable.size_lt
    hsendable.size_le
  obtain ⟨decrypter, position, packetAuthenticator, nextSeq, peerKexInit⟩ := i
  obtain ⟨rfl, rfl, rfl, rfl⟩ := h
  have hverify : verifyPacket o.macCalculator o.nextSeq s.body
      (paddingOf o.encrypter.blockSize s.body.length s.choices)
      (o.macCalculator.calculateMac (macInput o.nextSeq s.body
        (paddingOf o.encrypter.blockSize s.body.length s.choices))) = .ok () :=
    if_pos rfl
  refine ⟨{
    decrypter := o.encrypter
    position := o.encrypter.after o.position s.body.length s.choices.extraBlocks
    packetAuthenticator := o.macCalculator
    nextSeq := o'.nextSeq
    peerKexInit := (deliver peerKexInit s.body).2 }, ?_, rfl, ?_, ?_⟩
  · rw [I.next_eq, I.receiveMessageLocked]
    refine hdecrypt.bind ((reads_getN ⟨_, o.macCalculator.length_calculateMac _⟩).last
      ((reads_lift hverify).last ((reads_lift hnext).last ?_)))
    rw [accept_eq]
    exact .pure _
  · rw [ho']
    exact ⟨rfl, rfl, rfl, rfl⟩
  · rw [ho']

/-- A run: all that is sent is received, and each sequence number is the sender's. -/
theorem reads_receiveAll {o o' : O} {i : I} {maxBytes : Nat} {steps : List Step}
    {packets : List (Bytes × UInt32)} (h : InStep o i)
    (hsendable : ∀ s ∈ steps, Sendable o.encrypter maxBytes s)
    (hsend : o.sendAll steps = .ok (packets, o')) :
    ∃ received i', Reads (i.receiveAll maxBytes steps) (packets.map Prod.fst).flatten (received, i') ∧
      received.map Prod.fst = deliveries i.peerKexInit steps ∧
      received.map Prod.snd = packets.map Prod.snd ∧ InStep o' i' := by
  induction steps generalizing o i packets with
  | nil =>
    cases hsend
    exact ⟨[], i, .pure _, rfl, rfl, h⟩
  | cons s steps ih =>
    obtain ⟨⟨bytes, o₁⟩, hfirst, hsend⟩ := Lib.bind_eq_ok.mp hsend
    obtain ⟨⟨packets, o₂⟩, hothers, hsend⟩ := Lib.bind_eq_ok.mp hsend
    cases hsend
    have hstep : InStep { o with rekeying := s.rekeying }
        { i with peerKexInit := keep i.peerKexInit s.cleared } :=
      ⟨h.cipher, h.position, h.mac, h.nextSeq⟩
    obtain ⟨i₁, hread, hkept, hstep₁, hcipher⟩ :=
      reads_next hstep (hsendable s (List.mem_cons_self ..)) hfirst
    obtain ⟨received, i₂, hreads, hdeliveries, hseqs, hstep₂⟩ :=
      ih hstep₁ (fun t ht => hcipher ▸ hsendable t (.tail _ ht)) hothers
    refine ⟨((deliver (keep i.peerKexInit s.cleared) s.body).1, i₁.nextSeq) :: received, i₂,
      hread.bind hreads.map, ?_, ?_, hstep₂⟩
    · rw [List.map_cons, hdeliveries, hkept, deliveries]
    · rw [List.map_cons, List.map_cons, hseqs, hstep₁.nextSeq]

/-! ## Authenticity -/

/-- What the MAC of a sent message is calculated of -/
def sentInput (o : O) (s : Step) : Bytes :=
  macInput o.nextSeq s.body (paddingOf o.encrypter.blockSize s.body.length s.choices)

/-- The bytes decrypt to a packet with this MAC input, with these bytes for its MAC. -/
def Decrypts (i : I) (maxBytes : Nat) (bytes input mac : Bytes) : Prop :=
  ∃ x rest, i.decrypter.decryptPacket i.position maxBytes bytes = .ok (x, mac ++ rest) ∧
    mac.length = i.packetAuthenticator.macSize ∧ input = macInput i.nextSeq x.1.1 x.1.2

def Rejected (i : I) (maxBytes : Nat) (bytes : Bytes) : Prop :=
  ∃ e, i.next maxBytes bytes = .error e

theorem of_lift {α : Type} {x : Except Exception α} {a : α} {bytes left : Bytes}
    (h : (monadLift x : Decoder α) bytes = .ok (a, left)) : x = .ok a := by
  cases x with
  | error e => cases h
  | ok y =>
    cases h
    rfl

/-- What is received is decrypted, and its MAC stands behind it. -/
theorem next_authentic {i i' : I} {maxBytes : Nat} {bytes left : Bytes} {outcome : Outcome}
    (h : i.next maxBytes bytes = .ok ((i', outcome), left)) :
    ∃ input, Decrypts i maxBytes bytes input (i.packetAuthenticator.calculateMac input) := by
  rw [I.next_eq] at h
  obtain ⟨x, bytes₁, hx, h⟩ := Lib.run_bind_eq_ok.mp h
  obtain ⟨mac, bytes₂, hmac, h⟩ := Lib.run_bind_eq_ok.mp h
  obtain ⟨_, bytes₃, hverify, h⟩ := Lib.run_bind_eq_ok.mp h
  have hverified := of_lift hverify
  rw [verifyPacket] at hverified
  split_ifs at hverified with hequal
  · rw [of_getN hmac, hequal] at hx
    exact ⟨_, x, bytes₂, hx, i.packetAuthenticator.length_calculateMac _, rfl⟩

theorem rejected_of_not_authentic {i : I} {maxBytes : Nat} {bytes : Bytes}
    (h : ∀ input, ¬ Decrypts i maxBytes bytes input (i.packetAuthenticator.calculateMac input)) :
    Rejected i maxBytes bytes := by
  cases hnext : i.next maxBytes bytes with
  | error e => exact ⟨e, hnext⟩
  | ok x =>
    obtain ⟨input, hinput⟩ := next_authentic hnext
    exact absurd hinput (h input)

/-- Where the packet length is as it was, the MAC that was sent stands in the MAC's place. -/
theorem Decrypts.mac_eq {o : O} {i : I} {maxBytes : Nat} {s : Step} {altered rest input mac : Bytes}
    (h : InStep o i) (hsendable : Sendable o.encrypter maxBytes s)
    (hlength : altered.length = (o.encrypter.encryptPacket o.position s.body s.choices).length)
    (hfirst : altered.take 4 = (o.encrypter.encryptPacket o.position s.body s.choices).take 4)
    (hdecrypts : Decrypts i maxBytes
      (altered ++ (o.macCalculator.calculateMac (sentInput o s) ++ rest)) input mac) :
    mac = o.macCalculator.calculateMac (sentInput o s) := by
  obtain ⟨x, left, hx, hsize, -⟩ := hdecrypts
  rw [h.cipher, h.position] at hx
  rw [h.mac] at hsize
  have hsent := Cipher.reads_decryptPacket o.encrypter o.position hsendable.size_lt
    hsendable.size_le (o.macCalculator.calculateMac (sentInput o s) ++ rest)
  obtain ⟨hmin, hmax⟩ := o.encrypter.blockSize_spec
  obtain ⟨-, -, hleast, -⟩ := packetSize_spec _ hmin hmax s.body.length s.choices.extraBlocks
  rw [← Cipher.length_encryptPacket o.encrypter o.position] at hleast
  obtain ⟨front, hfront, hcount⟩ := Cipher.of_decryptPacket hsent
  obtain ⟨front', hfront', hcount'⟩ := Cipher.of_decryptPacket hx
  rw [← List.append_cancel_right hfront, List.take_append_of_le_length (by omega)] at hcount
  rw [List.take_append_of_le_length (by omega), hfirst, ← hcount, ← hlength] at hcount'
  obtain ⟨-, htail⟩ := List.append_inj hfront' hcount'.symm
  exact (List.append_inj htail (by rw [hsize, o.macCalculator.length_calculateMac])).1.symm

/-- Behind the packet length nothing can be altered that the MAC depends on. -/
theorem rejected_of_altered {o : O} {i : I} {maxBytes : Nat} {s : Step} {altered rest : Bytes}
    (h : InStep o i) (hsendable : Sendable o.encrypter maxBytes s)
    (hinjective : ∀ input, o.macCalculator.calculateMac input =
      o.macCalculator.calculateMac (sentInput o s) → input = sentInput o s)
    (hlength : altered.length = (o.encrypter.encryptPacket o.position s.body s.choices).length)
    (hfirst : altered.take 4 = (o.encrypter.encryptPacket o.position s.body s.choices).take 4)
    (hdiffers : ∀ input mac, Decrypts i maxBytes
      (altered ++ (o.macCalculator.calculateMac (sentInput o s) ++ rest)) input mac →
        input ≠ sentInput o s) :
    Rejected i maxBytes (altered ++ (o.macCalculator.calculateMac (sentInput o s) ++ rest)) := by
  refine rejected_of_not_authentic fun input hinput => hdiffers _ _ hinput ?_
  have hmac := Decrypts.mac_eq h hsendable hlength hfirst hinput
  rw [h.mac] at hmac
  exact hinjective input hmac

/-- Nor can anything where no other MAC stands. -/
theorem rejected_of_unforged {o : O} {i : I} {maxBytes : Nat} {s : Step} {bytes : Bytes}
    (h : InStep o i)
    (hunforged : ∀ input, o.macCalculator.calculateMac input <:+: bytes → input = sentInput o s)
    (hdiffers : ∀ input mac, Decrypts i maxBytes bytes input mac → input ≠ sentInput o s) :
    Rejected i maxBytes bytes := by
  refine rejected_of_not_authentic fun input hinput => hdiffers _ _ hinput (hunforged _ ?_)
  obtain ⟨x, rest, hx, -, -⟩ := hinput
  obtain ⟨front, hfront, -⟩ := Cipher.of_decryptPacket hx
  rw [h.mac, ← List.append_assoc] at hfront
  exact ⟨front, rest, hfront.symm⟩

/-! ## The channel -/

/-- `macs::None` -/
def noMac : Authenticator := ⟨0, fun _ => [], fun _ => rfl⟩

/-- A message without encryption that is received with nothing kept -/
def plain (body : Bytes) : Step := ⟨body, ⟨0, fun _ => 0⟩, false, false⟩

theorem packetSize_one : packetSize 8 1 0 = 16 := by decide +kernel

theorem sendable_plain (b : UInt8) : Sendable .none 100 (plain [b]) := by
  refine ⟨?_, ?_⟩
  · change packetSize 8 1 0 < _
    rw [packetSize_one]
    decide
  · change packetSize 8 1 0 ≤ _
    rw [packetSize_one]
    decide

/-- What is sent is received, in order and with both sides in step; what is altered is not. -/
theorem delivers (o : O) (i : I) (maxBytes : Nat) (h : InStep o i) :
    (∀ steps packets o', (∀ s ∈ steps, Sendable o.encrypter maxBytes s) →
      o.sendAll steps = .ok (packets, o') →
      ∃ received i',
        Reads (i.receiveAll maxBytes steps) (packets.map Prod.fst).flatten (received, i') ∧
        received.map Prod.fst = deliveries i.peerKexInit steps ∧
        received.map Prod.snd = packets.map Prod.snd ∧ InStep o' i') ∧
    (∀ s altered rest, Sendable o.encrypter maxBytes s →
      (∀ input, o.macCalculator.calculateMac input =
        o.macCalculator.calculateMac (sentInput o s) → input = sentInput o s) →
      altered.length = (o.encrypter.encryptPacket o.position s.body s.choices).length →
      altered.take 4 = (o.encrypter.encryptPacket o.position s.body s.choices).take 4 →
      (∀ input mac, Decrypts i maxBytes
        (altered ++ (o.macCalculator.calculateMac (sentInput o s) ++ rest)) input mac →
          input ≠ sentInput o s) →
      Rejected i maxBytes (altered ++ (o.macCalculator.calculateMac (sentInput o s) ++ rest))) ∧
    (∀ s bytes,
      (∀ input, o.macCalculator.calculateMac input <:+: bytes → input = sentInput o s) →
      (∀ input mac, Decrypts i maxBytes bytes input mac → input ≠ sentInput o s) →
      Rejected i maxBytes bytes) :=
  ⟨fun _ _ _ hsendable hsend => reads_receiveAll h hsendable hsend,
    fun _ _ _ hsendable hinjective hlength hfirst hdiffers =>
      rejected_of_altered h hsendable hinjective hlength hfirst hdiffers,
    fun _ _ hunforged hdiffers => rejected_of_unforged h hunforged hdiffers⟩

theorem delivers_plain : ∃ packets o' received i',
    O.sendAll ⟨.none, 0, noMac, 0, false⟩ [plain [21], plain [kexInit]] = .ok (packets, o') ∧
      Reads (I.receiveAll ⟨.none, 0, noMac, 0, none⟩ 100 [plain [21], plain [kexInit]])
        (packets.map Prod.fst).flatten (received, i') ∧
      received.map Prod.fst = [.message [21], .rekeying] ∧
      received.map Prod.snd = packets.map Prod.snd ∧ InStep o' i' := by
  obtain ⟨packets, o', hsend⟩ := sendAll_returns
    (show (⟨.none, 0, noMac, 0, false⟩ : O).nextSeq.toNat +
      [plain [21], plain [kexInit]].length < 2 ^ 32 by decide)
  have hsendable : ∀ s ∈ [plain [21], plain [kexInit]], Sendable .none 100 s := by
    intro s hs
    rcases List.mem_cons.mp hs with rfl | hs
    · exact sendable_plain 21
    · rw [List.mem_singleton.mp hs]
      exact sendable_plain kexInit
  obtain ⟨received, i', hread, hbodies, hseqs, hstep⟩ :=
    (delivers ⟨.none, 0, noMac, 0, false⟩ ⟨.none, 0, noMac, 0, none⟩ 100
      ⟨rfl, rfl, rfl, rfl⟩).1 _ packets o' hsendable hsend
  exact ⟨packets, o', received, i', hsend, hread, hbodies, hseqs, hstep⟩

/-- Every body is returned from `receiveMessage`. -/
def ReturnsAll : Prop :=
  ∀ (o o' : O) (i : I) maxBytes steps packets, InStep o i → i.peerKexInit = none →
    (∀ s ∈ steps, Sendable o.encrypter maxBytes s) → o.sendAll steps = .ok (packets, o') →
    ∃ received i',
      Reads (i.receiveAll maxBytes steps) (packets.map Prod.fst).flatten (received, i') ∧
      received.map Prod.fst = steps.map fun s => .message s.body

/-- The MAC rejects a packet that is altered anywhere. -/
def RejectsAltered : Prop :=
  ∀ (o : O) (i : I) maxBytes s altered rest, InStep o i → Sendable o.encrypter maxBytes s →
    (∀ input, o.macCalculator.calculateMac input =
      o.macCalculator.calculateMac (sentInput o s) → input = sentInput o s) →
    altered.length = (o.encrypter.encryptPacket o.position s.body s.choices).length →
    (∀ input mac, Decrypts i maxBytes
      (altered ++ (o.macCalculator.calculateMac (sentInput o s) ++ rest)) input mac →
        input ≠ sentInput o s) →
    Rejected i maxBytes (altered ++ (o.macCalculator.calculateMac (sentInput o s) ++ rest))

/-- The MAC input of a packet with sequence number 0 and body `[21]` -/
def plainInput : Bytes := [0, 0, 0, 0, 10, 21, 0, 0, 0, 0, 0, 0, 0, 0, 0, 0]

/-- A MAC that only this packet has -/
def onlyMac : Authenticator :=
  ⟨1, fun message => if message = plainInput then [1] else [2], fun message => by split_ifs <;> rfl⟩

theorem sentInput_plain (position : Nat) (rekeying : Bool) :
    sentInput ⟨.none, position, onlyMac, 0, rekeying⟩ (plain [21]) = plainInput := by
  change macInput 0 [21] ((List.range (packetSize 8 1 0 - 4 - 1 - 1)).map fun _ => 0) = _
  rw [packetSize_one]
  rfl

theorem not_returnsAll : ¬ ReturnsAll := by
  intro h
  have hstep : InStep ⟨.none, 0, noMac, 0, false⟩ ⟨.none, 0, noMac, 0, none⟩ :=
    ⟨rfl, rfl, rfl, rfl⟩
  have hsendable : ∀ s ∈ [plain [kexInit]], Sendable .none 100 s := by
    intro s hs
    rw [List.mem_singleton.mp hs]
    exact sendable_plain kexInit
  obtain ⟨packets, o', hsend⟩ := sendAll_returns
    (show (⟨.none, 0, noMac, 0, false⟩ : O).nextSeq.toNat + [plain [kexInit]].length < 2 ^ 32 by
      decide)
  obtain ⟨received, i', hread, hbodies⟩ := h _ _ _ 100 _ _ hstep rfl hsendable hsend
  obtain ⟨received₁, i₁, hread₁, hbodies₁, -⟩ := reads_receiveAll hstep hsendable hsend
  cases (hread []).symm.trans (hread₁ [])
  rw [hbodies] at hbodies₁
  exact absurd hbodies₁ (by decide)

theorem not_rejectsAltered : ¬ RejectsAltered := by
  intro h
  -- the last byte of the padding is in the MAC's place
  have hrejected := h ⟨.none, 0, onlyMac, 0, false⟩ ⟨.none, 0, onlyMac, 0, none⟩ 100 (plain [21])
    [0, 0, 0, 11, 9, 21, 0, 0, 0, 0, 0, 0, 0, 0, 0, 2] [] ⟨rfl, rfl, rfl, rfl⟩ (sendable_plain 21)
  rw [sentInput_plain] at hrejected
  have hinjective : ∀ input, onlyMac.calculateMac input = onlyMac.calculateMac plainInput →
      input = plainInput := by
    intro input hinput
    by_contra hne
    simp [onlyMac, hne] at hinput
  have hlength : 16 = (Cipher.none.encryptPacket 0 [21] ⟨0, fun _ => 0⟩).length := by
    rw [Cipher.length_encryptPacket]
    exact packetSize_one.symm
  have hdiffers : ∀ input mac, Decrypts ⟨.none, 0, onlyMac, 0, none⟩ 100
      [0, 0, 0, 11, 9, 21, 0, 0, 0, 0, 0, 0, 0, 0, 0, 2, 1] input mac → input ≠ plainInput := by
    rintro input mac ⟨x, rest, hx, -, rfl⟩
    obtain ⟨hx, -⟩ := Prod.mk.inj (Except.ok.inj hx)
    rw [← hx]
    decide
  obtain ⟨e, ⟨⟩⟩ := hrejected hinjective hlength hdiffers

theorem not_returnsAll_nor_rejectsAltered : ¬ ReturnsAll ∧ ¬ RejectsAltered :=
  ⟨not_returnsAll, not_rejectsAltered⟩

end Urnest.Ssh
