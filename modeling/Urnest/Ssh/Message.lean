import Mathlib
import Urnest.Ssh.Stream

/-!
# SSH messages

The messages that encode.hcp writes and decode.hcp reads back, the type byte in front. Big
integers are libgcrypt's, of which `value` and the constructor from bytes are all that is
used.

Every message comes back with its name lists as `readBack` has them, and with all else as it
was (`reads_message`), so that it comes back as it was when none of its name lists is empty.
-/

namespace Urnest.Ssh

/-- `xju::crypt::I`: its bytes, and the integer of some bytes -/
structure Integers (I : Type) where
  value : I → Bytes
  scan : Bytes → Option I

abbrev Name := Bytes

/-! ## Messages -/

structure KexInit where
  cookie : Block 16
  kexAlgorithms : List Name
  serverHostKeyAlgorithmNames : List Name
  clientOutCipherNames : List Name
  serverOutCipherNames : List Name
  clientOutPacketAuthenticatorNames : List Name
  serverOutPacketAuthenticatorNames : List Name
  clientOutCompressorNames : List Name
  serverOutCompressorNames : List Name
  clientOutLanguageNames : List Name
  serverOutLanguageNames : List Name
  firstKexPacketFollows : Bool

structure KexDHInit (I : Type) where
  e : I

structure KexDHReply (I : Type) where
  hostKeyAndCertificates : Bytes
  f : I
  hostSignature : Bytes

structure Disconnect where
  reason : UInt32
  description : Bytes
  languageTag : Bytes

structure ServiceRequest where
  service : Name

structure ServiceAccept where
  service : Name

structure Ignore where
  data : Bytes

structure Request where
  userName : Bytes
  serviceName : Name
  methodName : Name

structure PublicKey (I : Type) where
  e : I
  n : I

/-- The method name is "publickey". -/
structure RSAPublicKeyRequest (I : Type) where
  userName : Bytes
  serviceName : Name
  publicKey : PublicKey I
  signature : Bytes

structure Failure where
  canContinue : List Name
  partialSuccess : Bool

structure Banner where
  message : Utf8.Utf8String
  language : Bytes

inductive Message (I : Type) where
  | kexInit (x : KexInit)
  | kexDHInit (x : KexDHInit I)
  | kexDHReply (x : KexDHReply I)
  | disconnect (x : Disconnect)
  | serviceRequest (x : ServiceRequest)
  | serviceAccept (x : ServiceAccept)
  | ignore (x : Ignore)
  | request (x : Request)
  | rsaPublicKeyRequest (x : RSAPublicKeyRequest I)
  | failure (x : Failure)
  | banner (x : Banner)

/-- What a message is decoded as -/
inductive Kind where
  | kexInit
  | kexDHInit
  | kexDHReply
  | disconnect
  | serviceRequest
  | serviceAccept
  | ignore
  | request
  | rsaPublicKeyRequest
  | failure
  | banner
  deriving DecidableEq

/-- `transport::MSG`, `userauth::MSG` -/
def Kind.type : Kind → UInt8
  | kexInit => 20
  | kexDHInit => 30
  | kexDHReply => 31
  | disconnect => 1
  | serviceRequest => 5
  | serviceAccept => 6
  | ignore => 2
  | request => 50
  | rsaPublicKeyRequest => 50
  | failure => 51
  | banner => 53

def publickey : Name := [112, 117, 98, 108, 105, 99, 107, 101, 121]

def sshRsa : Name := [115, 115, 104, 45, 114, 115, 97]

variable {I : Type}

def Message.kind : Message I → Kind
  | kexInit _ => .kexInit
  | kexDHInit _ => .kexDHInit
  | kexDHReply _ => .kexDHReply
  | disconnect _ => .disconnect
  | serviceRequest _ => .serviceRequest
  | serviceAccept _ => .serviceAccept
  | ignore _ => .ignore
  | request _ => .request
  | rsaPublicKeyRequest _ => .rsaPublicKeyRequest
  | failure _ => .failure
  | banner _ => .banner

/-! ## Encoding -/

section Encode

variable (integers : Integers I)

def encodeI (x : I) : Bytes := encodeString (integers.value x)

/-- The part behind the type byte -/
def encodeKexInit (x : KexInit) : Bytes :=
  x.cookie.1 ++ (encodeNames x.kexAlgorithms ++ (encodeNames x.serverHostKeyAlgorithmNames ++
  (encodeNames x.clientOutCipherNames ++ (encodeNames x.serverOutCipherNames ++
  (encodeNames x.clientOutPacketAuthenticatorNames ++
  (encodeNames x.serverOutPacketAuthenticatorNames ++
  (encodeNames x.clientOutCompressorNames ++ (encodeNames x.serverOutCompressorNames ++
  (encodeNames x.clientOutLanguageNames ++ (encodeNames x.serverOutLanguageNames ++
  (encodeBool x.firstKexPacketFollows ++ put32 0)))))))))))

def encodeRequest (x : Request) : Bytes :=
  encodeString x.userName ++ (encodeString x.serviceName ++ encodeString x.methodName)

def encodePublicKey (x : PublicKey I) : Bytes :=
  encodeString sshRsa ++ (encodeI integers x.e ++ encodeI integers x.n)

/-- of a public key with a signature -/
def encodeSigned (x : PublicKey I) (signature : Bytes) : Bytes :=
  encodePublicKey integers x ++ (encodeString sshRsa ++ encodeString signature)

def encodeRSAPublicKeyRequest (x : RSAPublicKeyRequest I) : Bytes :=
  encodeRequest ⟨x.userName, x.serviceName, publickey⟩ ++ (encodeBool true ++
  (encodeString sshRsa ++ encodeSigned integers x.publicKey x.signature))

def encodeBody : Message I → Bytes
  | .kexInit x => encodeKexInit x
  | .kexDHInit x => encodeI integers x.e
  | .kexDHReply x => encodeString x.hostKeyAndCertificates ++
      (encodeI integers x.f ++ encodeString x.hostSignature)
  | .disconnect x => put32 x.reason ++ (encodeString x.description ++ encodeString x.languageTag)
  | .serviceRequest x => encodeString x.service
  | .serviceAccept x => encodeString x.service
  | .ignore x => encodeString x.data
  | .request x => encodeRequest x
  | .rsaPublicKeyRequest x => encodeRSAPublicKeyRequest integers x
  | .failure x => encodeNames x.canContinue ++ encodeBool x.partialSuccess
  | .banner x => encodeString x.message.value ++ encodeString x.language

/-- `encode` -/
def encode (x : Message I) : Bytes := put8 x.kind.type ++ encodeBody integers x

end Encode

/-! ## Decoding -/

section Decode

variable (integers : Integers I)

def decodeI : Decoder I := do
  let bytes ← decodeString
  match integers.scan bytes with
  | some x => return x
  | none => throw (.notInteger bytes)

def decodeUtf8String : Decoder Utf8.Utf8String := do
  let text ← decodeString
  match Utf8.Utf8String.make text with
  | .ok x => return x
  | .error e => throw (.notUtf8 e)

def decodeKexInit : Decoder KexInit := do
  let cookie ← getN 16
  let kexAlgorithms ← decodeNames
  let serverHostKeyAlgorithmNames ← decodeNames
  let clientOutCipherNames ← decodeNames
  let serverOutCipherNames ← decodeNames
  let clientOutPacketAuthenticatorNames ← decodeNames
  let serverOutPacketAuthenticatorNames ← decodeNames
  let clientOutCompressorNames ← decodeNames
  let serverOutCompressorNames ← decodeNames
  let clientOutLanguageNames ← decodeNames
  let serverOutLanguageNames ← decodeNames
  let firstKexPacketFollows ← decodeBool
  let _ ← get32
  return ⟨cookie, kexAlgorithms, serverHostKeyAlgorithmNames, clientOutCipherNames,
    serverOutCipherNames, clientOutPacketAuthenticatorNames, serverOutPacketAuthenticatorNames,
    clientOutCompressorNames, serverOutCompressorNames, clientOutLanguageNames,
    serverOutLanguageNames, firstKexPacketFollows⟩

def decodeKexDHReply : Decoder (KexDHReply I) := do
  let hostKeyAndCertificates ← decodeString
  let f ← decodeI integers
  let hostSignature ← decodeString
  return ⟨hostKeyAndCertificates, f, hostSignature⟩

def decodeDisconnect : Decoder Disconnect := do
  let reason ← get32
  let description ← decodeString
  let languageTag ← decodeString
  return ⟨reason, description, languageTag⟩

def decodeRequest : Decoder Request := do
  let userName ← decodeString
  let serviceName ← decodeString
  let methodName ← decodeString
  return ⟨userName, serviceName, methodName⟩

/-- The name of the key type is looked at last. -/
def decodePublicKey : Decoder (PublicKey I) := do
  let keyTypeName ← decodeString
  let e ← decodeI integers
  let n ← decodeI integers
  if keyTypeName ≠ sshRsa then throw (.expectedSshRsa keyTypeName)
  return ⟨e, n⟩

def decodeTrue : Decoder Unit := do
  let x ← get8
  if x ≠ 1 then throw (.expectedOne x)

/-- "ssh-rsa", as the name of an algorithm or the type of a signature -/
def decodeSshRsa : Decoder Unit := do
  let x ← decodeString
  if x ≠ sshRsa then throw (.expectedSshRsa x)

def decodeRSAPublicKeyRequest : Decoder (RSAPublicKeyRequest I) := do
  let request ← decodeRequest
  if request.methodName ≠ publickey then throw (.expectedPublickey request.methodName)
  decodeTrue
  decodeSshRsa
  let publicKey ← decodePublicKey integers
  decodeSshRsa
  let signature ← decodeString
  return ⟨request.userName, request.serviceName, publicKey, signature⟩

def decodeFailure : Decoder Failure := do
  let canContinue ← decodeNames
  let partialSuccess ← decodeBool
  return ⟨canContinue, partialSuccess⟩

def decodeBanner : Decoder Banner := do
  let message ← decodeUtf8String
  let language ← decodeString
  return ⟨message, language⟩

/-- `decode`, the type byte being read -/
def decodeBody : Kind → Decoder (Message I)
  | .kexInit => do return .kexInit (← decodeKexInit)
  | .kexDHInit => do return .kexDHInit ⟨← decodeI integers⟩
  | .kexDHReply => do return .kexDHReply (← decodeKexDHReply integers)
  | .disconnect => do return .disconnect (← decodeDisconnect)
  | .serviceRequest => do return .serviceRequest ⟨← decodeString⟩
  | .serviceAccept => do return .serviceAccept ⟨← decodeString⟩
  | .ignore => do return .ignore ⟨← decodeString⟩
  | .request => do return .request (← decodeRequest)
  | .rsaPublicKeyRequest => do return .rsaPublicKeyRequest (← decodeRSAPublicKeyRequest integers)
  | .failure => do return .failure (← decodeFailure)
  | .banner => do return .banner (← decodeBanner)

/-- The type byte, and then a message of the kind -/
def decodeMessage (kind : Kind) : Decoder (UInt8 × Message I) := do
  let type ← get8
  let x ← decodeBody integers kind
  return (type, x)

end Decode

/-! ## What is in a message -/

def KexInit.nameLists (x : KexInit) : List (List Name) :=
  [x.kexAlgorithms, x.serverHostKeyAlgorithmNames, x.clientOutCipherNames,
    x.serverOutCipherNames, x.clientOutPacketAuthenticatorNames,
    x.serverOutPacketAuthenticatorNames, x.clientOutCompressorNames, x.serverOutCompressorNames,
    x.clientOutLanguageNames, x.serverOutLanguageNames]

namespace Message

def nameLists : Message I → List (List Name)
  | kexInit x => x.nameLists
  | failure x => [x.canContinue]
  | _ => []

/-- The strings, byte vectors and signatures -/
def strings : Message I → List Bytes
  | kexDHReply x => [x.hostKeyAndCertificates, x.hostSignature]
  | disconnect x => [x.description, x.languageTag]
  | serviceRequest x => [x.service]
  | serviceAccept x => [x.service]
  | ignore x => [x.data]
  | request x => [x.userName, x.serviceName, x.methodName]
  | rsaPublicKeyRequest x => [x.userName, x.serviceName, x.signature]
  | banner x => [x.message.value, x.language]
  | _ => []

def integers : Message I → List I
  | kexDHInit x => [x.e]
  | kexDHReply x => [x.f]
  | rsaPublicKeyRequest x => [x.publicKey.e, x.publicKey.n]
  | _ => []

end Message

/-- A list of names that are not empty and have no comma in them, which is a string -/
structure NameList (names : List Name) : Prop where
  nonempty : ∀ name ∈ names, name ≠ []
  comma : ∀ name ∈ names, 44 ∉ name
  length : (join names).length < 2 ^ 32

/-- All that is in it has a length that can be written. -/
structure Message.Wellformed (integers : Integers I) (x : Message I) : Prop where
  nameLists : ∀ names ∈ x.nameLists, NameList names
  strings : ∀ s ∈ x.strings, s.length < 2 ^ 32
  integers : ∀ i ∈ x.integers, (integers.value i).length < 2 ^ 32

/-! ## Reading back -/

/-- The message with its name lists as they come back -/
def Message.comesBack : Message I → Message I
  | kexInit x => kexInit ⟨x.cookie, readBack x.kexAlgorithms,
      readBack x.serverHostKeyAlgorithmNames, readBack x.clientOutCipherNames,
      readBack x.serverOutCipherNames, readBack x.clientOutPacketAuthenticatorNames,
      readBack x.serverOutPacketAuthenticatorNames, readBack x.clientOutCompressorNames,
      readBack x.serverOutCompressorNames, readBack x.clientOutLanguageNames,
      readBack x.serverOutLanguageNames, x.firstKexPacketFollows⟩
  | failure x => failure ⟨readBack x.canContinue, x.partialSuccess⟩
  | x => x

theorem Message.comesBack_eq_self {x : Message I} :
    x.comesBack = x ↔ ∀ names ∈ x.nameLists, names ≠ [] := by
  cases x with
  | kexInit x =>
    obtain ⟨cookie, kex, key, c₁, s₁, c₂, s₂, c₃, s₃, c₄, s₄, first⟩ := x
    simp only [comesBack, nameLists, KexInit.nameLists, kexInit.injEq, KexInit.mk.injEq,
      readBack_eq_self, true_and, and_true, List.forall_mem_cons, List.not_mem_nil,
      false_imp_iff, implies_true]
  | failure x =>
    obtain ⟨names, partialSuccess⟩ := x
    simp only [comesBack, nameLists, failure.injEq, Failure.mk.injEq, readBack_eq_self, and_true,
      List.forall_mem_cons, List.not_mem_nil, false_imp_iff, implies_true]
  | kexDHInit x => exact iff_of_true rfl (fun _ h => nomatch h)
  | kexDHReply x => exact iff_of_true rfl (fun _ h => nomatch h)
  | disconnect x => exact iff_of_true rfl (fun _ h => nomatch h)
  | serviceRequest x => exact iff_of_true rfl (fun _ h => nomatch h)
  | serviceAccept x => exact iff_of_true rfl (fun _ h => nomatch h)
  | ignore x => exact iff_of_true rfl (fun _ h => nomatch h)
  | request x => exact iff_of_true rfl (fun _ h => nomatch h)
  | rsaPublicKeyRequest x => exact iff_of_true rfl (fun _ h => nomatch h)
  | banner x => exact iff_of_true rfl (fun _ h => nomatch h)

section Reads

variable {integers : Integers I}

theorem NameList.reads {names : List Name} (h : NameList names) :
    Reads decodeNames (encodeNames names) (readBack names) :=
  reads_names h.length h.comma

theorem reads_kexInit {x : KexInit} (h : ∀ names ∈ x.nameLists, NameList names) :
    Reads decodeKexInit (encodeKexInit x) ⟨x.cookie, readBack x.kexAlgorithms,
      readBack x.serverHostKeyAlgorithmNames, readBack x.clientOutCipherNames,
      readBack x.serverOutCipherNames, readBack x.clientOutPacketAuthenticatorNames,
      readBack x.serverOutPacketAuthenticatorNames, readBack x.clientOutCompressorNames,
      readBack x.serverOutCompressorNames, readBack x.clientOutLanguageNames,
      readBack x.serverOutLanguageNames, x.firstKexPacketFollows⟩ := by
  simp only [KexInit.nameLists, List.forall_mem_cons, List.not_mem_nil, false_imp_iff,
    implies_true, and_true] at h
  obtain ⟨hkex, hkey, hc₁, hs₁, hc₂, hs₂, hc₃, hs₃, hc₄, hs₄⟩ := h
  refine (reads_getN x.cookie).bind ?_
  refine hkex.reads.bind (hkey.reads.bind ?_)
  refine hc₁.reads.bind (hs₁.reads.bind ?_)
  refine hc₂.reads.bind (hs₂.reads.bind ?_)
  refine hc₃.reads.bind (hs₃.reads.bind ?_)
  refine hc₄.reads.bind (hs₄.reads.bind ?_)
  exact (reads_bool _).bind (reads_get32 0).map

theorem reads_I (hscan : ∀ x, integers.scan (integers.value x) = some x) {x : I}
    (h : (integers.value x).length < 2 ^ 32) :
    Reads (decodeI integers) (encodeI integers x) x := by
  refine (reads_string h).last ?_
  rw [hscan]
  exact Reads.pure x

theorem reads_request {x : Request} (hu : x.userName.length < 2 ^ 32)
    (hs : x.serviceName.length < 2 ^ 32) (hm : x.methodName.length < 2 ^ 32) :
    Reads decodeRequest (encodeRequest x) x :=
  (reads_string hu).bind ((reads_string hs).bind (reads_string hm).map)

theorem reads_publicKey (hscan : ∀ x, integers.scan (integers.value x) = some x)
    {x : PublicKey I} (he : (integers.value x.e).length < 2 ^ 32)
    (hn : (integers.value x.n).length < 2 ^ 32) :
    Reads (decodePublicKey integers) (encodePublicKey integers x) x := by
  refine (reads_string (by decide)).bind ((reads_I hscan he).bind ?_)
  exact (reads_I hscan hn).last (.check (by simp) (.pure _))

theorem reads_sshRsa : Reads decodeSshRsa (encodeString sshRsa) () :=
  (reads_string (by decide)).last (.check (by simp) (.pure ()))

theorem reads_true : Reads decodeTrue (encodeBool true) () := by
  intro rest
  rfl

theorem reads_rsaPublicKeyRequest (hscan : ∀ x, integers.scan (integers.value x) = some x)
    {x : RSAPublicKeyRequest I} (hu : x.userName.length < 2 ^ 32)
    (hs : x.serviceName.length < 2 ^ 32) (hsignature : x.signature.length < 2 ^ 32)
    (he : (integers.value x.publicKey.e).length < 2 ^ 32)
    (hn : (integers.value x.publicKey.n).length < 2 ^ 32) :
    Reads (decodeRSAPublicKeyRequest integers) (encodeRSAPublicKeyRequest integers x) x := by
  have hmethod : publickey.length < 2 ^ 32 := by decide
  refine (reads_request hu hs hmethod).bind (.check (by simp) ?_)
  refine reads_true.bind (reads_sshRsa.bind ?_)
  refine (reads_publicKey hscan he hn).bind (reads_sshRsa.bind ?_)
  exact (reads_string hsignature).map

theorem reads_banner {x : Banner} (hm : x.message.value.length < 2 ^ 32)
    (hl : x.language.length < 2 ^ 32) :
    Reads decodeBanner (encodeString x.message.value ++ encodeString x.language) x := by
  have hmessage : Reads decodeUtf8String (encodeString x.message.value) x.message := by
    refine (reads_string hm).last ?_
    rw [x.message.make_value]
    exact Reads.pure _
  exact hmessage.bind (reads_string hl).map

theorem reads_body (hscan : ∀ x, integers.scan (integers.value x) = some x) {x : Message I}
    (h : x.Wellformed integers) :
    Reads (decodeBody integers x.kind) (encodeBody integers x) x.comesBack := by
  obtain ⟨hlists, hstrings, hintegers⟩ := h
  cases x with
  | kexInit x => exact (reads_kexInit hlists).map
  | kexDHInit x =>
    simp only [Message.integers, List.forall_mem_cons] at hintegers
    exact (reads_I hscan hintegers.1).map
  | kexDHReply x =>
    simp only [Message.strings, Message.integers, List.forall_mem_cons] at hstrings hintegers
    obtain ⟨hkey, hsignature, -⟩ := hstrings
    refine Reads.map ?_
    exact (reads_string hkey).bind ((reads_I hscan hintegers.1).bind (reads_string hsignature).map)
  | disconnect x =>
    simp only [Message.strings, List.forall_mem_cons] at hstrings
    obtain ⟨hdescription, htag, -⟩ := hstrings
    refine Reads.map ?_
    exact (reads_get32 _).bind ((reads_string hdescription).bind (reads_string htag).map)
  | serviceRequest x => exact (reads_string (hstrings _ (List.mem_cons_self ..))).map
  | serviceAccept x => exact (reads_string (hstrings _ (List.mem_cons_self ..))).map
  | ignore x => exact (reads_string (hstrings _ (List.mem_cons_self ..))).map
  | request x =>
    simp only [Message.strings, List.forall_mem_cons] at hstrings
    obtain ⟨hu, hs, hm, -⟩ := hstrings
    exact (reads_request hu hs hm).map
  | rsaPublicKeyRequest x =>
    simp only [Message.strings, Message.integers, List.forall_mem_cons] at hstrings hintegers
    obtain ⟨hu, hs, hsignature, -⟩ := hstrings
    obtain ⟨he, hn, -⟩ := hintegers
    exact (reads_rsaPublicKeyRequest hscan hu hs hsignature he hn).map
  | failure x =>
    refine Reads.map ?_
    exact (hlists _ (List.mem_cons_self ..)).reads.bind (reads_bool _).map
  | banner x =>
    simp only [Message.strings, List.forall_mem_cons] at hstrings
    obtain ⟨hm, hl, -⟩ := hstrings
    exact (reads_banner hm hl).map

theorem reads_message (hscan : ∀ x, integers.scan (integers.value x) = some x) {x : Message I}
    (h : x.Wellformed integers) :
    Reads (decodeMessage integers x.kind) (encode integers x) (x.kind.type, x.comesBack) :=
  (reads_get8 _).bind (reads_body hscan h).map

end Reads

/-- What is encoded decodes to the message, with its type, and nothing is left. -/
def RoundTrips (integers : Integers I) (x : Message I) : Prop :=
  decodeMessage integers x.kind (encode integers x) = .ok ((x.kind.type, x), [])

/-- A message comes back when it has no empty name list. -/
theorem roundTrips_iff (integers : Integers I)
    (hscan : ∀ x, integers.scan (integers.value x) = some x) (x : Message I)
    (h : x.Wellformed integers) :
    RoundTrips integers x ↔ ∀ names ∈ x.nameLists, names ≠ [] := by
  have hread := reads_message hscan h []
  rw [List.append_nil] at hread
  rw [RoundTrips, hread, ← Message.comesBack_eq_self]
  constructor
  · intro heq
    exact (Prod.mk.inj (Prod.mk.inj (Except.ok.inj heq)).1).2
  · intro heq
    rw [heq]

/-- Integers that are kept as their bytes -/
def asBytes : Integers Bytes := ⟨id, some⟩

theorem roundTrips_iff_password :
    RoundTrips asBytes (.failure ⟨[[112, 97, 115, 115]], false⟩) ↔
      ∀ names ∈ (Message.failure ⟨[[112, 97, 115, 115]], false⟩ : Message Bytes).nameLists,
        names ≠ [] := by
  refine roundTrips_iff asBytes (fun _ => rfl) _ ⟨fun names hnames => ?_, ?_, ?_⟩
  · obtain rfl := List.mem_singleton.mp hnames
    exact ⟨by decide, by decide, by decide⟩
  · exact fun _ h => nomatch h
  · exact fun _ h => nomatch h

/-- No method can continue: the list comes back with one name, which is empty. -/
theorem not_roundTrips : Message.Wellformed asBytes (.failure ⟨[], false⟩) ∧
    ¬ RoundTrips asBytes (.failure ⟨[], false⟩) := by
  refine ⟨⟨fun names hnames => ?_, fun _ h => (nomatch h), fun _ h => (nomatch h)⟩, fun h => ?_⟩
  · obtain rfl := List.mem_singleton.mp hnames
    exact ⟨fun _ h => (nomatch h), fun _ h => (nomatch h), by decide⟩
  · have hread : decodeMessage asBytes .failure (encode asBytes (.failure ⟨[], false⟩)) =
        .ok ((51, .failure ⟨[[]], false⟩), []) := rfl
    rw [RoundTrips, Message.kind, hread] at h
    cases h

end Urnest.Ssh
