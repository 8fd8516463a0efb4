import Mathlib
import Urnest.Lib.Throwing
import Urnest.Utf8.Utf8String

/-!
# The data types of SSH on a stream

The primitives of encode.hcp and decode.hcp on the bytes of a stream: numbers, strings and
name lists. A decoder takes its bytes from the front of what is left, and `Reads` says that
it takes all of some bytes, whatever is behind them; `Reads.bind` puts decoders together.

A name list is written as its names with commas between, and read by `split`, which gives
one name for the empty string (`reads_names`).
-/

namespace Urnest.Ssh

abbrev Bytes := List UInt8

/-- What the decoders throw -/
inductive Exception where
  | endOfInput
  | notUtf8 (e : Utf8.Exception)
  /-- refused by libgcrypt -/
  | notInteger (bytes : Bytes)
  | expectedOne (got : UInt8)
  | expectedSshRsa (got : Bytes)
  | expectedPublickey (got : Bytes)
  /-- "SSH packet length 0 is not valid" -/
  | emptyPacket
  | paddingOverruns (paddingLength packetLength : Nat)
  | tooLong (length maxBytes : Nat)
  /-- not a multiple of the size of a cipher's blocks -/
  | partialBlock (length : Nat)
  | notAuthentic
  /-- of a sequence number -/
  | overflow
  /-- `O::Rekeying` or `I::Rekeying` -/
  | rekeying
  /-- the program is aborted -/
  | assertion
  deriving DecidableEq, Repr

/-- What is read, and what is left of the input -/
abbrev Decoder := StateT Bytes (Except Exception)

/-! ## Writing -/

def put8 (x : UInt8) : Bytes := [x]

def put16 (x : UInt16) : Bytes := put8 (x >>> 8).toUInt8 ++ put8 (x &&& 0xff).toUInt8

def put32 (x : UInt32) : Bytes := put16 (x >>> 16).toUInt16 ++ put16 (x &&& 0xffff).toUInt16

def encodeBool (x : Bool) : Bytes := put8 (if x then 1 else 0)

/-- Strings, byte vectors and signatures -/
def encodeString (x : Bytes) : Bytes := put32 (UInt32.ofNat x.length) ++ x

/-- `xju::format::join` of the names, with commas -/
def join (names : List Bytes) : Bytes := [44].intercalate names

def encodeNames (names : List Bytes) : Bytes := encodeString (join names)

/-! ## Reading -/

def get8 : Decoder UInt8
  | [] => .error .endOfInput
  | b :: rest => .ok (b, rest)

def get16 : Decoder UInt16 := do
  let hi ← get8
  let lo ← get8
  return (hi.toUInt16 <<< 8) + (lo.toUInt16 <<< 0)

def get32 : Decoder UInt32 := do
  let hi ← get16
  let lo ← get16
  return (hi.toUInt32 <<< 16) + (lo.toUInt32 <<< 0)

/-- So many bytes -/
abbrev Block (n : Nat) := { bytes : Bytes // bytes.length = n }

def getN : (n : Nat) → Decoder (Block n)
  | 0 => return ⟨[], rfl⟩
  | n + 1 => do
    let b ← get8
    let bytes ← getN n
    return ⟨b :: bytes.1, congrArg (· + 1) bytes.2⟩

def decodeBool : Decoder Bool := do
  return (← get8) ≠ 0

def decodeString : Decoder Bytes := do
  let size ← get32
  return (← getN size.toNat).1

/-- `xju::split(x, ',')` -/
def split (x : Bytes) : List Bytes := x.splitOn 44

def decodeNames : Decoder (List Bytes) := do
  return split (← decodeString)

/-! ## Reading back -/

/-- The decoder takes these bytes, and no others, and gives the value. -/
def Reads {α : Type} (d : Decoder α) (bytes : Bytes) (a : α) : Prop :=
  ∀ rest, d (bytes ++ rest) = .ok (a, rest)

theorem Reads.bind {α β : Type} {d : Decoder α} {f : α → Decoder β} {xs ys : Bytes} {a : α} {b : β}
    (h : Reads d xs a) (h' : Reads (f a) ys b) : Reads (d >>= f) (xs ++ ys) b := by
  intro rest
  have hd := h (ys ++ rest)
  rw [List.append_assoc]
  change (d (xs ++ (ys ++ rest)) >>= fun x => f x.1 x.2) = _
  rw [hd]
  exact h' rest

theorem Reads.pure {α : Type} (a : α) : Reads (pure a) [] a := fun _ => rfl

/-- A last step that takes nothing -/
theorem Reads.last {α β : Type} {d : Decoder α} {f : α → Decoder β} {bytes : Bytes} {a : α} {b : β}
    (h : Reads d bytes a) (h' : Reads (f a) [] b) : Reads (d >>= f) bytes b := by
  have hbind := h.bind h'
  rwa [List.append_nil] at hbind

theorem Reads.map {α β : Type} {d : Decoder α} {f : α → β} {bytes : Bytes} {a : α}
    (h : Reads d bytes a) : Reads (do return f (← d)) bytes (f a) :=
  h.last (Reads.pure (f a))

/-- Behind a check that holds -/
theorem Reads.check {α : Type} {p : Prop} [Decidable p] {d d' : Decoder α} {bytes : Bytes} {a : α}
    (h : ¬ p) (hread : Reads d' bytes a) : Reads (if p then d else d') bytes a := by
  rwa [if_neg h]

theorem reads_get8 (x : UInt8) : Reads get8 (put8 x) x := fun _ => rfl

theorem join16 (x : UInt16) :
    ((x >>> 8).toUInt8.toUInt16 <<< 8) + ((x &&& 0xff).toUInt8.toUInt16 <<< 0) = x := by
  apply UInt16.toNat_inj.mp
  have hx := x.toNat_lt
  have hlow : x.toNat % 256 &&& 255 = x.toNat % 256 % 2 ^ 8 :=
    Nat.and_two_pow_sub_one_eq_mod _ 8
  simp [Nat.shiftRight_eq_div_pow, Nat.shiftLeft_eq, hlow]
  omega

theorem join32 (x : UInt32) :
    ((x >>> 16).toUInt16.toUInt32 <<< 16) + ((x &&& 0xffff).toUInt16.toUInt32 <<< 0) = x := by
  apply UInt32.toNat_inj.mp
  have hx := x.toNat_lt
  have hlow : x.toNat % 65536 &&& 65535 = x.toNat % 65536 % 2 ^ 16 :=
    Nat.and_two_pow_sub_one_eq_mod _ 16
  simp [Nat.shiftRight_eq_div_pow, Nat.shiftLeft_eq, hlow]
  omega

theorem reads_get16 (x : UInt16) : Reads get16 (put16 x) x := by
  have h : Reads get16 (put16 x)
      (((x >>> 8).toUInt8.toUInt16 <<< 8) + ((x &&& 0xff).toUInt8.toUInt16 <<< 0)) :=
    (reads_get8 _).bind (Reads.map (reads_get8 _))
  rwa [join16] at h

theorem reads_get32 (x : UInt32) : Reads get32 (put32 x) x := by
  have h : Reads get32 (put32 x)
      (((x >>> 16).toUInt16.toUInt32 <<< 16) + ((x &&& 0xffff).toUInt16.toUInt32 <<< 0)) :=
    (reads_get16 _).bind (Reads.map (reads_get16 _))
  rwa [join32] at h

theorem reads_getN {n : Nat} (bytes : Block n) : Reads (getN n) bytes.1 bytes := by
  obtain ⟨bytes, rfl⟩ := bytes
  induction bytes with
  | nil => exact Reads.pure _
  | cons b bytes ih =>
    exact (reads_get8 b).bind (Reads.map ih)

theorem reads_bool (x : Bool) : Reads decodeBool (encodeBool x) x := by
  cases x with
  | false => exact Reads.map (reads_get8 0)
  | true => exact Reads.map (reads_get8 1)

theorem reads_string {x : Bytes} (h : x.length < 2 ^ 32) : Reads decodeString (encodeString x) x := by
  have hsize : (UInt32.ofNat x.length).toNat = x.length := UInt32.toNat_ofNat_of_lt h
  have hbytes : Reads (getN (UInt32.ofNat x.length).toNat) x ⟨x, hsize.symm⟩ :=
    reads_getN ⟨x, hsize.symm⟩
  exact (reads_get32 _).bind hbytes.map

/-! ## What is taken -/

/-- A check that has let the decoder go on -/
theorem of_check {α : Type} {p : Prop} [Decidable p] {e : Exception} {d : Decoder α}
    {bytes : Bytes} {x : α × Bytes} (h : (if p then throw e else d) bytes = .ok x) :
    ¬ p ∧ d bytes = .ok x := by
  split_ifs at h with hp
  · cases h
  · exact ⟨hp, h⟩

theorem of_get8 {bytes left : Bytes} {b : UInt8} (h : get8 bytes = .ok (b, left)) :
    bytes = b :: left := by
  cases bytes with
  | nil => cases h
  | cons x xs =>
    cases h
    rfl

theorem of_getN {n : Nat} {bytes left : Bytes} {block : Block n}
    (h : getN n bytes = .ok (block, left)) : bytes = block.1 ++ left := by
  induction n generalizing bytes with
  | zero =>
    cases h
    rfl
  | succ n ih =>
    obtain ⟨b, bytes₁, hb, h⟩ := Lib.run_bind_eq_ok.mp h
    obtain ⟨others, bytes₂, hothers, h⟩ := Lib.run_bind_eq_ok.mp h
    cases h
    rw [of_get8 hb, ih hothers]
    rfl

/-- What a name list comes back as -/
def readBack (names : List Bytes) : List Bytes := if names = [] then [[]] else names

theorem split_join {names : List Bytes} (h : ∀ name ∈ names, 44 ∉ name) :
    split (join names) = readBack names := by
  rw [readBack]
  split_ifs with hnames
  · rw [hnames]
    rfl
  · exact List.splitOn_intercalate 44 h hnames

theorem reads_names {names : List Bytes} (hlength : (join names).length < 2 ^ 32)
    (hcomma : ∀ name ∈ names, 44 ∉ name) :
    Reads decodeNames (encodeNames names) (readBack names) := by
  rw [← split_join hcomma]
  exact Reads.map (reads_string hlength)

theorem readBack_eq_self {names : List Bytes} : readBack names = names ↔ names ≠ [] := by
  rw [readBack]
  split_ifs with h
  · simp [h]
  · simp [h]

end Urnest.Ssh
