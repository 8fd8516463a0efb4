import Urnest.Ssh.Message

/-!
# Keys of a required size

resizeHash.hcp lengthens the hash that a key is made from, by hashes of all there is of it so
far, until there is enough. RFC 4253 7.2 hashes `K`, `H` and what there is (`expansion`).

The code refuses a hash that is no multiple of 8 bytes, as SHA-1's is not, and has the length
of `H` before `H` in what it hashes. So it gives the keys of the RFC for whichever hash
function just where neither comes into play (`derives_iff`).
-/

namespace Urnest.Ssh

variable {I : Type}

/-- A hash function and the size of its output -/
structure HashFunction (size : Nat) where
  hash : Bytes → Bytes
  length_hash : ∀ data, (hash data).length = size
  size_pos : 0 < size

variable {size : Nat} (integers : Integers I) (hashFunction : HashFunction size) (k : I) (h : Bytes)

/-! ## The code -/

/-- What `more` is the hash of -/
def moreOf (hash : Bytes) : Bytes :=
  encodeString (integers.value k) ++ (put32 (UInt32.ofNat h.length) ++ (h ++ hash))

/-- The loop -/
def lengthen (requiredSize : Nat) (hash : Bytes) : Bytes :=
  if hash.length * 8 < requiredSize then
    lengthen requiredSize (hash ++ hashFunction.hash (moreOf integers k h hash))
  else hash
termination_by requiredSize - hash.length * 8
decreasing_by
  have hpos := hashFunction.size_pos
  rw [List.length_append, hashFunction.length_hash]
  omega

/-- `resize` of a vector -/
def resize (n : Nat) (x : Bytes) : Bytes := x.take n ++ List.replicate (n - x.length) 0

def resizeHash (hash : Bytes) (requiredSize : Nat) : Except Exception Bytes := do
  if hash.length % 8 ≠ 0 then throw .assertion
  return resize (requiredSize / 8) (lengthen integers hashFunction k h requiredSize hash)

/-! ## RFC 4253 7.2 -/

/-- `K1 || K2 || ...`, with so many keys behind the first -/
def expansion (k1 : Bytes) : Nat → Bytes
  | 0 => k1
  | n + 1 =>
    let keys := expansion k1 n
    keys ++ hashFunction.hash (encodeString (integers.value k) ++ (h ++ keys))

/-- The first bytes of `K1 || K2 || ...` are returned, as many as are required. -/
def Derives (k1 : Bytes) (requiredSize : Nat) : Prop :=
  ∃ key, resizeHash integers hashFunction k h k1 requiredSize = .ok key ∧
    key.length = requiredSize / 8 ∧ ∃ n, key <+: expansion integers hashFunction k h k1 n

/-! ## What both make -/

theorem prefix_lengthen (requiredSize : Nat) (hash : Bytes) :
    hash <+: lengthen integers hashFunction k h requiredSize hash := by
  induction hash using lengthen.induct integers hashFunction k h requiredSize with
  | case1 hash hshort ih =>
    rw [lengthen, if_pos hshort]
    exact (List.prefix_append ..).trans ih
  | case2 hash hlong =>
    have heq : lengthen integers hashFunction k h requiredSize hash = hash := by
      rw [lengthen, if_neg hlong]
    exact ⟨[], (List.append_nil _).trans heq.symm⟩

/-- There is enough in the end. -/
theorem le_length_lengthen (requiredSize : Nat) (hash : Bytes) :
    requiredSize ≤ (lengthen integers hashFunction k h requiredSize hash).length * 8 := by
  induction hash using lengthen.induct integers hashFunction k h requiredSize with
  | case1 hash hshort ih => rwa [lengthen, if_pos hshort]
  | case2 hash hlong =>
    rw [lengthen, if_neg hlong]
    omega

theorem prefix_expansion (k1 : Bytes) (m n : Nat) :
    expansion integers hashFunction k h k1 m <+:
      expansion integers hashFunction k h k1 (m + n) := by
  induction n with
  | zero => exact List.prefix_refl _
  | succ n ih => exact ih.trans (List.prefix_append ..)

variable {integers hashFunction k h}

theorem resize_of_le {n : Nat} {x : Bytes} (hle : n ≤ x.length) : resize n x = x.take n := by
  rw [resize, Nat.sub_eq_zero_of_le hle]
  exact List.append_nil _

/-- Of a hash that is accepted the required bytes are returned. -/
theorem resizeHash_eq {hash : Bytes} (hhash : hash.length % 8 = 0) (requiredSize : Nat) :
    resizeHash integers hashFunction k h hash requiredSize =
      .ok ((lengthen integers hashFunction k h requiredSize hash).take (requiredSize / 8)) := by
  have hlength := le_length_lengthen integers hashFunction k h requiredSize hash
  rw [resizeHash, if_neg (not_not.mpr hhash), resize_of_le (by omega)]
  rfl

/-- A hash that is long enough is cut. -/
theorem derives_of_le {k1 : Bytes} {requiredSize : Nat} (hk1 : k1.length % 8 = 0)
    (hle : requiredSize ≤ k1.length * 8) : Derives integers hashFunction k h k1 requiredSize := by
  refine ⟨k1.take (requiredSize / 8), ?_, ?_, 0, List.take_prefix ..⟩
  · rw [resizeHash_eq hk1, lengthen, if_neg (by omega)]
  · rw [List.length_take]
    omega

theorem getElem?_of_starts {xs ys : Bytes} {i : Nat} (hstarts : xs <+: ys) (hi : i < xs.length) :
    ys[i]? = xs[i]? := by
  obtain ⟨rest, rfl⟩ := hstarts
  exact List.getElem?_append_left hi

/-- The first byte behind `K1` is of the hash of what has a length before `H`. -/
theorem not_derives {k1 : Bytes} {requiredSize : Nat} (hrequired : requiredSize % 8 = 0)
    (hlt : k1.length * 8 < requiredSize)
    (hdiffer : (hashFunction.hash (moreOf integers k h k1))[0]? ≠
      (hashFunction.hash (encodeString (integers.value k) ++ (h ++ k1)))[0]?) :
    ¬ Derives integers hashFunction k h k1 requiredSize := by
  rintro ⟨key, hkey, hlength, n, hstarts⟩
  have hpos := hashFunction.size_pos
  have hk1 : k1.length % 8 = 0 := by
    by_contra hne
    rw [resizeHash, if_pos hne] at hkey
    cases hkey
  have hbehind : k1.length < key.length := by omega
  rw [resizeHash_eq hk1, lengthen, if_pos hlt] at hkey
  obtain rfl := Except.ok.inj hkey
  -- what stands there in the code's key, and what in the keys of the RFC
  have hcode := getElem?_of_starts
    (prefix_lengthen integers hashFunction k h requiredSize
      (k1 ++ hashFunction.hash (moreOf integers k h k1)))
    (i := k1.length) (by rw [List.length_append, hashFunction.length_hash]; omega)
  have hrfc := getElem?_of_starts hstarts hbehind
  rw [List.getElem?_take_of_lt (by omega), hcode, List.getElem?_append_right (Nat.le_refl _),
    Nat.sub_self] at hrfc
  cases n with
  | zero =>
    have hshort := hstarts.length_le
    exact absurd hshort (Nat.not_le_of_lt hbehind)
  | succ n =>
    have hfirst := prefix_expansion integers hashFunction k h k1 1 n
    rw [Nat.add_comm] at hfirst
    rw [getElem?_of_starts hfirst (by
      rw [expansion, List.length_append, hashFunction.length_hash, expansion]; omega), expansion,
      expansion, List.getElem?_append_right (Nat.le_refl _), Nat.sub_self] at hrfc
    exact hdiffer hrfc.symm

/-! ## Which keys are the RFC's -/

/-- A hash that shows how many bytes it is of -/
def lengthHash (hsize : 0 < size) : HashFunction size :=
  ⟨fun data => List.replicate size (UInt8.ofNat data.length), fun _ => List.length_replicate,
    hsize⟩

theorem lengthHash_ne (hsize : 0 < size) (k1 : Bytes) :
    ((lengthHash hsize).hash (moreOf integers k h k1))[0]? ≠
      ((lengthHash hsize).hash (encodeString (integers.value k) ++ (h ++ k1)))[0]? := by
  have hlonger : (moreOf integers k h k1).length =
      (encodeString (integers.value k) ++ (h ++ k1)).length + 4 := by
    have hput : (put32 (UInt32.ofNat h.length)).length = 4 := rfl
    rw [moreOf, List.length_append, List.length_append, List.length_append, List.length_append,
      List.length_append, hput]
    omega
  rw [lengthHash, List.getElem?_replicate_of_lt hsize, List.getElem?_replicate_of_lt hsize, hlonger]
  intro hsame
  have hbytes := congrArg UInt8.toNat (Option.some.inj hsame)
  rw [UInt8.toNat_ofNat', UInt8.toNat_ofNat'] at hbytes
  omega

variable (integers k h)

/-- For whichever hash function: of a multiple of 8 bytes, as many as it has. -/
theorem derives_iff (hsize : 0 < size) (k1 : Bytes) {requiredSize : Nat}
    (hrequired : requiredSize % 8 = 0) :
    (∀ hashFunction : HashFunction size, Derives integers hashFunction k h k1 requiredSize) ↔
      k1.length % 8 = 0 ∧ requiredSize ≤ k1.length * 8 := by
  constructor
  · intro hall
    obtain ⟨key, hkey, -, -⟩ := hall (lengthHash hsize)
    constructor
    · by_contra hne
      rw [resizeHash, if_pos hne] at hkey
      cases hkey
    · by_contra hlong
      exact not_derives hrequired (by omega) (lengthHash_ne hsize k1) (hall (lengthHash hsize))
  · rintro ⟨hk1, hle⟩ hashFunction
    exact derives_of_le hk1 hle

theorem derives_iff_eight :
    (∀ hashFunction : HashFunction 8,
      Derives asBytes hashFunction [5] [6] [1, 2, 3, 4, 5, 6, 7, 8] 64) ↔
      [1, 2, 3, 4, 5, 6, 7, 8].length % 8 = 0 ∧ 64 ≤ [1, 2, 3, 4, 5, 6, 7, 8].length * 8 :=
  derives_iff asBytes [5] [6] (by decide) [1, 2, 3, 4, 5, 6, 7, 8] (by decide)

/-- No key comes of the 20 bytes of SHA-1; and of 8 bytes there is another one of 16 bytes. -/
theorem not_derives_sha1 :
    (¬ ∀ hashFunction : HashFunction 20,
      Derives asBytes hashFunction [5] [6] (List.replicate 20 7) 128) ∧
    ¬ ∀ hashFunction : HashFunction 8,
      Derives asBytes hashFunction [5] [6] [1, 2, 3, 4, 5, 6, 7, 8] 128 := by
  constructor
  · intro hall
    obtain ⟨key, hkey, -, -⟩ := hall (lengthHash (by decide))
    exact nomatch hkey
  · intro hall
    exact not_derives (by decide) (by decide) (lengthHash_ne (by decide) _)
      (hall (lengthHash (by decide)))

end Urnest.Ssh
