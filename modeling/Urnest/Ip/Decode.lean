import Mathlib
import Urnest.Lib.Throwing
import Urnest.Xju.Exception

/-!
# The bit iterator

`Iterator` of decode.hcp: what is left of the input, and how much has been read of it, in
bytes and bits. Whole bytes are read from the start of a byte only, and so many bits only
from a byte that has as many left; assertions check both.

`Takes r n p q` says what a read does to an iterator that is `p` bits into a byte: it takes
`n` bits and leaves it at `q`, or throws where there are fewer (`Takes.bind` puts reads
together). No assertion fails in a read that `Takes`.
-/

namespace Urnest.Ip

open Xju

/-- Bytes and bits read -/
structure Offset where
  bytes : Nat
  bits : Nat
  deriving DecidableEq

/-- `operator<<` -/
def Offset.toString (x : Offset) : String :=
  Nat.repr x.bytes ++ " bytes and " ++ Nat.repr x.bits ++ " bits"

/-- `operator+` -/
def Offset.add (x y : Offset) : Offset :=
  ⟨x.bytes + y.bytes + (x.bits + y.bits) / 8, (x.bits + y.bits) % 8⟩

structure Iterator where
  /-- from `i_` to `end_` -/
  rest : List UInt8
  offset : Offset
  deriving DecidableEq

/-- `makeIterator` -/
def makeIterator (bytes : List UInt8) : Iterator := ⟨bytes, ⟨0, 0⟩⟩

/-- How reading stops -/
inductive Stop where
  /-- with what the iterator has read by then -/
  | threw (e : Exception) (offset : Offset)
  | assertFailed
  /-- a loop did not end -/
  | endless
  deriving DecidableEq

/-- Reading moves the iterator. -/
abbrev Reader := StateT Iterator (Except Stop)

/-- `xju::assert_*` -/
def assert (p : Bool) : Reader Unit := fun i => if p then .ok ((), i) else .error .assertFailed

/-- A handler that adds to the context what the iterator has read. -/
def whileReading {α : Type} (text : Offset → String) (r : Reader α) : Reader α := fun i =>
  match r i with
  | .error (.threw e offset) => .error (.threw (e.addContext (text offset)) offset)
  | x => x

/-- `verifyNotAtEnd`, and the byte -/
def deref : Reader UInt8 := fun i =>
  match i.rest with
  | [] => .error (.threw ⟨"end of input", []⟩ i.offset)
  | b :: _ => .ok (b, i)

/-- `++i_` -/
def advance : Reader Unit := fun i => .ok ((), { i with rest := i.rest.tail })

/-- `offset_=offset_+x` -/
def addOffset (x : Offset) : Reader Unit := fun i => .ok ((), { i with offset := i.offset.add x })

/-- What was being read, in the context of an exception -/
def readText (bits : Nat) (name : String) (offset : Offset) : String :=
  "read " ++ Nat.repr bits ++ " bit" ++ (if name ≠ "" then " " ++ quote name else "s")
    ++ " having read " ++ offset.toString

/-- `n` bits of a byte, the first of them `p` bits into it. -/
def bitsOf (b : UInt8) (n p : Nat) : UInt8 :=
  (b >>> UInt8.ofNat (8 - n - p)) &&& (0xff >>> UInt8.ofNat (8 - n))

/-- `getBits`, of which `get1Bit` to `get7Bits` are for a number each -/
def getBits (n : Nat) (name : String) : Reader UInt8 :=
  whileReading (readText n name) do
    assert (n > 0)
    assert (n < 8)
    assert (n ≤ 8 - (← get).offset.bits)
    let b ← deref
    let result := bitsOf b n (← get).offset.bits
    addOffset ⟨0, n⟩
    if (← get).offset.bits = 0 then advance
    return result

def get8Bits (name : String) : Reader UInt8 :=
  whileReading (readText 8 name) do
    let result ← deref
    assert ((← get).offset.bits = 0)
    advance
    addOffset ⟨1, 0⟩
    return result

def get16Bits (name : String) : Reader UInt16 :=
  whileReading (readText 16 name) do
    let hi ← get8Bits ""
    let lo ← get8Bits ""
    return (hi.toUInt16 <<< 8) + lo.toUInt16

def get32Bits (name : String) : Reader UInt32 :=
  whileReading (readText 32 name) do
    let hi ← get16Bits ""
    let lo ← get16Bits ""
    return (hi.toUInt32 <<< 16) + lo.toUInt32

/-! ## Taking bits -/

/-- How many bits are left. -/
def Iterator.bitsLeft (i : Iterator) : Nat := 8 * i.rest.length - i.offset.bits

/-- An iterator that is `p` bits into a byte, which is there if some of it has been read. -/
structure Iterator.Inside (i : Iterator) (p : Nat) : Prop where
  bits : i.offset.bits = p
  byte : p ≠ 0 → i.rest ≠ []

/-- The read takes `n` bits from `p` bits into a byte and leaves the iterator at `q`, or it
throws for want of input. -/
def Takes {α : Type} (r : Reader α) (n p q : Nat) : Prop :=
  ∀ i : Iterator, i.Inside p →
    (n ≤ i.bitsLeft → ∃ a i', r i = .ok (a, i') ∧ i'.Inside q ∧ i'.bitsLeft + n = i.bitsLeft) ∧
    (i.bitsLeft < n → ∃ e offset, r i = .error (.threw e offset))

namespace Takes

variable {α β : Type} {r : Reader α} {m n p q t : Nat}

theorem pure (a : α) (p : Nat) : Takes (Pure.pure a : Reader α) 0 p p := by
  intro i hi
  exact ⟨fun _ => ⟨a, i, rfl, hi, rfl⟩, fun h => absurd h (Nat.not_lt_zero _)⟩

theorem bind {f : α → Reader β} (hr : Takes r m p q) (hf : ∀ a, Takes (f a) n q t) :
    Takes (r >>= f) (m + n) p t := by
  intro i hi
  obtain ⟨hok, hthrow⟩ := hr i hi
  by_cases hm : m ≤ i.bitsLeft
  · obtain ⟨a, j, hj, hin, hleft⟩ := hok hm
    have hrun : (r >>= f) i = f a j := by
      change (r i >>= fun x => f x.1 x.2) = _
      rw [hj]
      rfl
    rw [hrun]
    obtain ⟨hok', hthrow'⟩ := hf a j hin
    refine ⟨fun h => ?_, fun h => hthrow' (by omega)⟩
    obtain ⟨b, k, hk, hin', hleft'⟩ := hok' (by omega)
    exact ⟨b, k, hk, hin', by omega⟩
  · obtain ⟨e, offset, he⟩ := hthrow (by omega)
    refine ⟨fun h => absurd h (by omega), fun _ => ⟨e, offset, ?_⟩⟩
    change (r i >>= fun x => f x.1 x.2) = _
    rw [he]
    rfl

theorem whileReading (text : Offset → String) (h : Takes r n p q) :
    Takes (Ip.whileReading text r) n p q := by
  intro i hi
  obtain ⟨hok, hthrow⟩ := h i hi
  constructor
  · intro hle
    obtain ⟨a, j, hj, hin⟩ := hok hle
    refine ⟨a, j, ?_, hin⟩
    rw [Ip.whileReading, hj]
  · intro hlt
    obtain ⟨e, offset, he⟩ := hthrow hlt
    exact ⟨e.addContext (text offset), offset, by rw [Ip.whileReading, he]⟩

end Takes

theorem assert_true {p : Bool} (h : p = true) (i : Iterator) : assert p i = .ok ((), i) :=
  if_pos h

/-- A read of bits from a byte that has as many left. -/
theorem getBits_cons {n p : Nat} (name : String) (hpos : 0 < n) (h8 : n < 8) (hfits : n + p ≤ 8)
    (b : UInt8) (t : List UInt8) (bytes : Nat) :
    getBits n name ⟨b :: t, ⟨bytes, p⟩⟩
      = .ok (bitsOf b n p,
          if n + p = 8 then ⟨t, ⟨bytes + 1, 0⟩⟩ else ⟨b :: t, ⟨bytes, p + n⟩⟩) := by
  rw [getBits, whileReading]
  have hbits : n ≤ 8 - p := by omega
  have hoffset : (⟨bytes, p⟩ : Offset).add ⟨0, n⟩ = ⟨bytes + (p + n) / 8, (p + n) % 8⟩ := rfl
  simp only [bind, StateT.bind, Except.bind, StateT.get, getThe, MonadStateOf.get,
    get, pure, Except.pure, assert_true (decide_eq_true hpos), assert_true (decide_eq_true h8),
    assert_true (decide_eq_true hbits), deref, addOffset, hoffset]
  by_cases hend : n + p = 8
  · rw [if_pos (by omega), if_pos hend, show p + n = 8 by omega]
    rfl
  · rw [if_neg (by omega), if_neg hend, Nat.mod_eq_of_lt (by omega), Nat.div_eq_of_lt (by omega)]
    rfl

theorem getBits_nil {n p : Nat} (name : String) (hpos : 0 < n) (h8 : n < 8) (hfits : n + p ≤ 8)
    (bytes : Nat) :
    getBits n name ⟨[], ⟨bytes, p⟩⟩
      = .error (.threw ⟨"end of input", [readText n name ⟨bytes, p⟩]⟩ ⟨bytes, p⟩) := by
  rw [getBits, whileReading]
  have hbits : n ≤ 8 - p := by omega
  simp only [bind, StateT.bind, Except.bind, StateT.get, getThe, MonadStateOf.get,
    get, pure, Except.pure, assert_true (decide_eq_true hpos), assert_true (decide_eq_true h8),
    assert_true (decide_eq_true hbits), deref]
  rfl

theorem get8Bits_cons (name : String) (b : UInt8) (t : List UInt8) (bytes : Nat) :
    get8Bits name ⟨b :: t, ⟨bytes, 0⟩⟩ = .ok (b, ⟨t, ⟨bytes + 1, 0⟩⟩) := by
  have hoffset : (⟨bytes, 0⟩ : Offset).add ⟨1, 0⟩ = ⟨bytes + 1, 0⟩ := by
    simp [Offset.add]
  rw [get8Bits, whileReading]
  simp only [bind, StateT.bind, Except.bind, StateT.get, getThe, MonadStateOf.get, get, pure,
    Except.pure, decide_true, assert_true rfl, deref, advance, addOffset, hoffset]
  rfl

theorem getBits_takes {n p : Nat} (name : String) (hpos : 0 < n) (h8 : n < 8)
    (hfits : n + p ≤ 8) : Takes (getBits n name) n p ((p + n) % 8) := by
  rintro ⟨rest, ⟨bytes, bits⟩⟩ ⟨hbits, hbyte⟩
  change bits = _ at hbits
  subst hbits
  cases rest with
  | nil =>
    -- nothing of a byte has been read
    obtain rfl : bits = 0 := by
      by_contra hne
      exact hbyte hne rfl
    refine ⟨fun h => ?_, fun _ => ⟨_, _, getBits_nil name hpos h8 hfits bytes⟩⟩
    simp only [Iterator.bitsLeft, List.length_nil] at h
    omega
  | cons b t =>
    have hrun := getBits_cons name hpos h8 hfits b t bytes
    simp only [Iterator.bitsLeft, List.length_cons]
    refine ⟨fun _ => ⟨_, _, hrun, ?_, ?_⟩, fun h => ?_⟩
    · split_ifs with hend
      · rw [show bits + n = 8 by omega]
        exact ⟨rfl, fun h => absurd rfl h⟩
      · rw [Nat.mod_eq_of_lt (by omega)]
        exact ⟨rfl, fun _ => List.cons_ne_nil b t⟩
    · split_ifs with hend
      · dsimp only
        omega
      · simp only [List.length_cons]
        omega
    · omega

theorem get8Bits_takes (name : String) : Takes (get8Bits name) 8 0 0 := by
  rintro ⟨rest, ⟨bytes, bits⟩⟩ ⟨hbits, hbyte⟩
  change bits = _ at hbits
  subst hbits
  cases rest with
  | nil =>
    refine ⟨fun h => ?_, fun _ => ⟨_, _, rfl⟩⟩
    simp [Iterator.bitsLeft] at h
  | cons b t =>
    refine ⟨fun _ => ⟨_, _, get8Bits_cons name b t bytes, ⟨rfl, fun h => absurd rfl h⟩, ?_⟩,
      fun h => ?_⟩
    · simp only [Iterator.bitsLeft, List.length_cons]
      omega
    · simp only [Iterator.bitsLeft, List.length_cons] at h
      omega

theorem get16Bits_takes (name : String) : Takes (get16Bits name) 16 0 0 :=
  Takes.whileReading _ ((get8Bits_takes "").bind fun _ =>
    (get8Bits_takes "").bind fun _ => Takes.pure _ 0)

theorem get32Bits_takes (name : String) : Takes (get32Bits name) 32 0 0 :=
  Takes.whileReading _ ((get16Bits_takes "").bind fun _ =>
    (get16Bits_takes "").bind fun _ => Takes.pure _ 0)

/-! ## Reading what is there -/

theorem bitsOf_toNat (b : UInt8) {n p : Nat} (hpos : 0 < n) (hfits : n + p ≤ 8) :
    (bitsOf b n p).toNat = b.toNat / 2 ^ (8 - n - p) % 2 ^ n := by
  have hshift : ∀ {x : UInt8} {k : Nat}, k < 8 → (x >>> UInt8.ofNat k).toNat = x.toNat / 2 ^ k := by
    intro x k hk
    have hk' : (UInt8.ofNat k).toNat = k := UInt8.toNat_ofNat_of_lt' (by change k < 256; omega)
    rw [UInt8.toNat_shiftRight, hk', Nat.mod_eq_of_lt hk, Nat.shiftRight_eq_div_pow]
  have hmask : ∀ n ≤ 8, 0 < n → 255 / 2 ^ (8 - n) = 2 ^ n - 1 := by decide
  rw [bitsOf, UInt8.toNat_and, hshift (by omega), hshift (by omega)]
  change _ &&& (255 / 2 ^ (8 - n)) = _
  rw [hmask n (by omega) hpos, Nat.and_two_pow_sub_one_eq_mod]

theorem run_whileReading {α : Type} {text : Offset → String} {r : Reader α} {i j : Iterator} {a : α}
    (h : r i = .ok (a, j)) : whileReading text r i = .ok (a, j) := by
  rw [whileReading, h]

theorem get16Bits_cons (name : String) (b c : UInt8) (t : List UInt8) (bytes : Nat) :
    get16Bits name ⟨b :: c :: t, ⟨bytes, 0⟩⟩
      = .ok ((b.toUInt16 <<< 8) + c.toUInt16, ⟨t, ⟨bytes + 2, 0⟩⟩) :=
  run_whileReading (Lib.run_bind_eq_ok.mpr ⟨_, _, get8Bits_cons ..,
    Lib.run_bind_eq_ok.mpr ⟨_, _, get8Bits_cons .., rfl⟩⟩)

theorem get32Bits_cons (name : String) (b c d e : UInt8) (t : List UInt8) (bytes : Nat) :
    get32Bits name ⟨b :: c :: d :: e :: t, ⟨bytes, 0⟩⟩
      = .ok ((((b.toUInt16 <<< 8) + c.toUInt16).toUInt32 <<< 16)
          + ((d.toUInt16 <<< 8) + e.toUInt16).toUInt32, ⟨t, ⟨bytes + 4, 0⟩⟩) :=
  run_whileReading (Lib.run_bind_eq_ok.mpr ⟨_, _, get16Bits_cons ..,
    Lib.run_bind_eq_ok.mpr ⟨_, _, get16Bits_cons .., rfl⟩⟩)

end Urnest.Ip
