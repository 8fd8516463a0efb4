import Urnest.Net.Buffers

/-!
# The input stream

`istream` reads what an `IBuf` hands over, chunk by chunk. A number of several bytes is the sum
of two halves, each of them read from the stream, and C++ leaves it open which is read first;
`order` says which, for each sum that is evaluated.

A stream over an `IBuf` that hands over what has been put gives it back (`gets_eq`), if the left
operand is always the first.
-/

namespace Urnest.Net

open Lib Xju

/-- A derived class of `IBuf` whose objects are of type `σ` -/
structure IBuf (σ : Type) where
  /-- the next bytes, none at the end -/
  underflow : σ → Except Stop (List UInt8) × σ

/-- The bytes that an `IBuf` still hands over -/
inductive IBuf.HandsOver {σ : Type} (B : IBuf σ) : σ → List UInt8 → Prop where
  | nothing (b : σ) : B.HandsOver b []
  | chunk {b b' : σ} {bytes rest : List UInt8} (h : B.underflow b = (.ok bytes, b'))
      (hne : bytes ≠ []) (hrest : B.HandsOver b' rest) : B.HandsOver b (bytes ++ rest)

/-- Which operand of a sum is evaluated first -/
inductive Order where
  | leftFirst
  | rightFirst
  deriving DecidableEq

structure Istream (σ : Type) where
  ibuf_ : σ
  /-- from `data_.first` to `data_.second` -/
  data_ : List UInt8
  /-- how many sums have been evaluated -/
  sums : Nat

/-- A call that returns a value -/
abbrev GetCall (σ α : Type) := Istream σ → Except Stop α × Istream σ

namespace Istream

variable {σ : Type} (B : IBuf σ) (order : Nat → Order)

/-- The constructor -/
def make (ibuf : σ) : Istream σ := ⟨ibuf, [], 0⟩

def get8 : GetCall σ UInt8 := fun s =>
  match s.data_ with
  | b :: rest => (.ok b, { s with data_ := rest })
  | [] =>
    match B.underflow s.ibuf_ with
    | (.error e, ibuf) => (.error e, { s with ibuf_ := ibuf })
    | (.ok [], ibuf) =>
      (.error (.threw .exception ⟨"end of input", []⟩), { s with ibuf_ := ibuf, data_ := [] })
    | (.ok (b :: rest), ibuf) => (.ok b, { s with ibuf_ := ibuf, data_ := rest })

/-- One call after the other -/
def both {α β : Type} (f : GetCall σ α) (g : GetCall σ β) : GetCall σ (α × β) := fun s =>
  match f s with
  | (.error e, s) => (.error e, s)
  | (.ok a, s) =>
    match g s with
    | (.error e, s) => (.error e, s)
    | (.ok b, s) => (.ok (a, b), s)

def map {α β : Type} (h : α → β) (f : GetCall σ α) : GetCall σ β := fun s =>
  match f s with
  | (.error e, s) => (.error e, s)
  | (.ok a, s) => (.ok (h a), s)

/-- The two operands of a sum -/
def operands {α : Type} (left right : GetCall σ α) : GetCall σ (α × α) := fun s =>
  match order s.sums with
  | .leftFirst => both left right { s with sums := s.sums + 1 }
  | .rightFirst => map Prod.swap (both right left) { s with sums := s.sums + 1 }

def get16 : GetCall σ UInt16 :=
  map (fun x : UInt8 × UInt8 => (x.1.toUInt16 <<< 8) + (x.2.toUInt16 <<< 0))
    (operands order (get8 B) (get8 B))

def get32 : GetCall σ UInt32 :=
  map (fun x : UInt16 × UInt16 => (x.1.toUInt32 <<< 16) + (x.2.toUInt32 <<< 0))
    (operands order (get16 B order) (get16 B order))

def get64 : GetCall σ UInt64 :=
  map (fun x : UInt32 × UInt32 => (x.1.toUInt64 <<< 32) + (x.2.toUInt64 <<< 0))
    (operands order (get32 B order) (get32 B order))

/-- `while(got<n) { *o++=get8(); ++got; }` -/
def getNLoop (n : Nat) : Nat → GetCall σ (List UInt8)
  | 0 => fun s => (.ok [], s)
  | more + 1 => fun s =>
    match get8 B s with
    | (.error e, s) =>
      (.error (e.addContext
        ("get " ++ Nat.repr (more + 1) ++ " more of " ++ Nat.repr n ++ " bytes from stream")), s)
    | (.ok b, s) => map (b :: ·) (getNLoop n more) s

def getN (n : Nat) : GetCall σ (List UInt8) := getNLoop B n n

/-- The call that matches the one that put an item -/
def getItem : Item → GetCall σ Item
  | .u8 _ => map .u8 (get8 B)
  | .u16 _ => map .u16 (get16 B order)
  | .u32 _ => map .u32 (get32 B order)
  | .u64 _ => map .u64 (get64 B order)
  | .bytes xs => map .bytes (getN B xs.length)

/-- The calls that match those that put some items -/
def gets : List Item → GetCall σ (List Item)
  | [] => fun s => (.ok [], s)
  | x :: rest => map (fun r => r.1 :: r.2) (both (getItem B order x) (gets rest))

/-! ## What a stream has in front of it -/

variable {B order}

/-- The bytes are the rest of the chunk, and what the `IBuf` hands over after it. -/
def Holds (B : IBuf σ) (s : Istream σ) (bytes : List UInt8) : Prop :=
  ∃ rest, bytes = s.data_ ++ rest ∧ B.HandsOver s.ibuf_ rest

/-- A call reads some bytes, and returns the value they stand for. -/
def Reads (B : IBuf σ) {α : Type} (f : GetCall σ α) (bytes : List UInt8) (a : α) : Prop :=
  ∀ s rest, Holds B s (bytes ++ rest) → ∃ s', f s = (.ok a, s') ∧ Holds B s' rest

theorem holds_make {b : σ} {bytes : List UInt8} (h : B.HandsOver b bytes) :
    Holds B (make b) bytes :=
  ⟨bytes, rfl, h⟩

theorem reads_get8 (b : UInt8) : Reads B (get8 B) [b] b := by
  rintro ⟨ibuf, data, sums⟩ rest ⟨more, heq, hover⟩
  cases data with
  | cons b' data =>
    obtain ⟨rfl, rfl⟩ := List.cons_eq_cons.mp heq
    exact ⟨_, rfl, more, rfl, hover⟩
  | nil =>
    -- the chunk is used up, and the next one is not empty
    cases hover with
    | nothing => cases heq
    | @chunk _ ibuf' bytes more hunderflow hne hrest =>
      cases bytes with
      | nil => exact absurd rfl hne
      | cons b' bytes =>
        obtain ⟨rfl, rfl⟩ := List.cons_eq_cons.mp heq
        refine ⟨⟨ibuf', bytes, sums⟩, ?_, more, rfl, hrest⟩
        simp only [get8, hunderflow]

theorem Reads.map {α β : Type} {f : GetCall σ α} {bytes : List UInt8} {a : α} (h : α → β)
    (hf : Reads B f bytes a) : Reads B (map h f) bytes (h a) := by
  intro s rest hs
  obtain ⟨s', hrun, hs'⟩ := hf s rest hs
  refine ⟨s', ?_, hs'⟩
  rw [Istream.map, hrun]

theorem Reads.both {α β : Type} {f : GetCall σ α} {g : GetCall σ β} {as bs : List UInt8}
    {a : α} {b : β} (hf : Reads B f as a) (hg : Reads B g bs b) :
    Reads B (both f g) (as ++ bs) (a, b) := by
  intro s rest hs
  rw [List.append_assoc] at hs
  obtain ⟨s₁, hrun, hs₁⟩ := hf s (bs ++ rest) hs
  obtain ⟨s₂, hrun', hs₂⟩ := hg s₁ rest hs₁
  refine ⟨s₂, ?_, hs₂⟩
  simp only [Istream.both, hrun, hrun']

theorem Reads.operands (horder : ∀ n, order n = .leftFirst) {α : Type} {f g : GetCall σ α}
    {as bs : List UInt8} {a b : α} (hf : Reads B f as a) (hg : Reads B g bs b) :
    Reads B (operands order f g) (as ++ bs) (a, b) := by
  intro s rest hs
  obtain ⟨s', hrun, hs'⟩ := hf.both hg { s with sums := s.sums + 1 } rest hs
  refine ⟨s', ?_, hs'⟩
  rw [Istream.operands, horder]
  exact hrun

theorem reads_get16 (horder : ∀ n, order n = .leftFirst) (x : UInt16) :
    Reads B (get16 B order) (toBytes 2 x.toNat) x := by
  have h := ((reads_get8 (B := B) (UInt8.ofNat (x.toNat / 256 ^ 1))).operands horder
    (reads_get8 (UInt8.ofNat (x.toNat / 256 ^ 0)))).map
      fun x : UInt8 × UInt8 => (x.1.toUInt16 <<< 8) + (x.2.toUInt16 <<< 0)
  have hx : x = ((UInt8.ofNat (x.toNat / 256 ^ 1)).toUInt16 <<< 8)
      + ((UInt8.ofNat (x.toNat / 256 ^ 0)).toUInt16 <<< 0) := by
    have hlt := x.toNat_lt
    apply UInt16.toNat_inj.mp
    rw [UInt16.toNat_add, UInt16.toNat_shiftLeft, UInt16.toNat_shiftLeft, UInt8.toNat_toUInt16,
      UInt8.toNat_toUInt16, toNat_ofNat_byte, toNat_ofNat_byte]
    simp only [Nat.shiftLeft_eq]
    change x.toNat = (x.toNat / 2 ^ 8 % 256 * 2 ^ 8 % 2 ^ 16 + x.toNat / 1 % 256 * 1 % 2 ^ 16) % 2 ^ 16
    omega
  rwa [← hx] at h

theorem reads_get32 (horder : ∀ n, order n = .leftFirst) (x : UInt32) :
    Reads B (get32 B order) (toBytes 4 x.toNat) x := by
  have hlt := x.toNat_lt
  have hhi : (UInt16.ofNat (x.toNat / 2 ^ 16)).toNat = x.toNat / 2 ^ 16 := by
    rw [UInt16.toNat_ofNat', Nat.mod_eq_of_lt (by omega)]
  have hlo : (UInt16.ofNat (x.toNat % 2 ^ 16)).toNat = x.toNat % 2 ^ 16 := by
    rw [UInt16.toNat_ofNat', Nat.mod_mod]
  have h := ((reads_get16 (B := B) horder (UInt16.ofNat (x.toNat / 2 ^ 16))).operands horder
    (reads_get16 horder (UInt16.ofNat (x.toNat % 2 ^ 16)))).map
      fun x : UInt16 × UInt16 => (x.1.toUInt32 <<< 16) + (x.2.toUInt32 <<< 0)
  have hx : x = ((UInt16.ofNat (x.toNat / 2 ^ 16)).toUInt32 <<< 16)
      + ((UInt16.ofNat (x.toNat % 2 ^ 16)).toUInt32 <<< 0) := by
    apply UInt32.toNat_inj.mp
    rw [UInt32.toNat_add, UInt32.toNat_shiftLeft, UInt32.toNat_shiftLeft, UInt16.toNat_toUInt32,
      UInt16.toNat_toUInt32, hhi, hlo]
    simp only [Nat.shiftLeft_eq]
    change x.toNat = (x.toNat / 2 ^ 16 * 2 ^ 16 % 2 ^ 32 + x.toNat % 2 ^ 16 * 1 % 2 ^ 32) % 2 ^ 32
    omega
  rw [hhi, hlo] at h
  rwa [← hx, show (2 : Nat) ^ 16 = 256 ^ 2 from rfl, toBytes_mod, ← toBytes_add] at h

theorem reads_get64 (horder : ∀ n, order n = .leftFirst) (x : UInt64) :
    Reads B (get64 B order) (toBytes 8 x.toNat) x := by
  have hlt := x.toNat_lt
  have hhi : (UInt32.ofNat (x.toNat / 2 ^ 32)).toNat = x.toNat / 2 ^ 32 := by
    rw [UInt32.toNat_ofNat', Nat.mod_eq_of_lt (by omega)]
  have hlo : (UInt32.ofNat (x.toNat % 2 ^ 32)).toNat = x.toNat % 2 ^ 32 := by
    rw [UInt32.toNat_ofNat', Nat.mod_mod]
  have h := ((reads_get32 (B := B) horder (UInt32.ofNat (x.toNat / 2 ^ 32))).operands horder
    (reads_get32 horder (UInt32.ofNat (x.toNat % 2 ^ 32)))).map
      fun x : UInt32 × UInt32 => (x.1.toUInt64 <<< 32) + (x.2.toUInt64 <<< 0)
  have hx : x = ((UInt32.ofNat (x.toNat / 2 ^ 32)).toUInt64 <<< 32)
      + ((UInt32.ofNat (x.toNat % 2 ^ 32)).toUInt64 <<< 0) := by
    apply UInt64.toNat_inj.mp
    rw [UInt64.toNat_add, UInt64.toNat_shiftLeft, UInt64.toNat_shiftLeft, UInt32.toNat_toUInt64,
      UInt32.toNat_toUInt64, hhi, hlo]
    simp only [Nat.shiftLeft_eq]
    change x.toNat = (x.toNat / 2 ^ 32 * 2 ^ 32 % 2 ^ 64 + x.toNat % 2 ^ 32 * 1 % 2 ^ 64) % 2 ^ 64
    omega
  rw [hhi, hlo] at h
  rwa [← hx, show (2 : Nat) ^ 32 = 256 ^ 4 from rfl, toBytes_mod, ← toBytes_add] at h

theorem reads_getN (bs : List UInt8) : Reads B (getN B bs.length) bs bs := by
  have hloop : ∀ (n : Nat) (bs : List UInt8), Reads B (getNLoop B n bs.length) bs bs := by
    intro n bs
    induction bs with
    | nil =>
      intro s rest hs
      exact ⟨s, rfl, hs⟩
    | cons b bs ih =>
      intro s rest hs
      obtain ⟨s₁, hrun, hs₁⟩ := reads_get8 b s (bs ++ rest) hs
      obtain ⟨s₂, hrun', hs₂⟩ := (ih.map (b :: ·)) s₁ rest hs₁
      refine ⟨s₂, ?_, hs₂⟩
      simp only [List.length_cons, getNLoop, hrun]
      exact hrun'
  exact hloop bs.length bs

/-- An item is read from the bytes it was put as. -/
theorem reads_getItem (horder : ∀ n, order n = .leftFirst) (x : Item) :
    Reads B (getItem B order x) x.toBytes x := by
  cases x with
  | u8 x =>
    rw [Item.toBytes, toBytes_one]
    exact (reads_get8 x).map Item.u8
  | u16 x => exact (reads_get16 horder x).map Item.u16
  | u32 x => exact (reads_get32 horder x).map Item.u32
  | u64 x => exact (reads_get64 horder x).map Item.u64
  | bytes xs => exact (reads_getN xs).map Item.bytes

theorem reads_gets (horder : ∀ n, order n = .leftFirst) (items : List Item) :
    Reads B (gets B order items) (items.flatMap Item.toBytes) items := by
  induction items with
  | nil =>
    intro s rest hs
    exact ⟨s, rfl, hs⟩
  | cons x items ih =>
    rw [List.flatMap_cons]
    exact ((reads_getItem horder x).both ih).map fun r => r.1 :: r.2

end Istream

end Urnest.Net
