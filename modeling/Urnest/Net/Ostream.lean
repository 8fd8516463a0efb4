import Urnest.Lib.BigEndian
import Urnest.Xju.Exception

/-!
# The output stream

`ostream` writes into the space that an `OBuf` has given it, and calls `flush` when there is
none left. Pointers into a buffer are offsets, none for a null pointer.

What an `OBuf` holds is what it has delivered and what has been written into its space since.
Where `flush` moves bytes from the one to the other without losing or repeating any, the
buffer is `Faithful`; then what it holds is what has been put into the stream, also after
exceptions (`held_attempts`).
-/

namespace Urnest.Net

open Lib Xju

/-- The classes of exception -/
inductive Kind where
  | exception
  | deadlineReached
  | closed
  | syscallFailed
  deriving DecidableEq

/-- Why a call did not return -/
inductive Stop where
  | threw (kind : Kind) (e : Exception)
  | assertFailed
  deriving DecidableEq

/-- `catch(xju::Exception& e) { e.addContext(s); throw; }` -/
def Stop.addContext (s : String) : Stop → Stop
  | .threw kind e => .threw kind (e.addContext s)
  | .assertFailed => .assertFailed

/-- A derived class of `OBuf` whose objects are of type `σ` -/
structure OBuf (σ : Type) where
  /-- delivers what is in front of the pointer, and gives the space there is then -/
  flush : Option Nat → σ → Except Stop (Nat × Nat) × σ
  /-- `*p=x` -/
  store : Nat → UInt8 → σ → σ

structure Ostream (σ : Type) where
  obuf_ : σ
  data_ : Option (Nat × Nat)

/-- A call on a stream. An exception leaves the stream as it is then. -/
abbrev Call (σ : Type) := Ostream σ → Except Stop Unit × Ostream σ

/-- One call after the other -/
def Call.andThen {σ : Type} (f g : Call σ) : Call σ := fun s =>
  match f s with
  | (.ok _, s') => g s'
  | (.error e, s') => (.error e, s')

namespace Ostream

variable {σ : Type} (B : OBuf σ)

/-- The constructor -/
def make (obuf : σ) : Ostream σ := ⟨obuf, none⟩

def full (s : Ostream σ) : Bool :=
  match s.data_ with
  | none => true
  | some (first, second) => first == second

/-- `*data_.first++=x` -/
def store (x : UInt8) (s : Ostream σ) : Ostream σ :=
  match s.data_ with
  | none => s
  | some (first, second) => ⟨B.store first x s.obuf_, some (first + 1, second)⟩

def put8 (x : UInt8) : Call σ := fun s =>
  if s.full then
    match B.flush (s.data_.map Prod.fst) s.obuf_ with
    | (.error e, obuf) => (.error e, ⟨obuf, s.data_⟩)
    | (.ok data, obuf) =>
      let s : Ostream σ := ⟨obuf, some data⟩
      if s.full then (.error (.threw .exception ⟨"no space", []⟩), s) else (.ok (), s.store B x)
  else (.ok (), s.store B x)

def put16 (x : UInt16) : Call σ :=
  (put8 B (x >>> 8).toUInt8).andThen (put8 B (x &&& 0xff).toUInt8)

def put32 (x : UInt32) : Call σ :=
  (put16 B (x >>> 16).toUInt16).andThen (put16 B (x &&& 0xffff).toUInt16)

def put64 (x : UInt64) : Call σ :=
  (put32 B (x >>> 32).toUInt32).andThen (put32 B (x &&& 0xffffffff).toUInt32)

/-- `while(begin!=end) put8(*begin++);` -/
def put : List UInt8 → Call σ
  | [] => fun s => (.ok (), s)
  | b :: rest => (put8 B b).andThen (put rest)

/-- The destructor -/
def destroy (s : Ostream σ) : Except Stop Unit × σ :=
  match B.flush (s.data_.map Prod.fst) s.obuf_ with
  | (.ok _, obuf) => (.ok (), obuf)
  | (.error e, obuf) => (.error e, obuf)

end Ostream

/-! ## Items -/

/-- What a call puts -/
inductive Item where
  | u8 (x : UInt8)
  | u16 (x : UInt16)
  | u32 (x : UInt32)
  | u64 (x : UInt64)
  | bytes (xs : List UInt8)
  deriving DecidableEq

/-- The bytes of an item in network byte order -/
def Item.toBytes : Item → List UInt8
  | .u8 x => Lib.toBytes 1 x.toNat
  | .u16 x => Lib.toBytes 2 x.toNat
  | .u32 x => Lib.toBytes 4 x.toNat
  | .u64 x => Lib.toBytes 8 x.toNat
  | .bytes xs => xs

namespace Ostream

variable {σ : Type} (B : OBuf σ)

def putItem : Item → Call σ
  | .u8 x => put8 B x
  | .u16 x => put16 B x
  | .u32 x => put32 B x
  | .u64 x => put64 B x
  | .bytes xs => put B xs

/-- Calls in turn, up to the first that fails -/
def puts : List Item → Call σ
  | [] => fun s => (.ok (), s)
  | x :: rest => (putItem B x).andThen (puts rest)

theorem put_append (as bs : List UInt8) : put B (as ++ bs) = (put B as).andThen (put B bs) := by
  induction as with
  | nil => rfl
  | cons a as ih =>
    funext s
    rw [List.cons_append, put, put, ih]
    simp only [Call.andThen]
    cases put8 B a s with
    | mk r s' => cases r <;> rfl

theorem put_singleton (x : UInt8) : put B [x] = put8 B x := by
  funext s
  rw [put, Call.andThen]
  cases put8 B x s with
  | mk r s' => cases r <;> rfl

theorem put16_eq (x : UInt16) : put16 B x = put B (toBytes 2 x.toNat) := by
  have hhi : (x >>> 8).toUInt8 = UInt8.ofNat (x.toNat / 256 ^ 1) := by
    apply UInt8.toNat_inj.mp
    rw [UInt16.toNat_toUInt8, UInt16.toNat_shiftRight, Nat.shiftRight_eq_div_pow, toNat_ofNat_byte]
    rfl
  have hlo : (x &&& 0xff).toUInt8 = UInt8.ofNat (x.toNat / 256 ^ 0) := by
    apply UInt8.toNat_inj.mp
    have h := Nat.and_two_pow_sub_one_eq_mod x.toNat 8
    rw [UInt16.toNat_toUInt8, UInt16.toNat_and, toNat_ofNat_byte, Nat.pow_zero, Nat.div_one]
    change (x.toNat &&& (2 ^ 8 - 1)) % 2 ^ 8 = x.toNat % 256
    rw [h, Nat.mod_mod]
  rw [put16, hhi, hlo, ← put_singleton, ← put_singleton, ← put_append]
  rfl

theorem put32_eq (x : UInt32) : put32 B x = put B (toBytes 4 x.toNat) := by
  have hlt := x.toNat_lt
  have hhi : (x >>> 16).toUInt16.toNat = x.toNat / 256 ^ 2 := by
    rw [UInt32.toNat_toUInt16, UInt32.toNat_shiftRight, Nat.shiftRight_eq_div_pow]
    change x.toNat / 2 ^ 16 % 2 ^ 16 = x.toNat / 2 ^ 16
    omega
  have hlo : (x &&& 0xffff).toUInt16.toNat = x.toNat % 256 ^ 2 := by
    have h := Nat.and_two_pow_sub_one_eq_mod x.toNat 16
    rw [UInt32.toNat_toUInt16, UInt32.toNat_and]
    change (x.toNat &&& (2 ^ 16 - 1)) % 2 ^ 16 = x.toNat % 2 ^ 16
    rw [h, Nat.mod_mod]
  rw [put32, put16_eq, put16_eq, hhi, hlo, toBytes_mod, ← put_append, ← toBytes_add]

theorem put64_eq (x : UInt64) : put64 B x = put B (toBytes 8 x.toNat) := by
  have hlt := x.toNat_lt
  have hhi : (x >>> 32).toUInt32.toNat = x.toNat / 256 ^ 4 := by
    rw [UInt64.toNat_toUInt32, UInt64.toNat_shiftRight, Nat.shiftRight_eq_div_pow]
    change x.toNat / 2 ^ 32 % 2 ^ 32 = x.toNat / 2 ^ 32
    omega
  have hlo : (x &&& 0xffffffff).toUInt32.toNat = x.toNat % 256 ^ 4 := by
    have h := Nat.and_two_pow_sub_one_eq_mod x.toNat 32
    rw [UInt64.toNat_toUInt32, UInt64.toNat_and]
    change (x.toNat &&& (2 ^ 32 - 1)) % 2 ^ 32 = x.toNat % 2 ^ 32
    rw [h, Nat.mod_mod]
  rw [put64, put32_eq, put32_eq, hhi, hlo, toBytes_mod, ← put_append, ← toBytes_add]

/-- Whatever is put is put byte by byte. -/
theorem putItem_eq (x : Item) : putItem B x = put B x.toBytes := by
  cases x with
  | u8 x =>
    rw [Item.toBytes, toBytes_one, put_singleton, putItem]
  | u16 x => exact put16_eq B x
  | u32 x => exact put32_eq B x
  | u64 x => exact put64_eq B x
  | bytes xs => rfl

theorem puts_eq (items : List Item) : puts B items = put B (items.flatMap Item.toBytes) := by
  induction items with
  | nil => rfl
  | cons x rest ih => rw [puts, List.flatMap_cons, put_append, putItem_eq, ih]

end Ostream

/-! ## What a buffer holds -/

/-- `flush` and `store` lose nothing and repeat nothing. -/
structure OBuf.Faithful {σ : Type} (B : OBuf σ) where
  /-- what has reached the destination -/
  delivered : σ → List UInt8
  /-- this, and what has been written in front of the pointer since -/
  held : σ → Option Nat → List UInt8
  /-- the space that the stream has is that of the buffer -/
  Valid : σ → Option (Nat × Nat) → Prop
  delivered_prefix : ∀ {b data}, Valid b data → delivered b <+: held b (data.map Prod.fst)
  /-- a failed call of `flush` changes neither -/
  flush_error : ∀ {b data e b'}, Valid b data → B.flush (data.map Prod.fst) b = (.error e, b') →
    Valid b' data ∧ held b' (data.map Prod.fst) = held b (data.map Prod.fst)
  flush_ok : ∀ {b data space b'}, Valid b data → B.flush (data.map Prod.fst) b = (.ok space, b') →
    Valid b' (some space) ∧ held b' (some space.1) = held b (data.map Prod.fst) ∧
      delivered b' = held b (data.map Prod.fst)
  store : ∀ {b first second} (x), Valid b (some (first, second)) → first ≠ second →
    Valid (B.store first x b) (some (first + 1, second)) ∧
      held (B.store first x b) (some (first + 1)) = held b (some first) ++ [x]

namespace Ostream

variable {σ : Type} {B : OBuf σ} (F : B.Faithful)

def Valid (s : Ostream σ) : Prop := F.Valid s.obuf_ s.data_

def held (s : Ostream σ) : List UInt8 := F.held s.obuf_ (s.data_.map Prod.fst)

variable {F}

theorem store_spec {s : Ostream σ} (x : UInt8) (h : s.Valid F) (hfull : s.full = false) :
    (s.store B x).Valid F ∧ (s.store B x).held F = s.held F ++ [x] := by
  obtain ⟨b, data⟩ := s
  cases data with
  | none => cases hfull
  | some data =>
    obtain ⟨first, second⟩ := data
    exact F.store x h (by simpa [full] using hfull)

/-- A byte is put, or the buffer holds what it held. -/
theorem put8_spec {s s' : Ostream σ} {x : UInt8} {r : Except Stop Unit} (h : s.Valid F)
    (hput : put8 B x s = (r, s')) :
    s'.Valid F ∧ s'.held F = s.held F ++ (if r = .ok () then [x] else []) := by
  rw [put8] at hput
  split_ifs at hput with hfull
  · cases hflush : B.flush (s.data_.map Prod.fst) s.obuf_ with
    | mk space b =>
      cases space with
      | error e =>
        rw [hflush] at hput
        cases hput
        obtain ⟨hvalid, hheld⟩ := F.flush_error h hflush
        refine ⟨hvalid, ?_⟩
        rw [if_neg (fun h => nomatch h), List.append_nil]
        exact hheld
      | ok space =>
        rw [hflush] at hput
        obtain ⟨hvalid, hheld, -⟩ := F.flush_ok h hflush
        dsimp only at hput
        split_ifs at hput with hfull'
        · cases hput
          refine ⟨hvalid, ?_⟩
          rw [if_neg (fun h => nomatch h), List.append_nil]
          exact hheld
        · cases hput
          have hstore := store_spec (s := ⟨b, some space⟩) x hvalid (Bool.eq_false_iff.mpr hfull')
          refine ⟨hstore.1, ?_⟩
          rw [if_pos rfl, hstore.2]
          exact congrArg (· ++ [x]) hheld
  · cases hput
    rw [if_pos rfl]
    exact store_spec x h (Bool.eq_false_iff.mpr hfull)

/-- Which of some bytes are put before a call fails. -/
def stored (B : OBuf σ) : List UInt8 → Ostream σ → List UInt8
  | [], _ => []
  | b :: rest, s =>
    match put8 B b s with
    | (.ok _, s') => b :: stored B rest s'
    | (.error _, _) => []

theorem put_spec (bs : List UInt8) {s : Ostream σ} (h : s.Valid F) :
    (put B bs s).2.Valid F ∧ (put B bs s).2.held F = s.held F ++ stored B bs s := by
  induction bs generalizing s with
  | nil => exact ⟨h, (List.append_nil _).symm⟩
  | cons b rest ih =>
    rw [put, Call.andThen, stored]
    cases hput : put8 B b s with
    | mk r s' =>
      obtain ⟨hvalid, hheld⟩ := put8_spec h hput
      cases r with
      | error e =>
        rw [if_neg (fun h => nomatch h)] at hheld
        exact ⟨hvalid, hheld⟩
      | ok u =>
        rw [if_pos rfl] at hheld
        obtain ⟨hvalid', hheld'⟩ := ih hvalid
        refine ⟨hvalid', ?_⟩
        rw [hheld', hheld, List.append_assoc, List.singleton_append]

/-- Calls in turn, each made whether or not those before it have failed: the bytes that are put,
and the stream in the end. -/
def attempts (B : OBuf σ) : List Item → Ostream σ → List UInt8 × Ostream σ
  | [], s => ([], s)
  | x :: rest, s =>
    let r := attempts B rest (putItem B x s).2
    (stored B x.toBytes s ++ r.1, r.2)

/-- At any time the buffer holds what has been put. -/
theorem held_attempts (items : List Item) {s : Ostream σ} (h : s.Valid F) :
    (attempts B items s).2.Valid F ∧
      (attempts B items s).2.held F = s.held F ++ (attempts B items s).1 := by
  induction items generalizing s with
  | nil => exact ⟨h, (List.append_nil _).symm⟩
  | cons x rest ih =>
    have hput := put_spec x.toBytes h
    rw [← putItem_eq] at hput
    obtain ⟨hvalid, hheld⟩ := ih hput.1
    refine ⟨hvalid, ?_⟩
    rw [attempts]
    dsimp only
    rw [hheld, hput.2, List.append_assoc]

/-- The destructor delivers what the buffer holds, or leaves the rest where it is. -/
theorem destroy_spec {s : Ostream σ} (h : s.Valid F) :
    F.delivered (destroy B s).2 <+: s.held F ∧
      ((destroy B s).1 = .ok () → F.delivered (destroy B s).2 = s.held F) := by
  rw [destroy]
  cases hflush : B.flush (s.data_.map Prod.fst) s.obuf_ with
  | mk space b =>
    cases space with
    | error e =>
      obtain ⟨hvalid, hheld⟩ := F.flush_error h hflush
      refine ⟨?_, fun h => nomatch h⟩
      have := F.delivered_prefix hvalid
      rwa [hheld] at this
    | ok space =>
      obtain ⟨hvalid, -, hdelivered⟩ := F.flush_ok h hflush
      dsimp only
      rw [hdelivered]
      exact ⟨List.prefix_refl _, fun _ => rfl⟩

/-- A call that cannot fail for want of space puts all its bytes. -/
theorem stored_of_ok {bs : List UInt8} {s : Ostream σ} (h : (put B bs s).1 = .ok ()) :
    stored B bs s = bs := by
  induction bs generalizing s with
  | nil => rfl
  | cons b rest ih =>
    rw [put, Call.andThen] at h
    rw [stored]
    cases hput : put8 B b s with
    | mk r s' =>
      rw [hput] at h
      cases r with
      | error e => cases h
      | ok u =>
        dsimp only at h ⊢
        rw [ih h]

end Ostream

end Urnest.Net
