import Mathlib.Data.List.TakeWhile
import Mathlib.Tactic.Common
import Urnest.Lib.Bytes
import Urnest.Lib.Throwing

/-!
# CDR

The codecs of cdr.hcp: a codec for each of the basic types, and from codecs others, for
vectors, arrays, optionals, bounded sequences and tuples. The types that are composed are a
universe (`Ty`), and `Ty.Value` is what they are types of.

What a `cdrStream` does is omniORB's: `CdrStream` has the operations that are called, and
`CdrStream.Lawful` what is documented of them. An operation is told where in the stream it
is, since values are aligned.
-/

namespace Urnest.Cxy

abbrev Bytes := List UInt8

/-! ## Streams -/

/-- A stream that is read: where it is, and what is left -/
structure Input where
  offset : Nat
  left : Bytes

inductive Exception (ε : Type) where
  /-- one of the stream's -/
  | system (e : ε)
  /-- "BoundedSequence of max size `maxSize` cannot reserve room for `n` elements" -/
  | tooLong (maxSize n : Nat)
  /-- A `uint32_t` never comes to this: the loop ends, if at all, by an exception of the
  stream. -/
  | endless (n : Nat)

abbrev Reader (ε α : Type) := StateT Input (Except (Exception ε)) α

/-- Bytes to write, depending on where the stream is -/
abbrev Writer := Nat → Bytes

/-- The primitive types of the stream that are used -/
inductive Primitive where
  | octet
  | boolean
  | short
  | uShort
  | long
  | uLong
  | longLong
  | uLongLong

abbrev Primitive.Value : Primitive → Type
  | octet => UInt8
  | boolean => Bool
  | short => Int16
  | uShort => UInt16
  | long => Int32
  | uLong => UInt32
  | longLong => Int64
  | uLongLong => UInt64

/-- The operations of `cdrStream`. Strings are C strings, up to the NUL. -/
structure CdrStream (ε : Type) where
  marshal : (p : Primitive) → p.Value → Writer
  unmarshal : (p : Primitive) → Reader ε p.Value
  marshalString : Bytes → Writer
  unmarshalString : Reader ε Bytes

/-- Bytes are read, to the last one, where they were written, with anything behind them. -/
def Reads {ε α : Type} (r : Reader ε α) (w : Writer) (a : α) : Prop :=
  ∀ o rest, r ⟨o, w o ++ rest⟩ = .ok (a, ⟨o + (w o).length, rest⟩)

/-- What is read of a C string -/
def cString (s : Bytes) : Bytes := s.takeWhile (· ≠ 0)

/-- What is documented of the operations: a value is read where it was written, an unsigned
long also as a long of the same bits, and so is a string whose length, with the NUL, is an
unsigned long, as that of every string that is read. -/
structure CdrStream.Lawful {ε : Type} (stream : CdrStream ε) : Prop where
  primitive : ∀ p x, Reads (stream.unmarshal p) (stream.marshal p x) x
  long : ∀ x : Int32,
    Reads (stream.unmarshal .long) (stream.marshal .uLong x.toUInt32) x
  string : ∀ s : Bytes, 0 ∉ s → s.length + 1 < 2 ^ 32 →
    Reads stream.unmarshalString (stream.marshalString s) s
  unmarshalString : ∀ i s i', stream.unmarshalString i = .ok (s, i') →
    (cString s).length + 1 < 2 ^ 32

/-! ## Types -/

mutual

/-- The types with a codec -/
inductive Ty where
  | uint8
  | uint16
  | uint32
  | uint64
  | int16
  | int32
  | int64
  | bool
  | string
  | vector (t : Ty)
  | array (t : Ty) (n : Nat)
  | optional (t : Ty)
  | boundedSequence (t : Ty) (maxSize : Nat)
  | tuple (t : Ty) (us : Tys)

inductive Tys where
  | nil
  | cons (t : Ty) (us : Tys)

end

mutual

@[reducible] def Ty.Value : Ty → Type
  | .uint8 => UInt8
  | .uint16 => UInt16
  | .uint32 => UInt32
  | .uint64 => UInt64
  | .int16 => Int16
  | .int32 => Int32
  | .int64 => Int64
  | .bool => Bool
  | .string => Bytes
  | .vector t => List t.Value
  | .array t n => { xs : List t.Value // xs.length = n }
  | .optional t => Option t.Value
  | .boundedSequence t maxSize => { xs : List t.Value // xs.length ≤ maxSize }
  | .tuple t us => t.Value × us.Values

@[reducible] def Tys.Values : Tys → Type
  | .nil => Unit
  | .cons t us => t.Value × us.Values

end

/-! ## Marshalling -/

section Marshal

/-- One after the other -/
def Writer.andThen (w w' : Writer) : Writer := fun o => w o ++ w' (o + (w o).length)

def marshalEach {α : Type} (f : α → Writer) : List α → Writer
  | [] => fun _ => []
  | x :: xs => (f x).andThen (marshalEach f xs)

variable {ε : Type} (stream : CdrStream ε)

/-- A size, as a `uint32_t` -/
def marshalSize (n : Nat) : Writer := stream.marshal .uLong (UInt32.ofNat n)

mutual

/-- `cdr<T>::marshal` -/
def marshal : (t : Ty) → t.Value → Writer
  | .uint8, x => stream.marshal .octet x
  | .uint16, x => stream.marshal .uShort x
  | .uint32, x => stream.marshal .uLong x
  | .uint64, x => stream.marshal .uLongLong x
  | .int16, x => stream.marshal .short x
  | .int32, x => stream.marshal .uLong (Int32.toUInt32 x)
  | .int64, x => stream.marshal .longLong x
  | .bool, x => stream.marshal .boolean x
  | .string, x => stream.marshalString (cString x)
  | .vector t, x => (marshalSize stream (List.length x)).andThen (marshalEach (marshal t) x)
  | .array t _, x => marshalEach (marshal t) x.1
  | .optional _, none => stream.marshal .uLong 0
  | .optional t, some x => (stream.marshal .uLong 1).andThen (marshal t x)
  | .boundedSequence t _, x =>
    (marshalSize stream x.1.length).andThen (marshalEach (marshal t) x.1)
  | .tuple t us, x => (marshal t x.1).andThen (marshalTuple us x.2)

/-- The components of a tuple from some on -/
def marshalTuple : (us : Tys) → us.Values → Writer
  | .nil, _ => fun _ => []
  | .cons t us, x => (marshal t x.1).andThen (marshalTuple us x.2)

end

/-! ## Unmarshalling -/

/-- So many times -/
def unmarshalEach {ε α : Type} (r : Reader ε α) : (n : Nat) → Reader ε { xs : List α // xs.length = n }
  | 0 => return ⟨[], rfl⟩
  | n + 1 => do
    let x ← r
    let xs ← unmarshalEach r n
    return ⟨x :: xs.1, congrArg (· + 1) xs.2⟩

/-- The loop of an array goes from the second item up to `n`, with a `uint32_t`. -/
def unmarshalArray {ε α : Type} (r : Reader ε α) (n : Nat) :
    Reader ε { xs : List α // xs.length = n } :=
  if n < 2 ^ 32 then unmarshalEach r n else throw (.endless n)

/-- `reserve`, and the items -/
def unmarshalBounded {ε α : Type} (r : Reader ε α) (maxSize n : Nat) :
    Reader ε { xs : List α // xs.length ≤ maxSize } :=
  if h : n ≤ maxSize then do
    let xs ← unmarshalEach r n
    return ⟨xs.1, Nat.le_trans (Nat.le_of_eq xs.2) h⟩
  else throw (.tooLong maxSize n)

mutual

/-- `cdr<T>::unmarshalFrom` -/
def unmarshalFrom : (t : Ty) → Reader ε t.Value
  | .uint8 => stream.unmarshal .octet
  | .uint16 => stream.unmarshal .uShort
  | .uint32 => stream.unmarshal .uLong
  | .uint64 => stream.unmarshal .uLongLong
  | .int16 => stream.unmarshal .short
  | .int32 => stream.unmarshal .long
  | .int64 => stream.unmarshal .longLong
  | .bool => stream.unmarshal .boolean
  | .string => do return cString (← stream.unmarshalString)
  | .vector t => do
    let length ← stream.unmarshal .uLong
    return (← unmarshalEach (unmarshalFrom t) length.toNat).1
  | .array t n => unmarshalArray (unmarshalFrom t) n
  | .optional t => do
    let length ← stream.unmarshal .uLong
    if length = 0 then return none
    return some (← unmarshalFrom t)
  | .boundedSequence t maxSize => do
    let length ← stream.unmarshal .uLong
    unmarshalBounded (unmarshalFrom t) maxSize length.toNat
  | .tuple t us => do
    let x ← unmarshalFrom t
    return (x, ← unmarshalTuple us)

def unmarshalTuple : (us : Tys) → Reader ε us.Values
  | .nil => return ()
  | .cons t us => do
    let x ← unmarshalFrom t
    return (x, ← unmarshalTuple us)

end

end Marshal

/-! ## Values -/

mutual

/-- No string has a NUL in it, and none is longer than can be said; nor is a vector, or an
array, longer than can be counted. -/
def Ty.Plain : (t : Ty) → t.Value → Prop
  | .string, x => 0 ∉ (x : Bytes) ∧ List.length x + 1 < 2 ^ 32
  | .vector t, x => List.length x < 2 ^ 32 ∧ ∀ y ∈ (x : List t.Value), t.Plain y
  | .array t n, x => n < 2 ^ 32 ∧ ∀ y ∈ x.1, t.Plain y
  | .optional t, x => ∀ y ∈ (x : Option t.Value), t.Plain y
  | .boundedSequence t _, x => x.1.length < 2 ^ 32 ∧ ∀ y ∈ x.1, t.Plain y
  | .tuple t us, x => t.Plain x.1 ∧ us.Plain x.2
  | _, _ => True

def Tys.Plain : (us : Tys) → us.Values → Prop
  | .nil, _ => True
  | .cons t us, x => t.Plain x.1 ∧ us.Plain x.2

end

/-! ## Round trips -/

section Reads

variable {ε α β : Type}

theorem Reads.bind {r : Reader ε α} {f : α → Reader ε β} {w w' : Writer} {a : α} {b : β}
    (h : Reads r w a) (h' : Reads (f a) w' b) : Reads (r >>= f) (w.andThen w') b := by
  intro o rest
  have hr := h o (w' (o + (w o).length) ++ rest)
  rw [Writer.andThen, List.append_assoc]
  change (r ⟨o, w o ++ (w' (o + (w o).length) ++ rest)⟩ >>= fun x => f x.1 x.2) = _
  rw [hr, List.length_append, ← Nat.add_assoc]
  exact h' _ rest

theorem Reads.pure (a : α) : Reads (pure a : Reader ε α) (fun _ => []) a := fun _ _ => rfl

/-- A last step that takes nothing -/
theorem Reads.last {r : Reader ε α} {f : α → Reader ε β} {w : Writer} {a : α} {b : β}
    (h : Reads r w a) (h' : Reads (f a) (fun _ => []) b) : Reads (r >>= f) w b := by
  intro o rest
  have hbind := h.bind h' o rest
  rwa [Writer.andThen, List.append_nil] at hbind

theorem Reads.map {r : Reader ε α} {f : α → β} {w : Writer} {a : α} (h : Reads r w a) :
    Reads (do return f (← r)) w (f a) :=
  h.last (Reads.pure (f a))

theorem reads_each {r : Reader ε α} {w : α → Writer} {n : Nat}
    (xs : { xs : List α // xs.length = n }) (h : ∀ x ∈ xs.1, Reads r (w x) x) :
    Reads (unmarshalEach r n) (marshalEach w xs.1) xs := by
  obtain ⟨xs, rfl⟩ := xs
  induction xs with
  | nil => exact Reads.pure _
  | cons x xs ih =>
    have hx := h x (List.mem_cons_self ..)
    exact hx.bind (Reads.map (ih fun y hy => h y (List.mem_cons_of_mem _ hy)))

theorem cString_eq_self {s : Bytes} (h : 0 ∉ s) : cString s = s := by
  rw [cString, List.takeWhile_eq_self_iff]
  intro b hb
  have hne : b ≠ 0 := fun h0 => h (h0 ▸ hb)
  simpa using hne

theorem zero_not_mem_cString (s : Bytes) : 0 ∉ cString s := by
  intro h
  simpa using List.mem_takeWhile_imp h

variable {stream : CdrStream ε}

/-- A size that can be counted is read as it is. -/
theorem reads_size (hlaws : stream.Lawful) {n : Nat} (h : n < 2 ^ 32) :
    ∃ length : UInt32, length.toNat = n ∧
      Reads (stream.unmarshal .uLong) (marshalSize stream n) length :=
  ⟨UInt32.ofNat n, UInt32.toNat_ofNat_of_lt h, hlaws.primitive .uLong _⟩

mutual

theorem reads_value (hlaws : stream.Lawful) :
    (t : Ty) → (x : t.Value) → t.Plain x → Reads (unmarshalFrom stream t) (marshal stream t x) x
  | .uint8, x, _ => hlaws.primitive .octet x
  | .uint16, x, _ => hlaws.primitive .uShort x
  | .uint32, x, _ => hlaws.primitive .uLong x
  | .uint64, x, _ => hlaws.primitive .uLongLong x
  | .int16, x, _ => hlaws.primitive .short x
  | .int32, x, _ => hlaws.long x
  | .int64, x, _ => hlaws.primitive .longLong x
  | .bool, x, _ => hlaws.primitive .boolean x
  | .string, x, h => by
    have hx := cString_eq_self h.1
    have hread := (hlaws.string x h.1 h.2).map (f := cString)
    rw [hx] at hread
    rw [marshal, hx]
    exact hread
  | .vector t, x, h => by
    obtain ⟨length, hlength, hread⟩ := reads_size hlaws h.1
    have heach := reads_each ⟨x, hlength.symm⟩ fun y hy => reads_value hlaws t y (h.2 y hy)
    exact hread.bind heach.map
  | .array t n, x, h => by
    rw [unmarshalFrom, unmarshalArray, if_pos h.1]
    exact reads_each x fun y hy => reads_value hlaws t y (h.2 y hy)
  | .optional t, none, _ => (hlaws.primitive .uLong 0).last (Reads.pure none)
  | .optional t, some x, h =>
    (hlaws.primitive .uLong 1).bind (reads_value hlaws t x (h x rfl)).map
  | .boundedSequence t maxSize, x, h => by
    obtain ⟨length, hlength, hread⟩ := reads_size hlaws h.1
    have heach := reads_each ⟨x.1, hlength.symm⟩ fun y hy => reads_value hlaws t y (h.2 y hy)
    refine hread.bind ?_
    rw [unmarshalBounded, dif_pos (hlength ▸ x.2)]
    exact heach.map
  | .tuple t us, x, h =>
    (reads_value hlaws t x.1 h.1).bind (reads_tuple hlaws us x.2 h.2).map

theorem reads_tuple (hlaws : stream.Lawful) :
    (us : Tys) → (x : us.Values) → us.Plain x →
      Reads (unmarshalTuple stream us) (marshalTuple stream us x) x
  | .nil, _, _ => Reads.pure _
  | .cons t us, x, h =>
    (reads_value hlaws t x.1 h.1).bind (reads_tuple hlaws us x.2 h.2).map

end

/-! ## What is read -/

/-- What is said of all that a reader gives is true of all items it gives. -/
theorem forall_of_each {r : Reader ε α} {P : α → Prop} (h : ∀ i x i', r i = .ok (x, i') → P x)
    {n : Nat} {xs : { xs : List α // xs.length = n }} {i i' : Input}
    (heach : unmarshalEach r n i = .ok (xs, i')) : ∀ x ∈ xs.1, P x := by
  induction n generalizing i with
  | zero =>
    cases heach
    exact fun _ hx => nomatch hx
  | succ n ih =>
    obtain ⟨x, j, hx, heach⟩ := Lib.run_bind_eq_ok.mp heach
    obtain ⟨ys, j', hys, heach⟩ := Lib.run_bind_eq_ok.mp heach
    cases heach
    intro y hy
    rcases List.mem_cons.mp hy with rfl | hy
    · exact h _ _ _ hx
    · exact ih hys y hy

mutual

theorem plain_of_unmarshalFrom (hlaws : stream.Lawful) :
    (t : Ty) → (i : Input) → (x : t.Value) → (i' : Input) →
      unmarshalFrom stream t i = .ok (x, i') → t.Plain x
  | .uint8, _, _, _, _ => trivial
  | .uint16, _, _, _, _ => trivial
  | .uint32, _, _, _, _ => trivial
  | .uint64, _, _, _, _ => trivial
  | .int16, _, _, _, _ => trivial
  | .int32, _, _, _, _ => trivial
  | .int64, _, _, _, _ => trivial
  | .bool, _, _, _, _ => trivial
  | .string, i, x, i', h => by
    obtain ⟨s, j, hs, h⟩ := Lib.run_bind_eq_ok.mp h
    cases h
    exact ⟨zero_not_mem_cString s, hlaws.unmarshalString _ _ _ hs⟩
  | .vector t, i, x, i', h => by
    obtain ⟨length, j, -, h⟩ := Lib.run_bind_eq_ok.mp h
    obtain ⟨xs, j', heach, h⟩ := Lib.run_bind_eq_ok.mp h
    cases h
    refine ⟨?_, forall_of_each (plain_of_unmarshalFrom hlaws t) heach⟩
    rw [xs.2]
    exact length.toNat_lt
  | .array t n, i, x, i', h => by
    rw [unmarshalFrom, unmarshalArray] at h
    split_ifs at h with hn
    · exact ⟨hn, forall_of_each (plain_of_unmarshalFrom hlaws t) h⟩
    · cases h
  | .optional t, i, x, i', h => by
    obtain ⟨length, j, -, h⟩ := Lib.run_bind_eq_ok.mp h
    by_cases hlength : length = 0
    · rw [if_pos hlength] at h
      cases h
      exact fun _ hy => nomatch hy
    · rw [if_neg hlength] at h
      obtain ⟨y, j', hy, h⟩ := Lib.run_bind_eq_ok.mp h
      cases h
      rintro _ ⟨⟩
      exact plain_of_unmarshalFrom hlaws t _ _ _ hy
  | .boundedSequence t maxSize, i, x, i', h => by
    obtain ⟨length, j, -, h⟩ := Lib.run_bind_eq_ok.mp h
    rw [unmarshalBounded] at h
    split_ifs at h with hle
    · obtain ⟨xs, j', heach, h⟩ := Lib.run_bind_eq_ok.mp h
      cases h
      refine ⟨?_, forall_of_each (plain_of_unmarshalFrom hlaws t) heach⟩
      rw [xs.2]
      exact length.toNat_lt
    · cases h
  | .tuple t us, i, x, i', h => by
    obtain ⟨y, j, hy, h⟩ := Lib.run_bind_eq_ok.mp h
    obtain ⟨ys, j', hys, h⟩ := Lib.run_bind_eq_ok.mp h
    cases h
    exact ⟨plain_of_unmarshalFrom hlaws t _ _ _ hy, plain_of_unmarshalTuple hlaws us _ _ _ hys⟩

theorem plain_of_unmarshalTuple (hlaws : stream.Lawful) :
    (us : Tys) → (i : Input) → (x : us.Values) → (i' : Input) →
      unmarshalTuple stream us i = .ok (x, i') → us.Plain x
  | .nil, _, _, _, _ => trivial
  | .cons t us, i, x, i', h => by
    obtain ⟨y, j, hy, h⟩ := Lib.run_bind_eq_ok.mp h
    obtain ⟨ys, j', hys, h⟩ := Lib.run_bind_eq_ok.mp h
    cases h
    exact ⟨plain_of_unmarshalFrom hlaws t _ _ _ hy, plain_of_unmarshalTuple hlaws us _ _ _ hys⟩

end

theorem reads_iff_plain (hlaws : stream.Lawful) (t : Ty) (x : t.Value) :
    Reads (unmarshalFrom stream t) (marshal stream t x) x ↔ t.Plain x :=
  ⟨fun h => plain_of_unmarshalFrom hlaws t _ _ _ (h 0 []), reads_value hlaws t x⟩

/-- An exception is thrown. -/
def Raises (r : Reader ε α) (i : Input) : Prop := ∃ e, r i = .error e

theorem raises_bounded {t : Ty} {maxSize : Nat} {i i' : Input} {length : UInt32}
    (h : stream.unmarshal .uLong i = .ok (length, i')) (hlong : maxSize < length.toNat) :
    Raises (unmarshalFrom stream (.boundedSequence t maxSize)) i := by
  refine ⟨.tooLong maxSize length.toNat, ?_⟩
  change (stream.unmarshal .uLong i >>= fun x => unmarshalBounded (unmarshalFrom stream t) maxSize
    x.1.toNat x.2) = _
  rw [h]
  change unmarshalBounded _ _ _ i' = _
  rw [unmarshalBounded, dif_neg (Nat.not_le.mpr hlong)]
  rfl

/-- Of a length that is not zero, an optional makes nothing more. -/
theorem raises_optional {t : Ty} {i i' : Input} {length : UInt32}
    (h : stream.unmarshal .uLong i = .ok (length, i')) (hlong : 1 < length.toNat) :
    Raises (unmarshalFrom stream (.optional t)) i ↔ Raises (unmarshalFrom stream t) i' := by
  have hne : length ≠ 0 := by
    rintro rfl
    exact absurd hlong (by decide)
  have hrun : unmarshalFrom stream (.optional t) i =
      (unmarshalFrom stream t i' >>= fun x => .ok (some x.1, x.2)) := by
    change (stream.unmarshal .uLong i >>= fun x => (if x.1 = 0 then pure none
      else unmarshalFrom stream t >>= fun y => pure (some y) : Reader ε (Option t.Value)) x.2) = _
    rw [h]
    change (if length = 0 then pure none else _ : Reader ε (Option t.Value)) i' = _
    rw [if_neg hne]
    rfl
  rw [Raises, Raises, hrun]
  cases unmarshalFrom stream t i' with
  | ok x => exact iff_of_false (by rintro ⟨_, h⟩; cases h) (by rintro ⟨_, h⟩; cases h)
  | error e => exact iff_of_true ⟨e, rfl⟩ ⟨e, rfl⟩

end Reads

/-! ## A stream -/

namespace Primitive

/-- How many bytes a value takes, at a multiple of which it starts -/
def width : Primitive → Nat
  | octet => 1
  | boolean => 1
  | short => 2
  | uShort => 2
  | long => 4
  | uLong => 4
  | longLong => 8
  | uLongLong => 8

def toWord : (p : Primitive) → p.Value → UInt64
  | octet, x => UInt8.toUInt64 x
  | boolean, x => if x then 1 else 0
  | short, x => (Int16.toUInt16 x).toUInt64
  | uShort, x => UInt16.toUInt64 x
  | long, x => (Int32.toUInt32 x).toUInt64
  | uLong, x => UInt32.toUInt64 x
  | longLong, x => Int64.toUInt64 x
  | uLongLong, x => x

def ofWord : (p : Primitive) → UInt64 → p.Value
  | octet, x => x.toUInt8
  | boolean, x => x ≠ 0
  | short, x => x.toUInt16.toInt16
  | uShort, x => x.toUInt16
  | long, x => x.toUInt32.toInt32
  | uLong, x => x.toUInt32
  | longLong, x => x.toInt64
  | uLongLong, x => x

theorem ofWord_toWord : (p : Primitive) → (x : p.Value) → p.ofWord (p.toWord x) = x
  | octet, x => by simp [ofWord, toWord]
  | boolean, x => by cases x <;> simp [ofWord, toWord]
  | short, x => by simp [ofWord, toWord]
  | uShort, x => by simp [ofWord, toWord]
  | long, x => by simp [ofWord, toWord]
  | uLong, x => by simp [ofWord, toWord]
  | longLong, x => by simp [ofWord, toWord]
  | uLongLong, _ => rfl

theorem toWord_lt : (p : Primitive) → (x : p.Value) → (p.toWord x).toNat < 2 ^ (8 * p.width)
  | octet, x => by simpa [toWord, width] using UInt8.toNat_lt x
  | boolean, x => by cases x <;> decide
  | short, x => by simpa [toWord, width] using UInt16.toNat_lt (Int16.toUInt16 x)
  | uShort, x => by simpa [toWord, width] using UInt16.toNat_lt x
  | long, x => by simpa [toWord, width] using UInt32.toNat_lt (Int32.toUInt32 x)
  | uLong, x => by simpa [toWord, width] using UInt32.toNat_lt x
  | longLong, x => UInt64.toNat_lt _
  | uLongLong, x => UInt64.toNat_lt _

theorem width_le (p : Primitive) : p.width ≤ 8 := by
  cases p <;> decide

end Primitive

/-- How far it is to the next multiple -/
def padding (width offset : Nat) : Nat := (width - offset % width) % width

/-- A stream with the most significant bytes first, and zeros where it is padded; all it
throws is that there are not enough bytes. -/
def bigEndianStream : CdrStream Unit where
  marshal p x o := List.replicate (padding p.width o) 0 ++ Lib.bigEndian (p.toWord x) p.width
  unmarshal p i :=
    let skipped := padding p.width i.offset
    if i.left.length < skipped + p.width then .error (.system ())
    else .ok (p.ofWord (Lib.setBytes 0 ((i.left.drop skipped).take p.width)),
      ⟨i.offset + (skipped + p.width), i.left.drop (skipped + p.width)⟩)
  marshalString s o :=
    List.replicate (padding 4 o) 0 ++
      Lib.bigEndian (UInt64.ofNat (s.length + 1)) 4 ++ (s ++ [0])
  unmarshalString i :=
    let skipped := padding 4 i.offset
    let n := (Lib.setBytes 0 ((i.left.drop skipped).take 4)).toUInt32.toNat
    if n = 0 ∨ i.left.length < skipped + 4 + n then .error (.system ())
    else .ok (((i.left.drop (skipped + 4)).take n).dropLast,
      ⟨i.offset + (skipped + 4 + n), i.left.drop (skipped + 4 + n)⟩)

theorem setBytes_toWord (p : Primitive) (x : p.Value) :
    Lib.setBytes 0 (Lib.bigEndian (p.toWord x) p.width) = p.toWord x := by
  refine Lib.setBytes_bigEndian p.width_le fun k _ hk => ?_
  rw [Lib.bit_zero, Lib.lt_two_pow_iff.mp (p.toWord_lt x) k hk]

theorem take_drop_append {xs ys rest : Bytes} {n m : Nat} (hn : xs.length = n)
    (hm : ys.length = m) : ((xs ++ ys ++ rest).drop n).take m = ys := by
  rw [List.append_assoc, List.drop_left' hn, List.take_left' hm]

theorem drop_append {xs ys rest : Bytes} {n m : Nat} (hn : xs.length = n) (hm : ys.length = m) :
    (xs ++ ys ++ rest).drop (n + m) = rest := by
  rw [List.drop_left' (by rw [List.length_append, hn, hm])]

theorem reads_bigEndian (p : Primitive) (x : p.Value) :
    Reads (bigEndianStream.unmarshal p) (bigEndianStream.marshal p x) x := by
  intro o rest
  have hpad : (List.replicate (padding p.width o) (0 : UInt8)).length = padding p.width o :=
    List.length_replicate
  have hbytes := Lib.length_bigEndian (p.toWord x) p.width
  simp only [bigEndianStream]
  rw [if_neg (by simp only [List.length_append, hpad, hbytes]; omega), take_drop_append hpad hbytes,
    drop_append hpad hbytes, setBytes_toWord, p.ofWord_toWord, List.length_append, hpad, hbytes]

theorem reads_bigEndian_long (x : Int32) :
    Reads (bigEndianStream.unmarshal .long) (bigEndianStream.marshal .uLong x.toUInt32) x :=
  reads_bigEndian .long x

theorem reads_bigEndian_string {s : Bytes} (h : s.length + 1 < 2 ^ 32) :
    Reads bigEndianStream.unmarshalString (bigEndianStream.marshalString s) s := by
  intro o rest
  have hpad : (List.replicate (padding 4 o) (0 : UInt8)).length = padding 4 o :=
    List.length_replicate
  have hsize := Lib.length_bigEndian (UInt64.ofNat (s.length + 1)) 4
  have hfront : (List.replicate (padding 4 o) (0 : UInt8) ++
      Lib.bigEndian (UInt64.ofNat (s.length + 1)) 4).length = padding 4 o + 4 := by
    rw [List.length_append, hpad, hsize]
  have hback : (s ++ [(0 : UInt8)]).length = s.length + 1 := by simp
  have hword : (UInt64.ofNat (s.length + 1)).toNat = s.length + 1 :=
    UInt64.toNat_ofNat_of_lt (Nat.lt_trans h (by decide))
  have hlt : (UInt64.ofNat (s.length + 1)).toNat < 2 ^ (8 * 4) := by
    rw [hword]
    exact h
  have hread : (Lib.setBytes 0 (Lib.bigEndian (UInt64.ofNat (s.length + 1)) 4)).toUInt32.toNat =
      s.length + 1 := by
    rw [Lib.setBytes_bigEndian (by decide), UInt64.toNat_toUInt32, hword, Nat.mod_eq_of_lt h]
    intro k _ hk
    rw [Lib.bit_zero, Lib.lt_two_pow_iff.mp hlt k hk]
  have hn : (Lib.setBytes 0 (((List.replicate (padding 4 o) (0 : UInt8) ++
      Lib.bigEndian (UInt64.ofNat (s.length + 1)) 4 ++ (s ++ [0]) ++ rest).drop
        (padding 4 o)).take 4)).toUInt32.toNat = s.length + 1 := by
    rw [List.append_assoc _ (s ++ [0]) rest, take_drop_append hpad hsize, hread]
  simp only [bigEndianStream, hn]
  rw [if_neg (by simp only [List.length_append, hpad, hsize]; simp),
    take_drop_append hfront hback, drop_append hfront hback, List.dropLast_concat,
    List.length_append, hfront, hback]

theorem bigEndianStream_lawful : bigEndianStream.Lawful where
  primitive := reads_bigEndian
  long := reads_bigEndian_long
  string _ _ h := reads_bigEndian_string h
  unmarshalString i s i' h := by
    simp only [bigEndianStream] at h
    split_ifs at h with hshort
    obtain ⟨hn, hle⟩ := not_or.mp hshort
    cases h
    have hlength : (cString ((i.left.drop (padding 4 i.offset + 4)).take
        (Lib.setBytes 0 ((i.left.drop (padding 4 i.offset)).take 4)).toUInt32.toNat).dropLast).length
          + 1 ≤ (Lib.setBytes 0 ((i.left.drop (padding 4 i.offset)).take 4)).toUInt32.toNat := by
      have hcut := (List.takeWhile_sublist (p := (· ≠ 0)) (l := ((i.left.drop
        (padding 4 i.offset + 4)).take (Lib.setBytes 0 ((i.left.drop
          (padding 4 i.offset)).take 4)).toUInt32.toNat).dropLast)).length_le
      rw [List.length_dropLast, List.length_take] at hcut
      rw [cString]
      omega
    exact Nat.lt_of_le_of_lt hlength (UInt32.toNat_lt _)

/-! ## The codecs -/

/-- The values that come back are the plain ones. A length over its bound is refused by a
bounded sequence, and by an optional if the item behind it is. -/
theorem comesBack_iff {ε : Type} (stream : CdrStream ε) (hlaws : stream.Lawful) :
    (∀ (t : Ty) (x : t.Value),
      Reads (unmarshalFrom stream t) (marshal stream t x) x ↔ t.Plain x) ∧
    (∀ (t : Ty) (maxSize : Nat) (i i' : Input) (length : UInt32),
      stream.unmarshal .uLong i = .ok (length, i') → maxSize < length.toNat →
        Raises (unmarshalFrom stream (.boundedSequence t maxSize)) i) ∧
    ∀ (t : Ty) (i i' : Input) (length : UInt32),
      stream.unmarshal .uLong i = .ok (length, i') → 1 < length.toNat →
        (Raises (unmarshalFrom stream (.optional t)) i ↔ Raises (unmarshalFrom stream t) i') :=
  ⟨reads_iff_plain hlaws, fun _ _ _ _ _ => raises_bounded, fun _ _ _ _ => raises_optional⟩

/-- The vector of one string, and a sequence that is too long -/
theorem comesBack_iff_vector :
    (Reads (unmarshalFrom bigEndianStream (.vector .string))
      (marshal bigEndianStream (.vector .string) [[104, 105]]) [[104, 105]] ↔
        Ty.Plain (.vector .string) [[104, 105]]) ∧
    Raises (unmarshalFrom bigEndianStream (.boundedSequence .uint8 1))
      ⟨0, [0, 0, 0, 2, 7, 8]⟩ :=
  ⟨(comesBack_iff bigEndianStream bigEndianStream_lawful).1 (.vector .string) [[104, 105]],
    (comesBack_iff bigEndianStream bigEndianStream_lawful).2.1 .uint8 1 _ ⟨4, [7, 8]⟩ 2
      rfl (by decide)⟩

/-- A string with a NUL in it comes back without what is behind, and of an optional with two
items one is left. -/
theorem not_comesBack :
    ¬ Reads (unmarshalFrom bigEndianStream .string)
      (marshal bigEndianStream .string [97, 0, 98]) [97, 0, 98] ∧
    ¬ Raises (unmarshalFrom bigEndianStream (.optional .uint8)) ⟨0, [0, 0, 0, 2, 7, 8]⟩ := by
  refine ⟨fun h => ?_, fun ⟨e, h⟩ => ?_⟩
  · obtain ⟨hnul, -⟩ := plain_of_unmarshalFrom bigEndianStream_lawful .string _ _ _ (h 0 [])
    exact hnul (by decide)
  · have hread : unmarshalFrom bigEndianStream (.optional .uint8) ⟨0, [0, 0, 0, 2, 7, 8]⟩ =
        .ok (some 7, ⟨5, [8]⟩) := by
      rfl
    rw [hread] at h
    cases h

end Urnest.Cxy
