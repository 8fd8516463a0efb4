import Urnest.Lib.Ring

/-!
# The byte buffer

A pointer into the buffer is an offset; one that `advance_` may be called with is before the
end, so that there is no buffer without bytes. What a `ByteBuffer` holds is a window of its array.

What has been read from a buffer and what it holds is what was written to it, in every run in
which no buffer is copied while its data goes round the end of its array (`sound_of_reaches`).
Such a copy would read and write behind the ends of both arrays (`copy_eq_some_iff`).
-/

namespace Urnest.Xju

open Lib

/-! ## The buffer -/

/-- `advance_` -/
def advance_ {capacity : Nat} (x : Fin capacity) (amount : Nat) : Fin capacity :=
  let distanceToEnd := capacity - x
  if _hend : amount = distanceToEnd then ⟨0, Nat.zero_lt_of_lt x.isLt⟩
  else if _hbehind : amount > distanceToEnd then
    advance_ ⟨0, Nat.zero_lt_of_lt x.isLt⟩ (amount - distanceToEnd)
  else ⟨x + amount, by omega⟩
termination_by amount

structure ByteBuffer where
  capacity_ : Nat
  /-- storage -/
  buffer_ : Fin capacity_ → UInt8
  /-- start of currently held data -/
  begin_ : Fin capacity_
  /-- size of currently held -/
  size_ : Nat

namespace ByteBuffer

/-- What `consumed` and `appended` assert, and that a copy stays within its arrays -/
abbrev Result := Option

/-- The constructor; what the storage holds then is anything. -/
def make {capacity : Nat} (storage : Fin capacity → UInt8) (h : 0 < capacity) : ByteBuffer where
  capacity_ := capacity
  buffer_ := storage
  begin_ := ⟨0, h⟩
  size_ := 0

variable (b : ByteBuffer)

def contigData : Fin b.capacity_ × Nat :=
  let distanceToEnd := b.capacity_ - b.begin_
  (b.begin_, min b.size_ distanceToEnd)

def consumed (n : Nat) : Result ByteBuffer :=
  if n ≤ b.size_ then
    if n = b.size_ then some { b with begin_ := ⟨0, Nat.zero_lt_of_lt b.begin_.isLt⟩, size_ := 0 }
    else some { b with begin_ := advance_ b.begin_ n, size_ := b.size_ - n }
  else none

def clear : Result ByteBuffer := b.consumed b.size_

def contigSpace : Fin b.capacity_ × Nat :=
  let startOfFreeSpace := advance_ b.begin_ b.size_
  let totalFreeSpace := b.capacity_ - b.size_
  let distanceToEnd := b.capacity_ - startOfFreeSpace
  (startOfFreeSpace, min totalFreeSpace distanceToEnd)

def appended (n : Nat) : Result ByteBuffer :=
  if n ≤ b.capacity_ - b.size_ then some { b with size_ := b.size_ + n } else none

/-- The copy constructor, into storage that holds anything. `std::copy` reads from
`b.begin_` on, and writes as many bytes, from the same offset on. -/
def copy (storage : Fin b.capacity_ → UInt8) : Result ByteBuffer :=
  if b.begin_ + b.size_ ≤ b.capacity_ then
    some { b with buffer_ := store storage b.begin_ (window b.buffer_ b.begin_ b.size_) }
  else none

/-- The move constructor: the new buffer, and nothing is left of the old one. -/
def move : ByteBuffer × Option ByteBuffer := (b, none)

/-- What a user does with `contigSpace`: write there, and say so. -/
def write (bytes : List UInt8) : Result ByteBuffer :=
  { b with buffer_ := store b.buffer_ b.contigSpace.1 bytes }.appended bytes.length

/-- What a user does with `contigData`: read there, and say so. -/
def read (n : Nat) : Result (List UInt8 × ByteBuffer) :=
  (b.consumed n).map fun b' => (window b.buffer_ b.contigData.1 n, b')

/-! ## What it holds -/

/-- The bytes that are held, in order -/
def held : List UInt8 := window b.buffer_ b.begin_ b.size_

/-- There are never more than there is room for. -/
def Bounded : Prop := b.size_ ≤ b.capacity_

/-- The data does not go round the end. -/
def Contiguous : Prop := b.begin_ + b.size_ ≤ b.capacity_

instance : Decidable b.Contiguous := inferInstanceAs (Decidable (_ ≤ _))

variable {b}

theorem advance_eq_slot {capacity : Nat} (x : Fin capacity) (amount : Nat) :
    advance_ x amount = slot x amount := by
  fun_induction advance_ x amount with
  | case1 x distanceToEnd =>
    refine Fin.ext ?_
    change 0 = (x.val + (capacity - x)) % capacity
    rw [Nat.add_sub_cancel' x.isLt.le, Nat.mod_self]
  | case2 x amount distanceToEnd hne hlt ih =>
    rw [ih]
    refine Fin.ext ?_
    change (0 + (amount - (capacity - x))) % capacity = (x + amount) % capacity
    have hx := x.isLt
    rw [show x.val + amount = (0 + (amount - (capacity - x))) + capacity by omega, Nat.add_mod_right]
  | case3 x amount distanceToEnd hne hle =>
    refine Fin.ext ?_
    have hx := x.isLt
    exact (Nat.mod_eq_of_lt (by omega)).symm

@[simp] theorem length_held : b.held.length = b.size_ := length_window ..

theorem consumed_of_le {n : Nat} (h : n ≤ b.size_) :
    ∃ b', b.consumed n = some b' ∧ b'.held = b.held.drop n ∧ b'.capacity_ = b.capacity_ := by
  rw [consumed, if_pos h]
  split_ifs with hn
  · refine ⟨_, rfl, ?_, rfl⟩
    rw [List.drop_eq_nil_of_le (by rw [length_held, hn])]
    rfl
  · refine ⟨_, rfl, ?_, rfl⟩
    rw [held, held, drop_window, advance_eq_slot]

theorem clear_eq_some : ∃ b', b.clear = some b' ∧ b'.held = [] ∧ b'.capacity_ = b.capacity_ := by
  obtain ⟨b', hb', hheld, hcapacity⟩ := consumed_of_le (b := b) (n := b.size_) le_rfl
  refine ⟨b', hb', ?_, hcapacity⟩
  rw [hheld, List.drop_eq_nil_of_le length_held.le]

theorem read_of_le {n : Nat} (h : n ≤ b.contigData.2) : ∃ b', b.read n = some (b.held.take n, b') ∧
    b'.held = b.held.drop n ∧ b'.capacity_ = b.capacity_ := by
  have hsize : n ≤ b.size_ := h.trans (min_le_left _ _)
  obtain ⟨b', hb', hheld⟩ := consumed_of_le hsize
  refine ⟨b', ?_, hheld⟩
  rw [read, hb', Option.map_some, held, take_window_of_le hsize]
  rfl

theorem write_of_le {bytes : List UInt8} (h : bytes.length ≤ b.contigSpace.2) (hb : b.Bounded) :
    ∃ b', b.write bytes = some b' ∧ b'.held = b.held ++ bytes ∧ b'.capacity_ = b.capacity_ := by
  have hfree : bytes.length ≤ b.capacity_ - b.size_ := h.trans (min_le_left _ _)
  have hend : bytes.length ≤ b.capacity_ - b.contigSpace.1 := h.trans (min_le_right _ _)
  have hspace : b.contigSpace.1 = slot b.begin_ b.size_ := advance_eq_slot ..
  refine ⟨_, if_pos hfree, ?_, rfl⟩
  rw [hspace] at hend ⊢
  rw [Bounded] at hb
  have hslot := (slot b.begin_ b.size_).isLt
  have hstore : window (store b.buffer_ (slot b.begin_ b.size_) bytes) b.begin_
      (b.size_ + bytes.length) = window b.buffer_ b.begin_ b.size_ ++ bytes :=
    window_store (by omega) (by omega)
  exact hstore

/-- A copy is made of a buffer whose data does not go round the end, and of no other. -/
theorem copy_eq_some_iff (storage : Fin b.capacity_ → UInt8) :
    (∃ b', b.copy storage = some b') ↔ b.Contiguous := by
  rw [copy, Contiguous]
  split_ifs with h
  · exact ⟨fun _ => h, fun _ => ⟨_, rfl⟩⟩
  · refine ⟨?_, fun h' => absurd h' h⟩
    rintro ⟨b', hb'⟩
    cases hb'

theorem copy_of_contiguous (h : b.Contiguous) (storage : Fin b.capacity_ → UInt8) :
    ∃ b', b.copy storage = some b' ∧ b'.held = b.held ∧ b'.capacity_ = b.capacity_ := by
  refine ⟨_, if_pos h, ?_, rfl⟩
  rw [Contiguous] at h
  have hslot : slot b.begin_ 0 = b.begin_ := slot_zero _
  have hstore : window (store storage (slot b.begin_ 0) b.held) b.begin_ (0 + b.held.length) =
      window storage b.begin_ 0 ++ b.held :=
    window_store (by rw [hslot, length_held]; exact h) (by rw [length_held]; omega)
  rw [hslot, Nat.zero_add, length_held] at hstore
  exact hstore

theorem contigData_eq_zero_iff : b.contigData.2 = 0 ↔ b.size_ = 0 := by
  have hbegin := b.begin_.isLt
  rw [contigData]
  omega

theorem contigSpace_eq_zero_iff (hb : b.Bounded) : b.contigSpace.2 = 0 ↔ b.size_ = b.capacity_ := by
  have hspace := (advance_ b.begin_ b.size_).isLt
  rw [Bounded] at hb
  rw [contigSpace]
  omega

end ByteBuffer

/-! ## Runs -/

/-- A buffer, with all that has been written to it and read from it since it was cleared. -/
structure Account where
  buffer : ByteBuffer
  written : List UInt8
  read : List UInt8

/-- The buffers, in the order that they were made; one that was moved from is gone. -/
abbrev Pool := List (Option Account)

def live (pool : Pool) (i : Nat) : Option Account := pool[i]?.join

inductive Action where
  | write (i : Nat) (bytes : List UInt8)
  | read (i n : Nat)
  | clear (i : Nat)
  /-- with what the storage of the copy holds -/
  | copy (i : Nat) (storage : Nat → UInt8)
  | move (i : Nat)

def Account.write (x : Account) (bytes : List UInt8) : Option Account :=
  (x.buffer.write bytes).map fun b => { x with buffer := b, written := x.written ++ bytes }

def Account.readBytes (x : Account) (n : Nat) : Option Account :=
  (x.buffer.read n).map fun r => { x with buffer := r.2, read := x.read ++ r.1 }

def Account.clear (x : Account) : Option Account := x.buffer.clear.map fun b => ⟨b, [], []⟩

/-- A copy has the history of the original. -/
def Account.copy (x : Account) (storage : Nat → UInt8) : Option Account :=
  (x.buffer.copy fun j => storage j).map fun b => { x with buffer := b }

def step (pool : Pool) : Action → Option Pool
  | .write i bytes => do return pool.set i (some (← (← live pool i).write bytes))
  | .read i n => do return pool.set i (some (← (← live pool i).readBytes n))
  | .clear i => do return pool.set i (some (← (← live pool i).clear))
  | .copy i storage => do return pool ++ [some (← (← live pool i).copy storage)]
  | .move i => do
    let x ← live pool i
    return pool.set i (x.buffer.move.2.map fun b => { x with buffer := b }) ++
      [some { x with buffer := x.buffer.move.1 }]

/-- What may be asked of a buffer: it is there, and there is the room, or the data. -/
def Allowed (pool : Pool) : Action → Prop
  | .write i bytes => ∃ x, live pool i = some x ∧ bytes.length ≤ x.buffer.contigSpace.2
  | .read i n => ∃ x, live pool i = some x ∧ n ≤ x.buffer.contigData.2
  | .clear i | .copy i _ | .move i => ∃ x, live pool i = some x

/-- No buffer is copied while its data goes round the end. -/
def Unwrapped (pool : Pool) : Action → Prop
  | .copy i _ => ∀ x, live pool i = some x → x.buffer.Contiguous
  | _ => True

/-- The bytes that were read are those that were written, but for those that are held. -/
structure Account.Sound (capacity : Nat) (x : Account) : Prop where
  written : x.written = x.read ++ x.buffer.held
  bounded : x.buffer.Bounded
  capacity : x.buffer.capacity_ = capacity

def Sound (capacity : Nat) (pool : Pool) : Prop := ∀ x, some x ∈ pool → x.Sound capacity

section Steps

variable {capacity : Nat} {x : Account} {pool : Pool}

theorem Account.Sound.bounded_of_held (h : x.Sound capacity) {b : ByteBuffer}
    (hcapacity : b.capacity_ = x.buffer.capacity_) (hle : b.held.length ≤ x.buffer.held.length) :
    b.Bounded := by
  have hbounded := h.bounded
  rw [ByteBuffer.length_held, ByteBuffer.length_held] at hle
  rw [ByteBuffer.Bounded] at hbounded ⊢
  omega

theorem Account.Sound.write (h : x.Sound capacity) {bytes : List UInt8}
    (hle : bytes.length ≤ x.buffer.contigSpace.2) :
    ∃ y, x.write bytes = some y ∧ y.Sound capacity := by
  obtain ⟨b, hb, hheld, hcapacity⟩ := ByteBuffer.write_of_le hle h.bounded
  have hfree : bytes.length ≤ x.buffer.capacity_ - x.buffer.size_ := hle.trans (min_le_left _ _)
  refine ⟨_, by rw [Account.write, hb]; rfl, ?_, ?_, hcapacity.trans h.capacity⟩
  · change x.written ++ bytes = x.read ++ b.held
    rw [hheld, h.written, List.append_assoc]
  · change b.Bounded
    have hlength := congrArg List.length hheld
    have hbounded := h.bounded
    rw [List.length_append, ByteBuffer.length_held, ByteBuffer.length_held] at hlength
    rw [ByteBuffer.Bounded] at hbounded ⊢
    omega

theorem Account.Sound.readBytes (h : x.Sound capacity) {n : Nat} (hle : n ≤ x.buffer.contigData.2) :
    ∃ y, x.readBytes n = some y ∧ y.Sound capacity := by
  obtain ⟨b, hb, hheld, hcapacity⟩ := ByteBuffer.read_of_le hle
  refine ⟨_, by rw [Account.readBytes, hb]; rfl, ?_, ?_, hcapacity.trans h.capacity⟩
  · change x.written = x.read ++ x.buffer.held.take n ++ b.held
    rw [hheld, List.append_assoc, List.take_append_drop, h.written]
  · refine h.bounded_of_held hcapacity ?_
    rw [hheld, List.length_drop]
    exact Nat.sub_le ..

theorem Account.Sound.clear (h : x.Sound capacity) : ∃ y, x.clear = some y ∧ y.Sound capacity := by
  obtain ⟨b, hb, hheld, hcapacity⟩ := ByteBuffer.clear_eq_some (b := x.buffer)
  refine ⟨_, by rw [Account.clear, hb]; rfl, hheld.symm, ?_, hcapacity.trans h.capacity⟩
  refine h.bounded_of_held hcapacity ?_
  rw [hheld]
  exact Nat.zero_le _

theorem Account.Sound.copy (h : x.Sound capacity) (hcontiguous : x.buffer.Contiguous)
    (storage : Nat → UInt8) : ∃ y, x.copy storage = some y ∧ y.Sound capacity := by
  obtain ⟨b, hb, hheld, hcapacity⟩ := ByteBuffer.copy_of_contiguous hcontiguous fun j => storage j
  refine ⟨_, by rw [Account.copy, hb]; rfl, ?_, ?_, hcapacity.trans h.capacity⟩
  · change x.written = x.read ++ b.held
    rw [hheld, h.written]
  · exact h.bounded_of_held hcapacity (by rw [hheld])

theorem mem_of_live {i : Nat} (h : live pool i = some x) : some x ∈ pool :=
  List.mem_of_getElem? (Option.join_eq_some_iff.mp h)

theorem Sound.set (h : Sound capacity pool) (i : Nat) {y : Option Account}
    (hy : ∀ x ∈ y, x.Sound capacity) : Sound capacity (pool.set i y) := by
  intro x hx
  rcases List.mem_or_eq_of_mem_set hx with hx | rfl
  · exact h x hx
  · exact hy x rfl

theorem Sound.append (h : Sound capacity pool) {y : Account} (hy : y.Sound capacity) :
    Sound capacity (pool ++ [some y]) := by
  intro x hx
  rcases List.mem_append.mp hx with hx | hx
  · exact h x hx
  · rw [Option.some.inj (List.mem_singleton.mp hx)]
    exact hy

theorem Sound.step (h : Sound capacity pool) {a : Action} (ha : Allowed pool a)
    (hu : Unwrapped pool a) : ∃ pool', step pool a = some pool' ∧ Sound capacity pool' := by
  cases a with
  | write i bytes =>
    obtain ⟨x, hx, hle⟩ := ha
    obtain ⟨y, hy, hsound⟩ := (h x (mem_of_live hx)).write hle
    refine ⟨_, ?_, h.set i (y := some y) fun z hz => Option.some.inj hz ▸ hsound⟩
    simp only [Xju.step, hx, hy, Option.bind_eq_bind, Option.bind_some, Option.pure_def]
  | read i n =>
    obtain ⟨x, hx, hle⟩ := ha
    obtain ⟨y, hy, hsound⟩ := (h x (mem_of_live hx)).readBytes hle
    refine ⟨_, ?_, h.set i (y := some y) fun z hz => Option.some.inj hz ▸ hsound⟩
    simp only [Xju.step, hx, hy, Option.bind_eq_bind, Option.bind_some, Option.pure_def]
  | clear i =>
    obtain ⟨x, hx⟩ := ha
    obtain ⟨y, hy, hsound⟩ := (h x (mem_of_live hx)).clear
    refine ⟨_, ?_, h.set i (y := some y) fun z hz => Option.some.inj hz ▸ hsound⟩
    simp only [Xju.step, hx, hy, Option.bind_eq_bind, Option.bind_some, Option.pure_def]
  | copy i storage =>
    obtain ⟨x, hx⟩ := ha
    obtain ⟨y, hy, hsound⟩ := (h x (mem_of_live hx)).copy (hu x hx) storage
    refine ⟨_, ?_, h.append hsound⟩
    simp only [Xju.step, hx, hy, Option.bind_eq_bind, Option.bind_some, Option.pure_def]
  | move i =>
    obtain ⟨x, hx⟩ := ha
    refine ⟨_, ?_, (h.set i (y := none) fun z hz => nomatch hz).append (h x (mem_of_live hx))⟩
    simp only [Xju.step, hx, Option.bind_eq_bind, Option.bind_some, Option.pure_def]
    rfl

end Steps

/-- The pools that a new buffer leads to. -/
inductive Reaches {capacity : Nat} (storage : Fin capacity → UInt8) (h : 0 < capacity) : Pool → Prop where
  | new : Reaches storage h [some ⟨.make storage h, [], []⟩]
  | step {pool pool' : Pool} {a : Action} : Reaches storage h pool → Allowed pool a →
    Unwrapped pool a → step pool a = some pool' → Reaches storage h pool'

theorem sound_of_reaches {capacity : Nat} {storage : Fin capacity → UInt8} {h : 0 < capacity}
    {pool : Pool} (hreaches : Reaches storage h pool) : Sound capacity pool := by
  induction hreaches with
  | new =>
    intro x hx
    rw [Option.some.inj (List.mem_singleton.mp hx)]
    exact ⟨rfl, Nat.zero_le _, rfl⟩
  | step _ ha hu hstep ih =>
    obtain ⟨pool', hpool', hsound⟩ := ih.step ha hu
    rw [hstep] at hpool'
    rwa [Option.some.inj hpool']

/-- In every run in which no buffer is copied while its data goes round the end of its array,
each buffer is a bounded queue, a copy holds what the original holds, and nothing that is
allowed goes wrong. -/
theorem fifo_of_reaches {capacity : Nat} {storage : Fin capacity → UInt8} {h : 0 < capacity}
    {pool : Pool} (hreaches : Reaches storage h pool) :
    (∀ i x, live pool i = some x → x.written = x.read ++ x.buffer.held ∧
      x.buffer.size_ = x.written.length - x.read.length ∧ x.buffer.size_ ≤ capacity ∧
      (x.buffer.contigData.2 = 0 ↔ x.buffer.size_ = 0) ∧
      (x.buffer.contigSpace.2 = 0 ↔ x.buffer.size_ = capacity)) ∧
    (∀ a, Allowed pool a → Unwrapped pool a → ∃ pool', step pool a = some pool') ∧
    ∀ i x, live pool i = some x → x.buffer.Contiguous → ∀ storage', ∃ y,
      x.copy storage' = some y ∧ y.buffer.held = x.buffer.held ∧ y.written = x.written ∧
        y.read = x.read := by
  have hsound := sound_of_reaches hreaches
  refine ⟨fun i x hx => ?_, fun a ha hu => ?_, fun i x hx hcontiguous storage' => ?_⟩
  · obtain ⟨hwritten, hbounded, hcapacity⟩ := hsound x (mem_of_live hx)
    have hlength := congrArg List.length hwritten
    rw [List.length_append, ByteBuffer.length_held] at hlength
    have hspace := ByteBuffer.contigSpace_eq_zero_iff hbounded
    rw [ByteBuffer.Bounded, hcapacity] at hbounded
    exact ⟨hwritten, by omega, hbounded, ByteBuffer.contigData_eq_zero_iff,
      hspace.trans (by rw [hcapacity])⟩
  · obtain ⟨pool', hpool', -⟩ := hsound.step ha hu
    exact ⟨pool', hpool'⟩
  · obtain ⟨b, hb, hheld, -⟩ := ByteBuffer.copy_of_contiguous hcontiguous fun j => storage' j
    exact ⟨{ x with buffer := b }, by rw [Account.copy, hb]; rfl, hheld, rfl, rfl⟩

theorem fifo_of_reaches_new : ∃ pool',
    step [some ⟨.make (fun _ : Fin 2 => 0) (by decide), [], []⟩] (.copy 0 fun _ => 0) = some pool' :=
  (fifo_of_reaches (Reaches.new : Reaches (fun _ : Fin 2 => 0) (by decide) _)).2.1
    (.copy 0 fun _ => 0) ⟨_, rfl⟩ (by rintro x hx; cases hx; decide)

/-- Two bytes in a buffer of two, the first of which goes to make room for a third. -/
theorem reaches_wrapped : ∃ x, Reaches (fun _ : Fin 2 => 0) (by decide) [some x] ∧
    ¬ x.buffer.Contiguous := by
  -- The states one after the other; that each follows is by evaluation.
  let new : ByteBuffer := .make (fun _ : Fin 2 => 0) (by decide)
  let filled : ByteBuffer := { new with buffer_ := store new.buffer_ 0 [1, 2], size_ := 2 }
  let begun : ByteBuffer := { filled with begin_ := ⟨1, by decide⟩, size_ := 1 }
  let wrapped : ByteBuffer := { begun with buffer_ := store begun.buffer_ 0 [3], size_ := 2 }
  have hfilled : new.write [1, 2] = some filled := by
    simp only [ByteBuffer.write, ByteBuffer.contigSpace, ByteBuffer.advance_eq_slot]
    rfl
  have hbegun : filled.read 1 = some ([1], begun) := by
    simp only [ByteBuffer.read, ByteBuffer.consumed, ByteBuffer.advance_eq_slot]
    rfl
  have hslot : (slot begun.begin_ begun.size_).val = 0 := Nat.mod_self 2
  have hwrapped : begun.write [3] = some wrapped := by
    simp only [ByteBuffer.write, ByteBuffer.contigSpace, ByteBuffer.advance_eq_slot, hslot]
    rfl
  have hroom : new.contigSpace.2 = 2 := by
    simp only [ByteBuffer.contigSpace, ByteBuffer.advance_eq_slot]
    rfl
  have hroom' : begun.contigSpace.2 = 1 := by
    simp only [ByteBuffer.contigSpace, ByteBuffer.advance_eq_slot, hslot]
    rfl
  have h₁ : Reaches (fun _ : Fin 2 => 0) (by decide) [some ⟨filled, [1, 2], []⟩] :=
    Reaches.new.step (a := .write 0 [1, 2]) ⟨_, rfl, hroom.ge⟩ trivial (by
      change (do return [some (← (Account.write ⟨new, [], []⟩ [1, 2]))]) = _
      rw [Account.write, hfilled]
      rfl)
  have h₂ : Reaches (fun _ : Fin 2 => 0) (by decide) [some ⟨begun, [1, 2], [1]⟩] :=
    h₁.step (a := .read 0 1) ⟨_, rfl, by decide⟩ trivial (by
      change (do return [some (← (Account.readBytes ⟨filled, [1, 2], []⟩ 1))]) = _
      rw [Account.readBytes, hbegun]
      rfl)
  have h₃ : Reaches (fun _ : Fin 2 => 0) (by decide) [some ⟨wrapped, [1, 2, 3], [1]⟩] :=
    h₂.step (a := .write 0 [3]) ⟨_, rfl, hroom'.ge⟩ trivial (by
      change (do return [some (← (Account.write ⟨begun, [1, 2], [1]⟩ [3]))]) = _
      rw [Account.write, hwrapped]
      rfl)
  exact ⟨_, h₃, by decide⟩

/-- A buffer whose data goes round the end is not copied. -/
theorem not_copied : ¬ ∀ {capacity : Nat} (storage : Fin capacity → UInt8) (h : 0 < capacity)
    (pool : Pool), Reaches storage h pool → ∀ i x, live pool i = some x →
      ∀ storage', ∃ y, x.copy storage' = some y := by
  intro hall
  obtain ⟨x, hreaches, hcontiguous⟩ := reaches_wrapped
  obtain ⟨y, hy⟩ := hall _ _ _ hreaches 0 x rfl fun _ => 0
  obtain ⟨b, hb, -⟩ := Option.map_eq_some_iff.mp hy
  exact hcontiguous ((ByteBuffer.copy_eq_some_iff _).mp ⟨b, hb⟩)

end Urnest.Xju
