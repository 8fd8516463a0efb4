import Urnest.Net.Ostream

/-!
# The output buffers

`MemOBuf` keeps what it is given. `io::OBuf` hands it on to an `OStream`, which writes to a
destination that may take all of what it is offered, or some, or nothing until the deadline.

`OStream::write` goes on after a short write from where it began, and `OBuf::flush` keeps
everything when not all was written. So the buffer is faithful while every write that takes
something takes all (`Destination.AllOrNothing`).
-/

namespace Urnest.Net

open Xju

/-! ## In memory -/

structure MemOBuf where
  inc_ : Nat
  max_ : Nat
  buf_ : List UInt8
  valid_ : Nat

namespace MemOBuf

/-- The constructor -/
def make (inc max : Nat) : MemOBuf := ⟨inc, max, [], 0⟩

/-- `data()` -/
def data (b : MemOBuf) : List UInt8 := b.buf_.take b.valid_

/-- `if (to>mark()) valid_=to-begin();` -/
def mark (b : MemOBuf) : Option Nat → MemOBuf
  | none => b
  | some to_ => if to_ > b.valid_ then { b with valid_ := to_ } else b

/-- `if (mark()==end()) buf_.resize(buf_.size()+extra);` -/
def extend (b : MemOBuf) : MemOBuf :=
  if b.valid_ = b.buf_.length then
    { b with buf_ := b.buf_ ++ List.replicate (min b.inc_ (b.max_ - b.buf_.length)) 0 }
  else b

def flush (to_ : Option Nat) (b : MemOBuf) : Except Stop (Nat × Nat) × MemOBuf :=
  if to_.getD 0 ≤ b.buf_.length then
    let b := (b.mark to_).extend
    (.ok (b.valid_, b.buf_.length), b)
  else (.error .assertFailed, b)

def obuf : OBuf MemOBuf where
  flush := flush
  store i x b := { b with buf_ := b.buf_.set i x }

/-- The space begins behind what is valid, and ends where the buffer does. -/
def Valid (b : MemOBuf) : Option (Nat × Nat) → Prop
  | none => b.valid_ ≤ b.buf_.length
  | some (first, second) => b.valid_ ≤ first ∧ first ≤ second ∧ second = b.buf_.length

def held (b : MemOBuf) : Option Nat → List UInt8
  | none => b.data
  | some first => b.buf_.take first

theorem take_extend (b : MemOBuf) {n : Nat} (hn : n ≤ b.buf_.length) :
    b.extend.buf_.take n = b.buf_.take n := by
  rw [extend]
  split_ifs
  · exact List.take_append_of_le_length hn
  · rfl

theorem extend_valid_ (b : MemOBuf) : b.extend.valid_ = b.valid_ := by
  rw [extend]
  split_ifs <;> rfl

theorem length_le_extend (b : MemOBuf) : b.buf_.length ≤ b.extend.buf_.length := by
  rw [extend]
  split_ifs
  · simp
  · exact le_rfl

/-- Where `mark` puts the end of what is valid. -/
theorem mark_spec {b : MemOBuf} {data : Option (Nat × Nat)} (h : b.Valid data) :
    (b.mark (data.map Prod.fst)).buf_ = b.buf_ ∧
      (b.mark (data.map Prod.fst)).valid_ ≤ b.buf_.length ∧
      b.buf_.take (b.mark (data.map Prod.fst)).valid_ = b.held (data.map Prod.fst) := by
  cases data with
  | none => exact ⟨rfl, h, rfl⟩
  | some data =>
    obtain ⟨first, second⟩ := data
    obtain ⟨hle, hle', hsecond⟩ := h
    simp only [Option.map_some, mark, held]
    split_ifs with hgt
    · exact ⟨rfl, by dsimp only; omega, rfl⟩
    · have heq : first = b.valid_ := by omega
      exact ⟨rfl, by omega, by rw [heq]⟩

theorem flush_eq {b : MemOBuf} {data : Option (Nat × Nat)} (h : b.Valid data) :
    flush (data.map Prod.fst) b
      = (.ok ((b.mark (data.map Prod.fst)).extend.valid_,
            (b.mark (data.map Prod.fst)).extend.buf_.length),
          (b.mark (data.map Prod.fst)).extend) := by
  rw [flush, if_pos]
  cases data with
  | none => exact Nat.zero_le _
  | some data =>
    obtain ⟨hle, hle', hsecond⟩ := h
    simp only [Option.map_some, Option.getD_some]
    omega

/-- A buffer in memory loses nothing. -/
def faithful : obuf.Faithful where
  delivered := data
  held := held
  Valid := Valid
  delivered_prefix := by
    intro b data h
    cases data with
    | none => exact List.prefix_refl _
    | some data => exact List.take_prefix_take_left h.1
  flush_error := by
    intro b data e b' h hflush
    rw [show obuf.flush = flush from rfl, flush_eq h] at hflush
    cases hflush
  flush_ok := by
    intro b data space b' h hflush
    rw [show obuf.flush = flush from rfl, flush_eq h] at hflush
    cases hflush
    obtain ⟨hbuf, hle, htake⟩ := mark_spec h
    have hlength := length_le_extend (b.mark (data.map Prod.fst))
    rw [← hbuf] at hle htake
    have hdata : (b.mark (data.map Prod.fst)).extend.data = b.held (data.map Prod.fst) := by
      rw [MemOBuf.data, extend_valid_, take_extend _ hle, htake]
    refine ⟨⟨le_rfl, ?_, rfl⟩, hdata, hdata⟩
    rw [extend_valid_]
    omega
  store := by
    intro b first second x h hne
    obtain ⟨hle, hle', hsecond⟩ := h
    have hlt : first < b.buf_.length := by omega
    refine ⟨⟨?_, ?_, ?_⟩, ?_⟩
    · exact Nat.le_succ_of_le hle
    · omega
    · simp [obuf, hsecond]
    · simp [obuf, held, List.take_add_one, List.take_set_of_le, hlt]

/-- There is space after a call of `flush` while the buffer may grow. -/
theorem flush_space {b : MemOBuf} {data : Option (Nat × Nat)} (h : b.Valid data)
    (hinc : 0 < b.inc_) (hmax : (b.held (data.map Prod.fst)).length < b.max_) :
    (b.mark (data.map Prod.fst)).extend.valid_ ≠ (b.mark (data.map Prod.fst)).extend.buf_.length := by
  obtain ⟨hbuf, hle, htake⟩ := mark_spec h
  have hvalid : (b.mark (data.map Prod.fst)).valid_ = (b.held (data.map Prod.fst)).length := by
    rw [← htake, List.length_take, Nat.min_eq_left hle]
  have hinc' : (b.mark (data.map Prod.fst)).inc_ = b.inc_ ∧
      (b.mark (data.map Prod.fst)).max_ = b.max_ := by
    cases data with
    | none => exact ⟨rfl, rfl⟩
    | some data =>
      simp only [Option.map_some, mark]
      split_ifs <;> exact ⟨rfl, rfl⟩
  rw [extend_valid_, extend]
  split_ifs with hend
  · simp only [List.length_append, List.length_replicate]
    omega
  · exact hend

/-- A byte within the maximum is put. -/
theorem put8_ok {s : Ostream MemOBuf} (x : UInt8) (h : s.Valid faithful) (hinc : 0 < s.obuf_.inc_)
    (hmax : (s.held faithful).length < s.obuf_.max_) :
    (Ostream.put8 obuf x s).1 = .ok () ∧
      (Ostream.put8 obuf x s).2.obuf_.inc_ = s.obuf_.inc_ ∧
      (Ostream.put8 obuf x s).2.obuf_.max_ = s.obuf_.max_ := by
  have hstore : ∀ s : Ostream MemOBuf, (s.store obuf x).obuf_.inc_ = s.obuf_.inc_ ∧
      (s.store obuf x).obuf_.max_ = s.obuf_.max_ := by
    intro s
    rw [Ostream.store]
    split <;> exact ⟨rfl, rfl⟩
  have hkeep : (s.obuf_.mark (s.data_.map Prod.fst)).extend.inc_ = s.obuf_.inc_ ∧
      (s.obuf_.mark (s.data_.map Prod.fst)).extend.max_ = s.obuf_.max_ := by
    rw [extend]
    cases s.data_ with
    | none => split_ifs <;> exact ⟨rfl, rfl⟩
    | some data =>
      simp only [Option.map_some, mark]
      split_ifs <;> exact ⟨rfl, rfl⟩
  have hspace := flush_space h hinc hmax
  rw [Ostream.put8]
  split_ifs with hfull
  · rw [show obuf.flush = flush from rfl, flush_eq h]
    dsimp only
    rw [if_neg (by simpa [Ostream.full] using hspace)]
    exact ⟨rfl, (hstore _).1.trans hkeep.1, (hstore _).2.trans hkeep.2⟩
  · exact ⟨rfl, hstore s⟩

/-- So are as many bytes as the maximum allows. -/
theorem put_ok (bs : List UInt8) {s : Ostream MemOBuf} (h : s.Valid faithful)
    (hinc : 0 < s.obuf_.inc_) (hmax : (s.held faithful).length + bs.length ≤ s.obuf_.max_) :
    (Ostream.put obuf bs s).1 = .ok () ∧
      (Ostream.put obuf bs s).2.obuf_.inc_ = s.obuf_.inc_ ∧
      (Ostream.put obuf bs s).2.obuf_.max_ = s.obuf_.max_ := by
  induction bs generalizing s with
  | nil => exact ⟨rfl, rfl, rfl⟩
  | cons b rest ih =>
    rw [List.length_cons] at hmax
    obtain ⟨hok, hinc', hmax'⟩ := put8_ok b h hinc (by omega)
    rw [Ostream.put, Call.andThen]
    cases hput : Ostream.put8 obuf b s with
    | mk r s' =>
      rw [hput] at hok hinc' hmax'
      dsimp only at hok hinc' hmax'
      subst hok
      obtain ⟨hvalid, hheld⟩ := Ostream.put8_spec h hput
      rw [if_pos rfl] at hheld
      obtain ⟨hok, hinc'', hmax''⟩ := ih hvalid (by omega) (by
        rw [hheld, List.length_append, List.length_singleton, hmax']
        omega)
      exact ⟨hok, hinc''.trans hinc', hmax''.trans hmax'⟩

end MemOBuf

/-! ## To a destination -/

/-- What comes of waiting for the destination and offering it bytes -/
inductive Event where
  /-- the deadline comes first -/
  | deadline
  /-- all bytes offered are taken -/
  | takesAll
  /-- so many are, if as many are offered -/
  | takes (n : Nat)
  /-- `EPIPE` -/
  | brokenPipe
  /-- another failure of `write` -/
  | fails (e : Exception)
  deriving DecidableEq

structure Destination where
  received : List UInt8
  /-- what will happen, in turn -/
  events : Nat → Event
  /-- how much of it has happened -/
  past : Nat

namespace Destination

variable (d : Destination)

/-- What happens next -/
def event : Event := d.events d.past

/-- It has happened, and the destination has these bytes more. -/
def receive (bytes : List UInt8) : Destination :=
  { d with received := d.received ++ bytes, past := d.past + 1 }

/-- A destination that never takes a part of what it is offered -/
def AllOrNothing : Prop := ∀ i n, d.events i ≠ .takes n

end Destination

/-- What `OStream::write` adds to an exception -/
def writeText (name : String) (bufferSize bytesWrote : Nat) : String :=
  "write more of max " ++ Nat.repr bufferSize ++ " bytes, having written " ++ Nat.repr bytesWrote
    ++ " bytes, to " ++ name ++ " by deadline"

/-- What is thrown, or the count returned, when the output has closed. -/
def closed (name : String) (bufferSize bytesWrote : Nat) : Except Stop Nat :=
  if bytesWrote ≠ 0 then .ok bytesWrote
  else .error ((Stop.threw .closed ⟨name ++ " closed", []⟩).addContext
    (writeText name bufferSize bytesWrote))

/-- `while(bytesWrote<bufferSize && select({this},deadline).size())`. The pointer handed to
`write(2)` is that of the whole buffer, each time. A turn that goes on has written something, so
`bufferSize` turns are enough. -/
def writeLoop (name : String) (buffer : List UInt8) :
    Nat → Nat → Destination → Except Stop Nat × Destination
  | 0, bytesWrote, d => (.ok bytesWrote, d)
  | fuel + 1, bytesWrote, d =>
    if bytesWrote < buffer.length then
      let offered := buffer.take (buffer.length - bytesWrote)
      match d.event with
      | .deadline => (.ok bytesWrote, d.receive [])
      | .takesAll =>
        writeLoop name buffer fuel (bytesWrote + offered.length) (d.receive offered)
      | .takes n =>
        let thisWrite := min n offered.length
        if thisWrite = 0 then (closed name buffer.length bytesWrote, d.receive [])
        else
          writeLoop name buffer fuel (bytesWrote + thisWrite) (d.receive (offered.take thisWrite))
      | .brokenPipe => (closed name buffer.length bytesWrote, d.receive [])
      | .fails e =>
        (.error ((Stop.threw .syscallFailed e).addContext
          (writeText name buffer.length bytesWrote)), d.receive [])
    else (.ok bytesWrote, d)

/-- `OStream::write` -/
def write (name : String) (buffer : List UInt8) (d : Destination) :
    Except Stop Nat × Destination :=
  writeLoop name buffer buffer.length 0 d

/-- `io::OBuf`, with the `OStream` it writes to -/
structure IoOBuf where
  name : String
  x_ : Destination
  data_ : List UInt8

namespace IoOBuf

/-- The constructor. The deadline, and a `DeadlineOverride`, say when the destination is too
late, which its events do. -/
def make (name : String) (x : Destination) (size : Nat) : IoOBuf :=
  ⟨name, x, List.replicate size 0⟩

/-- What is written of the `n` bytes, and whether it is all -/
def flushBytes (n : Nat) (b : IoOBuf) : Except Stop Unit × IoOBuf :=
  if n ≠ 0 then
    match write b.name (b.data_.take n) b.x_ with
    | (.error e, d) => (.error e, { b with x_ := d })
    | (.ok m, d) =>
      if m < n then
        (.error (.threw .deadlineReached
          ⟨"deadline reached having only written " ++ Nat.repr n ++ " bytes", []⟩), { b with x_ := d })
      else (.ok (), { b with x_ := d })
  else (.ok (), b)

def flush (to_ : Option Nat) (b : IoOBuf) : Except Stop (Nat × Nat) × IoOBuf :=
  match to_ with
  | none => (.ok (0, b.data_.length), b)
  | some n =>
    if n ≤ b.data_.length then
      match flushBytes n b with
      | (.error e, b) =>
        (.error (e.addContext ("flush " ++ Nat.repr n ++ " bytes of data from output buffer to "
          ++ b.name)), b)
      | (.ok _, b) => (.ok (0, b.data_.length), b)
    else (.error .assertFailed, b)

def obuf : OBuf IoOBuf where
  flush := flush
  store i x b := { b with data_ := b.data_.set i x }

end IoOBuf

/-! ### Faithful to a destination that takes all or nothing -/

theorem writeLoop_done (name : String) (buffer : List UInt8) (fuel : Nat) (d : Destination) :
    writeLoop name buffer fuel buffer.length d = (.ok buffer.length, d) := by
  cases fuel with
  | zero => rfl
  | succ fuel => exact if_neg (Nat.lt_irrefl _)

/-- Everything is written, or nothing is. -/
theorem write_spec (name : String) {buffer : List UInt8} (hne : buffer ≠ []) {d : Destination}
    (hd : d.AllOrNothing) :
    (write name buffer d).2.events = d.events ∧
      (((write name buffer d).1 = .ok buffer.length ∧
          (write name buffer d).2.received = d.received ++ buffer) ∨
        ((∀ m, (write name buffer d).1 = .ok m → m < buffer.length) ∧
          (write name buffer d).2.received = d.received)) := by
  have hpos := List.length_pos_of_ne_nil hne
  obtain ⟨n, hn⟩ : ∃ n, buffer.length = n + 1 := ⟨buffer.length - 1, by omega⟩
  have hall : buffer.take (buffer.length - 0) = buffer := by
    rw [Nat.sub_zero, List.take_length]
  have hwrite : write name buffer d = writeLoop name buffer (n + 1) 0 d := by
    rw [write, hn]
  rw [hwrite, writeLoop, if_pos hpos, hall]
  dsimp only
  cases hevent : d.event with
  | deadline =>
    refine ⟨rfl, .inr ⟨fun m hm => ?_, List.append_nil _⟩⟩
    cases hm
    exact hpos
  | takesAll =>
    dsimp only
    rw [Nat.zero_add, writeLoop_done]
    exact ⟨rfl, .inl ⟨rfl, rfl⟩⟩
  | takes k => exact absurd hevent (hd d.past k)
  | brokenPipe => exact ⟨rfl, .inr ⟨(fun m hm => nomatch hm), List.append_nil _⟩⟩
  | fails e => exact ⟨rfl, .inr ⟨(fun m hm => nomatch hm), List.append_nil _⟩⟩

/-- A destination that takes everything is written everything. -/
theorem write_takesAll (name : String) {buffer : List UInt8} {d : Destination}
    (hevent : d.event = .takesAll) (hne : buffer ≠ []) :
    (write name buffer d).1 = .ok buffer.length := by
  have hpos := List.length_pos_of_ne_nil hne
  obtain ⟨n, hn⟩ : ∃ n, buffer.length = n + 1 := ⟨buffer.length - 1, by omega⟩
  have hwrite : write name buffer d = writeLoop name buffer (n + 1) 0 d := by
    rw [write, hn]
  rw [hwrite, writeLoop, if_pos hpos, hevent, Nat.sub_zero, List.take_length]
  dsimp only
  rw [Nat.zero_add, writeLoop_done]

namespace IoOBuf

/-- The space is the rest of the buffer. -/
def Valid (b : IoOBuf) (data : Option (Nat × Nat)) : Prop :=
  b.x_.AllOrNothing ∧
    ∀ first second, data = some (first, second) → first ≤ second ∧ second = b.data_.length

/-- What has been received, and what has been written into the buffer. -/
def held (b : IoOBuf) : Option Nat → List UInt8
  | none => b.x_.received
  | some first => b.x_.received ++ b.data_.take first

theorem flushBytes_spec {b : IoOBuf} {n : Nat} (hn : n ≤ b.data_.length)
    (hb : b.x_.AllOrNothing) :
    (flushBytes n b).2.data_ = b.data_ ∧ (flushBytes n b).2.x_.events = b.x_.events ∧
      (((flushBytes n b).1 = .ok () ∧
          (flushBytes n b).2.x_.received = b.x_.received ++ b.data_.take n) ∨
        ((flushBytes n b).1 ≠ .ok () ∧ (flushBytes n b).2.x_.received = b.x_.received)) := by
  rw [flushBytes]
  split_ifs with hzero
  · have hlen : (b.data_.take n).length = n := by
      rw [List.length_take, Nat.min_eq_left hn]
    have hne : b.data_.take n ≠ [] := by
      apply List.ne_nil_of_length_pos
      omega
    obtain ⟨hevents, hwrite⟩ := write_spec b.name hne hb
    rw [hlen] at hwrite
    cases hrun : write b.name (b.data_.take n) b.x_ with
    | mk r d =>
      rw [hrun] at hevents hwrite
      cases r with
      | error e =>
        refine ⟨rfl, hevents, .inr ⟨(fun h => nomatch h), ?_⟩⟩
        obtain ⟨h, -⟩ | ⟨-, h⟩ := hwrite
        · cases h
        · exact h
      | ok m =>
        dsimp only
        split_ifs with hm
        · refine ⟨rfl, hevents, .inr ⟨(fun h => nomatch h), ?_⟩⟩
          obtain ⟨h, -⟩ | ⟨-, h⟩ := hwrite
          · cases h
            exact absurd hm (Nat.lt_irrefl n)
          · exact h
        · refine ⟨rfl, hevents, .inl ⟨rfl, ?_⟩⟩
          obtain ⟨-, h⟩ | ⟨h, -⟩ := hwrite
          · exact h
          · exact absurd (h m rfl) hm
  · obtain rfl : n = 0 := by omega
    exact ⟨rfl, rfl, .inl ⟨rfl, (List.append_nil _).symm⟩⟩

/-- The buffer is faithful to a destination that takes all or nothing. -/
def faithful : obuf.Faithful where
  delivered b := b.x_.received
  held := held
  Valid := Valid
  delivered_prefix := by
    intro b data _
    cases data with
    | none => exact List.prefix_refl _
    | some data => exact List.prefix_append ..
  flush_error := by
    intro b data e b' h hflush
    obtain ⟨hall, hspace⟩ := h
    cases data with
    | none => cases hflush
    | some data =>
      obtain ⟨first, second⟩ := data
      obtain ⟨hle, hsecond⟩ := hspace first second rfl
      obtain ⟨hdata, hevents, hwritten⟩ := flushBytes_spec (by omega : first ≤ b.data_.length) hall
      simp only [obuf, Option.map_some, flush, if_pos (by omega : first ≤ b.data_.length)] at hflush
      cases hrun : flushBytes first b with
      | mk r b₁ =>
        rw [hrun] at hdata hevents hwritten hflush
        cases r with
        | ok u => cases hflush
        | error e =>
          cases hflush
          obtain ⟨h, -⟩ | ⟨-, hreceived⟩ := hwritten
          · cases h
          · refine ⟨⟨?_, ?_⟩, ?_⟩
            · intro i n
              rw [hevents]
              exact hall i n
            · rw [hdata]
              exact hspace
            · simp only [Option.map_some, held]
              rw [hreceived, hdata]
  flush_ok := by
    intro b data space b' h hflush
    obtain ⟨hall, hspace⟩ := h
    cases data with
    | none =>
      cases hflush
      refine ⟨⟨hall, ?_⟩, List.append_nil _, rfl⟩
      rintro _ _ ⟨⟩
      exact ⟨Nat.zero_le _, rfl⟩
    | some data =>
      obtain ⟨first, second⟩ := data
      obtain ⟨hle, hsecond⟩ := hspace first second rfl
      obtain ⟨hdata, hevents, hwritten⟩ := flushBytes_spec (by omega : first ≤ b.data_.length) hall
      simp only [obuf, Option.map_some, flush, if_pos (by omega : first ≤ b.data_.length)] at hflush
      cases hrun : flushBytes first b with
      | mk r b₁ =>
        rw [hrun] at hdata hevents hwritten hflush
        cases r with
        | error e => cases hflush
        | ok u =>
          cases hflush
          obtain ⟨-, hreceived⟩ | ⟨h, -⟩ := hwritten
          · refine ⟨⟨?_, ?_⟩, ?_, hreceived⟩
            · intro i n
              rw [hevents]
              exact hall i n
            · rintro _ _ ⟨⟩
              exact ⟨Nat.zero_le _, rfl⟩
            · simp only [Option.map_some, held, List.take_zero, List.append_nil]
              exact hreceived
          · exact absurd rfl h
  store := by
    intro b first second x h hne
    obtain ⟨hle, hsecond⟩ := h.2 first second rfl
    have hlt : first < b.data_.length := by omega
    refine ⟨⟨h.1, ?_⟩, ?_⟩
    · rintro _ _ ⟨⟩
      exact ⟨by omega, by simp [obuf, hsecond]⟩
    · simp [obuf, held, List.take_add_one, List.take_set_of_le, hlt]

/-! ### When everything is taken -/

/-- A destination that takes all it is offered, in time -/
def TakesAll (b : IoOBuf) : Prop := ∀ i, b.x_.events i = .takesAll

theorem TakesAll.allOrNothing {b : IoOBuf} (h : b.TakesAll) : b.x_.AllOrNothing := by
  intro i n
  rw [h i]
  exact fun h => nomatch h

theorem flush_takesAll {b : IoOBuf} {data : Option (Nat × Nat)} (htakes : b.TakesAll)
    (h : b.Valid data) :
    (flush (data.map Prod.fst) b).1 = .ok (0, b.data_.length) ∧
      (flush (data.map Prod.fst) b).2.TakesAll ∧
      (flush (data.map Prod.fst) b).2.data_.length = b.data_.length := by
  cases data with
  | none => exact ⟨rfl, htakes, rfl⟩
  | some data =>
    obtain ⟨first, second⟩ := data
    obtain ⟨hle, hsecond⟩ := h.2 first second rfl
    have hfirst : first ≤ b.data_.length := by omega
    obtain ⟨hdata, hevents, -⟩ := flushBytes_spec hfirst h.1
    have hok : (flushBytes first b).1 = .ok () := by
      rw [flushBytes]
      split_ifs with hzero
      · have hlen : (b.data_.take first).length = first := by
          rw [List.length_take, Nat.min_eq_left hfirst]
        have hne : b.data_.take first ≠ [] := by
          apply List.ne_nil_of_length_pos
          omega
        have hall := write_takesAll b.name (htakes b.x_.past) hne
        rw [hlen] at hall
        cases hrun : write b.name (b.data_.take first) b.x_ with
        | mk r d =>
          rw [hrun] at hall
          cases hall
          dsimp only
          rw [if_neg (Nat.lt_irrefl _)]
      · rfl
    simp only [Option.map_some, flush, if_pos hfirst]
    cases hrun : flushBytes first b with
    | mk r b₁ =>
      rw [hrun] at hok hdata hevents
      cases hok
      dsimp only at hdata hevents ⊢
      refine ⟨by rw [hdata], ?_, by rw [hdata]⟩
      intro i
      rw [hevents]
      exact htakes i

/-- A byte is put then. -/
theorem put8_ok {s : Ostream IoOBuf} (x : UInt8) (h : s.Valid faithful)
    (htakes : s.obuf_.TakesAll) (hsize : 0 < s.obuf_.data_.length) :
    (Ostream.put8 obuf x s).1 = .ok () ∧ (Ostream.put8 obuf x s).2.obuf_.TakesAll ∧
      0 < (Ostream.put8 obuf x s).2.obuf_.data_.length := by
  have hstore : ∀ s : Ostream IoOBuf, (s.store obuf x).obuf_.x_ = s.obuf_.x_ ∧
      (s.store obuf x).obuf_.data_.length = s.obuf_.data_.length := by
    intro s
    rw [Ostream.store]
    split
    · exact ⟨rfl, rfl⟩
    · exact ⟨rfl, List.length_set ..⟩
  obtain ⟨hok, htakes', hlength⟩ := flush_takesAll htakes h
  rw [Ostream.put8]
  split_ifs with hfull
  · rw [show obuf.flush = flush from rfl]
    cases hrun : flush (s.data_.map Prod.fst) s.obuf_ with
    | mk r b =>
      rw [hrun] at hok htakes' hlength
      cases hok
      dsimp only at htakes' hlength ⊢
      rw [if_neg (by simp [Ostream.full]; omega)]
      obtain ⟨hx, hdata⟩ := hstore ⟨b, some (0, s.obuf_.data_.length)⟩
      refine ⟨rfl, ?_, ?_⟩
      · intro i
        rw [hx]
        exact htakes' i
      · rw [hdata]
        exact hlength ▸ hsize
  · obtain ⟨hx, hdata⟩ := hstore s
    refine ⟨rfl, ?_, hdata ▸ hsize⟩
    intro i
    rw [hx]
    exact htakes i

/-- So are all of them. -/
theorem put_ok (bs : List UInt8) {s : Ostream IoOBuf} (h : s.Valid faithful)
    (htakes : s.obuf_.TakesAll) (hsize : 0 < s.obuf_.data_.length) :
    (Ostream.put obuf bs s).1 = .ok () ∧ (Ostream.put obuf bs s).2.obuf_.TakesAll := by
  induction bs generalizing s with
  | nil => exact ⟨rfl, htakes⟩
  | cons b rest ih =>
    obtain ⟨hok, htakes', hsize'⟩ := put8_ok b h htakes hsize
    rw [Ostream.put, Call.andThen]
    cases hput : Ostream.put8 obuf b s with
    | mk r s' =>
      rw [hput] at hok htakes' hsize'
      cases hok
      exact ih (Ostream.put8_spec h hput).1 htakes' hsize'

end IoOBuf

end Urnest.Net
