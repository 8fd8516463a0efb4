import Urnest.Net.Istream

/-!
# Streams carry bytes

What has been put into an `ostream` is what the buffer behind it delivers, and an `istream` over
it gives back the items that were put. This takes sums that evaluate their left operand first, and
a destination that does not take a part of what it is offered (`carry`).

`OStream::write` offers the first bytes of the buffer again after a short write, within one call
and from one call to the next. A destination that takes one byte of two receives it twice, and a
compiler that reads the right operand first swaps the bytes (`received_twice`).
-/

namespace Urnest.Net

open Lib Xju Ostream

/-- An `istream` over any `IBuf` that hands over the bytes gives back the items. -/
def GivesBack (order : Nat → Order) (items : List Item) (bytes : List UInt8) : Prop :=
  ∀ (τ : Type) (I : IBuf τ) (b : τ), I.HandsOver b bytes →
    (Istream.gets I order items (Istream.make b)).1 = .ok items

/-- The bytes of some items -/
def bytesOf (items : List Item) : List UInt8 := items.flatMap Item.toBytes

theorem givesBack_bytesOf {order : Nat → Order} (horder : ∀ n, order n = .leftFirst)
    (items : List Item) : GivesBack order items (bytesOf items) := by
  intro τ I b hover
  have hholds : Istream.Holds I (Istream.make b) (bytesOf items ++ []) := by
    rw [List.append_nil]
    exact Istream.holds_make hover
  obtain ⟨s, hrun, -⟩ := Istream.reads_gets horder items (Istream.make b) [] hholds
  rw [hrun]

theorem MemOBuf.valid_make (inc max : Nat) :
    (Ostream.make (MemOBuf.make inc max)).Valid MemOBuf.faithful :=
  le_rfl

theorem IoOBuf.valid_make (name : String) {d : Destination} (h : d.AllOrNothing) (size : Nat) :
    (Ostream.make (IoOBuf.make name d size)).Valid IoOBuf.faithful :=
  ⟨h, fun _ _ h => nomatch h⟩

/-- Calls that return have put all the bytes. -/
theorem puts_spec {σ : Type} {B : OBuf σ} {F : B.Faithful} {items : List Item} {s s' : Ostream σ}
    (h : s.Valid F) (hrun : puts B items s = (.ok (), s')) :
    s'.Valid F ∧ s'.held F = s.held F ++ bytesOf items := by
  rw [puts_eq] at hrun
  have hput := put_spec (bytesOf items) h
  have hstored : stored B (bytesOf items) s = bytesOf items := by
    apply stored_of_ok
    rw [bytesOf, hrun]
  rwa [hstored, show put B (bytesOf items) s = (.ok (), s') from hrun] at hput

/-- Items are put into memory, and the destructor delivers them. -/
theorem MemOBuf.puts_ok {inc max : Nat} (hinc : 0 < inc) {items : List Item}
    (hmax : (bytesOf items).length ≤ max) :
    ∃ s b, puts obuf items (Ostream.make (make inc max)) = (.ok (), s) ∧
      destroy obuf s = (.ok (), b) ∧ b.data = bytesOf items := by
  have hvalid := valid_make inc max
  obtain ⟨hok, -⟩ := MemOBuf.put_ok (bytesOf items) hvalid hinc (by
    rw [show (Ostream.make (make inc max)).held faithful = [] from rfl, List.length_nil,
      Nat.zero_add]
    exact hmax)
  cases hrun : put obuf (bytesOf items) (Ostream.make (make inc max)) with
  | mk r s =>
    rw [hrun] at hok
    cases hok
    have hputs : puts obuf items (Ostream.make (make inc max)) = (.ok (), s) := by
      rw [puts_eq]
      exact hrun
    obtain ⟨hvalid', hheld⟩ := puts_spec hvalid hputs
    have hdestroy : (destroy obuf s).1 = .ok () := by
      rw [destroy, show obuf.flush = flush from rfl, flush_eq hvalid']
    refine ⟨s, (destroy obuf s).2, hputs, by rw [← hdestroy], ?_⟩
    exact ((destroy_spec hvalid').2 hdestroy).trans hheld

/-- They are put into the buffer of a destination that takes everything, and delivered. -/
theorem IoOBuf.puts_ok {name : String} {d : Destination} (htakes : ∀ i, d.events i = .takesAll)
    {size : Nat} (hsize : 0 < size) (items : List Item) :
    ∃ s b, puts obuf items (Ostream.make (make name d size)) = (.ok (), s) ∧
      destroy obuf s = (.ok (), b) := by
  have hall : (make name d size).TakesAll := htakes
  have hvalid := valid_make name (show d.AllOrNothing from hall.allOrNothing) size
  obtain ⟨hok, htakes'⟩ := IoOBuf.put_ok (bytesOf items) hvalid hall (by
    simpa [Ostream.make, make] using hsize)
  cases hrun : put obuf (bytesOf items) (Ostream.make (make name d size)) with
  | mk r s =>
    rw [hrun] at hok htakes'
    cases hok
    have hputs : puts obuf items (Ostream.make (make name d size)) = (.ok (), s) := by
      rw [puts_eq]
      exact hrun
    obtain ⟨hvalid', -⟩ := puts_spec hvalid hputs
    have hdestroy : (destroy obuf s).1 = .ok () := by
      obtain ⟨hflush, -⟩ := flush_takesAll htakes' hvalid'
      rw [destroy, show obuf.flush = flush from rfl]
      cases hrun' : flush (s.data_.map Prod.fst) s.obuf_ with
      | mk r b =>
        rw [hrun'] at hflush
        cases hflush
        rfl
    exact ⟨s, (destroy obuf s).2, hputs, by rw [← hdestroy]⟩

/-- The streams carry bytes exactly, where sums evaluate their left operand first and the
destination takes all or none of what it is offered: through memory; through a buffer, when
everything is written; and up to any moment, whatever has failed before. -/
theorem carry (items : List Item) {order : Nat → Order} (horder : ∀ n, order n = .leftFirst) :
    (∀ inc max, 0 < inc → (bytesOf items).length ≤ max →
      ∃ s b, puts MemOBuf.obuf items (Ostream.make (MemOBuf.make inc max)) = (.ok (), s) ∧
        destroy MemOBuf.obuf s = (.ok (), b) ∧ b.data = bytesOf items ∧
          GivesBack order items b.data) ∧
    (∀ name d size, 0 < size → (∀ i, d.events i = .takesAll) →
      ∃ s b, puts IoOBuf.obuf items (Ostream.make (IoOBuf.make name d size)) = (.ok (), s) ∧
        destroy IoOBuf.obuf s = (.ok (), b)) ∧
    (∀ name d size s b, d.received = [] → d.AllOrNothing →
      puts IoOBuf.obuf items (Ostream.make (IoOBuf.make name d size)) = (.ok (), s) →
      destroy IoOBuf.obuf s = (.ok (), b) →
        b.x_.received = bytesOf items ∧ GivesBack order items b.x_.received) ∧
    (∀ name d size, d.received = [] → d.AllOrNothing →
      let (bytes, s) := attempts IoOBuf.obuf items (Ostream.make (IoOBuf.make name d size))
      let (r, b) := destroy IoOBuf.obuf s
      s.obuf_.x_.received <+: bytes ∧ b.x_.received <+: bytes ∧
        (r = .ok () → b.x_.received = bytes)) := by
  have hgives := givesBack_bytesOf horder items
  refine ⟨?_, ?_, ?_, ?_⟩
  · intro inc max hinc hmax
    obtain ⟨s, b, hputs, hdestroy, hdata⟩ := MemOBuf.puts_ok hinc hmax
    exact ⟨s, b, hputs, hdestroy, hdata, hdata ▸ hgives⟩
  · intro name d size hsize htakes
    exact IoOBuf.puts_ok htakes hsize items
  · intro name d size s b hempty hall hputs hdestroy
    obtain ⟨hvalid, hheld⟩ := puts_spec (IoOBuf.valid_make name hall size) hputs
    have hreceived := (destroy_spec hvalid).2 (by rw [hdestroy])
    rw [hdestroy, hheld] at hreceived
    have hbytes : b.x_.received = bytesOf items := by
      refine hreceived.trans ?_
      rw [show (Ostream.make (IoOBuf.make name d size)).held IoOBuf.faithful = d.received from rfl,
        hempty, List.nil_append]
    exact ⟨hbytes, hbytes ▸ hgives⟩
  · intro name d size hempty hall
    obtain ⟨hvalid, hheld⟩ := held_attempts items (IoOBuf.valid_make name hall size)
    rw [show (Ostream.make (IoOBuf.make name d size)).held IoOBuf.faithful = d.received from rfl,
      hempty, List.nil_append] at hheld
    obtain ⟨hreached, hdelivered⟩ := destroy_spec hvalid
    rw [hheld] at hreached hdelivered
    exact ⟨hheld ▸ IoOBuf.faithful.delivered_prefix hvalid, hreached, hdelivered⟩

/-- The items of a message, over memory that grows a byte at a time -/
theorem carry_message :
    ∃ s b, puts MemOBuf.obuf [.u16 258, .bytes [3], .u32 67438087]
        (Ostream.make (MemOBuf.make 1 7)) = (.ok (), s) ∧
      destroy MemOBuf.obuf s = (.ok (), b) ∧ b.data = [1, 2, 3, 4, 5, 6, 7] := by
  obtain ⟨s, b, hputs, hdestroy, hdata, -⟩ :=
    (@carry [.u16 258, .bytes [3], .u32 67438087] (fun _ => .leftFirst)
      fun _ => rfl).1 1 7 (by decide) (by decide)
  exact ⟨s, b, hputs, hdestroy, hdata⟩

/-- A destination that takes one byte first, and everything from then on -/
def slow : Destination := ⟨[], fun i => if i = 0 then .takes 1 else .takesAll, 0⟩

/-- One that takes a byte, nothing before the deadline, and everything from then on -/
def late : Destination :=
  ⟨[], fun i => if i = 0 then .takes 1 else if i = 1 then .deadline else .takesAll, 0⟩

/-- An `IBuf` over one chunk of bytes -/
def chunk : IBuf (List UInt8) := ⟨fun bytes => (.ok bytes, [])⟩

/-- A byte is received twice, after a short write within one call and after one that ends at the
deadline, and bytes are swapped where right operands are read first. -/
theorem received_twice :
    (∃ s, attempts IoOBuf.obuf [.bytes [1, 2], .u8 3] (Ostream.make (IoOBuf.make "s" slow 2))
        = ([1, 2, 3], s) ∧ s.obuf_.x_.received = [1, 1]) ∧
    (∃ s, attempts IoOBuf.obuf [.bytes [1, 2], .u8 3, .u8 3]
        (Ostream.make (IoOBuf.make "s" late 2))
        = ([1, 2, 3], s) ∧ s.obuf_.x_.received = [1, 1, 2]) ∧
    chunk.HandsOver [1, 2] (Item.u16 258).toBytes ∧
    (Istream.get16 chunk (fun _ => .rightFirst) (Istream.make [1, 2])).1 = .ok 513 := by
  refine ⟨⟨_, rfl, by decide⟩, ⟨_, rfl, by decide⟩, ?_, by decide⟩
  exact @IBuf.HandsOver.chunk _ chunk [1, 2] [] [1, 2] [] rfl (by decide) (.nothing [])

end Urnest.Net
