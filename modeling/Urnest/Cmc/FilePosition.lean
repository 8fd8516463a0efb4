import Urnest.Cmc.TStore

/-!
# Positions of file readers and writers

`FileReader` and `FileWriter` move about in a file through `io.FileIO`, which has the offset. Their
methods are translated over a `RawFile`, and compared with those of an `AbstractFile`: the bytes by
their offsets, and a position that is set, moved, or advanced by what is transferred.

How much the system transfers in one call is up to it: an operation that transfers bytes comes
with the most that are `granted`.
-/

namespace Urnest.Cmc

open Lib Action

/-- Unchecked when it is made -/
abbrev FilePosition := Int

abbrev ByteCount := Int

/-- What the operations of an open file raise. -/
inductive OSError where
  | invalidArgument
  /-- nothing could be written -/
  | noRoom
  deriving DecidableEq, Repr

inductive Whence where
  | seekSet
  | seekCur

/-- An open file. -/
structure RawFile where
  content : List UInt8
  offset : Nat
  /-- the largest offset that the system has -/
  largest : Nat
  content_le : content.length ≤ largest
  offset_le : offset ≤ largest
  deriving DecidableEq

/-! ## `io.FileIO` -/

theorem Files.length_writeAt (old : List UInt8) (position : Nat) {data : List UInt8}
    (h : data ≠ []) :
    (Files.writeAt old position data).length = max old.length (position + data.length) := by
  simp only [Files.writeAt, if_neg h, List.length_append, List.length_take, List.length_replicate,
    List.length_drop]
  omega

namespace RawFile

/-- What `whence` says the offset is from -/
def base (f : RawFile) : Whence → Int
  | .seekSet => 0
  | .seekCur => f.offset

def seek (offset : Int) (whence : Whence) : Action RawFile OSError FilePosition := fun f =>
  if h : 0 ≤ f.base whence + offset ∧ f.base whence + offset ≤ f.largest then
    (.ok (f.base whence + offset),
      { f with offset := (f.base whence + offset).toNat, offset_le := by omega })
  else (.error .invalidArgument, f)

/-- What is there from the offset on, all of it for a negative count -/
def next (f : RawFile) (atMost : Int) (granted : Nat) : List UInt8 :=
  if atMost < 0 then f.content.drop f.offset
  else (f.content.drop f.offset).take (min atMost.toNat granted)

theorem length_next (f : RawFile) (atMost : Int) (granted : Nat) :
    (f.next atMost granted).length =
      if atMost < 0 then f.content.length - f.offset
      else min (min atMost.toNat granted) (f.content.length - f.offset) := by
  rw [next]
  split_ifs
  · rw [List.length_drop]
  · rw [List.length_take, List.length_drop]

def read (atMost : Int) (granted : Nat) : Action RawFile OSError (List UInt8) := fun f =>
  (.ok (f.next atMost granted),
    { f with
      offset := f.offset + (f.next atMost granted).length
      offset_le := by
        have hcontent := f.content_le
        have hoffset := f.offset_le
        rw [length_next]
        split_ifs <;> omega })

/-- What can be written of some bytes -/
def taken (f : RawFile) (data : List UInt8) (granted : Nat) : List UInt8 :=
  data.take (min granted (f.largest - f.offset))

def write (data : List UInt8) (granted : Nat) : Action RawFile OSError Nat := fun f =>
  if f.taken data granted = [] ∧ data ≠ [] then (.error .noRoom, f)
  else
    (.ok (f.taken data granted).length,
      { f with
        content := Files.writeAt f.content f.offset (f.taken data granted)
        offset := f.offset + (f.taken data granted).length
        content_le := by
          by_cases hnil : f.taken data granted = []
          · rw [hnil, Files.writeAt, if_pos rfl]
            exact f.content_le
          · have hoffset := f.offset_le
            rw [Files.length_writeAt _ _ hnil, taken, List.length_take]
            exact max_le f.content_le (by omega)
        offset_le := by
          have hoffset := f.offset_le
          rw [taken, List.length_take]
          omega })

end RawFile

/-! ## Readers and writers -/

/-- What a step answers: the reader or writer, bytes that were read, or how many were written. -/
inductive Answer where
  | self
  | bytes (x : List UInt8)
  | written (n : Nat)
  deriving DecidableEq, Repr

namespace FileReader

def seekTo (position : FilePosition) : Action RawFile OSError Answer := do
  let _ ← RawFile.seek position .seekSet
  pure .self

def seekBy (offset : ByteCount) : Action RawFile OSError Answer := do
  let _ ← RawFile.seek offset .seekCur
  pure .self

def position : Action RawFile OSError FilePosition := RawFile.seek 0 .seekCur

def read (readAtMost : ByteCount) (granted : Nat) : Action RawFile OSError Answer := do
  let x ← RawFile.read readAtMost granted
  pure (.bytes x)

inductive Step where
  | seekTo (position : FilePosition)
  | seekBy (offset : ByteCount)
  | read (readAtMost : ByteCount) (granted : Nat)

def step : Step → Action RawFile OSError Answer
  | .seekTo position => seekTo position
  | .seekBy offset => seekBy offset
  | .read readAtMost granted => read readAtMost granted

end FileReader

namespace FileWriter

def seekTo (position : FilePosition) : Action RawFile OSError Answer := do
  let _ ← RawFile.seek position .seekSet
  pure .self

def seekBy (offset : ByteCount) : Action RawFile OSError Answer := do
  let _ ← RawFile.seek offset .seekSet
  pure .self

def position : Action RawFile OSError FilePosition := RawFile.seek 0 .seekCur

/-- `output.write` -/
def write (data : List UInt8) (granted : Nat) : Action RawFile OSError Answer := do
  let n ← RawFile.write data granted
  pure (.written n)

inductive Step where
  | seekTo (position : FilePosition)
  | seekBy (offset : ByteCount)
  | write (data : List UInt8) (granted : Nat)

def step : Step → Action RawFile OSError Answer
  | .seekTo position => seekTo position
  | .seekBy offset => seekBy offset
  | .write data granted => write data granted

end FileWriter

/-! ## The abstract file -/

/-- The bytes of a file by their offsets, zeros from the end on, and a position. -/
@[ext] structure AbstractFile where
  size : Nat
  byteAt : Nat → UInt8
  position : Nat
  largest : Nat

namespace AbstractFile

def seekTo (position : Int) : Action AbstractFile OSError Answer := fun t =>
  if 0 ≤ position ∧ position ≤ t.largest then (.ok .self, { t with position := position.toNat })
  else (.error .invalidArgument, t)

def seekBy (offset : Int) : Action AbstractFile OSError Answer := fun t =>
  seekTo (t.position + offset) t

/-- How many bytes are read -/
def readable (t : AbstractFile) (atMost : Int) (granted : Nat) : Nat :=
  if atMost < 0 then t.size - t.position
  else min (min atMost.toNat granted) (t.size - t.position)

def read (atMost : Int) (granted : Nat) : Action AbstractFile OSError Answer := fun t =>
  (.ok (.bytes ((List.range (t.readable atMost granted)).map fun i => t.byteAt (t.position + i))),
    { t with position := t.position + t.readable atMost granted })

/-- How many bytes are written -/
def writable (t : AbstractFile) (length granted : Nat) : Nat :=
  min (min granted (t.largest - t.position)) length

/-- The first `n` bytes of `data` are at the position now. -/
def put (t : AbstractFile) (data : List UInt8) (n : Nat) : AbstractFile where
  size := if n = 0 then t.size else max t.size (t.position + n)
  byteAt i := if t.position ≤ i ∧ i < t.position + n then data.getD (i - t.position) 0
    else t.byteAt i
  position := t.position + n
  largest := t.largest

def write (data : List UInt8) (granted : Nat) : Action AbstractFile OSError Answer := fun t =>
  if t.writable data.length granted = 0 ∧ data ≠ [] then (.error .noRoom, t)
  else
    (.ok (.written (t.writable data.length granted)), t.put data (t.writable data.length granted))

/-- What a reader's step should do -/
def readerStep : FileReader.Step → Action AbstractFile OSError Answer
  | .seekTo position => seekTo position
  | .seekBy offset => seekBy offset
  | .read readAtMost granted => read readAtMost granted

/-- What a writer's step should do -/
def writerStep : FileWriter.Step → Action AbstractFile OSError Answer
  | .seekTo position => seekTo position
  | .seekBy offset => seekBy offset
  | .write data granted => write data granted

end AbstractFile

/-- The file as bytes by their offsets -/
def RawFile.view (f : RawFile) : AbstractFile :=
  ⟨f.content.length, fun i => f.content.getD i 0, f.offset, f.largest⟩

/-! ## Each step -/

section

variable (f : RawFile)

/-- A position is reported, as it is. -/
theorem RawFile.seek_zero : RawFile.seek 0 .seekCur f = (.ok (f.offset : Int), f) := by
  have hle := f.offset_le
  have hbase : f.base .seekCur + 0 = f.offset := by rw [RawFile.base, Int.add_zero]
  rw [RawFile.seek, dif_pos (by rw [hbase]; omega)]
  simp only [hbase, Int.toNat_natCast]

theorem getElem_next (atMost : Int) (granted : Nat) : f.next atMost granted =
    (List.range (f.next atMost granted).length).map fun i => f.content.getD (f.offset + i) 0 := by
  refine List.ext_getElem (by simp) fun i hi hi' => ?_
  have hdrop : i < (f.content.drop f.offset).length := by
    rw [RawFile.length_next] at hi
    rw [List.length_drop]
    split_ifs at hi <;> omega
  have hget : (f.next atMost granted)[i] = (f.content.drop f.offset)[i] := by
    simp only [RawFile.next]
    split_ifs
    · rfl
    · exact List.getElem_take
  rw [List.length_drop] at hdrop
  rw [hget, List.getElem_drop, List.getElem_map, List.getElem_range,
    List.getD_eq_getElem?_getD, List.getElem?_eq_getElem (by omega), Option.getD_some]

/-- The bytes that are written, and those that were there; in a gap there are zeros. -/
theorem getD_writeAt (old data : List UInt8) (position i : Nat) :
    (Files.writeAt old position data).getD i 0 =
      if position ≤ i ∧ i < position + data.length then data.getD (i - position) 0
      else old.getD i 0 := by
  rw [Files.writeAt]
  by_cases hnil : data = []
  · rw [if_pos hnil, if_neg]
    rw [hnil, List.length_nil]
    omega
  have hlen : (old.take position ++ List.replicate (position - old.length) 0).length
      = position := by
    rw [List.length_append, List.length_take, List.length_replicate]
    omega
  simp only [if_neg hnil, List.getD_eq_getElem?_getD, List.append_assoc]
  rw [← List.append_assoc]
  by_cases hbefore : i < position
  · rw [List.getElem?_append_left (hlen.symm ▸ hbefore), if_neg (by omega)]
    by_cases hold : i < old.length
    · rw [List.getElem?_append_left (by rw [List.length_take]; omega),
        List.getElem?_take_of_lt hbefore]
    · rw [List.getElem?_append_right (by rw [List.length_take]; omega), List.getElem?_replicate,
        List.getElem?_eq_none (by omega), List.length_take, if_pos (by omega)]
      rfl
  · rw [List.getElem?_append_right (by omega), hlen]
    by_cases hdata : i < position + data.length
    · rw [List.getElem?_append_left (by omega), if_pos ⟨by omega, hdata⟩]
    · rw [List.getElem?_append_right (by omega), List.getElem?_drop, if_neg (by omega)]
      congr 2
      omega

/-- A step is the abstract one, and so is what it leaves. -/
def Refines (x : Action RawFile OSError Answer) (y : Action AbstractFile OSError Answer) : Prop :=
  y f.view = ((x f).1, (x f).2.view)

variable {f}

theorem seek_refines (offset : Int) (whence : Whence) :
    Refines f (RawFile.seek offset whence >>= fun _ => pure .self)
      (AbstractFile.seekTo (f.base whence + offset)) := by
  rw [Refines, AbstractFile.seekTo]
  by_cases h : 0 ≤ f.base whence + offset ∧ f.base whence + offset ≤ f.view.largest
  · have hseek : RawFile.seek offset whence f = _ := dif_pos h
    rw [if_pos h, bind_ok hseek]
    rfl
  · have hseek : RawFile.seek offset whence f = _ := dif_neg h
    rw [if_neg h, bind_error hseek]

theorem seekTo_refines (position : FilePosition) :
    Refines f (FileReader.seekTo position) (AbstractFile.seekTo position) := by
  have h := seek_refines (f := f) position .seekSet
  rwa [RawFile.base, Int.zero_add] at h

theorem seekBy_refines (offset : ByteCount) :
    Refines f (FileReader.seekBy offset) (AbstractFile.seekBy offset) :=
  seek_refines offset .seekCur

theorem read_refines (readAtMost : ByteCount) (granted : Nat) :
    Refines f (FileReader.read readAtMost granted) (AbstractFile.read readAtMost granted) := by
  have hlength : f.view.readable readAtMost granted = (f.next readAtMost granted).length :=
    (f.length_next readAtMost granted).symm
  have hread : FileReader.read readAtMost granted f
      = (.ok (.bytes (f.next readAtMost granted)), (RawFile.read readAtMost granted f).2) := rfl
  rw [Refines, AbstractFile.read, hread, hlength]
  exact congrArg (fun x => (Except.ok (Answer.bytes x), _)) (getElem_next f readAtMost granted).symm

theorem view_put (data : List UInt8) (granted : Nat) :
    f.view.put data (f.taken data granted).length =
      ⟨(Files.writeAt f.content f.offset (f.taken data granted)).length,
        fun i => (Files.writeAt f.content f.offset (f.taken data granted)).getD i 0,
        f.offset + (f.taken data granted).length, f.largest⟩ := by
  refine AbstractFile.ext ?_ (funext fun i => ?_) rfl rfl
  · by_cases hnil : f.taken data granted = []
    · rw [hnil, Files.writeAt, if_pos rfl]
      rfl
    · rw [Files.length_writeAt _ _ hnil]
      exact if_neg (List.length_pos_of_ne_nil hnil).ne'
  · dsimp only
    rw [getD_writeAt]
    by_cases hi : f.offset ≤ i ∧ i < f.offset + (f.taken data granted).length
    · have hlt : i - f.offset < min granted (f.largest - f.offset) := by
        rw [RawFile.taken, List.length_take] at hi
        omega
      have hget : (f.taken data granted).getD (i - f.offset) 0 = data.getD (i - f.offset) 0 := by
        rw [List.getD_eq_getElem?_getD, List.getD_eq_getElem?_getD, RawFile.taken,
          List.getElem?_take_of_lt hlt]
      rw [if_pos hi, hget]
      exact if_pos hi
    · rw [if_neg hi]
      exact if_neg hi

theorem write_refines (data : List UInt8) (granted : Nat) :
    Refines f (FileWriter.write data granted) (AbstractFile.write data granted) := by
  have hlength : f.view.writable data.length granted = (f.taken data granted).length := by
    rw [RawFile.taken, List.length_take]
    rfl
  rw [Refines, AbstractFile.write, FileWriter.write, hlength]
  by_cases h : f.taken data granted = [] ∧ data ≠ []
  · have hwrite : RawFile.write data granted f = _ := if_pos h
    rw [if_pos ⟨List.length_eq_zero_iff.mpr h.1, h.2⟩, bind_error hwrite]
  · have hwrite : RawFile.write data granted f = _ := if_neg h
    rw [if_neg fun hn => h ⟨List.length_eq_zero_iff.mp hn.1, hn.2⟩, bind_ok hwrite, view_put]
    rfl

end

/-! ## Every run -/

/-- What is seen of a step: its answer, the position that is reported, and the file. -/
def observed (position : Action RawFile OSError FilePosition)
    (r : Except OSError Answer × RawFile) :
    Except OSError Answer × Except OSError FilePosition × AbstractFile :=
  (r.1, (position r.2).1, r.2.view)

/-- What should be seen of it -/
def expected (r : Except OSError Answer × AbstractFile) :
    Except OSError Answer × Except OSError FilePosition × AbstractFile :=
  (r.1, .ok (r.2.position : Int), r.2)

/-- `offset` is a position that is not there. -/
def Refused (f : RawFile) (offset : Int) : Prop := ¬ (0 ≤ offset ∧ offset ≤ f.largest)

/-- Whether it counts from the start or from the position, the same happens. -/
def SeeksAlike (f : RawFile) : FileWriter.Step → Prop
  | .seekBy offset => f.offset = 0 ∨ Refused f offset ∧ Refused f (f.offset + offset)
  | _ => True

/-- Each step of a run is one that seeks alike in the state it finds. -/
def AllSeekAlike (f : RawFile) : List FileWriter.Step → Prop
  | [] => True
  | op :: ops => SeeksAlike f op ∧ AllSeekAlike (FileWriter.step op f).2 ops

theorem expected_inj {r r' : Except OSError Answer × AbstractFile} :
    expected r = expected r' ↔ r = r' := by
  refine ⟨fun h => ?_, congrArg expected⟩
  obtain ⟨hanswer, hrest⟩ := Prod.ext_iff.mp h
  exact Prod.ext hanswer (Prod.ext_iff.mp hrest).2

theorem observed_eq (f : RawFile) (answer : Except OSError Answer) :
    observed (RawFile.seek 0 .seekCur) (answer, f) = expected (answer, f.view) := by
  rw [observed, RawFile.seek_zero]
  rfl

theorem reader_refines (f : RawFile) (op : FileReader.Step) :
    Refines f (FileReader.step op) (AbstractFile.readerStep op) := by
  cases op with
  | seekTo position => exact seekTo_refines position
  | seekBy offset => exact seekBy_refines offset
  | read readAtMost granted => exact read_refines readAtMost granted

/-- Two positions to go to are the same, or neither is there. -/
theorem AbstractFile.seekTo_eq_iff (t : AbstractFile) (p q : Int) : seekTo p t = seekTo q t ↔
    p = q ∨ ¬ (0 ≤ p ∧ p ≤ t.largest) ∧ ¬ (0 ≤ q ∧ q ≤ t.largest) := by
  rw [seekTo, seekTo]
  by_cases hp : 0 ≤ p ∧ p ≤ t.largest
  · by_cases hq : 0 ≤ q ∧ q ≤ t.largest
    · rw [if_pos hp, if_pos hq]
      refine ⟨fun h => .inl ?_, ?_⟩
      · have hto : p.toNat = q.toNat := congrArg (fun r => r.2.position) h
        omega
      · rintro (rfl | h)
        · rfl
        · exact absurd hp h.1
    · rw [if_pos hp, if_neg hq]
      refine iff_of_false (fun h => nomatch congrArg Prod.fst h) ?_
      rintro (rfl | h)
      · exact hq hp
      · exact h.1 hp
  · by_cases hq : 0 ≤ q ∧ q ≤ t.largest
    · rw [if_neg hp, if_pos hq]
      refine iff_of_false (fun h => nomatch congrArg Prod.fst h) ?_
      rintro (rfl | h)
      · exact hp hq
      · exact h.2 hq
    · rw [if_neg hp, if_neg hq]
      exact iff_of_true rfl (.inr ⟨hp, hq⟩)

theorem writer_refines_iff (f : RawFile) (op : FileWriter.Step) :
    Refines f (FileWriter.step op) (AbstractFile.writerStep op) ↔ SeeksAlike f op := by
  cases op with
  | seekTo position => exact iff_of_true (seekTo_refines position) trivial
  | write data granted => exact iff_of_true (write_refines data granted) trivial
  | seekBy offset =>
    have hset : AbstractFile.seekTo offset f.view = _ := seekTo_refines (f := f) offset
    have hsteps :
        Refines f (FileWriter.step (.seekBy offset)) (AbstractFile.writerStep (.seekBy offset)) ↔
          AbstractFile.seekTo offset f.view = AbstractFile.seekTo (f.offset + offset) f.view := by
      rw [hset]
      exact eq_comm
    rw [hsteps, AbstractFile.seekTo_eq_iff]
    refine or_congr ?_ Iff.rfl
    omega

/-- The steps of a reader have the answers, leave the positions and read the bytes of the abstract
file, and those of a writer do where the ways to seek are alike. -/
theorem positions_as_documented (f : RawFile) :
    (∀ ops, (history FileReader.step f ops).map (observed FileReader.position)
      = (history AbstractFile.readerStep f.view ops).map expected) ∧
    ∀ ops, (history FileWriter.step f ops).map (observed FileWriter.position)
      = (history AbstractFile.writerStep f.view ops).map expected ↔ AllSeekAlike f ops := by
  constructor
  · intro ops
    rw [history_view reader_refines, List.map_map]
    exact List.map_congr_left fun r _ => observed_eq r.2 r.1
  · intro ops
    induction ops generalizing f with
    | nil => exact iff_of_true rfl trivial
    | cons op ops ih =>
      rw [AllSeekAlike, history, history, List.map_cons, List.map_cons, List.cons.injEq,
        ← writer_refines_iff]
      have hhead : observed FileWriter.position (FileWriter.step op f)
          = expected (AbstractFile.writerStep op f.view) ↔
            Refines f (FileWriter.step op) (AbstractFile.writerStep op) := by
        rw [Refines, FileWriter.position, observed_eq, expected_inj]
        exact eq_comm
      rw [hhead]
      refine and_congr_right fun h => ?_
      rw [h]
      exact ih _

/-! ## A writer that seeks by an offset -/

/-- A file of four bytes, two into it -/
def fourBytes : RawFile := ⟨[1, 2, 3, 4], 2, 9223372036854775807, by decide, by decide⟩

theorem not_positions_as_documented :
    ¬ ∀ (f : RawFile) (ops : List FileWriter.Step),
      (history FileWriter.step f ops).map (observed FileWriter.position)
        = (history AbstractFile.writerStep f.view ops).map expected := by
  intro h
  have hstep := h fourBytes [.seekBy 1]
  have hposition := congrArg (fun rs => rs.map fun r => r.2.2.position) hstep
  revert hposition
  decide

end Urnest.Cmc
