import Urnest.Cmc.Records

/-!
# Chunks

`read_lines` asks its reader for at most 1024 bytes at a time, and is given as many as the
reader likes, up to the first read that gives none. Wherever the reader cuts the content, the
lines are those of the content (`readLinesWith_eq`), and the loop ends with the reader.
-/

namespace Urnest.Cmc

open Lib

variable {σ : Type} (read : Nat → σ → List UInt8 × σ)

/-- The loop of `read_lines`: what it yields, and the reader after it. -/
def readLinesLoop : Nat → List UInt8 → List UInt8 → σ → Option (List (List UInt8) × σ)
  | 0, _, _, _ => none
  | fuel + 1, buffered, next, r =>
    if next.length = 0 then
      some (if buffered.length = 0 then [] else [buffered], r)
    else
      let (recs, buffered) := takeLines PerfLog.newline buffered (next.splitOn PerfLog.newline)
      let (next, r) := read 1024 r
      (readLinesLoop fuel buffered next r).map fun (yielded, r) => (recs ++ yielded, r)

/-- `read_lines`, of a reader that may cut its content anywhere -/
def readLinesWith (fuel : Nat) (r : σ) : Option (List (List UInt8) × σ) :=
  let (next, r) := read 1024 r
  readLinesLoop read fuel [] next r

/-- The chunks that a reader gives one after the other, and the reader once there are no more. -/
inductive Gives : σ → List (List UInt8) → σ → Prop
  | ended {r r' : σ} (hread : read 1024 r = ([], r')) : Gives r [] r'
  | chunk {r r' r'' : σ} {chunk : List UInt8} {chunks : List (List UInt8)} (hne : chunk ≠ [])
    (hread : read 1024 r = (chunk, r')) (hrest : Gives r' chunks r'') :
    Gives r (chunk :: chunks) r''

variable {read}

/-- One more read in each turn of the loop, until there is nothing left. -/
theorem readLinesLoop_eq {r r' : σ} {chunks : List (List UInt8)} (h : Gives read r chunks r')
    (buffered : List UInt8) {fuel : Nat} (hfuel : chunks.length < fuel) :
    readLinesLoop read fuel buffered (read 1024 r).1 (read 1024 r).2
      = some (readLinesFrom buffered chunks, r') := by
  induction h generalizing buffered fuel with
  | ended hread =>
    obtain ⟨fuel, rfl⟩ := Nat.exists_eq_succ_of_ne_zero (Nat.ne_zero_of_lt hfuel)
    simp [hread, readLinesLoop, readLinesFrom, List.isEmpty_iff]
  | @chunk r r' r'' next chunks hne hread hrest ih =>
    obtain ⟨fuel, rfl⟩ := Nat.exists_eq_succ_of_ne_zero (Nat.ne_zero_of_lt hfuel)
    have hlen : ¬ next.length = 0 := fun h => hne (List.eq_nil_of_length_eq_zero h)
    rw [hread, readLinesLoop, if_neg hlen]
    dsimp only
    rw [ih _ (Nat.lt_of_succ_lt_succ hfuel), readLinesFrom]
    rfl

/-- Where the reader cuts its content does not matter. -/
theorem readLinesWith_eq {r r' : σ} {chunks : List (List UInt8)} (h : Gives read r chunks r')
    {fuel : Nat} (hfuel : chunks.length < fuel) :
    readLinesWith read fuel r = some (lines PerfLog.newline chunks.flatten, r') := by
  have hloop := readLinesLoop_eq h [] hfuel
  rw [readLinesFrom_eq, ← lines] at hloop
  exact hloop

/-- However the content is cut into chunks, the loop ends, and what it has yielded are the lines of
the content: all of it in order, no line of it empty, each but the last ended by its only
newline. -/
theorem readLinesWith_lines {r r' : σ} {chunks : List (List UInt8)} {content : List UInt8}
    (h : Gives read r chunks r') (hcontent : chunks.flatten = content) :
    ∃ ls, (∃ N, ∀ fuel ≥ N, readLinesWith read fuel r = some (ls, r'))
      ∧ ls = lines PerfLog.newline content
      ∧ ls.flatten = content
      ∧ (∀ l ∈ ls, l ≠ [] ∧ PerfLog.newline ∉ l.dropLast)
      ∧ ∀ l ∈ ls.dropLast, l.getLast? = some PerfLog.newline := by
  subst hcontent
  refine ⟨lines PerfLog.newline chunks.flatten, ⟨chunks.length + 1, fun fuel hfuel => ?_⟩, rfl,
    flatten_linesFrom [] _, fun l hl => ⟨?_, ?_⟩, fun l hl => ?_⟩
  · exact readLinesWith_eq h hfuel
  · exact ne_nil_of_mem_linesFrom hl
  · exact sep_not_mem_of_mem_linesFrom List.not_mem_nil hl
  · exact getLast?_of_mem_dropLast_linesFrom hl

/-- A line in two chunks, and a rest that is not ended. -/
theorem readLinesWith_lines_two_chunks :
    ∃ ls, (∃ N, ∀ fuel ≥ N, readLinesWith (fun _ (r : List (List UInt8)) => (r.headD [], r.tail))
        fuel [[97], [10, 98]] = some (ls, []))
      ∧ ls = lines PerfLog.newline [97, 10, 98]
      ∧ ls.flatten = [97, 10, 98]
      ∧ (∀ l ∈ ls, l ≠ [] ∧ PerfLog.newline ∉ l.dropLast)
      ∧ ∀ l ∈ ls.dropLast, l.getLast? = some PerfLog.newline :=
  readLinesWith_lines (.chunk (List.cons_ne_nil _ _) rfl
    (.chunk (List.cons_ne_nil _ _) rfl (.ended rfl))) rfl

end Urnest.Cmc
