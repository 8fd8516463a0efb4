import Mathlib.Data.List.Basic

/-!
# Lines

The lines of a text end with a separator, except that the last need not (`lines`). Who reads
the text in parts has the lines that a part ends, and what there is of the next line when it
comes to the end of the part; `linesFrom` has a line begun like this.
-/

namespace Lib

variable {α : Type}

/-- The parts of a text, of one size but for the last; no more of them than `fuel`. -/
def parts (size : Nat) : Nat → List α → List (List α)
  | 0, _ => []
  | fuel + 1, text =>
    if text.isEmpty then [] else text.take size :: parts size fuel (text.drop size)

theorem flatten_parts {size : Nat} (hsize : 0 < size) {fuel : Nat} {text : List α}
    (hfuel : text.length ≤ fuel) : (parts size fuel text).flatten = text := by
  induction fuel generalizing text with
  | zero =>
    obtain rfl := List.eq_nil_of_length_eq_zero (Nat.le_zero.mp hfuel)
    rfl
  | succ fuel ih =>
    rw [parts]
    split_ifs with hempty
    · rw [List.isEmpty_iff.mp hempty]
      rfl
    · have hdrop : (text.drop size).length ≤ fuel := by
        rw [List.length_drop]
        omega
      rw [List.flatten_cons, ih hdrop, List.take_append_drop]

variable [DecidableEq α] {sep : α}

/-- The lines of a text, the first of which has been begun. -/
def linesFrom (sep : α) (line : List α) : List α → List (List α)
  | [] => if line.isEmpty then [] else [line]
  | a :: text =>
    if a = sep then (line ++ [a]) :: linesFrom sep [] text else linesFrom sep (line ++ [a]) text

def lines (sep : α) (text : List α) : List (List α) := linesFrom sep [] text

theorem linesFrom_line (line : List α) {body : List α} (hbody : sep ∉ body) (text : List α) :
    linesFrom sep line (body ++ sep :: text)
      = (line ++ body ++ [sep]) :: linesFrom sep [] text := by
  induction body generalizing line with
  | nil => simp [linesFrom]
  | cons a body ih =>
    rw [List.mem_cons, not_or] at hbody
    rw [List.cons_append, linesFrom, if_neg (Ne.symm hbody.1), ih _ hbody.2]
    simp

/-! ## What lines are -/

/-- Nothing of the text is lost between its lines. -/
@[simp] theorem flatten_linesFrom (line text : List α) :
    (linesFrom sep line text).flatten = line ++ text := by
  induction text generalizing line with
  | nil =>
    rw [linesFrom]
    split_ifs with hempty
    · simp [List.isEmpty_iff.mp hempty]
    · simp
  | cons a text ih =>
    rw [linesFrom]
    split_ifs <;> simp [ih]

theorem ne_nil_of_mem_linesFrom {line text l : List α} (hl : l ∈ linesFrom sep line text) :
    l ≠ [] := by
  induction text generalizing line with
  | nil =>
    rw [linesFrom] at hl
    split_ifs at hl with hempty
    · exact absurd hl List.not_mem_nil
    · obtain rfl := List.mem_singleton.mp hl
      exact fun h => hempty (List.isEmpty_iff.mpr h)
  | cons a text ih =>
    rw [linesFrom] at hl
    split_ifs at hl
    · obtain rfl | hl := List.mem_cons.mp hl
      · simp
      · exact ih hl
    · exact ih hl

/-- A separator stands nowhere but at the end of a line. -/
theorem sep_not_mem_of_mem_linesFrom {line text l : List α} (hline : sep ∉ line)
    (hl : l ∈ linesFrom sep line text) : sep ∉ l.dropLast := by
  induction text generalizing line with
  | nil =>
    rw [linesFrom] at hl
    split_ifs at hl
    · exact absurd hl List.not_mem_nil
    · obtain rfl := List.mem_singleton.mp hl
      exact fun h => hline ((List.dropLast_sublist _).mem h)
  | cons a text ih =>
    rw [linesFrom] at hl
    split_ifs at hl with ha
    · obtain rfl | hl := List.mem_cons.mp hl
      · rwa [List.dropLast_concat]
      · exact ih List.not_mem_nil hl
    · refine ih (fun h => ?_) hl
      obtain h | h := List.mem_append.mp h
      · exact hline h
      · exact ha (List.mem_singleton.mp h).symm

/-- Every line but the last is ended. -/
theorem getLast?_of_mem_dropLast_linesFrom {line text l : List α}
    (hl : l ∈ (linesFrom sep line text).dropLast) : l.getLast? = some sep := by
  induction text generalizing line with
  | nil =>
    rw [linesFrom] at hl
    split_ifs at hl <;> exact absurd hl List.not_mem_nil
  | cons a text ih =>
    rw [linesFrom] at hl
    split_ifs at hl with ha
    · cases hrest : linesFrom sep [] text with
      | nil => simp [hrest] at hl
      | cons l' ls =>
        rw [hrest, List.dropLast_cons_cons] at hl
        obtain rfl | hl := List.mem_cons.mp hl
        · rw [List.getLast?_concat, ha]
        · exact ih (hrest ▸ hl)
    · exact ih hl

/-- Lines put together are the lines of the text they make. -/
theorem lines_flatten {ls : List (List α)}
    (h : ∀ l ∈ ls, ∃ body, sep ∉ body ∧ l = body ++ [sep]) : lines sep ls.flatten = ls := by
  induction ls with
  | nil => rfl
  | cons l ls ih =>
    obtain ⟨⟨body, hbody, rfl⟩, hls⟩ := List.forall_mem_cons.mp h
    rw [List.flatten_cons, List.append_assoc, List.singleton_append, lines,
      linesFrom_line [] hbody, ← lines, ih hls]
    rfl

/-! ## Pieces -/

/-- The lines that the pieces of a part end, and the line that is begun after them. -/
def takeLines (sep : α) : List α → List (List α) → List (List α) × List α
  | line, [] => ([], line)
  | line, [piece] => ([], line ++ piece)
  | line, piece :: pieces =>
    ((line ++ piece ++ [sep]) :: (takeLines sep [] pieces).1, (takeLines sep [] pieces).2)

omit [DecidableEq α] in
theorem takeLines_modifyHead (line : List α) (a : α) {pieces : List (List α)}
    (hne : pieces ≠ []) :
    takeLines sep line (pieces.modifyHead (List.cons a)) = takeLines sep (line ++ [a]) pieces := by
  match pieces, hne with
  | [piece], _ => simp [takeLines]
  | piece :: piece' :: pieces, _ => simp [takeLines]

/-- The pieces of a part have its lines, and the text after it goes on with what is left. -/
theorem linesFrom_append (line text more : List α) : linesFrom sep line (text ++ more)
    = (takeLines sep line (text.splitOn sep)).1
      ++ linesFrom sep (takeLines sep line (text.splitOn sep)).2 more := by
  induction text generalizing line with
  | nil => simp [takeLines]
  | cons a text ih =>
    have hne : text.splitOn sep ≠ [] := List.splitOn_ne_nil _ _
    rw [List.cons_append, linesFrom, List.splitOn_cons_eq_if_modifyHead]
    by_cases hsep : a = sep
    · obtain ⟨piece, pieces, hpieces⟩ := List.exists_cons_of_ne_nil hne
      rw [if_pos hsep, if_pos (by simpa using hsep), ih, hpieces, hsep]
      simp [takeLines]
    · rw [if_neg hsep, if_neg (by simpa using hsep), ih, takeLines_modifyHead _ _ hne]

end Lib
