import Mathlib.Data.List.Basic
import Mathlib.Data.List.Infix

/-!
# Reading through a terminator

readThrough.hcp takes characters from a stream until the terminator has been read, and has
one counter for how much of the terminator the last characters were. On a character that does
not go on with it, it starts again with this character.

What is returned ends with the terminator. That it is the shortest beginning of the stream
that does so, for every stream, is the case just for those terminators that lose nothing by
starting again (`readsThrough_iff`): where a beginning of the terminator ends with a shorter
one, both have to go on with the same character.
-/

namespace Urnest.Xju

variable {α : Type}

/-! ## The code -/

inductive ReadException where
  /-- what the stream throws, with its exceptions on -/
  | endOfFile
  /-- so many chars read without seeing the terminator -/
  | notSeen (max : Nat)
  deriving DecidableEq, Repr

section Code

variable [DecidableEq α] (term : List α)

/-- What the counter, `m - term.begin()`, is behind a character -/
def restart (m : Nat) (c : α) : Nat :=
  if term[m]? = some c then m + 1
  else if term[0]? = some c then 1
  else 0

/-- The loop: what else is read, and what is left of the stream -/
def readFrom (max m size : Nat) (s : List α) : Except ReadException (List α × List α) :=
  if m = term.length then .ok ([], s)
  else if size < max then
    match s with
    | [] => .error .endOfFile
    | c :: s =>
      match readFrom max (restart term m c) (size + 1) s with
      | .ok (result, left) => .ok (c :: result, left)
      | .error e => .error e
  else .error (.notSeen max)

def readThrough (max : Nat) (s : List α) : Except ReadException (List α × List α) :=
  readFrom term max 0 0 s

end Code

/-! ## What is asked of it -/

section First

variable (term : List α)

/-- `r` is the shortest beginning of the stream that ends with the terminator. -/
structure First (s r left : List α) : Prop where
  reads : s = r ++ left
  ends : term <:+ r
  shortest : ∀ q, q <+: r → term <:+ q → q = r

/-- Where a beginning of the terminator, of `m` characters, ends with a shorter one, of `k`,
both go on with the same character. -/
def KeepsMatches : Prop :=
  ∀ m k, 1 ≤ k → k < m → m < term.length → term.take k <:+ term.take m → term[k]? = term[m]?

variable {term}

theorem exists_first {s r left : List α} (hreads : s = r ++ left) (hends : term <:+ r) :
    ∃ r' left', First term s r' left' ∧ r'.length ≤ r.length := by
  induction hlength : r.length using Nat.strong_induction_on generalizing r left with
  | _ n ih =>
    by_cases hshortest : ∀ q, q <+: r → term <:+ q → q = r
    · exact ⟨r, left, ⟨hreads, hends, hshortest⟩, Nat.le_of_eq hlength⟩
    · push Not at hshortest
      obtain ⟨q, hq, hqends, hne⟩ := hshortest
      obtain ⟨rest, rfl⟩ := hq
      have hrest : 0 < rest.length :=
        List.length_pos_iff.mpr fun h => hne (by rw [h, List.append_nil])
      rw [List.length_append] at hlength
      obtain ⟨r', left', hfirst, hle⟩ := ih q.length (by omega)
        (hreads.trans (List.append_assoc ..)) hqends rfl
      exact ⟨r', left', hfirst, by omega⟩

end First

variable [DecidableEq α] (term : List α)

/-- Through the first terminator when that is not too far, and otherwise it throws. -/
def ReadsThrough (max : Nat) (s : List α) : Prop :=
  (∀ r left, First term s r left → r.length ≤ max → readThrough term max s = .ok (r, left)) ∧
  ((∀ r left, s = r ++ left → term <:+ r → max < r.length) →
    ∃ e, readThrough term max s = .error e)

/-! ## The counter -/

/-- The counter behind some characters -/
def counter (m : Nat) (xs : List α) : Nat := xs.foldl (restart term) m

variable {term}

theorem counter_append (m : Nat) (xs ys : List α) :
    counter term m (xs ++ ys) = counter term (counter term m xs) ys := List.foldl_append

theorem counter_concat (m : Nat) (xs : List α) (c : α) :
    counter term m (xs ++ [c]) = restart term (counter term m xs) c := counter_append m xs [c]

theorem restart_le_length (m : Nat) (c : α) : restart term m c ≤ term.length := by
  rw [restart]
  split_ifs with hgoes hstarts
  · exact (List.getElem?_eq_some_iff.mp hgoes).1
  · exact (List.getElem?_eq_some_iff.mp hstarts).1
  · exact Nat.zero_le _

theorem counter_le_length (xs : List α) : counter term 0 xs ≤ term.length := by
  induction xs using List.reverseRecOn with
  | nil => exact Nat.zero_le _
  | append_singleton xs c _ =>
    rw [counter_concat]
    exact restart_le_length _ c

/-- It goes up by one at most. -/
theorem counter_le (m : Nat) (xs : List α) : counter term m xs ≤ m + xs.length := by
  induction xs using List.reverseRecOn with
  | nil => exact Nat.le_refl _
  | append_singleton xs c ih =>
    rw [counter_concat, restart, List.length_append, List.length_singleton]
    split_ifs <;> omega

omit [DecidableEq α] in
theorem take_succ_of_getElem? {m : Nat} {c : α} (h : term[m]? = some c) :
    term.take (m + 1) = term.take m ++ [c] := by
  rw [List.take_add_one, h]
  rfl

/-- The last characters are as much of the terminator as it says. -/
theorem take_counter_suffix (xs : List α) : term.take (counter term 0 xs) <:+ xs := by
  induction xs using List.reverseRecOn with
  | nil => exact List.suffix_refl _
  | append_singleton xs c ih =>
    rw [counter_concat, restart]
    split_ifs with hgoes hstarts
    · rw [take_succ_of_getElem? hgoes]
      obtain ⟨front, hfront⟩ := ih
      exact ⟨front, by rw [← List.append_assoc, hfront]⟩
    · rw [take_succ_of_getElem? hstarts]
      exact List.suffix_append xs [c]
    · exact List.nil_suffix

theorem counter_take {k : Nat} (hk : k ≤ term.length) : counter term 0 (term.take k) = k := by
  induction k with
  | zero => rfl
  | succ k ih =>
    have hget : term[k]? = some term[k] := List.getElem?_eq_getElem hk
    rw [take_succ_of_getElem? hget, counter_concat, ih (by omega), restart, if_pos hget]

/-- Where nothing is lost by starting again, no longer beginning of the terminator is there. -/
theorem le_counter (hkeeps : KeepsMatches term) {xs : List α}
    (hbefore : ∀ q, q <+: xs → q ≠ xs → counter term 0 q ≠ term.length) {k : Nat}
    (hk : k ≤ term.length) (hsuffix : term.take k <:+ xs) : k ≤ counter term 0 xs := by
  induction xs using List.reverseRecOn generalizing k with
  | nil =>
    have hlength := hsuffix.length_le
    rw [List.length_take, Nat.min_eq_left hk] at hlength
    exact hlength
  | append_singleton xs c ih =>
    cases k with
    | zero => exact Nat.zero_le _
    | succ k =>
      have hget : term[k]? = some term[k] := List.getElem?_eq_getElem hk
      rw [take_succ_of_getElem? hget] at hsuffix
      obtain ⟨front, hfront⟩ := hsuffix
      rw [← List.append_assoc] at hfront
      obtain ⟨hxs, hlast⟩ := List.append_inj' hfront rfl
      obtain rfl := List.singleton_inj.mp hlast
      have hshorter : term.take k <:+ xs := ⟨front, hxs⟩
      have hle := ih (fun q hq hne => hbefore q (hq.trans (List.prefix_append ..)) fun h => by
        have := hq.length_le
        rw [h, List.length_append, List.length_singleton] at this
        omega) (by omega) hshorter
      have hne : xs ≠ xs ++ [term[k]] := fun h => by
        have := congrArg List.length h
        rw [List.length_append, List.length_singleton] at this
        omega
      have hlt : counter term 0 xs < term.length :=
        Nat.lt_of_le_of_ne (counter_le_length xs) (hbefore xs (List.prefix_append ..) hne)
      -- where it starts again, the shorter beginning had nothing before this character
      have hzero : term[counter term 0 xs]? ≠ some term[k] → k = 0 := by
        intro hgoes
        by_contra hpos
        have hborder : term.take k <:+ term.take (counter term 0 xs) :=
          List.suffix_of_suffix_length_le hshorter (take_counter_suffix xs) (by
            rw [List.length_take, List.length_take]
            omega)
        have hless : k < counter term 0 xs :=
          Nat.lt_of_le_of_ne hle fun h => hgoes (h ▸ hget)
        exact hgoes ((hkeeps _ k (by omega) hless hlt hborder).symm.trans hget)
      rw [counter_concat, restart]
      split_ifs with hgoes hstarts
      · omega
      · rw [hzero hgoes]
      · obtain rfl := hzero hgoes
        exact absurd hget hstarts

theorem readFrom_cons_eq_ok {max m size : Nat} {c : α} {s r left : List α}
    (hend : m ≠ term.length) (hfull : size < max) :
    readFrom term max m size (c :: s) = .ok (r, left) ↔
      ∃ r', r = c :: r' ∧ readFrom term max (restart term m c) (size + 1) s = .ok (r', left) := by
  rw [readFrom, if_neg hend, if_pos hfull]
  cases readFrom term max (restart term m c) (size + 1) s with
  | error e => exact iff_of_false (fun h => nomatch h) fun ⟨_, _, h⟩ => nomatch h
  | ok x =>
    constructor
    · intro h
      cases h
      exact ⟨_, rfl, rfl⟩
    · rintro ⟨r', rfl, h⟩
      cases h
      rfl

/-- What is read is what takes the counter to the end of the terminator. -/
theorem readFrom_eq_ok {max m size : Nat} {s r left : List α} (hsize : size ≤ max) :
    readFrom term max m size s = .ok (r, left) ↔
      s = r ++ left ∧ counter term m r = term.length ∧
      (∀ q, q <+: r → counter term m q = term.length → q = r) ∧ size + r.length ≤ max := by
  by_cases hend : m = term.length
  · rw [readFrom.eq_def, if_pos hend]
    constructor
    · intro h
      cases h
      exact ⟨rfl, hend, fun q hq _ => List.prefix_nil.mp hq, hsize⟩
    · rintro ⟨hreads, -, hshortest, -⟩
      obtain rfl := hshortest [] List.nil_prefix hend
      rw [hreads, List.nil_append]
  · -- nothing is read only at the end of the terminator
    have hnil : counter term m [] ≠ term.length := hend
    by_cases hfull : size < max
    · cases s with
      | nil =>
        rw [readFrom, if_neg hend, if_pos hfull]
        refine iff_of_false (fun h => nomatch h) ?_
        rintro ⟨hreads, hcounter, -, -⟩
        obtain rfl := (List.nil_eq_append_iff.mp hreads).1
        exact hnil hcounter
      | cons c s =>
        rw [readFrom_cons_eq_ok hend hfull]
        constructor
        · rintro ⟨r, rfl, h⟩
          obtain ⟨rfl, hcounter, hshortest, hle⟩ :=
            (readFrom_eq_ok (Nat.succ_le_of_lt hfull)).mp h
          refine ⟨rfl, hcounter, fun q hq hqcounter => ?_, by rw [List.length_cons]; omega⟩
          rcases List.prefix_cons_iff.mp hq with rfl | ⟨q, rfl, hqr⟩
          · exact absurd hqcounter hnil
          · rw [hshortest q hqr hqcounter]
        · rintro ⟨hreads, hcounter, hshortest, hle⟩
          cases r with
          | nil => exact absurd hcounter hnil
          | cons c' r =>
            obtain ⟨rfl, rfl⟩ := List.cons.inj hreads
            rw [List.length_cons] at hle
            refine ⟨r, rfl, (readFrom_eq_ok (Nat.succ_le_of_lt hfull)).mpr
              ⟨rfl, hcounter, fun q hq hqcounter => ?_, by omega⟩⟩
            exact (List.cons.inj (hshortest (c :: q) (List.cons_prefix_cons.mpr ⟨rfl, hq⟩)
              hqcounter)).2
    · rw [readFrom.eq_def, if_neg hend, if_neg hfull]
      refine iff_of_false (fun h => nomatch h) ?_
      rintro ⟨-, hcounter, -, hle⟩
      obtain rfl : r = [] := List.length_eq_zero_iff.mp (by omega)
      exact hnil hcounter

/-! ## Which terminators are found -/

theorem readThrough_eq_ok {max : Nat} {s r left : List α} :
    readThrough term max s = .ok (r, left) ↔
      s = r ++ left ∧ counter term 0 r = term.length ∧
      (∀ q, q <+: r → counter term 0 q = term.length → q = r) ∧ r.length ≤ max := by
  rw [readThrough, readFrom_eq_ok (Nat.zero_le max), Nat.zero_add]

/-- Where the counter is at its end, the terminator has been read. -/
theorem suffix_of_counter {xs : List α} (h : counter term 0 xs = term.length) : term <:+ xs := by
  have hsuffix : term.take (counter term 0 xs) <:+ xs := take_counter_suffix xs
  rwa [h, List.take_length] at hsuffix

/-- Whatever the terminator, what is returned ends with it and is not too long. -/
theorem ends_of_readThrough {max : Nat} {s r left : List α}
    (h : readThrough term max s = .ok (r, left)) : s = r ++ left ∧ term <:+ r ∧ r.length ≤ max := by
  obtain ⟨hreads, hcounter, -, hle⟩ := readThrough_eq_ok.mp h
  exact ⟨hreads, suffix_of_counter hcounter, hle⟩

theorem readsThrough_of_keepsMatches (hkeeps : KeepsMatches term) (max : Nat) (s : List α) :
    ReadsThrough term max s := by
  constructor
  · intro r left hfirst hle
    refine readThrough_eq_ok.mpr ⟨hfirst.reads, ?_, ?_, hle⟩
    · refine Nat.le_antisymm (counter_le_length r) (le_counter hkeeps ?_ (Nat.le_refl _) ?_)
      · exact fun q hq hne hcounter => hne (hfirst.shortest q hq (suffix_of_counter hcounter))
      · rw [List.take_length]
        exact hfirst.ends
    · exact fun q hq hcounter => hfirst.shortest q hq (suffix_of_counter hcounter)
  · intro hnone
    cases hread : readThrough term max s with
    | error e => exact ⟨e, rfl⟩
    | ok x =>
      obtain ⟨hreads, hends, hle⟩ := ends_of_readThrough hread
      exact absurd (hnone _ _ hreads hends) (Nat.not_lt_of_le hle)

/-- What is lost by starting again: the terminator behind the longer beginning of it -/
theorem counter_ne_length {m k : Nat} (hk : 1 ≤ k) (hm : m < term.length)
    (hdiffer : term[k]? ≠ term[m]?) {q : List α} (hq : q <+: term.take m ++ term.drop k) :
    counter term 0 q ≠ term.length := by
  rcases List.prefix_or_prefix_of_prefix hq (List.prefix_append ..) with hshort | ⟨ys, rfl⟩
  · have hlength := hshort.length_le
    rw [List.length_take] at hlength
    have hq := List.prefix_iff_eq_take.mp (hshort.trans (List.take_prefix ..))
    rw [hq, counter_take (by omega)]
    omega
  · rw [counter_append, counter_take (Nat.le_of_lt hm)]
    have hys := (List.prefix_append_right_inj _).mp hq
    have hlength := hys.length_le
    cases ys with
    | nil => exact Nat.ne_of_lt hm
    | cons c ys =>
      -- the character at which it starts again
      have hget : term[k]? = some c := by
        obtain ⟨rest, hrest⟩ := hys
        rw [← List.head?_drop, ← hrest]
        rfl
      have hone : restart term m c ≤ 1 := by
        rw [restart, if_neg fun h => hdiffer (hget.trans h.symm)]
        split_ifs <;> omega
      have hle : counter term (restart term m c) ys ≤ restart term m c + ys.length :=
        counter_le (restart term m c) ys
      rw [List.length_cons, List.length_drop] at hlength
      change counter term (restart term m c) ys ≠ _
      omega

theorem keepsMatches_of_readsThrough (h : ∀ max s, ReadsThrough term max s) :
    KeepsMatches term := by
  intro m k hk hkm hm hborder
  by_contra hdiffer
  obtain ⟨front, hfront⟩ := hborder
  -- the terminator is there
  have hstream : term.take m ++ term.drop k = front ++ term := by
    rw [← hfront, List.append_assoc, List.take_append_drop]
  obtain ⟨r, left, hfirst, -⟩ := exists_first (List.append_nil (term.take m ++ term.drop k)).symm
    ⟨front, hstream.symm⟩
  obtain ⟨-, hcounter, -⟩ := readThrough_eq_ok.mp
    ((h r.length _).1 r left hfirst (Nat.le_refl _))
  exact counter_ne_length hk hm hdiffer ⟨left, hfirst.reads.symm⟩ hcounter

variable (term)

theorem readsThrough_iff : (∀ max s, ReadsThrough term max s) ↔ KeepsMatches term :=
  ⟨keepsMatches_of_readsThrough, readsThrough_of_keepsMatches⟩

/-- Behind a third "a" the two before it are forgotten. -/
theorem not_readsThrough_aab : ¬ ReadsThrough ['a', 'a', 'b'] 4 ['a', 'a', 'a', 'b'] := by
  intro h
  have hfirst : First ['a', 'a', 'b'] ['a', 'a', 'a', 'b'] ['a', 'a', 'a', 'b'] [] := by
    refine ⟨rfl, by decide, fun q hq => ?_⟩
    have hinits : ∀ q ∈ ['a', 'a', 'a', 'b'].inits,
        ['a', 'a', 'b'] <:+ q → q = ['a', 'a', 'a', 'b'] := by
      decide
    exact hinits q ((List.mem_inits _ _).mpr hq)
  exact absurd (h.1 _ _ hfirst (Nat.le_refl 4)) (by decide)

end Urnest.Xju
