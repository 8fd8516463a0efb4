import Urnest.Snmp.Exception

/-!
# The decode iterator

`DecodeIterator data` is a position in `data`, between its first byte and its end;
a value of the type cannot be anywhere else. Reading at the end throws. Moving by a
number of bytes is guarded by an assertion on one side only: a move beyond the end
of the data aborts, and a move in front of the first byte, which nothing checks, is
the fault `outOfRange`.

`rest` is what the iterator has in front of it, `past n` is the iterator `n` bytes
on, and `Reads bs` says that the bytes in front begin with `bs`; reading a format is
proved by following `Reads` from field to field (`Reads.append`).
-/

namespace Urnest.Snmp

/-- A position in `data`. -/
structure DecodeIterator (data : List UInt8) where
  /-- offset from the first byte -/
  at_ : Nat
  /-- never beyond the end -/
  inData : at_ ≤ data.length
  deriving DecidableEq

namespace DecodeIterator

variable {data : List UInt8}

@[ext] theorem ext {i j : DecodeIterator data} (h : i.at_ = j.at_) : i = j := by
  cases i
  cases j
  cases h
  rfl

/-- The iterator at the first byte. -/
def start (data : List UInt8) : DecodeIterator data := ⟨0, Nat.zero_le _⟩

/-- The bytes from the iterator to the end. -/
def rest (i : DecodeIterator data) : List UInt8 := data.drop i.at_

/-- `remaining()` -/
def remaining (i : DecodeIterator data) : Nat := data.length - i.at_

/-- `atEnd()` -/
def atEnd (i : DecodeIterator data) : Bool := i.at_ == data.length

/-- What reading at the end throws. -/
def endOfData (data : List UInt8) : Exception :=
  .exception ("end of data at offset " ++ toString data.length)

/-- `*i` -/
def deref (i : DecodeIterator data) : Result UInt8 :=
  match data[i.at_]? with
  | some b => .ok b
  | none => .error (.threw (endOfData data))

/-- The iterator `n` bytes on, or at the end if there are fewer. -/
def past (i : DecodeIterator data) (n : Nat) : DecodeIterator data :=
  ⟨min (i.at_ + n) data.length, Nat.min_le_right ..⟩

/-- `++i` -/
def next (i : DecodeIterator data) : Result (DecodeIterator data) :=
  if i.atEnd then .error (.threw (endOfData data)) else .ok (i.past 1)

/-- `i + n` -/
def plus (i : DecodeIterator data) (n : Int) : Result (DecodeIterator data) :=
  if n ≤ i.remaining then
    if h : 0 ≤ i.at_ + n ∧ i.at_ + n ≤ data.length then
      .ok ⟨(i.at_ + n).toNat, by omega⟩
    else .error (.died .outOfRange)
  else .error (.died .assertFailed)

/-- `for(; i != e; ++i) { s = f(s, *i); }`, over the bytes in front of `i`. -/
def forTo {σ : Type} (e : DecodeIterator data) (f : σ → UInt8 → σ) :
    List UInt8 → DecodeIterator data → σ → Result (σ × DecodeIterator data)
  | [], i, s => if i = e then .ok (s, i) else .error (.threw (endOfData data))
  | b :: bs, i, s => if i = e then .ok (s, i) else forTo e f bs (i.past 1) (f s b)

/-- The positions of `data` are finitely many. -/
def equivFin (data : List UInt8) : DecodeIterator data ≃ Fin (data.length + 1) where
  toFun i := ⟨i.at_, Nat.lt_succ_of_le i.inData⟩
  invFun k := ⟨k.1, Nat.le_of_lt_succ k.2⟩
  left_inv _ := rfl
  right_inv _ := rfl

instance : Fintype (DecodeIterator data) := Fintype.ofEquiv _ (equivFin data).symm

theorem card (data : List UInt8) : Fintype.card (DecodeIterator data) = data.length + 1 := by
  rw [Fintype.card_congr (equivFin data), Fintype.card_fin]

/-! ## What is in front -/

theorem length_rest (i : DecodeIterator data) : i.rest.length = i.remaining := by
  simp [rest, remaining]

theorem rest_past (i : DecodeIterator data) (n : Nat) : (i.past n).rest = i.rest.drop n := by
  simp only [rest, past, List.drop_drop]
  rcases Nat.le_total (i.at_ + n) data.length with h | h
  · rw [Nat.min_eq_left h]
  · rw [Nat.min_eq_right h, List.drop_of_length_le (Nat.le_refl _), List.drop_of_length_le h]

@[simp] theorem past_zero (i : DecodeIterator data) : i.past 0 = i :=
  ext (Nat.min_eq_left i.inData)

@[simp] theorem past_past (i : DecodeIterator data) (m n : Nat) :
    (i.past m).past n = i.past (m + n) := by
  apply ext
  simp only [past]
  omega

theorem at_past {i : DecodeIterator data} {n : Nat} (h : n ≤ i.remaining) :
    (i.past n).at_ = i.at_ + n := by
  have := i.inData
  simp only [past, remaining] at h ⊢
  omega

theorem remaining_past (i : DecodeIterator data) (n : Nat) :
    (i.past n).remaining = i.remaining - n := by
  have := i.inData
  simp only [past, remaining]
  omega

theorem past_inj {i : DecodeIterator data} {m n : Nat} (hm : m ≤ i.remaining)
    (hn : n ≤ i.remaining) : i.past m = i.past n ↔ m = n := by
  constructor
  · intro h
    have hat := congrArg at_ h
    rw [at_past hm, at_past hn] at hat
    omega
  · exact fun h => by rw [h]

theorem rest_eq_nil {i : DecodeIterator data} : i.rest = [] ↔ i.remaining = 0 := by
  rw [← List.length_eq_zero_iff, length_rest]

/-- Reading at the end throws. -/
theorem deref_of_nil {i : DecodeIterator data} (h : i.rest = []) :
    i.deref = .error (.threw (endOfData data)) := by
  have hlen : data.length ≤ i.at_ := by simpa [rest] using h
  simp [deref, List.getElem?_eq_none hlen]

theorem deref_of_cons {i : DecodeIterator data} {b : UInt8} {bs : List UInt8}
    (h : i.rest = b :: bs) : i.deref = .ok b := by
  have hget : data[i.at_]? = some b := by
    have := congrArg (fun l => l[0]?) h
    simpa [rest] using this
  simp [deref, hget]

theorem deref_eq_ok {i : DecodeIterator data} {b : UInt8} :
    i.deref = .ok b ↔ ∃ bs, i.rest = b :: bs := by
  constructor
  · intro h
    cases hr : i.rest with
    | nil => simp [deref_of_nil hr] at h
    | cons c bs =>
      rw [deref_of_cons hr] at h
      cases h
      exact ⟨bs, rfl⟩
  · rintro ⟨bs, h⟩
    exact deref_of_cons h

@[simp] theorem survives_deref (i : DecodeIterator data) : Lib.Run.Survives i.deref := by
  cases h : i.rest with
  | nil => rw [deref_of_nil h]; trivial
  | cons b bs => rw [deref_of_cons h]; trivial

theorem next_of_cons {i : DecodeIterator data} {b : UInt8} {bs : List UInt8}
    (h : i.rest = b :: bs) : i.next = .ok (i.past 1) := by
  have hlen : i.remaining = bs.length + 1 := by rw [← length_rest, h]; rfl
  have hne : i.at_ ≠ data.length := by
    simp only [remaining] at hlen
    omega
  simp [next, atEnd, hne]

theorem next_of_nil {i : DecodeIterator data} (h : i.rest = []) :
    i.next = .error (.threw (endOfData data)) := by
  have hlen := rest_eq_nil.mp h
  have := i.inData
  have heq : i.at_ = data.length := by
    simp only [remaining] at hlen
    omega
  simp [next, atEnd, heq]

theorem plus_of_le {i : DecodeIterator data} {n : Nat} (h : n ≤ i.remaining) :
    i.plus n = .ok (i.past n) := by
  have hin := i.inData
  simp only [remaining] at h
  have hle : (n : Int) ≤ (i.remaining : Int) := by
    simp only [remaining]
    omega
  have hrange : 0 ≤ (i.at_ : Int) + n ∧ (i.at_ : Int) + n ≤ data.length := by omega
  simp only [plus, if_pos hle, dif_pos hrange]
  congr 1
  apply ext
  simp only [past]
  omega

/-- Moving is safe exactly when it stays in the data. -/
theorem survives_plus {i : DecodeIterator data} {n : Int} :
    Lib.Run.Survives (i.plus n) ↔ n ≤ i.remaining ∧ 0 ≤ i.at_ + n := by
  have hin := i.inData
  simp only [plus]
  by_cases h₁ : n ≤ i.remaining
  · rw [if_pos h₁]
    have hrem : i.remaining = data.length - i.at_ := rfl
    by_cases h₂ : 0 ≤ i.at_ + n ∧ i.at_ + n ≤ data.length
    · rw [dif_pos h₂]
      exact ⟨fun _ => ⟨h₁, h₂.1⟩, fun _ => trivial⟩
    · rw [dif_neg h₂]
      exact ⟨fun h => h.elim, fun h => h₂ (by omega)⟩
  · rw [if_neg h₁]
    exact ⟨fun h => h.elim, fun h => h₁ h.1⟩

theorem plus_eq_ok {i j : DecodeIterator data} {n : Int} :
    i.plus n = .ok j ↔ (j.at_ : Int) = i.at_ + n := by
  have hi := i.inData
  have hj := j.inData
  have hrem : i.remaining = data.length - i.at_ := rfl
  simp only [plus]
  by_cases h₁ : n ≤ i.remaining
  · rw [if_pos h₁]
    by_cases h₂ : 0 ≤ i.at_ + n ∧ i.at_ + n ≤ data.length
    · rw [dif_pos h₂]
      simp only [Except.ok.injEq, DecodeIterator.ext_iff]
      omega
    · rw [dif_neg h₂]
      simp only [reduceCtorEq, false_iff]
      omega
  · rw [if_neg h₁]
    simp only [reduceCtorEq, false_iff]
    omega

/-- A loop to a position at or after the iterator folds the bytes between. -/
theorem forTo_past {σ : Type} {f : σ → UInt8 → σ} {n : Nat} {i : DecodeIterator data}
    (hn : n ≤ i.remaining) (s : σ) :
    forTo (i.past n) f i.rest i s = .ok ((i.rest.take n).foldl f s, i.past n) := by
  induction n generalizing i s with
  | zero =>
    cases h : i.rest with
    | nil => simp [forTo]
    | cons b bs => simp [forTo]
  | succ n ih =>
    cases h : i.rest with
    | nil =>
      have := rest_eq_nil.mp h
      omega
    | cons b bs =>
      have hne : i ≠ i.past (n + 1) := by
        intro heq
        have hat := congrArg at_ heq
        rw [at_past hn] at hat
        omega
      have hrest : (i.past 1).rest = bs := by rw [rest_past, h]; rfl
      have hrem := remaining_past i 1
      have hih := ih (i := i.past 1) (by omega) (f s b)
      rw [past_past, Nat.add_comm 1 n, hrest] at hih
      rw [forTo, if_neg hne, hih]
      rfl

/-- A loop to a position in front of the iterator runs into the end of the data. -/
theorem forTo_of_lt {σ : Type} {f : σ → UInt8 → σ} {e i : DecodeIterator data}
    (h : e.at_ < i.at_) (s : σ) :
    forTo e f i.rest i s = .error (.threw (endOfData data)) := by
  have hne : i ≠ e := fun heq => by rw [heq] at h; omega
  induction hr : i.rest generalizing i s with
  | nil => rw [forTo, if_neg hne]
  | cons b bs ih =>
    have hlen : i.remaining = bs.length + 1 := by rw [← length_rest, hr]; rfl
    have hat := at_past (i := i) (n := 1) (by omega)
    have hne' : i.past 1 ≠ e := fun heq => by rw [heq] at hat; omega
    rw [forTo, if_neg hne]
    exact ih (by omega) (f s b) hne' (by rw [rest_past, hr]; rfl)

/-! ## Reading known bytes -/

/-- The bytes in front of the iterator begin with `bs`. -/
def Reads (i : DecodeIterator data) (bs : List UInt8) : Prop := bs <+: i.rest

theorem Reads.append {i : DecodeIterator data} {as bs : List UInt8} :
    i.Reads (as ++ bs) ↔ i.Reads as ∧ (i.past as.length).Reads bs := by
  simp only [Reads, rest_past]
  constructor
  · rintro ⟨t, ht⟩
    rw [← ht]
    refine ⟨⟨bs ++ t, by simp⟩, ⟨t, by simp⟩⟩
  · rintro ⟨⟨t, ht⟩, ⟨u, hu⟩⟩
    rw [← ht, List.drop_left] at hu
    exact ⟨u, by rw [← ht, ← hu, List.append_assoc]⟩

theorem Reads.cons {i : DecodeIterator data} {b : UInt8} {bs : List UInt8} :
    i.Reads (b :: bs) ↔ i.Reads [b] ∧ (i.past 1).Reads bs := by
  rw [← List.singleton_append, Reads.append]
  rfl

theorem Reads.length_le {i : DecodeIterator data} {bs : List UInt8} (h : i.Reads bs) :
    bs.length ≤ i.remaining := by
  rw [← length_rest]
  exact List.IsPrefix.length_le h

theorem Reads.head {i : DecodeIterator data} {b : UInt8} {bs : List UInt8}
    (h : i.Reads (b :: bs)) : i.deref = .ok b := by
  obtain ⟨t, ht⟩ := h
  exact deref_of_cons (show i.rest = b :: (bs ++ t) from ht.symm)

theorem Reads.plus {i : DecodeIterator data} {bs : List UInt8} (h : i.Reads bs) :
    i.plus bs.length = .ok (i.past bs.length) :=
  plus_of_le h.length_le

theorem Reads.plus_one {i : DecodeIterator data} {b : UInt8} {bs : List UInt8}
    (h : i.Reads (b :: bs)) : i.plus 1 = .ok (i.past 1) :=
  plus_of_le (n := 1) (by have := h.length_le; simp only [List.length_cons] at this; omega)

/-- The bytes in front of the iterator are `as` and then just `bs`. -/
theorem reads_of_rest {i : DecodeIterator data} {as bs : List UInt8} (h : i.rest = as ++ bs) :
    i.Reads as ∧ (i.past as.length).rest = bs :=
  ⟨⟨bs, h.symm⟩, by rw [rest_past, h, List.drop_left]⟩

theorem reads_start (data : List UInt8) : (start data).Reads data :=
  List.prefix_rfl

end DecodeIterator

end Urnest.Snmp
