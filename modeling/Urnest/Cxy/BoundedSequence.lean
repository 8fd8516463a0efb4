import Mathlib

/-!
# Bounded sequences

BoundedSequence.hcp is a vector with a bound: each operation that grows it compares with the
bound first, and then leaves the work to the vector. There are as many sequences as one likes,
for they are copied, moved and swapped.

No run of operations takes one of them over the bound (`run_bounded`). An operation has the
vector's effect, or throws as it says and leaves all as it was, where the vector itself does not
throw `std::length_error` (`keepsBound_iff`): for so many copies that their number and the size
wrap around, and for what is more than a vector can have where the bound allows it.

(The constructor for `n` copies calls `check` without its second argument, and so there is none.)
-/

namespace Urnest.Cxy.BoundedSequence

/-- `MaxSize`, and what a vector can have -/
structure Bounds where
  maxSize : Nat
  maxSize_lt : maxSize < 2 ^ 64
  vectorMax : Nat
  /-- a `difference_type` is the difference of two iterators -/
  vectorMax_lt : vectorMax < 2 ^ 63

/-- What is thrown -/
inductive SequenceFailure where
  /-- BoundedSequence of max size `maxSize` cannot accept `n` elements -/
  | cannotAccept (maxSize n : Nat)
  /-- cannot be resized to -/
  | cannotBeResized (maxSize n : Nat)
  /-- cannot reserve room for -/
  | cannotReserve (maxSize n : Nat)
  /-- is full -/
  | isFull (maxSize : Nat)
  /-- has so many elements and cannot accept so many more -/
  | cannotAcceptMore (maxSize size n : Nat)
  /-- BoundedSequence has only `size` elements, not `n` -/
  | hasOnly (size n : Nat)
  /-- insert range of elements at an offset -/
  | insertRange (maxSize offset : Nat) (cause : SequenceFailure)
  /-- `std::length_error` of the vector -/
  | lengthError
  deriving DecidableEq, Repr

/-- It is an `E`. -/
def SequenceFailure.documented : SequenceFailure → Bool
  | lengthError => false
  | _ => true

/-! ## Vectors -/

section Vector

variable {α : Type} (b : Bounds)

def vectorPushBack (l : List α) (x : α) : Except SequenceFailure (List α) :=
  if l.length < b.vectorMax then .ok (l ++ [x]) else .error .lengthError

def vectorResize (l : List α) (n : Nat) (x : α) : Except SequenceFailure (List α) :=
  if n ≤ b.vectorMax then .ok (l.take n ++ List.replicate (n - l.length) x)
  else .error .lengthError

/-- `insert` of `n` copies -/
def vectorInsert (l : List α) (i n : Nat) (x : α) : Except SequenceFailure (List α) :=
  if n ≤ b.vectorMax - l.length then .ok (l.take i ++ (List.replicate n x ++ l.drop i))
  else .error .lengthError

def vectorReserve (l : List α) (n : Nat) : Except SequenceFailure (List α) :=
  if n ≤ b.vectorMax then .ok l else .error .lengthError

/-! ## The code, for one sequence -/

/-- `max_size` -/
def maxSize : Nat := min b.vectorMax b.maxSize

/-- The loop of the constructors, of `operator=` and of `assign`, after `c` elements -/
def fill (c : Nat) (y : List α) : List α → Except SequenceFailure (List α)
  | [] => .ok y
  | x :: xs =>
    if c < b.maxSize then
      match vectorPushBack b y x with
      | .ok y => fill (c + 1) y xs
      | .error e => .error e
    else .error (.cannotAccept b.maxSize (c + (xs.length + 1)))

def resize (l : List α) (n : UInt64) (x : α) : Except SequenceFailure (List α) :=
  if n.toNat > b.maxSize then .error (.cannotBeResized b.maxSize n.toNat)
  else vectorResize b l n.toNat x

def reserve (l : List α) (n : UInt64) : Except SequenceFailure (List α) :=
  if n.toNat > maxSize b then .error (.cannotReserve b.maxSize n.toNat)
  else vectorReserve b l n.toNat

/-- `push_back` and `emplace_back` -/
def pushBack (l : List α) (x : α) : Except SequenceFailure (List α) :=
  if l.length = maxSize b then .error (.isFull b.maxSize) else vectorPushBack b l x

/-- `emplace`, and `insert` of one element -/
def emplace (l : List α) (i : Nat) (x : α) : Except SequenceFailure (List α) :=
  if l.length = maxSize b then .error (.isFull b.maxSize) else vectorInsert b l i 1 x

/-- `insert` of `n` copies: `size()+n` wraps. -/
def insertCopies (l : List α) (i : Nat) (n : UInt64) (x : α) : Except SequenceFailure (List α) :=
  if (l.length + n.toNat) % 2 ^ 64 > maxSize b then
    .error (.cannotAcceptMore b.maxSize l.length n.toNat)
  else vectorInsert b l i n.toNat x

/-- `std::copy` to a `std::back_inserter` -/
def pushAll (l : List α) : List α → Except SequenceFailure (List α)
  | [] => .ok l
  | x :: xs =>
    match pushBack b l x with
    | .ok l => pushAll l xs
    | .error e => .error e

/-- `e.addContext` of an `E` -/
def insertContext (i : Nat) : SequenceFailure → SequenceFailure
  | .lengthError => .lengthError
  | e => .insertRange b.maxSize i e

/-- `insert` of a range, and of a list -/
def insertRange (l : List α) (i : Nat) (xs : List α) : Except SequenceFailure (List α) :=
  match fill b 0 [] (l.take i) with
  | .error e => .error (insertContext b i e)
  | .ok x =>
    match pushAll b x xs with
    | .error e => .error (insertContext b i e)
    | .ok x =>
      match pushAll b x (l.drop i) with
      | .error e => .error (insertContext b i e)
      | .ok x => .ok x

/-- An element is written through `at`. -/
def writeAt (l : List α) (n : UInt64) (x : α) : Except SequenceFailure (List α) :=
  if n.toNat ≥ l.length then .error (.hasOnly l.length (n.toNat + 1)) else .ok (l.set n.toNat x)

end Vector

/-! ## Operations -/

/-- The operations, on sequences that have names. An iterator into a sequence of size `n` is
given by any number, of which `min i n` is its distance from `begin()`. -/
inductive Operation (ν α : Type) where
  | construct (v : ν)
  /-- of a range or a list -/
  | constructRange (v : ν) (xs : List α)
  | constructCopy (v w : ν)
  /-- it copies -/
  | constructMove (v w : ν)
  | assignCopy (v w : ν)
  | assignMove (v w : ν)
  /-- `operator=` of a list, and `assign` -/
  | assignRange (v : ν) (xs : List α)
  | resize (v : ν) (n : UInt64) (x : α)
  | reserve (v : ν) (n : UInt64)
  | writeAt (v : ν) (n : UInt64) (x : α)
  | pushBack (v : ν) (x : α)
  | popBack (v : ν)
  | emplace (v : ν) (i : Nat) (x : α)
  | insertCopies (v : ν) (i : Nat) (n : UInt64) (x : α)
  | insertRange (v : ν) (i : Nat) (xs : List α)
  | erase (v : ν) (i : Nat)
  | eraseRange (v : ν) (i j : Nat)
  | swap (v w : ν)
  | clear (v : ν)

variable {ν α : Type} [DecidableEq ν]

/-- What each of the sequences has -/
abbrev Sequences (ν α : Type) := ν → List α

/-- An operation on one sequence has returned, or thrown and left it. -/
def change (s : Sequences ν α) (v : ν) :
    Except SequenceFailure (List α) → Sequences ν α × Option SequenceFailure
  | .ok l => (Function.update s v l, none)
  | .error e => (s, some e)

/-- The sequences after an operation, and what it throws -/
def step (b : Bounds) (s : Sequences ν α) :
    Operation ν α → Sequences ν α × Option SequenceFailure
  | .construct v => change s v (.ok [])
  | .constructRange v xs => change s v (fill b 0 [] xs)
  | .constructCopy v w => change s v (.ok (s w))
  | .constructMove v w => change s v (.ok (s w))
  | .assignCopy v w => change s v (.ok (s w))
  | .assignMove v w => (Function.update (Function.update s v (s w)) w [], none)
  | .assignRange v xs => change s v (fill b 0 [] xs)
  | .resize v n x => change s v (resize b (s v) n x)
  | .reserve v n => change s v (reserve b (s v) n)
  | .writeAt v n x => change s v (writeAt (s v) n x)
  | .pushBack v x => change s v (pushBack b (s v) x)
  | .popBack v => change s v (.ok (s v).dropLast)
  | .emplace v i x => change s v (emplace b (s v) (min i (s v).length) x)
  | .insertCopies v i n x => change s v (insertCopies b (s v) (min i (s v).length) n x)
  | .insertRange v i xs => change s v (insertRange b (s v) (min i (s v).length) xs)
  | .erase v i => change s v (.ok ((s v).eraseIdx i))
  | .eraseRange v i j => change s v (.ok ((s v).take (min i j) ++ (s v).drop j))
  | .swap v w => (Function.update (Function.update s v (s w)) w (s v), none)
  | .clear v => change s v (.ok [])

/-- The sequences after some operations, whether these threw or not -/
def runOperations (b : Bounds) (ops : List (Operation ν α)) : Sequences ν α :=
  ops.foldl (fun s op => (step b s op).1) fun _ => []

/-! ## What is asked of it -/

/-- What the operation does to vectors. What is moved from may have any value. -/
def Effect (s s' : Sequences ν α) : Operation ν α → Prop
  | .construct v | .clear v => s' = Function.update s v []
  | .constructRange v xs | .assignRange v xs => s' = Function.update s v xs
  | .constructCopy v w | .assignCopy v w => s' = Function.update s v (s w)
  | .constructMove v w | .assignMove v w =>
    (v ≠ w → s' v = s w) ∧ ∀ u, u ≠ v → u ≠ w → s' u = s u
  | .resize v n x =>
    s' = Function.update s v
      ((s v).take n.toNat ++ List.replicate (n.toNat - (s v).length) x)
  | .reserve _ _ => s' = s
  | .writeAt v n x => s' = Function.update s v ((s v).set n.toNat x)
  | .pushBack v x => s' = Function.update s v (s v ++ [x])
  | .popBack v => s' = Function.update s v (s v).dropLast
  | .emplace v i x =>
    s' = Function.update s v ((s v).take (min i (s v).length) ++
      ([x] ++ (s v).drop (min i (s v).length)))
  | .insertCopies v i n x =>
    s' = Function.update s v ((s v).take (min i (s v).length) ++
      (List.replicate n.toNat x ++ (s v).drop (min i (s v).length)))
  | .insertRange v i xs =>
    s' = Function.update s v ((s v).take (min i (s v).length) ++
      (xs ++ (s v).drop (min i (s v).length)))
  | .erase v i => s' = Function.update s v ((s v).eraseIdx i)
  | .eraseRange v i j => s' = Function.update s v ((s v).take (min i j) ++ (s v).drop j)
  | .swap v w => s' = Function.update (Function.update s v (s w)) w (s v)

/-- The operation has the vector's effect within the bound, or throws as it says and leaves all
as it was. -/
def KeepsBound (b : Bounds) (s : Sequences ν α) (op : Operation ν α) : Prop :=
  ((step b s op).2 = none →
    Effect s (step b s op).1 op ∧ ∀ v, ((step b s op).1 v).length ≤ b.maxSize) ∧
  ∀ e, (step b s op).2 = some e → e.documented ∧ (step b s op).1 = s

/-- The vector throws `std::length_error`: the size and the number of copies wrap, or the bound
allows what a vector cannot have. -/
def Overflows (b : Bounds) (s : Sequences ν α) : Operation ν α → Prop
  | .insertCopies v _ n _ => 2 ^ 64 ≤ (s v).length + n.toNat
  | .resize _ n _ => b.vectorMax < n.toNat ∧ n.toNat ≤ b.maxSize
  | .constructRange _ xs | .assignRange _ xs => b.vectorMax < min xs.length b.maxSize
  | _ => False

/-! ## One sequence -/

section Sequence

variable {b : Bounds}

/-- What comes of a sequence: what the vector makes of it, within the bound, or else an
exception, which is the vector's own just when the operation overflows. -/
structure Becomes (b : Bounds) (r : Except SequenceFailure (List α)) (l : List α)
    (overflows : Prop) : Prop where
  ok : ∀ l', r = .ok l' → l' = l ∧ l.length ≤ maxSize b ∧ ¬ overflows
  error : ∀ e, r = .error e → (e.documented ↔ ¬ overflows)

theorem Becomes.of_ok {l : List α} {overflows : Prop} (hlength : l.length ≤ maxSize b)
    (h : ¬ overflows) : Becomes b (.ok l) l overflows where
  ok := by
    rintro l' ⟨⟩
    exact ⟨rfl, hlength, h⟩
  error := nofun

theorem Becomes.of_documented {e : SequenceFailure} {l : List α} {overflows : Prop}
    (he : e.documented = true) (h : ¬ overflows) : Becomes b (.error e) l overflows where
  ok := nofun
  error := by
    rintro e' ⟨⟩
    exact iff_of_true he h

theorem Becomes.of_lengthError {l : List α} {overflows : Prop} (h : overflows) :
    Becomes b (.error .lengthError) l overflows where
  ok := nofun
  error := by
    rintro e' ⟨⟩
    exact iff_of_false Bool.false_ne_true (not_not.mpr h)

theorem maxSize_le (b : Bounds) : maxSize b ≤ b.maxSize ∧ maxSize b ≤ b.vectorMax :=
  ⟨Nat.min_le_right .., Nat.min_le_left ..⟩

/-- All elements are taken when there is room for them. -/
theorem fill_of_le {c : Nat} {y xs : List α} (hy : y.length = c)
    (hle : c + xs.length ≤ maxSize b) : fill b c y xs = .ok (y ++ xs) := by
  have hmax := maxSize_le b
  induction xs generalizing c y with
  | nil => rw [fill, List.append_nil]
  | cons x xs ih =>
    rw [List.length_cons] at hle
    rw [fill, if_pos (by omega), vectorPushBack, if_pos (by omega)]
    simp only
    rw [ih (by rw [List.length_append, hy, List.length_singleton]) (by omega), List.append_assoc]
    rfl

/-- Otherwise what is met first is thrown: the end of the bound or that of the vector. -/
theorem fill_of_lt {c : Nat} {y xs : List α} (hy : y.length = c) (hc : c ≤ maxSize b)
    (hlt : maxSize b < c + xs.length) :
    fill b c y xs = .error (if b.vectorMax < b.maxSize then .lengthError
      else .cannotAccept b.maxSize (c + xs.length)) := by
  induction xs generalizing c y with
  | nil => exact absurd hlt (Nat.not_lt_of_le hc)
  | cons x xs ih =>
    rw [List.length_cons] at hlt ⊢
    rw [fill, vectorPushBack, hy]
    by_cases hmore : c < maxSize b
    · have hmax := maxSize_le b
      rw [if_pos (by omega), if_pos (by omega)]
      simp only
      rw [ih (by rw [List.length_append, hy, List.length_singleton]) hmore (by omega),
        show c.succ + xs.length = c + (xs.length + 1) by omega]
    · -- the bound or the vector is full
      rw [maxSize] at hmore hc
      by_cases hvector : b.vectorMax < b.maxSize
      · rw [if_pos (by omega), if_neg (by omega), if_pos hvector]
      · rw [if_neg (by omega), if_neg hvector]

/-- A fresh sequence takes what there is room for. -/
theorem fill_nil {xs : List α} (hle : xs.length ≤ maxSize b) : fill b 0 [] xs = .ok xs :=
  fill_of_le List.length_nil (by rwa [Nat.zero_add])

theorem becomes_fill (xs : List α) :
    Becomes b (fill b 0 [] xs) xs (b.vectorMax < min xs.length b.maxSize) := by
  by_cases hle : xs.length ≤ maxSize b
  · rw [fill_nil hle]
    rw [maxSize] at hle
    exact .of_ok hle (by omega)
  · rw [fill_of_lt List.length_nil (Nat.zero_le _) (by omega)]
    rw [maxSize] at hle
    split_ifs with hvector
    · exact .of_lengthError (by omega)
    · exact .of_documented rfl (by omega)

theorem becomes_resize (l : List α) (n : UInt64) (x : α) :
    Becomes b (resize b l n x) (l.take n.toNat ++ List.replicate (n.toNat - l.length) x)
      (b.vectorMax < n.toNat ∧ n.toNat ≤ b.maxSize) := by
  rw [resize, vectorResize]
  split_ifs with hbound hvector
  · exact .of_documented rfl (by omega)
  · refine .of_ok ?_ (by omega)
    rw [List.length_append, List.length_take, List.length_replicate, maxSize]
    omega
  · exact .of_lengthError (by omega)

theorem becomes_reserve {l : List α} (hl : l.length ≤ maxSize b) (n : UInt64) :
    Becomes b (reserve b l n) l False := by
  have hmax := maxSize_le b
  rw [reserve, vectorReserve]
  split_ifs with hbound hvector
  · exact .of_documented rfl not_false
  · exact .of_ok hl not_false
  · omega

theorem becomes_writeAt {l : List α} (hl : l.length ≤ maxSize b) (n : UInt64) (x : α) :
    Becomes b (writeAt l n x) (l.set n.toNat x) False := by
  rw [writeAt]
  split_ifs with hrange
  · exact .of_documented rfl not_false
  · exact .of_ok (by rwa [List.length_set]) not_false

theorem pushBack_eq {l : List α} (hl : l.length ≤ maxSize b) (x : α) :
    pushBack b l x =
      if l.length = maxSize b then .error (.isFull b.maxSize) else .ok (l ++ [x]) := by
  have hmax := maxSize_le b
  rw [pushBack]
  split_ifs with hfull
  · rfl
  · rw [vectorPushBack, if_pos (by omega)]

theorem becomes_pushBack {l : List α} (hl : l.length ≤ maxSize b) (x : α) :
    Becomes b (pushBack b l x) (l ++ [x]) False := by
  rw [pushBack_eq hl]
  split_ifs with hfull
  · exact .of_documented rfl not_false
  · refine .of_ok ?_ not_false
    rw [List.length_append, List.length_singleton]
    omega

theorem becomes_emplace {l : List α} (hl : l.length ≤ maxSize b) (i : Nat) (x : α) :
    Becomes b (emplace b l i x) (l.take i ++ ([x] ++ l.drop i)) False := by
  have hmax := maxSize_le b
  rw [emplace, vectorInsert]
  split_ifs with hfull hvector
  · exact .of_documented rfl not_false
  · refine .of_ok ?_ not_false
    rw [List.length_append, List.length_append, List.length_take, List.length_drop,
      List.length_replicate]
    omega
  · omega

/-- Where the sum wraps it is let through, and the vector throws. -/
theorem becomes_insertCopies {l : List α} (hl : l.length ≤ maxSize b) (i : Nat) (n : UInt64)
    (x : α) :
    Becomes b (insertCopies b l i n x) (l.take i ++ (List.replicate n.toNat x ++ l.drop i))
      (2 ^ 64 ≤ l.length + n.toNat) := by
  have hmax := maxSize_le b
  have hvectorMax := b.vectorMax_lt
  have hn := n.toNat_lt
  rw [insertCopies, vectorInsert]
  split_ifs with hbound hvector
  · exact .of_documented rfl (by omega)
  · refine .of_ok ?_ (by omega)
    rw [List.length_append, List.length_append, List.length_take, List.length_drop,
      List.length_replicate]
    omega
  · exact .of_lengthError (by omega)

theorem pushAll_eq {l : List α} (hl : l.length ≤ maxSize b) (xs : List α) :
    pushAll b l xs = if l.length + xs.length ≤ maxSize b then .ok (l ++ xs)
      else .error (.isFull b.maxSize) := by
  induction xs generalizing l with
  | nil => rw [pushAll, List.length_nil, Nat.add_zero, if_pos hl, List.append_nil]
  | cons x xs ih =>
    rw [pushAll, pushBack_eq hl, List.length_cons]
    by_cases hfull : l.length = maxSize b
    · rw [if_pos hfull, if_neg (by omega)]
    · have hlength : (l ++ [x]).length = l.length + 1 := by
        rw [List.length_append, List.length_singleton]
      rw [if_neg hfull]
      simp only
      rw [ih (by omega), hlength, List.append_assoc, Nat.add_assoc, Nat.add_comm 1]
      rfl

/-- All that is in front is taken, then the range, and then what is behind. -/
theorem becomes_insertRange {l : List α} (hl : l.length ≤ maxSize b) (i : Nat) (xs : List α) :
    Becomes b (insertRange b l i xs) (l.take i ++ (xs ++ l.drop i)) False := by
  have htake : (l.take i).length ≤ maxSize b := Nat.le_trans (List.take_sublist i l).length_le hl
  have hfull : (insertContext b i (.isFull b.maxSize)).documented = true := rfl
  rw [insertRange, fill_nil htake]
  simp only
  rw [pushAll_eq htake]
  split_ifs with hrange
  · simp only
    rw [pushAll_eq (by rwa [List.length_append])]
    split_ifs with hbehind
    · simp only [List.append_assoc]
      rw [← List.length_append, List.append_assoc] at hbehind
      exact .of_ok hbehind not_false
    · exact .of_documented hfull not_false
  · exact .of_documented hfull not_false

end Sequence

/-! ## Runs -/

variable {b : Bounds} {s : Sequences ν α}

/-- Every sequence is within its bounds. -/
def Bounded (b : Bounds) (s : Sequences ν α) : Prop := ∀ v, (s v).length ≤ maxSize b

theorem Bounded.update (h : Bounded b s) (v : ν) {l : List α} (hl : l.length ≤ maxSize b) :
    Bounded b (Function.update s v l) := by
  intro u
  by_cases hu : u = v
  · subst hu
    rwa [Function.update_self]
  · rw [Function.update_of_ne hu]
    exact h u

/-- An operation keeps every sequence within its bounds, and it does what it says just when it
does not overflow. -/
structure Sound (b : Bounds) (s : Sequences ν α) (op : Operation ν α) : Prop where
  bounded : Bounded b (step b s op).1
  keeps : KeepsBound b s op ↔ ¬ Overflows b s op

omit [DecidableEq ν] in
theorem Bounded.le_maxSize (h : Bounded b s) (v : ν) : (s v).length ≤ b.maxSize :=
  Nat.le_trans (h v) (maxSize_le b).1

/-- An operation on one sequence -/
theorem sound_change {op : Operation ν α} (hs : Bounded b s) (v : ν)
    {r : Except SequenceFailure (List α)} {l : List α} (hstep : step b s op = change s v r)
    (hr : Becomes b r l (Overflows b s op)) (heffect : Effect s (Function.update s v l) op) :
    Sound b s op := by
  cases r with
  | ok l' =>
    obtain ⟨rfl, hl, hnot⟩ := hr.ok l' rfl
    have hbounded := hs.update v hl
    refine ⟨by rwa [hstep], iff_of_true ⟨fun _ => ?_, fun e he => ?_⟩ hnot⟩
    · rw [hstep]
      exact ⟨heffect, hbounded.le_maxSize⟩
    · rw [hstep] at he
      cases he
  | error e =>
    refine ⟨by rwa [hstep], ?_⟩
    rw [← hr.error e rfl, KeepsBound, hstep]
    constructor
    · rintro ⟨-, herror⟩
      exact (herror e rfl).1
    · intro he
      refine ⟨nofun, ?_⟩
      rintro e' ⟨⟩
      exact ⟨he, rfl⟩

/-- An operation that does not throw -/
theorem sound_ok {op : Operation ν α} {s' : Sequences ν α} (hstep : step b s op = (s', none))
    (hs' : Bounded b s') (heffect : Effect s s' op) (hnot : ¬ Overflows b s op) : Sound b s op := by
  refine ⟨by rwa [hstep], iff_of_true ⟨fun _ => ?_, fun e he => ?_⟩ hnot⟩
  · rw [hstep]
    exact ⟨heffect, hs'.le_maxSize⟩
  · rw [hstep] at he
    cases he

theorem sound_step (hs : Bounded b s) (op : Operation ν α) : Sound b s op := by
  cases op with
  | construct v => exact sound_change hs v rfl (.of_ok (Nat.zero_le _) not_false) rfl
  | constructRange v xs => exact sound_change hs v rfl (becomes_fill xs) rfl
  | constructCopy v w => exact sound_change hs v rfl (.of_ok (hs w) not_false) rfl
  | constructMove v w =>
    refine sound_change hs v rfl (.of_ok (hs w) not_false) ⟨fun _ => ?_, fun u hu _ => ?_⟩
    · exact Function.update_self ..
    · exact Function.update_of_ne hu ..
  | assignCopy v w => exact sound_change hs v rfl (.of_ok (hs w) not_false) rfl
  | assignMove v w =>
    refine sound_ok rfl ((hs.update v (hs w)).update w (Nat.zero_le _))
      ⟨fun hne => ?_, fun u hv hw => ?_⟩ not_false
    · rw [Function.update_of_ne hne, Function.update_self]
    · rw [Function.update_of_ne hw, Function.update_of_ne hv]
  | assignRange v xs => exact sound_change hs v rfl (becomes_fill xs) rfl
  | resize v n x => exact sound_change hs v rfl (becomes_resize _ n x) rfl
  | reserve v n =>
    exact sound_change hs v rfl (becomes_reserve (hs v) n) (Function.update_eq_self v s)
  | writeAt v n x => exact sound_change hs v rfl (becomes_writeAt (hs v) n x) rfl
  | pushBack v x => exact sound_change hs v rfl (becomes_pushBack (hs v) x) rfl
  | popBack v =>
    refine sound_change hs v rfl (.of_ok ?_ not_false) rfl
    exact Nat.le_trans (List.dropLast_sublist _).length_le (hs v)
  | emplace v i x => exact sound_change hs v rfl (becomes_emplace (hs v) _ x) rfl
  | insertCopies v i n x => exact sound_change hs v rfl (becomes_insertCopies (hs v) _ n x) rfl
  | insertRange v i xs => exact sound_change hs v rfl (becomes_insertRange (hs v) _ xs) rfl
  | erase v i =>
    refine sound_change hs v rfl (.of_ok ?_ not_false) rfl
    exact Nat.le_trans (List.eraseIdx_sublist _ _).length_le (hs v)
  | eraseRange v i j =>
    refine sound_change hs v rfl (.of_ok ?_ not_false) rfl
    have hv := hs v
    rw [List.length_append, List.length_take, List.length_drop]
    omega
  | swap v w => exact sound_ok rfl ((hs.update v (hs w)).update w (hs v)) rfl not_false
  | clear v => exact sound_change hs v rfl (.of_ok (Nat.zero_le _) not_false) rfl

theorem run_bounded (b : Bounds) (ops : List (Operation ν α)) :
    Bounded b (runOperations b ops) := by
  induction ops using List.reverseRecOn with
  | nil => exact fun v => Nat.zero_le _
  | append_singleton ops op ih =>
    rw [runOperations, List.foldl_append]
    exact (sound_step ih op).bounded

/-- After whichever operations, none takes a sequence over its bound, and an operation does what
it says just when it does not overflow. -/
theorem keepsBound_iff (b : Bounds) (ops : List (Operation ν α)) (op : Operation ν α) :
    (∀ v, (runOperations b ops v).length ≤ b.maxSize) ∧
      (KeepsBound b (runOperations b ops) op ↔ ¬ Overflows b (runOperations b ops) op) :=
  ⟨(run_bounded b ops).le_maxSize, (sound_step (run_bounded b ops) op).keeps⟩

/-- A sequence of two elements at most, one of which it has, is given 2^64-1 more: the sum is 0,
and what is thrown is the vector's. -/
theorem not_keepsBound_wrapped :
    ¬ KeepsBound ⟨2, by decide, 2 ^ 60, by decide⟩
      (runOperations ⟨2, by decide, 2 ^ 60, by decide⟩ [.pushBack () 7])
      (.insertCopies () 0 0xffffffffffffffff 8) := by
  rintro ⟨-, herror⟩
  exact absurd (herror .lengthError (by decide)).1 (by decide)

end Urnest.Cxy.BoundedSequence
