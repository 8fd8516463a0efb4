import Mathlib
import Urnest.Dion.Ids

/-!
# What sets of job ids stand for

Whatever is done with any number of `Ids`, each stands for the set that the same operations make
(`Stands`), as long as no step makes one of an id from 31 on, or adds to one what it has some of
already (`Safe`). A step that does makes something that does not stand for its set.
-/

namespace Urnest.Dion

/-- The ids that there may be in a set. -/
abbrev JobId := {x : Id // x ≤ Ids.maxId_}

namespace Ids

/-! ## Bits -/

def bit (x : Ids) (i : JobId) : Bool := x.value_.toBitVec.getLsbD i.val.toNat

theorem jobId_lt (i : JobId) : i.val.toNat < 64 :=
  Nat.lt_succ_of_le (UInt32.le_iff_toNat_le.mp i.property)

theorem mem_eq_bit (x : Ids) (i : JobId) : x.mem i = x.bit i := by
  have hi : i.val.toNat % 64 = i.val.toNat := Nat.mod_eq_of_lt (jobId_lt i)
  rw [mem, bit, decide_eq_true i.property, Bool.and_true, BitVec.getLsbD, Nat.testBit]
  rw [Bool.eq_iff_iff]
  simp [← UInt64.toNat_inj, hi, Nat.and_comm]

theorem ext_bit {x y : Ids} (h : ∀ i, x.bit i = y.bit i) : x = y := by
  cases x
  cases y
  congr 1
  refine UInt64.toBitVec_inj.mp (BitVec.eq_of_getLsbD_eq fun i hi => ?_)
  have hsize : i < UInt32.size := Nat.lt_of_lt_of_le hi (by decide)
  have hle : UInt32.ofNat i ≤ maxId_ := by
    rw [UInt32.le_iff_toNat_le, UInt32.toNat_ofNat_of_lt' hsize]
    exact Nat.le_of_lt_succ hi
  have hbit := h ⟨UInt32.ofNat i, hle⟩
  simp only [bit, UInt32.toNat_ofNat_of_lt' hsize] at hbit
  exact hbit

@[simp] theorem bit_none (i : JobId) : none.bit i = false := by simp [none, bit]

@[simp] theorem bit_union (x y : Ids) (i : JobId) : (x.union y).bit i = (x.bit i || y.bit i) := by
  simp [union, bit]

@[simp] theorem bit_inter (x y : Ids) (i : JobId) : (x.inter y).bit i = (x.bit i && y.bit i) := by
  simp [inter, bit]

@[simp] theorem bit_remove (x y : Ids) (i : JobId) :
    (x.remove y).bit i = (x.bit i && !y.bit i) := by
  simp [remove, bit, jobId_lt i]

theorem add_eq_union_iff (x y : Ids) : x.add y = x.union y ↔ x.inter y = none := by
  have hword : ∀ a b : BitVec 64, a + b = a ||| b ↔ a &&& b = 0 := by
    intro a b
    constructor
    · intro h
      -- what is in both is added twice
      have hb : b = (b &&& ~~~a) + (b &&& a) := by
        rw [BitVec.add_eq_or_of_and_eq_zero _ _ (by ext; simp; grind)]
        ext
        simp
        grind
      have hor : a ||| b = a + (b &&& ~~~a) := by
        rw [BitVec.add_eq_or_of_and_eq_zero _ _ (by ext; simp; grind)]
        ext
        simp
        grind
      have hsum : a + (b &&& ~~~a) + (b &&& a) = a + (b &&& ~~~a) := by
        rw [BitVec.add_assoc, ← hb, h, hor]
      rw [BitVec.and_comm]
      simpa using hsum
    · exact BitVec.add_eq_or_of_and_eq_zero a b
  simpa [add, union, inter, none, ← UInt64.toBitVec_inj]
    using hword x.value_.toBitVec y.value_.toBitVec

/-- The word of an id. -/
theorem ofId_of_lt {x : Id} (hx : x < 31) : ofId x = .ok ⟨1 <<< x.toUInt64⟩ := by
  have h32 : ¬(32 ≤ x) := fun h => absurd (UInt32.lt_of_le_of_lt h hx) (by decide)
  have h31 : x ≠ 31 := UInt32.ne_of_lt hx
  have hmax : x ≤ maxId_ := UInt32.le_of_lt (UInt32.lt_trans hx (by decide))
  rw [ofId, if_neg h32, if_neg h31, if_pos hmax]

theorem bit_single (x i : JobId) : bit ⟨1 <<< x.val.toUInt64⟩ i = decide (i = x) := by
  have hx : x.val.toNat % 64 = x.val.toNat := Nat.mod_eq_of_lt (jobId_lt x)
  have hval : i = x ↔ i.val.toNat = x.val.toNat := by rw [UInt32.toNat_inj, Subtype.val_inj]
  rw [Bool.eq_iff_iff, decide_eq_true_eq, hval]
  have hlt : 2 ^ x.val.toNat < 2 ^ 64 := Nat.pow_lt_pow_right (by decide) (jobId_lt x)
  have hword : (1 <<< x.val.toUInt64 : UInt64).toNat = 2 ^ x.val.toNat := by
    simpa [hx, Nat.shiftLeft_eq] using hlt
  rw [bit, BitVec.getLsbD, UInt64.toNat_toBitVec, hword, Nat.testBit_two_pow, decide_eq_true_eq]
  exact eq_comm

theorem onlyJob_shift : ∀ x : Fin 64, onlyJob ⟨1 <<< UInt64.ofNat x⟩ = .ok (UInt32.ofNat x) := by
  decide

theorem onlyJob_single (x : JobId) : onlyJob ⟨1 <<< x.val.toUInt64⟩ = .ok x.val := by
  have h := onlyJob_shift ⟨x.val.toNat, jobId_lt x⟩
  rwa [UInt32.ofNat_toNat, UInt64.ofNat_uInt32ToNat] at h

end Ids

/-! ## Histories -/

/-- An operation on the objects, which are known by what they are called. -/
inductive Op (V : Type) where
  /-- `v = Ids()` -/
  | empty (v : V)
  /-- `v = Ids(x)` -/
  | ofId (v : V) (x : JobId)
  /-- `v.add(w)` -/
  | add (v w : V)
  /-- `v.remove(w)` -/
  | remove (v w : V)
  /-- `v = a + b` -/
  | plus (v a b : V)
  /-- `v = a - b` -/
  | minus (v a b : V)
  /-- `v = a & b` -/
  | inter (v a b : V)

variable {V : Type} [DecidableEq V]

namespace Op

def run : Op V → (V → Ids) → Except Failure (V → Ids)
  | .empty v, s => .ok (Function.update s v Ids.none)
  | .ofId v x, s => do return Function.update s v (← Ids.ofId x.val)
  | .add v w, s => .ok (Function.update s v ((s v).add (s w)))
  | .remove v w, s => .ok (Function.update s v ((s v).remove (s w)))
  | .plus v a b, s => .ok (Function.update s v ((s a).union (s b)))
  | .minus v a b, s => .ok (Function.update s v ((s a).remove (s b)))
  | .inter v a b, s => .ok (Function.update s v ((s a).inter (s b)))

/-- The same of sets. -/
def apply : Op V → (V → Set JobId) → V → Set JobId
  | .empty v, S => Function.update S v ∅
  | .ofId v x, S => Function.update S v {x}
  | .add v w, S => Function.update S v (S v ∪ S w)
  | .remove v w, S => Function.update S v (S v \ S w)
  | .plus v a b, S => Function.update S v (S a ∪ S b)
  | .minus v a b, S => Function.update S v (S a \ S b)
  | .inter v a b, S => Function.update S v (S a ∩ S b)

/-- No id from 31 on is made a set of, and nothing is added to what has some of it. -/
def Safe : Op V → (V → Set JobId) → Prop
  | .ofId _ x, _ => x.val < 31
  | .add v w, S => Disjoint (S v) (S w)
  | _, _ => True

end Op

/-- What has been done, of objects that are empty to start with. -/
def run (ops : List (Op V)) : Except Failure (V → Ids) :=
  ops.foldlM (fun s op => op.run s) fun _ => Ids.none

def sets (ops : List (Op V)) : V → Set JobId := ops.foldl (fun S op => op.apply S) fun _ => ∅

/-- Each object has the members of its set, two are equal when their sets are, and `onlyJob` has
what there is one of. -/
structure Stands (s : V → Ids) (S : V → Set JobId) : Prop where
  mem : ∀ v i, (s v).mem i.val = true ↔ i ∈ S v
  eq_iff : ∀ v w, s v = s w ↔ S v = S w
  onlyJob : ∀ v i, S v = {i} → (s v).onlyJob = .ok i.val

omit [DecidableEq V] in
theorem stands_iff {s : V → Ids} {S : V → Set JobId} :
    Stands s S ↔ ∀ v i, (s v).bit i = true ↔ i ∈ S v := by
  constructor
  · intro h v i
    rw [← Ids.mem_eq_bit, h.mem]
  · intro h
    refine ⟨fun v i => by rw [Ids.mem_eq_bit, h], fun v w => ⟨fun heq => ?_, fun heq => ?_⟩,
      fun v i hi => ?_⟩
    · ext i
      rw [← h, ← h, heq]
    · refine Ids.ext_bit fun i => ?_
      rw [Bool.eq_iff_iff, h, h, heq]
    · have hword : s v = ⟨1 <<< i.val.toUInt64⟩ := by
        refine Ids.ext_bit fun j => ?_
        rw [Bool.eq_iff_iff, h, Ids.bit_single, decide_eq_true_eq, hi, Set.mem_singleton_iff]
      rw [hword, Ids.onlyJob_single]

theorem stands_update {s : V → Ids} {S : V → Set JobId} (h : Stands s S) (v : V) (x : Ids)
    (X : Set JobId) : Stands (Function.update s v x) (Function.update S v X) ↔
      ∀ i, x.bit i = true ↔ i ∈ X := by
  rw [stands_iff]
  constructor
  · intro hv i
    simpa using hv v i
  · intro hx w i
    by_cases hw : w = v
    · subst hw
      simpa using hx i
    · simpa [Function.update_of_ne hw] using stands_iff.mp h w i

omit [DecidableEq V] in
/-- A sum is the union just if there is nothing in both. -/
theorem stands_add {s : V → Ids} {S : V → Set JobId} (h : Stands s S) (v w : V) :
    (∀ i, ((s v).add (s w)).bit i = true ↔ i ∈ S v ∪ S w) ↔ Disjoint (S v) (S w) := by
  have hbit := stands_iff.mp h
  have hunion : (∀ i, ((s v).add (s w)).bit i = true ↔ i ∈ S v ∪ S w) ↔
      (s v).add (s w) = (s v).union (s w) := by
    constructor
    · intro hadd
      refine Ids.ext_bit fun i => ?_
      rw [Bool.eq_iff_iff, hadd, Ids.bit_union, Bool.or_eq_true, hbit, hbit, Set.mem_union]
    · intro hadd i
      rw [hadd, Ids.bit_union, Bool.or_eq_true, hbit, hbit, Set.mem_union]
  rw [hunion, Ids.add_eq_union_iff, Set.disjoint_left]
  constructor
  · intro hinter i hv hw
    have hboth : ((s v).inter (s w)).bit i = true := by
      rw [Ids.bit_inter, (hbit v i).mpr hv, (hbit w i).mpr hw]
      rfl
    rw [hinter, Ids.bit_none] at hboth
    exact Bool.false_ne_true hboth
  · intro hdisjoint
    refine Ids.ext_bit fun i => ?_
    rw [Ids.bit_inter, Ids.bit_none, Bool.and_eq_false_iff, ← Bool.not_eq_true, ← Bool.not_eq_true,
      hbit, hbit, ← not_and_or]
    exact fun hboth => hdisjoint hboth.1 hboth.2

/-- A word is made of an id that stands for it just if the shift does not come to the sign. -/
theorem ofId_iff (x : JobId) :
    (∃ w, Ids.ofId x.val = .ok w ∧ ∀ i, w.bit i = true ↔ i ∈ ({x} : Set JobId)) ↔ x.val < 31 := by
  constructor
  · rintro ⟨w, hw, hbit⟩
    by_contra hlt
    by_cases h31 : x.val = 31
    · obtain rfl : x = ⟨31, by decide⟩ := Subtype.ext h31
      obtain rfl : _ = w := Except.ok.inj hw
      -- the sign of the `int` fills the word
      have hhigh := (hbit ⟨32, by decide⟩).mp (by decide)
      exact absurd (congrArg Subtype.val hhigh) (by decide)
    · have h32 : 32 ≤ x.val := by
        rw [UInt32.le_iff_toNat_le]
        rw [UInt32.lt_iff_toNat_lt] at hlt
        rw [← UInt32.toNat_inj] at h31
        change 32 ≤ x.val.toNat
        change ¬x.val.toNat < 31 at hlt
        change x.val.toNat ≠ 31 at h31
        omega
      rw [Ids.ofId, if_pos h32] at hw
      cases hw
  · intro hlt
    exact ⟨_, Ids.ofId_of_lt hlt, fun i => by
      rw [Ids.bit_single, decide_eq_true_eq, Set.mem_singleton_iff]⟩

/-- One operation. -/
theorem stands_step_iff {s : V → Ids} {S : V → Set JobId} (h : Stands s S) (op : Op V) :
    (∃ s', op.run s = .ok s' ∧ Stands s' (op.apply S)) ↔ op.Safe S := by
  have hbit := stands_iff.mp h
  have hok : ∀ v x X, (∃ s', (Except.ok (Function.update s v x) : Except Failure _) = .ok s' ∧
      Stands s' (Function.update S v X)) ↔ ∀ i, x.bit i = true ↔ i ∈ X := by
    intro v x X
    simp only [Except.ok.injEq, exists_eq_left', stands_update h]
  cases op with
  | empty v => exact iff_of_true ((hok v _ _).mpr fun i => by simp) trivial
  | ofId v x =>
    refine Iff.trans ?_ (ofId_iff x)
    constructor
    · rintro ⟨s', hrun, hs'⟩
      cases hw : Ids.ofId x.val with
      | error e =>
        rw [Op.run, hw] at hrun
        cases hrun
      | ok w =>
        rw [Op.run, hw] at hrun
        exact ⟨w, rfl, (hok v w {x}).mp ⟨s', hrun, hs'⟩⟩
    · rintro ⟨w, hw, hx⟩
      rw [Op.run, hw]
      exact (hok v w {x}).mpr hx
  | add v w => exact (hok v _ _).trans (stands_add h v w)
  | remove v w =>
    exact iff_of_true ((hok v _ _).mpr fun i => by simp [hbit, ← Bool.not_eq_true]) trivial
  | plus v a b => exact iff_of_true ((hok v _ _).mpr fun i => by simp [hbit]) trivial
  | minus v a b =>
    exact iff_of_true ((hok v _ _).mpr fun i => by simp [hbit, ← Bool.not_eq_true]) trivial
  | inter v a b => exact iff_of_true ((hok v _ _).mpr fun i => by simp [hbit]) trivial

theorem run_concat (ops : List (Op V)) (op : Op V) :
    run (ops ++ [op]) = run ops >>= op.run := by
  rw [run, List.foldlM_append]
  simp [run]

@[simp] theorem sets_concat (ops : List (Op V)) (op : Op V) :
    sets (ops ++ [op]) = op.apply (sets ops) := by
  simp [sets]

/-- Every object stands for its set after each of a sequence of operations just if each of them is
safe where it is done. -/
theorem stands_always_iff (ops : List (Op V)) :
    (∀ done, done <+: ops → ∃ s, run done = .ok s ∧ Stands s (sets done)) ↔
      ∀ done op, done ++ [op] <+: ops → op.Safe (sets done) := by
  induction ops using List.reverseRecOn with
  | nil =>
    refine iff_of_true (fun done hdone => ?_) fun done op hdone => ?_
    · obtain rfl := List.prefix_nil.mp hdone
      exact ⟨_, rfl, stands_iff.mpr fun v i => by simp [sets]⟩
    · exact absurd (List.prefix_nil.mp hdone) (by simp)
  | append_singleton ops op ih =>
    have hinit : ops <+: ops ++ [op] := List.prefix_append ops [op]
    constructor
    · intro h done op' hdone
      have hsafe := ih.mp fun done hdone => h done (hdone.trans hinit)
      obtain hlast | hdone := List.prefix_concat_iff.mp hdone
      · obtain ⟨rfl, rfl⟩ : done = ops ∧ op' = op := by simpa using hlast
        obtain ⟨s, hrun, hs⟩ := h done hinit
        obtain ⟨s', hrun', hs'⟩ := h (done ++ [op']) (List.prefix_refl _)
        rw [run_concat, hrun] at hrun'
        exact (stands_step_iff hs op').mp ⟨s', hrun', sets_concat done op' ▸ hs'⟩
      · exact hsafe done op' hdone
    · intro h done hdone
      have hstands := ih.mpr fun done op hdone => h done op (hdone.trans hinit)
      obtain rfl | hdone := List.prefix_concat_iff.mp hdone
      · obtain ⟨s, hrun, hs⟩ := hstands ops (List.prefix_refl _)
        obtain ⟨s', hrun', hs'⟩ := (stands_step_iff hs op).mpr (h ops op (List.prefix_refl _))
        refine ⟨s', ?_, sets_concat ops op ▸ hs'⟩
        rw [run_concat, hrun]
        exact hrun'
      · exact hstands done hdone

/-- An id that is added to a set that has it is lost from it. -/
theorem not_stands_added_twice :
    ¬∃ s, run [.ofId () ⟨1, by decide⟩, .add () ()] = .ok s ∧
      Stands s (sets [.ofId () ⟨1, by decide⟩, .add () ()]) := by
  rintro ⟨s, hrun, hs⟩
  have hlost : (s ()).mem 1 = false := by
    cases hrun
    decide
  have hin := (hs.mem () ⟨1, by decide⟩).mpr (by simp [sets, Op.apply])
  rw [hlost] at hin
  exact Bool.false_ne_true hin

end Urnest.Dion
