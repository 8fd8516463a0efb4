import Mathlib.Algebra.Order.Field.Rat
import Mathlib.Data.Fin.Basic
import Mathlib.Tactic.Linarith
import Mathlib.Tactic.NormNum
import Mathlib.Tactic.Positivity
import Mathlib.Tactic.FieldSimp

/-!
# Levels of disk use

`trackLevel` says which of a set of levels the use of a file system is at, with half a percent of
hysteresis on the way down. What it is for is said about the exact ratio of blocks in use
(`Prescribed`); what it computes compares blocks in use with a threshold for each level, which is
cut to a multiple of the whole hundredths of the total. Thresholds are too low by what is cut, so a
level is taken for reached too early, and kept for too long (`Misjudged`).
-/

namespace Urnest.DiskSpace

/-- A percentage is made from an `int` only in this range. -/
abbrev Percent := Fin 101

structure FileSystemStat where
  blocksTotal : Nat
  blocksFree : Nat
  deriving DecidableEq

/-- A `std::set<Percent>` as `trackLevel` may be given: in ascending order, with 0%. -/
structure Levels where
  percents : List Percent
  ascending : percents.Pairwise (· < ·)
  zero_mem : 0 ∈ percents

/-- Arithmetic of `size_t`. -/
def sizeT (n : Nat) : Nat := n % 2 ^ 64

theorem sizeT_of_lt {n : Nat} (h : n < 2 ^ 64) : sizeT n = n := Nat.mod_eq_of_lt h

/-! ## The code -/

/-- `insert` of a `std::map`: a key that is there already keeps its value. -/
def insert (entry : Nat × Percent) : List (Nat × Percent) → List (Nat × Percent)
  | [] => [entry]
  | e :: m =>
    if entry.1 < e.1 then entry :: e :: m
    else if entry.1 = e.1 then e :: m
    else e :: insert entry m

/-- `xju::prev(levels.upper_bound(blocks))`; nothing if there is no entry up to these blocks. -/
def prevUpperBound (levels : List (Nat × Percent)) (blocks : Nat) : Option Percent :=
  ((levels.filter fun e => e.1 ≤ blocks).getLast?).map Prod.snd

section
variable (counts : FileSystemStat)

/-- Blocks in all, a hundred times as many if they are few. -/
def blocksTotal : Nat :=
  if counts.blocksTotal < 100 then sizeT (counts.blocksTotal * 100) else counts.blocksTotal

def blocksFree : Nat :=
  if counts.blocksTotal < 100 then sizeT (counts.blocksFree * 100) else counts.blocksFree

def blocksInUse : Nat :=
  blocksTotal counts - min (blocksFree counts) (blocksTotal counts)

/-- Blocks from which on a level is taken for reached. -/
def threshold (x : Percent) : Nat := sizeT (blocksTotal counts / 100 * x)

def halfPercent : Nat := blocksTotal counts / 200

end

/-- The result is a level, for the iterator that points to it. -/
def trackLevel (previous : Percent) (percentLevels : Levels) (counts : FileSystemStat) :
    Option Percent := do
  let levels := percentLevels.percents.foldl (fun m x => insert (threshold counts x, x) m) []
  let i ← prevUpperBound levels (blocksInUse counts)
  if i > previous then
    percentLevels.percents.find? (· = i)
  else
    let i ← prevUpperBound levels (sizeT (blocksInUse counts + halfPercent counts))
    if i < previous then percentLevels.percents.find? (· = i) else some previous

/-! ## What it is for -/

/-- The highest of the levels of which something holds. -/
def IsHighest (levels : Levels) (p : Percent → Prop) (x : Percent) : Prop :=
  x ∈ levels.percents ∧ p x ∧ ∀ y ∈ levels.percents, p y → y ≤ x

def inUse (counts : FileSystemStat) : Nat :=
  counts.blocksTotal - min counts.blocksFree counts.blocksTotal

/-- The ratio of blocks in use. -/
def use (counts : FileSystemStat) : ℚ := (inUse counts : ℚ) / counts.blocksTotal

def percent (x : Percent) : ℚ := (x : ℚ) / 100

/-- The level after the one before: above it, the highest that is reached; the same, unless use is
more than half a percent below it; and else the highest that use is not more than that below. -/
def Prescribed (previous : Percent) (levels : Levels) (counts : FileSystemStat)
    (result : Percent) : Prop :=
  (previous < result ∧ IsHighest levels (fun x => percent x ≤ use counts) result) ∨
  (∀ x ∈ levels.percents, percent x ≤ use counts → x ≤ previous) ∧
    ((percent previous - 1 / 200 ≤ use counts ∧ result = previous) ∨
      (use counts < percent previous - 1 / 200 ∧
        IsHighest levels (fun x => percent x ≤ use counts + 1 / 200) result))

/-- Use is between the threshold of a level, which is cut, and the level: of a level above the one
before, or, if none of these is taken for reached, of one up to it with half a percent to spare. -/
def Misjudged (previous : Percent) (levels : Levels) (counts : FileSystemStat) : Prop :=
  100 ≤ counts.blocksTotal ∧
    ((∃ x ∈ levels.percents, previous < x ∧ counts.blocksTotal / 100 * x ≤ inUse counts ∧
        100 * inUse counts < counts.blocksTotal * x) ∨
      (∀ x ∈ levels.percents, previous < x → inUse counts < counts.blocksTotal / 100 * x) ∧
        ∃ x ∈ levels.percents, x ≤ previous ∧
          counts.blocksTotal / 100 * x ≤ inUse counts + counts.blocksTotal / 200 ∧
          200 * inUse counts + counts.blocksTotal < 2 * (counts.blocksTotal * x))

/-! ## The map of levels -/

theorem insert_of_lt {entry : Nat × Percent} {m : List (Nat × Percent)}
    (h : ∀ e ∈ m, e.1 < entry.1) : insert entry m = m ++ [entry] := by
  induction m with
  | nil => rfl
  | cons e m ih =>
    obtain ⟨he, hm⟩ := List.forall_mem_cons.mp h
    rw [insert, if_neg (Nat.lt_asymm he), if_neg (Nat.ne_of_gt he), ih hm, List.cons_append]

/-- Thresholds that ascend with the levels do not collide. -/
theorem foldl_insert {f : Percent → Nat} (hf : StrictMono f) {percents : List Percent}
    (hpercents : percents.Pairwise (· < ·)) {m : List (Nat × Percent)}
    (hm : ∀ e ∈ m, ∀ x ∈ percents, e.1 < f x) :
    percents.foldl (fun m x => insert (f x, x) m) m = m ++ percents.map fun x => (f x, x) := by
  induction percents generalizing m with
  | nil => simp
  | cons x percents ih =>
    obtain ⟨hx, hpercents⟩ := List.pairwise_cons.mp hpercents
    rw [List.foldl_cons, insert_of_lt fun e he => hm e he x List.mem_cons_self, ih hpercents]
    · simp
    · intro e he y hy
      obtain he | he := List.mem_append.mp he
      · exact hm e he y (List.mem_cons_of_mem _ hy)
      · obtain rfl := List.mem_singleton.mp he
        exact hf (hx y hy)

theorem le_getLast? {l : List Percent} (hl : l.Pairwise (· < ·)) {x : Percent}
    (hx : l.getLast? = some x) : ∀ y ∈ l, y ≤ x := by
  obtain ⟨init, rfl⟩ := List.getLast?_eq_some_iff.mp hx
  intro y hy
  obtain hy | hy := List.mem_append.mp hy
  · exact ((List.pairwise_append.mp hl).2.2 y hy x (List.mem_singleton_self x)).le
  · exact (List.mem_singleton.mp hy).le

/-- Stepping back from the upper bound is to the highest level whose threshold is reached. -/
theorem prevUpperBound_isHighest (levels : Levels) {f : Percent → Nat} (hf : StrictMono f)
    (hzero : f 0 = 0) (blocks : Nat) :
    ∃ x, prevUpperBound (levels.percents.foldl (fun m x => insert (f x, x) m) []) blocks = some x
      ∧ IsHighest levels (fun x => f x ≤ blocks) x := by
  have hfilter : prevUpperBound (levels.percents.foldl (fun m x => insert (f x, x) m) []) blocks
      = (levels.percents.filter fun x => f x ≤ blocks).getLast? := by
    rw [foldl_insert hf levels.ascending fun e he => absurd he List.not_mem_nil, prevUpperBound,
      List.nil_append, List.filter_map, List.getLast?_map, Option.map_map]
    exact Option.map_id'
  have hne : (levels.percents.filter fun x => f x ≤ blocks) ≠ [] :=
    List.ne_nil_of_mem (List.mem_filter.mpr ⟨levels.zero_mem, by simp [hzero]⟩)
  obtain ⟨x, hx⟩ : ∃ x, _ = some x := ⟨_, List.getLast?_eq_some_getLast hne⟩
  obtain ⟨hmem, hreached⟩ := List.mem_filter.mp (List.mem_of_getLast? hx)
  refine ⟨x, hfilter.trans hx, hmem, of_decide_eq_true hreached, fun y hy hreached => ?_⟩
  exact le_getLast? (levels.ascending.filter _) hx y
    (List.mem_filter.mpr ⟨hy, decide_eq_true hreached⟩)

/-! ## Judging by thresholds -/

theorem find?_mem {levels : Levels} {x : Percent} (hx : x ∈ levels.percents) :
    levels.percents.find? (· = x) = some x := by
  obtain ⟨y, hy⟩ : ∃ y, levels.percents.find? (· = x) = some y :=
    Option.isSome_iff_exists.mp (List.find?_isSome.mpr ⟨x, hx, decide_eq_true rfl⟩)
  have heq := List.find?_some hy
  rw [hy, of_decide_eq_true heq]

section
variable {levels : Levels} {previous a b : Percent}
  {reached within taken kept : Percent → Prop}

/-- What is prescribed of levels that are reached, or within half a percent. -/
def PrescribedBy (previous : Percent) (levels : Levels) (reached within : Percent → Prop)
    (result : Percent) : Prop :=
  (previous < result ∧ IsHighest levels reached result) ∨
  (∀ x ∈ levels.percents, reached x → x ≤ previous) ∧
    ((within previous ∧ result = previous) ∨ (¬within previous ∧ IsHighest levels within result))

/-- A level is judged right unless, of those that may be gone to, one is taken for reached, or kept
for within, that is not: the highest of them is then one of these as well. -/
theorem prescribedBy_iff (hprevious : previous ∈ levels.percents)
    (hreached : ∀ {x y}, x ≤ y → reached y → reached x)
    (hwithin : ∀ {x y}, x ≤ y → within y → within x) (hkept : ∀ {x y}, x ≤ y → kept y → kept x)
    (hreached_taken : ∀ {x}, reached x → taken x) (hwithin_kept : ∀ {x}, within x → kept x)
    (ha : IsHighest levels taken a) (hb : IsHighest levels kept b) :
    PrescribedBy previous levels reached within
        (if previous < a then a else if b < previous then b else previous) ↔
      ¬((∃ x ∈ levels.percents, previous < x ∧ taken x ∧ ¬reached x) ∨
        (∀ x ∈ levels.percents, previous < x → ¬taken x) ∧
          ∃ x ∈ levels.percents, x ≤ previous ∧ kept x ∧ ¬within x) := by
  have hle : ∀ x ∈ levels.percents, reached x → x ≤ a :=
    fun x hx h => ha.2.2 x hx (hreached_taken h)
  by_cases hup : previous < a
  · rw [if_pos hup]
    constructor
    · rintro h (⟨x, hx, -, htaken, hnot⟩ | ⟨hnone, -⟩)
      · -- the level gone to is at least this one, and so not reached either
        have hnot' : ¬reached a := fun h => hnot (hreached (ha.2.2 x hx htaken) h)
        rcases h with h | ⟨-, ⟨-, h⟩ | ⟨hprev, h⟩⟩
        · exact hnot' h.2.2.1
        · exact absurd h hup.ne'
        · exact hprev (hwithin hup.le h.2.1)
      · exact hnone a ha.1 hup ha.2.1
    · intro h
      have hreach : reached a := by_contra fun hnot => h (.inl ⟨a, ha.1, hup, ha.2.1, hnot⟩)
      exact .inl ⟨hup, ha.1, hreach, hle⟩
  · rw [if_neg hup]
    have hnone : ∀ x ∈ levels.percents, previous < x → ¬taken x :=
      fun x hx hlt htaken => hup (hlt.trans_le (ha.2.2 x hx htaken))
    constructor
    · rintro h (⟨x, hx, hlt, htaken, -⟩ | ⟨-, x, hx, hxle, hxkept, hnot⟩)
      · exact hnone x hx hlt htaken
      · have hprev : ¬within previous := fun h => hnot (hwithin hxle h)
        split_ifs at h with hdown
        · rcases h with h | ⟨-, h | h⟩
          · exact lt_asymm hdown h.1
          · exact hprev h.1
          · exact hnot (hwithin (hb.2.2 x hx hxkept) h.2.2.1)
        · rcases h with h | ⟨-, h | h⟩
          · exact lt_irrefl _ h.1
          · exact hprev h.1
          · exact hprev h.2.2.1
    · intro h
      have hright : ∀ x ∈ levels.percents, x ≤ previous → kept x → within x :=
        fun x hx hxle hxkept => by_contra fun hnot => h (.inr ⟨hnone, x, hx, hxle, hxkept, hnot⟩)
      refine .inr ⟨fun x hx h => (hle x hx h).trans (not_lt.mp hup), ?_⟩
      split_ifs with hdown
      · have hprev : ¬within previous :=
          fun h => absurd (hb.2.2 previous hprevious (hwithin_kept h)) (not_le.mpr hdown)
        exact .inr ⟨hprev, hb.1, hright b hb.1 hdown.le hb.2.1,
          fun x hx h => hb.2.2 x hx (hwithin_kept h)⟩
      · exact .inl ⟨hright previous hprevious le_rfl (hkept (not_lt.mp hdown) hb.2.1), rfl⟩

end

/-! ## Ratios and blocks -/

variable {counts : FileSystemStat} {previous : Percent} {levels : Levels}

theorem percent_le_use_iff (htotal : 1 ≤ counts.blocksTotal) (x : Percent) :
    percent x ≤ use counts ↔ counts.blocksTotal * x ≤ 100 * inUse counts := by
  have hpos : (0 : ℚ) < counts.blocksTotal := by exact_mod_cast htotal
  rw [percent, use, div_le_div_iff₀ (by norm_num) hpos]
  constructor
  · intro h
    have h' : (x : Nat) * counts.blocksTotal ≤ inUse counts * 100 := by exact_mod_cast h
    linarith
  · intro h
    have h' : (counts.blocksTotal : ℚ) * x ≤ 100 * inUse counts := by exact_mod_cast h
    linarith

theorem percent_le_use_half_iff (htotal : 1 ≤ counts.blocksTotal) (x : Percent) :
    percent x ≤ use counts + 1 / 200 ↔
      2 * (counts.blocksTotal * x) ≤ 200 * inUse counts + counts.blocksTotal := by
  have hpos : (0 : ℚ) < counts.blocksTotal := by exact_mod_cast htotal
  have hsum : use counts + 1 / 200
      = (200 * inUse counts + counts.blocksTotal) / (200 * counts.blocksTotal) := by
    rw [use]
    field_simp
  rw [percent, hsum, div_le_div_iff₀ (by norm_num) (by positivity)]
  constructor
  · intro h
    have h' : 2 * ((counts.blocksTotal : ℚ) * x) ≤ 200 * inUse counts + counts.blocksTotal := by
      linarith
    exact_mod_cast h'
  · intro h
    have h' : 2 * ((counts.blocksTotal : ℚ) * x) ≤ 200 * inUse counts + counts.blocksTotal := by
      exact_mod_cast h
    linarith

theorem prescribed_iff (htotal : 1 ≤ counts.blocksTotal) (result : Percent) :
    Prescribed previous levels counts result ↔ PrescribedBy previous levels
      (fun x => counts.blocksTotal * x ≤ 100 * inUse counts)
      (fun x => 2 * (counts.blocksTotal * x) ≤ 200 * inUse counts + counts.blocksTotal) result := by
  have hhalf : percent previous - 1 / 200 ≤ use counts ↔ percent previous ≤ use counts + 1 / 200 :=
    sub_le_iff_le_add
  have hbelow : use counts < percent previous - 1 / 200 ↔
      ¬percent previous ≤ use counts + 1 / 200 := by rw [← not_le, hhalf]
  simp only [Prescribed, PrescribedBy, IsHighest, hhalf, hbelow, percent_le_use_iff htotal,
    percent_le_use_half_iff htotal]

/-! ## Blocks of few and of many -/

section Few
variable (hfew : counts.blocksTotal < 100) (hfree : counts.blocksFree ≤ 2 ^ 57)
include hfew

theorem blocksTotal_few : blocksTotal counts = 100 * counts.blocksTotal := by
  rw [blocksTotal, if_pos hfew, sizeT_of_lt (by omega), Nat.mul_comm]

include hfree in
theorem blocksInUse_few : blocksInUse counts = 100 * inUse counts := by
  rw [blocksInUse, blocksTotal_few hfew, blocksFree, if_pos hfew, sizeT_of_lt (by omega), inUse]
  omega

theorem threshold_few (x : Percent) : threshold counts x = counts.blocksTotal * x := by
  have hle : counts.blocksTotal * x ≤ 99 * 100 := Nat.mul_le_mul (by omega) (by omega)
  rw [threshold, blocksTotal_few hfew, Nat.mul_div_cancel_left _ (by norm_num),
    sizeT_of_lt (by omega)]

include hfree in
theorem kept_few : sizeT (blocksInUse counts + halfPercent counts)
    = 100 * inUse counts + counts.blocksTotal / 2 := by
  have hle : inUse counts ≤ counts.blocksTotal := Nat.sub_le _ _
  rw [blocksInUse_few hfew hfree, halfPercent, blocksTotal_few hfew, sizeT_of_lt (by omega)]
  omega

end Few

section Many
variable (hmany : 100 ≤ counts.blocksTotal) (hle : counts.blocksTotal ≤ 2 ^ 57)
include hmany

theorem blocksTotal_many : blocksTotal counts = counts.blocksTotal :=
  if_neg (Nat.not_lt.mpr hmany)

theorem blocksInUse_many : blocksInUse counts = inUse counts := by
  rw [blocksInUse, blocksTotal_many hmany, blocksFree, if_neg (Nat.not_lt.mpr hmany), inUse]

include hle in
theorem threshold_many (x : Percent) :
    threshold counts x = counts.blocksTotal / 100 * x := by
  have hx : counts.blocksTotal / 100 * x ≤ counts.blocksTotal / 100 * 100 :=
    Nat.mul_le_mul_left _ (by omega)
  rw [threshold, blocksTotal_many hmany, sizeT_of_lt (by omega)]

include hle in
theorem kept_many : sizeT (blocksInUse counts + halfPercent counts)
    = inUse counts + counts.blocksTotal / 200 := by
  have hin : inUse counts ≤ counts.blocksTotal := Nat.sub_le _ _
  rw [blocksInUse_many hmany, halfPercent, blocksTotal_many hmany, sizeT_of_lt (by omega)]

end Many

theorem strictMono_mul {q : Nat} (hq : 0 < q) : StrictMono fun x : Percent => q * (x : Nat) :=
  fun _ _ h => Nat.mul_lt_mul_of_pos_left h hq

theorem mul_le_of_le {q n : Nat} {x y : Percent} (hxy : x ≤ y) (h : q * (y : Nat) ≤ n) :
    q * (x : Nat) ≤ n :=
  (Nat.mul_le_mul_left q hxy).trans h

/-- The result, by the thresholds of levels. -/
theorem trackLevel_eq (previous : Percent) (levels : Levels) {f : Percent → Nat}
    (hf : threshold counts = f) (hmono : StrictMono f) (hzero : f 0 = 0) : ∃ a b,
      IsHighest levels (fun x => f x ≤ blocksInUse counts) a ∧
      IsHighest levels (fun x => f x ≤ sizeT (blocksInUse counts + halfPercent counts)) b ∧
      trackLevel previous levels counts
        = some (if previous < a then a else if b < previous then b else previous) := by
  obtain ⟨a, hprev, ha⟩ := prevUpperBound_isHighest levels hmono hzero (blocksInUse counts)
  obtain ⟨b, hprev', hb⟩ := prevUpperBound_isHighest levels hmono hzero
    (sizeT (blocksInUse counts + halfPercent counts))
  refine ⟨a, b, ha, hb, ?_⟩
  rw [trackLevel, hf]
  simp only [hprev, hprev', Option.bind_eq_bind, Option.bind_some, gt_iff_lt, find?_mem ha.1,
    find?_mem hb.1]
  split_ifs <;> rfl

theorem within_of_le {total used : Nat} {x y : Percent} (hxy : x ≤ y)
    (h : 2 * (total * (y : Nat)) ≤ 200 * used + total) :
    2 * (total * (x : Nat)) ≤ 200 * used + total :=
  (Nat.mul_le_mul_left 2 (Nat.mul_le_mul_left total hxy)).trans h

/-- A threshold is cut by less than what it is of: what is reached is taken for reached. -/
theorem cut_le_of_le {total used x : Nat} (h : total * x ≤ 100 * used) :
    total / 100 * x ≤ used := by
  have hcut : 100 * (total / 100) * x ≤ total * x := Nat.mul_le_mul_right x (Nat.mul_div_le _ _)
  rw [Nat.mul_assoc] at hcut
  omega

theorem cut_le_of_le_half {total used x : Nat} (h : 2 * (total * x) ≤ 200 * used + total) :
    total / 100 * x ≤ used + total / 200 := by
  have hcut : 100 * (total / 100) * x ≤ total * x := Nat.mul_le_mul_right x (Nat.mul_div_le _ _)
  rw [Nat.mul_assoc] at hcut
  omega

/-- Thresholds of few blocks, which are counted in hundredths, are not cut. -/
theorem prescribed_few (hprevious : previous ∈ levels.percents) (htotal : 1 ≤ counts.blocksTotal)
    (hfree : counts.blocksFree ≤ 2 ^ 57) (hfew : counts.blocksTotal < 100) :
    ∃ result, trackLevel previous levels counts = some result ∧
      Prescribed previous levels counts result := by
  obtain ⟨a, b, ha, hb, hresult⟩ := trackLevel_eq previous levels
    (funext (threshold_few hfew)) (strictMono_mul htotal) (Nat.mul_zero _)
  rw [blocksInUse_few hfew hfree] at ha
  rw [kept_few hfew hfree] at hb
  refine ⟨_, hresult, (prescribed_iff htotal _).mpr ?_⟩
  refine (prescribedBy_iff hprevious mul_le_of_le within_of_le mul_le_of_le id
    (fun h => ?_) ha hb).mpr ?_
  · omega
  · rintro (⟨x, -, -, htaken, hnot⟩ | ⟨-, x, -, -, hkept, hnot⟩)
    · exact hnot htaken
    · exact hnot (by omega)

theorem prescribed_many (hprevious : previous ∈ levels.percents)
    (hle : counts.blocksTotal ≤ 2 ^ 57) (hmany : 100 ≤ counts.blocksTotal) :
    (∃ result, trackLevel previous levels counts = some result ∧
        Prescribed previous levels counts result) ↔ ¬Misjudged previous levels counts := by
  obtain ⟨a, b, ha, hb, hresult⟩ := trackLevel_eq previous levels
    (funext (threshold_many hmany hle)) (strictMono_mul (Nat.div_pos hmany (by norm_num)))
    (Nat.mul_zero _)
  rw [blocksInUse_many hmany] at ha
  rw [kept_many hmany hle] at hb
  simp only [hresult, Option.some.injEq, exists_eq_left']
  rw [prescribed_iff (by omega), prescribedBy_iff hprevious mul_le_of_le within_of_le mul_le_of_le
    (fun {x} h => ?_) (fun {x} h => ?_) ha hb, Misjudged, and_iff_right hmany]
  · simp only [not_le]
  · exact cut_le_of_le h
  · exact cut_le_of_le_half h

/-- What is prescribed results unless use is between the threshold of a level and the level. -/
theorem trackLevel_prescribed_iff (previous : Percent) (levels : Levels) (counts : FileSystemStat)
    (hprevious : previous ∈ levels.percents) (htotal : 1 ≤ counts.blocksTotal)
    (hle : counts.blocksTotal ≤ 2 ^ 57) (hfree : counts.blocksFree ≤ 2 ^ 57) :
    (∃ result, trackLevel previous levels counts = some result ∧
        Prescribed previous levels counts result) ↔ ¬Misjudged previous levels counts := by
  by_cases hfew : counts.blocksTotal < 100
  · refine iff_of_true (prescribed_few hprevious htotal hfree hfew) fun h => ?_
    exact absurd h.1 (Nat.not_le.mpr hfew)
  · exact prescribed_many hprevious hle (Nat.not_lt.mp hfew)

/-- 0% and 50%. -/
def halves : Levels := ⟨[0, 50], by decide, by decide⟩

theorem trackLevel_prescribed_iff_halves :
    (∃ result, trackLevel 0 halves ⟨200, 100⟩ = some result ∧
        Prescribed 0 halves ⟨200, 100⟩ result) ↔ ¬Misjudged 0 halves ⟨200, 100⟩ :=
  trackLevel_prescribed_iff 0 halves ⟨200, 100⟩ (by decide) (by decide) (by decide) (by decide)

/-- A quarter of 199 blocks are taken for half of them. -/
theorem trackLevel_quarter_of_199 :
    trackLevel 0 halves ⟨199, 149⟩ = some 50 ∧ ¬Prescribed 0 halves ⟨199, 149⟩ 50 := by
  refine ⟨by decide, fun h => ?_⟩
  have hreached : ¬percent 50 ≤ use ⟨199, 149⟩ := by
    rw [percent_le_use_iff (by decide)]
    decide
  rcases h with ⟨-, -, h, -⟩ | ⟨-, ⟨-, h⟩ | ⟨-, -, h, -⟩⟩
  · exact hreached h
  · exact absurd h (by decide)
  · rw [percent_le_use_half_iff (by decide)] at h
    exact absurd h (by decide)

end Urnest.DiskSpace
