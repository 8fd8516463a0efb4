import Mathlib.Tactic.Linarith
import Urnest.Cmc.Naming
import Urnest.Cmc.Order
import Urnest.Cmc.Session
import Urnest.Lib.Bisect

/-!
# Buckets of an interval

`get_buckets_of` looks for the buckets of a time interval between the starts that
`calc_bucket_start` has for the ends of it, both included. The interval does not have its end
in it, so where the end is the start of a bucket, that bucket is one too many
(`answersExactly_iff`).
-/

namespace Urnest.Cmc

open Lib Action

namespace TStore

/-- `get_buckets_of`; nothing, where one of the times is not in the years of `datetime`. -/
def getBucketsOf (t : TStore) (begin_ end_ : ℚ) : Option (List Bucket) := do
  let beginBucket ← Cmc.calcBucketStart t.attrs.hoursPerBucket begin_
  let endBucket ← Cmc.calcBucketStart t.attrs.hoursPerBucket end_
  let allBuckets := sortBuckets t.buckets.items
  let allStarts := allBuckets.map Prod.fst
  return cut allBuckets (bisectLeft allStarts beginBucket) (bisectRight allStarts endBucket)

variable {t : TStore}

/-- The seconds of a bucket -/
def span (t : TStore) : ℚ := 3600 * t.attrs.hoursPerBucket

/-- A time of the interval is one of the bucket's. -/
def Meets (t : TStore) (begin_ end_ : ℚ) (b : Bucket) : Prop :=
  ∃ x : ℚ, ((b.1 : ℚ) ≤ x ∧ x < b.1 + t.span) ∧ begin_ ≤ x ∧ x < end_

/-- The answer is the buckets that meet the interval, sorted, each once. -/
def AnswersExactly (t : TStore) (begin_ end_ : ℚ) : Prop :=
  ∃ bs, t.getBucketsOf begin_ end_ = some bs ∧
    bs.Pairwise (fun b c => notBehind b c = true) ∧ bs.Nodup ∧
      ∀ b, b ∈ bs ↔ b ∈ t.buckets.items ∧ t.Meets begin_ end_ b

/-- There is nothing at the start for the end of the interval, unless the interval has a part
of that bucket, and no bucket off the starts of the interval's ends reaches into it. -/
def NothingAtEnd (t : TStore) (begin_ end_ : ℚ) : Prop :=
  ∃ beginBucket endBucket : BucketStart,
    Cmc.calcBucketStart t.attrs.hoursPerBucket begin_ = some beginBucket ∧
    Cmc.calcBucketStart t.attrs.hoursPerBucket end_ = some endBucket ∧
    ∀ b ∈ t.buckets.items, (b.1 = endBucket → begin_ < end_ ∧ (endBucket : ℚ) < end_) ∧
      (begin_ < end_ → ¬ (begin_ - t.span < b.1 ∧ b.1 < beginBucket) ∧
        ¬ (endBucket < b.1 ∧ (b.1 : ℚ) < end_))

/-! ## Starts -/

theorem span_pos (t : TStore) : 0 < t.span := by
  have hhours : 0 < t.attrs.hoursPerBucket := by
    have hfactor := t.attrs.factorOf24
    refine Nat.pos_of_ne_zero fun hzero => ?_
    simp [hzero] at hfactor
  rw [span]
  positivity

theorem period_pos (t : TStore) : (0 : Int) < 3600 * t.attrs.hoursPerBucket := by
  have hspan := t.span_pos
  rw [span] at hspan
  exact_mod_cast hspan

theorem meets_iff_lt {begin_ end_ : ℚ} {b : Bucket} :
    t.Meets begin_ end_ b ↔ (b.1 : ℚ) < end_ ∧ begin_ < b.1 + t.span ∧ begin_ < end_ := by
  have hspan := t.span_pos
  constructor
  · rintro ⟨x, ⟨hstart, hlt⟩, hbegin, hend⟩
    exact ⟨hstart.trans_lt hend, hbegin.trans_lt hlt, hbegin.trans_lt hend⟩
  · rintro ⟨hend, hbegin, hlt⟩
    refine ⟨max b.1 begin_, ⟨le_max_left .., max_lt ?_ hbegin⟩, le_max_right .., max_lt hend hlt⟩
    linarith

/-- A time is in the period that begins with its start. -/
theorem calcBucketStart_bounds {timestamp : ℚ} {start : BucketStart}
    (h : Cmc.calcBucketStart t.attrs.hoursPerBucket timestamp = some start) :
    (start : ℚ) ≤ timestamp ∧ timestamp < start + t.span := by
  have hfactor : FactorOf24 t.attrs.hoursPerBucket := t.attrs.factorOf24
  have hstart := hfactor.start_eq h
  have hperiod := t.period_pos
  have hmod := Int.ediv_mul_add_emod timestamp.floor (3600 * t.attrs.hoursPerBucket)
  have hnonneg := Int.emod_nonneg timestamp.floor hperiod.ne'
  have hlt := Int.emod_lt_of_pos timestamp.floor hperiod
  rw [← hstart] at hmod
  have hle : start ≤ timestamp.floor := by linarith
  have hsucc : timestamp.floor + 1 ≤ start + 3600 * t.attrs.hoursPerBucket := by linarith
  constructor
  · exact Rat.le_floor_iff.mp hle
  · have hfloor : timestamp < ((timestamp.floor + 1 : Int) : ℚ) := by
      rw [← Rat.floor_lt_iff]
      exact Int.lt_succ _
    have hcast : ((timestamp.floor + 1 : Int) : ℚ) ≤ start + t.span := by
      rw [span]
      exact_mod_cast hsucc
    exact hfloor.trans_le hcast

/-- Starts are in the order of the times. -/
theorem calcBucketStart_le {timestamp timestamp' : ℚ} {start start' : BucketStart}
    (h : Cmc.calcBucketStart t.attrs.hoursPerBucket timestamp = some start)
    (h' : Cmc.calcBucketStart t.attrs.hoursPerBucket timestamp' = some start')
    (hle : timestamp ≤ timestamp') : start ≤ start' := by
  have hfactor : FactorOf24 t.attrs.hoursPerBucket := t.attrs.factorOf24
  rw [hfactor.start_eq h, hfactor.start_eq h']
  refine Int.mul_le_mul_of_nonneg_right ?_ (by positivity)
  exact Int.ediv_le_ediv t.period_pos (Rat.floor_monotone hle)

/-! ## Answers -/

theorem mem_getBucketsOf {begin_ end_ : ℚ} {beginBucket endBucket : BucketStart}
    (hbegin : Cmc.calcBucketStart t.attrs.hoursPerBucket begin_ = some beginBucket)
    (hend : Cmc.calcBucketStart t.attrs.hoursPerBucket end_ = some endBucket) :
    t.getBucketsOf begin_ end_ = some ((sortBuckets t.buckets.items).filter fun b =>
      beginBucket ≤ b.1 ∧ b.1 ≤ endBucket) := by
  have hsorted : (sortBuckets t.buckets.items).Pairwise fun b c => b.1 ≤ c.1 :=
    (sortBuckets_sorted _).imp fst_le_of_notBehind
  rw [getBucketsOf, hbegin, hend, ← cut_eq_filter hsorted]
  rfl

theorem getBucketsOf_eq_some {x y : ℚ} {bs : List Bucket} (h : t.getBucketsOf x y = some bs) :
    ∃ xBucket yBucket, Cmc.calcBucketStart t.attrs.hoursPerBucket x = some xBucket ∧
      Cmc.calcBucketStart t.attrs.hoursPerBucket y = some yBucket ∧
      bs = (sortBuckets t.buckets.items).filter fun b => xBucket ≤ b.1 ∧ b.1 ≤ yBucket := by
  obtain ⟨xBucket, hx, h'⟩ := Option.bind_eq_some_iff.mp h
  obtain ⟨yBucket, hy, -⟩ := Option.bind_eq_some_iff.mp h'
  exact ⟨xBucket, yBucket, hx, hy, Option.some.inj (h.symm.trans (mem_getBucketsOf hx hy))⟩

/-- What the two searches and the interval say of one start. -/
theorem between_iff_meets {start beginBucket endBucket begin_ end_ span : ℚ}
    (hle : begin_ ≤ end_) (hbegin : beginBucket ≤ begin_)
    (hbegin' : begin_ < beginBucket + span) (hend : endBucket ≤ end_)
    (hstarts : beginBucket ≤ endBucket) (hempty : begin_ = end_ → beginBucket = endBucket) :
    (beginBucket ≤ start ∧ start ≤ endBucket ↔
        start < end_ ∧ begin_ < start + span ∧ begin_ < end_) ↔
      (start = endBucket → begin_ < end_ ∧ endBucket < end_) ∧
        (begin_ < end_ → ¬ (begin_ - span < start ∧ start < beginBucket) ∧
          ¬ (endBucket < start ∧ start < end_)) := by
  rcases hle.lt_or_eq with hlt | heq
  · constructor
    · intro h
      refine ⟨?_, fun _ => ⟨?_, ?_⟩⟩
      · rintro rfl
        exact ⟨hlt, (h.mp ⟨hstarts, le_rfl⟩).1⟩
      · rintro ⟨hafter, hbefore⟩
        have hbetween := h.mpr ⟨by linarith, by linarith, hlt⟩
        linarith [hbetween.1]
      · rintro ⟨hafter, hbefore⟩
        have hbetween := h.mpr ⟨hbefore, by linarith, hlt⟩
        linarith [hbetween.2]
    · rintro ⟨hatEnd, hoff⟩
      obtain ⟨hearly, hlate⟩ := hoff hlt
      constructor
      · rintro ⟨hge, hle'⟩
        refine ⟨?_, by linarith, hlt⟩
        rcases hle'.lt_or_eq with hless | hsame
        · linarith
        · exact hsame ▸ (hatEnd hsame).2
      · rintro ⟨hbefore, hafter, -⟩
        exact ⟨not_lt.mp fun h => hearly ⟨by linarith, h⟩, not_lt.mp fun h => hlate ⟨h, hbefore⟩⟩
  · have hnot : ¬ begin_ < end_ := heq ▸ lt_irrefl _
    have hsame := hempty heq
    constructor
    · intro h
      refine ⟨?_, fun hlt => absurd hlt hnot⟩
      rintro rfl
      exact absurd (h.mp ⟨hstarts, le_rfl⟩).2.2 hnot
    · rintro ⟨hatEnd, -⟩
      refine iff_of_false (fun hbetween => ?_) fun h => hnot h.2.2
      exact hnot (hatEnd (le_antisymm hbetween.2 (hsame ▸ hbetween.1))).1

/-- Whether a bucket is rightly between the starts for the ends. -/
theorem between_iff {begin_ end_ : ℚ} {beginBucket endBucket : BucketStart}
    (hle : begin_ ≤ end_)
    (hbegin : Cmc.calcBucketStart t.attrs.hoursPerBucket begin_ = some beginBucket)
    (hend : Cmc.calcBucketStart t.attrs.hoursPerBucket end_ = some endBucket) (b : Bucket) :
    ((beginBucket ≤ b.1 ∧ b.1 ≤ endBucket) ↔ t.Meets begin_ end_ b) ↔
      (b.1 = endBucket → begin_ < end_ ∧ (endBucket : ℚ) < end_) ∧
        (begin_ < end_ → ¬ (begin_ - t.span < b.1 ∧ b.1 < beginBucket) ∧
          ¬ (endBucket < b.1 ∧ (b.1 : ℚ) < end_)) := by
  obtain ⟨hfrom, hto⟩ := calcBucketStart_bounds hbegin
  obtain ⟨hfrom', hto'⟩ := calcBucketStart_bounds hend
  have hstarts := calcBucketStart_le hbegin hend hle
  have hempty : begin_ = end_ → (beginBucket : ℚ) = endBucket := by
    intro heq
    rw [heq, hend] at hbegin
    rw [Option.some.inj hbegin]
  have hiff := @between_iff_meets b.1 _ _ _ _ _ hle hfrom hto hfrom'
    (Int.cast_le.mpr hstarts) hempty
  rw [meets_iff_lt]
  simpa only [Int.cast_le, Int.cast_lt, Int.cast_inj] using hiff

/-- The answer is right just where there is nothing at the end that the interval does not
reach, and nothing off the starts at its ends. -/
theorem answersExactly_iff (t : TStore) {begin_ end_ : ℚ} (hle : begin_ ≤ end_) :
    t.AnswersExactly begin_ end_ ↔ t.NothingAtEnd begin_ end_ := by
  constructor
  · rintro ⟨bs, hbs, -, -, hexact⟩
    obtain ⟨beginBucket, endBucket, hbegin, hend, rfl⟩ := getBucketsOf_eq_some hbs
    refine ⟨beginBucket, endBucket, hbegin, hend, fun b hb => ?_⟩
    have hb' := hexact b
    simp only [List.mem_filter, mem_sortBuckets, decide_eq_true_eq, hb, true_and] at hb'
    exact (between_iff hle hbegin hend b).mp hb'
  · rintro ⟨beginBucket, endBucket, hbegin, hend, hnothing⟩
    refine ⟨_, mem_getBucketsOf hbegin hend, (sortBuckets_sorted _).filter _,
      (nodup_sortBuckets t.buckets.nodup.of_map).filter _, fun b => ?_⟩
    simp only [List.mem_filter, mem_sortBuckets, decide_eq_true_eq]
    exact and_congr_right fun hb => (between_iff hle hbegin hend b).mpr (hnothing b hb)

/-- An hour in the middle of a bucket of two. -/
theorem answersExactly_iff_hour : (1800 : ℚ) ≤ 5400 ∧
    ((TStore.new ⟨2, 2, 10, by decide⟩).AnswersExactly 1800 5400 ↔
      (TStore.new ⟨2, 2, 10, by decide⟩).NothingAtEnd 1800 5400) :=
  ⟨by norm_num, answersExactly_iff _ (by norm_num)⟩

/-- The bucket that begins with the second hour is given for the first. -/
theorem not_answersExactly :
    ¬ (after Session.step (.new ⟨1, 2, 10, by decide⟩) [.createBucket (3600, "a")]).store.AnswersExactly
      0 3600 := by
  rintro ⟨bs, hbs, -, -, hexact⟩
  have hanswer : (after Session.step (.new ⟨1, 2, 10, by decide⟩)
      [.createBucket (3600, "a")]).store.getBucketsOf 0 3600 = some [(3600, "a")] := by
    decide +kernel
  obtain rfl := Option.some.inj (hanswer.symm.trans hbs)
  have hmeets := meets_iff_lt.mp ((hexact (3600, "a")).mp (List.mem_cons_self ..)).2
  norm_num at hmeets

end TStore

end Urnest.Cmc
