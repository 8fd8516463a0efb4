import Mathlib.Data.List.DropRight
import Urnest.Cmc.TStore
import Urnest.Lib.Calendar

/-!
# The names of bucket files

`get_path_of` writes the beginning of a bucket's period into the names of the directories
above its file: the year, the month, the day and the hour. Who reads the directory back
has `int` for the names, and `timegm` for the numbers (`int_zeroPadded`, `timegm_eq`).

`TStore.getPathOf` has the number of the period in place of the names, and the names
depend on nothing else of the start (`pathNames_getPathOf`).
-/

namespace Urnest.Cmc

open Lib Calendar

/-! ## Times -/

/-- The fields of a `struct_time` that are looked at. -/
structure StructTime where
  year : Int
  mon : Nat
  mday : Nat
  hour : Nat
  deriving DecidableEq, Repr

/-- The number of the day of the epoch. -/
def epochOrd : Int := 719163

/-- `time.gmtime` -/
def gmtime (seconds : Int) : StructTime :=
  let date := ofOrdinal (epochOrd + seconds / 86400)
  ⟨date.year, date.month, date.day, (seconds % 86400 / 3600).toNat⟩

/-- `calendar.timegm` of a time on the hour. It asks `datetime` for the first of the month,
which has to be one of the years 1 to 9999. -/
def timegm (year month mday hour : Int) : Option Int :=
  if 1 ≤ year ∧ year ≤ 9999 ∧ 1 ≤ month ∧ month ≤ 12 then
    let days := (Date.mk year month.toNat 1).toOrdinal - epochOrd + mday - 1
    some ((days * 24 + hour) * 60 * 60)
  else none

/-- The hour that a bucket's period begins with. -/
def roundHour (hoursPerBucket hour : Nat) : Nat := hoursPerBucket * (hour / hoursPerBucket)

/-- `calc_bucket_start`. A timestamp has fractions of a second, which `gmtime` drops. -/
def calcBucketStart (hoursPerBucket : Nat) (timestamp : ℚ) : Option Int :=
  let x := gmtime timestamp.floor
  timegm x.year x.mon x.mday (roundHour hoursPerBucket x.hour)

theorem toOrdinal_gmtime (seconds : Int) :
    (Date.mk (gmtime seconds).year (gmtime seconds).mon 1).toOrdinal + (gmtime seconds).mday - 1
      = epochOrd + seconds / 86400 := by
  have hordinal := toOrdinal_ofOrdinal (epochOrd + seconds / 86400)
  simp only [Date.toOrdinal, gmtime] at hordinal ⊢
  omega

theorem mon_gmtime (seconds : Int) : 1 ≤ (gmtime seconds).mon ∧ (gmtime seconds).mon ≤ 12 :=
  ⟨one_le_monthOf .., monthOf_le ..⟩

theorem hour_gmtime (seconds : Int) :
    ((gmtime seconds).hour : Int) = seconds % 86400 / 3600 := by
  simp only [gmtime]
  omega

/-- What `timegm` gives for the date of a time and some hour. -/
theorem timegm_eq {seconds : Int} {hour : Nat} {start : Int} :
    timegm (gmtime seconds).year (gmtime seconds).mon (gmtime seconds).mday hour = some start ↔
      (1 ≤ (gmtime seconds).year ∧ (gmtime seconds).year ≤ 9999) ∧
        start = seconds / 86400 * 86400 + hour * 3600 := by
  have hordinal := toOrdinal_gmtime seconds
  obtain ⟨hmon, hmon'⟩ := mon_gmtime seconds
  rw [timegm, Option.ite_none_right_eq_some, Option.some.injEq, Int.toNat_natCast]
  refine and_congr ⟨fun h => ⟨h.1, h.2.1⟩, fun h => ⟨h.1, h.2, by omega, by omega⟩⟩ ?_
  rw [eq_comm]
  refine iff_of_eq (congrArg _ ?_)
  omega

/-- Hours of a bucket, as the store checks them. -/
abbrev FactorOf24 (hoursPerBucket : Nat) : Prop := hoursPerBucket ∈ [1, 2, 3, 4, 6, 8, 12, 24]

/-- The day has a whole number of periods. -/
theorem FactorOf24.period {hoursPerBucket : Nat} (h : FactorOf24 hoursPerBucket) (start : Int) :
    start / 86400 * 86400 + roundHour hoursPerBucket (gmtime start).hour * 3600
      = start / (3600 * hoursPerBucket) * (3600 * hoursPerBucket) := by
  have hhour := hour_gmtime start
  simp only [FactorOf24, List.mem_cons, List.not_mem_nil, or_false] at h
  unfold roundHour
  rcases h with rfl | rfl | rfl | rfl | rfl | rfl | rfl | rfl <;> push_cast <;> omega

/-- The start of a bucket is the beginning of the period of its timestamp. -/
theorem FactorOf24.start_eq {hoursPerBucket : Nat} (h : FactorOf24 hoursPerBucket)
    {timestamp : ℚ} {start : Int} (hstart : calcBucketStart hoursPerBucket timestamp = some start) :
    start = timestamp.floor / (3600 * hoursPerBucket) * (3600 * hoursPerBucket) :=
  (timegm_eq.mp hstart).2.trans (h.period timestamp.floor)

/-- The starts of buckets are the beginnings of periods in the years of `datetime`. -/
theorem FactorOf24.calcBucketStart_eq {hoursPerBucket : Nat} (h : FactorOf24 hoursPerBucket)
    {timestamp : ℚ} {start : Int} (hstart : calcBucketStart hoursPerBucket timestamp = some start) :
    start % (3600 * hoursPerBucket) = 0 ∧
      1 ≤ (gmtime start).year ∧ (gmtime start).year ≤ 9999 := by
  obtain ⟨hyear, heq⟩ := timegm_eq.mp hstart
  have hround : roundHour hoursPerBucket (gmtime timestamp.floor).hour
      ≤ (gmtime timestamp.floor).hour := Nat.mul_div_le ..
  have hhour := hour_gmtime timestamp.floor
  have hday : start / 86400 = timestamp.floor / 86400 := by omega
  refine ⟨?_, ?_⟩
  · rw [h.start_eq hstart]
    exact Int.mul_emod_left ..
  · simpa only [gmtime, hday] using hyear

/-! ## Names -/

/-- Digits, with single underscores between them. -/
def isDecimal : List Char → Bool
  | [] => false
  | [c] => c.isDigit
  | c :: '_' :: cs => c.isDigit && isDecimal cs
  | c :: cs => c.isDigit && isDecimal cs

def decimal (cs : List Char) : Option Nat :=
  if isDecimal cs then some (Nat.ofDigitChars 10 (cs.filter (· ≠ '_')) 0) else none

/-- `int` of a name, if it has no digits but those of ASCII. -/
def int (name : String) : Option Int :=
  match (name.toList.dropWhile Char.isWhitespace).rdropWhile Char.isWhitespace with
  | '-' :: cs => (decimal cs).map fun n => -n
  | '+' :: cs => (decimal cs).map fun n => n
  | cs => (decimal cs).map fun n => n

/-- A number as text, of no less than a width. -/
def zeroPadded (width n : Nat) : String :=
  String.ofList (List.replicate (width - (Nat.toDigits 10 n).length) '0' ++ Nat.toDigits 10 n)

theorem isDecimal_of_digits {cs : List Char} (hne : cs ≠ []) (hcs : ∀ c ∈ cs, c.isDigit = true) :
    isDecimal cs = true := by
  induction cs using isDecimal.induct with
  | case1 => exact absurd rfl hne
  | case2 c => exact hcs c (List.mem_cons_self ..)
  | case3 c cs ih => exact absurd (hcs '_' (by simp)) (by decide)
  | case4 c cs hne' hnot ih =>
    rw [isDecimal, hcs c (List.mem_cons_self ..), ih ?_ fun d hd => hcs d (List.mem_cons_of_mem _ hd)]
    · rfl
    · exact hne'
    · exact hne'
    · exact hnot

theorem digit_ne {c : Char} (hc : c.isDigit = true) :
    c ≠ '-' ∧ c ≠ '+' ∧ c ≠ '_' ∧ c.isWhitespace = false := by
  refine ⟨?_, ?_, ?_, ?_⟩
  · rintro rfl
    exact absurd hc (by decide)
  · rintro rfl
    exact absurd hc (by decide)
  · rintro rfl
    exact absurd hc (by decide)
  · rw [Bool.eq_false_iff]
    intro hblank
    simp only [Char.isWhitespace, Bool.or_eq_true, decide_eq_true_eq] at hblank
    rcases hblank with ((rfl | rfl) | rfl) | rfl <;> exact absurd hc (by decide)

/-- What digits alone are read as. -/
theorem int_digits {cs : List Char} (hne : cs ≠ []) (hcs : ∀ c ∈ cs, c.isDigit = true) :
    int (String.ofList cs) = some ((Nat.ofDigitChars 10 cs 0 : Nat) : Int) := by
  have hleft : cs.dropWhile Char.isWhitespace = cs := by
    rw [List.dropWhile_eq_self_iff]
    intro hlength
    simpa using (digit_ne (hcs _ (List.getElem_mem hlength))).2.2.2
  have hright : cs.rdropWhile Char.isWhitespace = cs := by
    rw [List.rdropWhile_eq_self_iff]
    intro hne
    simpa using (digit_ne (hcs _ (List.getLast_mem hne))).2.2.2
  have hfilter : cs.filter (· ≠ '_') = cs :=
    List.filter_eq_self.mpr fun c hc => by simpa using (digit_ne (hcs c hc)).2.2.1
  have hdecimal : decimal cs = some (Nat.ofDigitChars 10 cs 0) := by
    rw [decimal, if_pos (isDecimal_of_digits hne hcs), hfilter]
  rw [int, String.toList_ofList, hleft, hright]
  split
  · exact absurd rfl (digit_ne (hcs '-' (List.mem_cons_self ..))).1
  · exact absurd rfl (digit_ne (hcs '+' (List.mem_cons_self ..))).2.1
  · rw [hdecimal]
    rfl

theorem int_zeroPadded (width n : Nat) : int (zeroPadded width n) = some (n : Int) := by
  rw [zeroPadded, int_digits]
  · rw [Nat.ofDigitChars_append, Nat.ofDigitChars_replicate_zero, Nat.mul_zero,
      Nat.ofDigitChars_ten_toDigits]
  · exact fun h => Nat.toDigits_ne_nil (List.append_eq_nil_iff.mp h).2
  · intro c hc
    rcases List.mem_append.mp hc with hc | hc
    · rw [List.eq_of_mem_replicate hc]
      rfl
    · exact Nat.isDigit_of_mem_toDigits (by decide) (by decide) hc

/-- A year is not padded. -/
theorem int_year {year : Int} (hyear : 1 ≤ year) : int (toString year) = some year := by
  obtain ⟨n, rfl⟩ := Int.eq_ofNat_of_zero_le (by omega : 0 ≤ year)
  have hzero : toString (n : Int) = zeroPadded 0 n := by
    rw [zeroPadded, Nat.zero_sub, List.replicate_zero, List.nil_append]
    exact Nat.repr_eq_ofList_toDigits
  rw [hzero, int_zeroPadded]

/-- `get_path_of`: the names on the way from the storage path to a bucket's file. -/
def pathNames (hoursPerBucket : Nat) (b : Bucket) : List String :=
  let x := gmtime b.1
  [toString x.year, zeroPadded 2 x.mon, zeroPadded 2 x.mday,
    zeroPadded 2 (roundHour hoursPerBucket x.hour), b.2 ++ ".txt"]

/-- The names of a period's directory and file. -/
def Path.names (hoursPerBucket : Nat) (p : Path) : List String :=
  pathNames hoursPerBucket (p.1 * (3600 * hoursPerBucket), p.2)

/-- The names say which period it is, and which bucket. -/
theorem pathNames_getPathOf (t : TStore) (b : Bucket) :
    (t.getPathOf b).names t.attrs.hoursPerBucket = pathNames t.attrs.hoursPerBucket b := by
  have hfactor : FactorOf24 t.attrs.hoursPerBucket := t.attrs.factorOf24
  obtain ⟨start, id⟩ : Int × BucketID := b
  have hperiod := hfactor.period start
  have hround : roundHour t.attrs.hoursPerBucket (gmtime start).hour ≤ (gmtime start).hour :=
    Nat.mul_div_le ..
  have hhour := hour_gmtime start
  have hday : start / (3600 * t.attrs.hoursPerBucket) * (3600 * t.attrs.hoursPerBucket) / 86400
      = start / 86400 := by omega
  have hbegin := hour_gmtime
    (start / (3600 * t.attrs.hoursPerBucket) * (3600 * t.attrs.hoursPerBucket))
  have hsame : (gmtime (start / (3600 * t.attrs.hoursPerBucket)
      * (3600 * t.attrs.hoursPerBucket))).hour
      = roundHour t.attrs.hoursPerBucket (gmtime start).hour := by omega
  have hidem : roundHour t.attrs.hoursPerBucket
      (roundHour t.attrs.hoursPerBucket (gmtime start).hour)
      = roundHour t.attrs.hoursPerBucket (gmtime start).hour := by
    rw [roundHour, roundHour, Nat.mul_div_cancel_left]
    exact Nat.pos_of_ne_zero fun hzero => by simp [FactorOf24, hzero] at hfactor
  simp only [TStore.getPathOf, Path.names, pathNames, hsame, hidem]
  simp only [gmtime, hday]

end Urnest.Cmc
