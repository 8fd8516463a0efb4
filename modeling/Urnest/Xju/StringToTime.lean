import Mathlib
import Urnest.Json.Number
import Urnest.Lib.Calendar

/-!
# Times of day and dates as text

`stringToTime` tries a date with a time and then a time alone. Either way `parseHHMM` cuts the
time into hours, minutes and what tells morning from afternoon, and twice makes the text of an
exception that it does not throw: the cuts after that go beyond the end of a text that is too
short. Numbers are read by `strtol`, which takes more than digits.

What a text denotes is `Denotes`. It is what comes of it, and nothing comes of a text that denotes
nothing, on the conditions that `stringToTime_meets_iff` has.
-/

namespace Urnest.Xju

open Lib Hcp Json

namespace StringToTime

/-! ## The code -/

inductive Failure where
  | exception (e : Json.Exception)
  /-- characters beyond the end of a text are read -/
  | undefined
  deriving DecidableEq

/-- What comes of a call, and `errno` after it. -/
abbrev Outcome (α : Type) := Except Failure α × Nat

/-- The members of a `struct tm` that are set. -/
structure Tm where
  tm_year : Int
  tm_mon : Int
  tm_mday : Int
  tm_hour : Int
  tm_min : Int
  tm_sec : Int
  tm_yday : Int
  tm_isdst : Int
  deriving DecidableEq

def throwing {α : Type} (cause : String) (errno : Nat) : Outcome α :=
  (.error (.exception { cause := cause }), errno)

/-- A `catch` that adds context. -/
def inContext {α : Type} (context : String) : Outcome α → Outcome α
  | (.error (.exception e), errno) => (.error (.exception (e.addContext context)), errno)
  | r => r

/-- A call of what may throw, and then the rest. -/
def after {α β : Type} : Outcome α → (α → Nat → Outcome β) → Outcome β
  | (.ok a, errno), rest => rest a errno
  | (.error e, errno), _ => (.error e, errno)

def readInt (value : List Char) (errno : Nat) : Outcome Int32 :=
  match stringToInt value errno with
  | (.ok x, errno) => (.ok x, errno)
  | (.error e, errno) => (.error (.exception e), errno)

/-- `std::string(x.begin() + i, x.begin() + j)` -/
def cut {α : Type} (x : List Char) (i j : Nat) (errno : Nat)
    (rest : List Char → Outcome α) : Outcome α :=
  if j ≤ x.length then rest ((x.take j).drop i) else (.error .undefined, errno)

def skipWhite (x : List Char) : List Char := x.dropWhile isspace

/-- What is before the first of a character, and the rest from there. -/
def parseToChar (x : List Char) (c : Char) (errno : Nat) : Outcome (List Char × List Char) :=
  inContext ("parse to first occurrance of '" ++ String.ofList [c] ++ "' in " ++
      Json.quote ("parse to first occurrance of '" ++ String.ofList [c] ++ "' in ").toList) <|
    if c ∈ x then (.ok (x.takeWhile (· ≠ c), x.dropWhile (· ≠ c)), errno)
    else throwing ("no '" ++ String.ofList [c] ++ "' found") errno

def am : List Char := ['a', 'm']

def pm : List Char := ['p', 'm']

/-- Hours of the day, from those of its half. -/
def hoursOfDay (ampm : List Char) (hours : UInt32) : UInt32 :=
  if ampm.head? = some 'p' ∨ ampm.head? = some 'P' then if hours ≠ 12 then hours + 12 else hours
  else if hours = 12 then 0 else hours

/-- Hours and minutes, and the text after them. -/
def parseHHMM (x : List Char) (errno : Nat) : Outcome ((UInt32 × UInt32) × List Char) :=
  inContext ("parse " ++ Json.quote x ++ " assuming it looks like e.g. 5:30pm") <|
    after (parseToChar x ':' errno) fun hs errno =>
      if hs.1.length < 1 then throwing "need at least one hours digit got none" errno
      else if hs.1.length > 2 then
        throwing ("need at most two hours digits, got " ++ toString hs.1.length) errno
      else
        -- of less than two minutes digits the text is made that would be thrown
        cut hs.2 1 3 errno fun ms =>
        cut hs.2 3 hs.2.length errno fun rest =>
        cut rest 0 2 errno fun ampm =>
          if ampm ≠ am ∧ ampm ≠ pm ∧ ampm ≠ am ∧ ampm ≠ pm then
            throwing ("am/pm indicator must be one of am, pm, AM or PM, not " ++ Json.quote ampm)
              errno
          else after (readInt hs.1 errno) fun hours errno =>
            let hours := hours.toUInt32
            if hours < 1 ∨ hours > 12 then throwing "hours must be 1..12" errno
            else after (readInt ms errno) fun minutes errno =>
              (.ok ((hoursOfDay ampm hours, minutes.toUInt32), rest.drop 2), errno)

/-- `NoMatch` takes the place of an exception, with its context. -/
def format1 (x : List Char) (errno : Nat) : Outcome Tm :=
  inContext ("parse " ++ Json.quote x ++ " assuming it looks like \"YYYYMMDD HH:MMam\"") <|
    after (parseToChar (skipWhite x) ' ' errno) fun date errno =>
      if date.1.length ≠ 8 then throwing "date part must have 8 digits, e.g. 20050923" errno
      else
        cut date.1 0 4 errno fun y => after (readInt y errno) fun year errno =>
        cut date.1 4 6 errno fun m => after (readInt m errno) fun month errno =>
        cut date.1 6 8 errno fun d => after (readInt d errno) fun day errno =>
        after (parseHHMM (skipWhite date.2) errno) fun hhmm errno =>
          (.ok
            { tm_year := (year.toUInt32 - 1900).toInt32.toInt
              tm_mon := (month.toUInt32 - 1).toInt32.toInt
              tm_mday := day.toUInt32.toInt32.toInt
              tm_hour := hhmm.1.1.toInt32.toInt
              tm_min := hhmm.1.2.toInt32.toInt
              tm_sec := 0
              tm_yday := 0
              tm_isdst := 0 }, errno)

/-- The day is that of the local time now. -/
def format2 (now : Tm) (s : List Char) (errno : Nat) : Outcome Tm :=
  inContext ("parse " ++ Json.quote s ++ " assuming it looks like \"HH:MMam\"") <|
    after (parseHHMM (skipWhite s) errno) fun hhmm errno =>
      (.ok
        { now with
          tm_hour := hhmm.1.1.toInt32.toInt
          tm_min := hhmm.1.2.toInt32.toInt
          tm_sec := 0
          tm_yday := 0
          tm_isdst := 0 }, errno)

/-- What is given to `mktime`, for the time that is made of what that returns. -/
def stringToTime (now : Tm) (s : List Char) (errno : Nat) : Outcome Tm :=
  inContext ("parse " ++ Json.quote s ++ " as a time") <|
    match format1 s errno with
    | (.error (.exception _), errno) =>
      match format2 now s errno with
      | (.error (.exception _), errno) =>
        throwing (Json.quote s ++ " does not look like YYYYMMDD HH:MMam or HH:MMam") errno
      | r => r
    | r => r

/-! ## What a text denotes -/

/-- Digits, and nothing else. -/
def digits (cs : List Char) : Bool := cs.all isDigit

/-- The number that digits make. -/
def number (cs : List Char) : Nat := (readDigits 0 cs).1

/-- The hours of the day, noon and midnight being 12 of one half and of the other. -/
def hourOf (hours : Nat) (afternoon : Bool) : Nat :=
  (if hours = 12 then 0 else hours) + if afternoon then 12 else 0

def daysOfMonth (year : Nat) (month : Nat) : Nat :=
  [31, if Calendar.isLeap year then 29 else 28, 31, 30, 31, 30, 31, 31, 30, 31, 30, 31].getD
    (month - 1) 0

/-- A time of day is written with hours from 1 to 12, minutes from 00 to 59, and a suffix. -/
structure Written (x h m suffix : List Char) : Prop where
  eq : x = h ++ ':' :: (m ++ suffix)
  hours_length : h.length = 1 ∨ h.length = 2
  hours_digits : digits h
  hours : 1 ≤ number h ∧ number h ≤ 12
  minutes_length : m.length = 2
  minutes_digits : digits m
  minutes : number m ≤ 59
  suffix : suffix ∈ [am, pm, ['A', 'M'], ['P', 'M']]

/-- A date of the calendar. -/
structure IsDate (d : List Char) : Prop where
  length : d.length = 8
  digits : digits d
  month : 1 ≤ number ((d.take 6).drop 4) ∧ number ((d.take 6).drop 4) ≤ 12
  day : 1 ≤ number ((d.take 8).drop 6) ∧ number ((d.take 8).drop 6) ≤
    daysOfMonth (number (d.take 4)) (number ((d.take 6).drop 4))

def afternoon (suffix : List Char) : Bool := suffix = pm ∨ suffix = ['P', 'M']

/-- A day, with hours and minutes. -/
def atTime (day : Tm) (h m suffix : List Char) : Tm :=
  { day with
    tm_hour := hourOf (number h) (afternoon suffix)
    tm_min := number m
    tm_sec := 0
    tm_yday := 0
    tm_isdst := 0 }

def ofDate (d : List Char) : Tm where
  tm_year := number (d.take 4) - 1900
  tm_mon := number ((d.take 6).drop 4) - 1
  tm_mday := number ((d.take 8).drop 6)
  tm_hour := 0
  tm_min := 0
  tm_sec := 0
  tm_yday := 0
  tm_isdst := 0

/-- A text is a date and a time, or a time of today. White space may be in front of either. -/
inductive Denotes (now : Tm) (s : List Char) (suffix : List Char) : Tm → Prop
  | dated {d r h m : List Char} (hs : skipWhite s = d ++ ' ' :: r) (hd : IsDate d)
    (hx : Written (skipWhite r) h m suffix) : Denotes now s suffix (atTime (ofDate d) h m suffix)
  | today {h m : List Char} (hx : Written (skipWhite s) h m suffix) :
    Denotes now s suffix (atTime now h m suffix)

/-! ## What is taken -/

/-- How `parseHHMM` cuts a text. -/
structure Cuts (x h m suffix tail : List Char) : Prop where
  eq : x = h ++ ':' :: (m ++ (suffix ++ tail))
  colon : ':' ∉ h
  hours_length : h.length = 1 ∨ h.length = 2
  minutes_length : m.length = 2
  suffix_length : suffix.length = 2

/-- Behind the colon there is no room for minutes and a suffix. -/
def Truncated (x : List Char) : Prop :=
  ∃ h rest, x = h ++ ':' :: rest ∧ ':' ∉ h ∧ (h.length = 1 ∨ h.length = 2) ∧ rest.length < 4

/-- A text that is cut so that `strtol` reads its hours and minutes. -/
structure Taken (errno : Nat) (x h m suffix tail : List Char) (hours minutes : Int32) : Prop
    extends Cuts x h m suffix tail where
  suffix : suffix = am ∨ suffix = pm
  readHours : (stringToInt h errno).1 = .ok hours
  hours : 1 ≤ hours.toUInt32 ∧ hours.toUInt32 ≤ 12
  readMinutes : (stringToInt m errno).1 = .ok minutes

/-- A text whose date is so long, and read by `strtol`. -/
structure Dated (errno : Nat) (s d r : List Char) (year month day : Int32) : Prop where
  eq : skipWhite s = d ++ ' ' :: r
  blank : ' ' ∉ d
  length : d.length = 8
  readYear : (stringToInt (d.take 4) errno).1 = .ok year
  readMonth : (stringToInt ((d.take 6).drop 4) errno).1 = .ok month
  readDay : (stringToInt ((d.take 8).drop 6) errno).1 = .ok day

/-! ## Numbers -/

theorem readDigits_lt (n : Nat) (s : List Char) :
    (readDigits n s).1 < (n + 1) * 10 ^ s.length := by
  induction s generalizing n with
  | nil => simp [readDigits]
  | cons c s ih =>
    rw [readDigits]
    split_ifs with hc
    · have hdigit : c.toNat - 48 ≤ 9 := by
        have hle : c ≤ '9' := (of_decide_eq_true hc).2
        have hnat : c.toNat ≤ '9'.toNat := hle
        change c.toNat ≤ 57 at hnat
        omega
      calc (readDigits (10 * n + (c.toNat - 48)) s).1
          < (10 * n + (c.toNat - 48) + 1) * 10 ^ s.length := ih _
        _ ≤ (10 * (n + 1)) * 10 ^ s.length := Nat.mul_le_mul_right _ (by omega)
        _ = (n + 1) * 10 ^ (c :: s).length := by rw [List.length_cons, pow_succ]; ring
    · have hpos : 0 < 10 ^ (c :: s).length := Nat.pow_pos (by norm_num)
      exact Nat.lt_of_lt_of_le (Nat.lt_succ_self n) (Nat.le_mul_of_pos_right _ hpos)

theorem numeral_lt {s p : List Char} {negative : Bool} {n : Nat}
    (h : numeral s = some (negative, n, p)) : n < 10 ^ s.length := by
  rw [numeral] at h
  generalize hsign : readSign (s.dropWhile isspace) = sign at h
  obtain ⟨negative', digits⟩ := sign
  dsimp only at h
  split_ifs at h
  obtain ⟨-, hn, -⟩ : negative' = negative ∧ (readDigits 0 digits).1 = n
      ∧ (readDigits 0 digits).2 = p := by simpa [Prod.ext_iff] using h
  have hle : digits.length ≤ s.length := by
    have hdrop : (s.dropWhile isspace).length ≤ s.length :=
      (List.dropWhile_sublist _).length_le
    have hdigits : digits.length ≤ (s.dropWhile isspace).length := by
      cases hs : s.dropWhile isspace with
      | nil =>
        rw [hs, readSign] at hsign
        simp [← (Prod.mk.inj hsign).2]
      | cons c t =>
        rw [hs, readSign] at hsign
        split_ifs at hsign <;> simp [← (Prod.mk.inj hsign).2]
    exact hdigits.trans hdrop
  have hlt := readDigits_lt 0 digits
  rw [hn, zero_add, one_mul] at hlt
  exact hlt.trans_le (Nat.pow_le_pow_right (by norm_num) hle)

/-- What is short does not come out of range. -/
theorem strtol_errno {s : List Char} (hs : s.length ≤ 8) (errno : Nat) :
    (strtol s errno).2.2 = errno := by
  rw [strtol]
  cases hnumeral : numeral s with
  | none => rfl
  | some r =>
    obtain ⟨negative, n, p⟩ := r
    have hlt : n < 10 ^ 8 :=
      (numeral_lt hnumeral).trans_le (Nat.pow_le_pow_right (by norm_num) hs)
    dsimp only
    have hsmall : ¬(if negative then -(n : Int) else n) < -2 ^ 63 := by
      split_ifs <;> omega
    have hlarge : ¬2 ^ 63 ≤ (if negative then -(n : Int) else n) := by
      split_ifs <;> omega
    rw [if_neg hsmall, if_neg hlarge]

theorem stringToInt_errno {s : List Char} (hs : s.length ≤ 8) (errno : Nat) :
    (stringToInt s errno).2 = errno := by
  have hcontext : ∀ {α : Type} (context : String) (r : Result α),
      (addingContext context r).2 = r.2 := by
    rintro α context ⟨_ | _, _⟩ <;> rfl
  have herrno := strtol_errno hs errno
  rw [stringToInt, hcontext]
  generalize hread : strtol s errno = r at herrno
  obtain ⟨x, p, e⟩ := r
  dsimp only at herrno ⊢
  split_ifs <;> simp [throws, herrno]

theorem readInt_eq {s : List Char} (hs : s.length ≤ 8) (errno : Nat) :
    readInt s errno = ((stringToInt s errno).1.mapError Failure.exception, errno) := by
  have herrno := stringToInt_errno hs errno
  rw [readInt]
  generalize stringToInt s errno = r at herrno
  obtain ⟨_ | x, e⟩ := r <;> cases herrno <;> rfl

/-- Nothing is read once `errno` is that of a number out of range. -/
theorem errno_ne_of_stringToInt {s : List Char} {errno : Nat} {x : Int32} (hs : s.length ≤ 8)
    (h : (stringToInt s errno).1 = .ok x) : errno ≠ ERANGE := by
  have herrno := strtol_errno hs errno
  rw [stringToInt, addingContext_fst] at h
  generalize hread : strtol s errno = r at herrno h
  obtain ⟨y, p, e⟩ := r
  dsimp only at herrno h
  split_ifs at h with hlength hchar hrange hint
  · cases h
  · cases h
  · cases h
  · cases h
  · exact herrno ▸ hrange

theorem isSpace_of_isDigit {c : Char} (hc : isDigit c) :
    isspace c = false ∧ c ≠ '-' ∧ c ≠ '+' ∧ c ≠ ':' ∧ c ≠ ' ' := by
  have hge : 48 ≤ c.toNat := (of_decide_eq_true hc).1
  have hle : c.toNat ≤ 57 := (of_decide_eq_true hc).2
  have hne : ∀ d : Char, d.toNat < 48 ∨ 57 < d.toNat → c ≠ d := by
    rintro d hd rfl
    omega
  refine ⟨?_, hne _ (by decide), hne _ (by decide), hne _ (by decide), hne _ (by decide)⟩
  refine decide_eq_false fun h => h.elim (hne ' ' (by decide)) fun h => ?_
  omega

theorem readDigits_all {cs : List Char} (hcs : digits cs) (n : Nat) : (readDigits n cs).2 = [] := by
  induction cs generalizing n with
  | nil => rfl
  | cons c cs ih =>
    obtain ⟨hc, hcs⟩ : isDigit c ∧ digits cs := by simpa [digits] using hcs
    rw [readDigits, if_pos hc]
    exact ih hcs _

theorem numeral_digits {cs : List Char} (hcs : digits cs) (hlength : 1 ≤ cs.length) :
    numeral cs = some (false, number cs, []) := by
  cases cs with
  | nil => simp at hlength
  | cons c cs =>
    obtain ⟨hc, -⟩ : isDigit c ∧ digits cs := by simpa [digits] using hcs
    obtain ⟨hspace, hminus, hplus, -, -⟩ := isSpace_of_isDigit hc
    rw [numeral, List.dropWhile_cons_of_neg (by simp [hspace]), readSign, if_neg hminus,
      if_neg hplus]
    dsimp only
    rw [List.head?_cons, Option.any_some, if_pos hc, number]
    exact congrArg some (Prod.ext rfl (Prod.ext rfl (readDigits_all (n := 0) hcs)))

/-- Digits are read. -/
theorem stringToInt_digits {cs : List Char} (hcs : digits cs) (hlength : 1 ≤ cs.length)
    (hle : cs.length ≤ 8) {errno : Nat} (herrno : errno ≠ ERANGE) :
    ∃ x, (stringToInt cs errno).1 = .ok x ∧ x.toInt = number cs := by
  have hnumeral := numeral_digits hcs hlength
  have hlt : number cs < 10 ^ 8 :=
    (numeral_lt hnumeral).trans_le (Nat.pow_le_pow_right (by norm_num) hle)
  have hread : strtol cs errno = (Int64.ofInt (number cs), [], errno) := by
    rw [strtol, hnumeral]
    simp only [Bool.false_eq_true, ite_false]
    rw [if_neg (by omega), if_neg (by omega)]
  have hint : (Int64.ofInt (number cs)).toInt = number cs :=
    Int64.toInt_ofInt_of_le (by omega) (by omega)
  have hnarrow := (toInt32_toInt64_eq_iff (Int64.ofInt (number cs))).mpr (by rw [hint]; omega)
  refine ⟨(Int64.ofInt (number cs)).toInt32, ?_, ?_⟩
  · rw [stringToInt, addingContext_fst, if_neg (by omega), hread]
    simp only [charAt, ne_eq, not_true_eq_false, if_false, herrno, hnarrow]
  · rw [← Int32.toInt_toInt64, hnarrow, hint]

/-! ## What the functions do -/

@[simp] theorem inContext_ok {α : Type} (context : String) (a : α) (errno : Nat) :
    inContext context (.ok a, errno) = (.ok a, errno) := rfl

@[simp] theorem inContext_undefined {α : Type} (context : String) (errno : Nat) :
    inContext context ((.error .undefined, errno) : Outcome α) = (.error .undefined, errno) := rfl

/-- An exception, whichever. -/
def Throws {α : Type} (r : Outcome α) (errno : Nat) : Prop :=
  ∃ e, r = (.error (.exception e), errno)

theorem throws_throwing {α : Type} (cause : String) (errno : Nat) :
    Throws (throwing cause errno : Outcome α) errno := ⟨_, rfl⟩

theorem Throws.inContext {α : Type} {r : Outcome α} {errno : Nat} (h : Throws r errno)
    (context : String) : Throws (inContext context r) errno := by
  obtain ⟨e, rfl⟩ := h
  exact ⟨_, rfl⟩

theorem Throws.after {α β : Type} {r : Outcome α} {errno : Nat} (h : Throws r errno)
    (rest : α → Nat → Outcome β) : Throws (after r rest) errno := by
  obtain ⟨e, rfl⟩ := h
  exact ⟨e, rfl⟩

@[simp] theorem after_ok {α β : Type} (a : α) (errno : Nat) (rest : α → Nat → Outcome β) :
    after (.ok a, errno) rest = rest a errno := rfl

theorem readInt_ok {s : List Char} {errno : Nat} {x : Int32} (hs : s.length ≤ 8)
    (h : (stringToInt s errno).1 = .ok x) : readInt s errno = (.ok x, errno) := by
  rw [readInt_eq hs, h]
  rfl

theorem readInt_throws {s : List Char} {errno : Nat} (hs : s.length ≤ 8)
    (h : ∀ x, (stringToInt s errno).1 ≠ .ok x) : Throws (readInt s errno) errno := by
  rw [readInt_eq hs]
  cases hread : (stringToInt s errno).1 with
  | error e => exact ⟨e, rfl⟩
  | ok x => exact absurd hread (h x)

theorem parseToChar_ok {c : Char} {before rest : List Char} (hbefore : c ∉ before) (errno : Nat) :
    parseToChar (before ++ c :: rest) c errno = (.ok (before, c :: rest), errno) := by
  have hall : ∀ d ∈ before, decide (d ≠ c) = true :=
    fun d hd => decide_eq_true fun h => hbefore (h ▸ hd)
  rw [parseToChar, if_pos (by simp), List.takeWhile_append_of_pos hall,
    List.dropWhile_append_of_pos hall, List.takeWhile_cons_of_neg (by simp),
    List.dropWhile_cons_of_neg (by simp), List.append_nil]
  rfl

theorem parseToChar_throws {x : List Char} {c : Char} (hx : c ∉ x) (errno : Nat) :
    Throws (parseToChar x c errno) errno := by
  rw [parseToChar, if_neg hx]
  exact (throws_throwing _ errno).inContext _

theorem split_inj {c : Char} {before before' rest rest' : List Char} (h : c ∉ before)
    (h' : c ∉ before') (heq : before ++ c :: rest = before' ++ c :: rest') :
    before = before' ∧ rest = rest' := by
  have hleft := @parseToChar_ok c before rest h 0
  rw [heq, parseToChar_ok h'] at hleft
  simpa [eq_comm] using hleft

theorem cut_eq {α : Type} {x : List Char} {i j errno : Nat} (h : j ≤ x.length)
    (rest : List Char → Outcome α) : cut x i j errno rest = rest ((x.take j).drop i) :=
  if_pos h

theorem parseHHMM_truncated {x : List Char} (hx : Truncated x) (errno : Nat) :
    parseHHMM x errno = (.error .undefined, errno) := by
  obtain ⟨h, rest, rfl, hcolon, hlength, hrest⟩ := hx
  rw [parseHHMM, parseToChar_ok hcolon, after_ok]
  dsimp only
  rw [if_neg (by omega), if_neg (by omega)]
  by_cases hminutes : 3 ≤ (':' :: rest).length
  · have hshort : ¬2 ≤ ((':' :: rest).drop 3).length := by
      rw [List.length_drop, List.length_cons]
      omega
    rw [cut_eq hminutes, cut_eq le_rfl, List.take_length, cut, if_neg hshort]
    rfl
  · rw [cut, if_neg hminutes]
    rfl

/-- What is behind the colon, if there is room for it. -/
theorem cuts_of_split {h rest : List Char} (hcolon : ':' ∉ h)
    (hlength : h.length = 1 ∨ h.length = 2) (hrest : 4 ≤ rest.length) :
    Cuts (h ++ ':' :: rest) h (rest.take 2) ((rest.drop 2).take 2) (rest.drop 4) where
  eq := by
    rw [← List.drop_drop (i := 2) (j := 2), List.take_append_drop, List.take_append_drop]
  colon := hcolon
  hours_length := hlength
  minutes_length := by rw [List.length_take]; omega
  suffix_length := by rw [List.length_take, List.length_drop]; omega

/-- The function, once the text has been cut. -/
theorem parseHHMM_cuts {x h m suffix tail : List Char} (hx : Cuts x h m suffix tail)
    (errno : Nat) :
    parseHHMM x errno = inContext
      ("parse " ++ Json.quote x ++ " assuming it looks like e.g. 5:30pm")
      (if suffix ≠ am ∧ suffix ≠ pm ∧ suffix ≠ am ∧ suffix ≠ pm then
        throwing ("am/pm indicator must be one of am, pm, AM or PM, not " ++ Json.quote suffix)
          errno
      else after (readInt h errno) fun hours errno =>
        if hours.toUInt32 < 1 ∨ hours.toUInt32 > 12 then throwing "hours must be 1..12" errno
        else after (readInt m errno) fun minutes errno =>
          (.ok ((hoursOfDay suffix hours.toUInt32, minutes.toUInt32), tail), errno)) := by
  obtain ⟨rfl, hcolon, hlength, hm, hsuffix⟩ := hx
  have hminutes : ((':' :: (m ++ (suffix ++ tail))).take 3).drop 1 = m := by
    simp [hm]
  have hrest : (':' :: (m ++ (suffix ++ tail))).drop 3 = suffix ++ tail := by
    simp [hm]
  rw [parseHHMM, parseToChar_ok hcolon, after_ok]
  dsimp only
  rw [if_neg (by omega), if_neg (by omega), cut_eq (by simp [hm]), cut_eq le_rfl, List.take_length,
    hminutes, hrest, cut_eq (by simp [hsuffix])]
  simp only [List.drop_zero, ← hsuffix, List.take_left, List.drop_left]

theorem parseHHMM_taken {x h m suffix tail : List Char} {errno : Nat} {hours minutes : Int32}
    (hx : Taken errno x h m suffix tail hours minutes) :
    parseHHMM x errno
      = (.ok ((hoursOfDay suffix hours.toUInt32, minutes.toUInt32), tail), errno) := by
  have hsuffix : ¬(suffix ≠ am ∧ suffix ≠ pm ∧ suffix ≠ am ∧ suffix ≠ pm) := by
    have := hx.suffix
    tauto
  have hhours : ¬(hours.toUInt32 < 1 ∨ hours.toUInt32 > 12) :=
    fun h => h.elim (UInt32.not_lt.mpr hx.hours.1) (UInt32.not_lt.mpr hx.hours.2)
  have hh : h.length ≤ 8 := by have := hx.hours_length; omega
  have hm : m.length ≤ 8 := by have := hx.minutes_length; omega
  rw [parseHHMM_cuts hx.toCuts, if_neg hsuffix, readInt_ok hh hx.readHours, after_ok,
    if_neg hhours, readInt_ok hm hx.readMinutes]
  rfl

theorem parseHHMM_throws {x : List Char} {errno : Nat} (hroom : ¬Truncated x)
    (hnot : ∀ h m suffix tail hours minutes, ¬Taken errno x h m suffix tail hours minutes) :
    Throws (parseHHMM x errno) errno := by
  by_cases hcolon : ':' ∈ x
  · obtain ⟨h, rest, rfl, hbefore⟩ := List.eq_append_cons_of_mem hcolon
    by_cases hlength : h.length = 1 ∨ h.length = 2
    · have hcuts := cuts_of_split hbefore hlength
        (Nat.not_lt.mp fun hrest => hroom ⟨h, rest, rfl, hbefore, hlength, hrest⟩)
      rw [parseHHMM_cuts hcuts]
      refine Throws.inContext ?_ _
      split_ifs with hsuffix
      · exact throws_throwing _ errno
      · have hh : h.length ≤ 8 := by omega
        have hm : (rest.take 2).length ≤ 8 := by rw [hcuts.minutes_length]; omega
        by_cases hread : ∃ hours, (stringToInt h errno).1 = .ok hours
        · obtain ⟨hours, hread⟩ := hread
          rw [readInt_ok hh hread, after_ok]
          split_ifs with hhours
          · exact throws_throwing _ errno
          · refine Throws.after (readInt_throws hm fun minutes hminutes => ?_) _
            obtain ⟨hone, htwelve⟩ := not_or.mp hhours
            exact hnot _ _ _ _ _ _
              { hcuts with
                suffix := by tauto
                readHours := hread
                hours := ⟨UInt32.not_lt.mp hone, UInt32.not_lt.mp htwelve⟩
                readMinutes := hminutes }
        · exact (readInt_throws hh (not_exists.mp hread)).after _
    · rw [parseHHMM, parseToChar_ok hbefore, after_ok]
      refine Throws.inContext ?_ _
      dsimp only
      split_ifs
      · exact throws_throwing _ errno
      · exact throws_throwing _ errno
      · omega
  · exact ((parseToChar_throws hcolon errno).after _).inContext _

/-- What `format1` makes of what is read. -/
def dayOf (year month day : Int32) : Tm where
  tm_year := (year.toUInt32 - 1900).toInt32.toInt
  tm_mon := (month.toUInt32 - 1).toInt32.toInt
  tm_mday := day.toUInt32.toInt32.toInt
  tm_hour := 0
  tm_min := 0
  tm_sec := 0
  tm_yday := 0
  tm_isdst := 0

def atHHMM (day : Tm) (hhmm : (UInt32 × UInt32) × List Char) (errno : Nat) : Outcome Tm :=
  (.ok
    { day with
      tm_hour := hhmm.1.1.toInt32.toInt
      tm_min := hhmm.1.2.toInt32.toInt
      tm_sec := 0
      tm_yday := 0
      tm_isdst := 0 }, errno)

section
variable {errno : Nat} {s d r h m suffix tail : List Char} {year month day hours minutes : Int32}

theorem Dated.skipWhite_rest : skipWhite (' ' :: r) = skipWhite r :=
  List.dropWhile_cons_of_pos (by decide)

theorem format1_dated (hs : Dated errno s d r year month day) :
    format1 s errno = inContext
      ("parse " ++ Json.quote s ++ " assuming it looks like \"YYYYMMDD HH:MMam\"")
      (after (parseHHMM (skipWhite r) errno) (atHHMM (dayOf year month day))) := by
  have hshort : ∀ i j, j ≤ 8 → ((d.take j).drop i).length ≤ 8 := by
    intro i j hj
    rw [List.length_drop, List.length_take]
    omega
  rw [format1, hs.eq, parseToChar_ok hs.blank, after_ok]
  dsimp only
  rw [if_neg (not_not.mpr hs.length), cut_eq (by rw [hs.length]; decide),
    readInt_ok (hshort 0 4 (by decide)) hs.readYear, after_ok, cut_eq (by rw [hs.length]; decide),
    readInt_ok (hshort 4 6 (by decide)) hs.readMonth, after_ok, cut_eq (by rw [hs.length]),
    readInt_ok (hshort 6 8 (by decide)) hs.readDay, after_ok, Dated.skipWhite_rest]
  rfl

theorem format1_throws (hs : ∀ d r year month day, ¬Dated errno s d r year month day) :
    Throws (format1 s errno) errno := by
  refine Throws.inContext ?_ _
  by_cases hblank : ' ' ∈ skipWhite s
  · obtain ⟨d, r, heq, hblank⟩ := List.eq_append_cons_of_mem hblank
    rw [heq, parseToChar_ok hblank, after_ok]
    dsimp only
    split_ifs with hlength
    · exact throws_throwing _ errno
    · have hlength : d.length = 8 := not_not.mp hlength
      have hshort : ∀ i j, j ≤ 8 → ((d.take j).drop i).length ≤ 8 := by
        intro i j hj
        rw [List.length_drop, List.length_take]
        omega
      -- each of the three numbers may be one that is not read
      rw [cut_eq (by omega)]
      by_cases hyear : ∃ x, (stringToInt ((d.take 4).drop 0) errno).1 = .ok x
      · obtain ⟨year, hyear⟩ := hyear
        rw [readInt_ok (hshort 0 4 (by decide)) hyear, after_ok, cut_eq (by omega)]
        by_cases hmonth : ∃ x, (stringToInt ((d.take 6).drop 4) errno).1 = .ok x
        · obtain ⟨month, hmonth⟩ := hmonth
          rw [readInt_ok (hshort 4 6 (by decide)) hmonth, after_ok, cut_eq (by omega)]
          refine Throws.after (readInt_throws (hshort 6 8 (by decide)) fun day hday => ?_) _
          exact hs d r year month day ⟨heq, hblank, hlength, hyear, hmonth, hday⟩
        · exact (readInt_throws (hshort 4 6 (by decide)) (not_exists.mp hmonth)).after _
      · exact (readInt_throws (hshort 0 4 (by decide)) (not_exists.mp hyear)).after _
  · exact (parseToChar_throws hblank errno).after _

/-- A date and a time have been looked for in vain, for what there was. -/
def Passed (errno : Nat) (s : List Char) : Prop :=
  ∀ d r year month day, Dated errno s d r year month day → ¬Truncated (skipWhite r) ∧
    ∀ h m suffix tail hours minutes, ¬Taken errno (skipWhite r) h m suffix tail hours minutes

variable {now : Tm}

theorem stringToTime_dated_truncated (hs : Dated errno s d r year month day)
    (hr : Truncated (skipWhite r)) :
    stringToTime now s errno = (.error .undefined, errno) := by
  rw [stringToTime, format1_dated hs, parseHHMM_truncated hr]
  rfl

theorem stringToTime_dated (hs : Dated errno s d r year month day)
    (hr : Taken errno (skipWhite r) h m suffix tail hours minutes) :
    stringToTime now s errno = atHHMM (dayOf year month day)
      ((hoursOfDay suffix hours.toUInt32, minutes.toUInt32), tail) errno := by
  rw [stringToTime, format1_dated hs, parseHHMM_taken hr]
  rfl

theorem format1_passed (hs : Passed errno s) : Throws (format1 s errno) errno := by
  by_cases hdated : ∃ d r year month day, Dated errno s d r year month day
  · obtain ⟨d, r, year, month, day, hdated⟩ := hdated
    obtain ⟨hroom, hnot⟩ := hs d r year month day hdated
    rw [format1_dated hdated]
    exact ((parseHHMM_throws hroom hnot).after _).inContext _
  · exact format1_throws fun d r year month day h => hdated ⟨d, r, year, month, day, h⟩

theorem stringToTime_passed (hs : Passed errno s) :
    stringToTime now s errno = inContext ("parse " ++ Json.quote s ++ " as a time")
      (match format2 now s errno with
      | (.error (.exception _), errno) =>
        throwing (Json.quote s ++ " does not look like YYYYMMDD HH:MMam or HH:MMam") errno
      | r => r) := by
  obtain ⟨e, he⟩ := format1_passed hs
  rw [stringToTime, he]

theorem stringToTime_today_truncated (hs : Passed errno s) (hr : Truncated (skipWhite s)) :
    stringToTime now s errno = (.error .undefined, errno) := by
  rw [stringToTime_passed hs, format2, parseHHMM_truncated hr]
  rfl

theorem stringToTime_today (hs : Passed errno s)
    (hr : Taken errno (skipWhite s) h m suffix tail hours minutes) :
    stringToTime now s errno = atHHMM now
      ((hoursOfDay suffix hours.toUInt32, minutes.toUInt32), tail) errno := by
  rw [stringToTime_passed hs, format2, parseHHMM_taken hr]
  rfl

theorem stringToTime_throws (hs : Passed errno s) (hroom : ¬Truncated (skipWhite s))
    (hnot : ∀ h m suffix tail hours minutes,
      ¬Taken errno (skipWhite s) h m suffix tail hours minutes) :
    Throws (stringToTime now s errno) errno := by
  obtain ⟨e, he⟩ : Throws (format2 now s errno) errno :=
    ((parseHHMM_throws hroom hnot).after _).inContext _
  rw [stringToTime_passed hs, he]
  exact (throws_throwing _ errno).inContext _

end

/-! ## What is taken, and what is denoted -/

theorem not_mem_of_digits {cs : List Char} (hcs : digits cs) : ':' ∉ cs ∧ ' ' ∉ cs := by
  have hall : ∀ c ∈ cs, isDigit c := List.all_eq_true.mp hcs
  exact ⟨fun h => (isSpace_of_isDigit (hall _ h)).2.2.2.1 rfl,
    fun h => (isSpace_of_isDigit (hall _ h)).2.2.2.2 rfl⟩

/-- Hours and minutes are digits, in their range, and nothing is behind the suffix. -/
structure InFull (h m tail : List Char) : Prop where
  hours_digits : digits h
  minutes_digits : digits m
  minutes : number m ≤ 59
  tail : tail = []

section
variable {errno : Nat} {x s d r h m suffix tail h' m' suffix' : List Char}
  {year month day hours minutes : Int32} {now t : Tm}

theorem Written.suffix_length (hx : Written x h m suffix) : suffix.length = 2 := by
  have hsuffix := hx.suffix
  simp only [List.mem_cons, List.not_mem_nil, or_false] at hsuffix
  rcases hsuffix with rfl | rfl | rfl | rfl <;> rfl

theorem Written.cuts (hx : Written x h m suffix) : Cuts x h m suffix [] where
  eq := by rw [List.append_nil, hx.eq]
  colon := (not_mem_of_digits hx.hours_digits).1
  hours_length := hx.hours_length
  minutes_length := hx.minutes_length
  suffix_length := hx.suffix_length

/-- A text is cut in one way. -/
theorem Written.eq_of_cuts (hx : Written x h' m' suffix') (hcuts : Cuts x h m suffix tail) :
    h' = h ∧ m' = m ∧ suffix' = suffix ∧ tail = [] := by
  have heq := hx.cuts.eq.symm.trans hcuts.eq
  obtain ⟨hh, hrest⟩ := split_inj hx.cuts.colon hcuts.colon heq
  obtain ⟨hm, hrest⟩ := List.append_inj hrest (hx.minutes_length.trans hcuts.minutes_length.symm)
  obtain ⟨hsuffix, htail⟩ :=
    List.append_inj hrest (hx.suffix_length.trans hcuts.suffix_length.symm)
  exact ⟨hh, hm, hsuffix, htail.symm⟩

theorem Written.inFull (hx : Written x h' m' suffix') (hcuts : Cuts x h m suffix tail) :
    InFull h m tail ∧ suffix' = suffix := by
  obtain ⟨rfl, rfl, rfl, rfl⟩ := hx.eq_of_cuts hcuts
  exact ⟨⟨hx.hours_digits, hx.minutes_digits, hx.minutes, rfl⟩, rfl⟩

/-- There is no blank in what is written of a time. -/
theorem Written.blank (hx : Written x h m suffix) : ' ' ∉ x := by
  have hsuffix : ' ' ∉ suffix := by
    have hsuffix := hx.suffix
    simp only [List.mem_cons, List.not_mem_nil, or_false] at hsuffix
    rcases hsuffix with rfl | rfl | rfl | rfl <;> decide
  rw [hx.eq]
  simp [(not_mem_of_digits hx.hours_digits).2, (not_mem_of_digits hx.minutes_digits).2, hsuffix]

theorem Denotes.of_dated (ht : Denotes now s suffix' t) (hs : Dated errno s d r year month day)
    (hcuts : Cuts (skipWhite r) h m suffix tail) :
    (IsDate d ∧ InFull h m tail) ∧ suffix' = suffix := by
  cases ht with
  | dated heq hd hx =>
    obtain ⟨rfl, rfl⟩ := split_inj (not_mem_of_digits hd.digits).2 hs.blank (heq.symm.trans hs.eq)
    obtain ⟨hfull, hsuffix⟩ := hx.inFull hcuts
    exact ⟨⟨hd, hfull⟩, hsuffix⟩
  | today hx =>
    refine absurd ?_ hx.blank
    rw [hs.eq]
    simp

theorem Denotes.of_today (ht : Denotes now s suffix' t)
    (hcuts : Cuts (skipWhite s) h m suffix tail) : InFull h m tail ∧ suffix' = suffix := by
  cases ht with
  | @dated d r h' m' heq hd hx =>
    -- the colon would be in the date
    have hcolon : (skipWhite s)[h.length]? = some ':' := by rw [hcuts.eq]; simp
    have hlt : h.length < d.length := by
      have := hcuts.hours_length
      rw [hd.length]
      omega
    rw [heq, List.getElem?_append_left hlt] at hcolon
    exact absurd (List.mem_of_getElem? hcolon) (not_mem_of_digits hd.digits).1
  | today hx => exact hx.inFull hcuts

/-! ## Values -/

theorem toInt_toUInt32 (x : Int32) : x.toUInt32.toInt32 = x := rfl

theorem toInt_sub {x y : Int32} {n k : Nat} (hx : x.toInt = n) (hn : n < 10 ^ 8)
    (hy : y.toInt = k) (hk : k < 10 ^ 4) : (x.toUInt32 - y.toUInt32).toInt32.toInt = n - k := by
  have hsub : (x.toUInt32 - y.toUInt32).toInt32 = x - y := rfl
  rw [hsub, Int32.toInt_sub, hx, hy, Int.bmod_def]
  omega

theorem toNat_toUInt32 {x : Int32} {n : Nat} (hx : x.toInt = n) : x.toUInt32.toNat = n := by
  have hlt := x.toInt_lt
  have hnat := toNat_int32_toUInt32 x
  omega

theorem number_lt {cs : List Char} (hle : cs.length ≤ 8) : number cs < 10 ^ 8 := by
  have hlt := readDigits_lt 0 cs
  rw [zero_add, one_mul] at hlt
  exact hlt.trans_le (Nat.pow_le_pow_right (by norm_num) hle)

theorem toInt_hoursOfDay {n : Nat} (hx : hours.toInt = n) (hn : 1 ≤ n ∧ n ≤ 12)
    (hsuffix : suffix = am ∨ suffix = pm) :
    (hoursOfDay suffix hours.toUInt32).toInt32.toInt = hourOf n (afternoon suffix) := by
  have hhours : hours.toUInt32 = UInt32.ofNat n := by
    rw [← UInt32.toNat_inj, toNat_toUInt32 hx, UInt32.toNat_ofNat_of_lt' (by
      exact Nat.lt_of_le_of_lt hn.2 (by decide))]
  rw [hhours]
  obtain ⟨hone, htwelve⟩ := hn
  rcases hsuffix with rfl | rfl <;> interval_cases n <;> decide

/-- What is made of digits is what they denote. -/
theorem atHHMM_eq {day : Tm} (hread : (stringToInt h errno).1 = .ok hours) (hh : digits h)
    (hlength : h.length = 1 ∨ h.length = 2) (hrange : 1 ≤ number h ∧ number h ≤ 12)
    (hsuffix : suffix = am ∨ suffix = pm) (hread' : (stringToInt m errno).1 = .ok minutes)
    (hm : digits m) (hlength' : m.length = 2) :
    atHHMM day ((hoursOfDay suffix hours.toUInt32, minutes.toUInt32), tail) errno
      = (.ok (atTime day h m suffix), errno) := by
  have herrno := errno_ne_of_stringToInt (by omega) hread
  obtain ⟨x, hx, hvalue⟩ := stringToInt_digits hh (by omega) (by omega) herrno
  obtain rfl := Except.ok.inj (hread.symm.trans hx)
  obtain ⟨y, hy, hvalue'⟩ := stringToInt_digits hm (by omega) (by omega) herrno
  obtain rfl := Except.ok.inj (hread'.symm.trans hy)
  rw [atHHMM, atTime]
  dsimp only
  rw [toInt_hoursOfDay hvalue hrange hsuffix, toInt_toUInt32, hvalue']

theorem digits_part (hd : IsDate d) (i j : Nat) : digits ((d.take j).drop i) :=
  List.all_eq_true.mpr fun c hc => List.all_eq_true.mp hd.digits c
    (List.mem_of_mem_take (List.mem_of_mem_drop hc))

theorem dayOf_eq (hs : Dated errno s d r year month day) (hd : IsDate d) :
    dayOf year month day = ofDate d := by
  have hpart : ∀ {i j : Nat} {x : Int32}, i < j → j ≤ 8 →
      (stringToInt ((d.take j).drop i) errno).1 = .ok x → x.toInt = number ((d.take j).drop i) := by
    intro i j x hij hj hread
    have hlength : ((d.take j).drop i).length = j - i := by
      rw [List.length_drop, List.length_take, hs.length]
      omega
    have herrno := errno_ne_of_stringToInt (by omega) hread
    obtain ⟨y, hy, hvalue⟩ :=
      stringToInt_digits (digits_part hd i j) (by omega) (by omega) herrno
    obtain rfl := Except.ok.inj (hread.symm.trans hy)
    exact hvalue
  have hyear := hpart (i := 0) (j := 4) (by decide) (by decide) hs.readYear
  have hmonth := hpart (by decide) (by decide) hs.readMonth
  have hday := hpart (by decide) (by decide) hs.readDay
  rw [dayOf, ofDate]
  congr 1
  · exact toInt_sub (y := 1900) hyear (number_lt (by simp)) rfl (by decide)
  · exact toInt_sub (y := 1) hmonth (number_lt (by simp)) rfl (by decide)

theorem Taken.written (hx : Taken errno x h m suffix tail hours minutes)
    (hfull : InFull h m tail) : Written x h m suffix ∧ 1 ≤ number h ∧ number h ≤ 12 := by
  have hlength := hx.hours_length
  have herrno := errno_ne_of_stringToInt (by omega) hx.readHours
  obtain ⟨y, hy, hvalue⟩ := stringToInt_digits hfull.hours_digits (by omega) (by omega) herrno
  obtain rfl := Except.ok.inj (hx.readHours.symm.trans hy)
  have hnat := toNat_toUInt32 hvalue
  obtain ⟨hone, htwelve⟩ := hx.hours
  rw [UInt32.le_iff_toNat_le, hnat] at hone htwelve
  refine ⟨⟨?_, hlength, hfull.hours_digits, ⟨hone, htwelve⟩, hx.minutes_length,
    hfull.minutes_digits, hfull.minutes, ?_⟩, hone, htwelve⟩
  · rw [hx.eq, hfull.tail, List.append_nil]
  · rcases hx.suffix with rfl | rfl <;> simp

/-- What is written in digits, with a suffix in small letters, is taken. -/
theorem Written.taken (hx : Written x h m suffix) (herrno : errno ≠ ERANGE)
    (hsuffix : suffix = am ∨ suffix = pm) :
    ∃ hours minutes, Taken errno x h m suffix [] hours minutes := by
  have hlength := hx.hours_length
  have hlength' := hx.minutes_length
  obtain ⟨hours, hread, hvalue⟩ := stringToInt_digits hx.hours_digits (by omega) (by omega) herrno
  obtain ⟨minutes, hread', -⟩ := stringToInt_digits hx.minutes_digits (by omega) (by omega) herrno
  refine ⟨hours, minutes, { hx.cuts with
    suffix := hsuffix, readHours := hread, readMinutes := hread', hours := ?_ }⟩
  rw [UInt32.le_iff_toNat_le, UInt32.le_iff_toNat_le, toNat_toUInt32 hvalue]
  exact hx.hours

theorem IsDate.dated (hd : IsDate d) (hs : skipWhite s = d ++ ' ' :: r) (herrno : errno ≠ ERANGE) :
    ∃ year month day, Dated errno s d r year month day := by
  have hpart : ∀ i j, i < j → j ≤ 8 → ∃ x, (stringToInt ((d.take j).drop i) errno).1 = .ok x := by
    intro i j hij hj
    have hlength : ((d.take j).drop i).length = j - i := by
      rw [List.length_drop, List.length_take, hd.length]
      omega
    obtain ⟨x, hx, -⟩ := stringToInt_digits (digits_part hd i j) (by omega) (by omega) herrno
    exact ⟨x, hx⟩
  obtain ⟨year, hyear⟩ := hpart 0 4 (by decide) (by decide)
  obtain ⟨month, hmonth⟩ := hpart 4 6 (by decide) (by decide)
  obtain ⟨day, hday⟩ := hpart 6 8 (by decide) (by decide)
  exact ⟨year, month, day, hs, (not_mem_of_digits hd.digits).2, hd.length, hyear, hmonth, hday⟩

end

/-! ## When the two agree -/

/-- What a text denotes is what comes of it, and of a text that denotes nothing an exception. -/
def Meets (now : Tm) (s : List Char) (errno : Nat) : Prop :=
  (∀ suffix t, Denotes now s suffix t → stringToTime now s errno = (.ok t, errno)) ∧
    ((∀ suffix t, ¬Denotes now s suffix t) → Throws (stringToTime now s errno) errno)

/-- A suffix is in small letters, and `errno` not that of numbers out of range; what is cut is long
enough; and what is read is digits, in range, with nothing after it. -/
structure Regular (now : Tm) (s : List Char) (errno : Nat) : Prop where
  suffix : ∀ suffix t, Denotes now s suffix t → errno ≠ ERANGE ∧ (suffix = am ∨ suffix = pm)
  dated_room : ∀ d r year month day, Dated errno s d r year month day → ¬Truncated (skipWhite r)
  dated_inFull : ∀ d r year month day, Dated errno s d r year month day →
    ∀ h m suffix tail hours minutes, Taken errno (skipWhite r) h m suffix tail hours minutes →
      IsDate d ∧ InFull h m tail
  today_room : Passed errno s → ¬Truncated (skipWhite s)
  today_inFull : Passed errno s → ∀ h m suffix tail hours minutes,
    Taken errno (skipWhite s) h m suffix tail hours minutes → InFull h m tail

theorem Written.passed {s h m suffix : List Char} {errno : Nat}
    (hx : Written (skipWhite s) h m suffix) : Passed errno s := by
  intro d r year month day hs
  refine absurd ?_ hx.blank
  rw [hs.eq]
  simp

/-- Either a date and a time are taken, or the text is passed on. -/
theorem dated_or_passed (errno : Nat) (s : List Char) :
    (∃ d r year month day, Dated errno s d r year month day ∧ (Truncated (skipWhite r) ∨
      ∃ h m suffix tail hours minutes,
        Taken errno (skipWhite r) h m suffix tail hours minutes)) ∨ Passed errno s := by
  by_contra hnone
  rw [not_or] at hnone
  refine hnone.2 fun d r year month day hs => ⟨fun hroom => ?_, fun h m suffix tail x y hx => ?_⟩
  · exact hnone.1 ⟨d, r, year, month, day, hs, .inl hroom⟩
  · exact hnone.1 ⟨d, r, year, month, day, hs, .inr ⟨h, m, suffix, tail, x, y, hx⟩⟩

theorem Regular.meets {now : Tm} {s : List Char} {errno : Nat} (hregular : Regular now s errno) :
    Meets now s errno := by
  constructor
  · intro suffix t ht
    obtain ⟨herrno, hsuffix⟩ := hregular.suffix suffix t ht
    cases ht with
    | dated hs hd hx =>
      obtain ⟨year, month, day, hdated⟩ := hd.dated hs herrno
      obtain ⟨hours, minutes, htaken⟩ := hx.taken herrno hsuffix
      rw [stringToTime_dated hdated htaken, dayOf_eq hdated hd]
      exact atHHMM_eq htaken.readHours hx.hours_digits hx.hours_length hx.hours hsuffix
        htaken.readMinutes hx.minutes_digits hx.minutes_length
    | today hx =>
      obtain ⟨hours, minutes, htaken⟩ := hx.taken herrno hsuffix
      rw [stringToTime_today hx.passed htaken]
      exact atHHMM_eq htaken.readHours hx.hours_digits hx.hours_length hx.hours hsuffix
        htaken.readMinutes hx.minutes_digits hx.minutes_length
  · intro hnone
    obtain ⟨d, r, year, month, day, hs, hroom | ⟨h, m, suffix, tail, hours, minutes, hx⟩⟩ |
      hpassed := dated_or_passed errno s
    · exact absurd hroom (hregular.dated_room d r year month day hs)
    · obtain ⟨hd, hfull⟩ := hregular.dated_inFull d r year month day hs h m suffix tail _ _ hx
      exact absurd (.dated hs.eq hd (hx.written hfull).1) (hnone suffix _)
    · refine stringToTime_throws hpassed (hregular.today_room hpassed) ?_
      intro h m suffix tail hours minutes hx
      have hfull := hregular.today_inFull hpassed h m suffix tail _ _ hx
      exact hnone suffix _ (.today (hx.written hfull).1)

theorem Meets.cases {now : Tm} {s : List Char} {errno : Nat} (h : Meets now s errno) :
    (∃ suffix t, Denotes now s suffix t ∧ stringToTime now s errno = (.ok t, errno)) ∨
      Throws (stringToTime now s errno) errno := by
  by_cases hdenotes : ∃ suffix t, Denotes now s suffix t
  · obtain ⟨suffix, t, ht⟩ := hdenotes
    exact .inl ⟨suffix, t, ht, h.1 suffix t ht⟩
  · exact .inr (h.2 fun suffix t ht => hdenotes ⟨suffix, t, ht⟩)

theorem not_throws_ok {α : Type} {a : α} {errno errno' : Nat} :
    ¬Throws ((.ok a, errno) : Outcome α) errno' := fun ⟨_, h⟩ => (nomatch h)

theorem not_throws_undefined {α : Type} {errno errno' : Nat} :
    ¬Throws ((.error .undefined, errno) : Outcome α) errno' := fun ⟨_, h⟩ => (nomatch h)

theorem Meets.not_undefined {now : Tm} {s : List Char} {errno : Nat} (h : Meets now s errno) :
    stringToTime now s errno ≠ (.error .undefined, errno) := by
  intro hundefined
  obtain ⟨suffix, t, -, hok⟩ | hthrows := h.cases
  · rw [hundefined] at hok
    exact (nomatch hok)
  · exact not_throws_undefined (hundefined ▸ hthrows)

/-- What has been read denotes something. -/
theorem Meets.denotes {now t' : Tm} {s : List Char} {errno : Nat} (h : Meets now s errno)
    (hread : stringToTime now s errno = (.ok t', errno)) : ∃ suffix t, Denotes now s suffix t := by
  obtain ⟨suffix, t, ht, -⟩ | hthrows := h.cases
  · exact ⟨suffix, t, ht⟩
  · exact absurd (hread ▸ hthrows) not_throws_ok

theorem Meets.regular {now : Tm} {s : List Char} {errno : Nat} (hmeets : Meets now s errno) :
    Regular now s errno where
  suffix := by
    intro suffix t ht
    have hok := hmeets.1 suffix t ht
    obtain ⟨d, r, year, month, day, hs, hroom | ⟨h, m, suffix', tail, hours, minutes, hx⟩⟩ |
      hpassed := dated_or_passed errno s
    · exact absurd (stringToTime_dated_truncated hs hroom) hmeets.not_undefined
    · have herrno := errno_ne_of_stringToInt (by have := hx.hours_length; omega) hx.readHours
      exact ⟨herrno, (ht.of_dated hs hx.toCuts).2 ▸ hx.suffix⟩
    · by_cases htaken : ∃ h m suffix tail hours minutes,
          Taken errno (skipWhite s) h m suffix tail hours minutes
      · obtain ⟨h, m, suffix', tail, hours, minutes, hx⟩ := htaken
        have herrno := errno_ne_of_stringToInt (by have := hx.hours_length; omega) hx.readHours
        exact ⟨herrno, (ht.of_today hx.toCuts).2 ▸ hx.suffix⟩
      · have hroom : ¬Truncated (skipWhite s) :=
          fun hroom => hmeets.not_undefined (stringToTime_today_truncated hpassed hroom)
        have hthrows : Throws (stringToTime now s errno) errno :=
          stringToTime_throws hpassed hroom fun h m suffix tail hours minutes hx =>
            htaken ⟨h, m, suffix, tail, hours, minutes, hx⟩
        exact absurd (hok ▸ hthrows) not_throws_ok
  dated_room d r year month day hs hroom :=
    hmeets.not_undefined (stringToTime_dated_truncated hs hroom)
  dated_inFull d r year month day hs h m suffix tail hours minutes hx := by
    obtain ⟨suffix', t, ht⟩ := hmeets.denotes (stringToTime_dated hs hx)
    exact (ht.of_dated hs hx.toCuts).1
  today_room hpassed hroom := hmeets.not_undefined (stringToTime_today_truncated hpassed hroom)
  today_inFull hpassed h m suffix tail hours minutes hx := by
    obtain ⟨suffix', t, ht⟩ := hmeets.denotes (stringToTime_today hpassed hx)
    exact (ht.of_today hx.toCuts).1

/-- What a text denotes comes of it, and otherwise an exception, just if it is regular. -/
theorem stringToTime_meets_iff (now : Tm) (s : List Char) (errno : Nat) :
    Meets now s errno ↔ Regular now s errno :=
  ⟨Meets.regular, Regular.meets⟩

theorem Denotes.minutes {now t : Tm} {s suffix : List Char} (ht : Denotes now s suffix t) :
    t.tm_min ≤ 59 := by
  cases ht with
  | dated hs hd hx => exact Int.ofNat_le.mpr hx.minutes
  | today hx => exact Int.ofNat_le.mpr hx.minutes

/-- Of `5:3` characters are cut behind the end, and `5:99pm` has 99 minutes. -/
theorem not_meets_short_nor_99 :
    ¬Meets (ofDate ['2', '0', '0', '2', '0', '4', '2', '5']) ['5', ':', '3'] 0 ∧
      ¬Meets (ofDate ['2', '0', '0', '2', '0', '4', '2', '5'])
        ['5', ':', '9', '9', 'p', 'm'] 0 := by
  refine ⟨fun h => h.not_undefined (by rfl), fun h => ?_⟩
  obtain ⟨suffix, t, ht, hok⟩ | ⟨e, he⟩ := h.cases
  · have hminutes : t.tm_min = 99 := by
      cases hok
      rfl
    exact absurd ht.minutes (by rw [hminutes]; decide)
  · cases he

end StringToTime

end Urnest.Xju
