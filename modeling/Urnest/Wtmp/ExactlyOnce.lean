import Mathlib
import Urnest.Wtmp.LoginMonitor

/-!
# Every login once

`Sound` says what has been read of the files that were dropped, that are tracked, and that are not
known yet. In a sweep the files that it has gone past have no unread login once a later file has one,
since the writer has moved on from them by then (`behind`).
-/

namespace Urnest.Wtmp

variable {L : Layout} {maxRollsTracked : Nat}

/-! ## Records -/

theorem readRecord_append {bytes : List UInt8} {k : Nat} (hk : k < bytes.length / L.size)
    (more : List UInt8) :
    readRecord L (bytes ++ more) (k * L.size) = readRecord L bytes (k * L.size) := by
  have hle : (k + 1) * L.size ≤ bytes.length :=
    (Nat.mul_le_mul_right _ hk).trans (Nat.div_mul_le_self _ _)
  rw [Nat.add_mul, Nat.one_mul] at hle
  rw [readRecord, readRecord, List.drop_append_of_le_length (by omega),
    List.take_append_of_le_length (by rw [List.length_drop]; omega)]

/-- What is appended changes no complete record. -/
theorem loginsUpTo_append {bytes : List UInt8} {n : Nat} (hn : n ≤ bytes.length / L.size)
    (more : List UInt8) : loginsUpTo L (bytes ++ more) n = loginsUpTo L bytes n := by
  rw [loginsUpTo, loginsUpTo]
  refine List.filterMap_congr fun k hk => ?_
  rw [readRecord_append (Nat.lt_of_lt_of_le (List.mem_range.mp hk) hn)]

theorem loginsUpTo_succ (bytes : List UInt8) (n : Nat) :
    loginsUpTo L bytes (n + 1) = loginsUpTo L bytes n
      ++ (processRecord (L.decode (readRecord L bytes (n * L.size)))).toList := by
  rw [loginsUpTo, List.range_succ, List.filterMap_append, loginsUpTo]
  congr 1

theorem loginsUpTo_mono (bytes : List UInt8) {m n : Nat} (h : m ≤ n) :
    loginsUpTo L bytes m <+: loginsUpTo L bytes n := by
  induction h with
  | refl => exact List.prefix_refl _
  | step _ ih =>
    rw [Nat.succ_eq_add_one, loginsUpTo_succ]
    exact ih.trans (List.prefix_append _ _)

@[simp] theorem loginsUpTo_zero (bytes : List UInt8) : loginsUpTo L bytes 0 = [] := rfl

@[simp] theorem loginsOf_nil : loginsOf L [] = [] := by
  rw [loginsOf, List.length_nil, Nat.zero_div, loginsUpTo_zero]

theorem length_readRecord (bytes : List UInt8) (n : Nat) :
    (readRecord L bytes (n * L.size)).length < L.size ↔ bytes.length / L.size ≤ n := by
  rw [readRecord, List.length_take, List.length_drop, Nat.div_le_iff_le_mul_add_pred L.size_pos]
  have := L.size_pos
  rw [Nat.mul_comm L.size n]
  omega

/-! ## Logins of a file -/

theorem ofFile_append (file : Nat) (xs ys : List (Nat × UserLoggedIn)) :
    ofFile file (xs ++ ys) = ofFile file xs ++ ofFile file ys := by
  rw [ofFile, List.filter_append, List.map_append, ofFile, ofFile]

theorem ofFile_single_self (file : Nat) (x : UserLoggedIn) : ofFile file [(file, x)] = [x] := by
  simp [ofFile]

theorem ofFile_single_ne {file f : Nat} (h : f ≠ file) (x : UserLoggedIn) :
    ofFile file [(f, x)] = [] := by
  simp [ofFile, h]

theorem State.content_of_le {s : State} {f : Nat} (h : s.files.length ≤ f) : s.content f = [] := by
  rw [State.content, List.getD_eq_getElem?_getD, List.getElem?_eq_none h, Option.getD_none]

/-- What calls have returned, and the last is about to -/
def State.collected (s : State) : List (Nat × UserLoggedIn) := s.returned.flatten ++ s.result

/-- What is true of the monitor: `d` files have been dropped. -/
structure Sound (L : Layout) (d : Nat) (s : State) : Prop where
  file : ∀ (k : Nat) r, s.currentFiles_[k]? = some r → r.file = d + k
  seen : d + s.currentFiles_.length = s.files.length ∨
    (d + s.currentFiles_.length + 1 = s.files.length ∧ s.named = true)
  first : s.currentFiles_.length = 0 → d = 0
  named : s.named = true → 0 < s.files.length
  writing : ∀ f, s.content f ≠ [] → f ≤ s.writing
  offset : ∀ (k : Nat) r, s.currentFiles_[k]? = some r →
    ∃ n, r.offset = n * L.size ∧ n ≤ (s.content r.file).length / L.size
  dropped : ∀ f < d, ofFile f s.collected = loginsOf L (s.content f) ∧ f < s.writing
  tracked : ∀ (k : Nat) r, s.currentFiles_[k]? = some r →
    ofFile r.file s.collected = loginsUpTo L (s.content r.file) (r.offset / L.size)
  unseen : ∀ f, d + s.currentFiles_.length ≤ f → ofFile f s.collected = []
  result : (∀ i newest count, s.phase ≠ .reading i newest count) → s.result = []
  sweep : ∀ i newest count, s.phase = .reading i newest count →
    i ≤ s.currentFiles_.length ∧ (newest = 0 ∨ newest < i) ∧
      (count ≠ 0 → i < s.currentFiles_.length)
  /-- the files that the sweep has gone past, when a later file has logins -/
  behind : ∀ i newest count, s.phase = .reading i newest count →
    ∀ (j : Nat) r, j < i → s.currentFiles_[j]? = some r →
      ((∃ (k : Nat) (r' : Reader), i ≤ k ∧ s.currentFiles_[k]? = some r' ∧ ¬ Clean L s r') ∨
        j < newest ∨ count ≠ 0) →
      Clean L s r ∧ r.file < s.writing
  /-- undisturbed, it has read what it has gone past -/
  quiet : s.quiet = true → s.phase ≠ .looking →
    d + s.currentFiles_.length = s.files.length ∧
      ∀ (j : Nat) r, s.currentFiles_[j]? = some r →
        (∀ i newest count, s.phase = .reading i newest count → j < i) → Clean L s r

theorem sound_init : Sound L 0 init where
  file _ _ h := nomatch h
  seen := .inl rfl
  first _ := rfl
  named h := nomatch h
  writing f h := absurd (by simp [State.content, init]) h
  offset _ _ h := nomatch h
  dropped _ h := nomatch h
  tracked _ _ h := nomatch h
  unseen _ _ := rfl
  result _ := rfl
  sweep _ _ _ h := nomatch h
  behind _ _ _ h := nomatch h
  quiet h := nomatch h

/-- All that it has read has been returned in order, and once. -/
theorem Sound.exactlyOnce {d : Nat} {s : State} (h : Sound L d s) : ExactlyOnce L s := by
  have hcases : ∀ f, (f < d ∨ d + s.currentFiles_.length ≤ f) ∨
      ∃ k r, s.currentFiles_[k]? = some r ∧ f = d + k := by
    intro f
    by_cases hf : f < d ∨ d + s.currentFiles_.length ≤ f
    · exact .inl hf
    · have hk : f - d < s.currentFiles_.length := by omega
      exact .inr ⟨f - d, _, List.getElem?_eq_getElem hk, by omega⟩
  refine ⟨fun f => ?_, fun hidle hquiet f => ?_⟩
  · rcases hcases f with (hf | hf) | ⟨k, r, hr, rfl⟩
    · rw [show s.returned.flatten ++ s.result = s.collected from rfl, (h.dropped f hf).1]
    · rw [show s.returned.flatten ++ s.result = s.collected from rfl, h.unseen f hf]
      exact List.nil_prefix
    · obtain ⟨n, hoffset, hn⟩ := h.offset k r hr
      rw [show s.returned.flatten ++ s.result = s.collected from rfl, ← h.file k r hr,
        h.tracked k r hr, hoffset, Nat.mul_div_cancel _ L.size_pos]
      exact loginsUpTo_mono _ hn
  · have hresult : s.result = [] := h.result fun _ _ _ heq => by rw [hidle] at heq; cases heq
    have hcollected : s.returned.flatten = s.collected := by
      rw [State.collected, hresult, List.append_nil]
    obtain ⟨hseen, hclean⟩ := h.quiet hquiet (by rw [hidle]; exact fun h => nomatch h)
    rw [hcollected]
    rcases hcases f with (hf | hf) | ⟨k, r, hr, rfl⟩
    · exact (h.dropped f hf).1
    · rw [h.unseen f hf, State.content_of_le (by omega), loginsOf_nil]
    · rw [← h.file k r hr, h.tracked k r hr]
      exact (hclean k r hr fun _ _ _ heq => by rw [hidle] at heq; cases heq).symm

/-! ## The writer -/

theorem Clean.congr {s s' : State} {r : Reader} (h : s'.content r.file = s.content r.file) :
    Clean L s' r ↔ Clean L s r := by
  rw [Clean, Clean, h]

/-- A file with an unread login is not empty. -/
theorem Sound.le_writing {d : Nat} {s : State} (h : Sound L d s) {k : Nat} {r : Reader}
    (hr : s.currentFiles_[k]? = some r) (hclean : ¬ Clean L s r) : r.file ≤ s.writing := by
  apply h.writing
  intro hempty
  obtain ⟨n, hoffset, hn⟩ := h.offset k r hr
  rw [hempty, List.length_nil, Nat.zero_div, Nat.le_zero] at hn
  refine hclean ?_
  rw [Clean, hempty, loginsOf_nil, hoffset, hn, Nat.zero_mul, Nat.zero_div, loginsUpTo_zero]

theorem Sound.append {d file : Nat} {s : State} {bytes : List UInt8} (h : Sound L d s)
    (hwriting : s.writing ≤ file) (hfile : file < s.files.length)
    (hfollows : Follows L maxRollsTracked s (.append file bytes)) :
    Sound L d { s with
      files := s.files.set file (s.content file ++ bytes), writing := file, quiet := false } := by
  set s' : State := { s with
    files := s.files.set file (s.content file ++ bytes), writing := file, quiet := false }
  have hself : s'.content file = s.content file ++ bytes := by
    simp [s', State.content, List.getD_eq_getElem?_getD, hfile]
  have hne : ∀ f, f ≠ file → s'.content f = s.content f := by
    intro f hf
    simp [s', State.content, List.getD_eq_getElem?_getD, Ne.symm hf]
  -- what has been read of a file stays what it is
  have hread : ∀ f n, n ≤ (s.content f).length / L.size →
      loginsUpTo L (s'.content f) n = loginsUpTo L (s.content f) n ∧
        n ≤ (s'.content f).length / L.size := by
    intro f n hn
    by_cases hf : f = file
    · subst hf
      rw [hself]
      refine ⟨loginsUpTo_append hn bytes, hn.trans (Nat.div_le_div_right ?_)⟩
      rw [List.length_append]
      exact Nat.le_add_right ..
    · rw [hne f hf]
      exact ⟨rfl, hn⟩
  have hlater : ∀ {r : Reader}, Clean L s r → r.file < s.writing →
      Clean L s' r ∧ r.file < s'.writing := by
    intro r hclean hlt
    have hlt' : r.file < file := Nat.lt_of_lt_of_le hlt hwriting
    exact ⟨(Clean.congr (hne _ hlt'.ne)).mpr hclean, hlt'⟩
  refine ⟨h.file, ?_, h.first, ?_, ?_, ?_, ?_, ?_, h.unseen, h.result, h.sweep, ?_, ?_⟩
  · rw [show s'.files.length = s.files.length from List.length_set ..]
    exact h.seen
  · rw [show s'.files.length = s.files.length from List.length_set ..]
    exact h.named
  · intro f hf
    by_cases heq : f = file
    · exact heq.le
    · rw [hne f heq] at hf
      exact (h.writing f hf).trans hwriting
  · intro k r hr
    obtain ⟨n, hoffset, hn⟩ := h.offset k r hr
    exact ⟨n, hoffset, (hread _ n hn).2⟩
  · intro f hf
    obtain ⟨hall, hlt⟩ := h.dropped f hf
    have hlt' : f < file := Nat.lt_of_lt_of_le hlt hwriting
    rw [hne f hlt'.ne]
    exact ⟨hall, hlt'⟩
  · intro k r hr
    obtain ⟨n, hoffset, hn⟩ := h.offset k r hr
    have hdiv : r.offset / L.size = n := by rw [hoffset, Nat.mul_div_cancel _ L.size_pos]
    rw [hdiv, (hread _ n hn).1, ← hdiv]
    exact h.tracked k r hr
  · intro i newest count hphase j r hj hr hlogins
    by_cases hold : (∃ (k : Nat) (r' : Reader), i ≤ k ∧ s.currentFiles_[k]? = some r' ∧
        ¬ Clean L s r') ∨ j < newest ∨ count ≠ 0
    · obtain ⟨hclean, hlt⟩ := h.behind i newest count hphase j r hj hr hold
      exact hlater hclean hlt
    · -- then the login is in the file appended to, which is still to be read
      rw [not_or] at hold
      obtain ⟨k, r', hk, hr', hclean'⟩ := hlogins.resolve_right hold.2
      have hfile' : r'.file = file := by
        by_contra hdiff
        refine hold.1 ⟨k, r', hk, hr', fun hclean => hclean' ?_⟩
        exact (Clean.congr (hne _ hdiff)).mpr hclean
      have hclean : Clean L s r := by
        refine hfollows i newest count hphase k r' hk hr' hfile' ?_ j r hj hr
        rw [Clean, hfile', hself] at hclean'
        exact hclean'
      have hlt : r.file < file := by
        have hrj := h.file j r hr
        have hrk := h.file k r' hr'
        omega
      exact ⟨(Clean.congr (hne _ hlt.ne)).mpr hclean, hlt⟩
  · exact fun h => nomatch h

/-- The newest file is the last tracked, when there is no new one. -/
theorem Sound.seen_of_newFile {d : Nat} {s : State} (h : Sound L d s) (hnew : s.newFile = none) :
    d + s.currentFiles_.length = s.files.length := by
  rcases h.seen with hseen | ⟨hseen, hnamed⟩
  · exact hseen
  rw [State.newFile, hnamed, Bool.true_and] at hnew
  split_ifs at hnew with hlast
  have heq : s.currentFiles_.getLast?.map Reader.file = some (s.files.length - 1) := by
    simpa using hlast
  obtain ⟨r, hr, hfile⟩ := Option.map_eq_some_iff.mp heq
  rw [List.getLast?_eq_getElem?] at hr
  have hlt := (List.getElem?_eq_some_iff.mp hr).1
  have := h.file _ r hr
  omega

/-- A new file comes after all that are tracked. -/
theorem Sound.newFile_eq {d file : Nat} {s : State} (h : Sound L d s)
    (hnew : s.newFile = some file) :
    file = d + s.currentFiles_.length ∧ file + 1 = s.files.length := by
  rw [State.newFile] at hnew
  split_ifs at hnew with hnamed
  cases hnew
  rw [Bool.and_eq_true] at hnamed
  have hpos := h.named hnamed.1
  rcases h.seen with hseen | ⟨hseen, -⟩
  · -- it would be the last of them
    exfalso
    have hlen : 0 < s.currentFiles_.length := by
      by_contra hzero
      have := h.first (by omega)
      omega
    have hr := List.getElem?_eq_getElem (by omega : s.currentFiles_.length - 1 < s.currentFiles_.length)
    have hlast := h.file _ _ hr
    have hsome : s.currentFiles_.getLast?.map Reader.file = some (s.files.length - 1) := by
      rw [List.getLast?_eq_getElem?, hr, Option.map_some, hlast]
      congr 1
      omega
    simp [hsome] at hnamed
  · omega

theorem Sound.rename {d : Nat} {s : State} (h : Sound L d s) (hnew : s.newFile = none) :
    Sound L d { s with named := false, quiet := false } where
  __ := h
  seen := .inl (h.seen_of_newFile hnew)
  named h := nomatch h
  quiet h := nomatch h

theorem Sound.create {d : Nat} {s : State} (h : Sound L d s) (hnamed : s.named = false) :
    Sound L d { s with files := s.files ++ [[]], named := true, quiet := false } := by
  set s' : State := { s with files := s.files ++ [[]], named := true, quiet := false }
  have hcontent : ∀ f, s'.content f = s.content f := by
    intro f
    simp only [s', State.content, List.getD_eq_getElem?_getD]
    rcases Nat.lt_trichotomy f s.files.length with hf | rfl | hf
    · rw [List.getElem?_append_left hf]
    · simp
    · rw [List.getElem?_eq_none (by simp; omega), List.getElem?_eq_none (by omega)]
  have hseen : d + s.currentFiles_.length = s.files.length := by
    rcases h.seen with hseen | ⟨-, htrue⟩
    · exact hseen
    · rw [hnamed] at htrue
      cases htrue
  have hclean : ∀ r, Clean L s' r ↔ Clean L s r := fun r => Clean.congr (hcontent r.file)
  refine ⟨h.file, .inr ⟨?_, rfl⟩, h.first, ?_, ?_, ?_, ?_, ?_, h.unseen, h.result, h.sweep, ?_, ?_⟩
  · rw [hseen]
    simp [s']
  · intro _
    simp [s']
  · intro f hf
    exact h.writing f (by rwa [hcontent] at hf)
  · intro k r hr
    rw [hcontent]
    exact h.offset k r hr
  · intro f hf
    rw [hcontent]
    exact h.dropped f hf
  · intro k r hr
    rw [hcontent]
    exact h.tracked k r hr
  · intro i newest count hphase j r hj hr hlogins
    rw [hclean]
    refine h.behind i newest count hphase j r hj hr (hlogins.imp_left ?_)
    rintro ⟨k, r', hk, hr', hnot⟩
    exact ⟨k, r', hk, hr', by rwa [← hclean]⟩
  · exact fun h => nomatch h

/-! ## The monitor -/

theorem Sound.result_of {d : Nat} {s : State} (h : Sound L d s) {phase : Phase}
    (hphase : s.phase = phase) (hne : ∀ i newest count, phase ≠ .reading i newest count) :
    s.result = [] := by
  refine h.result fun i newest count heq => hne i newest count ?_
  rw [← hphase, heq]

/-- In another phase, when nothing has been read that has not been returned. -/
theorem Sound.setPhase {d : Nat} {s : State} (h : Sound L d s) {phase : Phase} {quiet : Bool}
    (hresult : s.result = []) (hne : ∀ i newest count, phase ≠ .reading i newest count)
    (hquiet : quiet = true → phase ≠ .looking → s.quiet = true ∧ s.phase ≠ .looking ∧
      ∀ i newest count, s.phase ≠ .reading i newest count) :
    Sound L d { s with phase := phase, quiet := quiet } where
  __ := h
  result _ := hresult
  sweep i newest count heq := absurd heq (hne i newest count)
  behind i newest count heq := absurd heq (hne i newest count)
  quiet hq hlooking := by
    obtain ⟨hq', hlooking', hne'⟩ := hquiet hq hlooking
    obtain ⟨hseen, hclean⟩ := h.quiet hq' hlooking'
    exact ⟨hseen, fun j r hr _ => hclean j r hr fun i newest count heq =>
      absurd heq (hne' i newest count)⟩

theorem Sound.throws {d : Nat} {s : State} (h : Sound L d s) (hresult : s.result = []) :
    Sound L d s.throws := by
  have hthrows : Sound L d { s with phase := .idle, quiet := false } :=
    h.setPhase hresult (fun _ _ _ h => by cases h) fun h => by cases h
  rw [State.throws]
  rwa [← hresult]

/-- Files are dropped that have been read, and that the writer has moved on from. -/
theorem Sound.drop {d : Nat} {s : State} (h : Sound L d s) {n : Nat}
    (hn : n = 0 ∨ n < s.currentFiles_.length)
    (hdone : ∀ (j : Nat) r, j < n → s.currentFiles_[j]? = some r → Clean L s r ∧ r.file < s.writing)
    {phase : Phase} (hne : ∀ i newest count, phase ≠ .reading i newest count)
    {returned : List (List (Nat × UserLoggedIn))} (hreturned : returned.flatten = s.collected)
    (hquiet : s.quiet = true → phase ≠ .looking → d + s.currentFiles_.length = s.files.length ∧
      ∀ (j : Nat) r, s.currentFiles_[j]? = some r → Clean L s r) :
    Sound L (d + n) { s with
      currentFiles_ := s.currentFiles_.drop n, phase := phase, result := [],
      returned := returned } := by
  set s' : State := { s with
    currentFiles_ := s.currentFiles_.drop n, phase := phase, result := [], returned := returned }
  have hcollected : s'.collected = s.collected := by
    rw [State.collected, show s'.result = [] from rfl, List.append_nil]
    exact hreturned
  have hget : ∀ (k : Nat) r, s'.currentFiles_[k]? = some r → s.currentFiles_[n + k]? = some r := by
    intro k r hr
    rwa [← List.getElem?_drop]
  have hlen : d + n + s'.currentFiles_.length = d + s.currentFiles_.length := by
    rw [show s'.currentFiles_ = s.currentFiles_.drop n from rfl, List.length_drop]
    omega
  refine ⟨?_, ?_, ?_, h.named, h.writing, ?_, ?_, ?_, ?_, fun _ => rfl, ?_, ?_, ?_⟩
  · intro k r hr
    rw [h.file _ r (hget k r hr), Nat.add_assoc]
  · rw [hlen]
    exact h.seen
  · intro hzero
    rw [show s'.currentFiles_ = s.currentFiles_.drop n from rfl, List.length_drop] at hzero
    have := h.first (by omega)
    omega
  · intro k r hr
    exact h.offset _ r (hget k r hr)
  · intro f hf
    rw [hcollected]
    by_cases hd : f < d
    · exact h.dropped f hd
    · have hj : f - d < s.currentFiles_.length := by omega
      have hr := List.getElem?_eq_getElem hj
      obtain ⟨hclean, hlt⟩ := hdone (f - d) _ (by omega) hr
      have htracked := h.tracked _ _ hr
      rw [Clean] at hclean
      rw [← hclean, h.file _ _ hr, show d + (f - d) = f by omega] at htracked
      rw [h.file _ _ hr, show d + (f - d) = f by omega] at hlt
      exact ⟨htracked, hlt⟩
  · intro k r hr
    rw [hcollected]
    exact h.tracked _ r (hget k r hr)
  · intro f hf
    rw [hcollected]
    exact h.unseen f (by rwa [hlen] at hf)
  · exact fun i newest count heq => absurd heq (hne i newest count)
  · exact fun i newest count heq => absurd heq (hne i newest count)
  · intro hq hlooking
    obtain ⟨hseen, hclean⟩ := hquiet hq hlooking
    rw [hlen]
    exact ⟨hseen, fun j r hr _ => hclean _ r (hget j r hr)⟩

/-- A new file is tracked. -/
theorem Sound.push {d : Nat} {s : State} (h : Sound L d s) (hresult : s.result = [])
    (hlast : d + s.currentFiles_.length + 1 = s.files.length) :
    Sound L d { s with
      currentFiles_ := s.currentFiles_ ++ [⟨d + s.currentFiles_.length, 0⟩],
      phase := .reading 0 0 0 } := by
  set s' : State := { s with
    currentFiles_ := s.currentFiles_ ++ [⟨d + s.currentFiles_.length, 0⟩], phase := .reading 0 0 0 }
  have hget : ∀ (k : Nat) r, s'.currentFiles_[k]? = some r → s.currentFiles_[k]? = some r ∨
      (k = s.currentFiles_.length ∧ r = ⟨d + s.currentFiles_.length, 0⟩) := by
    intro k r hr
    rcases Nat.lt_or_ge k s.currentFiles_.length with hk | hk
    · left
      rwa [show s'.currentFiles_ = _ ++ _ from rfl, List.getElem?_append_left hk] at hr
    · right
      rw [show s'.currentFiles_ = _ ++ _ from rfl, List.getElem?_append_right hk,
        List.getElem?_singleton] at hr
      split_ifs at hr with hzero
      cases hr
      exact ⟨by omega, rfl⟩
  have hlen : s'.currentFiles_.length = s.currentFiles_.length + 1 := List.length_append
  refine ⟨?_, ?_, ?_, h.named, h.writing, ?_, h.dropped, ?_, ?_, fun _ => hresult, ?_, ?_, ?_⟩
  · intro k r hr
    rcases hget k r hr with hr | ⟨rfl, rfl⟩
    · exact h.file k r hr
    · rfl
  · left
    rw [hlen]
    exact hlast
  · rw [hlen]
    exact fun h => absurd h (Nat.succ_ne_zero _)
  · intro k r hr
    rcases hget k r hr with hr | ⟨rfl, rfl⟩
    · exact h.offset k r hr
    · exact ⟨0, (Nat.zero_mul _).symm, Nat.zero_le _⟩
  · intro k r hr
    rcases hget k r hr with hr | ⟨rfl, rfl⟩
    · exact h.tracked k r hr
    · rw [Nat.zero_div, loginsUpTo_zero]
      exact h.unseen _ le_rfl
  · intro f hf
    exact h.unseen f (by omega)
  · rintro _ _ _ ⟨⟩
    exact ⟨Nat.zero_le _, .inl rfl, fun h => absurd rfl h⟩
  · rintro _ _ _ ⟨⟩ j r hj
    cases hj
  · refine fun _ _ => ⟨?_, fun j r hr hj => ?_⟩
    · rw [hlen]
      exact hlast
    · cases hj 0 0 0 rfl

theorem Sound.look {d : Nat} {s : State} (h : Sound L d s) (hphase : s.phase = .looking)
    (hfollows : Follows L maxRollsTracked s .look) :
    ∃ d, Sound L d { trackRoll maxRollsTracked s with phase := .reading 0 0 0 } := by
  have hresult : s.result = [] := h.result_of hphase fun _ _ _ h => nomatch h
  rw [trackRoll]
  cases hnew : s.newFile with
  | none =>
    have hseen := h.seen_of_newFile hnew
    refine ⟨d, { h with result := fun _ => hresult, sweep := ?_, behind := ?_, quiet := ?_ }⟩
    · rintro _ _ _ ⟨⟩
      exact ⟨Nat.zero_le _, .inl rfl, fun h => absurd rfl h⟩
    · rintro _ _ _ ⟨⟩ j r hj
      cases hj
    · refine fun _ _ => ⟨hseen, fun j r hr hj => ?_⟩
      cases hj 0 0 0 rfl
  | some file =>
    obtain ⟨rfl, hlast⟩ := h.newFile_eq hnew
    dsimp only
    split_ifs with hfull
    · -- the oldest is given up
      have hdrop : Sound L (d + 1) { s with
          currentFiles_ := s.currentFiles_.drop 1, phase := .looking, result := [],
          returned := s.returned } := by
        refine h.drop (.inr (by omega)) ?_ ?_ ?_ fun _ h => absurd rfl h
        · intro j r hj hr
          obtain rfl : j = 0 := by omega
          exact hfollows (by rw [hnew]; exact fun h => nomatch h) hfull r
            (by rw [List.head?_eq_getElem?]; exact hr)
        · exact fun _ _ _ h => nomatch h
        · rw [State.collected, hresult, List.append_nil]
      have hlen : d + 1 + (s.currentFiles_.drop 1).length = d + s.currentFiles_.length := by
        rw [List.length_drop]
        omega
      have hpush := hdrop.push rfl (by dsimp only; omega)
      dsimp only at hpush
      rw [hlen, List.drop_one, ← hresult] at hpush
      exact ⟨d + 1, hpush⟩
    · exact ⟨d, h.push hresult hlast⟩

/-- What a record is read as -/
def found (L : Layout) (s : State) (r : Reader) : List (Nat × UserLoggedIn) :=
  (processRecord (L.decode (readRecord L (s.content r.file) r.offset))).toList.map (r.file, ·)

theorem ofFile_found (s : State) (r : Reader) :
    ofFile r.file (found L s r)
      = (processRecord (L.decode (readRecord L (s.content r.file) r.offset))).toList := by
  rw [found]
  cases processRecord (L.decode (readRecord L (s.content r.file) r.offset)) with
  | none => rfl
  | some login => exact ofFile_single_self _ _

theorem ofFile_found_ne {s : State} {r : Reader} {f : Nat} (hf : r.file ≠ f) :
    ofFile f (found L s r) = [] := by
  rw [found]
  cases processRecord (L.decode (readRecord L (s.content r.file) r.offset)) with
  | none => rfl
  | some login => exact ofFile_single_ne hf _

/-- The state after a turn that reads a record -/
def readOn (L : Layout) (s : State) (i : Nat) (r : Reader) (phase : Phase) : State :=
  { s with
    currentFiles_ := s.currentFiles_.set i ⟨r.file, r.offset + L.size⟩, phase := phase
    result := s.result ++ found L s r }

theorem Sound.readOn {d : Nat} {s : State} (h : Sound L d s) {i newest count count' : Nat}
    (hphase : s.phase = .reading i newest count) {r : Reader} (hr : s.currentFiles_[i]? = some r)
    {n : Nat} (hoffset : r.offset = n * L.size) (hn : n < (s.content r.file).length / L.size)
    (hcount' : count' ≠ 0 → count ≠ 0 ∨ found L s r ≠ []) :
    Sound L d (readOn L s i r (.reading i newest count')) := by
  set s' := Wtmp.readOn L s i r (.reading i newest count')
  have hlt := (List.getElem?_eq_some_iff.mp hr).1
  have hcollected : s'.collected = s.collected ++ found L s r :=
    (List.append_assoc ..).symm
  have hlen : s'.currentFiles_.length = s.currentFiles_.length := List.length_set ..
  have hget : ∀ (k : Nat) x, s'.currentFiles_[k]? = some x →
      (k = i ∧ x = ⟨r.file, r.offset + L.size⟩) ∨ (k ≠ i ∧ s.currentFiles_[k]? = some x) := by
    intro k x hx
    rw [show s'.currentFiles_ = s.currentFiles_.set i _ from rfl, List.getElem?_set] at hx
    split_ifs at hx with hk
    · cases hx
      exact .inl ⟨hk.symm, rfl⟩
    · exact .inr ⟨Ne.symm hk, hx⟩
  have hother : ∀ {k : Nat} {x : Reader}, k ≠ i → s.currentFiles_[k]? = some x → r.file ≠ x.file := by
    intro k x hk hx
    have hri := h.file i r hr
    have hxk := h.file k x hx
    omega
  have hdiv : r.offset / L.size = n := by rw [hoffset, Nat.mul_div_cancel _ L.size_pos]
  have hdiv' : (r.offset + L.size) / L.size = n + 1 := by
    rw [Nat.add_div_right _ L.size_pos, hdiv]
  have htracked := h.tracked i r hr
  rw [hdiv] at htracked
  -- there was a login to be read, or the record is none
  have hunclean : found L s r ≠ [] ∨ ¬ Clean L s' ⟨r.file, r.offset + L.size⟩ → ¬ Clean L s r := by
    intro hor hclean
    rw [Clean, hdiv] at hclean
    have hle : loginsUpTo L (s.content r.file) (n + 1) <+: loginsUpTo L (s.content r.file) n := by
      rw [← hclean]
      exact loginsUpTo_mono _ hn
    have heq := hle.eq_of_length_le (loginsUpTo_mono _ (Nat.le_succ n)).length_le
    rcases hor with hfound | hnot
    · rw [loginsUpTo_succ, List.append_right_eq_self] at heq
      refine hfound ?_
      rw [found, hoffset, heq, List.map_nil]
    · refine hnot ?_
      rw [Clean, hdiv', show s'.content r.file = s.content r.file from rfl, heq]
      exact hclean
  refine ⟨?_, ?_, ?_, h.named, h.writing, ?_, ?_, ?_, ?_, ?_, ?_, ?_, ?_⟩
  · intro k x hx
    rcases hget k x hx with ⟨rfl, rfl⟩ | ⟨-, hx⟩
    · exact h.file k r hr
    · exact h.file k x hx
  · rw [hlen]
    exact h.seen
  · rw [hlen]
    exact h.first
  · intro k x hx
    rcases hget k x hx with ⟨rfl, rfl⟩ | ⟨-, hx⟩
    · refine ⟨n + 1, ?_, hn⟩
      rw [hoffset, Nat.add_mul, Nat.one_mul]
    · exact h.offset k x hx
  · intro f hf
    have hri := h.file i r hr
    rw [hcollected, ofFile_append, ofFile_found_ne (by omega), List.append_nil]
    exact h.dropped f hf
  · intro k x hx
    rw [hcollected, ofFile_append]
    rcases hget k x hx with ⟨rfl, rfl⟩ | ⟨hk, hx⟩
    · rw [hdiv', loginsUpTo_succ]
      change ofFile r.file s.collected ++ ofFile r.file (found L s r)
        = loginsUpTo L (s.content r.file) n ++ _
      rw [htracked, ofFile_found, hoffset]
      rfl
    · rw [ofFile_found_ne (hother hk hx), List.append_nil]
      exact h.tracked k x hx
  · intro f hf
    have hri := h.file i r hr
    rw [hlen] at hf
    rw [hcollected, ofFile_append, ofFile_found_ne (by omega), List.append_nil]
    exact h.unseen f hf
  · exact fun hne => absurd rfl (hne i newest count')
  · rintro _ _ _ ⟨⟩
    obtain ⟨hi, hnewest, -⟩ := h.sweep i newest count hphase
    rw [hlen]
    exact ⟨hi, hnewest, fun _ => hlt⟩
  · rintro _ _ _ ⟨⟩ j x hj hx hlogins
    obtain ⟨-, hx⟩ := (hget j x hx).resolve_left fun h => hj.ne h.1
    refine h.behind i newest count hphase j x hj hx ?_
    rcases hlogins with ⟨k, y, hk, hy, hnot⟩ | hnewest | hcount
    · rcases hget k y hy with ⟨rfl, rfl⟩ | ⟨-, hy⟩
      · exact .inl ⟨k, r, hk, hr, hunclean (.inr hnot)⟩
      · exact .inl ⟨k, y, hk, hy, hnot⟩
    · exact .inr (.inl hnewest)
    · rcases hcount' hcount with hcount | hfound
      · exact .inr (.inr hcount)
      · exact .inl ⟨i, r, le_rfl, hr, hunclean (.inl hfound)⟩
  · intro hquiet _
    obtain ⟨hseen, hclean⟩ := h.quiet hquiet (by rw [hphase]; exact fun h => nomatch h)
    rw [hlen]
    refine ⟨hseen, fun j x hx hj => ?_⟩
    have hj' : j < i := hj i newest count' rfl
    obtain ⟨-, hx⟩ := (hget j x hx).resolve_left fun h => hj'.ne h.1
    refine hclean j x hx fun _ _ _ heq => ?_
    rw [hphase] at heq
    cases heq
    exact hj'

theorem Sound.readTurn {d : Nat} {s : State} (h : Sound L d s) {i newest count : Nat}
    (hphase : s.phase = .reading i newest count) {r : Reader} (hr : s.currentFiles_[i]? = some r) :
    Sound L d (readTurn L s i newest count r) := by
  obtain ⟨n, hoffset, hn⟩ := h.offset i r hr
  obtain ⟨hi, hnewest, hcount⟩ := h.sweep i newest count hphase
  have hdiv : r.offset / L.size = n := by rw [hoffset, Nat.mul_div_cancel _ L.size_pos]
  have hlt := (List.getElem?_eq_some_iff.mp hr).1
  rw [Wtmp.readTurn]
  dsimp only
  by_cases hend : (readRecord L (s.content r.file) r.offset).length < L.size
  · -- the file has been read to its end
    rw [if_pos hend]
    rw [hoffset, length_readRecord] at hend
    have hclean : Clean L s r := by
      rw [Clean, hdiv, loginsOf, Nat.le_antisymm hend hn]
    have hnewest' : (if count ≠ 0 then i else newest) = i ∧ count ≠ 0 ∨
        (if count ≠ 0 then i else newest) = newest ∧ count = 0 := by
      by_cases hzero : count = 0
      · exact .inr ⟨by rw [if_neg (not_not.mpr hzero)], hzero⟩
      · exact .inl ⟨by rw [if_pos hzero], hzero⟩
    generalize (if count ≠ 0 then i else newest) = newest' at hnewest'
    refine { h with result := ?_, sweep := ?_, behind := ?_, quiet := ?_ }
    · exact fun hne => absurd rfl (hne (i + 1) newest' 0)
    · rintro _ _ _ ⟨⟩
      exact ⟨hlt, by omega, fun h => absurd rfl h⟩
    · rintro _ _ _ ⟨⟩ j x hj hx hlogins
      rcases Nat.lt_succ_iff_lt_or_eq.mp hj with hj | rfl
      · refine h.behind i newest count hphase j x hj hx ?_
        rcases hlogins with ⟨k, y, hk, hy, hnot⟩ | hlogins | hzero
        · exact .inl ⟨k, y, by omega, hy, hnot⟩
        · rcases hnewest' with ⟨-, hcount'⟩ | ⟨rfl, -⟩
          · exact .inr (.inr hcount')
          · exact .inr (.inl hlogins)
        · exact absurd rfl hzero
      · -- a later file has a login, so the writer has moved on
        obtain rfl : x = r := by
          rw [hr] at hx
          exact (Option.some.inj hx).symm
        refine ⟨hclean, ?_⟩
        rcases hlogins with ⟨k, y, hk, hy, hnot⟩ | hlogins | hzero
        · have hle := h.le_writing hy hnot
          have hxj := h.file j x hr
          have hyk := h.file k y hy
          change x.file < s.writing
          omega
        · omega
        · exact absurd rfl hzero
    · intro hquiet _
      obtain ⟨hseen, hall⟩ := h.quiet hquiet (by rw [hphase]; exact fun h => nomatch h)
      refine ⟨hseen, fun j x hx hj => ?_⟩
      rcases Nat.lt_succ_iff_lt_or_eq.mp (hj (i + 1) newest' 0 rfl) with hj | rfl
      · refine hall j x hx fun _ _ _ heq => ?_
        rw [hphase] at heq
        cases heq
        exact hj
      · obtain rfl : x = r := by
          rw [hr] at hx
          exact (Option.some.inj hx).symm
        exact hclean
  · rw [if_neg hend]
    rw [hoffset, length_readRecord, Nat.not_le] at hend
    cases hrecord : processRecord (L.decode (readRecord L (s.content r.file) r.offset)) with
    | none =>
      have hfound : found L s r = [] := by rw [found, hrecord]; rfl
      have hread := h.readOn hphase hr hoffset hend (.inl : count ≠ 0 → _)
      rwa [Wtmp.readOn, hfound, List.append_nil, ← hphase] at hread
    | some login =>
      have hfound : found L s r = [(r.file, login)] := by rw [found, hrecord]; rfl
      have hread := h.readOn hphase hr hoffset hend
        (fun _ => .inr (by rw [hfound]; exact List.cons_ne_nil _ _) : count + 1 ≠ 0 → _)
      rwa [Wtmp.readOn, hfound] at hread

/-- The end of a sweep -/
theorem Sound.finish {d : Nat} {s : State} (h : Sound L d s) {newest count : Nat}
    (hphase : s.phase = .reading s.currentFiles_.length newest count) :
    ∃ d, Sound L d
      (if s.result ≠ [] then
        State.returns { s with currentFiles_ := s.currentFiles_.drop newest }
      else { s with currentFiles_ := s.currentFiles_.drop newest, phase := .waiting }) := by
  obtain ⟨-, hnewest, -⟩ := h.sweep _ _ _ hphase
  have hdone : ∀ (j : Nat) r, j < newest → s.currentFiles_[j]? = some r →
      Clean L s r ∧ r.file < s.writing := by
    intro j r hj hr
    exact h.behind _ _ _ hphase j r (List.getElem?_eq_some_iff.mp hr).1 hr (.inr (.inl hj))
  have hquiet : s.quiet = true → d + s.currentFiles_.length = s.files.length ∧
      ∀ (j : Nat) r, s.currentFiles_[j]? = some r → Clean L s r := by
    intro hq
    obtain ⟨hseen, hclean⟩ := h.quiet hq (by rw [hphase]; exact fun h => nomatch h)
    refine ⟨hseen, fun j r hr => hclean j r hr fun _ _ _ heq => ?_⟩
    rw [hphase] at heq
    cases heq
    exact (List.getElem?_eq_some_iff.mp hr).1
  refine ⟨d + newest, ?_⟩
  split_ifs with hresult
  · refine h.drop hnewest hdone ?_ ?_ fun hq _ => hquiet hq
    · exact fun _ _ _ h => nomatch h
    · rw [List.flatten_append, List.flatten_singleton]
      rfl
  · rw [not_not] at hresult
    have hdrop := h.drop hnewest hdone (fun _ _ _ h => nomatch h :
      ∀ i newest count, Phase.waiting ≠ .reading i newest count)
      (by rw [State.collected, hresult, List.append_nil] : s.returned.flatten = s.collected)
      fun hq _ => hquiet hq
    rwa [← hresult] at hdrop

theorem Sound.step {d : Nat} {s s' : State} (h : Sound L d s) {a : Action}
    (hfollows : Follows L maxRollsTracked s a) (hstep : step L maxRollsTracked a s = some s') :
    ∃ d, Sound L d s' := by
  have hwaiting : s.phase = .waiting → s.result = [] := fun hphase =>
    h.result_of hphase fun _ _ _ h => nomatch h
  rw [Wtmp.step.eq_def] at hstep
  split at hstep
  case h_1 file bytes _ =>
    split_ifs at hstep with hcan
    cases hstep
    exact ⟨d, h.append hcan.1 hcan.2 hfollows⟩
  case h_2 =>
    split_ifs at hstep with hcan
    cases hstep
    exact ⟨d, h.rename hcan.2⟩
  case h_3 =>
    split_ifs at hstep with hnamed
    cases hstep
    exact ⟨d, h.create (by simpa using hnamed)⟩
  case h_4 hphase =>
    cases hstep
    refine ⟨d, h.setPhase (h.result_of hphase fun _ _ _ h => nomatch h) (fun _ _ _ h => nomatch h)
      fun _ hne => absurd rfl hne⟩
  case h_5 hphase =>
    cases hstep
    exact h.look hphase hfollows
  case h_6 hphase =>
    cases hstep
    exact ⟨d, h.throws (h.result_of hphase fun _ _ _ h => nomatch h)⟩
  case h_7 i newest count hphase =>
    split at hstep
    · cases hstep
      exact ⟨d, h.readTurn hphase (by assumption)⟩
    · cases hstep
  case h_8 =>
    split_ifs at hstep
    cases hstep
    exact ⟨d, h.throws hfollows⟩
  case h_9 i newest count hphase =>
    split_ifs at hstep with hend
    cases hstep
    subst hend
    exact h.finish hphase
  case h_10 hphase =>
    cases hstep
    exact ⟨d, h.setPhase (hwaiting hphase) (fun _ _ _ h => nomatch h) fun _ hne => absurd rfl hne⟩
  case h_11 hphase =>
    cases hstep
    refine ⟨d, h.drop (n := 0) (.inl rfl) (fun _ _ hj => nomatch hj) ?_ ?_ fun hquiet _ => ?_⟩
    · exact fun _ _ _ h => nomatch h
    · rw [List.flatten_append, List.flatten_singleton]
      rfl
    · obtain ⟨hseen, hclean⟩ := h.quiet hquiet (by rw [hphase]; exact fun h => nomatch h)
      refine ⟨hseen, fun j r hr => hclean j r hr fun _ _ _ heq => ?_⟩
      rw [hphase] at heq
      cases heq
  case h_12 hphase =>
    cases hstep
    exact ⟨d, h.throws (hwaiting hphase)⟩
  case h_13 => cases hstep

theorem Sound.run {acts : List Action} {d : Nat} {s s' : State} (h : Sound L d s)
    (hfollows : FollowsAll L maxRollsTracked acts s)
    (hrun : run L maxRollsTracked acts s = some s') : ∃ d, Sound L d s' := by
  induction acts generalizing d s with
  | nil =>
    cases hrun
    exact ⟨d, h⟩
  | cons a rest ih =>
    rw [Wtmp.run, Option.bind_eq_some_iff] at hrun
    obtain ⟨s₁, hstep, hrest⟩ := hrun
    obtain ⟨d₁, h₁⟩ := h.step hfollows.1 hstep
    exact ih h₁ (hfollows.2 s₁ hstep) hrest

/-- The number of some bytes, the lowest first -/
def littleEndian (bytes : List UInt8) : Nat := bytes.foldr (fun b n => b.toNat + 256 * n) 0

/-- `struct utmp` of glibc on x86_64 -/
def glibc : Layout where
  size := 384
  size_pos := by decide
  decode bytes :=
    { ut_type := littleEndian (bytes.take 2)
      ut_user := (bytes.drop 44).take 32
      ut_host := (bytes.drop 76).take 256
      ut_tv := (littleEndian ((bytes.drop 340).take 4), littleEndian ((bytes.drop 344).take 4)) }

/-- The record of a user of one letter who logs in from a host of one letter -/
def loginRecord (user host : UInt8) : List UInt8 :=
  7 :: (List.replicate 43 0 ++ user :: (List.replicate 31 0 ++ host :: List.replicate 307 0))

/-- The writer appends a login to the old file when the sweep has gone past it, and another to the
new file before the sweep gets there. -/
def overtaken : List Action :=
  [.create, .call, .look, .read, .finish, .rename, .create, .again, .look, .read,
    .append 0 (loginRecord 97 104), .append 1 (loginRecord 98 104), .read, .read, .finish,
    .call, .look, .read, .finish, .deadline]

/-- A read fails when a login has been read. -/
def interrupted : List Action :=
  [.create, .append 0 (loginRecord 97 104), .call, .look, .read, .readThrows,
    .call, .look, .read, .finish, .deadline]

end Urnest.Wtmp
