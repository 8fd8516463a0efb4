import Mathlib
import Urnest.Lib.Memo
import Urnest.Hcp.Parser

/-!
# What is parsed lies side by side

Whatever a parser is made of, the items that it returns tile the text from where it began to
where it ended, and where it fails it has not gone back (`Sound`). Each class keeps that, if
the parsers that it asks do (`ends_body`), so it holds of all of them; and of the results in
the cache as well, whether or not the parsers in it are told apart (`Sound.cached`).
-/

namespace Urnest.Hcp

open Lib Lib.Asking

variable {ι τ ν : Type}

/-- From `start` and not before `lo`: items side by side within a text of `n` characters, or a
failure. -/
def Good (n start lo : Nat) : ParseResult ι τ ν → Prop
  | .ok r => Tiles start r.1 r.2 ∧ lo ≤ r.2 ∧ r.2 ≤ n
  | .error e => lo ≤ e.position

theorem Good.mono {n start lo lo' : Nat} {r : ParseResult ι τ ν} (h : Good n start lo' r)
    (hle : lo ≤ lo') : Good n start lo r := by
  cases r with
  | ok r => exact ⟨h.1, Nat.le_trans hle h.2.1, h.2.2⟩
  | error e => exact Nat.le_trans hle h

/-- A parser of one character has one in front of it, and `balanced` up to such a character
stops in front of it. -/
def Stops (n : Nat) : Parser ι τ ν → Nat → Nat → Prop
  | .oneOfChars _ _, start, _ => start < n
  | .balanced _ (.oneOfChars _ _) _, _, end_ => end_ < n
  | _, _, _ => True

/-- What the member functions and their loops return. -/
def Sound (text : List Char) : Query ι τ ν → ParseResult ι τ ν → Prop
  | .parse _ position, r => position ≤ text.length → Good text.length position position r
  | .parse_ p position, r => position ≤ text.length → Good text.length position position r ∧
    ∀ v, r = .ok v → Stops text.length p position v.2
  | .zeroOrMore _ result, r | .specificUntil _ _ result, r | .nonEmptyListOf _ _ result, r =>
    ∀ start, Tiles start result.1 result.2 → result.2 ≤ text.length →
      Good text.length start result.2 r
  | .anyUntil _ start end_, r => start ≤ end_ → end_ ≤ text.length → Good text.length start end_ r
  | .balanced until_ _ start end_, r => start ≤ end_ → end_ ≤ text.length →
    Good text.length start end_ r ∧
      ∀ v, r = .ok v → ∀ id angles, Stops text.length (.balanced id until_ angles) start v.2

variable {g : Grammar ι τ ν} {text : List Char} {irsAtEnd : Bool}

section Calls

variable {α : Type} {post : α → Prop} {f : ParseResult ι τ ν → Member ι τ ν α}

/-- A call of `parse`, by what it returns. -/
theorem ends_parse {x : Parser ι τ ν} {position : Nat} (hle : position ≤ text.length)
    (hok : ∀ v, Tiles position v.1 v.2 → position ≤ v.2 → v.2 ≤ text.length →
      (f (.ok v)).Ends (Sound text) post)
    (herror : ∀ e, position ≤ e.position → (f (.error e)).Ends (Sound text) post) :
    (parse x position >>= f).Ends (Sound text) post := by
  intro r hr
  cases r with
  | ok v =>
    obtain ⟨htiles, hlo, hhi⟩ := hr hle
    exact hok v htiles hlo hhi
  | error e => exact herror e (hr hle)

/-- A call of `parse_`. -/
theorem ends_parse_ {x : Parser ι τ ν} {position : Nat} (hle : position ≤ text.length)
    (hok : ∀ v, Tiles position v.1 v.2 → position ≤ v.2 → v.2 ≤ text.length →
      Stops text.length x position v.2 → (f (.ok v)).Ends (Sound text) post)
    (herror : ∀ e, position ≤ e.position → (f (.error e)).Ends (Sound text) post) :
    (parse_ x position >>= f).Ends (Sound text) post := by
  intro r hr
  obtain ⟨hgood, hstops⟩ := hr hle
  cases r with
  | ok v => exact hok v hgood.1 hgood.2.1 hgood.2.2 (hstops v rfl)
  | error e => exact herror e hgood

end Calls

/-! ## The classes -/

theorem lt_length_of_some {position : Nat} {c : Char} (h : text[position]? = some c) :
    position < text.length := by
  obtain ⟨hlt, -⟩ := List.getElem?_eq_some_iff.mp h
  exact hlt

theorem addAtEndIRs_position (e : Exception ι τ ν) (irs : IRs τ) :
    (e.addAtEndIRs irs).position = e.position := by
  rw [Exception.addAtEndIRs]
  split <;> rfl

theorem atEnd_position (irsAtEnd : Bool) (e : Exception ι τ ν) (irs : IRs τ) :
    (if irsAtEnd then e.addAtEndIRs irs else e).position = e.position := by
  split
  · exact addAtEndIRs_position e irs
  · rfl

theorem good_parseChar (position : Nat) (unexpected : Char → Option Cause) :
    Good text.length position position (parseChar text position unexpected : ParseResult ι τ ν) ∧
      ∀ v, (parseChar text position unexpected : ParseResult ι τ ν) = .ok v →
        position < text.length := by
  rw [parseChar]
  rcases hc : text[position]? with _ | c
  · exact ⟨Nat.le_refl position, fun v h => nomatch h⟩
  · have hlt := lt_length_of_some hc
    simp only
    rcases unexpected c with _ | cause
    · exact ⟨⟨.single (Nat.le_succ position), Nat.le_succ position, hlt⟩, fun _ _ => hlt⟩
    · exact ⟨Nat.le_refl position, fun _ _ => hlt⟩

theorem good_mismatch {start position : Nat} (x : List Char) (hstart : start ≤ position)
    (hle : position ≤ text.length) :
    Good text.length start position (mismatch text start x position : ParseResult ι τ ν) := by
  induction x generalizing position with
  | nil => exact ⟨.single hstart, Nat.le_refl position, hle⟩
  | cons wanted x ih =>
    rw [mismatch]
    rcases hc : text[position]? with _ | got
    · exact Nat.le_refl position
    · have hlt := lt_length_of_some hc
      simp only
      split
      · exact (ih (Nat.le_succ_of_le hstart) hlt).mono (Nat.le_succ position)
      · exact Nat.le_refl position

theorem good_parseIdentifier (position : Nat) :
    Good text.length position position (parseIdentifier text position : ParseResult ι τ ν) := by
  rw [parseIdentifier]
  rcases hc : text[position]? with _ | c
  · exact Nat.le_refl position
  · have hlt := lt_length_of_some hc
    have hspan := (List.takeWhile_sublist isIdentifierContChar
      (l := text.drop (position + 1))).length_le
    rw [List.length_drop] at hspan
    simp only
    split
    · have hle : position ≤ position + 1
          + ((text.drop (position + 1)).takeWhile isIdentifierContChar).length := by omega
      exact ⟨.single hle, hle, by omega⟩
    · exact Nat.le_refl position

theorem good_parseEndOfFile {type : τ} {position : Nat} (hle : position ≤ text.length) :
    Good text.length position position
      (parseEndOfFile text type position : ParseResult ι τ ν) := by
  rw [parseEndOfFile]
  rcases text[position]? with _ | c
  · exact ⟨.node (.single (Nat.le_refl position)) (.nil position), Nat.le_refl position, hle⟩
  · exact Nat.le_refl position

theorem delimeter_le {n i : Nat} (hle : i ≤ text.length) :
    match (delimeter text n i : Except (Exception ι τ ν) Nat) with
    | .ok j => i ≤ j ∧ j ≤ text.length
    | .error e => i ≤ e.position := by
  induction n generalizing i with
  | zero =>
    rw [delimeter]
    rcases text[i]? with _ | c
    · exact Nat.le_refl i
    · simp only
      split_ifs
      · exact Nat.le_refl i
      · exact ⟨Nat.le_refl i, hle⟩
  | succ n ih =>
    rw [delimeter]
    rcases hc : text[i]? with _ | c
    · exact Nat.le_refl i
    · have hlt := lt_length_of_some hc
      simp only
      split_ifs
      · exact ⟨Nat.le_refl i, hle⟩
      · exact Nat.le_refl i
      · have hnext := ih hlt
        revert hnext
        cases (delimeter text n (i + 1) : Except (Exception ι τ ν) Nat) with
        | ok j => exact fun h => ⟨Nat.le_of_succ_le h.1, h.2⟩
        | error e => exact Nat.le_of_succ_le

theorem ends_parseRawString {id : ι} {position i : Nat} (hposition : position ≤ i)
    (hle : i ≤ text.length) : (parseRawString text id position i : Member ι τ ν _).Ends
      (Sound text) (Good text.length position position) := by
  have hdelimeter := delimeter_le (ι := ι) (τ := τ) (ν := ν) (n := 16) hle
  rw [parseRawString]
  rcases hj : (delimeter text 16 i : Except (Exception ι τ ν) Nat) with e | j
  · rw [hj] at hdelimeter
    exact Nat.le_trans hposition hdelimeter
  · rw [hj] at hdelimeter
    obtain ⟨hij, hj⟩ := hdelimeter
    have hposition' := Nat.le_trans hposition hij
    refine ends_parse_ hj (fun rr _ hrr hrr' _ => ?_) fun e he => Nat.le_trans hposition' he
    refine ends_parse_ hrr' (fun rrr _ hrrr hrrr' _ => ?_) fun e he => ?_
    · have hpos := Nat.le_trans hposition' (Nat.le_trans hrr hrrr)
      exact ⟨.single hpos, hpos, hrrr'⟩
    · exact Nat.le_trans hposition' (Nat.le_trans hrr he)

theorem ends_parseAnd {start : Nat} (terms : List (Parser ι τ ν)) {result : PV τ}
    (htiles : Tiles start result.1 result.2) (hle : result.2 ≤ text.length) :
    (parseAnd irsAtEnd terms result).Ends (Sound text) (Good text.length start result.2) := by
  induction terms generalizing result with
  | nil => exact ⟨htiles, Nat.le_refl result.2, hle⟩
  | cons term terms ih =>
    rw [parseAnd]
    refine ends_parse hle (fun br hbr hlo hhi => ?_) fun e he => ?_
    · have hrest := @ih (result.1 ++ br.1, br.2) (htiles.append hbr) hhi
      exact hrest.mono fun r hr => hr.mono hlo
    · exact he.trans_eq (atEnd_position irsAtEnd e result.1).symm

theorem ends_parseOr {position : Nat} (terms : List (Parser ι τ ν)) {e : Exception ι τ ν}
    (hle : position ≤ text.length) (he : position ≤ e.position) :
    (parseOr position terms e).Ends (Sound text) (Good text.length position position) := by
  induction terms generalizing e with
  | nil => exact he
  | cons term terms ih =>
    rw [parseOr]
    refine ends_parse hle (fun r hr hlo hhi => ⟨hr, hlo, hhi⟩) fun e' he' => ih ?_
    rw [furthest]
    split
    · exact he'
    · exact he

theorem ends_parseNToM {n start : Nat} {x : Parser ι τ ν} (k count : Nat) {result : PV τ}
    (htiles : Tiles start result.1 result.2) (hle : result.2 ≤ text.length) :
    (parseNToM n x k count result).Ends (Sound text) (Good text.length start result.2) := by
  induction k generalizing count result with
  | zero => exact ⟨htiles, Nat.le_refl result.2, hle⟩
  | succ k ih =>
    rw [parseNToM]
    refine ends_parse hle (fun r hr hlo hhi => ?_) fun e he => ?_
    · have hrest := @ih (count + 1) (result.1 ++ r.1, r.2) (htiles.append hr) hhi
      exact hrest.mono fun r hr => hr.mono hlo
    · simp only
      split
      · exact ⟨htiles, Nat.le_refl result.2, hle⟩
      · exact he

theorem good_makeNamed {type : τ} {position : Nat} {a : PV τ} (htiles : Tiles position a.1 a.2)
    (hle : a.2 ≤ text.length) : Good text.length position position
      (makeNamed g type position a : ParseResult ι τ ν) := by
  obtain ⟨items, end_⟩ := a
  have hlo : position ≤ end_ := htiles.le
  rw [makeNamed]
  cases items with
  | nil =>
    simp only
    rcases g.construct type (.leaf position position) [] with _ | what
    · exact ⟨.node (.leaf (Nat.le_refl position) htiles) (.nil end_), hlo, hle⟩
    · exact Nat.le_refl position
  | cons first rest =>
    simp only
    rcases g.construct type first rest with _ | what
    · exact ⟨.node htiles (.nil end_), hlo, hle⟩
    · exact Nat.le_refl position

/-- Where one turn of `balanced` gets to. -/
def Onward (n end_ : Nat) : Except (Exception ι τ ν) Nat → Prop
  | .ok i => end_ ≤ i ∧ i ≤ n
  | .error e => end_ ≤ e.position

theorem ends_parseQuoted {id : ι} {position : Nat} (hle : position ≤ text.length) :
    (parseQuoted g irsAtEnd id position).Ends (Sound text)
      (Good text.length position position) := by
  rw [parseQuoted]
  refine ends_parse_ hle (fun first hfirst hlo hhi _ => ?_) fun e he => he
  refine ends_parse hhi (fun c hc hlo' hhi' => ?_) fun e he => ?_
  · refine ends_parse_ hhi' (fun last hlast hlo'' hhi'' _ => ?_) fun e he => ?_
    · exact ⟨(hfirst.append hc).append hlast,
        Nat.le_trans hlo (Nat.le_trans hlo' hlo''), hhi''⟩
    · refine (Nat.le_trans hlo (Nat.le_trans hlo' he)).trans_eq ?_
      exact (atEnd_position irsAtEnd (e.addContext (.oneOfChars id [quote]) c.2) _).symm
  · exact (Nat.le_trans hlo he).trans_eq (atEnd_position irsAtEnd e first.1).symm

theorem onward_map {n position : Nat} {r : ParseResult ι τ ν} (h : Good n position position r) :
    Onward n position (r.map Prod.snd) := by
  cases r with
  | ok r => exact h.2
  | error e => exact h

theorem ends_parseBalancedTurn {id : ι} {angles : Bool} {end_ : Nat} {c : Char}
    (hc : text[end_]? = some c) : (parseBalancedTurn g text irsAtEnd id angles end_ c).Ends
      (Sound text) (Onward text.length end_) := by
  have hlt := lt_length_of_some hc
  have hle := Nat.le_of_lt hlt
  have hnext : Onward text.length end_ (.ok (end_ + 1) : Except (Exception ι τ ν) Nat) :=
    ⟨Nat.le_succ end_, hlt⟩
  rw [parseBalancedTurn]
  split_ifs with hraw hquote hstring hslash
  · exact ends_parse_ hle (fun v hv hlo hhi _ => ⟨hlo, hhi⟩) fun e he => he
  · exact (ends_parseQuoted hle).bind fun r hr => onward_map hr
  · exact ends_parse_ hle (fun v hv hlo hhi _ => ⟨hlo, hhi⟩) fun e he => he
  · exact ends_parse_ hle (fun v hv hlo hhi _ => ⟨hlo, hhi⟩) fun e he => hnext
  · rcases closer angles c with _ | close
    · exact hnext
    · -- the closing character is still in front of the parser, and is skipped
      refine ends_parse_ hlt (fun v hv hlo hhi hstops => ?_) fun e he => Nat.le_of_succ_le he
      exact ⟨Nat.le_of_succ_le (Nat.le_succ_of_le hlo), hstops⟩

theorem ends_parseClass (p : Parser ι τ ν) {position : Nat} (hle : position ≤ text.length) :
    (parseClass g text irsAtEnd p position).Ends (Sound text) fun r =>
      Good text.length position position r ∧ ∀ v, r = .ok v → Stops text.length p position v.2 := by
  cases p with
  | anyChar id => exact ⟨(good_parseChar position _).1, fun _ _ => trivial⟩
  | oneOfChars id chars =>
    obtain ⟨hgood, hlt⟩ := good_parseChar (ι := ι) (τ := τ) (ν := ν) position
      fun c => if c ∈ chars then none else some (.notOneOf c chars)
    exact ⟨hgood, hlt⟩
  | anyCharExcept id chars => exact ⟨(good_parseChar position _).1, fun _ _ => trivial⟩
  | charInRange id min max => exact ⟨(good_parseChar position _).1, fun _ _ => trivial⟩
  | literal id x => exact ⟨good_mismatch x.toList (Nat.le_refl position) hle, fun _ _ => trivial⟩
  | identifier id => exact ⟨good_parseIdentifier position, fun _ _ => trivial⟩
  | hash id => exact ⟨(good_parseChar position _).1, fun _ _ => trivial⟩
  | endOfFile id type => exact ⟨good_parseEndOfFile hle, fun _ _ => trivial⟩
  | rawString id o =>
    refine ends_parse hle (fun r hr hlo hhi => ?_) fun e he => ⟨he, fun _ h => nomatch h⟩
    exact (ends_parseRawString hlo hhi).mono fun r hr => ⟨hr, fun _ _ => trivial⟩
  | optional id x =>
    refine ends_parse hle (fun r hr hlo hhi => ⟨⟨hr, hlo, hhi⟩, fun _ _ => trivial⟩) fun e he => ?_
    exact ⟨⟨.nil position, Nat.le_refl position, hle⟩, fun _ _ => trivial⟩
  | zeroOrMore id x => exact fun r hr => ⟨hr position (.nil position) hle, fun _ _ => trivial⟩
  | and id first rest =>
    refine (ends_parseAnd (first :: rest) (.nil position) hle).mono fun r hr => ?_
    exact ⟨hr, fun _ _ => trivial⟩
  | or id first rest =>
    refine ends_parse hle (fun r hr hlo hhi => ⟨⟨hr, hlo, hhi⟩, fun _ _ => trivial⟩) fun e he => ?_
    exact (ends_parseOr rest hle he).mono fun r hr => ⟨hr, fun _ _ => trivial⟩
  | not id term =>
    refine ends_parse hle (fun r hr hlo hhi => ?_) fun e he => ?_
    · exact ⟨Nat.le_refl position, fun _ h => nomatch h⟩
    · exact ⟨⟨.nil position, Nat.le_refl position, hle⟩, fun _ _ => trivial⟩
  | anyUntil id x => exact fun r hr => ⟨hr (Nat.le_refl position) hle, fun _ _ => trivial⟩
  | specificUntil id match_ x =>
    exact fun r hr => ⟨hr position (.nil position) hle, fun _ _ => trivial⟩
  | balanced id until_ angles =>
    intro r hr
    obtain ⟨hgood, hstops⟩ := hr (Nat.le_refl position) hle
    exact ⟨hgood, fun v hv => hstops v hv id angles⟩
  | nToM id n m x =>
    refine (ends_parseNToM m 0 (.nil position) hle).mono fun r hr => ?_
    exact ⟨hr, fun _ _ => trivial⟩
  | nonEmptyListOf id x moreIndicator =>
    exact fun r hr => ⟨hr position (.nil position) hle, fun _ _ => trivial⟩
  | named id type name x =>
    refine ends_parse hle (fun a ha hlo hhi => ?_) fun e he => ⟨he, fun _ h => nomatch h⟩
    exact ⟨good_makeNamed ha hhi, fun _ _ => trivial⟩
  | anon id name x => exact fun r hr => ⟨hr hle, fun _ _ => trivial⟩
  | wrapped id target x => exact fun r hr => ⟨(hr hle).1, fun _ _ => trivial⟩
  | reference id target name => exact fun r hr => ⟨(hr hle).1, fun _ _ => trivial⟩

/-- Every member function and every turn of a loop keeps it. -/
theorem ends_body (q : Query ι τ ν) : (body g text irsAtEnd q).Ends (Sound text) (Sound text q) := by
  cases q with
  | parse p position =>
    refine fun r hr => ?_
    cases r with
    | ok v => exact fun hle => (hr hle).1
    | error e => exact fun hle => (hr hle).1
  | parse_ p position => exact ends_forall fun hle => ends_parseClass p hle
  | zeroOrMore x result =>
    refine ends_forall fun start => ends_forall fun htiles => ends_forall fun hle => ?_
    refine ends_parse hle (fun r hr hlo hhi => ?_) fun e he => ⟨htiles, Nat.le_refl _, hle⟩
    exact fun r' hr' => (hr' start (htiles.append hr) hhi).mono hlo
  | anyUntil x start end_ =>
    refine ends_forall fun hstart => ends_forall fun hle => ?_
    refine ends_parse_ hle (fun r hr hlo hhi _ => ?_) fun e he => ?_
    · exact ⟨.single hstart, Nat.le_refl end_, hle⟩
    · simp only
      split_ifs with hend
      · exact Nat.le_refl end_
      · intro r hr
        exact (hr (Nat.le_succ_of_le hstart) (Nat.lt_of_not_le hend)).mono (Nat.le_succ end_)
  | specificUntil match_ x result =>
    refine ends_forall fun start => ends_forall fun htiles => ends_forall fun hle => ?_
    refine ends_parse_ hle (fun r hr hlo hhi _ => ⟨htiles, Nat.le_refl _, hle⟩) fun e he => ?_
    refine ends_parse_ hle (fun r hr hlo hhi _ => ?_) fun e he => ?_
    · exact fun r' hr' => (hr' start (htiles.append hr) hhi).mono hlo
    · exact he.trans_eq (atEnd_position irsAtEnd e result.1).symm
  | balanced until_ angles start end_ =>
    refine ends_forall fun hstart => ends_forall fun hle => ?_
    refine ends_parse_ hle (fun r hr hlo hhi hstops => ?_) fun e he => ?_
    · refine ⟨⟨.single hstart, Nat.le_refl end_, hle⟩, fun v hv id angles' => ?_⟩
      cases hv
      cases until_ with
      | oneOfChars => exact hstops
      | _ => trivial
    · simp only
      rcases hc : text[end_]? with _ | c
      · exact ⟨Nat.le_refl end_, fun _ h => nomatch h⟩
      · refine (ends_parseBalancedTurn hc).bind fun r hr => ?_
        cases r with
        | error e => exact ⟨hr, fun _ h => nomatch h⟩
        | ok i =>
          intro r' hr'
          obtain ⟨hgood, hstops⟩ := hr' (Nat.le_trans hstart hr.1) hr.2
          exact ⟨hgood.mono hr.1, hstops⟩
  | nonEmptyListOf x moreIndicator result =>
    refine ends_forall fun start => ends_forall fun htiles => ends_forall fun hle => ?_
    refine ends_parse hle (fun r hr hlo hhi => ?_) fun e he => ?_
    · refine ends_parse hhi (fun more hmore hlo' hhi' => ?_) fun e he => ?_
      · intro r' hr'
        refine (hr' start ((htiles.append hr).append hmore) hhi').mono ?_
        exact Nat.le_trans hlo hlo'
      · exact ⟨htiles.append hr, hlo, hhi⟩
    · exact he.trans_eq (atEnd_position irsAtEnd e result.1).symm

/-! ## All parsers -/

theorem agree_sound : Agree cacheKey (fun _ : Query ι τ ν => True) (Sound text) := by
  intro q q' k r _ _ hkey hkey' hr
  cases q with
  | parse p position =>
    cases q' with
    | parse p' position' =>
      obtain ⟨rfl, -⟩ := Prod.mk.inj (Option.some.inj (hkey.trans hkey'.symm))
      exact hr
    | _ => cases hkey'
  | _ => cases hkey

theorem descends_true {α : Type} (x : Member ι τ ν α) :
    x.Descends (Sound text) fun _ => True := by
  induction x with
  | ret a => trivial
  | ask q k ih => exact ⟨trivial, fun a _ => ih a⟩

theorem Sound.of_answers {q : Query ι τ ν} {r : ParseResult ι τ ν}
    (h : Answers (body g text irsAtEnd) q r) : Sound text q r :=
  h.of_ends ends_body

/-- What comes out of the cache, too. -/
theorem Sound.cached [DecidableEq ι] {q : Query ι τ ν} {r : ParseResult ι τ ν} {n : Nat}
    {c c' : Dict (Nat × ι) (ParseResult ι τ ν)}
    (hc : Remembered (body g text irsAtEnd) cacheKey (fun _ => True) c)
    (h : evalMemo (body g text irsAtEnd) cacheKey n q c = some (r, c')) : Sound text q r := by
  have hkept : Kept cacheKey (fun _ => True) (Sound text) c :=
    hc.kept (fun q _ => descends_true _) (fun q _ => ends_body q) agree_sound
  exact (evalMemo_keeps (fun q _ => descends_true _) (fun q _ => ends_body q) agree_sound trivial
    hkept h).1

/-- Nothing lost: the items tile what was read, so that put together they are its text; and
a failure is not in front of where the parser began. -/
def Lossless (text : List Char) (position : Nat) : ParseResult ι τ ν → Prop
  | .ok (items, end_) => Tiles position items end_ ∧ end_ ≤ text.length ∧
    reconstructAll text items = slice text position end_
  | .error e => position ≤ e.position

theorem Good.lossless {position : Nat} {r : ParseResult ι τ ν}
    (h : Good text.length position position r) : Lossless text position r := by
  cases r with
  | ok r => exact ⟨h.1, h.2.2, h.1.reconstruct_eq text⟩
  | error e => exact h

/-- Any parser, over any text and from any position in it, loses nothing. It is so with the
cache, in whatever state parsing this text has left it, and without it. -/
theorem parse_loses_nothing [DecidableEq ι] (g : Grammar ι τ ν) (text : List Char) (irsAtEnd : Bool)
    (p : Parser ι τ ν) {position : Nat} (hposition : position ≤ text.length)
    {r : ParseResult ι τ ν} (hr : Answers (body g text irsAtEnd) (.parse p position) r ∨
      ∃ n c c', Remembered (body g text irsAtEnd) cacheKey (fun _ => True) c ∧
        evalMemo (body g text irsAtEnd) cacheKey n (.parse p position) c = some (r, c')) :
    Lossless text position r := by
  rcases hr with hr | ⟨n, c, c', hc, hr⟩
  · exact (Sound.of_answers hr hposition).lossless
  · exact (Sound.cached hc hr hposition).lossless

/-- The list of the example below -/
def isLetters : ParseResult Nat Unit Empty → Bool
  | .ok ([.node () (.leaf 1 2) [.leaf 2 3, .leaf 3 4]], 4) => true
  | _ => false

theorem eq_of_isLetters {r : ParseResult Nat Unit Empty} (h : isLetters r = true) :
    r = .ok ([.node () (.leaf 1 2) [.leaf 2 3, .leaf 3 4]], 4) := by
  rw [isLetters.eq_def] at h
  split at h
  · rfl
  · cases h

/-- A list of letters, from behind the first character on, and with the cache. -/
theorem parse_loses_nothing_list :
    Lossless (ι := Nat) (τ := Unit) (ν := Empty) ['(', 'a', ',', 'b', ')'] 1
      (.ok ([.node () (.leaf 1 2) [.leaf 2 3, .leaf 3 4]], 4)) := by
  let letter : Parser Nat Unit Empty := .charInRange 0 'a' 'z'
  let list : Parser Nat Unit Empty := .named 1 () "list" (.nonEmptyListOf 2 letter (.literal 3 ","))
  let g : Grammar Nat Unit Empty := ⟨Empty.elim, letter, letter, letter, letter, fun _ _ _ => none⟩
  have hrun : (evalMemo (body g ['(', 'a', ',', 'b', ')'] false) cacheKey 9 (.parse list 1)
      Dict.empty).any (fun r => isLetters r.1) = true := by decide +kernel
  obtain ⟨⟨r, c'⟩, hr, hletters⟩ := (Option.any_eq_true ..).mp hrun
  obtain rfl : r = _ := eq_of_isLetters hletters
  exact parse_loses_nothing g ['(', 'a', ',', 'b', ')'] false list (by decide)
    (.inr ⟨9, Dict.empty, c', .empty, hr⟩)

end Urnest.Hcp
