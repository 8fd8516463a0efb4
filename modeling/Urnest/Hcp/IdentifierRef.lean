import Urnest.Hcp.TagsFile

/-!
# The identifier at an offset

`getIdentifierRefAt` goes from an offset to the end and to the start of what is made of identifier
characters and double colons. Nothing is said of where the double colons stand: they may be
dangling, double, or in front of a digit, and what comes of it is then not a reference
(`getIdentifierRefAt_finds_iff`). A reference that comes of it is all there is of it in the text, it
comes of every other offset that is in one of its identifiers, and `splitSymbol` has these.
-/

namespace Urnest.Hcp.Tags.RefAt

open Xju

/-! ## The code -/

def isIdentifierChar (c : Char) : Bool :=
  ('a' ≤ c ∧ c ≤ 'z') ∨ ('A' ≤ c ∧ c ≤ 'Z') ∨ ('0' ≤ c ∧ c ≤ '9') ∨ c = '_'

section
variable (text : List Char)

/-- `text[i]`; there is a `'\0'` at the end. -/
def charAt (i : Nat) : Char := text.getD i (Char.ofNat 0)

/-- `text.size() - 1`, of unsigned numbers -/
def last : Nat := if text.length = 0 then 2 ^ 64 - 1 else text.length - 1

/-- The condition of the loop towards the end, and the indices that it reads at. -/
def goesOn (e : Nat) : Bool × List Nat :=
  if e < text.length ∧ isIdentifierChar (charAt text e) then (true, [e])
  else
    let reads := if e < text.length then [e] else []
    if e < last text then
      if charAt text e = ':' then (charAt text (e + 1) = ':', reads ++ [e, e + 1])
      else (false, reads ++ [e])
    else (false, reads)

/-- The loop; nothing, if its fuel does not last. -/
def findEnd : Nat → Nat → Option (Nat × List Nat)
  | 0, _ => none
  | fuel + 1, e =>
    let (more, reads) := goesOn text e
    if more then do
      let next := if charAt text e = ':' then e + 1 else e
      let (found, rest) ← findEnd fuel (next + 1)
      return (found, reads ++ e :: rest)
    else some (e, reads)

/-- The condition of the loop towards the start. -/
def goesBack (s : Nat) : Bool × List Nat :=
  if s > 0 ∧ isIdentifierChar (charAt text (s - 1)) then (true, [s - 1])
  else
    let reads := if s > 0 then [s - 1] else []
    if s > 1 then
      if charAt text (s - 2) = ':' then (charAt text (s - 1) = ':', reads ++ [s - 2, s - 1])
      else (false, reads ++ [s - 2])
    else (false, reads)

def findStart : Nat → Nat → Option (Nat × List Nat)
  | 0, _ => none
  | fuel + 1, s =>
    let (more, reads) := goesBack text s
    if more then do
      let next := if charAt text (s - 1) = ':' then s - 1 else s
      let (found, rest) ← findStart fuel (next - 1)
      return (found, reads ++ (s - 1) :: rest)
    else some (s, reads)

def isDigit (c : Char) : Bool := '0' ≤ c ∧ c ≤ '9'

/-- What is made of the start and the end. -/
def check (offset s e : Nat) : Except Xju.Exception (List Char) × List Nat :=
  if s = e then
    (.error ⟨"character at or just before offset " ++ toString offset ++
      " is not an identifier char ie not a..z, A..Z, 0..9 or _", []⟩, [])
  else if isDigit (charAt text s) then
    (.error ⟨"identifier cannot start with digit ('" ++ String.ofList [charAt text s] ++
      "' at offset " ++ toString s ++ ")", []⟩, [s])
  else (.ok ((text.take e).drop s), [s])

/-- The text around an offset. -/
def around (offset : Nat) : String :=
  String.ofList ((text.take offset).drop (offset - min offset 10)) ++ "^^" ++
    String.ofList ((text.take (min (offset + 10) text.length)).drop offset)

/-- The result, and the indices that have been read at. -/
def getIdentifierRefAt (offset : Nat) : Option (Except Xju.Exception (List Char) × List Nat) :=
  let context := "get C++ identifier ref at or just before offset " ++ toString offset ++ " in text"
  if offset > text.length then
    some (.error ⟨"offset " ++ toString offset ++ " is not within text, which has length " ++
      toString text.length, [context]⟩, [])
  else do
    let (e, reads) ← findEnd text (text.length + 1) offset
    let (s, reads') ← findStart text (text.length + 1) offset
    match check text offset s e with
    | (.ok r, reads'') => return (.ok r, reads ++ reads' ++ reads'')
    | (.error ex, reads'') =>
      return (.error ((ex.addContext ("get identifier ref at or just before \"^^\" in \"" ++
        around text offset ++ "\"")).addContext context), reads ++ reads' ++ reads'')

end

/-! ## References -/

/-- An identifier: identifier characters, not beginning with a digit. -/
def IsIdentifier (x : List Char) : Prop :=
  (∀ c ∈ x, isIdentifierChar c) ∧ ∃ c, x.head? = some c ∧ isDigit c = false

/-- Identifiers, each after `::` but for the first. -/
def join : List (List Char) → List Char
  | [] => []
  | [x] => x
  | x :: xs => x ++ ':' :: ':' :: join xs

/-- A reference to these identifiers. -/
def IsReference (r : List Char) (ids : List (List Char)) : Prop :=
  ids ≠ [] ∧ (∀ x ∈ ids, IsIdentifier x) ∧ (r = join ids ∨ r = ':' :: ':' :: join ids)

/-- What is to come of an offset in a text. -/
structure Finds (text : List Char) (offset : Nat) : Prop where
  /-- a result, with nothing read beyond the text -/
  reads : ∃ r reads, getIdentifierRefAt text offset = some (r, reads) ∧
    ∀ i ∈ reads, i < text.length
  /-- a reference that is in the text about the offset -/
  found : ∀ r reads, getIdentifierRefAt text offset = some (.ok r, reads) →
    ∃ before after ids, text = before ++ r ++ after ∧ before.length ≤ offset ∧
      offset ≤ before.length + r.length ∧ IsReference r ids ∧
      -- all of it that there is
      (∀ before' r' after' ids', text = before' ++ r' ++ after' → IsReference r' ids' →
        before'.length ≤ before.length →
        before.length + r.length ≤ before'.length + r'.length → before' = before ∧ r' = r) ∧
      -- the same of other offsets in it
      (∀ p c, before.length ≤ p → p < before.length + r.length → text[p]? = some c →
        isIdentifierChar c → ∃ reads, getIdentifierRefAt text p = some (.ok r, reads)) ∧
      splitSymbol r = (ids.dropLast, ids.getLastD [])
  /-- where there is none, an exception -/
  missing : (¬∃ before r after ids, text = before ++ r ++ after ∧ IsReference r ids ∧
      before.length ≤ offset ∧ offset ≤ before.length + r.length) →
    ∃ e reads, getIdentifierRefAt text offset = some (.error e, reads)

/-! ## The scans -/

/-- What there is of identifier characters and double colons at the front. -/
def units : List Char → List Char
  | ':' :: ':' :: s => ':' :: ':' :: units s
  | c :: s => if isIdentifierChar c then c :: units s else []
  | [] => []

/-- Made of these. -/
inductive Units : List Char → Prop
  | nil : Units []
  | char {c s} (hc : isIdentifierChar c) (hs : Units s) : Units (c :: s)
  | colons {s} (hs : Units s) : Units (':' :: ':' :: s)

theorem ne_colon_of_identifierChar {c : Char} (hc : isIdentifierChar c) : c ≠ ':' := by
  rintro rfl
  exact absurd hc (by decide)

theorem units_char {c : Char} (hc : isIdentifierChar c) (s : List Char) :
    units (c :: s) = c :: units s := by
  rw [units, if_pos hc]
  rintro t rfl -
  exact absurd hc (by decide)

theorem units_units (s : List Char) : Units (units s) := by
  fun_induction units s with
  | case1 s ih => exact .colons ih
  | case2 c s h hc ih => exact .char hc ih
  | case3 c s h hc => exact .nil
  | case4 => exact .nil

theorem Units.units_append {u : List Char} (hu : Units u) (s : List Char) :
    units (u ++ s) = u ++ units s := by
  induction hu with
  | nil => rfl
  | char hc hs ih => rw [List.cons_append, units_char hc, ih, List.cons_append]
  | colons hs ih => simp [units, ih]

theorem Units.append {u v : List Char} (hu : Units u) (hv : Units v) : Units (u ++ v) := by
  induction hu with
  | nil => exact hv
  | char hc hs ih => exact .char hc ih
  | colons hs ih => exact .colons ih

theorem Units.reverse {u : List Char} (hu : Units u) : Units u.reverse := by
  induction hu with
  | nil => exact .nil
  | char hc hs ih =>
    rw [List.reverse_cons]
    exact ih.append (.char hc .nil)
  | colons hs ih =>
    rw [List.reverse_cons, List.reverse_cons, List.append_assoc]
    exact ih.append (.colons .nil)

section
variable {text : List Char}

/-- The condition towards the end, where `a` is before an index, and `s` from there on. -/
theorem goesOn_append (a s : List Char) (hne : a ++ s ≠ []) :
    (goesOn (a ++ s) a.length).1 = !(units s).isEmpty ∧
      ∀ i ∈ (goesOn (a ++ s) a.length).2, i < (a ++ s).length := by
  have hlast : last (a ++ s) = (a ++ s).length - 1 :=
    if_neg fun h => hne (List.eq_nil_of_length_eq_zero h)
  rw [List.length_append] at hlast
  match s, hlast with
  | [], hlast =>
    have hlast' : ¬a.length < last (a ++ []) := by
      rw [hlast, List.length_nil]
      omega
    simp [goesOn, units] at hlast' ⊢
    simp [Nat.not_lt.mpr hlast']
  | [c], hlast =>
    have hlast' : ¬a.length < last (a ++ [c]) := by
      rw [hlast, List.length_singleton]
      omega
    cases hc : isIdentifierChar c <;> simp [goesOn, charAt, units, hlast', hc]
  | c :: d :: s, hlast =>
    have hlast' : a.length < last (a ++ c :: d :: s) := by
      rw [hlast, List.length_cons, List.length_cons]
      omega
    cases hc : isIdentifierChar c with
    | true => simp [goesOn, charAt, units_char hc, hc]
    | false =>
      by_cases hcolon : c = ':'
      · subst hcolon
        by_cases hd' : d = ':'
        · subst hd'
          simp [goesOn, charAt, hlast', hc, units]
        · have hunits : units (':' :: d :: s) = [] := by
            rw [units, if_neg (by simp [hc])]
            rintro t - ht
            exact hd' (List.cons.inj ht).1
          simp [goesOn, charAt, hlast', hc, hd', hunits]
      · have hunits : units (c :: d :: s) = [] := by
          rw [units, if_neg (by simp [hc])]
          rintro t ht -
          exact hcolon ht
        simp [goesOn, charAt, hlast', hc, hcolon, hunits]

/-- What the first of the units is. -/
theorem units_cases (s : List Char) : units s = [] ∨
    (∃ c t, isIdentifierChar c ∧ s = c :: t) ∨ ∃ t, s = ':' :: ':' :: t := by
  fun_cases units s with
  | case1 t => exact .inr (.inr ⟨t, rfl⟩)
  | case2 c t h hc => exact .inr (.inl ⟨c, t, hc, rfl⟩)
  | case3 c t h hc => exact .inl rfl
  | case4 => exact .inl rfl

theorem findEnd_append (a s : List Char) (hne : a ++ s ≠ []) {fuel : Nat}
    (hfuel : s.length < fuel) :
    ∃ reads, findEnd (a ++ s) fuel a.length = some (a.length + (units s).length, reads) ∧
      ∀ i ∈ reads, i < (a ++ s).length := by
  induction fuel generalizing a s with
  | zero => omega
  | succ fuel ih =>
    obtain ⟨hmore, hreads⟩ := goesOn_append a s hne
    rw [findEnd]
    generalize goesOn (a ++ s) a.length = more at hmore hreads
    obtain ⟨more, reads⟩ := more
    dsimp only at hmore hreads ⊢
    rcases units_cases s with hs | ⟨c, t, hc, rfl⟩ | ⟨t, rfl⟩
    · exact ⟨reads, by simp [hmore, hs], hreads⟩
    · have hcharAt : charAt (a ++ c :: t) a.length = c := by simp [charAt]
      obtain ⟨rest, hrest, hlt⟩ := ih (a ++ [c]) t (by simp) (by simpa using hfuel)
      rw [List.append_assoc, List.singleton_append, List.length_append, List.length_singleton]
        at hrest
      rw [List.append_assoc, List.singleton_append] at hlt
      refine ⟨reads ++ a.length :: rest, ?_, ?_⟩
      · rw [hmore, units_char hc, hcharAt, if_neg (ne_colon_of_identifierChar hc), hrest]
        simp
        omega
      · intro i hi
        rcases List.mem_append.mp hi with hi | hi
        · exact hreads i hi
        · rcases List.mem_cons.mp hi with rfl | hi
          · simp
          · exact hlt i hi
    · have hcharAt : charAt (a ++ ':' :: ':' :: t) a.length = ':' := by simp [charAt]
      obtain ⟨rest, hrest, hlt⟩ :=
        ih (a ++ [':', ':']) t (by simp) (by simp at hfuel; omega)
      have happend : a ++ [':', ':'] ++ t = a ++ ':' :: ':' :: t := by simp
      rw [happend, List.length_append, List.length_cons, List.length_singleton] at hrest
      rw [happend] at hlt
      refine ⟨reads ++ a.length :: rest, ?_, ?_⟩
      · rw [hmore, units, hcharAt, if_pos rfl, hrest]
        simp
        omega
      · intro i hi
        rcases List.mem_append.mp hi with hi | hi
        · exact hreads i hi
        · rcases List.mem_cons.mp hi with rfl | hi
          · simp
          · exact hlt i hi

/-- The condition towards the start, where `b` is before an index, the last of it first. -/
theorem goesBack_append (b s : List Char) :
    (goesBack (b.reverse ++ s) b.length).1 = !(units b).isEmpty ∧
      ∀ i ∈ (goesBack (b.reverse ++ s) b.length).2, i < (b.reverse ++ s).length := by
  match b with
  | [] => simp [goesBack, units]
  | [c] => cases hc : isIdentifierChar c <;> simp [goesBack, charAt, units, hc]
  | c :: d :: b =>
    have hc' : charAt (b.reverse ++ d :: c :: s) (b.length + 1) = c := by
      simp [charAt]
    have hd : charAt (b.reverse ++ d :: c :: s) b.length = d := by
      simp [charAt]
    cases hc : isIdentifierChar c with
    | true => simp [goesBack, hc', units_char hc, hc]
    | false =>
      by_cases hcolon : c = ':'
      · subst hcolon
        by_cases hd' : d = ':'
        · subst hd'
          simp [goesBack, hc', hd, hc, units]
        · have hunits : units (':' :: d :: b) = [] := by
            rw [units, if_neg (by simp [hc])]
            rintro t - ht
            exact hd' (List.cons.inj ht).1
          simp [goesBack, hc', hd, hc, hd', hunits]
      · have hunits : units (c :: d :: b) = [] := by
          rw [units, if_neg (by simp [hc])]
          rintro t ht -
          exact hcolon ht
        rw [hunits]
        by_cases hd' : d = ':'
        · subst hd'
          simp [goesBack, hc', hd, hc, hcolon]
        · simp [goesBack, hc', hd, hc, hd']

theorem findStart_append (b s : List Char) {fuel : Nat} (hfuel : b.length < fuel) :
    ∃ reads, findStart (b.reverse ++ s) fuel b.length
        = some (b.length - (units b).length, reads) ∧
      ∀ i ∈ reads, i < (b.reverse ++ s).length := by
  induction fuel generalizing b s with
  | zero => omega
  | succ fuel ih =>
    obtain ⟨hmore, hreads⟩ := goesBack_append b s
    rw [findStart]
    generalize goesBack (b.reverse ++ s) b.length = more at hmore hreads
    obtain ⟨more, reads⟩ := more
    dsimp only at hmore hreads ⊢
    rcases units_cases b with hb | ⟨c, t, hc, rfl⟩ | ⟨t, rfl⟩
    · exact ⟨reads, by simp [hmore, hb], hreads⟩
    · have hcharAt : charAt ((c :: t).reverse ++ s) (t.length + 1 - 1) = c := by
        simp [charAt]
      obtain ⟨rest, hrest, hlt⟩ := ih t (c :: s) (by simpa using hfuel)
      have happend : t.reverse ++ c :: s = (c :: t).reverse ++ s := by simp
      rw [happend] at hrest hlt
      refine ⟨reads ++ (t.length + 1 - 1) :: rest, ?_, ?_⟩
      · rw [hmore, units_char hc, List.length_cons, hcharAt,
          if_neg (ne_colon_of_identifierChar hc), Nat.add_sub_cancel, hrest]
        simp
      · intro i hi
        rcases List.mem_append.mp hi with hi | hi
        · exact hreads i hi
        · rcases List.mem_cons.mp hi with rfl | hi
          · simp
          · exact hlt i hi
    · have hcharAt : charAt ((':' :: ':' :: t).reverse ++ s) (t.length + 1 + 1 - 1) = ':' := by
        simp [charAt]
      obtain ⟨rest, hrest, hlt⟩ := ih t (':' :: ':' :: s) (by simp at hfuel; omega)
      have happend : t.reverse ++ ':' :: ':' :: s = (':' :: ':' :: t).reverse ++ s := by simp
      rw [happend] at hrest hlt
      refine ⟨reads ++ (t.length + 1 + 1 - 1) :: rest, ?_, ?_⟩
      · rw [hmore, units, List.length_cons, List.length_cons, hcharAt, if_pos rfl,
          Nat.add_sub_cancel, Nat.add_sub_cancel, hrest]
        simp
      · intro i hi
        rcases List.mem_append.mp hi with hi | hi
        · exact hreads i hi
        · rcases List.mem_cons.mp hi with rfl | hi
          · simp
          · exact hlt i hi

end

/-! ## What is around an offset -/

theorem exists_units_append (s : List Char) : ∃ rest, s = units s ++ rest ∧ units rest = [] := by
  fun_induction units s with
  | case1 s ih =>
    obtain ⟨rest, hs, hrest⟩ := ih
    exact ⟨rest, by rw [List.cons_append, List.cons_append, ← hs], hrest⟩
  | case2 c s h hc ih =>
    obtain ⟨rest, hs, hrest⟩ := ih
    exact ⟨rest, by rw [List.cons_append, ← hs], hrest⟩
  | case3 c s h hc => exact ⟨c :: s, rfl, by rw [units, if_neg hc]; exact h⟩
  | case4 => exact ⟨[], rfl, rfl⟩

/-- An offset in a text: what is around it is two runs of units, with no unit before or after. -/
theorem exists_around {text : List Char} {offset : Nat} (hoffset : offset ≤ text.length) :
    ∃ before l r after, text = before ++ (l ++ (r ++ after)) ∧ offset = (before ++ l).length ∧
      Units l ∧ Units r ∧ units before.reverse = [] ∧ units after = [] := by
  obtain ⟨before, hb, hbefore⟩ := exists_units_append (text.take offset).reverse
  obtain ⟨after, hs, hafter⟩ := exists_units_append (text.drop offset)
  have htake : text.take offset = before.reverse ++ (units (text.take offset).reverse).reverse := by
    rw [← List.reverse_append, ← hb, List.reverse_reverse]
  refine ⟨before.reverse, (units (text.take offset).reverse).reverse, units (text.drop offset),
    after, ?_, ?_, (units_units _).reverse, units_units _, ?_, hafter⟩
  · rw [← hs, ← List.append_assoc, ← htake, List.take_append_drop]
  · rw [← htake, List.length_take, Nat.min_eq_left hoffset]
  · rwa [List.reverse_reverse]

/-- It begins, and with something that is not a digit. -/
def Good (w : List Char) : Prop := ∃ c, w.head? = some c ∧ isDigit c = false

section
variable {before l r after : List Char}

theorem getIdentifierRefAt_around (hl : Units l) (hr : Units r)
    (hbefore : units before.reverse = []) (hafter : units after = [])
    (hne : before ++ (l ++ (r ++ after)) ≠ []) :
    ∃ reads, (∀ i ∈ reads, i < (before ++ (l ++ (r ++ after))).length) ∧
      (Good (l ++ r) → getIdentifierRefAt (before ++ (l ++ (r ++ after))) (before ++ l).length
        = some (.ok (l ++ r), reads)) ∧
      (¬Good (l ++ r) → ∃ e, getIdentifierRefAt (before ++ (l ++ (r ++ after)))
        (before ++ l).length = some (.error e, reads)) := by
  have hright : units (r ++ after) = r := by rw [hr.units_append, hafter, List.append_nil]
  have hleft : units (before ++ l).reverse = l.reverse := by
    rw [List.reverse_append, hl.reverse.units_append, hbefore, List.append_nil]
  have hfuel : (r ++ after).length < (before ++ (l ++ (r ++ after))).length + 1 := by
    simp only [List.length_append]
    omega
  have hfuel' : (before ++ l).reverse.length < (before ++ (l ++ (r ++ after))).length + 1 := by
    simp only [List.length_reverse, List.length_append]
    omega
  obtain ⟨reads, hend, hreads⟩ :=
    findEnd_append (before ++ l) (r ++ after) (by rwa [List.append_assoc]) hfuel
  obtain ⟨reads', hstart, hreads'⟩ := findStart_append (before ++ l).reverse (r ++ after) hfuel'
  rw [hright] at hend
  rw [List.reverse_reverse, List.length_reverse, hleft, List.length_reverse] at hstart
  rw [List.reverse_reverse] at hreads'
  rw [List.append_assoc] at hend hstart hreads hreads'
  have hfrom : (before ++ l).length - l.length = before.length := by simp
  rw [hfrom] at hstart
  generalize htext : before ++ (l ++ (r ++ after)) = text at *
  have hle : ¬(before ++ l).length > text.length := by
    rw [← htext]
    simp only [List.length_append]
    omega
  have hcut : (text.take ((before ++ l).length + r.length)).drop before.length = l ++ r := by
    have hassoc : text = (before ++ (l ++ r)) ++ after := by rw [← htext]; simp
    have hlength : (before ++ l).length + r.length = (before ++ (l ++ r)).length := by simp; omega
    rw [hassoc, hlength, List.take_left, List.drop_left]
  rw [getIdentifierRefAt, if_neg hle, hend, hstart]
  dsimp only [Option.bind_eq_bind, Option.bind_some]
  cases hw : l ++ r with
  | nil =>
    obtain ⟨rfl, rfl⟩ := List.append_eq_nil_iff.mp hw
    rw [check, if_pos (by simp)]
    refine ⟨reads ++ reads' ++ [], ?_, fun ⟨c, hc, _⟩ => (nomatch hc), fun _ => ⟨_, rfl⟩⟩
    simp only [List.append_nil, List.mem_append]
    rintro i (hi | hi)
    · exact hreads i hi
    · exact hreads' i hi
  | cons c w =>
    have hassoc : text = before ++ (c :: w ++ after) := by
      rw [← htext, ← hw]
      simp
    have hlt : before.length < text.length := by
      rw [hassoc]
      simp
    have hne' : before.length ≠ (before ++ l).length + r.length := by
      have hlength : (l ++ r).length = w.length + 1 := by rw [hw, List.length_cons]
      simp only [List.length_append] at hlength ⊢
      omega
    have hchar : charAt text before.length = c := by
      rw [hassoc]
      simp [charAt]
    refine ⟨reads ++ reads' ++ [before.length], ?_, ?_, ?_⟩
    · simp only [List.mem_append, List.mem_singleton]
      rintro i ((hi | hi) | rfl)
      · exact hreads i hi
      · exact hreads' i hi
      · exact hlt
    · rintro ⟨d, hd, hdigit⟩
      obtain rfl := Option.some.inj hd
      rw [check, if_neg hne', hchar, if_neg (by simp [hdigit]), hcut, hw]
      rfl
    · intro hbad
      have hdigit : isDigit c = true := by
        by_contra h
        exact hbad ⟨c, rfl, Bool.not_eq_true _ ▸ h⟩
      rw [check, if_neg hne', hchar, if_pos hdigit]
      exact ⟨_, rfl⟩

end

/-! ## Where the double colons stand -/

/-- What an identifier begins with is at the front. -/
def Starts (v : List Char) : Prop :=
  ∃ c, v.head? = some c ∧ isIdentifierChar c ∧ isDigit c = false

/-- Double colons have the front of an identifier behind them. -/
def Tidy (w : List Char) : Prop := ∀ u v, Units u → w = u ++ ':' :: ':' :: v → Starts v

theorem Units.of_char {c : Char} {s : List Char} (h : Units (c :: s)) (hc : isIdentifierChar c) :
    Units s := by
  cases h with
  | char hc' hs => exact hs
  | colons hs => exact absurd hc (by decide)

theorem Units.of_colons {s : List Char} (h : Units (':' :: ':' :: s)) : Units s := by
  cases h with
  | char hc hs => exact absurd hc (by decide)
  | colons hs => exact hs

/-- What is after units is, in units, units. -/
theorem Units.of_append {u v : List Char} (hu : Units u) (huv : Units (u ++ v)) : Units v := by
  induction hu with
  | nil => exact huv
  | char hc hs ih => exact ih (huv.of_char hc)
  | colons hs ih => exact ih huv.of_colons

/-- An identifier character parts units from units. -/
theorem Units.split {u v : List Char} {d : Char} (h : Units (u ++ d :: v))
    (hd : isIdentifierChar d) : Units u ∧ Units v := by
  generalize hw : u ++ d :: v = w at h
  induction h generalizing u with
  | nil => simp at hw
  | @char c s hc hs ih =>
    cases u with
    | nil =>
      obtain ⟨rfl, rfl⟩ := List.cons.inj hw
      exact ⟨.nil, hs⟩
    | cons c' u =>
      simp only [List.cons_append, List.cons.injEq] at hw
      obtain ⟨hu, hv⟩ := ih hw.2
      exact ⟨hw.1 ▸ .char hc hu, hv⟩
  | @colons s hs ih =>
    match u, hw with
    | [], hw =>
      simp only [List.nil_append, List.cons.injEq] at hw
      exact absurd (hw.1 ▸ hd) (by decide)
    | [c], hw =>
      simp only [List.cons_append, List.nil_append, List.cons.injEq] at hw
      exact absurd (hw.2.1 ▸ hd) (by decide)
    | c :: c' :: u, hw =>
      simp only [List.cons_append, List.cons.injEq] at hw
      obtain ⟨hu, hv⟩ := ih hw.2.2
      rw [hw.1, hw.2.1]
      exact ⟨.colons hu, hv⟩

theorem Units.chars {x : List Char} (hx : ∀ c ∈ x, isIdentifierChar c) : Units x := by
  induction x with
  | nil => exact .nil
  | cons c x ih =>
    obtain ⟨hc, hx⟩ := List.forall_mem_cons.mp hx
    exact .char hc (ih hx)

/-- Identifiers behind double colons. -/
def joinBehind : List (List Char) → List Char
  | [] => []
  | x :: ids => ':' :: ':' :: join (x :: ids)

theorem join_cons (x : List Char) (ids : List (List Char)) :
    join (x :: ids) = x ++ joinBehind ids := by
  cases ids with
  | nil => simp [join, joinBehind]
  | cons y ids => rfl

theorem IsIdentifier.starts {x : List Char} (hx : IsIdentifier x) (s : List Char) :
    Starts (x ++ s) := by
  obtain ⟨hchars, c, hc, hdigit⟩ := hx
  cases x with
  | nil => cases hc
  | cons d x =>
    obtain rfl := Option.some.inj hc
    exact ⟨d, rfl, hchars d List.mem_cons_self, hdigit⟩

theorem starts_join {ids : List (List Char)} (hne : ids ≠ []) (hids : ∀ x ∈ ids, IsIdentifier x) :
    Starts (join ids) := by
  obtain ⟨x, ids, rfl⟩ := List.exists_cons_of_ne_nil hne
  rw [join_cons]
  exact (hids x List.mem_cons_self).starts _

theorem units_join {ids : List (List Char)} (hids : ∀ x ∈ ids, IsIdentifier x) :
    Units (join ids) := by
  induction ids with
  | nil => exact .nil
  | cons x ids ih =>
    obtain ⟨hx, hids⟩ := List.forall_mem_cons.mp hids
    rw [join_cons]
    refine (Units.chars hx.1).append ?_
    cases ids with
    | nil => exact .nil
    | cons y ids => exact .colons (ih hids)

/-- What is units and tidy is identifier characters, and then identifiers behind double colons. -/
theorem Units.exists_join {w : List Char} (hw : Units w) (htidy : Tidy w) :
    ∃ x ids, (∀ c ∈ x, isIdentifierChar c) ∧ (∀ y ∈ ids, IsIdentifier y) ∧
      w = x ++ joinBehind ids := by
  induction hw with
  | nil => exact ⟨[], [], by simp, by simp, rfl⟩
  | @char c s hc hs ih =>
    obtain ⟨x, ids, hx, hids, rfl⟩ := ih fun u v hu h =>
      htidy (c :: u) v (.char hc hu) (by rw [h]; rfl)
    exact ⟨c :: x, ids, List.forall_mem_cons.mpr ⟨hc, hx⟩, hids, rfl⟩
  | @colons s hs ih =>
    obtain ⟨x, ids, hx, hids, rfl⟩ := ih fun u v hu h =>
      htidy (':' :: ':' :: u) v (.colons hu) (by rw [h]; rfl)
    obtain ⟨c, hc, hchar, hdigit⟩ := htidy [] _ .nil rfl
    have hident : IsIdentifier x := by
      refine ⟨hx, c, ?_, hdigit⟩
      cases x with
      | nil =>
        cases ids with
        | nil => cases hc
        | cons y ids =>
          obtain rfl := Option.some.inj hc
          exact absurd hchar (by decide)
      | cons d x => exact hc
    refine ⟨[], x :: ids, by simp, List.forall_mem_cons.mpr ⟨hident, hids⟩, ?_⟩
    rw [List.nil_append, joinBehind, join_cons]

/-- A tidy run that does not begin with a digit is a reference. -/
theorem Units.isReference {w : List Char} (hw : Units w) (htidy : Tidy w) (hgood : Good w) :
    ∃ ids, IsReference w ids := by
  obtain ⟨x, ids, hx, hids, rfl⟩ := hw.exists_join htidy
  obtain ⟨c, hc, hdigit⟩ := hgood
  cases x with
  | nil =>
    cases ids with
    | nil => cases hc
    | cons y ids => exact ⟨y :: ids, by simp, hids, .inr rfl⟩
  | cons d x =>
    obtain rfl := Option.some.inj hc
    have hident : IsIdentifier (d :: x) := ⟨hx, d, rfl, hdigit⟩
    exact ⟨(d :: x) :: ids, by simp, List.forall_mem_cons.mpr ⟨hident, hids⟩,
      .inl (join_cons _ _).symm⟩

/-- Double colons behind identifier characters are those that follow them. -/
theorem tidy_append {x t : List Char} (hx : ∀ c ∈ x, isIdentifierChar c) (ht : Tidy t) :
    Tidy (x ++ t) := by
  intro u v hu h
  obtain ⟨a, rfl, hv⟩ | ⟨c, rfl, hv⟩ := List.append_eq_append_iff.mp h
  · exact ht a v ((Units.chars hx).of_append hu) hv
  · cases c with
    | nil => exact ht [] v .nil hv.symm
    | cons d c =>
      obtain ⟨rfl, -⟩ := List.cons.inj hv
      exact absurd (hx ':' (by simp)) (by decide)

theorem tidy_colons {t : List Char} (hstarts : Starts t) (ht : Tidy t) :
    Tidy (':' :: ':' :: t) := by
  intro u v hu h
  cases hu with
  | nil =>
    obtain rfl := (List.cons.inj (List.cons.inj h).2).2
    exact hstarts
  | char hc hs =>
    obtain ⟨rfl, -⟩ := List.cons.inj h
    exact absurd hc (by decide)
  | colons hs => exact ht _ v hs (List.cons.inj (List.cons.inj h).2).2

theorem tidy_join {ids : List (List Char)} (hids : ∀ x ∈ ids, IsIdentifier x) :
    Tidy (join ids) := by
  induction ids with
  | nil =>
    intro u v hu h
    simp [join] at h
  | cons x ids ih =>
    obtain ⟨hx, hids⟩ := List.forall_mem_cons.mp hids
    rw [join_cons]
    refine tidy_append hx.1 ?_
    cases ids with
    | nil =>
      intro u v hu h
      simp [joinBehind] at h
    | cons y ids => exact tidy_colons (starts_join (by simp) hids) (ih hids)

theorem IsReference.made {r : List Char} {ids : List (List Char)} (h : IsReference r ids) :
    Units r := by
  obtain ⟨-, hids, rfl | rfl⟩ := h
  · exact units_join hids
  · exact .colons (units_join hids)

theorem IsReference.tidy {r : List Char} {ids : List (List Char)} (h : IsReference r ids) :
    Tidy r := by
  obtain ⟨hne, hids, rfl | rfl⟩ := h
  · exact tidy_join hids
  · exact tidy_colons (starts_join hne hids) (tidy_join hids)

/-! ## The identifiers of a reference -/

theorem splitFrom_chars (a : List Name) (i : List Char) {x : List Char}
    (hx : ∀ c ∈ x, isIdentifierChar c) (s : List Char) :
    splitFrom a i (x ++ s) = splitFrom a (x.reverse ++ i) s := by
  induction x generalizing i with
  | nil => rfl
  | cons c x ih =>
    obtain ⟨hc, hx⟩ := List.forall_mem_cons.mp hx
    have hcolon := ne_colon_of_identifierChar hc
    rw [List.cons_append, splitFrom, ih _ hx, List.reverse_cons, List.append_assoc]
    · rfl
    · rintro t rfl -
      exact hcolon rfl

theorem splitFrom_join {ids : List (List Char)} (hne : ids ≠ [])
    (hids : ∀ x ∈ ids, IsIdentifier x) (a : List Name) :
    splitFrom a [] (join ids) = (a ++ ids.dropLast, ids.getLastD []) := by
  induction ids generalizing a with
  | nil => exact absurd rfl hne
  | cons x ids ih =>
    obtain ⟨hx, hids⟩ := List.forall_mem_cons.mp hids
    rw [join_cons, splitFrom_chars a [] hx.1, List.append_nil]
    cases ids with
    | nil => simp [joinBehind, splitFrom]
    | cons y ids =>
      rw [joinBehind, splitFrom, List.reverse_reverse, ih (by simp) hids]
      simp

theorem IsReference.splitSymbol {r : List Char} {ids : List (List Char)} (h : IsReference r ids) :
    splitSymbol r = (ids.dropLast, ids.getLastD []) := by
  obtain ⟨hne, hids, rfl | rfl⟩ := h
  · obtain ⟨c, hc, hchar, -⟩ := starts_join hne hids
    have hsplit : Tags.splitSymbol (join ids) = splitFrom [] [] (join ids) := by
      rw [Tags.splitSymbol]
      rintro t ht
      rw [ht] at hc
      obtain rfl := Option.some.inj hc
      exact absurd hchar (by decide)
    rw [hsplit, splitFrom_join hne hids, List.nil_append]
  · rw [Tags.splitSymbol, splitFrom_join hne hids, List.nil_append]

/-! ## All of a reference -/

theorem join_last {ids : List (List Char)} (hne : ids ≠ []) (hids : ∀ x ∈ ids, IsIdentifier x) :
    ∃ u d, join ids = u ++ [d] ∧ isIdentifierChar d := by
  induction ids with
  | nil => exact absurd rfl hne
  | cons x ids ih =>
    obtain ⟨hx, hids⟩ := List.forall_mem_cons.mp hids
    rw [join_cons]
    cases ids with
    | nil =>
      have hxne : x ≠ [] := by
        rintro rfl
        obtain ⟨-, c, hc, -⟩ := hx
        cases hc
      refine ⟨x.dropLast, x.getLast hxne, ?_, hx.1 _ (List.getLast_mem hxne)⟩
      rw [joinBehind, List.append_nil, List.dropLast_append_getLast]
    | cons y ids =>
      obtain ⟨u, d, hu, hd⟩ := ih (by simp) hids
      exact ⟨x ++ ':' :: ':' :: u, d, by rw [joinBehind, hu]; simp, hd⟩

theorem IsReference.last {r : List Char} {ids : List (List Char)} (h : IsReference r ids) :
    ∃ u d, r = u ++ [d] ∧ isIdentifierChar d := by
  obtain ⟨hne, hids, rfl | rfl⟩ := h
  · exact join_last hne hids
  · obtain ⟨u, d, hu, hd⟩ := join_last hne hids
    exact ⟨':' :: ':' :: u, d, by rw [hu]; rfl, hd⟩

/-- Before double colons there are units, or units and a colon. -/
theorem Units.before_colons {p t : List Char} (h : Units (p ++ ':' :: ':' :: t)) :
    Units p ∨ ∃ p', p = p' ++ [':'] ∧ Units p' := by
  generalize hw : p ++ ':' :: ':' :: t = w at h
  induction h generalizing p with
  | nil => simp at hw
  | @char c s hc hs ih =>
    cases p with
    | nil => exact .inl .nil
    | cons c' p =>
      simp only [List.cons_append, List.cons.injEq] at hw
      obtain hp | ⟨p', rfl, hp⟩ := ih hw.2
      · exact .inl (hw.1 ▸ .char hc hp)
      · exact .inr ⟨c' :: p', rfl, hw.1 ▸ .char hc hp⟩
  | @colons s hs ih =>
    match p, hw with
    | [], hw => exact .inl .nil
    | [c], hw =>
      simp only [List.cons_append, List.cons.injEq] at hw
      exact .inr ⟨[], by rw [hw.1]; rfl, .nil⟩
    | c :: c' :: p, hw =>
      simp only [List.cons_append, List.cons.injEq] at hw
      obtain ⟨rfl, rfl, hw⟩ := hw
      obtain hp | ⟨p', rfl, hp⟩ := ih hw
      · exact .inl (.colons hp)
      · exact .inr ⟨':' :: ':' :: p', rfl, .colons hp⟩

/-- In a reference, there are units before a reference. -/
theorem IsReference.units_before {p w q : List Char} {ids ids' : List (List Char)}
    (hr : IsReference (p ++ w ++ q) ids') (hw : IsReference w ids) : Units p := by
  obtain ⟨hne, hids, rfl | rfl⟩ := hw
  · obtain ⟨c, hc, hchar, -⟩ := starts_join hne hids
    obtain ⟨t, ht⟩ : ∃ t, join ids = c :: t := List.head?_eq_some_iff.mp hc
    have hunits := hr.made
    rw [ht, List.append_assoc, List.cons_append] at hunits
    exact (hunits.split hchar).1
  · have hunits := hr.made
    have htidy := hr.tidy
    rw [List.append_assoc, List.cons_append, List.cons_append] at hunits htidy
    obtain hp | ⟨p', rfl, hp⟩ := hunits.before_colons
    · exact hp
    · obtain ⟨c, hc, hchar, -⟩ := htidy p' _ hp (by rw [List.append_assoc]; rfl)
      obtain rfl := Option.some.inj hc
      exact absurd hchar (by decide)

section
variable {before w after : List Char} {ids : List (List Char)}

/-- A reference with no unit before or after is in no other. -/
theorem IsReference.maximal (hw : IsReference w ids) (hbefore : units before.reverse = [])
    (hafter : units after = []) {before' r' after' : List Char} {ids' : List (List Char)}
    (htext : before ++ (w ++ after) = before' ++ r' ++ after') (hr : IsReference r' ids')
    (hstart : before'.length ≤ before.length)
    (hend : before.length + w.length ≤ before'.length + r'.length) : before' = before ∧ r' = w := by
  obtain ⟨p, rfl⟩ : ∃ p, before = before' ++ p := by
    rw [List.append_assoc] at htext
    obtain ⟨p, hp, -⟩ | ⟨p, hp, -⟩ := List.append_eq_append_iff.mp htext
    · have hnil : p = [] := by
        have hlength := congrArg List.length hp
        rw [List.length_append] at hlength
        exact List.eq_nil_of_length_eq_zero (by omega)
      exact ⟨[], by rw [hp, hnil, List.append_nil, List.append_nil]⟩
    · exact ⟨p, hp⟩
  obtain ⟨q, rfl, rfl⟩ : ∃ q, r' = p ++ w ++ q ∧ after = q ++ after' := by
    rw [List.append_assoc, List.append_assoc, List.append_cancel_left_eq, ← List.append_assoc]
      at htext
    obtain ⟨q, hq, hafter⟩ | ⟨q, hq, hafter⟩ := List.append_eq_append_iff.mp htext
    · exact ⟨q, hq, hafter⟩
    · have hnil : q = [] := by
        have hlength := congrArg List.length hq
        simp only [List.length_append] at hlength hend
        exact List.eq_nil_of_length_eq_zero (by omega)
      rw [hnil] at hq hafter
      exact ⟨[], by simpa using hq.symm, by simpa using hafter.symm⟩
  have hp : p = [] := by
    have hunits := (hr.units_before hw).reverse.units_append before'.reverse
    rw [← List.reverse_append, hbefore] at hunits
    exact List.reverse_eq_nil_iff.mp (List.append_eq_nil_iff.mp hunits.symm).1
  have hq : q = [] := by
    obtain ⟨u, d, rfl, hd⟩ := hw.last
    have hunits := hr.made
    rw [← List.append_assoc, List.append_assoc (p ++ u), List.singleton_append] at hunits
    have hq := (hunits.split hd).2.units_append after'
    rw [hafter] at hq
    exact (List.append_eq_nil_iff.mp hq.symm).1
  rw [hp, hq]
  simp

/-- What comes of an offset comes of any at an identifier character about it. -/
theorem getIdentifierRefAt_other (hw : Units w) (hgood : Good w)
    (hbefore : units before.reverse = []) (hafter : units after = []) {p : Nat} {c : Char}
    (hstart : before.length ≤ p) (hend : p < before.length + w.length)
    (hc : (before ++ (w ++ after))[p]? = some c) (hchar : isIdentifierChar c) :
    ∃ reads, getIdentifierRefAt (before ++ (w ++ after)) p = some (.ok w, reads) := by
  obtain ⟨k, rfl⟩ := Nat.exists_eq_add_of_le hstart
  have hk : k < w.length := by omega
  rw [List.getElem?_append_right (Nat.le_add_right _ _), Nat.add_sub_cancel_left,
    List.getElem?_append_left hk] at hc
  have hsplit : w = w.take k ++ c :: w.drop (k + 1) := by
    have hdrop := List.drop_eq_getElem_cons hk
    rw [List.getElem?_eq_getElem hk] at hc
    rw [Option.some.inj hc] at hdrop
    rw [← hdrop, List.take_append_drop]
  have hlength : (w.take k).length = k := by rw [List.length_take]; omega
  generalize w.take k = u at hsplit hlength
  generalize w.drop (k + 1) = v at hsplit
  subst hsplit
  obtain ⟨hu, hv⟩ := hw.split hchar
  obtain ⟨reads, -, hok, -⟩ :=
    @getIdentifierRefAt_around before u (c :: v) after hu (.char hchar hv) hbefore hafter (by simp)
  have hresult := hok hgood
  rw [← List.append_assoc u, List.length_append, hlength] at hresult
  exact ⟨reads, hresult⟩

end

/-! ## When a reference is found -/

/-- There is no unit at the end. -/
def Ends (v : List Char) : Prop :=
  (∃ v' c, v = v' ++ [c] ∧ isIdentifierChar c) ∨ ∃ v', v = v' ++ [':', ':']

/-- Double colons, with nothing but units between them and the offset, and not the front of an
identifier behind them. -/
def Dangling (text : List Char) (offset : Nat) : Prop :=
  (∃ u v, text.drop offset = u ++ ':' :: ':' :: v ∧ Units u ∧ ¬Starts v) ∨
    ∃ u v, text.take offset = v ++ ':' :: ':' :: u ∧ Units u ∧ ¬Starts (u ++ text.drop offset)

/-- A digit, with nothing but units between it and the offset, and no unit before it. -/
def BeginsWithDigit (text : List Char) (offset : Nat) : Prop :=
  ∃ u v c, text.take offset = v ++ u ∧ Units u ∧ ¬Ends v ∧
    (u ++ text.drop offset).head? = some c ∧ isDigit c

theorem ends_iff (v : List Char) : ¬Ends v ↔ units v.reverse = [] := by
  constructor
  · intro h
    obtain hnil | ⟨c, t, hc, ht⟩ | ⟨t, ht⟩ := units_cases v.reverse
    · exact hnil
    · exact absurd (.inl ⟨t.reverse, c, by simpa using congrArg List.reverse ht, hc⟩) h
    · exact absurd (.inr ⟨t.reverse, by simpa using congrArg List.reverse ht⟩) h
  · rintro h (⟨t, c, rfl, hc⟩ | ⟨t, rfl⟩)
    · rw [List.reverse_append, List.reverse_singleton, List.singleton_append, units_char hc] at h
      cases h
    · rw [List.reverse_append] at h
      cases h

theorem isIdentifierChar_of_isDigit {c : Char} (hc : isDigit c) : isIdentifierChar c := by
  have h := of_decide_eq_true hc
  exact decide_eq_true (.inr (.inr (.inl h)))

/-- What is at the front of a text, where it is an identifier character, is at the front of its
units. -/
theorem head?_units {u r after : List Char} (hu : units after = []) {c : Char}
    (hc : isIdentifierChar c) :
    (u ++ (r ++ after)).head? = some c ↔ (u ++ r).head? = some c := by
  rw [← List.append_assoc]
  cases hur : u ++ r with
  | nil =>
    refine iff_of_false (fun h => ?_) (fun h => (nomatch h))
    obtain ⟨t, rfl⟩ := List.head?_eq_some_iff.mp h
    rw [units_char hc] at hu
    cases hu
  | cons d t => exact Iff.rfl

theorem starts_units {u r after : List Char} (hu : units after = []) :
    Starts (u ++ (r ++ after)) ↔ Starts (u ++ r) := by
  refine exists_congr fun c => ?_
  constructor
  · rintro ⟨hhead, hchar, hdigit⟩
    exact ⟨(head?_units hu hchar).mp hhead, hchar, hdigit⟩
  · rintro ⟨hhead, hchar, hdigit⟩
    exact ⟨(head?_units hu hchar).mpr hhead, hchar, hdigit⟩

section
variable {before l r after : List Char}

theorem take_around : (before ++ (l ++ (r ++ after))).take (before ++ l).length = before ++ l := by
  rw [← List.append_assoc, List.take_left]

theorem drop_around : (before ++ (l ++ (r ++ after))).drop (before ++ l).length = r ++ after := by
  rw [← List.append_assoc, List.drop_left]

/-- The run about an offset is tidy just if nothing about it dangles. -/
theorem tidy_around_iff (hl : Units l) (hr : Units r) (hbefore : units before.reverse = [])
    (hafter : units after = []) :
    Tidy (l ++ r) ↔ ¬Dangling (before ++ (l ++ (r ++ after))) (before ++ l).length := by
  rw [Dangling, take_around, drop_around]
  constructor
  · rintro htidy (⟨u, v, hs, hu, hv⟩ | ⟨u, v, hb, hu, hv⟩)
    · -- behind the offset, the double colons are in `r`
      have hunits := hr.units_append after
      rw [hs, hu.units_append, units, hafter, List.append_nil] at hunits
      refine hv ?_
      have hstarts := htidy (l ++ u) (units v) (hl.append hu) (by rw [← hunits]; simp)
      obtain ⟨rest, hrest, hnil⟩ := exists_units_append v
      rw [hrest]
      exact (starts_units (u := []) hnil).mpr hstarts
    · -- before it they are in `l`
      have hunits := hl.reverse.units_append before.reverse
      rw [← List.reverse_append, hb, hbefore, List.append_nil] at hunits
      have hrev : (v ++ ':' :: ':' :: u).reverse = u.reverse ++ ':' :: ':' :: v.reverse := by simp
      rw [hrev, hu.reverse.units_append, units] at hunits
      have hleft : l = (units v.reverse).reverse ++ ':' :: ':' :: u := by
        rw [← List.reverse_inj, ← hunits]
        simp
      refine hv ((starts_units hafter).mpr ?_)
      exact htidy (units v.reverse).reverse (u ++ r) (units_units _).reverse (by rw [hleft]; simp)
  · intro hnone u v hu h
    have hright : ∀ a, Units a → r = a ++ ':' :: ':' :: v → Starts v := by
      rintro a ha rfl
      by_contra hnot
      refine hnone (.inl ⟨a, v ++ after, by simp, ha, fun hstarts => hnot ?_⟩)
      simpa using (starts_units (u := v) (r := []) hafter).mp (by simpa using hstarts)
    obtain ⟨a, rfl, hv⟩ | ⟨a, rfl, hv⟩ := List.append_eq_append_iff.mp h
    · exact hright a (hl.of_append hu) hv
    · have ha := hu.of_append hl
      match a, hv, ha with
      | [], hv, ha => exact hright [] .nil hv.symm
      | [c], hv, ha =>
        simp only [List.cons_append, List.cons.injEq] at hv
        obtain ⟨rfl, -⟩ := hv
        cases ha with
        | char hc hs => exact absurd hc (by decide)
      | c :: d :: a, hv, ha =>
        simp only [List.cons_append, List.cons.injEq] at hv
        obtain ⟨rfl, rfl, rfl⟩ := hv
        by_contra hnot
        exact hnone (.inr ⟨a, before ++ u, by simp, ha.of_colons,
          fun h => hnot ((starts_units hafter).mp h)⟩)

theorem beginsWithDigit_around_iff (hl : Units l) (hbefore : units before.reverse = [])
    (hafter : units after = []) :
    BeginsWithDigit (before ++ (l ++ (r ++ after))) (before ++ l).length ↔
      ∃ c, (l ++ r).head? = some c ∧ isDigit c = true := by
  rw [BeginsWithDigit, take_around, drop_around]
  constructor
  · rintro ⟨u, v, c, hb, hu, hv, hc, hdigit⟩
    rw [ends_iff] at hv
    have hunits := hl.reverse.units_append before.reverse
    rw [← List.reverse_append, hb, hbefore, List.append_nil, List.reverse_append,
      hu.reverse.units_append, hv, List.append_nil, List.reverse_inj] at hunits
    rw [← hunits]
    exact ⟨c, (head?_units hafter (isIdentifierChar_of_isDigit hdigit)).mp hc, hdigit⟩
  · rintro ⟨c, hc, hdigit⟩
    exact ⟨l, before, c, rfl, hl, (ends_iff before).mpr hbefore,
      (head?_units hafter (isIdentifierChar_of_isDigit hdigit)).mpr hc, hdigit⟩

/-- A reference is found. -/
theorem finds_of_isReference (hl : Units l) (hr : Units r) (hbefore : units before.reverse = [])
    (hafter : units after = []) (hgood : Good (l ++ r)) (htidy : Tidy (l ++ r)) :
    Finds (before ++ (l ++ (r ++ after))) (before ++ l).length := by
  obtain ⟨ids, hids⟩ := (hl.append hr).isReference htidy hgood
  have hne : before ++ (l ++ (r ++ after)) ≠ [] := by
    obtain ⟨c, hc, -⟩ := hgood
    intro hnil
    simp only [List.append_eq_nil_iff] at hnil
    rw [hnil.2.1, hnil.2.2.1] at hc
    cases hc
  obtain ⟨reads, hreads, hok, -⟩ := getIdentifierRefAt_around hl hr hbefore hafter hne
  have htext : before ++ (l ++ (r ++ after)) = before ++ (l ++ r ++ after) := by simp
  have hrange : before.length ≤ (before ++ l).length ∧
      (before ++ l).length ≤ before.length + (l ++ r).length := by
    simp only [List.length_append]
    omega
  refine ⟨⟨_, reads, hok hgood, hreads⟩, fun w reads' hw => ?_, fun hnone => ?_⟩
  · obtain rfl : l ++ r = w := by
      rw [hok hgood] at hw
      exact Except.ok.inj (Prod.mk.inj (Option.some.inj hw)).1
    refine ⟨before, after, ids, by simp, hrange.1, hrange.2, hids, ?_, ?_, hids.splitSymbol⟩
    · intro before' r' after' ids' htext' hr' hstart hend
      exact hids.maximal hbefore hafter (htext ▸ htext') hr' hstart hend
    · intro p c hstart hend hc hchar
      rw [htext] at hc ⊢
      exact getIdentifierRefAt_other (hl.append hr) hgood hbefore hafter hstart hend hc hchar
  · exact absurd ⟨before, l ++ r, after, ids, by simp, hids, hrange.1, hrange.2⟩ hnone

end

theorem tidy_nil : Tidy [] := fun _ _ _ h => by simp at h

/-- A text that is empty is read at its end. -/
theorem not_finds_nil : ¬Finds [] 0 := by
  intro h
  obtain ⟨r, reads, hresult, hreads⟩ := h.reads
  obtain ⟨-, rfl⟩ : _ ∧ [0] = reads := by simpa [getIdentifierRefAt, findEnd, goesOn, last, charAt,
    findStart, goesBack, check] using hresult
  exact absurd (hreads 0 List.mem_cons_self) (by decide)

theorem finds_of_beyond {text : List Char} {offset : Nat} (h : offset > text.length) :
    Finds text offset := by
  have hresult : ∃ e, getIdentifierRefAt text offset = some (.error e, []) := by
    rw [getIdentifierRefAt, if_pos h]
    exact ⟨_, rfl⟩
  obtain ⟨e, hresult⟩ := hresult
  refine ⟨⟨_, _, hresult, fun i hi => absurd hi List.not_mem_nil⟩, fun r reads hr => ?_,
    fun _ => ⟨e, [], hresult⟩⟩
  rw [hresult] at hr
  cases hr

/-- What is to come of an offset comes of it, unless the text is empty, just if the run about the
offset begins with a digit, or no double colons of it dangle. -/
theorem getIdentifierRefAt_finds_iff (text : List Char) (offset : Nat) :
    Finds text offset ↔ (offset ≤ text.length →
      text ≠ [] ∧ (BeginsWithDigit text offset ∨ ¬Dangling text offset)) := by
  by_cases hoffset : offset ≤ text.length
  · rw [imp_iff_right hoffset]
    by_cases hne : text = []
    · subst hne
      obtain rfl := Nat.le_zero.mp hoffset
      exact iff_of_false not_finds_nil fun h => h.1 rfl
    obtain ⟨before, l, r, after, rfl, rfl, hl, hr, hbefore, hafter⟩ := exists_around hoffset
    obtain ⟨reads, hreads, hok, herror⟩ := getIdentifierRefAt_around hl hr hbefore hafter hne
    rw [and_iff_right hne, beginsWithDigit_around_iff hl hbefore hafter,
      ← tidy_around_iff hl hr hbefore hafter]
    by_cases hgood : Good (l ++ r)
    · constructor
      · intro h
        obtain ⟨-, -, ids, -, -, -, hids, -⟩ := h.found _ reads (hok hgood)
        exact .inr hids.tidy
      · rintro (⟨c, hc, hdigit⟩ | htidy)
        · obtain ⟨d, hd, hnot⟩ := hgood
          obtain rfl := Option.some.inj (hc.symm.trans hd)
          exact absurd hdigit (by simp [hnot])
        · exact finds_of_isReference hl hr hbefore hafter hgood htidy
    · obtain ⟨e, he⟩ := herror hgood
      refine iff_of_true ⟨⟨_, reads, he, hreads⟩, fun w reads' hw => ?_, fun _ => ⟨e, reads, he⟩⟩ ?_
      · rw [he] at hw
        cases hw
      · cases hw : l ++ r with
        | nil => exact .inr tidy_nil
        | cons c w =>
          refine .inl ⟨c, rfl, ?_⟩
          by_contra hdigit
          exact hgood ⟨c, by rw [hw]; rfl, by simpa using hdigit⟩
  · exact iff_of_true (finds_of_beyond (Nat.not_le.mp hoffset)) fun h => absurd h hoffset

/-- `a::` comes of `a::`. -/
theorem not_finds_dangling :
    ¬Finds ['a', ':', ':'] 0 ∧
      (getIdentifierRefAt ['a', ':', ':'] 0).map Prod.fst = some (.ok ['a', ':', ':']) := by
  have hresult : (getIdentifierRefAt ['a', ':', ':'] 0).map Prod.fst
      = some (.ok ['a', ':', ':']) := by rfl
  refine ⟨fun h => ?_, hresult⟩
  obtain ⟨⟨r, reads⟩, hget, hr⟩ := Option.map_eq_some_iff.mp hresult
  obtain rfl : r = .ok ['a', ':', ':'] := hr
  obtain ⟨-, -, ids, -, -, -, hids, -⟩ := h.found _ _ hget
  obtain ⟨c, hc, -⟩ := hids.tidy ['a'] [] (.char (by decide) .nil) rfl
  cases hc

end Urnest.Hcp.Tags.RefAt
