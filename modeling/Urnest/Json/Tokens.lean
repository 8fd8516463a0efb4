import Urnest.Json.Grammar

/-!
# Tokens of JSON

What the parsers below an element take: white space, the digits of a number, a string. Each
rule is about what is left of the text at a position, and says where the parser stops; what
comes behind has to begin with something else.
-/

namespace Urnest.Json

open Lib Hcp Hcp.Parsing Utf8

variable {text : List UInt8} {i : Nat}

/-! ## White space -/

/-- White space of JSON -/
def White (ws : List Char) : Prop := ∀ c ∈ ws, c ∈ " \t\n\r".toList

/-- Nothing that `eatWhite` would take. -/
def Solid (rest : List Char) : Prop := ∀ c ∈ rest.head?, c ∉ " \t\n\r".toList ∧ c ≠ '/'

/-- Items in which nothing but white space is found. -/
def Bare (xs : IRs ItemType) : Prop :=
  ∀ isA : ItemType → Bool, isA .WhiteSpace = false → findAll isA xs = []

theorem bare_nil : Bare [] := fun _ _ => rfl

theorem Bare.leaf {xs : IRs ItemType} (h : Bare xs) (b e : Nat) : Bare (.leaf b e :: xs) :=
  fun isA hisA => h isA hisA

theorem add_length_cons {α : Type} (i : Nat) (x : α) (xs : List α) :
    i + (x :: xs).length = i + 1 + xs.length := by
  rw [List.length_cons]
  omega

theorem refuses_literal_head {s : Parsing Unit ItemType Rule} {id : Unit} {x : String} {c : Char}
    {cs : List Char} (hx : x.toList = c :: cs) (h : ∀ d ∈ (s.text.drop i).head?, d ≠ c) :
    s.Refuses (.literal id x) i := by
  refine refuses_literal fun hstarts => ?_
  obtain ⟨rest, hrest⟩ := hstarts
  rw [hx, List.cons_append] at hrest
  rw [← hrest, List.head?_cons] at h
  exact h c rfl rfl

section Solid

variable (h : Solid ((chars text).drop i))

include h

theorem refuses_whitespaceChar : (parsing text).Refuses whitespaceChar i :=
  refuses_oneOfChars fun c hc => (h c hc).1

theorem refuses_doubleSlash : (parsing text).Refuses doubleSlash i :=
  refuses_literal_head rfl fun c hc => (h c hc).2

theorem refuses_slashStar : (parsing text).Refuses slashStar i :=
  refuses_literal_head rfl fun c hc => (h c hc).2

theorem refuses_comments : (parsing text).Refuses comments i := by
  refine refuses_named (refuses_anon (refuses_and (refuses_or fun q hq => ?_)))
  rcases List.mem_pair.mp hq with rfl | rfl
  · exact refuses_named (refuses_and (refuses_doubleSlash h))
  · exact refuses_named (refuses_and (refuses_slashStar h))

end Solid

theorem repeats_white {ws rest : List Char} (h : (chars text).drop i = ws ++ rest) (hws : White ws)
    (hrest : Solid rest) :
    ∃ xs, Repeats ((parsing text).Takes (whitespaceChar ||| comments))
      ((parsing text).Refuses (whitespaceChar ||| comments)) i xs (i + ws.length) ∧
        ∀ isA, findAll isA xs = [] := by
  induction ws generalizing i with
  | nil =>
    have hsolid : Solid ((chars text).drop i) := by rwa [h]
    refine ⟨[], .stop (refuses_or fun q hq => ?_), fun _ => rfl⟩
    rcases List.mem_pair.mp hq with rfl | rfl
    · exact refuses_whitespaceChar hsolid
    · exact refuses_comments hsolid
  | cons c ws ih =>
    obtain ⟨hc, hws⟩ := List.forall_mem_cons.mp hws
    have hdrop : (chars text).drop (i + 1) = ws ++ rest := drop_of_drop (x := [c]) h
    obtain ⟨xs, hxs, hbare⟩ := ih hdrop hws
    have hc : (parsing text).Takes whitespaceChar i [.leaf i (i + 1)] (i + 1) :=
      takes_oneOfChars h hc
    rw [add_length_cons]
    refine ⟨_, .turn (takes_or_first hc) hxs, fun isA => ?_⟩
    rw [findAll_append, hbare isA]
    rfl

theorem takes_eatWhite {ws rest : List Char} (h : (chars text).drop i = ws ++ rest)
    (hws : White ws) (hrest : Solid rest) :
    ∃ xs, (parsing text).Takes eatWhite i xs (i + ws.length) ∧ Bare xs := by
  cases ws with
  | nil =>
    have hsolid : Solid ((chars text).drop i) := by rwa [h]
    have hnone : (parsing text).Refuses (whitespaceChar ||| doubleSlash ||| slashStar) i := by
      refine refuses_or fun q hq => ?_
      rcases List.mem_cons.mp hq with rfl | hq
      · exact refuses_whitespaceChar hsolid
      rcases List.mem_pair.mp hq with rfl | rfl
      · exact refuses_doubleSlash hsolid
      · exact refuses_slashStar hsolid
    exact ⟨[], takes_anon (takes_or_first (takes_not hnone)), bare_nil⟩
  | cons c ws =>
    obtain ⟨xs, hxs, hbare⟩ := repeats_white h hws hrest
    have hc : (parsing text).Takes whitespaceChar i [.leaf i (i + 1)] (i + 1) :=
      takes_oneOfChars h (hws c (List.mem_cons_self ..))
    refine ⟨_, takes_anon (takes_or_second (refuses_not (takes_or_first hc))
      (takes_named (fun _ _ => rfl) (takes_zeroOrMore hxs))), fun isA hisA => ?_⟩
    cases xs with
    | nil => simp [Item.composite, findAll, Item.outmost, hisA]
    | cons first rest =>
      have hfound := hbare isA
      rw [findAll] at hfound
      simp [Item.composite, findAll, Item.outmost, hisA, List.append_eq_nil_iff.mp hfound]

/-! ## Numbers -/

theorem digitChar_range (d : Fin 10) : '0' ≤ digitChar d ∧ digitChar d ≤ '9' := by
  revert d
  decide

theorem digitChar_range_of_ne {d : Fin 10} (h : d ≠ 0) : '1' ≤ digitChar d ∧ digitChar d ≤ '9' := by
  revert d
  decide

/-- Nothing that would go on a number. -/
def Ends (rest : List Char) : Prop :=
  ∀ c ∈ rest.head?, isDigit c = false ∧ c ≠ '.' ∧ c ∉ "eE".toList

theorem refuses_digit (h : ∀ c ∈ ((chars text).drop i).head?, isDigit c = false) :
    (parsing text).Refuses digit i := by
  refine refuses_charInRange fun c hc => ?_
  have hnot := h c hc
  rw [isDigit, decide_eq_false_iff_not] at hnot
  by_contra hrange
  obtain ⟨hmin, hmax⟩ := not_or.mp hrange
  exact hnot ⟨Char.not_lt.mp hmin, Char.not_lt.mp hmax⟩

theorem takes_digits {ds : List (Fin 10)} {rest : List Char}
    (h : (chars text).drop i = ds.map digitChar ++ rest)
    (hrest : ∀ c ∈ rest.head?, isDigit c = false) :
    ∃ xs, (parsing text).Takes (zeroOrMore digit) i xs (i + ds.length) := by
  have hrepeats : ∃ xs, Repeats ((parsing text).Takes digit) ((parsing text).Refuses digit) i xs
      (i + ds.length) := by
    induction ds generalizing i with
    | nil => exact ⟨[], .stop (refuses_digit (by rwa [h]))⟩
    | cons d ds ih =>
      have hdrop : (chars text).drop (i + 1) = ds.map digitChar ++ rest :=
        drop_of_drop (x := [digitChar d]) h
      obtain ⟨xs, hxs⟩ := ih hdrop
      obtain ⟨hmin, hmax⟩ := digitChar_range d
      rw [add_length_cons]
      exact ⟨_, .turn (takes_charInRange h hmin hmax) hxs⟩
  obtain ⟨xs, hxs⟩ := hrepeats
  exact ⟨xs, takes_zeroOrMore hxs⟩

theorem takes_atLeastOne {ds : List (Fin 10)} {rest : List Char} (hne : ds ≠ [])
    (h : (chars text).drop i = ds.map digitChar ++ rest)
    (hrest : ∀ c ∈ rest.head?, isDigit c = false) :
    ∃ xs, (parsing text).Takes (atLeastOne digit) i xs (i + ds.length) := by
  obtain ⟨d, ds, rfl⟩ := List.exists_cons_of_ne_nil hne
  have hdrop : (chars text).drop (i + 1) = ds.map digitChar ++ rest :=
    drop_of_drop (x := [digitChar d]) h
  obtain ⟨xs, hxs⟩ := takes_digits hdrop hrest
  obtain ⟨hmin, hmax⟩ := digitChar_range d
  rw [add_length_cons]
  exact ⟨_, takes_anon (takes_and (.cons (takes_charInRange h hmin hmax) hxs.all))⟩

/-- The parts of a number. -/
def sign : PR := optional (parseOneOfChars "-")

def wholePart : PR := parseLiteral "0" ||| (nonZeroDigit + zeroOrMore digit)

def fractionPart : PR := not (parseLiteral ".") ||| (parseLiteral "." + atLeastOne digit)

def exponentSign : PR := optional (parseOneOfChars "+-")

def exponentPart : PR := not (parseOneOfChars "eE") ||| exponent

theorem takes_sign {negative : Bool} {rest : List Char}
    (h : (chars text).drop i = (if negative then ['-'] else []) ++ rest)
    (hrest : ∀ c ∈ rest.head?, c ≠ '-') :
    ∃ xs, (parsing text).Takes sign i xs (i + (if negative then ['-'] else []).length) := by
  cases negative with
  | true => exact ⟨_, takes_optional (takes_oneOfChars h (List.mem_cons_self ..))⟩
  | false =>
    refine ⟨[], takes_nothing (refuses_oneOfChars fun c hc hmem => ?_)⟩
    rw [show (parsing text).text.drop i = rest from h] at hc
    exact hrest c hc (List.mem_singleton.mp hmem)

theorem takes_wholePart (l : Literal) {rest : List Char}
    (h : (chars text).drop i = l.whole.map digitChar ++ rest)
    (hrest : ∀ c ∈ rest.head?, isDigit c = false) :
    ∃ xs, (parsing text).Takes wholePart i xs (i + l.whole.length) := by
  rcases l.whole_wellFormed with hzero | ⟨d, ds, hwhole, hd⟩
  · rw [hzero] at h ⊢
    exact ⟨_, takes_or_first (takes_literal h)⟩
  · rw [hwhole] at h ⊢
    have hdrop : (chars text).drop (i + 1) = ds.map digitChar ++ rest :=
      drop_of_drop (x := [digitChar d]) h
    obtain ⟨xs, hxs⟩ := takes_digits hdrop hrest
    obtain ⟨hmin, hmax⟩ := digitChar_range_of_ne hd
    have hzero : (parsing text).Refuses (parseLiteral "0") i := by
      refine refuses_literal_head rfl fun c hc heq => ?_
      rw [show (parsing text).text.drop i = _ from h] at hc
      cases hc
      rw [heq] at hmin
      exact absurd hmin (by decide)
    rw [add_length_cons]
    exact ⟨_, takes_or_second hzero (takes_and (.cons (takes_charInRange h hmin hmax) hxs.all))⟩

theorem takes_fractionPart {fraction : Option { digits : List (Fin 10) // digits ≠ [] }}
    {rest : List Char}
    (h : (chars text).drop i =
      (fraction.elim [] fun digits => '.' :: digits.1.map digitChar) ++ rest)
    (hrest : ∀ c ∈ rest.head?, isDigit c = false ∧ c ≠ '.') :
    ∃ xs, (parsing text).Takes fractionPart i xs
      (i + (fraction.elim [] fun digits => '.' :: digits.1.map digitChar).length) := by
  cases fraction with
  | none =>
    refine ⟨[], takes_or_first (takes_not (refuses_literal_head rfl fun c hc => ?_))⟩
    rw [show (parsing text).text.drop i = rest from h] at hc
    exact (hrest c hc).2
  | some digits =>
    have hpoint : (parsing text).Takes (parseLiteral ".") i [.leaf i (i + 1)] (i + 1) :=
      takes_literal (show (chars text).drop i = ".".toList ++ (digits.1.map digitChar ++ rest) from h)
    have hdrop : (chars text).drop (i + 1) = digits.1.map digitChar ++ rest :=
      drop_of_drop (x := ['.']) h
    obtain ⟨xs, hxs⟩ := takes_atLeastOne digits.2 hdrop fun c hc => (hrest c hc).1
    rw [Option.elim_some, add_length_cons, List.length_map]
    exact ⟨_, takes_or_second (refuses_not hpoint) (takes_and (.cons hpoint hxs.all))⟩

theorem takes_exponentSign {negative : Option Bool} {rest : List Char}
    (h : (chars text).drop i =
      (negative.elim [] fun negative => [if negative then '-' else '+']) ++ rest)
    (hrest : ∀ c ∈ rest.head?, c ≠ '+' ∧ c ≠ '-') :
    ∃ xs, (parsing text).Takes exponentSign i xs
      (i + (negative.elim [] fun negative => [if negative then '-' else '+']).length) := by
  rcases negative with _ | negative
  · refine ⟨[], takes_nothing (refuses_oneOfChars fun c hc => ?_)⟩
    rw [show (parsing text).text.drop i = rest from h] at hc
    obtain ⟨hplus, hminus⟩ := hrest c hc
    exact fun hmem => (List.mem_pair.mp hmem).elim hplus hminus
  · refine ⟨_, takes_optional (takes_oneOfChars h ?_)⟩
    cases negative <;> decide

theorem takes_exponentPart {e : Option Exponent} {rest : List Char}
    (h : (chars text).drop i = e.elim [] Exponent.text ++ rest) (hrest : Ends rest) :
    ∃ xs, (parsing text).Takes exponentPart i xs (i + (e.elim [] Exponent.text).length) := by
  cases e with
  | none =>
    refine ⟨[], takes_or_first (takes_not (refuses_oneOfChars fun c hc => ?_))⟩
    rw [show (parsing text).text.drop i = rest from h] at hc
    exact (hrest c hc).2.2
  | some e =>
    let signText : List Char := e.sign.elim [] fun negative => [if negative then '-' else '+']
    let letter : Char := if e.upper then 'E' else 'e'
    have htext : (chars text).drop i = [letter] ++ (signText ++ (e.digits.map digitChar ++ rest)) := by
      rw [h, Option.elim_some, Exponent.text, List.cons_append, List.append_assoc]
      rfl
    have hletter : (parsing text).Takes (parseOneOfChars "eE") i [.leaf i (i + 1)] (i + 1) := by
      refine takes_oneOfChars htext ?_
      simp only [letter]
      split_ifs <;> decide
    have hsign : ∃ xs, (parsing text).Takes exponentSign (i + 1) xs (i + 1 + signText.length) := by
      refine takes_exponentSign (drop_of_drop htext) fun c hc => ?_
      obtain ⟨d, ds, hdigits⟩ := List.exists_cons_of_ne_nil e.digits_ne_nil
      rw [hdigits] at hc
      cases hc
      exact ⟨(Literal.digitChar_ne d).2.2, (Literal.digitChar_ne d).2.1⟩
    obtain ⟨xs, hxs⟩ := hsign
    obtain ⟨ys, hys⟩ := takes_atLeastOne e.digits_ne_nil (drop_of_drop (drop_of_drop htext))
      fun c hc => (hrest c hc).1
    have hlength : i + (Exponent.text e).length = i + 1 + signText.length + e.digits.length := by
      rw [Exponent.text, List.length_cons, List.length_append, List.length_map]
      simp only [signText]
      omega
    rw [Option.elim_some, hlength]
    exact ⟨_, takes_or_second (refuses_not hletter)
      (takes_and (.cons hletter (.cons hxs hys.all)))⟩

theorem takes_numberParts (l : Literal) {rest : List Char}
    (h : (chars text).drop i = l.text ++ rest) (hrest : Ends rest) :
    ∃ xs, (parsing text).TakesAll [sign, wholePart, fractionPart, exponentPart] i xs
      (i + l.text.length) := by
  let signText : List Char := if l.negative then ['-'] else []
  let fractionText : List Char := l.fraction.elim [] fun digits => '.' :: digits.1.map digitChar
  let exponentText : List Char := l.exponent.elim [] Exponent.text
  have htext : l.text = signText ++ (l.whole.map digitChar ++ (fractionText ++ exponentText)) := by
    rw [Literal.text, List.append_assoc]
    rfl
  have h₁ : (chars text).drop i =
      signText ++ (l.whole.map digitChar ++ (fractionText ++ (exponentText ++ rest))) := by
    rw [h, htext]
    simp only [List.append_assoc]
  have h₂ := drop_of_drop h₁
  have h₃ := drop_of_drop h₂
  have h₄ := drop_of_drop h₃
  -- What follows a part decides where it ends, so this goes from the last part to the first.
  have hexponent : ∀ c ∈ (exponentText ++ rest).head?, isDigit c = false ∧ c ≠ '.' := by
    intro c hc
    rcases hempty : l.exponent with _ | e
    · simp only [exponentText, hempty, Option.elim_none, List.nil_append] at hc
      exact ⟨(hrest c hc).1, (hrest c hc).2.1⟩
    · simp only [exponentText, hempty, Option.elim_some, Exponent.text, List.cons_append,
        List.head?_cons, Option.mem_some_iff] at hc
      rw [← hc]
      split_ifs <;> decide
  have hfraction : ∀ c ∈ (fractionText ++ (exponentText ++ rest)).head?, isDigit c = false := by
    intro c hc
    rcases hempty : l.fraction with _ | digits
    · simp only [fractionText, hempty, Option.elim_none, List.nil_append] at hc
      exact (hexponent c hc).1
    · simp only [fractionText, hempty, Option.elim_some, List.cons_append, List.head?_cons,
        Option.mem_some_iff] at hc
      rw [← hc]
      decide
  have hwhole : ∀ c ∈ (l.whole.map digitChar ++ (fractionText ++ (exponentText ++ rest))).head?,
      c ≠ '-' := by
    intro c hc
    obtain ⟨d, ds, hd⟩ := l.exists_whole
    rw [hd] at hc
    cases hc
    exact (Literal.digitChar_ne d).2.1
  obtain ⟨ws, hws⟩ := takes_sign h₁ hwhole
  obtain ⟨xs, hxs⟩ := takes_wholePart l h₂ hfraction
  obtain ⟨ys, hys⟩ := takes_fractionPart h₃ hexponent
  obtain ⟨zs, hzs⟩ := takes_exponentPart h₄ hrest
  have hlength : i + l.text.length = i + signText.length + (l.whole.map digitChar).length +
      fractionText.length + exponentText.length := by
    rw [htext]
    simp only [List.length_append]
    omega
  rw [hlength]
  rw [← List.length_map (f := digitChar)] at hxs
  exact ⟨_, .cons hws (.cons hxs (.cons hys hzs.all))⟩

/-! ## Strings -/

theorem parseStringLiteral_eq {value : Utf8String} {out rest : List UInt8}
    (hscan : scan (out ++ 0x22 :: rest) = .ok (value.value, rest))
    (h : text.drop i = 0x22 :: (out ++ 0x22 :: rest)) :
    parseStringLiteral text i =
      .ok ([.node (.AstString value) (.leaf i (i + out.length + 2)) []], i + out.length + 2) := by
  have hlength : text.length - rest.length = i + out.length + 2 := by
    have hdrop := congrArg List.length h
    simp only [List.length_drop, List.length_cons, List.length_append] at hdrop
    omega
  rw [parseStringLiteral, h]
  simp only [ne_eq, not_true_eq_false, if_false, hscan, hlength, value.make_value]

theorem takes_stringLiteral {value : Utf8String} {out rest : List UInt8}
    (hscan : scan (out ++ 0x22 :: rest) = .ok (value.value, rest))
    (h : text.drop i = 0x22 :: (out ++ 0x22 :: rest)) :
    (parsing text).Takes stringLiteralParser i
      [.node (.AstString value) (.leaf i (i + out.length + 2)) []] (i + out.length + 2) :=
  takes_own rfl (parseStringLiteral_eq hscan h) (.node (.single (by omega)) (.nil _))

theorem refuses_stringLiteral (h : ∀ b ∈ (text.drop i).head?, b ≠ 0x22) :
    (parsing text).Refuses stringLiteralParser i := by
  have herror : ∃ e, parseStringLiteral text i = .error e := by
    rw [parseStringLiteral]
    cases hdrop : text.drop i with
    | nil => exact ⟨_, rfl⟩
    | cons b rest =>
      rw [hdrop] at h
      exact ⟨_, if_pos (h b rfl)⟩
  obtain ⟨e, he⟩ := herror
  exact refuses_own rfl he

end Urnest.Json
