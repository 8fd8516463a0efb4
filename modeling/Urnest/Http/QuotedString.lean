import Urnest.Http.Grammar

/-!
# Quoted strings

encodeQuotedStringValue.hcp puts a backslash before each quote, and decodeQuotedStringContent.hcp
takes away the backslash of each quoted pair. So a value comes back where it has no backslash of
its own (`decodesAll_iff`); the decoder is never at the end of what was parsed behind a backslash.
-/

namespace Urnest.Http

open Hcp Hcp.Parsing Hcp.Cpp

/-! ## The code -/

def encodeQuotedStringValue : List Char → List Char
  | [] => []
  | c :: v =>
    if c = doubleQuoteChar then backslash :: c :: encodeQuotedStringValue v
    else c :: encodeQuotedStringValue v

/-- The loop of `decodeQuotedStringContent`; `none` is its assertion. -/
def decodeQuotedStringContent : List Char → Option (List Char)
  | [] => some []
  | c :: x =>
    if c = backslash then
      match x with
      | [] => none
      | d :: y => (decodeQuotedStringContent y).map (d :: ·)
    else (decodeQuotedStringContent x).map (c :: ·)

/-- `operator<<` of a quoted `ExtValue` -/
def writeQuoted (v : List Char) : List Char :=
  doubleQuoteChar :: (encodeQuotedStringValue v ++ [doubleQuoteChar])

/-- `QuotedStringItem::get` -/
def getQuoted (text : List Char) (item : Item ItemType) : Option (List Char) :=
  decodeQuotedStringContent (slice text (item.begin + 1) (item.end_ - 1))

/-- A value that a quoted string may have -/
abbrev QuotedValue := { v : List Char // ∀ c ∈ v, isQuotedStringChar c = true }

/-- The value is written as a quoted string that is read to its end and has the value. -/
def RoundTrips (v : QuotedValue) : Prop :=
  ∃ item, (parsing (writeQuoted v.1)).Takes quotedStringParser 0 [item] (writeQuoted v.1).length ∧
    getQuoted (writeQuoted v.1) item = some v.1

/-- Whatever quoted string is read has a value. -/
def DecodesAccepted : Prop :=
  ∀ (text : List Char) (i j : Nat) (item : Item ItemType),
    (parsing text).Takes quotedStringParser i [item] j → ∃ v, getQuoted text item = some v

/-! ## What is between the quotes -/

/-- The content of a quoted string, and its value -/
inductive Content : List Char → List Char → Prop where
  | nil : Content [] []
  | char {c : Char} {x v : List Char} : isUnquoted c = true → Content x v →
    Content (c :: x) (c :: v)
  | pair {d : Char} {x v : List Char} : isQuotedStringChar d = true → Content x v →
    Content (backslash :: d :: x) (d :: v)

variable {x y v : List Char}

theorem ne_of_isUnquoted {c : Char} (hc : isUnquoted c = true) :
    c ≠ doubleQuoteChar ∧ c ≠ backslash := (of_decide_eq_true hc).2

theorem decodeQuotedStringContent_cons (c : Char) (x : List Char) :
    decodeQuotedStringContent (c :: x) =
      if c = backslash then
        match x with
        | [] => none
        | d :: y => (decodeQuotedStringContent y).map (d :: ·)
      else (decodeQuotedStringContent x).map (c :: ·) := by
  cases x <;> rfl

theorem Content.decodes (h : Content x v) : decodeQuotedStringContent x = some v := by
  induction h with
  | nil => rfl
  | char hc _ ih =>
    rw [decodeQuotedStringContent_cons, if_neg (ne_of_isUnquoted hc).2, ih, Option.map_some]
  | pair _ _ ih =>
    rw [decodeQuotedStringContent_cons, if_pos rfl]
    simp only [ih, Option.map_some]

/-- The quote that closes a quoted string comes behind its content. -/
theorem afterQuoted_eq_some : afterQuoted x = some y ↔
    ∃ content v, Content content v ∧ x = content ++ doubleQuoteChar :: y := by
  constructor
  · intro h
    induction x using afterQuoted.induct with
    | case1 => cases h
    | case2 x =>
      rw [afterQuoted_cons, if_pos rfl] at h
      cases h
      exact ⟨[], [], .nil, rfl⟩
    | case3 hne =>
      rw [afterQuoted_cons, if_neg hne, if_pos rfl] at h
      cases h
    | case4 d z hd hne ih =>
      rw [afterQuoted_cons, if_neg hne, if_pos rfl] at h
      simp only [hd, if_true] at h
      obtain ⟨content, v, hcontent, rfl⟩ := ih h
      exact ⟨_, _, .pair hd hcontent, rfl⟩
    | case5 d z hd hne =>
      rw [afterQuoted_cons, if_neg hne, if_pos rfl] at h
      simp only [hd] at h
      cases h
    | case6 c x hne hslash hc ih =>
      rw [afterQuoted_cons, if_neg hne, if_neg hslash, if_pos hc] at h
      obtain ⟨content, v, hcontent, rfl⟩ := ih h
      exact ⟨_, _, .char hc hcontent, rfl⟩
    | case7 c x hne hslash hc =>
      rw [afterQuoted_cons, if_neg hne, if_neg hslash, if_neg hc] at h
      cases h
  · rintro ⟨content, v, hcontent, rfl⟩
    induction hcontent with
    | nil => rw [List.nil_append, afterQuoted_cons, if_pos rfl]
    | char hc _ ih =>
      obtain ⟨hne, hslash⟩ := ne_of_isUnquoted hc
      rw [List.cons_append, afterQuoted_cons, if_neg hne, if_neg hslash, if_pos hc, ih]
    | pair hd _ ih =>
      rw [List.cons_append, List.cons_append, afterQuoted_cons, if_neg (by decide), if_pos rfl]
      simp only [hd, if_true, ih]

/-- A quoted pair takes a character more than its value, and only pairs have quotes and
backslashes. -/
theorem Content.length_le (h : Content x v) :
    v.length + v.count doubleQuoteChar + v.count backslash ≤ x.length := by
  induction h with
  | nil => exact Nat.le_refl 0
  | @char c x v hc _ ih =>
    obtain ⟨hne, hslash⟩ := ne_of_isUnquoted hc
    rw [List.count_cons_of_ne hne, List.count_cons_of_ne hslash, List.length_cons, List.length_cons]
    omega
  | @pair d x v _ _ ih =>
    have hone : (if d = doubleQuoteChar then 1 else 0) + (if d = backslash then 1 else 0) ≤ 1 := by
      split_ifs with hquote hslash
      · exact absurd (hquote.symm.trans hslash) (by decide)
      · exact Nat.le_refl 1
      · exact Nat.le_refl 1
      · exact Nat.zero_le 1
    simp only [List.count_cons, beq_iff_eq, List.length_cons]
    omega

theorem length_encodeQuotedStringValue (v : List Char) :
    (encodeQuotedStringValue v).length = v.length + v.count doubleQuoteChar := by
  induction v with
  | nil => rfl
  | cons c v ih =>
    rw [encodeQuotedStringValue, List.count_cons]
    by_cases hc : c = doubleQuoteChar
    · rw [if_pos hc, List.length_cons, List.length_cons, ih, if_pos (beq_iff_eq.mpr hc),
        List.length_cons]
      omega
    · rw [if_neg hc, List.length_cons, ih, if_neg (fun h => hc (beq_iff_eq.mp h)), List.length_cons]
      omega

theorem content_encodeQuotedStringValue (hv : ∀ c ∈ v, isQuotedStringChar c = true)
    (hslash : backslash ∉ v) : Content (encodeQuotedStringValue v) v := by
  induction v with
  | nil => exact .nil
  | cons c v ih =>
    obtain ⟨hc, hv⟩ := List.forall_mem_cons.mp hv
    obtain ⟨hne, hslash⟩ := not_or.mp (fun h => hslash (List.mem_cons.mpr h))
    rw [encodeQuotedStringValue]
    split_ifs with hquote
    · exact .pair hc (ih hv hslash)
    · exact .char (decide_eq_true ⟨hc, hquote, Ne.symm hne⟩) (ih hv hslash)

/-! ## What is parsed -/

theorem Takes.unique {text : List Char} {p : PR} {i j k : Nat} {xs ys : IRs ItemType}
    (h : (parsing text).Takes p i xs j) (h' : (parsing text).Takes p i ys k) : xs = ys ∧ j = k := by
  have heq := Lib.Answers.unique h.answers h'.answers
  cases heq
  exact ⟨rfl, rfl⟩

theorem not_refuses_of_takes {text : List Char} {p : PR} {i j : Nat} {xs : IRs ItemType}
    (h : (parsing text).Takes p i xs j) : ¬ (parsing text).Refuses p i := by
  rintro ⟨e, he⟩
  exact nomatch Lib.Answers.unique h.answers he

/-- A quoted string that is read: its quotes, and what is between them -/
theorem of_takes_quotedString {text : List Char} {i j : Nat} {xs : IRs ItemType}
    (h : (parsing text).Takes quotedStringParser i xs j) :
    ∃ content v rest, Content content v ∧
      At text i (doubleQuoteChar :: (content ++ doubleQuoteChar :: rest)) ∧ At text j rest := by
  have hopens : text.drop i ≠ [] ∧ (text.drop i).head? = some doubleQuoteChar := by
    by_contra hnot
    refine not_refuses_of_takes h (refuses_named (refuses_and (refuses_literal fun hz => hnot ?_)))
    rw [String.toList_ofList] at hz
    obtain ⟨rest, hrest⟩ := hz
    change [doubleQuoteChar] ++ rest = text.drop i at hrest
    rw [← hrest]
    exact ⟨List.cons_ne_nil _ _, rfl⟩
  obtain ⟨x, hx⟩ : ∃ x, text.drop i = doubleQuoteChar :: x := List.head?_eq_some_iff.mp hopens.2
  have hat : At text i (doubleQuoteChar :: x) := At.of_drop_cons hx
  cases hafter : afterQuoted x with
  | none => exact absurd (refuses_quotedString hat hafter) (not_refuses_of_takes h)
  | some rest =>
    obtain ⟨item, k, hitem, hk⟩ := takes_quotedString hat hafter
    obtain ⟨rfl, rfl⟩ := Takes.unique h hitem
    obtain ⟨content, v, hcontent, rfl⟩ := afterQuoted_eq_some.mp hafter
    exact ⟨content, v, rest, hcontent, hat, hk⟩

/-- The item has the value of what is between the quotes. -/
theorem getQuoted_eq {text content rest : List Char} {i j : Nat} {item : Item ItemType}
    (h : (parsing text).Takes quotedStringParser i [item] j)
    (hi : At text i (doubleQuoteChar :: (content ++ doubleQuoteChar :: rest)))
    (hj : At text j rest) :
    getQuoted text item = decodeQuotedStringContent content := by
  have hend : j = i + 1 + content.length + 1 := hj.eq hi.tail.append.tail
  rw [getQuoted, h.tiles.begin_eq, h.tiles.end_eq, slice, hi.tail.drop, hend,
    show i + 1 + content.length + 1 - 1 - (i + 1) = content.length by omega, List.take_left]

theorem decodesAccepted : DecodesAccepted := by
  intro text i j item h
  obtain ⟨content, v, rest, hcontent, hi, hj⟩ := of_takes_quotedString h
  exact ⟨v, (getQuoted_eq h hi hj).trans hcontent.decodes⟩

theorem not_mem_of_roundTrips {v : QuotedValue} (h : RoundTrips v) : backslash ∉ v.1 := by
  obtain ⟨item, htakes, hget⟩ := h
  obtain ⟨content, w, rest, hcontent, hi, hj⟩ := of_takes_quotedString htakes
  rw [getQuoted_eq htakes hi hj, hcontent.decodes] at hget
  obtain rfl := Option.some.inj hget
  -- nothing is left, and so all that was written is the content
  obtain rfl : rest = [] := by
    rw [← hj.drop]
    exact List.drop_length
  have hwritten : encodeQuotedStringValue v.1 = content :=
    List.append_cancel_right (List.cons.inj hi.drop).2
  have hlength := hcontent.length_le
  rw [← hwritten, length_encodeQuotedStringValue] at hlength
  exact List.count_eq_zero.mp (by omega)

theorem roundTrips_of_not_mem {v : QuotedValue} (hslash : backslash ∉ v.1) : RoundTrips v := by
  have hcontent := content_encodeQuotedStringValue v.2 hslash
  have hi : At (writeQuoted v.1) 0 (doubleQuoteChar :: (encodeQuotedStringValue v.1 ++
      doubleQuoteChar :: [])) := ⟨Nat.zero_le _, rfl⟩
  obtain ⟨item, j, htakes, hj⟩ :=
    takes_quotedString hi (afterQuoted_eq_some.mpr ⟨_, _, hcontent, rfl⟩)
  have hend : j = (writeQuoted v.1).length := by
    have hle := hj.le
    have hdrop := List.drop_eq_nil_iff.mp hj.drop
    omega
  subst hend
  exact ⟨item, htakes, (getQuoted_eq htakes hi hj).trans hcontent.decodes⟩

/-- The values that come back are those without a backslash. -/
theorem decodesAll_iff (v : QuotedValue) : RoundTrips v ∧ DecodesAccepted ↔ backslash ∉ v.1 :=
  ⟨fun h => not_mem_of_roundTrips h.1, fun h => ⟨roundTrips_of_not_mem h, decodesAccepted⟩⟩

/-- A backslash alone takes the closing quote with it; and of two there comes back one. -/
theorem not_roundTrips_backslash :
    ¬ RoundTrips ⟨[backslash], forall_mem_of_all (by decide)⟩ ∧
      ¬ RoundTrips ⟨[backslash, backslash], forall_mem_of_all (by decide)⟩ :=
  ⟨fun h => not_mem_of_roundTrips h (.head _), fun h => not_mem_of_roundTrips h (.head _)⟩

end Urnest.Http
