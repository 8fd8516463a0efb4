import Mathlib
import Urnest.Xml.Skipping

/-!
# Attribute values and how they are written

Each character of a value is written as itself or as a reference (`Item`). How the number of a
character reference is written is a parameter: as its digits (`Digits`), or as anything that
`stringToUInt` takes for the number (`Taken`), which may be with white space or a sign in front,
with a `0x`, or cut short by a NUL.

The code reads the values whose numbers are `Taken` (`valueUntilQuote_eq_some`). These are all
that are written by digits, each read as what it stands for, and some more, that are to be
rejected.
-/

namespace Urnest.Xml

/-! ## How values are written -/

/-- The digits of a number, in a base -/
def Digits (base : Nat) (s : List Char) (n : Nat) : Prop :=
  s ≠ [] ∧ (∀ c ∈ s, digitOf c < base) ∧ s.foldl (fun x c => base * x + digitOf c) 0 = n

/-- What `stringToUInt` takes for a number, up to the next `;` -/
def Taken (base : Nat) (s : List Char) (n : Nat) : Prop :=
  ';' ∉ s ∧ stringToUInt s base = some n

/-- A character, and a way of writing it -/
inductive Item (number : Nat → List Char → Nat → Prop) : Char → List Char → Prop where
  | literal {c : Char} : c ≠ '"' → c ≠ '&' → Item number c [c]
  | entity {name : List Char} {c : Char} :
    lookupEntity name = some c → Item number c ('&' :: (name ++ [';']))
  | decimal {s : List Char} {n : Nat} :
    number 10 s n → n ≤ 255 → Item number (.ofNat n) ('&' :: '#' :: (s ++ [';']))
  | hexadecimal {s : List Char} {n : Nat} :
    number 16 s n → n ≤ 255 → Item number (.ofNat n) ('&' :: '#' :: 'x' :: (s ++ [';']))

/-- A value, and a way of writing it -/
inductive Written (number : Nat → List Char → Nat → Prop) : AttributeValue → List Char → Prop where
  | nil : Written number [] []
  | cons {c : Char} {t : List Char} {v : AttributeValue} {text : List Char} :
    Item number c t → Written number v text → Written number (c :: v) (t ++ text)

/-- A character is written as itself, or as something that begins with `&`. -/
theorem Item.cases {number : Nat → List Char → Nat → Prop} {c : Char} {t : List Char}
    (h : Item number c t) : (t = [c] ∧ c ≠ '"' ∧ c ≠ '&') ∨ ∃ more, t = '&' :: more := by
  cases h with
  | literal hquote hamp => exact .inl ⟨rfl, hquote, hamp⟩
  | entity _ | decimal _ _ | hexadecimal _ _ => exact .inr ⟨_, rfl⟩

/-! ## References -/

theorem parseCharacterReferenceIn_eq_some {opening : List Char} {base : Nat} {text rest : Text}
    {c : Char} : parseCharacterReferenceIn opening base text = some (c, rest) ↔
      ∃ s n, Taken base s n ∧ n ≤ 255 ∧ c = .ofNat n ∧ text = opening ++ (s ++ (';' :: rest)) := by
  have hsplit {s i : Text} (hs : ';' ∉ s) (hi : i = s ++ ';' :: rest) :
      i.takeWhile (fun c => c ≠ ';') = s ∧ i.dropWhile (fun c => c ≠ ';') = ';' :: rest := by
    have hall : ∀ c ∈ s, decide (c ≠ ';') = true := fun c hc =>
      decide_eq_true fun heq => hs (heq ▸ hc)
    rw [hi, List.takeWhile_append_of_pos hall, List.dropWhile_append_of_pos hall,
      List.takeWhile_cons_of_neg (by decide), List.dropWhile_cons_of_neg (by decide)]
    exact ⟨List.append_nil s, rfl⟩
  constructor
  · intro h
    obtain ⟨i, hi, h⟩ := Option.bind_eq_some_iff.mp h
    obtain ⟨rest', hrest', h⟩ := Option.bind_eq_some_iff.mp h
    obtain ⟨n, hn, h⟩ := Option.bind_eq_some_iff.mp h
    split_ifs at h with hlarge
    obtain ⟨rfl, rfl⟩ := Prod.mk.inj (Option.some.inj h)
    rw [parseLiteral_eq_some] at hi hrest'
    refine ⟨_, n, ⟨fun hmem => ?_, hn⟩, Nat.not_lt.mp hlarge, rfl, ?_⟩
    · simpa using List.mem_takeWhile_imp hmem
    · have hparts := List.takeWhile_append_dropWhile (p := fun c => decide (c ≠ ';')) (l := i)
      rw [hi]
      refine congrArg _ (hparts.symm.trans ?_)
      rw [hrest']
      rfl
  · rintro ⟨s, n, ⟨hs, hn⟩, hle, rfl, rfl⟩
    obtain ⟨htake, hdrop⟩ := hsplit hs rfl
    rw [parseCharacterReferenceIn]
    refine Option.bind_eq_some_iff.mpr ⟨_, parseLiteral_eq_some.mpr rfl, ?_⟩
    rw [htake, hdrop, hn]
    refine Option.bind_eq_some_iff.mpr ⟨rest, rfl, ?_⟩
    exact if_neg (Nat.not_lt.mpr hle)

/-- No `x` is taken for a number. -/
theorem not_taken_x (s : List Char) (n : Nat) : ¬Taken 10 ('x' :: s) n := by
  rintro ⟨-, hn⟩
  have htaken : ('x' :: s).takeWhile (fun c => decide (c.toNat ≠ 0))
      = 'x' :: s.takeWhile fun c => decide (c.toNat ≠ 0) := rfl
  have hnumber : strtoul ('x' :: s.takeWhile fun c => decide (c.toNat ≠ 0)) 10
      = (0, 'x' :: s.takeWhile fun c => decide (c.toNat ≠ 0)) := rfl
  rw [stringToUInt, htaken, hnumber] at hn
  simp at hn

theorem lookupEntity_eq_some {name : List Char} {c : Char} (h : lookupEntity name = some c) :
    (name, c) ∈ [(['l', 't'], '<'), (['g', 't'], '>'), (['a', 'm', 'p'], '&'),
      (['a', 'p', 'o', 's'], Char.ofNat 39), (['q', 'u', 'o', 't'], '"')] := by
  obtain ⟨before, after, heq, -⟩ := List.lookup_eq_some_iff.mp h
  have hmem : (String.ofList name, c) ∈ predefinedEntities := by
    rw [heq]
    exact List.mem_append_right _ List.mem_cons_self
  have hlist := List.mem_map_of_mem (f := fun x : String × Char => (x.1.toList, x.2)) hmem
  rw [String.toList_ofList] at hlist
  exact hlist

/-- The five names are names. -/
theorem parseName_of_lookupEntity {name : List Char} {c : Char} (h : lookupEntity name = some c)
    (rest : Text) : parseName (name ++ ';' :: rest) = some (name, ';' :: rest) := by
  have hname := lookupEntity_eq_some h
  simp only [List.mem_cons, Prod.mk.injEq, List.not_mem_nil, or_false] at hname
  obtain ⟨rfl, -⟩ | ⟨rfl, -⟩ | ⟨rfl, -⟩ | ⟨rfl, -⟩ | ⟨rfl, -⟩ := hname <;> rfl

theorem parseName_append {text : Text} {n : List Char × Text} (h : parseName text = some n) :
    text = n.1 ++ n.2 := by
  cases text with
  | nil => cases h
  | cons c text =>
    rw [parseName] at h
    split_ifs at h
    rw [← Option.some.inj h]
    exact congrArg (c :: ·) List.takeWhile_append_dropWhile.symm

theorem parseEntityReference_eq_some {text rest : Text} {c : Char} :
    parseEntityReference text = some (c, rest) ↔
      ∃ name, lookupEntity name = some c ∧ text = '&' :: (name ++ ';' :: rest) := by
  constructor
  · intro h
    obtain ⟨i, hi, h⟩ := Option.bind_eq_some_iff.mp h
    obtain ⟨n, hn, h⟩ := Option.bind_eq_some_iff.mp h
    obtain ⟨rest', hrest', h⟩ := Option.bind_eq_some_iff.mp h
    obtain ⟨c', hc', h⟩ := Option.bind_eq_some_iff.mp h
    obtain ⟨rfl, rfl⟩ := Prod.mk.inj (Option.some.inj h)
    rw [parseLiteral_eq_some] at hi hrest'
    refine ⟨n.1, hc', ?_⟩
    rw [hi, parseName_append hn, hrest']
    rfl
  · rintro ⟨name, hc, rfl⟩
    rw [parseEntityReference]
    refine Option.bind_eq_some_iff.mpr ⟨_, parseLiteral_eq_some.mpr rfl, ?_⟩
    refine Option.bind_eq_some_iff.mpr ⟨_, parseName_of_lookupEntity hc rest, ?_⟩
    refine Option.bind_eq_some_iff.mpr ⟨rest, rfl, ?_⟩
    rw [hc]
    rfl

/-- The reference that a text begins with, and what is left -/
def parseReference (text : Text) : Option (Char × Text) :=
  (parseCharacterReference text).or (parseEntityReference text)

/-- What is read as a reference is one. -/
theorem item_of_parseReference {text i : Text} {x : Char} (h : parseReference text = some (x, i)) :
    ∃ t, Item Taken x ('&' :: t) ∧ text = '&' :: (t ++ i) := by
  have happend (s : List Char) : s ++ ';' :: i = s ++ [';'] ++ i := by
    rw [List.append_assoc, List.singleton_append]
  obtain h | ⟨-, h⟩ := Option.or_eq_some_iff.mp h
  · obtain h | ⟨-, h⟩ := Option.or_eq_some_iff.mp h
    · obtain ⟨s, n, hs, hn, rfl, rfl⟩ := parseCharacterReferenceIn_eq_some.mp h
      exact ⟨_, .hexadecimal hs hn, by rw [happend]; rfl⟩
    · obtain ⟨s, n, hs, hn, rfl, rfl⟩ := parseCharacterReferenceIn_eq_some.mp h
      exact ⟨_, .decimal hs hn, by rw [happend]; rfl⟩
  · obtain ⟨name, hname, rfl⟩ := parseEntityReference_eq_some.mp h
    exact ⟨_, .entity hname, by rw [happend]⟩

/-- What is a reference is read as one: only one of the three parsers takes it. -/
theorem parseReference_of_item {x : Char} {t : List Char} (h : Item Taken x ('&' :: t))
    (i : Text) : parseReference ('&' :: (t ++ i)) = some (x, i) := by
  have happend (s : List Char) : s ++ [';'] ++ i = s ++ ';' :: i := by
    rw [List.append_assoc, List.singleton_append]
  rw [parseReference]
  cases h with
  | literal _ hamp => exact absurd rfl hamp
  | @entity name c hname =>
    have hnone (opening : List Char) (base : Nat) :
        parseCharacterReferenceIn ('&' :: '#' :: opening) base ('&' :: (name ++ [';'] ++ i))
          = none := by
      refine Option.eq_none_iff_forall_ne_some.mpr fun y hy => ?_
      obtain ⟨s, n, -, -, -, heq⟩ := parseCharacterReferenceIn_eq_some.mp hy
      have hmem := lookupEntity_eq_some hname
      simp only [List.mem_cons, Prod.mk.injEq, List.not_mem_nil, or_false] at hmem
      obtain ⟨rfl, -⟩ | ⟨rfl, -⟩ | ⟨rfl, -⟩ | ⟨rfl, -⟩ | ⟨rfl, -⟩ := hmem <;> cases heq
    rw [parseCharacterReference, hnone, hnone, Option.none_or, Option.none_or, happend]
    exact parseEntityReference_eq_some.mpr ⟨name, hname, rfl⟩
  | @decimal s n hs hn =>
    have hnone : parseCharacterReferenceIn ['&', '#', 'x'] 16 ('&' :: ('#' :: (s ++ [';']) ++ i))
        = none := by
      refine Option.eq_none_iff_forall_ne_some.mpr fun y hy => ?_
      obtain ⟨s', n', -, -, -, heq⟩ := parseCharacterReferenceIn_eq_some.mp hy
      rw [List.cons_append, happend] at heq
      cases s with
      | nil => cases heq
      | cons c s =>
        obtain rfl : c = 'x' := (List.cons.inj (List.cons.inj (List.cons.inj heq).2).2).1
        exact not_taken_x s n hs
    have hsome : parseCharacterReferenceIn ['&', '#'] 10 ('&' :: ('#' :: (s ++ [';']) ++ i))
        = some (.ofNat n, i) := by
      refine parseCharacterReferenceIn_eq_some.mpr ⟨s, n, hs, hn, rfl, ?_⟩
      rw [List.cons_append, happend]
      rfl
    rw [parseCharacterReference, hnone, hsome]
    rfl
  | @hexadecimal s n hs hn =>
    have hsome : parseCharacterReferenceIn ['&', '#', 'x'] 16
        ('&' :: ('#' :: 'x' :: (s ++ [';']) ++ i)) = some (.ofNat n, i) := by
      refine parseCharacterReferenceIn_eq_some.mpr ⟨s, n, hs, hn, rfl, ?_⟩
      rw [List.cons_append, List.cons_append, happend]
      rfl
    rw [parseCharacterReference, hsome]
    rfl

/-! ## Reading values -/

theorem valueUntilQuote_of_reference {text i : Text} {x : Char}
    (h : parseReference ('&' :: text) = some (x, i)) :
    valueUntilQuote ('&' :: text) = (valueUntilQuote i).map fun v => (x :: v.1, v.2) := by
  rw [valueUntilQuote, if_neg (by decide)]
  split
  · rename_i hsome
    obtain ⟨rfl, rfl⟩ := Prod.mk.inj (Option.some.inj (hsome.symm.trans h))
    exact (Option.map_eq_bind ..).symm
  · rename_i hnone
    cases hnone.symm.trans h

theorem valueUntilQuote_of_literal {c : Char} (hquote : c ≠ '"') (hamp : c ≠ '&') (text : Text) :
    valueUntilQuote (c :: text) = (valueUntilQuote text).map fun v => (c :: v.1, v.2) := by
  rw [valueUntilQuote, if_neg hquote]
  split
  · rename_i hsome
    obtain ⟨t, -, heq⟩ := item_of_parseReference hsome
    exact absurd (List.cons.inj heq).1 hamp
  · rw [if_neg hamp]
    exact (Option.map_eq_bind ..).symm

/-- The code reads the values whose numbers `stringToUInt` takes, and no others. -/
theorem valueUntilQuote_eq_some {text rest : Text} {v : AttributeValue} :
    valueUntilQuote text = some (v, rest) ↔
      ∃ t, Written Taken v t ∧ text = t ++ '"' :: rest := by
  constructor
  · intro h
    fun_induction valueUntilQuote text generalizing v rest with
    | case1 => cases h
    | case2 text =>
      obtain ⟨rfl, rfl⟩ := Prod.mk.inj (Option.some.inj h)
      exact ⟨[], .nil, rfl⟩
    | case3 c text hquote x i href ih =>
      obtain ⟨w, hw, h⟩ := Option.bind_eq_some_iff.mp h
      obtain ⟨rfl, rfl⟩ := Prod.mk.inj (Option.some.inj h)
      obtain ⟨t, ht, rfl⟩ := ih hw
      obtain ⟨r, hr, heq⟩ := item_of_parseReference href
      exact ⟨_, .cons hr ht, by rw [heq, List.append_assoc]; rfl⟩
    | case4 => cases h
    | case5 c text hquote href hamp ih =>
      obtain ⟨w, hw, h⟩ := Option.bind_eq_some_iff.mp h
      obtain ⟨rfl, rfl⟩ := Prod.mk.inj (Option.some.inj h)
      obtain ⟨t, ht, rfl⟩ := ih hw
      exact ⟨_, .cons (.literal hquote hamp) ht, rfl⟩
  · rintro ⟨t, ht, rfl⟩
    induction ht with
    | nil =>
      rw [List.nil_append, valueUntilQuote]
      rfl
    | @cons c r v t hitem _ ih =>
      rw [List.append_assoc]
      obtain ⟨rfl, hquote, hamp⟩ | ⟨more, rfl⟩ := hitem.cases
      · rw [List.singleton_append, valueUntilQuote_of_literal hquote hamp, ih]
        rfl
      · rw [List.cons_append, valueUntilQuote_of_reference (parseReference_of_item hitem _), ih]
        rfl

/-! ## Digits are taken for what they are -/

theorem not_digit {c : Char} {base : Nat} (hbase : base ≤ 16) (h : digitOf c < base) :
    isspace c = false ∧ c.toNat ≠ 0 ∧ c ∉ ['-', '+', 'x', 'X', ';'] := by
  have hlt : digitOf c < 16 := h.trans_le hbase
  have hofNat {n : Nat} (hn : c.toNat = n) : digitOf (.ofNat n) < 16 := by
    rw [← hn, Char.ofNat_toNat]
    exact hlt
  refine ⟨Bool.eq_false_iff.mpr fun hspace => ?_, fun hzero => ?_, fun hmem => ?_⟩
  · simp only [isspace, Bool.or_eq_true, decide_eq_true_eq, Bool.and_eq_true] at hspace
    obtain rfl | ⟨hmin, hmax⟩ := hspace
    · exact absurd hlt (by decide)
    · obtain hn | hn | hn | hn | hn : c.toNat = 9 ∨ c.toNat = 10 ∨ c.toNat = 11 ∨
        c.toNat = 12 ∨ c.toNat = 13 := by omega
      all_goals exact absurd (hofNat hn) (by decide)
  · exact absurd (hofNat hzero) (by decide)
  · simp only [List.mem_cons, List.not_mem_nil, or_false] at hmem
    obtain rfl | rfl | rfl | rfl | rfl := hmem <;> exact absurd hlt (by decide)

/-- What `strtoul` reads after a sign -/
def behindSign (s : List Char) : List Char :=
  match s with
  | '-' :: rest | '+' :: rest | rest => rest

/-- What `strtoul` reads after a `0x` -/
def behindBase (base : Nat) (s : List Char) : List Char :=
  match s with
  | '0' :: x :: d :: rest =>
    if base = 16 ∧ (x = 'x' ∨ x = 'X') ∧ digitOf d < 16 then d :: rest else s
  | _ => s

theorem strtoul_eq (s : List Char) (base : Nat) : strtoul s base =
    let digits := behindBase base (behindSign (s.dropWhile isspace))
    let x := (digits.takeWhile fun c => decide (digitOf c < base)).foldl
      (fun x c => base * x + digitOf c) 0
    if (digits.takeWhile fun c => decide (digitOf c < base)) = [] then (0, s)
    else (if 2 ^ 64 ≤ x then 2 ^ 64 - 1
      else if (s.dropWhile isspace).head? = some '-' then (2 ^ 64 - x) % 2 ^ 64 else x,
      digits.dropWhile fun c => decide (digitOf c < base)) := rfl

theorem behindSign_of_digits {s : List Char} (h : ∀ rest, s ≠ '-' :: rest ∧ s ≠ '+' :: rest) :
    behindSign s = s := by
  rw [behindSign.eq_def]
  split
  · exact absurd rfl (h _).1
  · exact absurd rfl (h _).2
  · rfl

theorem behindBase_of_digits {base : Nat} {s : List Char} (h : 'x' ∉ s ∧ 'X' ∉ s) :
    behindBase base s = s := by
  rw [behindBase.eq_def]
  split
  · rename_i x d rest
    refine if_neg fun hx => ?_
    obtain rfl | rfl := hx.2.1
    · exact h.1 (by simp)
    · exact h.2 (by simp)
  · rfl

theorem strtoul_of_digits {base : Nat} {s : List Char} (hbase : base ≤ 16) (hs : s ≠ [])
    (hdigits : ∀ c ∈ s, digitOf c < base)
    (hsmall : s.foldl (fun x c => base * x + digitOf c) 0 < 2 ^ 64) :
    strtoul s base = (s.foldl (fun x c => base * x + digitOf c) 0, []) := by
  have hnot (c : Char) (hc : c ∈ s) := not_digit hbase (hdigits c hc)
  have hspace : s.dropWhile isspace = s := by
    cases s with
    | nil => rfl
    | cons c s =>
      exact List.dropWhile_cons_of_neg (by rw [(hnot c List.mem_cons_self).1]; decide)
  have hsign : ∀ rest, s ≠ '-' :: rest ∧ s ≠ '+' :: rest := by
    refine fun rest => ⟨?_, ?_⟩ <;> rintro rfl <;>
      exact absurd (hnot _ List.mem_cons_self).2.2 (by decide)
  have hletters : 'x' ∉ s ∧ 'X' ∉ s :=
    ⟨fun hc => absurd (hnot _ hc).2.2 (by decide), fun hc => absurd (hnot _ hc).2.2 (by decide)⟩
  have htake : s.takeWhile (fun c => decide (digitOf c < base)) = s :=
    List.takeWhile_eq_self_iff.mpr fun c hc => decide_eq_true (hdigits c hc)
  have hdrop : s.dropWhile (fun c => decide (digitOf c < base)) = [] :=
    List.dropWhile_eq_nil_iff.mpr fun c hc => decide_eq_true (hdigits c hc)
  have hhead : s.head? ≠ some '-' := by
    intro h
    obtain ⟨rest, rfl⟩ := List.head?_eq_some_iff.mp h
    exact (hsign rest).1 rfl
  rw [strtoul_eq, hspace, behindSign_of_digits hsign, behindBase_of_digits hletters]
  simp only [htake, hdrop, if_neg hs, if_neg (Nat.not_le.mpr hsmall), if_neg hhead]

/-- Digits are taken for the number that they are. -/
theorem taken_of_digits {base n : Nat} {s : List Char} (hbase : base ≤ 16) (hn : n ≤ 255)
    (h : Digits base s n) : Taken base s n := by
  obtain ⟨hs, hdigits, rfl⟩ := h
  have hnot (c : Char) (hc : c ∈ s) := not_digit hbase (hdigits c hc)
  have hnul : s.takeWhile (fun c => decide (c.toNat ≠ 0)) = s :=
    List.takeWhile_eq_self_iff.mpr fun c hc => decide_eq_true (hnot c hc).2.1
  have hsmall := hn.trans_lt (show 255 < 2 ^ 64 by decide)
  refine ⟨fun hmem => absurd (hnot _ hmem).2.2 (by decide), ?_⟩
  rw [stringToUInt, if_neg hs, hnul, strtoul_of_digits hbase hs hdigits hsmall]
  exact if_pos ⟨rfl, hn.trans_lt (by decide)⟩

theorem Written.taken {v : AttributeValue} {text : List Char} (h : Written Digits v text) :
    Written Taken v text := by
  induction h with
  | nil => exact .nil
  | cons hitem _ ih =>
    refine .cons ?_ ih
    cases hitem with
    | literal hquote hamp => exact .literal hquote hamp
    | entity hname => exact .entity hname
    | decimal hs hn => exact .decimal (taken_of_digits (by decide) hn hs) hn
    | hexadecimal hs hn => exact .hexadecimal (taken_of_digits (by decide) hn hs) hn

/-! ## Where values are decoded faithfully -/

/-- A text that stands between quotes is read as the value that it is a way of writing, up to
behind the closing quote; if it is no way of writing a value, it is rejected. -/
def Faithful (body rest : Text) : Prop :=
  (∀ v, Written Digits v body →
    parseAttributeValue ('"' :: (body ++ '"' :: rest)) = some (v, rest)) ∧
  ('"' ∉ body → (¬∃ v, Written Digits v body) →
    parseAttributeValue ('"' :: (body ++ '"' :: rest)) = none)

/-- The text is read up to a quote, with its numbers written in a way that only `stringToUInt`
takes for numbers. -/
def LooselyWritten (body rest : Text) : Prop :=
  '"' ∉ body ∧ (¬∃ v, Written Digits v body) ∧
    ∃ v t rest', Written Taken v t ∧ body ++ '"' :: rest = t ++ '"' :: rest'

theorem faithful_iff (body rest : Text) : Faithful body rest ↔ ¬LooselyWritten body rest := by
  have hread : parseAttributeValue ('"' :: (body ++ '"' :: rest))
      = valueUntilQuote (body ++ '"' :: rest) := rfl
  rw [Faithful, hread]
  constructor
  · rintro ⟨-, hrejects⟩ ⟨hquote, hnot, v, t, rest', ht, heq⟩
    have hsome := valueUntilQuote_eq_some.mpr ⟨t, ht, heq⟩
    cases (hrejects hquote hnot).symm.trans hsome
  · refine fun h => ⟨fun v hv => valueUntilQuote_eq_some.mpr ⟨body, hv.taken, rfl⟩, ?_⟩
    refine fun hquote hnot => Option.eq_none_iff_forall_ne_some.mpr fun x hx => h ?_
    obtain ⟨t, ht, heq⟩ := valueUntilQuote_eq_some.mp hx
    exact ⟨hquote, hnot, x.1, t, x.2, ht, heq⟩

/-- What is written by digits has a digit behind each `&#`, or an `x`. -/
theorem digit_of_written {v : AttributeValue} {c : Char} {text : List Char}
    (h : Written Digits v ('&' :: '#' :: c :: text)) : digitOf c < 10 ∨ c = 'x' := by
  generalize htext : '&' :: '#' :: c :: text = t at h
  cases h with
  | nil => cases htext
  | @cons x r w more hitem _ =>
    cases hitem with
    | literal _ hamp => exact absurd (List.cons.inj htext).1.symm hamp
    | entity hname =>
      have hmem := lookupEntity_eq_some hname
      simp only [List.mem_cons, Prod.mk.injEq, List.not_mem_nil, or_false] at hmem
      obtain ⟨rfl, -⟩ | ⟨rfl, -⟩ | ⟨rfl, -⟩ | ⟨rfl, -⟩ | ⟨rfl, -⟩ := hmem <;> cases htext
    | @decimal s n hs _ =>
      obtain ⟨hne, hdigits, -⟩ := hs
      cases s with
      | nil => exact absurd rfl hne
      | cons d s =>
        have hc : c = d := (List.cons.inj (List.cons.inj (List.cons.inj htext).2).2).1
        exact .inl (hc ▸ hdigits d List.mem_cons_self)
    | hexadecimal _ _ => exact .inr (List.cons.inj (List.cons.inj (List.cons.inj htext).2).2).1

/-- `"&# 65;"` is read as `A`. -/
theorem not_faithful : ¬∀ body rest, Faithful body rest := by
  intro h
  have htaken : Taken 10 [' ', '6', '5'] 65 := ⟨by decide, by decide⟩
  have hwritten : Written Taken ['A'] "&# 65;".toList := .cons (.decimal htaken (by decide)) .nil
  have hread : parseAttributeValue "\"&# 65;\"".toList = some (['A'], []) :=
    valueUntilQuote_eq_some.mpr ⟨_, hwritten, rfl⟩
  have hrejects := (h "&# 65;".toList []).2 (by decide) fun ⟨_, hv⟩ =>
    absurd (digit_of_written hv) (by decide)
  cases hrejects.symm.trans hread

end Urnest.Xml
