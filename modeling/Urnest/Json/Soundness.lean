import Urnest.Hcp.Inversion
import Urnest.Json.Strict

/-!
# What is parsed is JSON

The productions are read backwards, from where a parser began and where it stopped. `Leaves`
is what each has taken of a strict text, and that what is left is one: of the white space, of
the parts of a number, of a string, of a series between brackets if it is so of its pieces, and
by induction on what is left, of an element (`leaves_element`).
-/

namespace Urnest.Json

open Lib Hcp Hcp.Parsing Utf8 Json.Tree

/-! ## Bytes -/

theorem toNat_char (b : UInt8) : (char b).toNat = b.toNat := by
  have hall : ∀ n < 256, (Char.ofNat n).toNat = n := by decide +kernel
  exact hall b.toNat b.toNat_lt

theorem char_injective : Function.Injective char := by
  intro b b' h
  rw [← UInt8.toNat_inj, ← toNat_char, h, toNat_char]

theorem chars_injective : Function.Injective chars := List.map_injective_iff.mpr char_injective

variable {text : List UInt8} {i j k : Nat}

theorem chars_of_drop : (chars text).drop i = chars (text.drop i) := by
  rw [chars, chars, List.map_drop]

theorem drop_of_chars {x : List UInt8} (h : (chars text).drop i = chars x ++ (chars text).drop j) :
    text.drop i = x ++ text.drop j := by
  rw [chars_of_drop, chars_of_drop, ← chars_append] at h
  exact chars_injective h

theorem exists_drop_of_chars {c : Char} {rest : List Char} (h : (chars text).drop i = c :: rest) :
    ∃ b, char b = c ∧ text.drop i = b :: text.drop (i + 1) := by
  rw [chars_of_drop] at h
  cases hdrop : text.drop i with
  | nil =>
    rw [hdrop] at h
    cases h
  | cons b t =>
    rw [hdrop] at h
    have ht : text.drop (i + 1) = t := drop_of_drop (x := [b]) hdrop
    exact ⟨b, (List.cons.inj h).1, by rw [ht]⟩

/-! ## Strict texts -/

/-- What is left of a strict text, outside of strings. -/
structure Outside (x : List UInt8) : Prop where
  strict : strict x = true
  isText : IsText x

/-- A byte that is ASCII and no quote. -/
def Token (b : UInt8) : Prop := b < 0x80 ∧ b ≠ 0x22

theorem Outside.cons {b : UInt8} {t : List UInt8} (h : Outside (b :: t)) (hb : Token b) :
    b ≠ 0x2f ∧ Outside t := by
  have hstrict := h.strict
  rw [Json.strict, strict_outside _ hb.2, Bool.and_eq_true, decide_eq_true_iff] at hstrict
  exact ⟨hstrict.1, hstrict.2, h.isText.of_ascii hb.1⟩

theorem Outside.append {x t : List UInt8} (h : Outside (x ++ t)) (hx : ∀ b ∈ x, Token b) : Outside t := by
  induction x with
  | nil => exact h
  | cons b x ih =>
    obtain ⟨hb, hx⟩ := List.forall_mem_cons.mp hx
    exact ih (h.cons hb).2 hx

/-- The parser that went from `i` to `j` has taken a text as `R` says. -/
def Leaves (R : List UInt8 → Prop) (text : List UInt8) (i j : Nat) : Prop :=
  Outside (text.drop i) → ∃ x, text.drop i = x ++ text.drop j ∧ R x ∧ Outside (text.drop j)

theorem Leaves.imp {R S : List UInt8 → Prop} (h : Leaves R text i j) (himp : ∀ x, R x → S x) :
    Leaves S text i j := by
  intro houtside
  obtain ⟨x, hx, hR, hj⟩ := h houtside
  exact ⟨x, hx, himp x hR, hj⟩

theorem Leaves.append {R S T : List UInt8 → Prop} (h : Leaves R text i k) (h' : Leaves S text k j)
    (himp : ∀ x y, R x → S y → T (x ++ y)) : Leaves T text i j := by
  intro houtside
  obtain ⟨x, hx, hR, hk⟩ := h houtside
  obtain ⟨y, hy, hS, hj⟩ := h' hk
  exact ⟨x ++ y, by rw [hx, hy, List.append_assoc], himp x y hR hS, hj⟩

theorem leaves_tokens {x : List UInt8} (h : text.drop i = x ++ text.drop j) (hx : ∀ b ∈ x, Token b) :
    Leaves (· = x) text i j := by
  intro houtside
  rw [h] at houtside
  exact ⟨x, h, rfl, houtside.append hx⟩

/-! ## White space -/

theorem leaves_punctuation {x : String} {b : UInt8} (hx : x.toList = [char b]) (hb : Token b)
    (h : (parsing text).Goes (parseLiteral x) i j) : Leaves (· = [b]) text i j := by
  obtain ⟨hdrop, -⟩ := goes_literal h
  rw [hx] at hdrop
  refine leaves_tokens (drop_of_chars (x := [b]) hdrop) ?_
  exact List.forall_mem_cons.mpr ⟨hb, fun _ h => nomatch h⟩

theorem white_token : ∀ b : UInt8, char b ∈ " \t\n\r".toList → Token b := by
  have hall : ∀ n < 256, char (UInt8.ofNat n) ∈ " \t\n\r".toList →
      UInt8.ofNat n < 0x80 ∧ UInt8.ofNat n ≠ 0x22 := by
    decide +kernel
  intro b hb
  have hb' := hall b.toNat b.toNat_lt
  rw [UInt8.ofNat_toNat] at hb'
  exact hb' hb

theorem leaves_whitespaceChar (h : (parsing text).Goes whitespaceChar i j) : Leaves Blank text i j := by
  obtain ⟨c, rest, hdrop, hc, rfl⟩ := goes_oneOfChars h
  obtain ⟨b, rfl, hb⟩ := exists_drop_of_chars hdrop
  refine (leaves_tokens (x := [b]) hb ?_).imp ?_
  · exact List.forall_mem_cons.mpr ⟨white_token b hc, fun _ h => nomatch h⟩
  · rintro x rfl
    exact List.forall_mem_cons.mpr ⟨hc, fun _ h => nomatch h⟩

theorem not_outside_slash {x : String} {c : Char} (hx : x.toList = ['/', c])
    (h : (parsing text).Goes (parseLiteral x) i j) : ¬ Outside (text.drop i) := by
  intro houtside
  obtain ⟨hdrop, -⟩ := goes_literal h
  rw [hx] at hdrop
  obtain ⟨b, hb, hcons⟩ := exists_drop_of_chars hdrop
  obtain rfl : b = 0x2f := char_injective hb
  rw [hcons] at houtside
  exact (houtside.cons ⟨by decide, by decide⟩).1 rfl

/-- There are no comments in a strict text. -/
theorem not_outside_comments (h : (parsing text).Goes comments i j) : ¬ Outside (text.drop i) := by
  obtain ⟨k, hfirst, -⟩ := goesAll_cons (goes_and (goes_anon (goes_named h)))
  obtain ⟨q, hq, hgoes⟩ := goes_or hfirst
  rcases List.mem_pair.mp hq with rfl | rfl
  · obtain ⟨l, hslash, -⟩ := goesAll_cons (goes_and (goes_named hgoes))
    exact not_outside_slash rfl hslash
  · obtain ⟨l, hslash, -⟩ := goesAll_cons (goes_and (goes_named hgoes))
    exact not_outside_slash rfl hslash

theorem leaves_blanks (h : (parsing text).GoesMany (whitespaceChar ||| comments) i j) :
    Leaves Blank text i j := by
  induction h with
  | nil i => exact fun houtside => ⟨[], rfl, blank_nil, houtside⟩
  | cons hfirst _ ih =>
    obtain ⟨q, hq, hgoes⟩ := goes_or hfirst
    rcases List.mem_pair.mp hq with rfl | rfl
    · exact (leaves_whitespaceChar hgoes).append ih fun _ _ => Blank.append
    · exact fun houtside => absurd houtside (not_outside_comments hgoes)

theorem leaves_eatWhite (h : (parsing text).Goes eatWhite i j) : Leaves Blank text i j := by
  obtain ⟨q, hq, hgoes⟩ := goes_or (goes_anon h)
  rcases List.mem_pair.mp hq with rfl | rfl
  · rw [goes_not hgoes]
    exact fun houtside => ⟨[], rfl, blank_nil, houtside⟩
  · exact leaves_blanks (goes_zeroOrMore (goes_named hgoes))

/-! ## Numbers -/

/-- The parser that went from `i` to `j` has taken these characters. -/
def Spells (text : List UInt8) (x : List Char) (i j : Nat) : Prop :=
  (chars text).drop i = x ++ (chars text).drop j

theorem Spells.append {x y : List Char} (h : Spells text x i k) (h' : Spells text y k j) :
    Spells text (x ++ y) i j := by rw [Spells, h, h', List.append_assoc]

theorem spells_nil (text : List UInt8) (i : Nat) : Spells text [] i i := rfl

theorem spells_char {c : Char} {rest : List Char} (h : (chars text).drop i = c :: rest) :
    Spells text [c] i (i + 1) := by
  have hrest : (chars text).drop (i + 1) = rest := drop_of_drop (x := [c]) h
  rw [Spells, hrest, h]
  rfl

theorem spells_literal {x : String} (h : (parsing text).Goes (parseLiteral x) i j) :
    Spells text x.toList i j := (goes_literal h).1

theorem spells_oneOfChars {cs : String} (h : (parsing text).Goes (parseOneOfChars cs) i j) :
    ∃ c ∈ cs.toList, Spells text [c] i j := by
  obtain ⟨c, rest, hdrop, hc, rfl⟩ := goes_oneOfChars h
  exact ⟨c, hc, spells_char hdrop⟩

theorem exists_digitChar {c : Char} (hmin : '0' ≤ c) (hmax : c ≤ '9') : ∃ d, digitChar d = c := by
  have hlow : 48 ≤ c.toNat := UInt32.le_iff_toNat_le.mp (Char.le_def.mp hmin)
  have hhigh : c.toNat ≤ 57 := UInt32.le_iff_toNat_le.mp (Char.le_def.mp hmax)
  refine ⟨⟨c.toNat - 48, by omega⟩, ?_⟩
  rw [digitChar]
  simp only [Nat.add_sub_cancel' hlow, Char.ofNat_toNat]

theorem spells_digit (h : (parsing text).Goes digit i j) : ∃ d, Spells text [digitChar d] i j := by
  obtain ⟨c, rest, hdrop, hmin, hmax, rfl⟩ := goes_charInRange h
  obtain ⟨d, rfl⟩ := exists_digitChar hmin hmax
  exact ⟨d, spells_char hdrop⟩

theorem spells_nonZeroDigit (h : (parsing text).Goes nonZeroDigit i j) :
    ∃ d, d ≠ 0 ∧ Spells text [digitChar d] i j := by
  obtain ⟨c, rest, hdrop, hmin, hmax, rfl⟩ := goes_charInRange h
  obtain ⟨d, rfl⟩ := exists_digitChar (Char.le_trans (by decide) hmin) hmax
  refine ⟨d, ?_, spells_char hdrop⟩
  rintro rfl
  exact absurd hmin (by decide)

theorem spells_digits (h : (parsing text).GoesMany digit i j) :
    ∃ ds : List (Fin 10), Spells text (ds.map digitChar) i j := by
  induction h with
  | nil i => exact ⟨[], spells_nil text i⟩
  | cons hfirst _ ih =>
    obtain ⟨d, hd⟩ := spells_digit hfirst
    obtain ⟨ds, hds⟩ := ih
    exact ⟨d :: ds, hd.append hds⟩

theorem spells_atLeastOne (h : (parsing text).Goes (atLeastOne digit) i j) :
    ∃ ds : List (Fin 10), ds ≠ [] ∧ Spells text (ds.map digitChar) i j := by
  obtain ⟨k, hfirst, hothers⟩ := goesAll_cons (goes_and (goes_anon h))
  obtain ⟨d, hd⟩ := spells_digit hfirst
  obtain ⟨ds, hds⟩ := spells_digits (goes_zeroOrMore (goesAll_single hothers))
  exact ⟨d :: ds, List.cons_ne_nil _ _, hd.append hds⟩

theorem spells_sign (h : (parsing text).Goes sign i j) :
    ∃ negative : Bool, Spells text (if negative then ['-'] else []) i j := by
  rcases goes_optional h with rfl | hminus
  · exact ⟨false, spells_nil text j⟩
  · obtain ⟨c, hc, hspells⟩ := spells_oneOfChars hminus
    rw [List.mem_singleton.mp hc] at hspells
    exact ⟨true, hspells⟩

theorem spells_wholePart (h : (parsing text).Goes wholePart i j) :
    ∃ whole : List (Fin 10), (whole = [0] ∨ ∃ d ds, whole = d :: ds ∧ d ≠ 0) ∧
      Spells text (whole.map digitChar) i j := by
  obtain ⟨q, hq, hgoes⟩ := goes_or h
  rcases List.mem_pair.mp hq with rfl | rfl
  · exact ⟨[0], .inl rfl, spells_literal hgoes⟩
  · obtain ⟨k, hfirst, hothers⟩ := goesAll_cons (goes_and hgoes)
    obtain ⟨d, hd, hspells⟩ := spells_nonZeroDigit hfirst
    obtain ⟨ds, hds⟩ := spells_digits (goes_zeroOrMore (goesAll_single hothers))
    exact ⟨d :: ds, .inr ⟨d, ds, rfl, hd⟩, hspells.append hds⟩

theorem spells_fractionPart (h : (parsing text).Goes fractionPart i j) :
    ∃ fraction : Option { digits : List (Fin 10) // digits ≠ [] },
      Spells text (fraction.elim [] fun digits => '.' :: digits.1.map digitChar) i j := by
  obtain ⟨q, hq, hgoes⟩ := goes_or h
  rcases List.mem_pair.mp hq with rfl | rfl
  · rw [goes_not hgoes]
    exact ⟨none, spells_nil text i⟩
  · obtain ⟨k, hpoint, hdigits⟩ := goesAll_cons (goes_and hgoes)
    obtain ⟨ds, hne, hds⟩ := spells_atLeastOne (goesAll_single hdigits)
    exact ⟨some ⟨ds, hne⟩, (spells_literal hpoint).append hds⟩

theorem spells_exponentSign (h : (parsing text).Goes exponentSign i j) :
    ∃ negative : Option Bool,
      Spells text (negative.elim [] fun negative => [if negative then '-' else '+']) i j := by
  rcases goes_optional h with rfl | hsign
  · exact ⟨none, spells_nil text j⟩
  · obtain ⟨c, hc, hspells⟩ := spells_oneOfChars hsign
    rcases List.mem_pair.mp hc with rfl | rfl
    · exact ⟨some false, hspells⟩
    · exact ⟨some true, hspells⟩

theorem spells_exponentPart (h : (parsing text).Goes exponentPart i j) :
    ∃ e : Option Exponent, Spells text (e.elim [] Exponent.text) i j := by
  obtain ⟨q, hq, hgoes⟩ := goes_or h
  rcases List.mem_pair.mp hq with rfl | rfl
  · rw [goes_not hgoes]
    exact ⟨none, spells_nil text i⟩
  · obtain ⟨k, hletter, hothers⟩ := goesAll_cons (goes_and hgoes)
    obtain ⟨l, hsign, hdigits⟩ := goesAll_cons hothers
    obtain ⟨c, hc, hspells⟩ := spells_oneOfChars hletter
    obtain ⟨negative, hnegative⟩ := spells_exponentSign hsign
    obtain ⟨ds, hne, hds⟩ := spells_atLeastOne (goesAll_single hdigits)
    have hbehind := hnegative.append hds
    rcases List.mem_pair.mp hc with rfl | rfl
    · exact ⟨some ⟨false, negative, ds, hne⟩, hspells.append hbehind⟩
    · exact ⟨some ⟨true, negative, ds, hne⟩, hspells.append hbehind⟩

theorem token_ofNat {c : Char} (hascii : c.toNat < 0x80) (hquote : c ≠ '"') :
    Token (UInt8.ofNat c.toNat) := by
  have hnat : (UInt8.ofNat c.toNat).toNat = c.toNat := toNat_ofNat (by omega)
  refine ⟨by rwa [UInt8.lt_iff_toNat_lt, hnat], fun h => hquote ?_⟩
  rw [← UInt8.toNat_inj, hnat] at h
  rw [← Char.ofNat_toNat c, h]
  rfl

theorem text_token (l : Literal) : ∀ b ∈ bytes l.text, Token b := by
  intro b hb
  obtain ⟨c, hc, rfl⟩ := List.mem_map.mp hb
  refine token_ofNat (text_ascii l c hc) ?_
  rintro rfl
  rcases mem_text l _ hc with hdigit | hmem
  · revert hdigit
    decide
  · revert hmem
    decide

theorem leaves_literal (h : (parsing text).GoesAll [sign, wholePart, fractionPart, exponentPart] i j) :
    Leaves (fun x => ∃ l : Literal, x = bytes l.text) text i j := by
  obtain ⟨i₁, hsign, h⟩ := goesAll_cons h
  obtain ⟨i₂, hwhole, h⟩ := goesAll_cons h
  obtain ⟨i₃, hfraction, h⟩ := goesAll_cons h
  obtain ⟨negative, hnegative⟩ := spells_sign hsign
  obtain ⟨whole, hwellFormed, hwhole⟩ := spells_wholePart hwhole
  obtain ⟨fraction, hfraction⟩ := spells_fractionPart hfraction
  obtain ⟨e, he⟩ := spells_exponentPart (goesAll_single h)
  let l : Literal := ⟨negative, whole, hwellFormed, fraction, e⟩
  have htext : Spells text l.text i j := (hnegative.append hwhole).append (hfraction.append he)
  rw [Spells, ← chars_bytes (text_ascii l)] at htext
  refine (leaves_tokens (drop_of_chars htext) (text_token l)).imp ?_
  rintro x rfl
  exact ⟨l, rfl⟩

/-! ## Strings -/

theorem drop_of_left {x left : List UInt8} (hne : x ≠ []) (h : text.drop i = x ++ left) :
    text.drop (text.length - left.length) = left := by
  have hlength := congrArg List.length h
  have hpositive := List.length_pos_of_ne_nil hne
  rw [List.length_drop, List.length_append] at hlength
  have hi : text.length - left.length = i + x.length := by omega
  rw [hi]
  exact drop_of_drop h

theorem parseStringLiteral_eq_ok {xs : IRs ItemType} (h : parseStringLiteral text i = .ok (xs, j)) :
    ∃ rest unescaped left value, text.drop i = 0x22 :: rest ∧ scan rest = .ok (unescaped, left) ∧
      Utf8String.make unescaped = .ok value ∧ j = text.length - left.length := by
  rw [parseStringLiteral] at h
  split at h
  · cases h
  next c rest hdrop =>
    split at h
    · cases h
    next hquote =>
      obtain rfl := not_not.mp hquote
      split at h
      · cases h
      next unescaped left hscan =>
        split at h
        · cases h
        next value hmake =>
          cases h
          exact ⟨rest, unescaped, left, value, hdrop, hscan, hmake, rfl⟩

theorem leaves_stringLiteral (h : (parsing text).Goes stringLiteralParser i j) :
    Leaves (fun x => ∃ value, StringText escapesWithAlert value x) text i j := by
  intro houtside
  obtain ⟨xs, hxs⟩ := goes_own rfl h
  obtain ⟨rest, unescaped, left, value, hdrop, hscan, hmake, rfl⟩ := parseStringLiteral_eq_ok hxs
  rw [hdrop] at houtside
  have hstrict := houtside.strict
  rw [strict, strictFrom, if_pos rfl] at hstrict
  obtain ⟨⟨t, rfl, cs, rfl, hchars⟩, hleft, htextLeft⟩ :=
    charsText_of_scan _ le_rfl hstrict (houtside.isText.of_ascii (by decide)) hscan
  obtain ⟨n, hn⟩ := isText_unescaped hchars
  obtain ⟨s, hs, hvalue⟩ := Utf8String.make_of_characters hn
  obtain rfl : s = value := Except.ok.inj (hs.symm.trans hmake)
  have hend := drop_of_left (x := 0x22 :: (cs ++ [0x22])) (List.cons_ne_nil _ _) hdrop
  rw [hend]
  exact ⟨_, hdrop, ⟨s, cs, rfl, hvalue ▸ hchars⟩, hleft, htextLeft⟩

/-! ## Series -/

/-- The text of a piece, and white space behind it. -/
def PieceText {α : Type} (R : α → List UInt8 → Prop) (x : List UInt8) : Prop :=
  ∃ a out w, x = out ++ w ∧ R a out ∧ Blank w

section Series

variable {α : Type} {R : α → List UInt8 → Prop} {p : PR} {n : Nat}
  (hsound : ∀ {i j : Nat}, (text.drop i).length < n → (parsing text).Goes p i j →
    Leaves (PieceText R) text i j)

include hsound

theorem leaves_pieces (hp : andTerms p = [p]) (h : (parsing text).GoesMany (comma + p) k j) :
    ∀ {i}, (text.drop i).length < n → (parsing text).Goes p i k →
      Leaves (fun x => ∃ as, Pieces R as x) text i j := by
  induction h with
  | nil k =>
    intro i hlt hfirst
    refine (hsound hlt hfirst).imp ?_
    rintro _ ⟨a, out, w, rfl, ha, hw⟩
    exact ⟨[a], .last ha hw⟩
  | cons hturn _ ih =>
    intro i hlt hfirst houtside
    have hterms : comma + p = .and () (parseLiteral ",") ([eatWhite] ++ andTerms p) := rfl
    rw [hterms, hp] at hturn
    obtain ⟨k₁, hcomma, hturn⟩ := goesAll_cons (goes_and hturn)
    obtain ⟨k₂, hwhite, hturn⟩ := goesAll_cons hturn
    obtain ⟨x, hx, ⟨a, out, w, rfl, ha, hw⟩, hk⟩ := hsound hlt hfirst houtside
    obtain ⟨_, hc, rfl, hk₁⟩ := leaves_punctuation (b := 0x2c) rfl ⟨by decide, by decide⟩ hcomma hk
    obtain ⟨w', hw'eq, hw', hk₂⟩ := leaves_eatWhite hwhite hk₁
    have hlt' : (text.drop k₂).length < n := by
      rw [hx, hc, hw'eq] at hlt
      simp only [List.length_append] at hlt
      omega
    obtain ⟨body, hbody, ⟨as, has⟩, hj⟩ := ih hlt' (goesAll_single hturn) hk₂
    refine ⟨out ++ (w ++ 0x2c :: (w' ++ body)), ?_, ⟨a :: as, .more ha hw hw' has⟩, hj⟩
    rw [hx, hc, hw'eq, hbody]
    simp only [List.append_assoc, List.cons_append, List.nil_append]

theorem leaves_listOf {o c : String} {b d : UInt8} (hp : andTerms p = [p])
    (hp' : ∀ x, p + x = .and () p (andTerms x)) (ho : o.toList = [char b])
    (hc : c.toList = [char d]) (hopen : Token b) (hclose : Token d)
    (hlt : (text.drop i).length < n + 1)
    (h : (parsing text).Goes (listOf (parseLiteral o + eatWhite) p comma (closing c)) i j) :
    Leaves (fun x => ∃ as body w, x = b :: (body ++ [d]) ++ w ∧ Enclosed R as body ∧ Blank w)
      text i j := by
  intro houtside
  rw [listOf_eq hp'] at h
  obtain ⟨i₁, hopening, h⟩ := goesAll_cons (goes_and (goes_anon h))
  obtain ⟨i₂, hwhite, h⟩ := goesAll_cons h
  obtain ⟨q, hq, hgoes⟩ := goes_or (goesAll_single h)
  obtain ⟨_, hi, rfl, hi₁⟩ := leaves_punctuation ho hopen hopening houtside
  obtain ⟨w, hw, hblank, hi₂⟩ := leaves_eatWhite hwhite hi₁
  rcases List.mem_pair.mp hq with rfl | rfl
  · obtain ⟨i₃, hterminator, hrest⟩ := goesAll_cons (goes_and hgoes)
    obtain ⟨_, hi₂', rfl, hi₃⟩ := leaves_punctuation hc hclose hterminator hi₂
    obtain ⟨w', hw', hblank', hj⟩ := leaves_eatWhite (goesAll_single hrest) hi₃
    refine ⟨_, ?_, ⟨[], w, w', rfl, .none hblank, hblank'⟩, hj⟩
    rw [hi, hw, hi₂', hw']
    simp only [List.append_assoc, List.cons_append, List.nil_append]
  · obtain ⟨i₃, hfirst, hrest⟩ := goesAll_cons (goes_and hgoes)
    obtain ⟨i₄, huntil, hrest⟩ := goesAll_cons hrest
    obtain ⟨i₅, hterminator, hrest⟩ := goesAll_cons hrest
    have hlt' : (text.drop i₂).length < n := by
      rw [hi, hw] at hlt
      simp only [List.length_append, List.length_cons] at hlt
      omega
    obtain ⟨body, hbody, ⟨as, has⟩, hi₄⟩ :=
      leaves_pieces hsound hp (goes_specificUntil huntil) hlt' hfirst hi₂
    obtain ⟨_, hi₄', rfl, hi₅⟩ := leaves_punctuation hc hclose hterminator hi₄
    obtain ⟨w', hw', hblank', hj⟩ := leaves_eatWhite (goesAll_single hrest) hi₅
    refine ⟨_, ?_, ⟨as, w ++ body, w', rfl, .some hblank has, hblank'⟩, hj⟩
    rw [hi, hw, hbody, hi₄', hw']
    simp only [List.append_assoc, List.cons_append, List.nil_append]

end Series

/-! ## Elements -/

theorem leaves_atom {α : Type} {S : List UInt8 → Prop} {R : α → List UInt8 → Prop} {p : PR}
    (hp : ∀ {k}, (parsing text).Goes p i k → Leaves S text i k) (hS : ∀ x, S x → ∃ a, R a x)
    (h : (parsing text).Goes (.and () p [eatWhite]) i j) : Leaves (PieceText R) text i j := by
  obtain ⟨k, hfirst, hwhite⟩ := goesAll_cons (goes_and h)
  refine (hp hfirst).append (leaves_eatWhite (goesAll_single hwhite)) fun x w hx hw => ?_
  obtain ⟨a, ha⟩ := hS x hx
  exact ⟨a, x, w, rfl, ha, hw⟩

/-- `null`, `true` or `false` -/
theorem leaves_word {type : ItemType} {name x : String} {e : Tree}
    (hx : ∀ c ∈ x.toList, c.toNat < 0x80 ∧ c ≠ '"') (he : ValueText escapesWithAlert e (bytes x.toList))
    (h : (parsing text).Goes (.and () (named type name (parseLiteral x)) [eatWhite]) i j) :
    Leaves (PieceText (ValueText escapesWithAlert)) text i j := by
  refine leaves_atom (S := (· = bytes x.toList)) (fun hword => ?_) (fun y hy => ⟨e, hy ▸ he⟩) h
  obtain ⟨hdrop, -⟩ := goes_literal (goes_named hword)
  rw [← chars_bytes fun c hc => (hx c hc).1] at hdrop
  refine leaves_tokens (drop_of_chars hdrop) fun b hb => ?_
  obtain ⟨c, hc, rfl⟩ := List.mem_map.mp hb
  exact token_ofNat (hx c hc).1 (hx c hc).2

theorem leaves_member {n : Nat}
    (hsound : ∀ {i j : Nat}, (text.drop i).length < n → (parsing text).Goes elementParser i j →
      Leaves (PieceText (ValueText escapesWithAlert)) text i j)
    (hlt : (text.drop i).length < n) (h : (parsing text).Goes objectMember i j) :
    Leaves (PieceText (MemberText escapesWithAlert (ValueText escapesWithAlert))) text i j := by
  intro houtside
  obtain ⟨i₁, hname, h⟩ := goesAll_cons (goes_and (goes_named h))
  obtain ⟨i₂, hwhite, h⟩ := goesAll_cons h
  obtain ⟨i₃, hcolon, h⟩ := goesAll_cons h
  obtain ⟨i₄, hwhite', h⟩ := goesAll_cons h
  have hvalue : (parsing text).Goes elementParser i₄ j :=
    goes_reference rfl (goes_named (goesAll_single h))
  obtain ⟨name, hi, ⟨key, hkey⟩, hi₁⟩ := leaves_stringLiteral hname houtside
  obtain ⟨w, hw, hblank, hi₂⟩ := leaves_eatWhite hwhite hi₁
  obtain ⟨_, hi₂', rfl, hi₃⟩ := leaves_punctuation (b := 0x3a) rfl ⟨by decide, by decide⟩ hcolon hi₂
  obtain ⟨w', hw', hblank', hi₄⟩ := leaves_eatWhite hwhite' hi₃
  have hlt' : (text.drop i₄).length < n := by
    rw [hi, hw, hi₂', hw'] at hlt
    simp only [List.length_append] at hlt
    omega
  obtain ⟨x, hx, ⟨e, out, tail, rfl, he, htail⟩, hj⟩ := hsound hlt' hvalue hi₄
  refine ⟨_, ?_, ⟨(key, e), name ++ (w ++ 0x3a :: (w' ++ out)), tail, rfl, .mk hkey hblank hblank' he,
    htail⟩, hj⟩
  rw [hi, hw, hi₂', hw', hx]
  simp only [List.append_assoc, List.cons_append, List.nil_append]

theorem leaves_element (n : Nat) : ∀ {i j : Nat}, (text.drop i).length < n →
    (parsing text).Goes elementParser i j →
      Leaves (PieceText (ValueText escapesWithAlert)) text i j := by
  induction n with
  | zero => exact fun hlt => absurd hlt (Nat.not_lt_zero _)
  | succ n ih =>
    intro i j hlt h
    obtain ⟨q, hq, hgoes⟩ := goes_or h
    rcases List.mem_append.mp
        (show q ∈ [null_, true_, false_] ++ [Json.string, Json.number, Json.array, Json.object] from hq)
      with hq | hq
    · rcases List.mem_cons.mp hq with rfl | hq
      · exact leaves_word (forall_mem_of_all (by decide)) .null hgoes
      rcases List.mem_pair.mp hq with rfl | rfl
      · exact leaves_word (forall_mem_of_all (by decide)) .true hgoes
      · exact leaves_word (forall_mem_of_all (by decide)) .false hgoes
    rcases List.mem_append.mp
        (show q ∈ [Json.string, Json.number] ++ [Json.array, Json.object] from hq) with hq | hq
    · rcases List.mem_pair.mp hq with rfl | rfl
      · refine leaves_atom leaves_stringLiteral ?_ hgoes
        rintro x ⟨value, hvalue⟩
        exact ⟨.string value none, .string hvalue⟩
      · refine leaves_atom (fun hnumber => leaves_literal (goes_and (goes_named hnumber))) ?_ hgoes
        rintro _ ⟨l, rfl⟩
        exact ⟨.number l.text none, .number l⟩
    rcases List.mem_pair.mp hq with rfl | rfl
    · have helement : ∀ {i j : Nat}, (text.drop i).length < n →
          (parsing text).Goes elementRecurse i j →
            Leaves (PieceText (ValueText escapesWithAlert)) text i j :=
        fun hlt h => ih hlt (goes_reference rfl h)
      refine (leaves_listOf helement (b := 0x5b) (d := 0x5d) rfl (fun _ => rfl) rfl rfl
        ⟨by decide, by decide⟩ ⟨by decide, by decide⟩ hlt (goes_named hgoes)).imp ?_
      rintro _ ⟨es, body, w, rfl, hbody, hw⟩
      exact ⟨.array es none, _, w, rfl, .array hbody, hw⟩
    · refine (leaves_listOf (leaves_member ih) (b := 0x7b) (d := 0x7d) rfl (fun _ => rfl) rfl rfl
        ⟨by decide, by decide⟩ ⟨by decide, by decide⟩ hlt (goes_named hgoes)).imp ?_
      rintro _ ⟨ms, body, w, rfl, hbody, hw⟩
      exact ⟨objectOf ms, _, w, rfl, .object hbody, hw⟩

end Urnest.Json
