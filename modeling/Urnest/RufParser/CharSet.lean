import Mathlib
import Urnest.Ruf.Selection
import Urnest.RufParser.Ast
import Urnest.RufParser.Returns

/-!
# Sets of characters

`parse_charset`, with which `one_of_chars` and `any_char_except` read their notation. It is
parsed by the parsers that it is for: as often as there is one, a range, and otherwise one
character (`pieces`).

The comment at `CharSet` says what the notation is to mean (`documented`). That comes to the same
but for a `-` that begins the string and is taken for what a range begins with, and one that ends
it and is taken for what a range ends with; and but for the characters of more than one byte,
which the parsers of one character cannot cut off.
-/

namespace Urnest.RufParser

open Lib

/-! ## The notation -/

/-- What stands in the notation: a range, or a character that stands for itself -/
inductive Piece where
  | range (c1 c2 : Char)
  | self (c : Char)
  deriving DecidableEq, Repr

/-- The characters that a piece stands for -/
def Piece.Names : Piece → Char → Prop
  | range c1 c2, c => if c1 ≤ c2 then c1 ≤ c ∧ c ≤ c2 else c = c1 ∨ c = '-' ∨ c = c2
  | self x, c => c = x

/-- One of the pieces stands for the character. -/
def Named (ps : List Piece) (c : Char) : Prop := ∃ p ∈ ps, p.Names c

/-- A range wherever there is one -/
def pieces : List Char → List Piece
  | c1 :: '-' :: c2 :: rest => .range c1 c2 :: pieces rest
  | c :: rest => .self c :: pieces rest
  | [] => []

/-- Where the last character of the string is a `-`, no range ends with it. -/
def readOn : List Char → List Piece
  | [c, '-', '-'] => [.self c, .self '-', .self '-']
  | c1 :: '-' :: c2 :: rest => .range c1 c2 :: readOn rest
  | c :: rest => .self c :: readOn rest
  | [] => []

/-- What the comment says: nor does a range begin with a `-` that is the first one. -/
def documented : List Char → List Piece
  | '-' :: rest => .self '-' :: readOn rest
  | chars => readOn chars

/-- What the last range begins with, where it ends with the `-` that is the last character -/
def lastRange : List Char → Option Char
  | [c, '-', '-'] => some c
  | _ :: '-' :: _ :: rest => lastRange rest
  | _ :: rest => lastRange rest
  | [] => none

/-- A character that is between the two ends of that range -/
def Added (chars : List Char) (c : Char) : Prop :=
  ∃ c1, lastRange chars = some c1 ∧ c1 < c ∧ c < '-'

/-- The string means what the comment says although it is misread. -/
structure Harmless (chars : List Char) : Prop where
  last : ∀ c, Added chars c → Named (documented chars) c
  first : ∀ c1 rest, chars = '-' :: '-' :: c1 :: rest → ∀ c,
    Named (readOn chars) c ∨ Added chars c ↔ Named (documented chars) c

@[simp] theorem named_nil (c : Char) : ¬ Named [] c := fun ⟨_, h, _⟩ => nomatch h

@[simp] theorem named_cons (p : Piece) (ps : List Piece) (c : Char) :
    Named (p :: ps) c ↔ p.Names c ∨ Named ps c := by
  rw [Named, Named, List.exists_mem_cons_iff]

/-- There is a range at the beginning. -/
def BeginsRange (chars : List Char) : Prop := ∃ c1 c2 rest, chars = c1 :: '-' :: c2 :: rest

theorem pieces_self {c : Char} {rest : List Char} (h : ¬ BeginsRange (c :: rest)) :
    pieces (c :: rest) = .self c :: pieces rest := by
  rw [pieces]
  rintro c2 rest' rfl
  exact h ⟨c, c2, rest', rfl⟩

theorem names_range_last (c1 c : Char) :
    (Piece.range c1 '-').Names c ↔ (c = c1 ∨ c = '-') ∨ c1 < c ∧ c < '-' := by
  rw [Piece.Names]
  split_ifs with h
  · constructor
    · rintro ⟨h₁, h₂⟩
      rcases eq_or_lt_of_le h₁ with rfl | h₁
      · exact .inl (.inl rfl)
      · rcases eq_or_lt_of_le h₂ with rfl | h₂
        · exact .inl (.inr rfl)
        · exact .inr ⟨h₁, h₂⟩
    · rintro ((rfl | rfl) | ⟨h₁, h₂⟩)
      · exact ⟨le_refl _, h⟩
      · exact ⟨h, le_refl _⟩
      · exact ⟨h₁.le, h₂.le⟩
  · constructor
    · rintro (rfl | rfl | rfl)
      · exact .inl (.inl rfl)
      · exact .inl (.inr rfl)
      · exact .inl (.inr rfl)
    · rintro ((rfl | rfl) | ⟨h₁, h₂⟩)
      · exact .inl rfl
      · exact .inr (.inl rfl)
      · exact absurd (h₁.trans h₂).le h

/-- The range that the last `-` ends adds what is between its ends, and nothing else differs. -/
theorem named_pieces (chars : List Char) (c : Char) :
    Named (pieces chars) c ↔ Named (readOn chars) c ∨ Added chars c := by
  induction chars using readOn.induct with
  | case1 c1 =>
    have hadded : Added [c1, '-', '-'] c ↔ c1 < c ∧ c < '-' := by
      simp [Added, lastRange]
    rw [hadded, pieces, readOn, named_cons, names_range_last]
    simp only [named_cons, named_nil, or_false, pieces, Piece.Names, or_self]
  | case2 c1 c2 rest hlast ih =>
    have hadded : Added (c1 :: '-' :: c2 :: rest) c ↔ Added rest c := by
      rw [Added, Added, lastRange]
      exact fun hc hrest => hlast hc hrest
    rw [hadded, pieces, readOn, named_cons, named_cons, ih, or_assoc]
    exact hlast
  | case3 c1 rest hlast hrange ih =>
    have hadded : Added (c1 :: rest) c ↔ Added rest c := by
      rw [Added, Added, lastRange]
      · exact hlast
      · exact hrange
    rw [hadded, pieces, readOn, named_cons, named_cons, ih, or_assoc]
    all_goals assumption
  | case4 => simp [pieces, readOn, Added, lastRange]

/-- The two readings of the notation name the same characters. -/
theorem harmless_iff (chars : List Char) :
    (∀ c, Named (pieces chars) c ↔ Named (documented chars) c) ↔ Harmless chars := by
  simp only [named_pieces]
  refine ⟨fun h => ⟨fun c hadded => (h c).mp (.inr hadded), fun _ _ _ => h⟩, fun h => ?_⟩
  by_cases hfirst : ∃ c1 rest, chars = '-' :: '-' :: c1 :: rest
  · obtain ⟨c1, rest, hchars⟩ := hfirst
    exact h.first c1 rest hchars
  · -- the first `-`, if there is one, is read for itself anyway
    have hsame : documented chars = readOn chars := by
      rw [documented.eq_def]
      split
      · next rest =>
        rw [readOn]
        · exact fun hrest => hfirst ⟨'-', [], by rw [hrest]⟩
        · exact fun c2 rest' hrest => hfirst ⟨c2, rest', by rw [hrest]⟩
      · rfl
    have hlast := h.last
    rw [hsame] at hlast ⊢
    exact fun c => or_iff_left_of_imp (hlast c)

/-! ## The parser of the notation -/

/-- `zero_or_more(tagged(range, ..) | tagged(c, any_char())) + end_of_input()` -/
def charSetParser : Program
  | 0 => .and 1 [12]
  | 1 => .zeroOrMore 2
  | 2 => .or 3 [10]
  | 3 => .tagged "range" 4
  | 4 => .and 5 [7, 8]
  | 5 => .tagged "c1" 6
  | 6 => .anyChar
  | 7 => .char '-'
  | 8 => .tagged "c2" 9
  | 9 => .anyChar
  | 10 => .tagged "c" 11
  | 11 => .anyChar
  | 12 => .endOfInput
  | _ + 13 => .none

/-- A node that says what a piece says -/
inductive IsPiece : AST → Piece → Prop
  | range {matched m₁ m₂ : Str} {c1 c2 : Char} (h₁ : m₁.chars = [c1]) (h₂ : m₂.chars = [c2]) :
      IsPiece (.mk ⟨"range", matched⟩ [.mk ⟨"c1", m₁⟩ [], .mk ⟨"c2", m₂⟩ []]) (.range c1 c2)
  | self {matched : Str} {c : Char} (h : matched.chars = [c]) :
      IsPiece (.mk ⟨"c", matched⟩ []) (.self c)

/-- Every character has one byte. -/
def OneByte (chars : List Char) : Prop := ∀ c ∈ chars, c.utf8Size = 1

theorem oneByte_append {xs ys : List Char} (h : OneByte xs) (h' : OneByte ys) :
    OneByte (xs ++ ys) :=
  fun c hc => (List.mem_append.mp hc).elim (h c) (h' c)

/-- One node, with the tag, of one character -/
def TakesTagged (tag : String) (front : List Char) (asts : List AST) : Prop :=
  ∃ c matched, c.utf8Size = 1 ∧ front = [c] ∧ matched.chars = [c] ∧ asts = [.mk ⟨tag, matched⟩ []]

/-- What a parser takes from the beginning of a text, with what is behind it, and the nodes that
come of that -/
def Takes : Ref → (front back : List Char) → List AST → Prop
  | 0, front, back, asts | 1, front, back, asts =>
    back = [] ∧ OneByte front ∧ List.Forall₂ IsPiece asts (pieces front)
  | 2, front, back, asts => OneByte front ∧
    ∃ node p, pieces (front ++ back) = p :: pieces back ∧ IsPiece node p ∧ asts = [node]
  | 3, front, _, asts => ∃ c1 c2 node, OneByte front ∧ front = [c1, '-', c2] ∧
    IsPiece node (.range c1 c2) ∧ asts = [node]
  | 4, front, _, asts => ∃ c1 c2 m₁ m₂, OneByte front ∧ front = [c1, '-', c2] ∧ m₁.chars = [c1] ∧
    m₂.chars = [c2] ∧ asts = [.mk ⟨"c1", m₁⟩ [], .mk ⟨"c2", m₂⟩ []]
  | 5, front, _, asts => TakesTagged "c1" front asts
  | 7, front, _, asts => front = ['-'] ∧ asts = []
  | 8, front, _, asts => TakesTagged "c2" front asts
  | 10, front, _, asts => TakesTagged "c" front asts
  | 6, front, _, asts | 9, front, _, asts | 11, front, _, asts =>
    ∃ c, c.utf8Size = 1 ∧ front = [c] ∧ asts = []
  | 12, front, back, asts => front = [] ∧ back = [] ∧ asts = []
  | _ + 13, _, _, _ => True

/-- Where a parser fails -/
def Misses : Ref → List Char → Prop
  | 0, _ | 1, _ => False
  | 3, chars | 4, chars => ¬ BeginsRange chars
  | 7, chars => ∀ rest, chars ≠ '-' :: rest
  | 2, chars | 5, chars | 6, chars | 8, chars | 9, chars | 10, chars | 11, chars => chars = []
  | 12, chars => chars ≠ []
  | _ + 13, _ => True

/-- An outcome that the parser may have on the text -/
structure Is (p : Ref) (text : Str) (v : Outcome) : Prop where
  takes : ∀ m, v.matched? = some m → m.ptr = text.ptr ∧ ∃ back, text.chars = m.chars ++ back ∧
    Takes p m.chars back (componentAsts charSetParser ⟨p, text⟩ v)
  misses : v.matched? = none → Misses p text.chars

/-- What is in the cache is such, at its place in the text. -/
def Agrees (base : Str) (entries : Entries) : Prop :=
  ∀ k v, entries.lookup k = some v → ∀ text : Str, text.Ends base → text.ptr = k.1 → Is k.2 text v

/-- Where the computation returns, this holds of the result, and the cache is left in order. -/
def Yields {α : Type} (base : Str) (m : Parse α) (Q : α → Prop) : Prop :=
  ∀ entries, Agrees base entries → ∀ v entries', m entries = .ok (v, entries') →
    Q v ∧ Agrees base entries'

namespace Yields

variable {α β : Type} {base text m : Str} {Q : α → Prop} {R : β → Prop}

theorem pure {v : α} (h : Q v) : Yields base (Pure.pure v) Q := by
  rintro entries hagrees v' entries' hrun
  cases hrun
  exact ⟨h, hagrees⟩

theorem bind {x : Parse α} {f : α → Parse β} (h : Yields base x Q)
    (hf : ∀ v, Q v → Yields base (f v) R) : Yields base (x >>= f) R := by
  intro entries hagrees w entries' hrun
  obtain ⟨v, entries₁, hx, hfv⟩ := run_bind_eq_ok.mp hrun
  obtain ⟨hv, hagrees₁⟩ := h entries hagrees v entries₁ hx
  exact hf v hv entries₁ hagrees₁ w entries' hfv

theorem lift {x : Result α} (h : ∀ v, x = .ok v → Q v) : Yields base (liftM x) Q := by
  intro entries hagrees v entries' hrun
  cases x with
  | error e => cases hrun
  | ok v =>
    cases hrun
    exact ⟨h _ rfl, hagrees⟩

theorem lift_bind {x : Result α} {f : α → Parse β} (hf : ∀ v, x = .ok v → Yields base (f v) R) :
    Yields base (liftM x >>= f) R :=
  (lift (Q := fun v => x = .ok v) fun _ h => h).bind hf

/-- Behind a match the text and the cache go on together. -/
theorem behind {f : Str → CacheSlice → Parse β} (h : m.Begins text)
    (hf : ∀ t, t.Ends text → text.chars = m.chars ++ t.chars → Yields base (f t (.of t)) R) :
    Yields base (liftM (text.after m) >>= fun t =>
      liftM ((CacheSlice.of text).from m.len) >>= fun c => f t c) R := by
  obtain ⟨rest, hafter, hfrom, hends, -⟩ := advance h
  obtain ⟨rest', hafter', -, -, hchars⟩ := Str.after_of_begins h
  cases hafter'.symm.trans hafter
  refine lift_bind fun t ht => lift_bind fun c hc => ?_
  cases ht.symm.trans hafter
  cases hc.symm.trans hfrom
  exact hf _ hends hchars

/-- What is before an end of the text -/
theorem upTo {f : Str → Parse β} (h : m.Ends text)
    (hf : ∀ front : Str, front.ptr = text.ptr → text.chars = front.chars ++ m.chars →
      Yields base (f front) R) : Yields base (liftM (text.upTo m) >>= f) R := by
  obtain ⟨front, hupTo, hbegins, hchars⟩ := Str.upTo_of_ends h
  refine lift_bind fun front' hfront' => ?_
  cases hfront'.symm.trans hupTo
  exact hf _ hbegins.1 hchars

end Yields

section Parsers

variable {base text : Str} {n : Nat}
  (hcall : ∀ p text, text.Ends base →
    Yields base (parseSomeOf charSetParser n p text (.of text) []) (Is p text))

theorem Is.begins {p : Ref} {v : Outcome} {m : Str} (h : Is p text v)
    (hm : v.matched? = some m) : m.Begins text := by
  obtain ⟨hptr, back, hback, -⟩ := h.takes m hm
  exact ⟨hptr, back, hback.symm⟩

/-- Behind what a parser has matched -/
theorem Is.takes_of_append {p : Ref} {v : Outcome} {m : Str} {back : List Char} (h : Is p text v)
    (hm : v.matched? = some m) (hback : text.chars = m.chars ++ back) :
    Takes p m.chars back (componentAsts charSetParser ⟨p, text⟩ v) := by
  obtain ⟨-, back', hback', htakes⟩ := h.takes m hm
  rwa [List.append_cancel_left (hback.symm.trans hback')]

/-- A parser of one character -/
theorem parseOne_eq_ok {takes : Char → Bool} {v : Outcome} (h : parseOne takes text = .ok v) :
    (∃ c back, text.chars = c :: back ∧ takes c = true ∧ c.utf8Size = 1 ∧
      v = .leaf ⟨text.ptr, [c]⟩ none) ∨
    ∃ why, v = .leaf ⟨text.ptr, []⟩ (some why) ∧
      ∀ c back, text.chars = c :: back → takes c = false := by
  cases htext : text.chars with
  | nil =>
    rw [parseOne, htext] at h
    simp only [Str.sliceTo_zero] at h
    cases h
    exact .inr ⟨_, rfl, fun _ _ hnil => by cases hnil⟩
  | cons c back =>
    cases htakes : takes c with
    | false =>
      rw [parseOne, htext] at h
      simp only [htakes, Str.sliceTo_zero] at h
      cases h
      refine .inr ⟨_, rfl, fun c' back' heq => ?_⟩
      cases heq
      exact htakes
    | true =>
      have hsize : c.utf8Size = 1 := by
        by_contra hsize
        rw [parseOne_panics htext htakes hsize] at h
        cases h
      have hslice : text.sliceTo 1 = .ok ⟨text.ptr, [c]⟩ := by
        have hone : byteLen [c] = 1 := by rw [byteLen_cons, byteLen_nil, hsize]
        rw [← hone]
        exact sliceTo_append htext
      rw [parseOne, htext] at h
      simp only [htakes, if_true, hslice] at h
      cases h
      exact .inl ⟨c, back, rfl, htakes, hsize, rfl⟩

theorem is_anyChar {p : Ref} {v : Outcome} (h : parseOne (fun _ => true) text = .ok v)
    (hp : p = 6 ∨ p = 9 ∨ p = 11) : Is p text v := by
  rcases parseOne_eq_ok h with ⟨c, back, htext, -, hsize, rfl⟩ | ⟨why, rfl, hnone⟩
  · refine ⟨fun m hm => ?_, fun hm => (nomatch hm)⟩
    cases hm
    refine ⟨rfl, back, htext, ?_⟩
    rcases hp with rfl | rfl | rfl <;> exact ⟨c, hsize, rfl, rfl⟩
  · refine ⟨fun m hm => (nomatch hm), fun _ => ?_⟩
    have hnil : text.chars = [] := by
      cases htext : text.chars with
      | nil => rfl
      | cons c back => cases hnone c back htext
    rcases hp with rfl | rfl | rfl <;> exact hnil

theorem is_dash {v : Outcome} (h : parseOne (· = '-') text = .ok v) : Is 7 text v := by
  rcases parseOne_eq_ok h with ⟨c, back, htext, htakes, -, rfl⟩ | ⟨why, rfl, hnone⟩
  · refine ⟨fun m hm => ?_, fun hm => (nomatch hm)⟩
    cases hm
    rw [of_decide_eq_true htakes] at htext ⊢
    exact ⟨rfl, back, htext, rfl, rfl⟩
  · refine ⟨fun m hm => (nomatch hm), fun _ rest hrest => ?_⟩
    exact absurd (hnone _ _ hrest) (by decide)

theorem is_endOfInput {v : Outcome} (h : parseEndOfInput text = .ok v) : Is 12 text v := by
  rw [parseEndOfInput] at h
  cases htext : text.chars with
  | nil =>
    rw [htext] at h
    cases h
    refine ⟨fun m hm => ?_, fun hm => (by cases hm)⟩
    cases hm
    exact ⟨rfl, [], (List.append_nil _).symm, htext, rfl, rfl⟩
  | cons c back =>
    rw [htext] at h
    simp only [Str.sliceTo_zero] at h
    cases h
    exact ⟨fun m hm => (by cases hm), fun _ hnil => by cases htext.symm.trans hnil⟩

include hcall

/-- A tagged `any_char()` -/
theorem yields_tagged {p q : Ref} {tag : String} (hp : charSetParser p = .tagged tag q)
    (hq : q = 6 ∨ q = 9 ∨ q = 11)
    (htakes : ∀ front back asts, TakesTagged tag front asts → Takes p front back asts)
    (hmisses : Misses p []) (hends : text.Ends base) :
    Yields base (parseTagged (parseSomeOf charSetParser n) [] q text (.of text)) (Is p text) := by
  refine (hcall q text hends).bind fun v hv => .pure ⟨fun m hm => ?_, fun hm => ?_⟩
  · obtain ⟨hptr, back, hback, hv⟩ := hv.takes m hm
    have hone : ∃ c, c.utf8Size = 1 ∧ m.chars = [c] ∧
        componentAsts charSetParser ⟨q, text⟩ v = [] := by
      rcases hq with rfl | rfl | rfl <;> exact hv
    obtain ⟨c, hsize, hc, hasts⟩ := hone
    refine ⟨hptr, back, hback, htakes _ _ _ ⟨c, m, hsize, hc, hc, ?_⟩⟩
    have hm : v.matched? = some m := hm
    rw [hm, componentAsts, hp]
    simp only [Parser.tag, allAsts_single, hasts]
  · have hnil : text.chars = [] := by
      have hv := hv.misses hm
      rcases hq with rfl | rfl | rfl <;> exact hv
    rw [hnil]
    exact hmisses

theorem yields_range (hends : text.Ends base) :
    Yields base (parseAnd (parseSomeOf charSetParser n) [] text [5, 7, 8] text (.of text) [])
      (Is 4 text) := by
  simp only [parseAnd]
  refine (hcall 5 text hends).bind fun v₁ hv₁ => ?_
  cases hm₁ : v₁.matched? with
  | none =>
    refine .pure ⟨fun m hm => (by cases hm), fun _ => ?_⟩
    rintro ⟨c1, c2, rest, hrest⟩
    cases (hv₁.misses hm₁).symm.trans hrest
  | some m₁ =>
    refine .behind (hv₁.begins hm₁) fun t₁ ht₁ hchars₁ => ?_
    obtain ⟨c1, k₁, hsize₁, hc1, hk₁, hasts₁⟩ := hv₁.takes_of_append hm₁ hchars₁
    refine (hcall 7 t₁ (ht₁.trans hends)).bind fun v₂ hv₂ => ?_
    cases hm₂ : v₂.matched? with
    | none =>
      refine .pure ⟨fun m hm => (by cases hm), fun _ => ?_⟩
      rintro ⟨c1', c2, rest, hrest⟩
      rw [hchars₁, hc1] at hrest
      exact hv₂.misses hm₂ _ (List.cons.inj hrest).2
    | some m₂ =>
      refine .behind (hv₂.begins hm₂) fun t₂ ht₂ hchars₂ => ?_
      obtain ⟨hdash, hasts₂⟩ := hv₂.takes_of_append hm₂ hchars₂
      refine (hcall 8 t₂ (ht₂.trans (ht₁.trans hends))).bind fun v₃ hv₃ => ?_
      cases hm₃ : v₃.matched? with
      | none =>
        refine .pure ⟨fun m hm => (by cases hm), fun _ => ?_⟩
        rintro ⟨c1', c2, rest, hrest⟩
        rw [hchars₁, hc1, hchars₂, hdash, hv₃.misses hm₃] at hrest
        cases hrest
      | some m₃ =>
        refine .behind (hv₃.begins hm₃) fun t₃ ht₃ hchars₃ => ?_
        obtain ⟨c2, k₃, hsize₃, hc2, hk₃, hasts₃⟩ := hv₃.takes_of_append hm₃ hchars₃
        refine .upTo (ht₃.trans (ht₂.trans ht₁)) fun m hptr hchars =>
          .pure ⟨fun m' hm' => ?_, fun hm => (by cases hm)⟩
        cases hm'
        have hm : m.chars = [c1, '-', c2] := by
          rw [hchars₁, hchars₂, hchars₃, hc1, hdash, hc2] at hchars
          exact (List.append_cancel_right
            (show [c1, '-', c2] ++ t₃.chars = m.chars ++ t₃.chars from hchars)).symm
        refine ⟨hptr, t₃.chars, hchars, c1, c2, k₁, k₃, ?_, hm, hk₁, hk₃, ?_⟩
        · rw [hm]
          intro c hc
          simp only [List.mem_cons, List.not_mem_nil, or_false] at hc
          rcases hc with rfl | rfl | rfl
          · exact hsize₁
          · decide
          · exact hsize₃
        · rw [componentAsts_eq_inner charSetParser rfl]
          simp only [innerAsts, allAsts_append, allAsts_single, hasts₁, hasts₂, hasts₃]
          rfl

theorem yields_taggedRange (hends : text.Ends base) :
    Yields base (parseTagged (parseSomeOf charSetParser n) [] 4 text (.of text)) (Is 3 text) := by
  refine (hcall 4 text hends).bind fun v hv => .pure ⟨fun m hm => ?_, fun hm => hv.misses hm⟩
  obtain ⟨hptr, back, hback, c1, c2, m₁, m₂, hbytes, hfront, h₁, h₂, hasts⟩ := hv.takes m hm
  refine ⟨hptr, back, hback, c1, c2, .mk ⟨"range", m⟩ _, hbytes, hfront, .range h₁ h₂, ?_⟩
  have hm : v.matched? = some m := hm
  rw [hm, componentAsts]
  simp only [charSetParser, Parser.tag, allAsts_single]
  rw [hasts]

/-- A range, or else a character -/
theorem yields_piece (hends : text.Ends base) :
    Yields base (parseOr (parseSomeOf charSetParser n) [] text (.of text) [3, 10] [])
      (Is 2 text) := by
  simp only [parseOr]
  refine (hcall 3 text hends).bind fun v₁ hv₁ => ?_
  cases hm₁ : v₁.matched? with
  | some m₁ =>
    refine .pure ⟨fun m hm => ?_, fun hm => (by cases hm)⟩
    cases hm
    obtain ⟨hptr, back, hback, c1, c2, node, hbytes, hfront, hnode, hasts⟩ := hv₁.takes m₁ hm₁
    refine ⟨hptr, back, hback, hbytes, node, .range c1 c2, ?_, hnode, ?_⟩
    · rw [hfront]
      rfl
    · rw [componentAsts]
      simp only [charSetParser, Parser.tag, List.nil_append]
      rw [allAsts_single, hasts]
  | none =>
    -- so the first character is a piece by itself
    have hnorange : ¬ BeginsRange text.chars := hv₁.misses hm₁
    refine (hcall 10 text hends).bind fun v₂ hv₂ => ?_
    cases hm₂ : v₂.matched? with
    | none => exact .pure ⟨fun m hm => (by cases hm), fun _ => hv₂.misses hm₂⟩
    | some m₂ =>
      refine .pure ⟨fun m hm => ?_, fun hm => (by cases hm)⟩
      cases hm
      obtain ⟨hptr, back, hback, c, k, hsize, hc, hk, hasts⟩ := hv₂.takes m₂ hm₂
      have htext : text.chars = c :: back := by rw [hback, hc]; rfl
      refine ⟨hptr, back, hback, ?_, .mk ⟨"c", k⟩ [], .self c, ?_, .self hk, ?_⟩
      · rw [hc]
        exact fun d hd => List.mem_singleton.mp hd ▸ hsize
      · rw [htext] at hnorange
        rw [hc]
        exact pieces_self hnorange
      · rw [componentAsts]
        have hfailed : allAsts charSetParser ([] ++ [(⟨3, text⟩, v₁)]) = [] :=
          Reads.append_failed hm₁ [] text
        simp only [charSetParser, Parser.tag]
        rw [allAsts_append, hfailed, List.nil_append, allAsts_single, hasts]

/-- Piece after piece, up to the end -/
theorem yields_pieces (fuel : Nat) (front : List Char) (ps : List Piece) {rest : Str}
    {components : Components} (hbase : text.Ends base) (hends : rest.Ends text)
    (hfront : OneByte front) (htext : text.chars = front ++ rest.chars)
    (hpieces : pieces text.chars = ps ++ pieces rest.chars)
    (hasts : List.Forall₂ IsPiece (allAsts charSetParser components) ps) :
    Yields base (parseMore (parseSomeOf charSetParser n) [] 2 text fuel rest (.of rest) components)
      (Is 1 text) := by
  induction fuel generalizing rest components front ps with
  | zero => exact fun _ _ _ _ hrun => nomatch hrun
  | succ fuel ih =>
    rw [parseMore]
    refine (hcall 2 rest (hends.trans hbase)).bind fun v hv => ?_
    cases hm : v.matched? with
    | none =>
      -- only at the end there is no piece
      have hnil : rest.chars = [] := hv.misses hm
      refine .upTo hends fun m hptr hchars => .pure ⟨fun m' hm' => ?_, fun hm => (nomatch hm)⟩
      cases hm'
      rw [hnil, List.append_nil] at htext hchars
      refine ⟨hptr, [], by rw [List.append_nil, hchars], rfl, ?_, ?_⟩
      · rw [← hchars, htext]
        exact hfront
      · rw [← hchars, hpieces, hnil, pieces, List.append_nil]
        exact hasts
    | some m =>
      refine .behind (hv.begins hm) fun t ht hchars => ?_
      obtain ⟨hbytes, node, p, hp, hnode, hnodes⟩ := hv.takes_of_append hm hchars
      refine ih (front ++ m.chars) (ps ++ [p]) (ht.trans hends) (oneByte_append hfront hbytes)
        ?_ ?_ ?_
      · rw [htext, hchars, List.append_assoc]
      · rw [hpieces, hchars, hp, List.append_assoc]
        rfl
      · rw [allAsts_append, allAsts_single, hnodes]
        exact List.rel_append hasts (.cons hnode .nil)

theorem yields_string (hends : text.Ends base) :
    Yields base (parseAnd (parseSomeOf charSetParser n) [] text [1, 12] text (.of text) [])
      (Is 0 text) := by
  simp only [parseAnd]
  refine (hcall 1 text hends).bind fun v₁ hv₁ => ?_
  cases hm₁ : v₁.matched? with
  | none => exact (hv₁.misses hm₁).elim
  | some m₁ =>
    refine .behind (hv₁.begins hm₁) fun t₁ ht₁ hchars₁ => ?_
    obtain ⟨hnil, hbytes, hasts₁⟩ := hv₁.takes_of_append hm₁ hchars₁
    refine (hcall 12 t₁ (ht₁.trans hends)).bind fun v₂ hv₂ => ?_
    cases hm₂ : v₂.matched? with
    | none => exact absurd hnil (hv₂.misses hm₂)
    | some m₂ =>
      refine .behind (hv₂.begins hm₂) fun t₂ ht₂ hchars₂ => ?_
      obtain ⟨hend, hnil₂, hasts₂⟩ := hv₂.takes_of_append hm₂ hchars₂
      refine .upTo (ht₂.trans ht₁) fun m hptr hchars =>
        .pure ⟨fun m' hm' => ?_, fun hm => (by cases hm)⟩
      cases hm'
      have hsame : m.chars = m₁.chars := by
        rw [hnil₂, List.append_nil] at hchars
        rw [← hchars, hchars₁, hnil, List.append_nil]
      refine ⟨hptr, t₂.chars, hchars, hnil₂, by rw [hsame]; exact hbytes, ?_⟩
      rw [componentAsts_eq_inner charSetParser rfl, hsame]
      simp only [innerAsts, allAsts_append, allAsts_single, hasts₂, List.append_nil]
      exact hasts₁

theorem yields_parseSomeOf_ (p : Ref) (hends : text.Ends base) :
    Yields base (parseSomeOf_ n (parseSomeOf charSetParser n) (charSetParser p) text (.of text) [])
      (Is p text) := by
  match p with
  | 0 => exact yields_string hcall hends
  | 1 => exact yields_pieces hcall n [] [] hends (.refl text) (List.forall_mem_nil _) rfl rfl .nil
  | 2 => exact yields_piece hcall hends
  | 3 => exact yields_taggedRange hcall hends
  | 4 => exact yields_range hcall hends
  | 5 => exact yields_tagged hcall rfl (.inl rfl) (fun _ _ _ h => h) rfl hends
  | 6 => exact .lift fun v hv => is_anyChar hv (.inl rfl)
  | 7 => exact .lift fun v hv => is_dash hv
  | 8 => exact yields_tagged hcall rfl (.inr (.inl rfl)) (fun _ _ _ h => h) rfl hends
  | 9 => exact .lift fun v hv => is_anyChar hv (.inr (.inl rfl))
  | 10 => exact yields_tagged hcall rfl (.inr (.inr rfl)) (fun _ _ _ h => h) rfl hends
  | 11 => exact .lift fun v hv => is_anyChar hv (.inr (.inr rfl))
  | 12 => exact .lift fun v hv => is_endOfInput hv
  | p + 13 =>
    refine .lift_bind fun m hslice => .pure ⟨fun m' hm' => ?_, fun hm => (nomatch hm)⟩
    cases hm'
    cases text.sliceTo_zero.symm.trans hslice
    exact ⟨rfl, text.chars, rfl, trivial⟩

end Parsers

theorem yields_parseSomeOf (n : Nat) (p : Ref) {base text : Str} (hends : text.Ends base) :
    Yields base (parseSomeOf charSetParser n p text (.of text) []) (Is p text) := by
  induction n generalizing p text with
  | zero => exact fun _ _ _ _ hrun => nomatch hrun
  | succ n ih =>
    intro entries hagrees v entries' hrun
    rw [parseSomeOf_of] at hrun
    cases hlookup : entries.lookup (text.ptr, p) with
    | some w =>
      simp only [hlookup] at hrun
      cases hrun
      exact ⟨hagrees _ _ hlookup text hends rfl, hagrees⟩
    | none =>
      simp only [hlookup] at hrun
      obtain ⟨w, entries₁, hbody, hrun⟩ := run_bind_eq_ok.mp hrun
      cases hrun
      -- what comes of the body is entered
      obtain ⟨hw, hagrees₁⟩ :=
        yields_parseSomeOf_ (fun p text => ih p) p hends entries hagrees _ _ hbody
      refine ⟨hw, fun k u hk other hother hptr => ?_⟩
      rw [List.lookup_cons] at hk
      split at hk
      · next hkey =>
        obtain rfl := eq_of_beq hkey
        cases hk
        rw [hother.eq hends hptr]
        exact hw
      · exact hagrees₁ k u hk other hother hptr

/-- What `parse` gives: all characters have one byte, and the nodes say the pieces. -/
theorem parse_charSetParser {n : Nat} {chars : List Char} {v : Outcome}
    (h : parse charSetParser n 0 chars = .ok v) :
    OneByte chars ∧ ∃ m asts, v.matched? = some m ∧
      allAsts charSetParser [(⟨0, ⟨0, chars⟩⟩, v)] = asts ∧
        List.Forall₂ IsPiece asts (pieces chars) := by
  obtain ⟨x, hrun, hx⟩ := bind_eq_ok.mp h
  obtain rfl := Except.ok.inj hx
  have hbase : Str.Ends ⟨0, chars⟩ ⟨0, chars⟩ := .refl _
  obtain ⟨hv, -⟩ := yields_parseSomeOf n 0 hbase [] (fun _ _ hnil => nomatch hnil) _ _ hrun
  cases hm : x.1.matched? with
  | none => exact (hv.misses hm).elim
  | some m =>
    obtain ⟨-, back, hback, rfl, hbytes, hasts⟩ := hv.takes m hm
    have hchars : chars = m.chars := hback.trans (List.append_nil _)
    rw [← hchars] at hbytes hasts
    exact ⟨hbytes, m, _, rfl, allAsts_single .., hasts⟩

/-! ## `parse_charset` -/

/-- `unwrap` -/
def unwrap {α : Type} : Option α → Result α
  | some x => .ok x
  | none => .error (.panic .unwrap)

/-- The nodes that have the tag -/
def select (tag : String) (ast : AST) : Result (List AST) :=
  (Ruf.selectByValue ast fun v => v.tag = tag).mapError fun
    | .assertion => .panic .assertion
    | .index => .panic .index

/-- The characters of `c1..=c2` -/
def charsFromTo (c1 c2 : Char) : List Char :=
  ((List.range' c1.toNat (c2.toNat + 1 - c1.toNat)).filter fun n => n.isValidChar).map Char.ofNat

/-- The first character of a node -/
def firstChar (ast : AST) : Result Char := unwrap ast.value.text.chars.head?

/-- What a range puts into the set -/
def rangeChars (rangeAst : AST) : Result (List Char) := do
  let c1 ← firstChar (← unwrap (← select "c1" rangeAst).head?)
  let c2 ← firstChar (← unwrap (← select "c2" rangeAst).head?)
  if c1 ≤ c2 then return charsFromTo c1 c2 ++ [c2] else return [c1, '-', c2]

/-- `parse_charset` -/
def parseCharset (fuel : Nat) (chars : List Char) : Result (List Char) := do
  let x ← getAst charSetParser "root" ⟨0, ⟨0, chars⟩⟩ (← parse charSetParser fuel 0 chars)
  match x with
  | .ok ast =>
    let ranges ← (← select "range" ast).mapM rangeChars
    let others ← (← select "c" ast).mapM firstChar
    return ranges.flatten ++ others
  | .error _ => throw (.panic .neverReached)

theorem mem_charsFromTo {c1 c2 c : Char} : c ∈ charsFromTo c1 c2 ↔ c1 ≤ c ∧ c ≤ c2 := by
  have hle : ∀ a b : Char, a ≤ b ↔ a.toNat ≤ b.toNat := fun _ _ => Iff.rfl
  simp only [charsFromTo, List.mem_map, List.mem_filter, List.mem_range'_1, decide_eq_true_iff, hle]
  constructor
  · rintro ⟨n, ⟨hn, hvalid⟩, rfl⟩
    have hsame : (Char.ofNat n).toNat = n := by
      rw [Char.ofNat, dif_pos hvalid]
      rfl
    omega
  · intro h
    exact ⟨c.toNat, ⟨by omega, c.valid⟩, c.ofNat_toNat⟩

theorem select_eq (tag : String) (ast : AST) :
    select tag ast = .ok (Ruf.chosenAmong (fun v : Item => v.tag = tag) ast.children) := by
  rw [select, Ruf.selectByValue_eq]
  rfl

/-- What a range puts into the set are the characters that it stands for. -/
theorem rangeChars_eq {matched m₁ m₂ : Str} {c1 c2 : Char} (h₁ : m₁.chars = [c1])
    (h₂ : m₂.chars = [c2]) :
    ∃ cs, rangeChars (.mk ⟨"range", matched⟩ [.mk ⟨"c1", m₁⟩ [], .mk ⟨"c2", m₂⟩ []]) = .ok cs ∧
      ∀ c, c ∈ cs ↔ (Piece.range c1 c2).Names c := by
  have hfirst : ∀ (tag : String) (m : Str) (c : Char), m.chars = [c] →
      firstChar (.mk ⟨tag, m⟩ []) = .ok c := by
    intro tag m c hc
    rw [firstChar, Ruf.Node.value, hc]
    rfl
  have hrange : rangeChars (.mk ⟨"range", matched⟩ [.mk ⟨"c1", m₁⟩ [], .mk ⟨"c2", m₂⟩ []]) =
      if c1 ≤ c2 then .ok (charsFromTo c1 c2 ++ [c2]) else .ok [c1, '-', c2] := by
    rw [rangeChars, select_eq, select_eq]
    simp only [Ruf.Node.children, Ruf.chosenAmong, Ruf.chosen]
    simp [unwrap, hfirst _ _ _ h₁, hfirst _ _ _ h₂, bind, Except.bind]
    rfl
  rw [hrange]
  by_cases h : c1 ≤ c2
  · refine ⟨_, if_pos h, fun c => ?_⟩
    rw [List.mem_append, mem_charsFromTo, List.mem_singleton, Piece.Names, if_pos h]
    exact or_iff_left_of_imp fun hc => by rw [hc]; exact ⟨h, le_refl _⟩
  · refine ⟨_, if_neg h, fun c => ?_⟩
    rw [Piece.Names, if_neg h]
    simp

/-- What the loops over the nodes put into the set -/
theorem mapM_isPiece {asts : List AST} {ps : List Piece} (h : List.Forall₂ IsPiece asts ps) :
    ∃ ranges others,
      (Ruf.chosenAmong (fun v : Item => v.tag = "range") asts).mapM rangeChars = .ok ranges ∧
      (Ruf.chosenAmong (fun v : Item => v.tag = "c") asts).mapM firstChar = .ok others ∧
      ∀ c, c ∈ ranges.flatten ++ others ↔ Named ps c := by
  induction h with
  | nil => exact ⟨[], [], rfl, rfl, fun c => by simp⟩
  | @cons node p asts ps hnode _ ih =>
    obtain ⟨ranges, others, hranges, hothers, hmem⟩ := ih
    cases hnode with
    | @range matched m₁ m₂ c1 c2 h₁ h₂ =>
      obtain ⟨cs, hcs, hnames⟩ := @rangeChars_eq matched m₁ m₂ c1 c2 h₁ h₂
      refine ⟨cs :: ranges, others, ?_, ?_, fun c => ?_⟩
      · simp only [Ruf.chosenAmong, Ruf.chosen]
        simp [hcs, hranges]
        rfl
      · simp only [Ruf.chosenAmong, Ruf.chosen]
        simpa using hothers
      · rw [List.flatten_cons, List.append_assoc, List.mem_append, named_cons, hnames, hmem]
    | @self matched c1 hc =>
      refine ⟨ranges, c1 :: others, ?_, ?_, fun c => ?_⟩
      · simp only [Ruf.chosenAmong, Ruf.chosen]
        simpa using hranges
      · simp only [Ruf.chosenAmong, Ruf.chosen]
        simp [firstChar, Ruf.Node.value, hc, unwrap, hothers]
        rfl
      · rw [named_cons, ← hmem, Piece.Names]
        simp only [List.mem_append, List.mem_cons]
        tauto

/-- Where parsing returns so does `parse_charset`, and gives what the pieces name. -/
theorem parseCharset_of_parse {n : Nat} {chars : List Char} {v : Outcome}
    (h : parse charSetParser n 0 chars = .ok v) :
    OneByte chars ∧ ∃ set, parseCharset n chars = .ok set ∧
      ∀ c, c ∈ set ↔ Named (pieces chars) c := by
  obtain ⟨hbytes, m, asts, hm, hall, hasts⟩ := parse_charSetParser h
  obtain ⟨ranges, others, hranges, hothers, hmem⟩ := mapM_isPiece hasts
  refine ⟨hbytes, ranges.flatten ++ others, ?_, hmem⟩
  refine bind_eq_ok.mpr ⟨v, h, bind_eq_ok.mpr ⟨.ok (.mk ⟨"root", m⟩ asts), ?_, ?_⟩⟩
  · rw [getAst_of_matched _ _ _ hm, hall]
  · exact bind_eq_ok.mpr ⟨_, select_eq .., bind_eq_ok.mpr ⟨ranges, hranges,
      bind_eq_ok.mpr ⟨_, select_eq .., bind_eq_ok.mpr ⟨others, hothers, rfl⟩⟩⟩⟩

/-! ## Parsing returns -/

theorem charSetParser_ne_backRef (p : Ref) (id : String) : charSetParser p ≠ .backRef id := by
  match p with
  | 0 | 1 | 2 | 3 | 4 | 5 | 6 | 7 | 8 | 9 | 10 | 11 | 12 | _ + 13 => exact nofun

theorem charSetParser_ne_backRefs (p q : Ref) (inside : List BackReffable) :
    charSetParser p ≠ .backRefs inside q := by
  match p with
  | 0 | 1 | 2 | 3 | 4 | 5 | 6 | 7 | 8 | 9 | 10 | 11 | 12 | _ + 13 => exact nofun

/-- A parser calls others of higher number. -/
theorem lt_of_mem_calls (p : Nat) : ∀ q ∈ (charSetParser p).calls, (p < q ∧ q < 13 : Prop) := by
  match p with
  | 0 | 1 | 2 | 3 | 4 | 5 | 6 | 7 | 8 | 9 | 10 | 11 | 12 => decide
  | _ + 13 => exact fun _ h => nomatch h

/-- The parsers below the repetition are not empty. -/
theorem not_mayBeEmpty {p : Ref} (h : MayBeEmpty charSetParser id p) :
    p ∉ [2, 3, 4, 5, 6, 8, 9, 10, 11] := by
  induction h with
  | and hp h ih =>
    intro hmem
    simp only [List.mem_cons, List.not_mem_nil, or_false] at hmem
    rcases hmem with rfl | rfl | rfl | rfl | rfl | rfl | rfl | rfl | rfl <;> cases hp
    exact ih 5 (List.mem_cons_self ..) (by decide)
  | or hp hq h ih =>
    intro hmem
    simp only [List.mem_cons, List.not_mem_nil, or_false] at hmem
    rcases hmem with rfl | rfl | rfl | rfl | rfl | rfl | rfl | rfl | rfl <;> cases hp
    exact ih ((by decide : ∀ q ∈ [3, 10], q ∈ [2, 3, 4, 5, 6, 8, 9, 10, 11]) _ hq)
  | tagged hp h ih =>
    intro hmem
    simp only [List.mem_cons, List.not_mem_nil, or_false] at hmem
    rcases hmem with rfl | rfl | rfl | rfl | rfl | rfl | rfl | rfl | rfl <;> cases hp <;>
      exact ih (by decide)
  | none hp | literal hp | endOfInput hp | atLeastOne hp | zeroOrMore hp | xUntilY hp
  | balancedUntilY hp | backRefs hp | backRef hp | switch hp | lookingAt hp | not hp =>
    intro hmem
    simp only [List.mem_cons, List.not_mem_nil, or_false] at hmem
    rcases hmem with rfl | rfl | rfl | rfl | rfl | rfl | rfl | rfl | rfl <;> cases hp

theorem wellFormed_charSetParser : WellFormed charSetParser 0 id where
  named p backrefs id _ hp := absurd hp (charSetParser_ne_backRef p id)
  consumes p q hq hempty := by
    match p with
    | 1 =>
      obtain rfl := List.mem_singleton.mp hq
      exact absurd (List.mem_cons_self ..) (not_mayBeEmpty hempty)
    | 0 | 2 | 3 | 4 | 5 | 6 | 7 | 8 | 9 | 10 | 11 | 12 | _ + 13 => exact nomatch hq
  leftCalls := by
    -- the numbers go up along calls
    have hcalls : ∀ q p : Nat, LeftCalls charSetParser id q p → 13 - q < 13 - p := by
      intro q p h
      rcases h.mem_calls with hq | ⟨inside, hp⟩ | ⟨id, hp⟩
      · obtain ⟨hlt, hle⟩ := lt_of_mem_calls p q hq
        exact Nat.sub_lt_sub_left (Nat.lt_trans hlt hle) hlt
      · exact absurd hp (charSetParser_ne_backRefs p q inside)
      · exact absurd hp (charSetParser_ne_backRef p id)
    exact Subrelation.wf (fun {q p} h => hcalls q p h) (measure fun p : Ref => 13 - p).wf

theorem parse_returns {chars : List Char} (h : OneByte chars) :
    ∃ v N, ∀ n ≥ N, parse charSetParser n 0 chars = .ok v := by
  have hreturns : Returns charSetParser 0 chars :=
    returns_of_narrow wellFormed_charSetParser fun _ _ _ c hc _ => h c hc
  obtain ⟨v, N, hN, -⟩ := hreturns
  exact ⟨v, N, hN⟩

/-! ## What the notation means -/

theorem of_parseCharset {n : Nat} {chars set : List Char} (h : parseCharset n chars = .ok set) :
    OneByte chars ∧ ∀ c, c ∈ set ↔ Named (pieces chars) c := by
  obtain ⟨v, hv, -⟩ := bind_eq_ok.mp h
  obtain ⟨hbytes, set', hset', hmem⟩ := parseCharset_of_parse hv
  cases hset'.symm.trans h
  exact ⟨hbytes, hmem⟩

/-- A parser takes the first character of a text. -/
def Accepts (p : Parser) (text : List Char) : Prop :=
  ∃ n v m, parse (fun _ => p) n 0 text = .ok v ∧ v.matched? = some m

/-- A parser of one character accepts those that it is to take and that have one byte. -/
theorem accepts_iff {p : Parser} {takes : Char → Bool} (hp : p.takes? = some takes) (c : Char)
    (rest : List Char) : Accepts p (c :: rest) ↔ takes c = true ∧ c.utf8Size = 1 := by
  have hbody : ∀ n call cache backrefs, parseSomeOf_ n call p ⟨0, c :: rest⟩ cache backrefs =
      liftM (parseOne takes ⟨0, c :: rest⟩) := by
    intro n call cache backrefs
    cases p <;> cases hp <;> rfl
  have hparse : ∀ n, parse (fun _ => p) (n + 1) 0 (c :: rest) = parseOne takes ⟨0, c :: rest⟩ := by
    intro n
    rw [parse]
    change (do let x ← parseSomeOf (fun _ => p) (n + 1) 0 ⟨0, c :: rest⟩ (.of ⟨0, c :: rest⟩) [] []
               return x.1 : Result Outcome) = _
    rw [parseSomeOf_of]
    simp only [List.lookup_nil, hbody]
    cases parseOne takes ⟨0, c :: rest⟩ <;> rfl
  constructor
  · rintro ⟨n, v, m, hv, hm⟩
    cases n with
    | zero => cases hv
    | succ n =>
      rw [hparse] at hv
      rcases parseOne_eq_ok hv with ⟨d, back, htext, htakes, hsize, -⟩ | ⟨why, rfl, -⟩
      · cases htext
        exact ⟨htakes, hsize⟩
      · cases hm
  · rintro ⟨htakes, hsize⟩
    have hone : byteLen [c] = 1 := by rw [byteLen_cons, byteLen_nil, hsize]
    have hslice : Str.sliceTo ⟨0, c :: rest⟩ 1 = .ok ⟨0, [c]⟩ := by
      rw [← hone]
      exact sliceTo_append rfl
    refine ⟨1, .leaf ⟨0, [c]⟩ none, _, ?_, rfl⟩
    rw [hparse, parseOne]
    simp only [htakes, if_true, hslice]
    rfl

/-- `parse_charset` terminates with the characters that the comment says, and of a character at
the beginning of the text just one of `one_of_chars` and `any_char_except` accepts it. -/
def MeansDocumented (chars text : List Char) : Prop :=
  ∃ set, (∃ N, ∀ n ≥ N, parseCharset n chars = .ok set) ∧
    (∀ c, c ∈ set ↔ Named (documented chars) c) ∧
    (text ≠ [] → (Accepts (.oneOfChars set) text ↔ ¬ Accepts (.anyCharExcept set) text))

theorem accepts_compl_iff (set : List Char) (c : Char) (rest : List Char) :
    (Accepts (.oneOfChars set) (c :: rest) ↔ ¬ Accepts (.anyCharExcept set) (c :: rest)) ↔
      c.utf8Size = 1 := by
  rw [accepts_iff rfl, accepts_iff rfl]
  simp only [decide_eq_true_iff]
  tauto

/-- The notation means what its comment says for just the strings of characters of one byte in
which no `-` at the beginning or the end makes a difference; and of the characters of one byte
just one of the two parsers accepts each. -/
theorem meansDocumented_iff (chars text : List Char) :
    MeansDocumented chars text ↔
      (OneByte chars ∧ Harmless chars) ∧ ∀ c rest, text = c :: rest → c.utf8Size = 1 := by
  constructor
  · rintro ⟨set, ⟨N, hN⟩, hset, haccepts⟩
    obtain ⟨hbytes, hmem⟩ := of_parseCharset (hN N (Nat.le_refl N))
    refine ⟨⟨hbytes, (harmless_iff chars).mp fun c => (hmem c).symm.trans (hset c)⟩, ?_⟩
    rintro c rest rfl
    exact (accepts_compl_iff set c rest).mp (haccepts (List.cons_ne_nil _ _))
  · rintro ⟨⟨hbytes, hharmless⟩, htext⟩
    obtain ⟨v, N, hN⟩ := parse_returns hbytes
    obtain ⟨-, set, hset, hmem⟩ := parseCharset_of_parse (hN N (Nat.le_refl N))
    refine ⟨set, ⟨N, fun n hn => ?_⟩,
      fun c => (hmem c).trans ((harmless_iff chars).mpr hharmless c), fun hne => ?_⟩
    · rw [parseCharset, hN n hn, ← hN N (Nat.le_refl N)]
      exact hset
    · obtain ⟨c, rest, rfl⟩ := List.exists_cons_of_ne_nil hne
      exact (accepts_compl_iff set c rest).mpr (htext c rest rfl)

/-- A string of one character that has two bytes, and `!--`, which names what is between too -/
theorem not_meansDocumented :
    ¬ MeansDocumented ['é'] ['a'] ∧ ¬ MeansDocumented ['!', '-', '-'] ['a'] := by
  constructor
  · rintro ⟨set, ⟨N, hN⟩, -, -⟩
    -- whatever is parsed has characters of one byte only
    obtain ⟨hbytes, -⟩ := of_parseCharset (hN N (Nat.le_refl N))
    exact absurd (hbytes 'é' (List.mem_cons_self ..)) (by decide)
  · rintro ⟨set, ⟨N, hN⟩, hset, -⟩
    obtain ⟨-, hmem⟩ := of_parseCharset (hN N (Nat.le_refl N))
    have hrange : (Piece.range '!' '-').Names '+' := by
      rw [Piece.Names, if_pos (by decide)]
      decide
    have hplus : Named (documented ['!', '-', '-']) '+' :=
      (hset '+').mp ((hmem '+').mpr ⟨_, List.mem_cons_self .., hrange⟩)
    simp [documented, readOn, Piece.Names] at hplus

end Urnest.RufParser
