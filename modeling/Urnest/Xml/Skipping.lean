import Mathlib
import Urnest.Xml.TagText

/-!
# White space and comments

What there is to skip is a sequence of white space and of comments that are closed at the first
`-->` (`Skips`), and all of it is to be skipped (`SkipsExactly`). For comments that are opened
by `<--` that is what `skipWhiteSpaceAndComments` does (`skipsExactly_skip`): its loop is right.
But XML opens a comment by `<!--`, so that no comment of XML is skipped, and what is no comment
is.
-/

namespace Urnest.Xml

/-! ## What there is to skip -/

/-- The content of a comment has no `-->` that would close it before. -/
def Unclosed (body : List Char) : Prop := ¬['-', '-', '>'] <:+: body ++ ['-', '-']

/-- The text begins with a comment. -/
def BeginsWithComment (opening : List Char) (text : Text) : Prop :=
  ∃ body rest, Unclosed body ∧ text = opening ++ (body ++ (['-', '-', '>'] ++ rest))

/-- From the one text to the other there are white space and comments only. -/
inductive Skips (opening : List Char) : Text → Text → Prop where
  | nothing (text : Text) : Skips opening text text
  | space {c : Char} {text rest : Text} :
    isspace c = true → Skips opening text rest → Skips opening (c :: text) rest
  | comment {body : List Char} {text rest : Text} :
    Unclosed body → Skips opening text rest →
      Skips opening (opening ++ (body ++ (['-', '-', '>'] ++ text))) rest

/-- The white space and comments that are skipped are the longest that the text begins with. -/
def SkipsExactly (opening : List Char) (text rest : Text) : Prop :=
  Skips opening text rest ∧ ∀ rest', Skips opening text rest' → rest.length ≤ rest'.length

/-! ## The parsers -/

theorem parseLiteral_eq_some {literal : List Char} {text rest : Text} :
    parseLiteral literal text = some rest ↔ text = literal ++ rest := by
  fun_induction parseLiteral literal text with
  | case1 text => exact Option.some_inj
  | case2 c literal text ih => rw [ih, List.cons_append, List.cons.injEq, and_iff_right rfl]
  | case3 c literal x text hne =>
    exact iff_of_false (by rintro ⟨⟩) fun h => hne (List.cons.inj h).1
  | case4 => exact iff_of_false (by rintro ⟨⟩) (by rintro ⟨⟩)

theorem unclosed_nil : Unclosed [] := fun hinfix => absurd hinfix.length_le (by decide)

/-- In a body with the `--` behind it, a `-->` in front is one of the text. -/
theorem closing_isPrefix_iff {c : Char} {body rest : Text} :
    ['-', '-', '>'] <+: c :: body ++ ['-', '-'] ↔
      ∃ rest', parseLiteral ['-', '-', '>'] (c :: body ++ (['-', '-', '>'] ++ rest)) =
        some rest' := by
  have hparts : c :: body ++ (['-', '-', '>'] ++ rest) =
      (c :: body ++ ['-', '-']) ++ ('>' :: rest) := by
    rw [List.append_assoc]
    rfl
  constructor
  · rintro ⟨more, hmore⟩
    refine ⟨more ++ '>' :: rest, parseLiteral_eq_some.mpr ?_⟩
    rw [hparts, ← hmore, List.append_assoc]
  · rintro ⟨rest', hrest'⟩
    rw [parseLiteral_eq_some, hparts] at hrest'
    refine List.prefix_of_prefix_length_le ⟨rest', hrest'.symm⟩ (List.prefix_append _ _) ?_
    rw [List.length_append, List.length_cons]
    exact Nat.le_add_left ..

theorem commentEnd_eq_some {text rest : Text} :
    commentEnd text = some rest ↔
      ∃ body, Unclosed body ∧ text = body ++ (['-', '-', '>'] ++ rest) := by
  induction text with
  | nil =>
    refine iff_of_false (nomatch ·) ?_
    rintro ⟨body, -, heq⟩
    exact absurd heq (by simp)
  | cons c text ih =>
    rw [commentEnd, Option.or_eq_some_iff]
    constructor
    · rintro (hliteral | ⟨hnone, hend⟩)
      · have htext := parseLiteral_eq_some.mp hliteral
        exact ⟨[], unclosed_nil, htext⟩
      · obtain ⟨body, hbody, rfl⟩ := ih.mp hend
        refine ⟨c :: body, fun hinfix => ?_, rfl⟩
        obtain hstarts | hinfix := List.infix_cons_iff.mp hinfix
        · obtain ⟨rest', hrest'⟩ := closing_isPrefix_iff.mp hstarts
          cases hnone.symm.trans hrest'
        · exact hbody hinfix
    · rintro ⟨body, hbody, heq⟩
      cases body with
      | nil => exact .inl (parseLiteral_eq_some.mpr heq)
      | cons d body =>
        obtain ⟨rfl, htext⟩ := List.cons.inj heq
        refine .inr ⟨Option.eq_none_iff_forall_ne_some.mpr fun rest' hrest' => hbody ?_, ?_⟩
        · rw [heq] at hrest'
          exact (closing_isPrefix_iff.mpr ⟨rest', hrest'⟩).isInfix
        · exact ih.mpr ⟨body, fun hinfix => hbody (List.infix_cons_iff.mpr (.inr hinfix)), htext⟩

theorem parseComment_eq_some {text rest : Text} :
    parseComment text = some rest ↔ ∃ body, Unclosed body ∧
      text = ['<', '-', '-'] ++ (body ++ (['-', '-', '>'] ++ rest)) := by
  rw [parseComment, Option.bind_eq_bind, Option.bind_eq_some_iff]
  simp only [parseLiteral_eq_some, commentEnd_eq_some]
  constructor
  · rintro ⟨i, rfl, body, hbody, rfl⟩
    exact ⟨body, hbody, rfl⟩
  · rintro ⟨body, hbody, rfl⟩
    exact ⟨_, rfl, body, hbody, rfl⟩

/-! ## What is skipped -/

namespace Skips

variable {opening : List Char} {text rest : Text}

theorem isSuffix (h : Skips opening text rest) : rest <:+ text := by
  induction h with
  | nothing => exact List.suffix_rfl
  | space _ _ ih => exact ih.trans (List.suffix_cons ..)
  | comment _ _ ih =>
    rw [← List.append_assoc, ← List.append_assoc]
    exact ih.trans (List.suffix_append ..)

theorem of_dropWhile (h : Skips opening (text.dropWhile isspace) rest) :
    Skips opening text rest := by
  induction text with
  | nil => exact h
  | cons c text ih =>
    rw [List.dropWhile_cons] at h
    split_ifs at h with hc
    · exact .space hc (ih h)
    · exact h

/-- Skipping stops within the white space that the text begins with, or goes on behind it. -/
theorem dropWhile (hopening : opening.head? = some '<') (h : Skips opening text rest) :
    Skips opening (text.dropWhile isspace) rest ∨
      (text.dropWhile isspace).length ≤ rest.length := by
  induction h with
  | nothing text => exact .inr (List.dropWhile_suffix _).length_le
  | space hc _ ih => rwa [List.dropWhile_cons_of_pos hc]
  | comment hbody h _ =>
    obtain ⟨c, rfl⟩ : ∃ more, opening = '<' :: more := by
      cases opening with
      | nil => cases hopening
      | cons c more => exact ⟨more, by rw [Option.some.inj hopening]⟩
    rw [List.cons_append, List.dropWhile_cons_of_neg (by decide)]
    exact .inl (.comment hbody h)

end Skips

section

variable {opening : List Char} {text rest : Text}

theorem dropWhile_isspace_head {c : Char} {more : Text}
    (h : text.dropWhile isspace = c :: more) : isspace c = false := by
  have hne : text.dropWhile isspace ≠ [] := h ▸ List.cons_ne_nil c more
  have hhead := List.head_dropWhile_not isspace hne
  simpa only [h, List.head_cons] using hhead

/-- Without a comment behind it, the white space that the text begins with is all. -/
theorem skipsExactly_of_not_begins (hopening : opening.head? = some '<')
    (h : ¬BeginsWithComment opening (text.dropWhile isspace)) :
    SkipsExactly opening text (text.dropWhile isspace) := by
  refine ⟨.of_dropWhile (.nothing _), fun rest' hrest' => ?_⟩
  obtain hskips | hle := hrest'.dropWhile hopening
  · generalize hr : text.dropWhile isspace = r at hskips h ⊢
    cases hskips with
    | nothing => exact Nat.le_refl _
    | space hc _ => exact absurd hc (Bool.eq_false_iff.mp (dropWhile_isspace_head hr))
    | comment hbody _ => exact absurd ⟨_, _, hbody, rfl⟩ h
  · exact hle

theorem SkipsExactly.unique {rest' : Text} (h : SkipsExactly opening text rest)
    (h' : SkipsExactly opening text rest') : rest = rest' := by
  have hlength := Nat.le_antisymm (h.2 rest' h'.1) (h'.2 rest h.1)
  exact (List.suffix_of_suffix_length_le h.1.isSuffix h'.1.isSuffix hlength.le).eq_of_length hlength

/-- A comment that follows white space is skipped. -/
theorem SkipsExactly.length_lt (h : SkipsExactly opening text rest)
    (hbegins : BeginsWithComment opening (text.dropWhile isspace)) :
    rest.length < (text.dropWhile isspace).length := by
  obtain ⟨body, rest', hbody, heq⟩ := hbegins
  have hle := h.2 rest' (.of_dropWhile (heq ▸ .comment hbody (.nothing rest')))
  rw [heq]
  simp only [List.length_append, List.length_cons]
  omega

end

/-- But for how comments are opened, the loop is right. -/
theorem skipsExactly_skip (text : Text) :
    SkipsExactly ['<', '-', '-'] text (skipWhiteSpaceAndComments text) := by
  fun_induction skipWhiteSpaceAndComments text with
  | case1 text hnone =>
    obtain ⟨hspace, hcomment⟩ := Option.or_eq_none_iff.mp hnone
    refine ⟨.nothing text, fun rest' hrest' => ?_⟩
    cases hrest' with
    | nothing => exact Nat.le_refl _
    | space hc _ => simp [parseWhiteSpace, hc] at hspace
    | comment hbody _ =>
      cases hcomment.symm.trans (parseComment_eq_some.mpr ⟨_, hbody, rfl⟩)
  | case2 text rest hsome ih =>
    obtain ⟨hskips, hlongest⟩ := ih
    obtain hspace | ⟨hspace, hcomment⟩ := Option.or_eq_some_iff.mp hsome
    · cases text with
      | nil => cases hspace
      | cons c text =>
        rw [parseWhiteSpace] at hspace
        split_ifs at hspace with hc
        obtain rfl := Option.some.inj hspace
        rw [← List.dropWhile_cons_of_pos hc] at hskips hlongest ⊢
        refine ⟨.of_dropWhile hskips, fun rest' hrest' => ?_⟩
        obtain hrest' | hle := hrest'.dropWhile rfl
        · exact hlongest rest' hrest'
        · exact (length_skipWhiteSpaceAndComments _).trans hle
    · obtain ⟨body, hbody, rfl⟩ := parseComment_eq_some.mp hcomment
      refine ⟨.comment hbody hskips, fun rest' hrest' => ?_⟩
      generalize htext : ['<', '-', '-'] ++ (body ++ (['-', '-', '>'] ++ rest)) = text at *
      cases hrest' with
      | nothing =>
        have hlength := length_parseComment hcomment
        exact (length_skipWhiteSpaceAndComments rest).trans hlength.le
      | space hc _ => simp [parseWhiteSpace, hc] at hspace
      | comment hbody' h =>
        -- a comment is closed in one place
        obtain rfl := Option.some.inj
          (hcomment.symm.trans (parseComment_eq_some.mpr ⟨_, hbody', rfl⟩))
        exact hlongest rest' h

/-- Exactly what is white space and comments of XML is skipped if and only if neither such a
comment nor one opened by `<--` follows the white space that the text begins with. -/
theorem skipsExactly_iff (text : Text) :
    SkipsExactly ['<', '!', '-', '-'] text (skipWhiteSpaceAndComments text) ↔
      ¬BeginsWithComment ['<', '!', '-', '-'] (text.dropWhile isspace) ∧
        ¬BeginsWithComment ['<', '-', '-'] (text.dropWhile isspace) := by
  have hcode := skipsExactly_skip text
  constructor
  · intro h
    have hxml : ¬BeginsWithComment ['<', '!', '-', '-'] (text.dropWhile isspace) := by
      intro hbegins
      have hother : ¬BeginsWithComment ['<', '-', '-'] (text.dropWhile isspace) := by
        obtain ⟨body, rest, -, heq⟩ := hbegins
        rintro ⟨body', rest', -, heq'⟩
        cases heq.symm.trans heq'
      have hstays := hcode.unique (skipsExactly_of_not_begins rfl hother)
      exact (h.length_lt hbegins).ne (congrArg List.length hstays)
    refine ⟨hxml, fun hbegins => ?_⟩
    have hstays := h.unique (skipsExactly_of_not_begins rfl hxml)
    exact (hcode.length_lt hbegins).ne (congrArg List.length hstays)
  · rintro ⟨hxml, hother⟩
    rw [hcode.unique (skipsExactly_of_not_begins rfl hother)]
    exact skipsExactly_of_not_begins rfl hxml

/-- `<!---->` -/
theorem not_skipsExactly : ¬∀ text,
    SkipsExactly ['<', '!', '-', '-'] text (skipWhiteSpaceAndComments text) := by
  intro h
  obtain ⟨-, hlongest⟩ := h "<!---->".toList
  have hstays : skipWhiteSpaceAndComments "<!---->".toList = "<!---->".toList := by
    rw [skipWhiteSpaceAndComments]
    rfl
  have hcomment : Skips ['<', '!', '-', '-'] "<!---->".toList [] :=
    .comment unclosed_nil (.nothing [])
  exact absurd (hlongest [] hcomment) (by rw [hstays]; decide)

end Urnest.Xml
