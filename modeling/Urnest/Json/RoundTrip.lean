import Urnest.Json.Series

/-!
# What is formatted is parsed

The text of an element begins with a character that tells its kind, so that the alternatives
in front of the one that reads it refuse. By recursion on the element, what it is formatted
as reads as that element (`reads_tree`).
-/

namespace Urnest.Json

open Lib Hcp Hcp.Parsing Utf8 Json.Tree

/-! ## ASCII -/

/-- A text of characters -/
def IsText (out : List UInt8) : Prop := ∃ n, Characters out n

theorem IsText.append {x y : List UInt8} (hx : IsText x) (hy : IsText y) : IsText (x ++ y) := by
  obtain ⟨n, hn⟩ := hx
  obtain ⟨m, hm⟩ := hy
  exact ⟨n + m, hn.append hm⟩

theorem isText_value (s : Utf8String) : IsText s.value := ⟨s.size, s.characters⟩

theorem encodeCodePoint_ascii {b : UInt8} (h : b < 0x80) : encodeCodePoint b.toUInt32 = .ok [b] := by
  have hlt : b.toNat < 0x80 := UInt8.lt_iff_toNat_lt.mp h
  have hscalar : Scalar b.toUInt32.toNat := by
    rw [UInt8.toNat_toUInt32, Scalar]
    omega
  rw [encodeCodePoint_of_scalar hscalar, UInt8.toNat_toUInt32, utf8, if_pos hlt, UInt8.ofNat_toNat]

theorem isText_ascii {x : List Char} (h : ∀ c ∈ x, c.toNat < 0x80) : IsText (bytes x) := by
  induction x with
  | nil => exact ⟨0, .nil⟩
  | cons c x ih =>
    obtain ⟨hc, hx⟩ := List.forall_mem_cons.mp h
    obtain ⟨n, hn⟩ := ih hx
    have hb : UInt8.ofNat c.toNat < 0x80 := by
      rw [UInt8.lt_iff_toNat_lt, toNat_ofNat (by omega)]
      exact hc
    exact ⟨n + 1, Characters.cons (encodeCodePoint_ascii hb) hn⟩

theorem chars_bytes {x : List Char} (h : ∀ c ∈ x, c.toNat < 0x80) : chars (bytes x) = x := by
  have hid : x.map (char ∘ fun c => UInt8.ofNat c.toNat) = x.map id := by
    refine List.map_congr_left fun c hc => ?_
    have hlt := h c hc
    rw [Function.comp_apply, char, toNat_ofNat (by omega), Char.ofNat_toNat, id]
  rw [chars, bytes, List.map_map, hid, List.map_id]

/-! ## The alternatives -/

section Alternatives

variable {text : List UInt8} {i : Nat} {c : Char}

/-- The text goes on with the character. -/
def Next (text : List UInt8) (i : Nat) (c : Char) : Prop := ((chars text).drop i).head? = some c

variable (h : Next text i c)

include h

theorem Next.eq {d : Char} (hd : d ∈ ((parsing text).text.drop i).head?) : d = c :=
  (Option.some.inj (h.symm.trans hd)).symm

theorem refuses_word {type : ItemType} {name x : String} {d : Char} {ds : List Char}
    (hx : x.toList = d :: ds) (hc : c ≠ d) :
    (parsing text).Refuses (.and () (named type name (parseLiteral x)) [eatWhite]) i :=
  refuses_and (refuses_named (refuses_literal_head hx fun _ he => h.eq he ▸ hc))

theorem refuses_string (hc : c ≠ '"') : (parsing text).Refuses string i := by
  refine refuses_and (refuses_stringLiteral fun b hb heq => hc ?_)
  rw [Next, chars, ← List.map_drop, List.head?_map, show (text.drop i).head? = some b from hb, heq] at h
  exact (Option.some.inj h).symm

theorem refuses_number (hminus : c ≠ '-') (hdigit : isDigit c = false) :
    (parsing text).Refuses number i := by
  have hsign : (parsing text).Takes sign i [] i :=
    takes_nothing (refuses_oneOfChars fun d hd hmem =>
      hminus ((h.eq hd).symm.trans (List.mem_singleton.mp hmem)))
  have hwhole : (parsing text).Refuses wholePart i := by
    refine refuses_or fun q hq => ?_
    rcases List.mem_pair.mp hq with rfl | rfl
    · refine refuses_literal_head rfl fun d hd heq => ?_
      rw [h.eq hd] at heq
      rw [heq] at hdigit
      cases hdigit
    · refine refuses_and (refuses_charInRange fun d hd => ?_)
      rw [h.eq hd]
      rw [isDigit, decide_eq_false_iff_not] at hdigit
      by_contra hrange
      obtain ⟨hmin, hmax⟩ := not_or.mp hrange
      exact hdigit ⟨Char.le_trans (by decide) (Char.not_lt.mp hmin), Char.not_lt.mp hmax⟩
  exact refuses_and (refuses_named (refuses_and_second hsign hwhole))

theorem refuses_array (hc : c ≠ '[') : (parsing text).Refuses array i :=
  refuses_named (refuses_anon (refuses_and (refuses_literal_head rfl fun _ he => h.eq he ▸ hc)))

theorem refuses_words (hn : c ≠ 'n') (ht : c ≠ 't') (hf : c ≠ 'f') :
    (parsing text).Refuses null_ i ∧ ∀ q ∈ [true_, false_], (parsing text).Refuses q i := by
  refine ⟨refuses_word h rfl hn, fun q hq => ?_⟩
  rcases List.mem_pair.mp hq with rfl | rfl
  · exact refuses_word h rfl ht
  · exact refuses_word h rfl hf

end Alternatives

theorem solid_single {c : Char} (h : c ∉ " \t\n\r".toList ∧ c ≠ '/') : Solid [c] := by
  intro d hd
  cases hd
  exact h

/-- What an element is formatted as, and what that reads as. -/
structure Reads (e : Tree) (out : List UInt8) : Prop where
  starts : ∃ b t, out = b :: t ∧ char b ≠ ']' ∧ Solid [char b]
  isText : IsText out
  reads : ReadsAs elementParser ItemType.isElement (IsElement e) out

/-! ## Atoms -/

theorem findAll_element {type : ItemType} {i : Nat} (xs : IRs ItemType) {ws : IRs ItemType}
    (htype : type.isElement = true) (hws : Bare ws) :
    findAll ItemType.isElement ([Item.composite type i xs] ++ ws) = [Item.composite type i xs] := by
  rw [findAll_append, findAll_composite, if_pos htype, hws ItemType.isElement rfl]
  rfl

/-- An atom, and the white space behind it. -/
theorem takes_atom {text : List UInt8} {i k : Nat} {p : PR} {x : Item ItemType}
    {tail rest : List UInt8} (hp : (parsing text).Takes p i [x] k)
    (h : text.drop k = tail ++ rest) (htail : Blank tail) (hrest : Follows rest) :
    ∃ ws, (parsing text).Takes (.and () p [eatWhite]) i ([x] ++ ws) (k + tail.length) ∧ Bare ws := by
  obtain ⟨ws, hws, hbare⟩ := takes_eatWhite (chars_drop h) htail hrest.solid
  rw [chars_length] at hws
  exact ⟨ws, takes_and (.cons hp hws.all), hbare⟩

/-- `null`, `true` or `false` -/
theorem reads_word (type : ItemType) (name x : String) {e : Tree} {c : Char} {cs : List Char}
    (hx : x.toList = c :: cs) (hascii : ∀ d ∈ x.toList, d.toNat < 0x80)
    (hstart : c ≠ ']' ∧ c ∉ " \t\n\r".toList ∧ c ≠ '/') (htype : type.isElement = true)
    (helement : ∀ text first rest, element text (.node type first rest) = some e)
    (hchoice : ∀ {text : List UInt8} {i j : Nat} {xs : IRs ItemType}, Next text i c →
      (parsing text).Takes (.and () (named type name (parseLiteral x)) [eatWhite]) i xs j →
        (parsing text).Takes elementParser i xs j) :
    Reads e (bytes x.toList) := by
  refine ⟨⟨UInt8.ofNat c.toNat, bytes cs, by rw [hx]; rfl, ?_⟩, isText_ascii hascii, ?_⟩
  · have hc : char (UInt8.ofNat c.toNat) = c := by
      rw [hx] at hascii
      exact (List.cons.inj (chars_bytes hascii)).1
    rw [hc]
    exact ⟨hstart.1, solid_single hstart.2⟩
  · intro text i tail rest h htail hrest
    have hchars := chars_drop h
    rw [chars_bytes hascii] at hchars
    have hlength : (bytes x.toList).length = x.toList.length := List.length_map ..
    have hnext : Next text i c := by
      rw [Next, hchars, hx]
      rfl
    have hword : (parsing text).Takes (named type name (parseLiteral x)) i _ _ :=
      takes_named (fun _ _ => rfl) (takes_literal hchars)
    obtain ⟨ws, hws, hbare⟩ := takes_atom hword (hlength ▸ drop_of_drop h) htail hrest
    rw [hlength]
    refine ⟨_, _, hchoice hnext hws, findAll_element _ htype hbare, e, ?_, rfl⟩
    exact helement _ _ _

theorem reads_null : Reads .null_ (bytes "null".toList) :=
  reads_word .AstNull "null" "null" rfl (forall_mem_of_all (by decide)) (by decide) rfl
    (fun _ _ _ => by rw [element])
    fun _ htakes => takes_or_first htakes

theorem reads_true : Reads .true_ (bytes "true".toList) := by
  refine reads_word .AstTrue "true" "true" rfl (forall_mem_of_all (by decide)) (by decide) rfl
    (fun _ _ _ => by rw [element]) fun hnext htakes => ?_
  exact takes_or_second (refuses_word hnext rfl (by decide)) htakes

theorem reads_false : Reads .false_ (bytes "false".toList) := by
  refine reads_word .AstFalse "false" "false" rfl (forall_mem_of_all (by decide)) (by decide) rfl
    (fun _ _ _ => by rw [element]) fun hnext htakes => ?_
  refine takes_or [true_] (refuses_word hnext rfl (by decide)) (fun q hq => ?_) htakes
  rw [List.mem_singleton.mp hq]
  exact refuses_word hnext rfl (by decide)

theorem mem_text (l : Literal) : ∀ c ∈ l.text, isDigit c = true ∨ c ∈ "-+.eE".toList := by
  have hdigits : ∀ ds : List (Fin 10), ∀ c ∈ ds.map digitChar, isDigit c = true := by
    intro ds c hc
    obtain ⟨d, -, rfl⟩ := List.mem_map.mp hc
    exact Literal.isDigit_digitChar d
  have hexponent : ∀ e : Exponent, ∀ c ∈ e.text, isDigit c = true ∨ c ∈ "-+.eE".toList := by
    intro e c hc
    rcases List.mem_cons.mp hc with rfl | hc
    · split_ifs <;> decide
    rcases List.mem_append.mp hc with hc | hc
    · rcases hsign : e.sign with _ | negative
      · rw [hsign] at hc
        cases hc
      · rw [hsign] at hc
        rw [List.mem_singleton.mp hc]
        cases negative <;> decide
    · exact .inl (hdigits _ c hc)
  intro c hc
  rw [Literal.text, Literal.tail] at hc
  rcases List.mem_append.mp hc with hc | hc
  · rcases List.mem_append.mp hc with hc | hc
    · split_ifs at hc
      · rw [List.mem_singleton.mp hc]
        decide
      · cases hc
    · exact .inl (hdigits _ c hc)
  rcases List.mem_append.mp hc with hc | hc
  · rcases hfraction : l.fraction with _ | digits
    · rw [hfraction] at hc
      cases hc
    · rw [hfraction] at hc
      rcases List.mem_cons.mp hc with rfl | hc
      · decide
      · exact .inl (hdigits _ c hc)
  · rcases he : l.exponent with _ | e
    · rw [he] at hc
      cases hc
    · rw [he] at hc
      exact hexponent e c hc

theorem text_ascii (l : Literal) : ∀ c ∈ l.text, c.toNat < 0x80 := by
  have hothers : ∀ c ∈ "-+.eE".toList, c.toNat < 0x80 := forall_mem_of_all (by decide)
  intro c hc
  rcases mem_text l c hc with hdigit | hc
  · have hmax : c.toNat ≤ 57 :=
      UInt32.le_iff_toNat_le.mp (Char.le_def.mp (of_decide_eq_true hdigit).2)
    omega
  · exact hothers c hc

/-- A number begins with a minus or a digit. -/
theorem text_starts (l : Literal) : ∃ c cs, l.text = c :: cs ∧ (c = '-' ∨ isDigit c = true) := by
  obtain ⟨d, ds, hd⟩ := l.exists_whole
  rw [Literal.text, hd]
  rcases l.negative with _ | _
  · exact ⟨digitChar d, ds.map digitChar ++ l.tail, rfl, .inr (Literal.isDigit_digitChar d)⟩
  · exact ⟨'-', digitChar d :: (ds.map digitChar ++ l.tail), rfl, .inl rfl⟩

theorem numberStart {c : Char} (h : c = '-' ∨ isDigit c = true) :
    c ≠ 'n' ∧ c ≠ 't' ∧ c ≠ 'f' ∧ c ≠ '"' ∧ c ≠ ']' ∧ c ∉ " \t\n\r".toList ∧ c ≠ '/' := by
  rcases h with rfl | h
  · decide
  · refine ⟨?_, ?_, ?_, ?_, ?_, fun hmem => ?_, ?_⟩
    rotate_left 5
    · have hall : ∀ c ∈ " \t\n\r".toList, isDigit c = false := forall_mem_of_all (by decide)
      rw [hall c hmem] at h
      cases h
    all_goals
      rintro rfl
      revert h
      decide

theorem reads_number (l : Literal) (parsedAt : Option Nat) :
    Reads (.number l.text parsedAt) (bytes l.text) := by
  have hascii := text_ascii l
  obtain ⟨c, cs, hc, hstart⟩ := text_starts l
  obtain ⟨hn, ht, hf, hquote, hclose, hsolid⟩ := numberStart hstart
  refine ⟨⟨UInt8.ofNat c.toNat, bytes cs, by rw [hc]; rfl, ?_⟩, isText_ascii hascii, ?_⟩
  · have hchar : char (UInt8.ofNat c.toNat) = c := by
      rw [hc] at hascii
      exact (List.cons.inj (chars_bytes hascii)).1
    rw [hchar]
    exact ⟨hclose, solid_single hsolid⟩
  · intro text i tail rest h htail hrest
    have hchars := chars_drop h
    rw [chars_bytes hascii, chars_append] at hchars
    have hlength : (bytes l.text).length = l.text.length := List.length_map ..
    have hnext : Next text i c := by
      rw [Next, hchars, hc]
      rfl
    obtain ⟨xs, hxs⟩ := takes_numberParts l hchars (hrest.ends htail)
    have hnumber : (parsing text).Takes (named .AstNumber "number"
        (sign + wholePart + fractionPart + exponentPart)) i _ _ := takes_named (fun _ _ => rfl) (takes_and hxs)
    obtain ⟨ws, hws, hbare⟩ := takes_atom hnumber (hlength ▸ drop_of_drop h) htail hrest
    obtain ⟨hnull, hwords⟩ := refuses_words hnext hn ht hf
    have hbefore : ∀ q ∈ [true_, false_, string], (parsing text).Refuses q i := by
      intro q hq
      rcases List.mem_append.mp (show q ∈ [true_, false_] ++ [string] from hq) with hq | hq
      · exact hwords q hq
      · rw [List.mem_singleton.mp hq]
        exact refuses_string hnext hquote
    rw [hlength]
    refine ⟨_, _, takes_or [true_, false_, string] hnull hbefore hws, findAll_element _ rfl hbare,
      _, element_number hxs.tiles, ?_⟩
    rw [slice, Nat.add_sub_cancel_left, hchars, List.take_left, plain, plain]

/-- A string between its quotes. -/
structure Quoted (value : Utf8String) (out : List UInt8) : Prop where
  isText : IsText (0x22 :: (out ++ [0x22]))
  takes : ∀ {text : List UInt8} {i : Nat} {rest : List UInt8},
    text.drop i = 0x22 :: (out ++ 0x22 :: rest) →
      (parsing text).Takes stringLiteralParser i
        [.node (.AstString value) (.leaf i (i + out.length + 2)) []] (i + out.length + 2)

theorem exists_quoted (value : Utf8String) : ∃ out, Quoted value out ∧
    ∀ first step, formatString value first step =
      .ok (firstLine first step ++ (0x22 :: (out ++ [0x22]))) := by
  obtain ⟨out, n, hformat, hcharacters, hscan⟩ := scan_formatCharacters value.characters
  refine ⟨out, ⟨?_, fun h => takes_stringLiteral (hscan _) h⟩, fun first step => ?_⟩
  · have hquote : IsText [0x22] := ⟨1, .single (show encodeCodePoint 0x22 = .ok [0x22] from rfl)⟩
    exact hquote.append (IsText.append ⟨n, hcharacters⟩ hquote)
  · rw [formatString, hformat]
    simp only [List.append_assoc]
    rfl

theorem isElement_string (value : Utf8String) (parsedAt : Option Nat) (text : List UInt8) (i j : Nat) :
    IsElement (.string value parsedAt) text (.node (.AstString value) (.leaf i j) []) :=
  ⟨.string value (some i), by rw [element]; rfl, by rw [plain, plain]⟩

theorem reads_string {value : Utf8String} {out : List UInt8} (parsedAt : Option Nat)
    (hquoted : Quoted value out) : Reads (.string value parsedAt) (0x22 :: (out ++ [0x22])) := by
  refine ⟨⟨0x22, _, rfl, by decide, solid_single (by decide)⟩, hquoted.isText, ?_⟩
  intro text i tail rest h htail hrest
  have hdrop : text.drop i = 0x22 :: (out ++ 0x22 :: (tail ++ rest)) := by
    rw [h, List.cons_append, List.append_assoc]
    rfl
  have hlength : i + (0x22 :: (out ++ [0x22])).length = i + out.length + 2 := by
    simp only [List.length_cons, List.length_append, List.length_nil]
    omega
  have hnext : Next text i '"' := by
    rw [Next, show (chars text).drop i = _ from chars_drop h]
    rfl
  obtain ⟨ws, hws, hbare⟩ := takes_atom (hquoted.takes hdrop) (hlength ▸ drop_of_drop h) htail hrest
  obtain ⟨hnull, hwords⟩ := refuses_words hnext (by decide) (by decide) (by decide)
  rw [hlength]
  have hfind : findAll ItemType.isElement
      ([.node (.AstString value) (.leaf i (i + out.length + 2)) []] ++ ws) =
        [.node (.AstString value) (.leaf i (i + out.length + 2)) []] :=
    findAll_element (i := i) [.leaf i (i + out.length + 2)] rfl hbare
  exact ⟨_, _, takes_or [true_, false_] hnull hwords hws, hfind, isElement_string value parsedAt text _ _⟩

/-! ## Arrays and objects -/

theorem Blank.isText {w : List UInt8} (h : Blank w) : IsText w := by
  induction w with
  | nil => exact ⟨0, .nil⟩
  | cons b w ih =>
    have hall : ∀ n < 256, char (UInt8.ofNat n) ∈ " \t\n\r".toList → UInt8.ofNat n < 0x80 := by
      decide +kernel
    have hlt := hall b.toNat b.toNat_lt
    rw [UInt8.ofNat_toNat] at hlt
    obtain ⟨n, hn⟩ := ih fun c hc => h c (List.mem_cons_of_mem _ hc)
    exact ⟨n + 1, .cons (encodeCodePoint_ascii (hlt (h (char b) (List.mem_cons_self ..)))) hn⟩

section IsText

variable {α : Type} {R : α → List UInt8 → Prop} (hR : ∀ a out, R a out → IsText out)

include hR

theorem Pieces.isText {as : List α} {body : List UInt8} (h : Pieces R as body) : IsText body := by
  have hcomma : IsText [0x2c] := ⟨1, .single (show encodeCodePoint 0x2c = .ok [0x2c] from rfl)⟩
  induction h with
  | last hout hw => exact (hR _ _ hout).append hw.isText
  | more hout hw hw' _ ih =>
    exact (hR _ _ hout).append (hw.isText.append (hcomma.append (hw'.isText.append ih)))

theorem Enclosed.isText {as : List α} {body : List UInt8} (h : Enclosed R as body) : IsText body := by
  cases h with
  | none hw => exact hw.isText
  | some hw hbody => exact hw.isText.append (hbody.isText hR)

end IsText

/-- What has been read is not empty. -/
theorem exists_cons_of_takes {text : List UInt8} {p : PR} {i j : Nat} {xs : IRs ItemType}
    (h : (parsing text).Takes p i xs j) (hlt : i < j) : ∃ first rest, xs = first :: rest := by
  cases xs with
  | nil =>
    have htiles := h.tiles
    cases htiles
    exact absurd hlt (Nat.lt_irrefl _)
  | cons first rest => exact ⟨first, rest, rfl⟩

/-- What a member is formatted as, and what that reads as. -/
structure ReadsMember (m : Utf8String × Tree) (out : List UInt8) : Prop where
  starts : ∃ t, out = 0x22 :: t
  isText : IsText out
  reads : ReadsAs objectMember ItemType.isMember (IsMember m) out

/-- The key of a member is found in front, and its value in the `ObjectValue`. -/
theorem isMember_of_items {key : Utf8String} {e : Tree} {text : List UInt8} {i j k l : Nat}
    {ws cs xs : IRs ItemType} {item : Item ItemType} (hws : Bare ws) (hcs : Bare cs)
    (hfind : findAll ItemType.isElement xs = [item]) (hitem : IsElement e text item) :
    IsMember (key, e) text (Item.composite .ObjectMember i
      ([.node (.AstString key) (.leaf j k) []] ++ (ws ++ (cs ++ [Item.composite .ObjectValue l xs])))) := by
  obtain ⟨e', he', hplain⟩ := hitem
  have hkey : (findAll ItemType.isString ([.node (.AstString key) (.leaf j k) []] ++
      (ws ++ (cs ++ [Item.composite .ObjectValue l xs])))).head? =
        some (.node (.AstString key) (.leaf j k) []) := rfl
  have hvalue : findAll ItemType.isValue ([.node (.AstString key) (.leaf j k) []] ++
      (ws ++ (cs ++ [Item.composite .ObjectValue l xs]))) = [Item.composite .ObjectValue l xs] := by
    rw [findAll_append, findAll_append, findAll_append, hws _ rfl, hcs _ rfl, findAll_composite]
    rfl
  refine ⟨e', ?_, hplain⟩
  rw [memberOf, valueItem, findChildren_composite, findChildren_composite, hkey, hvalue]
  simp only [Option.bind_eq_bind, Option.bind_some, List.head?_cons, stringOf,
    findChildren_composite, hfind, he']
  rfl

theorem reads_member {key : Utf8String} {name : List UInt8} {e : Tree} {out w blank : List UInt8}
    (hname : Quoted key name) (h : Reads e out) (hw : Blank w) (hblank : Blank blank) :
    ReadsMember (key, e) (0x22 :: (name ++ [0x22]) ++ (w ++ 0x3a :: (blank ++ out))) := by
  have hcolon : IsText [0x3a] := ⟨1, .single (show encodeCodePoint 0x3a = .ok [0x3a] from rfl)⟩
  refine ⟨⟨_, rfl⟩, hname.isText.append (hw.isText.append
    (hcolon.append (hblank.isText.append h.isText))), ?_⟩
  intro text i tail rest hdrop htail hrest
  have htext : text.drop i =
      0x22 :: (name ++ 0x22 :: (w ++ 0x3a :: (blank ++ (out ++ (tail ++ rest))))) := by
    rw [hdrop]
    simp only [List.cons_append, List.append_assoc, List.nil_append]
  have hstring := hname.takes htext
  have hbehind : text.drop (i + name.length + 2) =
      w ++ 0x3a :: (blank ++ (out ++ (tail ++ rest))) := by
    have hquoted : text.drop i =
        0x22 :: (name ++ [0x22]) ++ (w ++ 0x3a :: (blank ++ (out ++ (tail ++ rest)))) := by
      rw [htext, List.cons_append, List.append_assoc]
      rfl
    have hlength : (0x22 :: (name ++ [0x22]) : List UInt8).length = name.length + 2 := by
      simp only [List.length_cons, List.length_append, List.length_nil]
    have hquote := drop_of_drop hquoted
    rwa [hlength, ← Nat.add_assoc] at hquote
  obtain ⟨ws, hws, hbare⟩ := takes_eatWhite (chars_drop hbehind) hw fun c hc => by
    cases hc
    decide
  rw [chars_length] at hws
  have hcolonBehind := drop_of_drop hbehind
  obtain ⟨b, t, hb, -, hsolid⟩ := h.starts
  obtain ⟨cs, hcs, hbare'⟩ := takes_punctuation (x := ":") rfl hcolonBehind hblank (by
    rw [hb]
    exact fun d hd => hsolid d hd)
  have hvalue : text.drop (i + name.length + 2 + w.length + 1 + blank.length) =
      out ++ (tail ++ rest) := drop_of_drop (drop_of_drop (x := [0x3a]) hcolonBehind)
  obtain ⟨xs, item, hxs, hfind, e', he', hplain⟩ := h.reads hvalue htail hrest
  have hnamed : (parsing text).Takes (named .ObjectValue "object value" elementRecurse) _
      [Item.composite .ObjectValue _ xs] _ := takes_named (fun _ _ => rfl) (takes_reference rfl hxs)
  have hlength : i + (0x22 :: (name ++ [0x22]) ++ (w ++ 0x3a :: (blank ++ out))).length + tail.length =
      i + name.length + 2 + w.length + 1 + blank.length + out.length + tail.length := by
    simp only [List.length_cons, List.length_append, List.length_nil]
    omega
  rw [hlength]
  have hmember : (parsing text).Takes objectMember i _ _ := takes_named (fun _ _ => rfl)
    (takes_and (.cons hstring (.cons hws (hcs.append hnamed.all))))
  exact ⟨_, _, hmember, (findAll_composite _ _ _ _).trans (if_pos rfl),
    isMember_of_items hbare hbare' hfind ⟨e', he', hplain⟩⟩

/-- Blank text between the pieces of an array or an object. -/
structure Layout (opening before tail : List UInt8) : Prop where
  opening : Blank opening
  before : Blank before
  tail : Blank tail

theorem Layout.enclosed {opening before tail : List UInt8} (hlayout : Layout opening before tail)
    {α : Type} {R : α → List UInt8 → Prop} {as : List α} {outs : List (List UInt8)}
    (h : List.Forall₂ R as outs) : Enclosed R as (between opening before tail outs) :=
  enclosed_between hlayout.opening hlayout.before hlayout.tail h

theorem reads_array {es : List Tree} {body : List UInt8} (parsedAt : Option Nat)
    (h : Enclosed Reads es body) : Reads (.array es parsedAt) (0x5b :: (body ++ [0x5d])) := by
  have hopen : IsText [0x5b] := ⟨1, .single (show encodeCodePoint 0x5b = .ok [0x5b] from rfl)⟩
  have hclose : IsText [0x5d] := ⟨1, .single (show encodeCodePoint 0x5d = .ok [0x5d] from rfl)⟩
  have hbody := h.isText fun _ _ => Reads.isText
  refine ⟨⟨0x5b, _, rfl, by decide, solid_single (by decide)⟩,
    hopen.append (hbody.append hclose), ?_⟩
  intro text i space rest hdrop hspace hrest
  have hpieces : Enclosed
      (fun e out => Piece elementRecurse ItemType.isElement 0x5d (IsElement e) out) es body := by
    refine h.imp fun e out _ hreads => ⟨hreads.starts, ?_⟩
    intro text i tail rest hdrop htail hrest
    obtain ⟨xs, item, hxs, hfind, hitem⟩ := hreads.reads hdrop htail hrest
    exact ⟨xs, item, takes_reference rfl hxs, hfind, hitem⟩
  have htext : text.drop i = 0x5b :: (body ++ 0x5d :: (space ++ rest)) := by
    rw [hdrop, List.cons_append, List.append_assoc]
    rfl
  have hfollows : Follows [0x5d] := by
    intro b hb
    cases hb
    decide
  obtain ⟨xs, items, hxs, hfind, hitems⟩ := takes_listOf (p := elementRecurse) (o := "[") (c := "]")
    rfl rfl (fun _ => rfl) rfl rfl (by decide) hfollows hspace hrest hpieces htext
  have hlength : i + (0x5b :: (body ++ [0x5d])).length + space.length =
      i + 1 + body.length + 1 + space.length := by
    simp only [List.length_cons, List.length_append, List.length_nil]
    omega
  have hnext : Next text i '[' := by
    rw [Next, show (chars text).drop i = _ from chars_drop hdrop]
    rfl
  obtain ⟨hnull, hwords⟩ := refuses_words hnext (by decide) (by decide) (by decide)
  -- The alternatives before it refuse the opening bracket.
  have hbefore : ∀ q ∈ [true_, false_, Json.string, Json.number], (parsing text).Refuses q i := by
    intro q hq
    rcases List.mem_append.mp (show q ∈ [true_, false_] ++ [Json.string, Json.number] from hq) with
      hq | hq
    · exact hwords q hq
    · rcases List.mem_pair.mp hq with rfl | rfl
      · exact refuses_string hnext (by decide)
      · exact refuses_number hnext (by decide) (by decide)
  have harray : (parsing text).Takes Json.array i [Item.composite .AstArray i xs] _ :=
    takes_named (fun _ _ => rfl) hxs
  obtain ⟨first, others, rfl⟩ := exists_cons_of_takes hxs (by omega)
  obtain ⟨es', hes', hplain⟩ := elements_of_items hitems
  rw [hlength]
  refine ⟨_, _, takes_or [true_, false_, Json.string, Json.number] hnull hbefore harray,
    (findAll_composite _ _ _ _).trans (if_pos rfl), .array es' (some first.begin), ?_, ?_⟩
  · rw [Item.composite, element_array, hfind, hes']
    rfl
  · rw [plain, plain, hplain]

/-- Of several members with one name, the first is in the map. -/
theorem reads_object {ms : List (Utf8String × Tree)} {body : List UInt8} (parsedAt : Option Nat)
    (h : Enclosed ReadsMember ms body) :
    Reads (.object (OrderedBy.ofList ms : Members).toList parsedAt) (0x7b :: (body ++ [0x7d])) := by
  have hopen : IsText [0x7b] := ⟨1, .single (show encodeCodePoint 0x7b = .ok [0x7b] from rfl)⟩
  have hclose : IsText [0x7d] := ⟨1, .single (show encodeCodePoint 0x7d = .ok [0x7d] from rfl)⟩
  have hbody := h.isText fun _ _ => ReadsMember.isText
  refine ⟨⟨0x7b, _, rfl, by decide, solid_single (by decide)⟩,
    hopen.append (hbody.append hclose), ?_⟩
  intro text i space rest hdrop hspace hrest
  have hpieces : Enclosed
      (fun m out => Piece objectMember ItemType.isMember 0x7d (IsMember m) out) ms body := by
    refine h.imp fun m out _ hreads => ⟨?_, hreads.reads⟩
    obtain ⟨t, ht⟩ := hreads.starts
    exact ⟨0x22, t, ht, by decide, solid_single (by decide)⟩
  have htext : text.drop i = 0x7b :: (body ++ 0x7d :: (space ++ rest)) := by
    rw [hdrop, List.cons_append, List.append_assoc]
    rfl
  have hfollows : Follows [0x7d] := by
    intro b hb
    cases hb
    decide
  obtain ⟨xs, items, hxs, hfind, hitems⟩ := takes_listOf (p := objectMember) (o := "\x7b")
    (c := "\x7d") rfl rfl (fun _ => rfl) rfl rfl (by decide) hfollows hspace hrest hpieces htext
  have hlength : i + (0x7b :: (body ++ [0x7d])).length + space.length =
      i + 1 + body.length + 1 + space.length := by
    simp only [List.length_cons, List.length_append, List.length_nil]
    omega
  have hnext : Next text i '\x7b' := by
    rw [Next, show (chars text).drop i = _ from chars_drop hdrop]
    rfl
  obtain ⟨hnull, hwords⟩ := refuses_words hnext (by decide) (by decide) (by decide)
  -- The alternatives before it refuse the opening brace.
  have hbefore : ∀ q ∈ [true_, false_, Json.string, Json.number, Json.array],
      (parsing text).Refuses q i := by
    intro q hq
    rcases List.mem_append.mp
        (show q ∈ [true_, false_] ++ [Json.string, Json.number, Json.array] from hq) with hq | hq
    · exact hwords q hq
    rcases List.mem_cons.mp hq with rfl | hq
    · exact refuses_string hnext (by decide)
    · rcases List.mem_pair.mp hq with rfl | rfl
      · exact refuses_number hnext (by decide) (by decide)
      · exact refuses_array hnext (by decide)
  have hobject : (parsing text).Takes Json.object i [Item.composite .AstObject i xs] _ :=
    takes_named (fun _ _ => rfl) hxs
  obtain ⟨first, others, rfl⟩ := exists_cons_of_takes hxs (by omega)
  obtain ⟨ms', hms', hplain⟩ := members_of_items hitems
  rw [hlength]
  refine ⟨_, _, takes_or [true_, false_, Json.string, Json.number, Json.array] hnull hbefore hobject,
    (findAll_composite _ _ _ _).trans (if_pos rfl),
    .object (OrderedBy.ofList ms' : Members).toList (some first.begin), ?_, ?_⟩
  · rw [Item.composite, element_object, hfind, hms', Option.map_some]
  · rw [plain, plain, plainMembers_ofList hplain]

/-! ## Trees -/

theorem blank_firstLine {first : Utf8String} (h : Blank first.value) (step : Utf8String) :
    Blank (firstLine first step) := by
  rw [firstLine]
  split_ifs
  · exact h
  · exact blank_nil

theorem blank_separator (step : Utf8String) : Blank (separator step) := by
  rw [separator]
  split_ifs
  · exact forall_mem_of_all (x := chars (bytes ['\n'])) (by decide)
  · exact blank_nil

theorem blank_of_mem {x : List UInt8} (h : ∀ b ∈ x, b ∈ ([0x20, 0x09, 0x0a, 0x0d] : List UInt8)) :
    Blank x := by
  intro c hc
  obtain ⟨b, hb, rfl⟩ := List.mem_map.mp hc
  have hall : ∀ b ∈ ([0x20, 0x09, 0x0a, 0x0d] : List UInt8), char b ∈ " \t\n\r".toList := by
    decide +kernel
  exact hall b (h b hb)

theorem blank_space : Blank space.value := forall_mem_of_all (x := chars [0x20]) (by decide)

section Layouts

variable {other step : Utf8String} (hother : Blank other.value) (hstep : Blank step.value)

include hother hstep

theorem blank_deeper : Blank (other ++ step).value := hother.append hstep

theorem layout_elements : Layout (separator step ++ firstLine (other ++ step) step)
    (separator step ++ firstLine (other ++ step) step) (separator step ++ other.value) := by
  have hline : Blank (firstLine (other ++ step) step) := blank_firstLine (blank_deeper hother hstep) step
  have hbefore := (blank_separator step).append hline
  exact ⟨hbefore, hbefore, (blank_separator step).append hother⟩

theorem layout_members : Layout (separator step ++ (other ++ step).value)
    (separator step ++ (other ++ step).value) (separator step ++ other.value) := by
  have hbefore := (blank_separator step).append (blank_deeper hother hstep)
  exact ⟨hbefore, hbefore, (blank_separator step).append hother⟩

end Layouts

theorem ok_bind {α β : Type} (a : α) (f : α → Utf8.Result β) : (Except.ok a >>= f) = f a := rfl

mutual

/-- What an element is formatted as reads as that element. -/
theorem reads_tree : ∀ (e : Tree), e.Valid → ∀ (first : Utf8String) {other step : Utf8String},
    Blank other.value → Blank step.value → ∃ out,
      e.formatAsUtf8 first other step = .ok (firstLine first step ++ out) ∧ Reads e out
  | .null_, _, _, _, _, _, _ => ⟨_, by rw [formatAsUtf8], reads_null⟩
  | .true_, _, _, _, _, _, _ => ⟨_, by rw [formatAsUtf8], reads_true⟩
  | .false_, _, _, _, _, _, _ => ⟨_, by rw [formatAsUtf8], reads_false⟩
  | .string value_ parsedAt, _, first, _, step, _, _ => by
    obtain ⟨out, hquoted, hformat⟩ := exists_quoted value_
    exact ⟨_, by rw [formatAsUtf8, hformat], reads_string parsedAt hquoted⟩
  | .number value_ parsedAt, hvalid, _, _, _, _, _ => by
    rw [Valid] at hvalid
    obtain ⟨l, rfl⟩ := hvalid
    exact ⟨_, by rw [formatAsUtf8], reads_number l parsedAt⟩
  | .array [] parsedAt, _, first, other, step, hother, hstep => by
    refine ⟨_, ?_, reads_array parsedAt ((layout_elements hother hstep).enclosed .nil)⟩
    rw [formatAsUtf8, List.append_assoc]
    rfl
  | .array (x :: xs) parsedAt, hvalid, first, other, step, hother, hstep => by
    rw [Valid, ValidAll] at hvalid
    obtain ⟨out, hout, hreads⟩ := reads_tree x hvalid.1 (other ++ step) (blank_deeper hother hstep) hstep
    obtain ⟨outs, houts, hall⟩ := reads_elements xs hvalid.2 hother hstep
    refine ⟨_, ?_, reads_array parsedAt ((layout_elements hother hstep).enclosed (.cons hreads hall))⟩
    rw [formatAsUtf8, hout, houts]
    simp only [ok_bind, between, List.append_assoc]
    rfl
  | .object [] parsedAt, _, first, other, step, hother, hstep => by
    refine ⟨_, ?_, reads_object parsedAt ((layout_members hother hstep).enclosed .nil)⟩
    rw [formatAsUtf8, List.append_assoc]
    rfl
  | .object ((key, x) :: xs) parsedAt, hvalid, first, other, step, hother, hstep => by
    rw [Valid, ValidMembers] at hvalid
    obtain ⟨hsorted, hx, hxs⟩ := hvalid
    obtain ⟨name, hquoted, hname⟩ := exists_quoted key
    obtain ⟨out, hout, hreads⟩ := reads_tree x hx space (blank_deeper hother hstep) hstep
    obtain ⟨outs, houts, hall⟩ := reads_members xs hxs hother hstep
    have hmember := reads_member hquoted hreads blank_nil (blank_firstLine blank_space step)
    have hobject := reads_object parsedAt ((layout_members hother hstep).enclosed (.cons hmember hall))
    rw [OrderedBy.toList_ofList hsorted] at hobject
    refine ⟨_, ?_, hobject⟩
    rw [formatAsUtf8, hname, hout, houts]
    simp only [ok_bind, between, List.cons_append, List.append_assoc]
    rfl

theorem reads_elements : ∀ (es : List Tree), ValidAll es → ∀ {other step : Utf8String},
    Blank other.value → Blank step.value → ∃ outs, formatElements es other step =
      .ok (joined (separator step ++ firstLine (other ++ step) step) outs) ∧ List.Forall₂ Reads es outs
  | [], _, _, _, _, _ => ⟨[], by rw [formatElements, joined], .nil⟩
  | x :: xs, hvalid, other, step, hother, hstep => by
    rw [ValidAll] at hvalid
    obtain ⟨out, hout, hreads⟩ := reads_tree x hvalid.1 (other ++ step) (blank_deeper hother hstep) hstep
    obtain ⟨outs, houts, hall⟩ := reads_elements xs hvalid.2 hother hstep
    refine ⟨out :: outs, ?_, .cons hreads hall⟩
    rw [formatElements, hout, houts]
    simp only [ok_bind, joined, List.cons_append, List.append_assoc]
    rfl

theorem reads_members : ∀ (ms : List (Utf8String × Tree)), ValidMembers ms →
    ∀ {other step : Utf8String}, Blank other.value → Blank step.value →
      ∃ outs, formatMembers ms other step =
        .ok (joined (separator step ++ (other ++ step).value) outs) ∧ List.Forall₂ ReadsMember ms outs
  | [], _, _, _, _, _ => ⟨[], by rw [formatMembers, joined], .nil⟩
  | (key, x) :: xs, hvalid, other, step, hother, hstep => by
    rw [ValidMembers] at hvalid
    obtain ⟨name, hquoted, hname⟩ := exists_quoted key
    obtain ⟨out, hout, hreads⟩ := reads_tree x hvalid.1 space (blank_deeper hother hstep) hstep
    obtain ⟨outs, houts, hall⟩ := reads_members xs hvalid.2 hother hstep
    have hmember := reads_member hquoted hreads blank_nil (blank_firstLine blank_space step)
    refine ⟨_ :: outs, ?_, .cons hmember hall⟩
    rw [formatMembers, hname, hout, houts]
    simp only [ok_bind, joined, List.cons_append, List.append_assoc]
    rfl

end

/-! ## `parse` of `format` -/

/-- The text of an element between white space is parsed, and the result is the element. -/
theorem parse_of_reads {json : Utf8String} {e : Tree} {w out w' : List UInt8}
    (hvalue : json.value = w ++ (out ++ w')) (hw : Blank w) (hw' : Blank w') (hreads : Reads e out) :
    ∃ e', e'.plain = e.plain ∧ ∃ depth, ∀ n, depth ≤ n → parse n json = some (.ok e') := by
  obtain ⟨b, t, hb, -, hsolid⟩ := hreads.starts
  have hdrop : json.value.drop 0 = w ++ (out ++ w') := by rw [hvalue, List.drop_zero]
  have hout : json.value.drop (0 + w.length) = out ++ (w' ++ []) := by
    rw [List.append_nil]
    exact drop_of_drop hdrop
  obtain ⟨xs, item, hxs, hfind, e', he', hplain⟩ := hreads.reads hout hw' fun _ h => nomatch h
  have hstart : Solid (chars (out ++ w')) := by
    rw [hb]
    exact fun d hd => hsolid d hd
  obtain ⟨ws, hws, hbare⟩ := takes_eatWhite (chars_drop hdrop) hw hstart
  rw [chars_length] at hws
  have hall : (parsing json.value).Takes (eatWhite + elementParser) 0 _ _ :=
    takes_and (.cons hws hxs.all)
  obtain ⟨depth, hdepth⟩ := hall.parse
  refine ⟨e', hplain, depth, fun n hn => ?_⟩
  have hfound : findAll ItemType.isElement (ws ++ xs) = [item] := by
    rw [findAll_append, hbare ItemType.isElement rfl, hfind]
    rfl
  have hend : 0 + w.length + out.length + w'.length = json.value.length := by
    rw [hvalue, List.length_append, List.length_append]
    omega
  rw [parse, eval_mono hn hdepth, Option.map_some, parsed]
  simp only [hend, ne_eq, not_true_eq_false, if_false, hfound, he']

/-- Whatever an element is formatted as, with an indent of white space, is parsed, and the
result is the element. -/
theorem parse_undoes_format (e : Tree) (he : e.Valid) (indent : Utf8String)
    (hindent : ∀ b ∈ indent.value, b ∈ ([0x20, 0x09, 0x0a, 0x0d] : List UInt8)) :
    ∃ json e', format e indent = .ok json ∧ e'.plain = e.plain ∧
      ∃ depth, ∀ n, depth ≤ n → parse n json = some (.ok e') := by
  have hstep : Blank indent.value := blank_of_mem hindent
  have hempty : Blank Utf8String.empty.value := blank_nil
  obtain ⟨out, hformat, hreads⟩ := reads_tree e he .empty hempty hstep
  have hline : firstLine .empty indent = [] := by
    rw [firstLine]
    split_ifs <;> rfl
  rw [hline, List.nil_append] at hformat
  obtain ⟨n, hcharacters⟩ := hreads.isText
  obtain ⟨json, hmake, hvalue⟩ := Utf8String.make_of_characters hcharacters
  have hjson : json.value = [] ++ (out ++ []) := by rw [hvalue, List.nil_append, List.append_nil]
  obtain ⟨e', hplain, hparse⟩ := parse_of_reads hjson blank_nil blank_nil hreads
  exact ⟨json, e', by rw [format, hformat]; exact hmake, hplain, hparse⟩

theorem parse_undoes_format_array : ∃ json e',
    format (.array [.null_, .string space none] none) space = .ok json ∧
      e'.plain = (Tree.array [.null_, .string space none] none).plain ∧
        ∃ depth, ∀ n, depth ≤ n → parse n json = some (.ok e') :=
  parse_undoes_format (.array [.null_, .string space none] none)
    (by simp only [Valid, ValidAll, and_self]) space (by decide +kernel)

end Urnest.Json
