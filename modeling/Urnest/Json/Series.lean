import Urnest.Json.Tokens

/-!
# Pieces of JSON

`ReadsAs` is what a piece of text is to a parser: wherever it stands, with white space and a
separator behind it, the parser takes it with the white space, and finds one item in it. A
series of pieces between brackets is read piece by piece (`takes_series`), and what was made
of the items comes together (`elements_of_items`, `members_of_items`).
-/

namespace Urnest.Json

open Lib Hcp Hcp.Parsing Utf8 Json.Tree

/-! ## Bytes and characters -/

/-- White space of JSON -/
def Blank (ws : List UInt8) : Prop := White (chars ws)

/-- What may come behind an element. -/
def Follows (rest : List UInt8) : Prop := ∀ b ∈ rest.head?, b ∈ ([0x2c, 0x5d, 0x7d] : List UInt8)

theorem chars_append (x y : List UInt8) : chars (x ++ y) = chars x ++ chars y := List.map_append

theorem chars_length (x : List UInt8) : (chars x).length = x.length := List.length_map ..

theorem chars_drop {text x y : List UInt8} {i : Nat} (h : text.drop i = x ++ y) :
    (chars text).drop i = chars x ++ chars y := by
  rw [← chars_append, ← h, chars, chars, List.map_drop]

theorem Blank.append {x y : List UInt8} (hx : Blank x) (hy : Blank y) : Blank (x ++ y) := by
  intro c hc
  rw [chars_append] at hc
  exact (List.mem_append.mp hc).elim (hx c) (hy c)

theorem blank_nil : Blank [] := fun _ h => nomatch h

theorem head_chars {x : List UInt8} {c : Char} (h : c ∈ (chars x).head?) :
    ∃ b ∈ x.head?, char b = c := by
  cases x with
  | nil => cases h
  | cons b x => exact ⟨b, rfl, Option.some.inj h⟩

theorem Follows.solid {rest : List UInt8} (h : Follows rest) : Solid (chars rest) := by
  intro c hc
  obtain ⟨b, hb, rfl⟩ := head_chars hc
  have hb := h b hb
  simp only [List.mem_cons, List.not_mem_nil, or_false] at hb
  rcases hb with rfl | rfl | rfl <;> decide

theorem Follows.ends {tail rest : List UInt8} (htail : Blank tail) (h : Follows rest) :
    Ends (chars tail ++ chars rest) := by
  intro c hc
  cases tail with
  | nil =>
    obtain ⟨b, hb, rfl⟩ := head_chars hc
    have hb := h b hb
    simp only [List.mem_cons, List.not_mem_nil, or_false] at hb
    rcases hb with rfl | rfl | rfl <;> decide
  | cons b tail =>
    cases hc
    have hall : ∀ c ∈ " \t\n\r".toList, isDigit c = false ∧ c ≠ '.' ∧ c ∉ "eE".toList :=
      forall_mem_of_all (by decide)
    exact hall _ (htail (char b) (List.mem_cons_self ..))

/-! ## Pieces of text -/

/-- The parser takes the text, with white space behind it, and what is found in that is an
item as `Q` says. -/
def ReadsAs (p : PR) (isA : ItemType → Bool) (Q : List UInt8 → Item ItemType → Prop)
    (out : List UInt8) : Prop :=
  ∀ {text : List UInt8} {i : Nat} {tail rest : List UInt8}, text.drop i = out ++ (tail ++ rest) →
    Blank tail → Follows rest → ∃ xs item,
      (parsing text).Takes p i xs (i + out.length + tail.length) ∧ findAll isA xs = [item] ∧
        Q text item

theorem findAll_composite (isA : ItemType → Bool) (type : ItemType) (i : Nat) (xs : IRs ItemType) :
    findAll isA [Item.composite type i xs] =
      if isA type then [Item.composite type i xs] else findAll isA xs := by
  cases xs with
  | nil => simp [Item.composite, findAll, Item.outmost]
  | cons first rest => simp [Item.composite, findAll, Item.outmost]

theorem findChildren_composite (isA : ItemType → Bool) (type : ItemType) (i : Nat)
    (xs : IRs ItemType) : (Item.composite type i xs).findChildren isA = findAll isA xs := by
  cases xs <;> rfl

section Takes

variable {text : List UInt8} {i : Nat}

/-- A punctuation character, and white space. -/
theorem takes_punctuation {x : String} {b : UInt8} {tail rest : List UInt8} (hx : x.toList = [char b])
    (h : text.drop i = b :: (tail ++ rest)) (htail : Blank tail) (hrest : Solid (chars rest)) :
    ∃ xs, (parsing text).TakesAll [parseLiteral x, eatWhite] i xs (i + 1 + tail.length) ∧ Bare xs := by
  have hchars : (chars text).drop i = x.toList ++ (chars tail ++ chars rest) := by
    rw [hx, ← chars_append]
    exact chars_drop (x := [b]) h
  have hliteral : (parsing text).Takes (parseLiteral x) i [.leaf i (i + 1)] (i + 1) := by
    have htakes : (parsing text).Takes (parseLiteral x) i _ _ := takes_literal hchars
    rwa [hx] at htakes
  have hdrop := drop_of_drop hchars
  rw [hx] at hdrop
  obtain ⟨xs, hxs, hbare⟩ := takes_eatWhite hdrop htail hrest
  rw [chars_length] at hxs
  exact ⟨_, .cons hliteral hxs.all, hbare.leaf _ _⟩

theorem refuses_punctuation {x : String} {b c : UInt8} {terms : List PR} {rest : List UInt8}
    (hx : x.toList = [char c]) (h : text.drop i = b :: rest) (hne : char b ≠ char c) :
    (parsing text).Refuses (.and () (parseLiteral x) terms) i := by
  refine refuses_and (refuses_literal_head hx fun d hd => ?_)
  rw [show (parsing text).text.drop i = _ from chars_drop (x := [b]) h] at hd
  cases hd
  exact hne

end Takes

/-- A piece of a series. -/
structure Piece (p : PR) (isA : ItemType → Bool) (close : UInt8)
    (Q : List UInt8 → Item ItemType → Prop) (out : List UInt8) : Prop where
  starts : ∃ b t, out = b :: t ∧ char b ≠ char close ∧ Solid [char b]
  reads : ReadsAs p isA Q out

/-- One or more pieces, with a comma between them and white space behind each and behind the
commas. -/
inductive Pieces {α : Type} (R : α → List UInt8 → Prop) : List α → List UInt8 → Prop where
  | last {a : α} {out w : List UInt8} : R a out → Blank w → Pieces R [a] (out ++ w)
  | more {a : α} {as : List α} {out w w' rest : List UInt8} : R a out → Blank w → Blank w' →
    Pieces R as rest → Pieces R (a :: as) (out ++ (w ++ 0x2c :: (w' ++ rest)))

/-- What stands between brackets. -/
inductive Enclosed {α : Type} (R : α → List UInt8 → Prop) : List α → List UInt8 → Prop where
  | none {w : List UInt8} : Blank w → Enclosed R [] w
  | some {as : List α} {w body : List UInt8} : Blank w → Pieces R as body → Enclosed R as (w ++ body)

section Series

variable {α : Type} {p : PR} {isA : ItemType → Bool} {c : String} {close : UInt8}
  {Q : α → List UInt8 → Item ItemType → Prop} {text before tail space rest : List UInt8}

theorem Pieces.imp {R S : α → List UInt8 → Prop} {as : List α} {body : List UInt8}
    (h : Pieces R as body) (himp : ∀ a out, out.length ≤ body.length → R a out → S a out) :
    Pieces S as body := by
  induction h with
  | last hout hw =>
    refine .last (himp _ _ ?_ hout) hw
    rw [List.length_append]
    exact Nat.le_add_right ..
  | more hout hw hw' _ ih =>
    refine .more (himp _ _ ?_ hout) hw hw' (ih fun a out hle => himp a out ?_)
    · rw [List.length_append]
      exact Nat.le_add_right ..
    · simp only [List.length_append, List.length_cons]
      omega

theorem Enclosed.imp {R S : α → List UInt8 → Prop} {as : List α} {body : List UInt8}
    (h : Enclosed R as body) (himp : ∀ a out, out.length ≤ body.length → R a out → S a out) :
    Enclosed S as body := by
  cases h with
  | none hw => exact .none hw
  | some hw hbody =>
    refine .some hw (hbody.imp fun a out hle => himp a out (hle.trans ?_))
    rw [List.length_append]
    exact Nat.le_add_left ..

/-- The separator of a series, and its end. -/
def comma : PR := parseLiteral "," + eatWhite

def closing (c : String) : PR := parseLiteral c + eatWhite

theorem Pieces.starts {as : List α} {body : List UInt8}
    (h : Pieces (fun a out => Piece p isA close (Q a) out) as body) :
    ∃ b t, body = b :: t ∧ char b ≠ char close ∧ Solid [char b] := by
  cases h with
  | last hpiece _ =>
    obtain ⟨b, t, rfl, hb⟩ := hpiece.starts
    exact ⟨b, _, rfl, hb⟩
  | more hpiece _ _ _ =>
    obtain ⟨b, t, rfl, hb⟩ := hpiece.starts
    exact ⟨b, _, rfl, hb⟩

theorem takes_series (hwhite : isA .WhiteSpace = false) (hp : andTerms p = [p])
    (hc : c.toList = [char close]) (hne : char close ≠ ',') (hclose : Follows [close])
    (hspace : Blank space) (hrest : Follows rest) {as : List α} {body : List UInt8}
    (hall : Pieces (fun a out => Piece p isA close (Q a) out) as body) {i : Nat}
    (h : text.drop i = body ++ close :: (space ++ rest)) :
    ∃ xs k ys items, (parsing text).Takes p i xs k ∧
      Repeats (UntilTurn (parsing text) (comma + p) (closing c))
        (fun i => ∃ zs k, (parsing text).Takes (closing c) i zs k) k ys (i + body.length) ∧
      findAll isA (xs ++ ys) = items ∧ List.Forall₂ (fun a item => Q a text item) as items := by
  -- The source parses an item first, and then turns of a comma and an item: the turns of the
  -- rest begin with the comma before it.
  induction hall generalizing i with
  | @last a out w hpiece hw =>
    have hfollows : Follows (close :: (space ++ rest)) := fun b hb => hclose b hb
    have hdrop : text.drop i = out ++ (w ++ close :: (space ++ rest)) := by
      rw [h, List.append_assoc]
    obtain ⟨xs, item, hxs, hfind, hitem⟩ := hpiece.reads hdrop hw hfollows
    have hend : text.drop (i + out.length + w.length) = close :: (space ++ rest) :=
      drop_of_drop (drop_of_drop hdrop)
    obtain ⟨zs, hzs, -⟩ := takes_punctuation hc hend hspace hrest.solid
    rw [List.length_append, ← Nat.add_assoc]
    refine ⟨xs, _, [], [item], hxs, .stop ⟨zs, _, takes_and hzs⟩, ?_, .cons hitem .nil⟩
    rw [List.append_nil, hfind]
  | @more a as out w w' body hpiece hw hw' hbody ih =>
    obtain ⟨b, t, hb, -, hsolid⟩ := hbody.starts
    have hdrop : text.drop i = out ++ (w ++ 0x2c :: (w' ++ (body ++ close :: (space ++ rest)))) := by
      rw [h]
      simp only [List.cons_append, List.append_assoc]
    have hfollows : Follows (0x2c :: (w' ++ (body ++ close :: (space ++ rest)))) := by
      intro b hb
      cases hb
      decide
    obtain ⟨xs, item, hxs, hfind, hitem⟩ := hpiece.reads hdrop hw hfollows
    have hcomma := drop_of_drop (drop_of_drop hdrop)
    have hsolid' : Solid (chars (body ++ close :: (space ++ rest))) := by
      rw [hb]
      exact fun d hd => hsolid d hd
    obtain ⟨cs, hcs, hbare⟩ := takes_punctuation (x := ",") rfl hcomma hw' hsolid'
    have hnext := drop_of_drop (x := 0x2c :: w') hcomma
    rw [List.length_cons, Nat.add_comm w'.length, ← Nat.add_assoc] at hnext
    obtain ⟨xs', k, ys, items, hxs', hrepeats, hfind', hitems⟩ := ih hnext
    have hturn : UntilTurn (parsing text) (comma + p) (closing c)
        (i + out.length + w.length) (cs ++ xs') k := by
      refine ⟨refuses_punctuation hc hcomma (Ne.symm hne), ?_⟩
      have hterms : comma + p = .and () (parseLiteral ",") ([eatWhite] ++ andTerms p) := rfl
      rw [hterms, hp]
      exact takes_and (hcs.append hxs'.all)
    refine ⟨xs, _, cs ++ xs' ++ ys, item :: items, hxs, ?_, ?_, .cons hitem hitems⟩
    · have hlength : i + (out ++ (w ++ 0x2c :: (w' ++ body))).length =
          i + out.length + w.length + 1 + w'.length + body.length := by
        simp only [List.length_cons, List.length_append]
        omega
      rw [hlength]
      exact .turn hturn hrepeats
    · rw [findAll_append, hfind, List.append_assoc, findAll_append, hbare isA hwhite, hfind']
      rfl

/-- A list, with the terms of its parts in line. -/
theorem listOf_eq {o : String} (hp : ∀ b, p + b = .and () p (andTerms b)) :
    listOf (parseLiteral o + eatWhite) p comma (closing c) =
      anon "-separated list of" (.and () (parseLiteral o) ([eatWhite] ++ [.or () (closing c)
        [.and () p [parseUntil (comma + p) (closing c), parseLiteral c, eatWhite]]])) := by
  have hterms : p + parseUntil (comma + p) (closing c) + closing c =
      .and () p [parseUntil (comma + p) (closing c), parseLiteral c, eatWhite] := by
    rw [hp]
    rfl
  rw [listOf, hterms]
  rfl

theorem takes_listOf {o : String} {open_ : UInt8} (hwhite : isA .WhiteSpace = false)
    (hp : andTerms p = [p]) (hp' : ∀ b, p + b = .and () p (andTerms b)) (ho : o.toList = [char open_])
    (hc : c.toList = [char close]) (hne : char close ≠ ',') (hclose : Follows [close])
    (hspace : Blank space) (hrest : Follows rest) {as : List α} {body : List UInt8}
    (hall : Enclosed (fun a out => Piece p isA close (Q a) out) as body) {i : Nat}
    (h : text.drop i = open_ :: (body ++ close :: (space ++ rest))) :
    ∃ xs items, (parsing text).Takes (listOf (parseLiteral o + eatWhite) p comma (closing c)) i xs
        (i + 1 + body.length + 1 + space.length) ∧
      findAll isA xs = items ∧ List.Forall₂ (fun a item => Q a text item) as items := by
  -- Either it closes at once, or that is refused and the series is read.
  rw [listOf_eq hp']
  cases hall with
  | none hw =>
    have hsolid : Solid (chars (close :: (space ++ rest))) :=
      Follows.solid fun b hb => hclose b hb
    obtain ⟨xs, hxs, hbare⟩ := takes_punctuation ho h hw hsolid
    have hend : text.drop (i + 1 + body.length) = close :: (space ++ rest) :=
      drop_of_drop (drop_of_drop (x := [open_]) h)
    obtain ⟨ys, hys, hbare'⟩ := takes_punctuation hc hend hspace hrest.solid
    refine ⟨_, [], takes_anon (takes_and (hxs.append (takes_or_first (takes_and hys)).all)), ?_, .nil⟩
    rw [findAll_append, hbare isA hwhite, hbare' isA hwhite]
    rfl
  | @some as w body hw hbody =>
    obtain ⟨b, t, hb, hbclose, hsolid⟩ := hbody.starts
    have hdrop : text.drop i = open_ :: (w ++ (body ++ close :: (space ++ rest))) := by
      rw [h, List.append_assoc]
    have hsolid' : Solid (chars (body ++ close :: (space ++ rest))) := by
      rw [hb]
      exact fun d hd => hsolid d hd
    obtain ⟨os, hos, hbare⟩ := takes_punctuation ho hdrop hw hsolid'
    have hfirst : text.drop (i + 1 + w.length) = body ++ close :: (space ++ rest) :=
      drop_of_drop (drop_of_drop (x := [open_]) hdrop)
    obtain ⟨xs, k, ys, items, hxs, hrepeats, hfind, hitems⟩ :=
      takes_series hwhite hp hc hne hclose hspace hrest hbody hfirst
    have hend : text.drop (i + 1 + w.length + body.length) = close :: (space ++ rest) :=
      drop_of_drop hfirst
    obtain ⟨zs, hzs, hbare'⟩ := takes_punctuation hc hend hspace hrest.solid
    have hrefuses : (parsing text).Refuses (closing c) (i + 1 + w.length) := by
      rw [hb] at hfirst
      exact refuses_punctuation hc hfirst hbclose
    have hlength : i + 1 + (w ++ body).length + 1 + space.length =
        i + 1 + w.length + body.length + 1 + space.length := by
      rw [List.length_append]
      omega
    rw [hlength]
    refine ⟨os ++ (xs ++ (ys ++ zs)), items, takes_anon (takes_and (hos.append (takes_or_second hrefuses
      (takes_and (.cons hxs (.cons (takes_specificUntil hrepeats) hzs)))).all)), ?_, hitems⟩
    rw [findAll_append, hbare isA hwhite, ← List.append_assoc, findAll_append, hfind,
      hbare' isA hwhite, List.append_nil]
    rfl

end Series

/-! ## The layout of the formatter -/

/-- What stands between the pieces of a series, and the pieces but the first -/
def joined (before : List UInt8) : List (List UInt8) → List UInt8
  | [] => []
  | out :: outs => 0x2c :: (before ++ out) ++ joined before outs

/-- What stands between the brackets, if it is in several pieces. -/
def between (opening before tail : List UInt8) : List (List UInt8) → List UInt8
  | [] => []
  | out :: outs => opening ++ out ++ joined before outs ++ tail

section Layout

variable {α : Type} {R : α → List UInt8 → Prop} {opening before tail : List UInt8}

theorem pieces_joined (hbefore : Blank before) (htail : Blank tail) {as : List α}
    {outs : List (List UInt8)} (h : List.Forall₂ R as outs) {a : α} {out : List UInt8}
    (hout : R a out) : Pieces R (a :: as) (out ++ (joined before outs ++ tail)) := by
  induction h generalizing a out with
  | nil => exact .last hout htail
  | cons hout' _ ih =>
    have hmore := Pieces.more hout blank_nil hbefore (ih hout')
    rw [joined]
    simpa only [List.nil_append, List.cons_append, List.append_assoc] using hmore

theorem enclosed_between (hopening : Blank opening) (hbefore : Blank before) (htail : Blank tail)
    {as : List α} {outs : List (List UInt8)} (h : List.Forall₂ R as outs) :
    Enclosed R as (between opening before tail outs) := by
  cases h with
  | nil => exact .none blank_nil
  | cons hout hall =>
    rw [between, List.append_assoc, List.append_assoc]
    exact .some hopening (pieces_joined hbefore htail hall hout)

end Layout

/-! ## The elements of items -/

/-- The key and the value of an `ObjectMember` -/
def memberOf (text : List Char) (x : Item ItemType) : Option (Utf8String × Tree) := do
  let key ← (x.findChildren ItemType.isString).head? >>= stringOf
  let y ← valueItem x
  let value ← element text y
  return (key, value)

theorem mapM_attach {β γ : Type} (xs : List β) (f : β → Option γ) :
    (xs.attach.mapM fun x => f x.1) = xs.mapM f := by
  conv_rhs => rw [← List.attach_map_subtype_val xs]
  rw [List.mapM_map]
  rfl

theorem element_array (text : List Char) (first : Item ItemType) (rest : IRs ItemType) :
    element text (.node .AstArray first rest) =
      ((findAll ItemType.isElement (first :: rest)).mapM (element text)).map
        fun elements => .array elements (some first.begin) := by
  rw [element, mapM_attach _ (element text)]
  cases (findAll ItemType.isElement (first :: rest)).mapM (element text) <;> rfl

theorem element_object (text : List Char) (first : Item ItemType) (rest : IRs ItemType) :
    element text (.node .AstObject first rest) =
      ((findAll ItemType.isMember (first :: rest)).mapM (memberOf text)).map
        fun members => .object (OrderedBy.ofList members : Members).toList (some first.begin) := by
  rw [element, ← mapM_attach _ (memberOf text)]
  simp only [Option.bind_eq_bind, Option.map_eq_bind]
  congr 1
  congr 1
  funext x
  simp only [memberOf, Option.bind_eq_bind]
  congr 1
  funext key
  split
  next y h => rw [h, Option.bind_some]
  next h => rw [h, Option.bind_none]

theorem element_number {text : List Char} {i j : Nat} {xs : IRs ItemType} (h : Tiles i xs j) :
    element text (Item.composite .AstNumber i xs) = some (.number (slice text i j) (some i)) := by
  have htiles : Tiles i [Item.composite .AstNumber i xs] j := tiles_composite h
  have hend := htiles.end_eq
  have hbegin := htiles.begin_eq
  cases xs with
  | nil =>
    rw [Item.composite] at hend hbegin ⊢
    rw [element, hend]
    rfl
  | cons first rest =>
    rw [Item.composite] at hend hbegin ⊢
    have hfirst : first.begin = i := hbegin
    rw [element, hend, hfirst]

/-- The item is of the element, but for the position. -/
def IsElement (e : Tree) (text : List UInt8) (x : Item ItemType) : Prop :=
  ∃ e', element (chars text) x = some e' ∧ e'.plain = e.plain

/-- The item is of the member. -/
def IsMember (m : Utf8String × Tree) (text : List UInt8) (x : Item ItemType) : Prop :=
  ∃ e', memberOf (chars text) x = some (m.1, e') ∧ e'.plain = m.2.plain

theorem elements_of_items {text : List UInt8} {es : List Tree} {items : IRs ItemType}
    (h : List.Forall₂ (fun e item => IsElement e text item) es items) :
    ∃ es', items.mapM (element (chars text)) = some es' ∧ plainAll es' = plainAll es := by
  induction h with
  | nil => exact ⟨[], rfl, rfl⟩
  | cons hitem _ ih =>
    obtain ⟨e', he', hplain⟩ := hitem
    obtain ⟨es', hes', hplainAll⟩ := ih
    refine ⟨e' :: es', ?_, by rw [plainAll, plainAll, hplain, hplainAll]⟩
    rw [List.mapM_cons, he', hes']
    rfl

theorem members_of_items {text : List UInt8} {ms : List (Utf8String × Tree)} {items : IRs ItemType}
    (h : List.Forall₂ (fun m item => IsMember m text item) ms items) :
    ∃ ms', items.mapM (memberOf (chars text)) = some ms' ∧ plainMembers ms' = plainMembers ms := by
  induction h with
  | nil => exact ⟨[], rfl, rfl⟩
  | @cons m item ms items hitem _ ih =>
    obtain ⟨e', he', hplain⟩ := hitem
    obtain ⟨ms', hms', hplainAll⟩ := ih
    refine ⟨(m.1, e') :: ms', ?_, by rw [plainMembers, plainMembers, hplain, hplainAll]⟩
    rw [List.mapM_cons, he', hms']
    rfl

theorem plainMembers_eq_map (ms : List (Utf8String × Tree)) :
    plainMembers ms = ms.map fun m => (m.1, m.2.plain) := by
  induction ms with
  | nil => rw [plainMembers, List.map_nil]
  | cons m ms ih => rw [plainMembers, ih, List.map_cons]

theorem plainMembers_ofList {ms ms' : List (Utf8String × Tree)}
    (h : plainMembers ms' = plainMembers ms) :
    plainMembers (OrderedBy.ofList ms' : Members).toList =
      plainMembers (OrderedBy.ofList ms : Members).toList := by
  have hkey : ∀ m : Utf8String × Tree, keyOf (m.1, m.2.plain) = keyOf m := fun _ => rfl
  rw [plainMembers_eq_map, plainMembers_eq_map] at h ⊢
  rw [← OrderedBy.toList_ofList_map hkey, ← OrderedBy.toList_ofList_map hkey, h]

end Urnest.Json
