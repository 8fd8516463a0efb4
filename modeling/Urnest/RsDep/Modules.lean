import Urnest.RsDep.Items

/-!
# The files of modules

The file of a `mod name;` by the reference of Rust, for source text in which attributes, modules and
other items follow each other, against what rs-dep writes of it. What rustc keeps of the place of a
module is a directory and, outside of inline modules in a file that is neither a crate root nor
mod.rs, the name of the file as a directory below it: paths are relative to the first, names are
looked for in the second. rs-dep has the second alone (`Place.inner`).

A path attribute gets to its module only if it is directly in front of it (`Kept`), as it is
otherwise read as any attribute, and an inline module that has one puts its name behind it.
-/

namespace Urnest.RsDep.Mods

open Xju.Path

/-! ## What there is in a source text -/

/-- An attribute: `path = "..."` with a path that is written `plain`, as a string literal without
escapes, or in another way, or something else. Conditions (`cfg`, `cfg_attr`) are not evaluated. -/
inductive Attr where
  | path (p : List Char) (plain : Bool)
  | other

/-- What there is in a file or an inline module, from somewhere on -/
inductive Source where
  | nil
  | attr (a : Attr) (rest : Source)
  | modDecl (isPub : Bool) (name : List Char) (rest : Source)
  | modDef (isPub : Bool) (name : List Char) (content rest : Source)
  /-- another item, with what is to be found for modules inside of its blocks -/
  | other (isPub : Bool) (inside : List (List AbsFile)) (rest : Source)

/-- White space -/
def Gap (x y : List Char) : Prop := eatWhite.run x = some ([], y)

/-- What an attribute begins with that is a path -/
def pathIntro : Parser :=
  literal "#" + eatWhite + literal "[" + eatWhite + kw_path + eatWhite + literal "="

/-- The attribute from `x` to `y` -/
structure IsAttr (a : Attr) (x y : List Char) : Prop where
  read : attr.run x = some ([], y)
  sameEnd : ∀ r, pathAttr.run x = some r → r.2 = y
  kind : match a with
    | .path p true => pathAttr.run x = some ([.item .path p []], y) ∧ Hcp.backslash ∉ p
    | .path _ false => (pathIntro.run x).isSome
    | .other => pathIntro.run x = none

inductive Visibility : Bool → List Char → List Char → Prop
  | private_ {x : List Char} : Visibility false x x
  | pub {x y z : List Char} (hpub : kw_pub.run x = some ([], y)) (hgap : Gap y z) :
      Visibility true x z

/-- `mod` and a name, up to what comes behind them -/
inductive Intro (modName : List Char) : List Char → List Char → Prop
  | intro {x y z u v : List Char} (hmod : kw_mod.run x = some ([], y)) (hgap : Gap y z)
      (hname : name.run z = some ([.item .name modName []], u)) (hgap' : Gap u v) :
      Intro modName x v

/-- An item that is neither a module nor an attribute, and that rs-dep reads to its end -/
structure IsOther (x y : List Char) : Prop where
  read : ∃ ns, otherItem.run x = some (ns, y) ∧ ∀ n ∈ ns, n.tag ≠ .modDef ∧ n.tag ≠ .modDecl
  shorter : y.length < x.length
  noClose : x.head? ≠ some '}'
  noWhite : Gap x x
  noPub : kw_pub.run x = none
  noMod : (optional kw_unsafe + kw_mod).run x = none

/-- A source text from `x` to `z` -/
inductive Written : Source → List Char → List Char → Prop
  | nil {z : List Char} : Written .nil z z
  | attr {a : Attr} {rest : Source} {x y y' z : List Char} (ha : IsAttr a x y) (hgap : Gap y y')
      (h : Written rest y' z) : Written (.attr a rest) x z
  | modDecl {isPub : Bool} {modName : List Char} {rest : Source} {x x' y y' z : List Char}
      (hpub : Visibility isPub x x') (hintro : Intro modName x' (';' :: y)) (hgap : Gap y y')
      (h : Written rest y' z) : Written (.modDecl isPub modName rest) x z
  | modDef {isPub : Bool} {modName : List Char} {content rest : Source}
      {x x' y y' u v z : List Char} (hpub : Visibility isPub x x')
      (hintro : Intro modName x' ('{' :: y)) (hgap : Gap y y')
      (hcontent : Written content y' ('}' :: u)) (hgap' : Gap u v) (h : Written rest v z) :
      Written (.modDef isPub modName content rest) x z
  | other {isPub : Bool} {inside : List (List AbsFile)} {rest : Source} {x x' y y' z : List Char}
      (hpub : Visibility isPub x x') (hother : IsOther x' y) (hgap : Gap y y')
      (h : Written rest y' z) : Written (.other isPub inside rest) x z

/-! ## The reference -/

/-- The path of a module with these attributes -/
def path? : List Attr → Option (List Char)
  | [] => none
  | .path p _ :: _ => some p
  | .other :: as => path? as

/-- Where a module is: in `directory`, and outside of inline modules in a file that is neither a
crate root nor mod.rs, `relative` has the name of the file. -/
structure Place where
  directory : AbsolutePath
  relative : Option DirName

/-- The directory of modules without a path -/
def Place.inner (p : Place) : Option AbsolutePath :=
  match p.relative with
  | none => some p.directory
  | some stem => addName p.directory stem

/-- The place of what is in a file -/
def Place.ofFile (crateRoot : Bool) (file : AbsFile) : Place :=
  if crateRoot ∨ file.2 = "mod.rs".toList then ⟨file.1, none⟩
  else ⟨file.1, some (baseName file.2)⟩

/-- The files for `mod modName;` -/
def Place.files (p : Place) (path : Option (List Char)) (modName : List Char) :
    Option (List AbsFile) :=
  match path with
  | some path => (split path p.directory).toOption.map fun f => [f]
  | none => p.inner.bind fun d => candidates d modName

/-- The place of what is in an inline module -/
def Place.enter (p : Place) (path : Option (List Char)) (modName : List Char) : Option Place :=
  match path with
  | some path => (splitdir path p.directory).toOption.map fun d => ⟨d, none⟩
  | none => p.inner.bind fun d => (addName d modName).map fun d => ⟨d, none⟩

/-- The files for each module that is declared, of which one has to be there. `attrs` are the
attributes in front. -/
def reference : Place → List Attr → Source → Option (List (List AbsFile))
  | _, _, .nil => some []
  | p, attrs, .attr a rest => reference p (attrs ++ [a]) rest
  | p, attrs, .modDecl _ modName rest => do
    let files ← p.files (path? attrs) modName
    let others ← reference p [] rest
    some (files :: others)
  | p, attrs, .modDef _ modName content rest => do
    let p' ← p.enter (path? attrs) modName
    let files ← reference p' [] content
    let others ← reference p [] rest
    some (files ++ others)
  | p, _, .other _ inside rest => do
    let others ← reference p [] rest
    some (inside ++ others)

/-- Attributes without a path, or with one that is plain and the last of them -/
def Kept (attrs : List Attr) : Prop :=
  path? attrs = none ∨ ∃ front p, attrs = front ++ [.path p true] ∧ path? front = none

/-- Where rs-dep goes wrong there is none of: a path of a declared module that is not kept, or one
that is not absolute where names are looked for in another directory than paths (`shifted`); a path
of an inline module; and a module in a block. -/
def Fine (shifted : Bool) : List Attr → Source → Prop
  | attrs, .nil => attrs = []
  | attrs, .attr a rest => Fine shifted (attrs ++ [a]) rest
  | attrs, .modDecl _ _ rest =>
    Kept attrs ∧ (shifted = true → ∀ path ∈ path? attrs, path.head? = some '/') ∧
      Fine shifted [] rest
  | attrs, .modDef _ _ content rest =>
    path? attrs = none ∧ Fine false [] content ∧ Fine shifted [] rest
  | _, .other _ inside rest => inside = [] ∧ Fine shifted [] rest

/-! ## Sequences -/

variable {a b : Parser} {ns ms : List Node} {x y z : List Char}

theorem run_add (ha : a.run x = some (ns, y)) (hb : b.run y = some (ms, z)) :
    (a + b).run x = some (ns ++ ms, z) := by
  change (a.run x).bind _ = _
  rw [ha, Option.bind_some, hb]
  rfl

theorem run_add_none (ha : a.run x = none) : (a + b).run x = none := by
  change (a.run x).bind _ = _
  rw [ha]
  rfl

theorem run_add_then_none (ha : a.run x = some (ns, y)) (hb : b.run y = none) :
    (a + b).run x = none := by
  change (a.run x).bind _ = _
  rw [ha, Option.bind_some, hb]
  rfl

/-- How a sequence reads what it reads -/
theorem run_add_eq_some {r : List Node × List Char} (h : (a + b).run x = some r) :
    ∃ ns y ms, a.run x = some (ns, y) ∧ b.run y = some (ms, r.2) ∧ r.1 = ns ++ ms := by
  change (a.run x).bind _ = _ at h
  obtain ⟨⟨ns, y⟩, ha, h⟩ := Option.bind_eq_some_iff.mp h
  obtain ⟨⟨ms, z⟩, hb, rfl⟩ := Option.map_eq_some_iff.mp h
  exact ⟨ns, y, ms, ha, hb, rfl⟩

theorem run_or (a b : Parser) (x : List Char) : (a ||| b).run x = (a.run x).or (b.run x) := rfl

theorem add_assoc_run (a b c : Parser) (x : List Char) :
    (a + b + c).run x = (a + (b + c)).run x := by
  cases ha : a.run x with
  | none => rw [run_add_none (run_add_none ha), run_add_none ha]
  | some r =>
    obtain ⟨ns, y⟩ := r
    cases hb : b.run y with
    | none => rw [run_add_none (run_add_then_none ha hb), run_add_then_none ha (run_add_none hb)]
    | some r' =>
      obtain ⟨ms, z⟩ := r'
      cases hc : c.run z with
      | none =>
        rw [run_add_then_none (run_add ha hb) hc, run_add_then_none ha (run_add_then_none hb hc)]
      | some r'' =>
        rw [run_add (run_add ha hb) hc, run_add ha (run_add hb hc), List.append_assoc]

theorem run_optional (ha : a.run x = some (ns, y)) : (optional a).run x = some (ns, y) := by
  simp [optional, ha]

theorem run_optional_none (ha : a.run x = none) : (optional a).run x = some ([], x) := by
  simp [optional, ha]

theorem run_named (tag : Tag) (ha : a.run x = some (ns, y)) :
    (named tag a).run x = some ([.item tag (x.take (x.length - y.length)) ns], y) := by
  simp [named, ha]

theorem run_named_none {tag : Tag} (ha : a.run x = none) : (named tag a).run x = none := by
  simp [named, ha]

theorem run_or_none (ha : a.run x = none) (hb : b.run x = none) : (a ||| b).run x = none := by
  rw [run_or, ha, hb]
  rfl

theorem run_or_right {r : List Node × List Char} (ha : a.run x = none) (hb : b.run x = some r) :
    (a ||| b).run x = some r := by
  rw [run_or, ha, hb]
  rfl

theorem run_or_left {r : List Node × List Char} (ha : a.run x = some r) :
    (a ||| b).run x = some r := by
  rw [run_or, ha]
  rfl

/-! ## What parsers begin with -/

/-- The parser reads nothing that does not begin with the character. -/
def Begins (a : Parser) (c : Char) : Prop := ∀ x, x.head? ≠ some c → a.run x = none

theorem begins_literal {s : String} {c : Char} (hs : s.toList.head? = some c) :
    Begins (literal s) c := by
  intro x hx
  rw [literal]
  dsimp only
  rw [if_neg]
  rintro h
  obtain ⟨y, rfl⟩ := List.isPrefixOf_iff_prefix.mp h
  cases hl : s.toList with
  | nil => simp [hl] at hs
  | cons d cs =>
    rw [hl] at hs hx
    exact hx hs

theorem Begins.add {c : Char} (ha : Begins a c) (b : Parser) : Begins (a + b) c :=
  fun x hx => run_add_none (ha x hx)

theorem begins_keyword {s : String} {c : Char} (hs : s.toList.head? = some c) :
    Begins (keyword s) c := (begins_literal hs).add _

theorem keyword_none_of_head {s : String} {c : Char} (hx : x.head? = some c)
    (hs : s.toList.head?.any (· ≠ c) = true) : (keyword s).run x = none := by
  obtain ⟨d, hd, hne⟩ := (Option.any_eq_true _ _).mp hs
  refine begins_keyword hd x fun h => ?_
  rw [hx, Option.some.injEq] at h
  simp [h] at hne

theorem begins_kw_pub : Begins kw_pub 'p' := begins_keyword (by decide)

theorem begins_kw_mod : Begins kw_mod 'm' := begins_keyword (by decide)

theorem begins_attr : Begins attr '#' := (Begins.add (begins_literal (by decide)) _).add _

theorem begins_pathAttr : Begins pathAttr '#' := by
  have hintro : Begins pathIntro '#' :=
    ((((((begins_literal (by decide)).add _).add _).add _).add _).add _).add _
  exact (((((hintro.add _).add _).add _).add _).add _).add _

theorem Begins.head {c : Char} (ha : Begins a c) {r : List Node × List Char}
    (h : a.run x = some r) : x.head? = some c := by
  by_contra hx
  rw [ha x hx] at h
  cases h

theorem gap_of_head {c : Char} (hc : c ∉ [' ', '\t', '\n', '\r', '/']) :
    Gap (c :: x) (c :: x) := by
  have hwhite : (whitespaceChar ||| literal "//" ||| literal "/*").run (c :: x) = none := by
    simp only [List.mem_cons, List.not_mem_nil, or_false, not_or] at hc
    refine run_or_none (run_or_none ?_ ?_) ?_
    · simp [whitespaceChar, oneChar, hc]
    · exact begins_literal (c := '/') (by decide) _ (by simp [hc])
    · exact begins_literal (c := '/') (by decide) _ (by simp [hc])
  refine run_or_left ?_
  simp only [not, hwhite]
  rfl

theorem run_zeroOrMore_none (ha : a.run x = none) : (zeroOrMore a).run x = some ([], x) := by
  simp [zeroOrMore, turns, ha]

section Hash

theorem keyword_hash {s : String} (hs : s.toList.head?.any (· ≠ '#') = true) (x : List Char) :
    (keyword s).run ('#' :: x) = none := keyword_none_of_head rfl hs

/-- A body with something in front that can be `unsafe` -/
theorem withBody_hash {s : String} (hs : s.toList.head?.any (· ≠ '#') = true)
    (x : List Char) :
    (withBody (optional ( kw_unsafe + eatWhite) + keyword s)).run ('#' :: x) = none := by
  refine run_add_none (run_add_none (run_add_then_none (run_optional_none ?_) ?_))
  · exact run_add_none (keyword_hash (by decide) x)
  · exact keyword_hash hs x

theorem fn_hash (x : List Char) : fn.run ('#' :: x) = none := by
  have hqualifier : (((keyword "const" ||| keyword "async" ||| kw_unsafe |||
      ( kw_extern + eatWhite + abi)) + eatWhite)).run ('#' :: x) = none := by
    refine run_add_none (run_or_none (run_or_none (run_or_none ?_ ?_) ?_)
      (run_add_none (run_add_none ?_)))
    all_goals exact keyword_hash (by decide) x
  have hstart : (functionQualifiers + eatWhite).run ('#' :: x) = some ([] ++ [], '#' :: x) :=
    run_add (run_zeroOrMore_none hqualifier) (gap_of_head (by decide))
  have hfn := run_add_then_none hstart (@keyword_hash "fn" (by decide) x)
  exact run_add_none (run_add_none (run_add_none (run_add_none (run_add_none hfn))))

/-- Nothing but an attribute begins with a hash sign. -/
theorem otherItem_hash (x : List Char) : otherItem.run ('#' :: x) = none := by
  have hkeyword {s : String} (hs : s.toList.head?.any (· ≠ '#') = true) :
      (keyword s).run ('#' :: x) = none := keyword_hash hs x
  have hcrate : externCrate.run ('#' :: x) = none :=
    run_named_none (run_add_none (run_add_none (run_add_none (run_add_none (run_add_none
      (run_add_none (hkeyword (by decide))))))))
  have huse : use.run ('#' :: x) = none :=
    run_add_none (run_add_none (hkeyword (by decide)))
  have hsemicolon {s : String} (hs : s.toList.head?.any (· ≠ '#') = true) :
      (upToSemicolon s).run ('#' :: x) = none := run_add_none (run_add_none (hkeyword hs))
  have hstruct : someStructIntro.run ('#' :: x) = none :=
    run_add_none (hkeyword (by decide))
  have hbody {s : String} (hs : s.toList.head?.any (· ≠ '#') = true) :
      (withBody (keyword s)).run ('#' :: x) = none := run_add_none (run_add_none (hkeyword hs))
  have hextern : externBlock.run ('#' :: x) = none := by
    refine run_add_none (run_add_none (run_add_none (run_add_none
      (run_add_then_none (run_optional_none ?_) ?_))))
    · exact run_add_none (hkeyword (by decide))
    · exact hkeyword (by decide)
  refine run_or_none (run_or_none (run_or_none (run_or_none (run_or_none (run_or_none
    (run_or_none (run_or_none (run_or_none (run_or_none (run_or_none hcrate huse) (fn_hash x))
      ?_) ?_) ?_) ?_) ?_) ?_) ?_) ?_) hextern
  · exact hsemicolon (by decide)
  · exact run_or_none (run_or_none (run_add_none hstruct)
      (run_add_none (run_add_none hstruct))) (run_add_none hstruct)
  · exact hbody (by decide)
  · exact hbody (by decide)
  · exact hsemicolon (by decide)
  · exact hsemicolon (by decide)
  · exact withBody_hash (by decide) x
  · exact withBody_hash (by decide) x

end Hash

/-! ## Reading modules -/

theorem add_assoc (a b c : Parser) : a + b + c = a + (b + c) := by
  have hrun : (a + b + c).run = (a + (b + c)).run := funext fun x => add_assoc_run a b c x
  cases h : a + b + c with
  | mk f hf =>
    cases h' : a + (b + c) with
    | mk g hg =>
      rw [h, h'] at hrun
      cases hrun
      rfl

/-- `modIntro` behind the attribute -/
def introTail : Parser :=
  eatWhite + (optional kw_pub + (eatWhite + ((optional kw_unsafe + kw_mod) + (eatWhite + name))))

theorem modIntro_eq : modIntro = named .modIntro (optional pathAttr + introTail) := by
  simp only [modIntro, introTail, add_assoc]

theorem Visibility.tail {isPub : Bool} {u : List Char} (hgap : Gap x y)
    (hpub : Visibility isPub y z) (hmod : z.head? = some 'm') {b : Parser}
    (hb : b.run z = some (ns, u)) :
    (eatWhite + (optional kw_pub + (eatWhite + b))).run x = some (ns, u) := by
  cases hpub with
  | private_ =>
    have hnone : kw_pub.run y = none := begins_kw_pub y (by rw [hmod]; decide)
    have hwhite : Gap y y := by
      cases y with
      | nil => cases hmod
      | cons c y =>
        cases hmod
        exact gap_of_head (by decide)
    exact run_add hgap (run_add (run_optional_none hnone) (run_add hwhite hb))
  | pub hkeyword hgap' => exact run_add hgap (run_add (run_optional hkeyword) (run_add hgap' hb))

/-- A module behind its attribute, if there is one that `pathAttr` reads -/
theorem modIntro_run {isPub : Bool} {modName u v : List Char}
    (hpath : (optional pathAttr).run x = some (ns, y)) (hgap : Gap y z)
    (hpub : Visibility isPub z u) (hintro : Intro modName u v) :
    ∃ text w, modIntro.run x = some ([.item .modIntro text (ns ++ [.item .name modName []])], w) ∧
      Gap w v := by
  obtain ⟨hmod, hgap', hname, hgap''⟩ := hintro
  have hhead := begins_kw_mod.head hmod
  have hunsafe : kw_unsafe.run u = none := keyword_none_of_head hhead (by decide)
  have htail := hpub.tail hgap hhead
    (run_add (run_add (run_optional_none hunsafe) hmod) (run_add hgap' hname))
  rw [modIntro_eq]
  exact ⟨_, _, run_named _ (run_add hpath htail), hgap''⟩

/-- What is not a module, by what is behind the attribute -/
theorem modIntro_none (hpath : (optional pathAttr).run x = some (ns, y))
    (htail : introTail.run y = none) : modIntro.run x = none := by
  rw [modIntro_eq]
  exact run_named_none (run_add_then_none hpath htail)

theorem introTail_hash (hgap : Gap x ('#' :: y)) : introTail.run x = none := by
  have hkeyword {s : String} (hs : s.toList.head?.any (· ≠ '#') = true) := keyword_hash hs y
  refine run_add_then_none hgap (run_add_then_none (run_optional_none (hkeyword (by decide)))
    (run_add_then_none (gap_of_head (by decide)) (run_add_none ?_)))
  exact run_add_then_none (run_optional_none (hkeyword (by decide))) (hkeyword (by decide))

theorem introTail_other {isPub : Bool} {u : List Char} (hgap : Gap x y)
    (hpub : Visibility isPub y z) (hother : IsOther z u) : introTail.run x = none := by
  have hrest : ((optional kw_unsafe + kw_mod) + (eatWhite + name)).run z = none :=
    run_add_none hother.noMod
  cases hpub with
  | private_ =>
    exact run_add_then_none hgap (run_add_then_none (run_optional_none hother.noPub)
      (run_add_then_none hother.noWhite hrest))
  | pub hkeyword hgap' =>
    exact run_add_then_none hgap (run_add_then_none (run_optional hkeyword)
      (run_add_then_none hgap' hrest))

theorem pathAttr_none (h : pathIntro.run x = none) : pathAttr.run x = none :=
  run_add_none (run_add_none (run_add_none (run_add_none (run_add_none (run_add_none h)))))

theorem IsAttr.head {a : Attr} (ha : IsAttr a x y) : ∃ x', x = '#' :: x' := by
  have hhead := begins_attr.head ha.read
  cases x with
  | nil => cases hhead
  | cons c x =>
    cases hhead
    exact ⟨x, rfl⟩

theorem Intro.head {modName : List Char} (h : Intro modName x y) : ∃ x', x = 'm' :: x' := by
  obtain ⟨hmod, -, -, -⟩ := h
  have hhead := begins_kw_mod.head hmod
  cases x with
  | nil => cases hhead
  | cons c x =>
    cases hhead
    exact ⟨x, rfl⟩

/-- What `optional(pathAttr)` reads of an attribute: nothing, or all of it -/
theorem IsAttr.optional {a : Attr} (ha : IsAttr a x y) :
    (optional pathAttr).run x = some ([], x) ∧ pathAttr.run x = none ∨
      ∃ ns, (optional pathAttr).run x = some (ns, y) := by
  cases h : pathAttr.run x with
  | none => exact .inl ⟨run_optional_none h, rfl⟩
  | some r =>
    refine .inr ⟨r.1, ?_⟩
    rw [← ha.sameEnd r h]
    exact run_optional h

/-- An attribute is no part of a module if there is none, or if it is none that `pathAttr` reads. -/
theorem IsAttr.modIntro_none {a : Attr} (ha : IsAttr a x y)
    (h : pathAttr.run x = none ∨ introTail.run y = none) : modIntro.run x = none := by
  obtain ⟨x, rfl⟩ := ha.head
  have hnone (hp : pathAttr.run ('#' :: x) = none) : modIntro.run ('#' :: x) = none :=
    Mods.modIntro_none (run_optional_none hp) (introTail_hash (gap_of_head (by decide)))
  rcases h with h | h
  · exact hnone h
  · rcases ha.optional with ⟨-, hp⟩ | ⟨ns, hp⟩
    · exact hnone hp
    · exact Mods.modIntro_none hp h

theorem isAttr_plain {p : List Char} (hread : attr.run x = some ([], y))
    (hpath : pathAttr.run x = some ([.item .path p []], y)) (hp : Hcp.backslash ∉ p) :
    IsAttr (.path p true) x y := by
  refine ⟨hread, fun r h => ?_, hpath, hp⟩
  rw [hpath] at h
  cases h
  rfl

theorem isAttr_other (hread : attr.run x = some ([], y)) (h : pathIntro.run x = none) :
    IsAttr .other x y := by
  refine ⟨hread, fun r hr => ?_, h⟩
  rw [pathAttr_none h] at hr
  cases hr

/-! ## Turns of the loop over items -/

variable {n : Nat}

theorem item_attr {a : Attr} (ha : IsAttr a x y) (hgap : Gap y z)
    (h : pathAttr.run x = none ∨ introTail.run y = none) :
    (item (n + 1) + eatWhite).run x = some ([], z) := by
  have hintro := ha.modIntro_none h
  obtain ⟨x, rfl⟩ := ha.head
  have hitem : (item (n + 1)).run ('#' :: x) = some ([], y) := by
    refine run_or_right (run_or_none (run_or_none (run_or_none
      (keyword_hash (by decide) x) ?_) ?_) (otherItem_hash x)) ha.read
    · exact run_named_none (run_add_none (run_add_none hintro))
    · exact run_named_none (run_add_none (run_add_none (run_add_none (run_add_none
        (run_add_none hintro)))))
  exact run_add hitem hgap

theorem item_pub (hpub : kw_pub.run x = some ([], y)) (hgap : Gap y z) :
    (item (n + 1) + eatWhite).run x = some ([], z) :=
  run_add (run_or_left (run_or_left (run_or_left (run_or_left hpub)))) hgap

theorem literal_semicolon (x : List Char) : (literal ";").run (';' :: x) = some ([], x) := by
  simp [literal]

theorem literal_open (x : List Char) : (literal "\x7b").run ('{' :: x) = some ([], x) := by
  simp [literal]

theorem literal_close (x : List Char) : (literal "\x7d").run ('}' :: x) = some ([], x) := by
  simp [literal]

theorem item_modDecl {isPub : Bool} {modName u v w : List Char} (hx : kw_pub.run x = none)
    (hpath : (optional pathAttr).run x = some (ns, y)) (hgap : Gap y z)
    (hpub : Visibility isPub z u) (hintro : Intro modName u (';' :: v)) (hgap' : Gap v w) :
    ∃ text text', (item (n + 1) + eatWhite).run x =
      some ([.item .modDecl text [.item .modIntro text' (ns ++ [.item .name modName []])]], w) := by
  obtain ⟨text, u', hrun, hgap''⟩ := modIntro_run hpath hgap hpub hintro
  have hdecl := run_named .modDecl (run_add (run_add hrun hgap'') (literal_semicolon v))
  exact ⟨_, _, run_add (run_or_left (run_or_left (run_or_left (run_or_right hx hdecl)))) hgap'⟩

theorem item_modDef {isPub : Bool} {modName u v v' w w' : List Char} (hx : kw_pub.run x = none)
    (hpath : (optional pathAttr).run x = some (ns, y)) (hgap : Gap y z)
    (hpub : Visibility isPub z u) (hintro : Intro modName u ('{' :: v)) (hgap' : Gap v v')
    (hcontent : (parseUntil (item n + eatWhite) (literal "\x7d")).run v' = some (ms, '}' :: w))
    (hgap'' : Gap w w') :
    ∃ text text' text'', (item (n + 1) + eatWhite).run x =
      some ([.item .modDef text [.item .modIntro text' (ns ++ [.item .name modName []]),
        .item .modImpl text'' ms]], w') := by
  obtain ⟨text, u', hrun, hgap₀⟩ := modIntro_run hpath hgap hpub hintro
  have hnot : modDecl.run x = none := by
    refine run_named_none (run_add_then_none (run_add hrun hgap₀) ?_)
    exact begins_literal (c := ';') (by decide) _ (by simp)
  have hdef := run_named .modDef (run_add (run_add (run_add (run_add (run_add hrun hgap₀)
    (literal_open v)) hgap') (run_named .modImpl hcontent)) (literal_close w))
  exact ⟨_, _, _, run_add (run_or_left (run_or_left (run_or_right (run_or_none hx hnot) hdef)))
    hgap''⟩

theorem item_other (hother : IsOther x y) (hgap : Gap y z) :
    ∃ ns, (item (n + 1) + eatWhite).run x = some (ns, z) ∧
      ∀ node ∈ ns, node.tag ≠ .modDef ∧ node.tag ≠ .modDecl := by
  obtain ⟨ns, hread, hns⟩ := hother.read
  have hpath : pathAttr.run x = none := begins_pathAttr x fun hhead => by
    cases x with
    | nil => cases hhead
    | cons c x =>
      cases hhead
      rw [otherItem_hash] at hread
      cases hread
  have hintro := modIntro_none (run_optional_none hpath)
    (introTail_other hother.noWhite .private_ hother)
  have hitem : (item (n + 1)).run x = some (ns, y) := by
    refine run_or_left (run_or_right (run_or_none (run_or_none hother.noPub ?_) ?_) hread)
    · exact run_named_none (run_add_none (run_add_none hintro))
    · exact run_named_none (run_add_none (run_add_none (run_add_none (run_add_none
        (run_add_none hintro)))))
  exact ⟨ns ++ [], run_add hitem hgap, by simpa using hns⟩

/-- Turns of `parseUntil`, each of which reads something -/
inductive Steps (match_ until_ : Parser) : List Char → List Node → List Char → Prop
  | nil {x : List Char} : Steps match_ until_ x [] x
  | cons {x y z : List Char} {ns ms : List Node} (hstop : until_.run x = none)
      (hmatch : match_.run x = some (ms, y)) (hlt : y.length < x.length)
      (h : Steps match_ until_ y ns z) : Steps match_ until_ x (ms ++ ns) z

theorem Steps.run (h : Steps a b x ns z) (hz : (b.run z).isSome) :
    (parseUntil a b).run x = some (ns, z) := by
  suffices hturns : ∀ k, x.length < k → turnsUntil a b k x = some (ns, z) from
    hturns _ (Nat.lt_succ_self _)
  induction h with
  | nil =>
    intro k hk
    obtain ⟨k, rfl⟩ : ∃ j, k = j + 1 := ⟨k - 1, by omega⟩
    simp [turnsUntil, hz]
  | cons hstop hmatch hlt _ ih =>
    intro k hk
    obtain ⟨k, rfl⟩ : ∃ j, k = j + 1 := ⟨k - 1, by omega⟩
    rw [turnsUntil, if_neg (by simp [hstop]), hmatch]
    simp only [ih hz k (by omega), Option.map_some]

/-! ## What is written of a module -/

theorem ofItems_append (f : Node → Option (List Char)) : ∀ ns ms, ofItems f (ns ++ ms) =
    (ofItems f ns).bind fun first => (ofItems f ms).map fun rest => first ++ rest
  | [], ms => by simp [ofItems]
  | c :: cs, ms => by
    cases hc : f c with
    | none => simp [ofItems, hc]
    | some first =>
      simp only [List.cons_append, ofItems, hc, ofItems_append f cs ms, Option.bind_eq_bind,
        Option.bind_some, Option.bind_assoc]
      cases ofItems f cs with
      | none => rfl
      | some rest => cases ofItems f ms <;> simp

theorem ofItems_other (g : List Node → AbsolutePath → Option (List Char)) (rDir : AbsolutePath) :
    ∀ {ns : List Node}, (∀ node ∈ ns, node.tag ≠ .modDef ∧ node.tag ≠ .modDecl) →
      ofItems (ofItem g rDir) ns = some []
  | [], _ => rfl
  | c :: cs, h => by
    have hc : ofItem g rDir c = some [] := by
      have htag := h c (by simp)
      rw [ofItem]
      split
      · next heq => exact absurd heq htag.1
      · next heq => exact absurd heq htag.2
      · rfl
    have hcs : ofItems (ofItem g rDir) cs = some [] :=
      ofItems_other g rDir fun node hn => h node (List.mem_cons_of_mem _ hn)
    rw [ofItems, hc, hcs]
    rfl

theorem ofItem_modDecl (g : List Node → AbsolutePath → Option (List Char)) (rDir : AbsolutePath)
    (text text' modName : List Char) :
    ofItem g rDir (.item .modDecl text [.item .modIntro text' ([] ++ [.item .name modName []])]) =
      (candidates rDir modName).map entry := by
  simp [ofItem, Node.tag, Node.items, Node.text, findOnlyChildOfType, findChildrenOfType, Node.find]
  cases candidates rDir modName <;> rfl

theorem ofItem_modDecl_path (g : List Node → AbsolutePath → Option (List Char))
    (rDir : AbsolutePath) (text text' modName p : List Char) :
    ofItem g rDir (.item .modDecl text
        [.item .modIntro text' ([.item .path p []] ++ [.item .name modName []])]) =
      (split p rDir).toOption.map fun f => entry [f] := by
  simp [ofItem, Node.tag, Node.items, Node.text, findChildrenOfType, Node.find]
  cases (split p rDir).toOption <;> rfl

theorem ofItem_modDef (g : List Node → AbsolutePath → Option (List Char)) (rDir : AbsolutePath)
    (text text' text'' modName : List Char) (ms : List Node) :
    ofItem g rDir (.item .modDef text
        [.item .modIntro text' ([] ++ [.item .name modName []]), .item .modImpl text'' ms]) =
      (addName rDir modName).bind fun d => g ms d := by
  simp [ofItem, Node.tag, Node.items, Node.text, findOnlyChildOfType, findChildrenOfType, Node.find]

/-- Where an absolute path leads to does not depend on the directory. -/
theorem split_absolute {p : List Char} (h : p.head? = some '/') (d d' : AbsolutePath) :
    (split p d).toOption = (split p d').toOption := by
  cases p with
  | nil => cases h
  | cons c p =>
    cases h
    rw [toOption_split, toOption_split]
    rfl

/-! ## Whole texts -/

theorem path?_append (attrs attrs' : List Attr) :
    path? (attrs ++ attrs') = (path? attrs).or (path? attrs') := by
  induction attrs with
  | nil => rfl
  | cons a as ih => cases a <;> simp [path?, ih]

/-- What can be behind what an item begins with -/
theorem ne_close {c : Char} {b : Parser} {r : List Node × List Char} (hb : Begins b c)
    (h : b.run x = some r) (hc : c ≠ '}') : x ≠ [] ∧ x.head? ≠ some '}' := by
  have hhead := hb.head h
  constructor
  · rintro rfl
    cases hhead
  · rw [hhead]
    simpa using hc

/-- The items of a text are read one after the other, and what is written of them is what the
reference says, where `attrs` are the attributes in front that have been read before. -/
def ReadsAs (shifted : Bool) (attrs : List Attr) (src : Source) (x z : List Char) : Prop :=
  ∀ (stop : Parser) (n : Nat), (∀ x, x ≠ [] → x.head? ≠ some '}' → stop.run x = none) →
    x.length ≤ n → ∃ ns, Steps (item n + eatWhite) stop x ns z ∧
      ∀ (p : Place) (rDir : AbsolutePath) (k : Nat), p.relative.isSome = shifted →
        p.inner = some rDir → x.length ≤ k → ofItems (ofItem (genModViewSpec k) rDir) ns =
          (reference p attrs src).map fun files => files.flatMap entry

/-- Something is read in front that nothing is written of. -/
theorem ReadsAs.step {shifted : Bool} {attrs attrs' : List Attr} {src src' : Source}
    (h : ReadsAs shifted attrs' src' y z) (hlt : y.length < x.length)
    (hx : x ≠ [] ∧ x.head? ≠ some '}')
    (hread : ∀ n, ∃ ns, (item (n + 1) + eatWhite).run x = some (ns, y) ∧
      ∀ node ∈ ns, node.tag ≠ .modDef ∧ node.tag ≠ .modDecl)
    (href : ∀ p, reference p attrs src = reference p attrs' src') :
    ReadsAs shifted attrs src x z := by
  intro stop n hstop hn
  obtain ⟨n, rfl⟩ : ∃ m, n = m + 1 := ⟨n - 1, by omega⟩
  obtain ⟨ms, hread, hms⟩ := hread n
  obtain ⟨ns, hsteps, hns⟩ := h stop (n + 1) hstop (by omega)
  refine ⟨ms ++ ns, .cons (hstop x hx.1 hx.2) hread hlt hsteps, fun p rDir k hp hinner hk => ?_⟩
  rw [ofItems_append, ofItems_other _ _ hms, hns p rDir k hp hinner (by omega), href,
    Option.bind_some,
    Option.map_map]
  rfl

theorem Gap.length (h : Gap x y) : y.length ≤ x.length := eatWhite.shrinks x _ h

theorem Visibility.length {isPub : Bool} (h : Visibility isPub x y) : y.length ≤ x.length := by
  cases h with
  | private_ => exact Nat.le_refl _
  | pub hpub hgap => exact Nat.le_trans hgap.length (kw_pub.shrinks x _ hpub)

/-- The parser reads something. -/
def Strict (a : Parser) : Prop := ∀ x r, a.run x = some r → r.2.length < x.length

theorem strict_literal {s : String} (hs : s.toList ≠ []) : Strict (literal s) := by
  intro x r h
  simp only [literal, Option.ite_none_right_eq_some, Option.some.injEq] at h
  obtain ⟨y, rfl⟩ := List.isPrefixOf_iff_prefix.mp h.1
  have := List.length_pos_iff.mpr hs
  simp only [← h.2, List.drop_left, List.length_append]
  omega

theorem Strict.add (ha : Strict a) (b : Parser) : Strict (a + b) := by
  intro x r h
  obtain ⟨ns, y, ms, hx, hy, -⟩ := run_add_eq_some h
  exact Nat.lt_of_le_of_lt (b.shrinks y (ms, r.2) hy) (ha _ _ hx)

theorem strict_kw_pub : Strict kw_pub := (strict_literal (by decide)).add _

theorem strict_kw_mod : Strict kw_mod := (strict_literal (by decide)).add _

theorem strict_attr : Strict attr := ((strict_literal (by decide)).add _).add _

theorem Intro.lt {modName : List Char} (h : Intro modName x y) : y.length < x.length := by
  obtain ⟨hmod, hgap, hname, hgap'⟩ := h
  have h₁ := strict_kw_mod _ _ hmod
  have h₂ := hgap.length
  have h₃ := name.shrinks _ _ hname
  have h₄ := hgap'.length
  simp only at h₁ h₃
  omega

/-- A declared module, with what is written of it -/
theorem readsAs_modDecl {shifted : Bool} {attrs : List Attr} {src rest : Source} {w : List Char}
    (hrest : ReadsAs shifted [] rest w z) (hlt : w.length < x.length)
    (hx : x ≠ [] ∧ x.head? ≠ some '}') (modName : List Char) (path : Option (List Char))
    (href : ∀ p, reference p attrs src = (p.files path modName).bind fun files =>
      (reference p [] rest).map fun others => files :: others)
    (hread : ∀ n, ∃ node, (item (n + 1) + eatWhite).run x = some ([node], w) ∧
      ∀ g (p : Place) rDir, p.relative.isSome = shifted → p.inner = some rDir →
        ofItem g rDir node = (p.files path modName).map entry) :
    ReadsAs shifted attrs src x z := by
  intro stop n hstop hn
  obtain ⟨n, rfl⟩ : ∃ m, n = m + 1 := ⟨n - 1, by omega⟩
  obtain ⟨node, hread, hnode⟩ := hread n
  obtain ⟨ns, hsteps, hns⟩ := hrest stop (n + 1) hstop (by omega)
  refine ⟨[node] ++ ns, .cons (hstop x hx.1 hx.2) hread hlt hsteps,
    fun p rDir k hp hinner hk => ?_⟩
  have hone : ofItems (ofItem (genModViewSpec k) rDir) [node] =
      (p.files path modName).map entry := by
    rw [← hnode _ p rDir hp hinner, ofItems, ofItems]
    cases ofItem (genModViewSpec k) rDir node <;> simp
  rw [ofItems_append, hone, hns p rDir k hp hinner (by omega), href]
  cases p.files path modName with
  | none => rfl
  | some files => cases reference p [] rest <;> simp

theorem files_none {p : Place} {rDir : AbsolutePath} (h : p.inner = some rDir)
    (modName : List Char) : p.files none modName = candidates rDir modName := by
  simp [Place.files, h]

/-- A path is looked for in the right directory if it is absolute or if there is only one. -/
theorem files_path {p : Place} {rDir : AbsolutePath} (h : p.inner = some rDir) {path : List Char}
    (habsolute : p.relative.isSome = true → path.head? = some '/') (modName : List Char) :
    p.files (some path) modName = (split path rDir).toOption.map fun f => [f] := by
  rw [Place.files]
  cases hrelative : p.relative with
  | none =>
    rw [Place.inner, hrelative] at h
    cases h
    rfl
  | some stem => rw [split_absolute (habsolute (by simp [hrelative])) p.directory rDir]

theorem stop_close {x : List Char} (_ : x ≠ []) (hx : x.head? ≠ some '}') :
    (literal "\x7d").run x = none := begins_literal (by decide) x hx

/-- An inline module without a path, with what is written of what is in it -/
theorem readsAs_modDef {shifted isPub : Bool} {attrs : List Attr} {content rest : Source}
    {modName u v w : List Char} (hpath : path? attrs = none)
    (hintro : Intro modName x ('{' :: y)) (hgap : Gap y u)
    (hcontent : ReadsAs false [] content u ('}' :: v)) (hgap' : Gap v w)
    (hle : v.length < u.length) (hrest : ReadsAs shifted [] rest w z) :
    ReadsAs shifted attrs (.modDef isPub modName content rest) x z := by
  have hlt := hintro.lt
  have hle' := hgap.length
  have hle'' := hgap'.length
  simp only [List.length_cons] at hlt
  intro stop n hstop hn
  obtain ⟨n, rfl⟩ : ∃ m, n = m + 1 := ⟨n - 1, by omega⟩
  obtain ⟨ms, hsteps, hms⟩ := hcontent _ n (fun _ => stop_close) (by omega)
  have hread := hsteps.run (by rw [literal_close]; rfl)
  obtain ⟨x, rfl⟩ := hintro.head
  have hnone : pathAttr.run ('m' :: x) = none := begins_pathAttr _ (by simp)
  obtain ⟨text, text', text'', hitem⟩ := item_modDef (begins_kw_pub _ (by simp))
    (run_optional_none hnone) (gap_of_head (by decide)) .private_ hintro hgap hread hgap'
  obtain ⟨ns, hsteps', hns⟩ := hrest stop (n + 1) hstop (by omega)
  refine ⟨_ ++ ns, .cons (hstop _ (by simp) (by simp)) hitem (by omega) hsteps',
    fun p rDir k hp hinner hk => ?_⟩
  obtain ⟨k, rfl⟩ : ∃ j, k = j + 1 := ⟨k - 1, by omega⟩
  have hone : ofItems (ofItem (genModViewSpec (k + 1)) rDir) [.item .modDef text
      [.item .modIntro text' ([] ++ [.item .name modName []]), .item .modImpl text'' ms]] =
      ((addName rDir modName).bind fun d => reference ⟨d, none⟩ [] content).map fun files =>
        files.flatMap entry := by
    rw [ofItems, ofItems, ofItem_modDef]
    cases addName rDir modName with
    | none => rfl
    | some d =>
      have hinside := hms ⟨d, none⟩ d k rfl rfl (by omega)
      rw [Option.bind_some, Option.bind_some, genModViewSpec, hinside]
      cases reference ⟨d, none⟩ [] content <;> simp
  have henter : p.enter none modName = (addName rDir modName).map fun d => ⟨d, none⟩ := by
    simp [Place.enter, hinner]
  rw [ofItems_append, hone, hns p rDir (k + 1) hp hinner (by omega), reference, hpath, henter]
  cases addName rDir modName with
  | none => rfl
  | some d =>
    simp only [Option.map_some, Option.bind_eq_bind, Option.bind_some]
    cases reference ⟨d, none⟩ [] content with
    | none => rfl
    | some files => cases reference p [] rest <;> simp

theorem Written.length {src : Source} (h : Written src x z) : z.length ≤ x.length := by
  induction h with
  | nil => exact Nat.le_refl _
  | attr ha hgap _ ih =>
    have hread := strict_attr _ _ ha.read
    exact Nat.le_trans ih (Nat.le_trans hgap.length hread.le)
  | modDecl hpub hintro hgap _ ih =>
    have hlt := hintro.lt
    have hle := hpub.length
    have hle' := hgap.length
    simp only [List.length_cons] at hlt
    omega
  | modDef hpub hintro hgap _ hgap' _ ih ih' =>
    have hlt := hintro.lt
    have hle := hpub.length
    have hle' := hgap.length
    have hle'' := hgap'.length
    simp only [List.length_cons] at hlt ih
    omega
  | other hpub hother hgap _ ih =>
    have hlt := hother.shorter
    have hle := hpub.length
    have hle' := hgap.length
    omega

/-- `pub` is read on its own. -/
theorem ReadsAs.pub {shifted isPub : Bool} {attrs : List Attr} {src src' : Source}
    (h : ReadsAs shifted attrs src' y z) (hpub : Visibility isPub x y)
    (href : ∀ p, reference p attrs src = reference p attrs src') :
    ReadsAs shifted attrs src x z := by
  cases hpub with
  | private_ =>
    intro stop n hstop hn
    obtain ⟨ns, hsteps, hns⟩ := h stop n hstop hn
    exact ⟨ns, hsteps, fun p rDir k hp hinner hk => by rw [hns p rDir k hp hinner hk, href]⟩
  | pub hkeyword hgap =>
    have hlt := strict_kw_pub _ _ hkeyword
    refine h.step (Nat.lt_of_le_of_lt hgap.length hlt)
      (ne_close begins_kw_pub hkeyword (by decide)) (fun n => ?_) href
    exact ⟨[], item_pub hkeyword hgap, by simp⟩

/-- The attributes are read before what is in front of which they are, so a module has to have no
path among them. -/
def Lost (attrs : List Attr) : Source → Prop
  | .attr _ rest => Lost attrs rest
  | .modDecl _ _ _ => path? attrs = none
  | .modDef _ _ _ _ => path? attrs = none
  | .nil | .other _ _ _ => True

theorem Kept.front {attrs attrs' : List Attr} (h : Kept (attrs ++ attrs')) (hne : attrs' ≠ []) :
    path? attrs = none := by
  have hfront {as bs : List Attr} (h : path? (as ++ bs) = none) : path? as = none := by
    rw [path?_append, Option.or_eq_none_iff] at h
    exact h.1
  rcases h with h | ⟨front, p, heq, h⟩
  · exact hfront h
  · rw [← List.dropLast_append_getLast hne, ← List.append_assoc] at heq
    rw [← (List.append_inj' heq rfl).1] at h
    exact hfront h

/-- All attributes but the last are lost. -/
theorem Fine.lost {shifted : Bool} {attrs : List Attr} : ∀ {attrs' : List Attr} {src : Source},
    Fine shifted (attrs ++ attrs') src → attrs' ≠ [] → Lost attrs src
  | _, .nil, _, _ => trivial
  | attrs', .attr a rest, h, _ => by
    rw [Fine, List.append_assoc] at h
    exact @Fine.lost shifted attrs _ rest h (by simp)
  | _, .modDecl _ _ _, h, hne => h.1.front hne
  | _, .modDef _ _ _ _, h, hne => Kept.front (.inl h.1) hne
  | _, .other _ _ _, _, _ => trivial

theorem lost_nil : ∀ src, Lost [] src
  | .attr _ rest => lost_nil rest
  | .modDecl _ _ _ | .modDef _ _ _ _ => rfl
  | .nil | .other _ _ _ => trivial

theorem Lost.other {attrs : List Attr} : ∀ {src : Source}, Lost attrs src →
    Lost (attrs ++ [.other]) src
  | .nil, _ => trivial
  | .attr _ rest, h => @Lost.other attrs rest h
  | .modDecl _ _ _, h | .modDef _ _ _ _, h => by
    change path? _ = none at h
    change path? _ = none
    rw [path?_append, h]
    rfl
  | .other _ _ _, _ => trivial

/-- An attribute that is an item of its own, whatever the reference sees in it -/
theorem readsAs_attr {shifted : Bool} {attrs : List Attr} {a b : Attr} {rest : Source}
    (ha : IsAttr a x y) {u : List Char} (hgap : Gap y u)
    (hlost : pathAttr.run x = none ∨ introTail.run y = none)
    (h : ReadsAs shifted (attrs ++ [b]) rest u z) : ReadsAs shifted attrs (.attr b rest) x z := by
  have hlt := strict_attr _ _ ha.read
  refine h.step (Nat.lt_of_le_of_lt hgap.length hlt)
    (ne_close begins_attr ha.read (by decide)) (fun n => ?_) fun p => rfl
  exact ⟨[], item_attr ha hgap hlost, by simp⟩

/-- A path attribute that is read with its module -/
theorem readsAs_path {shifted isPub : Bool} {attrs : List Attr} {rest : Source}
    {p modName u v w t : List Char} (hattrs : path? attrs = none) (ha : IsAttr (.path p true) x y)
    (hgap : Gap y u) (hpub : Visibility isPub u v) (hintro : Intro modName v (';' :: w))
    (hgap' : Gap w t) (habsolute : shifted = true → p.head? = some '/')
    (h : ReadsAs shifted [] rest t z) :
    ReadsAs shifted attrs (.attr (.path p true) (.modDecl isPub modName rest)) x z := by
  have hpath : path? (attrs ++ [.path p true]) = some p := by
    rw [path?_append, hattrs]
    rfl
  have hlt : t.length < x.length := by
    have h₁ := strict_attr _ _ ha.read
    have h₂ := hgap.length
    have h₃ := hpub.length
    have h₄ := hintro.lt
    have h₅ := hgap'.length
    simp only [List.length_cons] at h₁ h₄
    omega
  refine readsAs_modDecl h hlt (ne_close begins_attr ha.read (by decide)) modName (some p)
    (fun q => ?_) fun n => ?_
  · rw [reference, reference, hpath]
    cases q.files (some p) modName with
    | none => rfl
    | some files => cases reference q [] rest <;> rfl
  · obtain ⟨x, rfl⟩ := ha.head
    obtain ⟨text, text', hread⟩ := item_modDecl (n := n) (keyword_hash (by decide) x)
      (run_optional ha.kind.1) hgap hpub hintro hgap'
    refine ⟨_, hread, fun g q rDir hq hinner => ?_⟩
    rw [ofItem_modDecl_path, files_path hinner (by rwa [hq])]
    cases (split p rDir).toOption <;> rfl

/-- A module without a path, behind `pub` -/
theorem readsAs_noPath {shifted isPub : Bool} {attrs : List Attr} {rest : Source}
    {modName u v : List Char} (hattrs : path? attrs = none)
    (hintro : Intro modName x (';' :: u)) (hgap : Gap u v) (h : ReadsAs shifted [] rest v z) :
    ReadsAs shifted attrs (.modDecl isPub modName rest) x z := by
  have hlt : v.length < x.length := by
    have hlt := hintro.lt
    have hle := hgap.length
    simp only [List.length_cons] at hlt
    omega
  obtain ⟨x, rfl⟩ := hintro.head
  refine readsAs_modDecl h hlt (by simp) modName none (fun q => ?_) fun n => ?_
  · rw [reference, hattrs]
    cases q.files none modName with
    | none => rfl
    | some files => cases reference q [] rest <;> rfl
  · have hpath : pathAttr.run ('m' :: x) = none := begins_pathAttr _ (by simp)
    obtain ⟨text, text', hread⟩ := item_modDecl (n := n) (begins_kw_pub _ (by simp))
      (run_optional_none hpath) (gap_of_head (by decide)) .private_ hintro hgap
    refine ⟨_, hread, fun g q rDir hq hinner => ?_⟩
    rw [ofItem_modDecl, files_none hinner]

theorem readsAs_other {shifted isPub : Bool} {attrs : List Attr} {rest : Source} {u : List Char}
    (hother : IsOther x y) (hgap : Gap y u) (h : ReadsAs shifted [] rest u z) :
    ReadsAs shifted attrs (.other isPub [] rest) x z := by
  have hlt := Nat.lt_of_le_of_lt hgap.length hother.shorter
  refine h.step hlt ⟨List.ne_nil_of_length_pos (by omega), hother.noClose⟩
    (fun n => item_other hother hgap) fun p => ?_
  rw [reference]
  cases reference p [] rest <;> rfl

/-- The induction is on the source; an attribute is either read as an item or with the module that
it is directly in front of. -/
theorem readsAs : ∀ {src : Source} {shifted : Bool} {attrs : List Attr} {x z : List Char},
    Written src x z → Fine shifted attrs src → Lost attrs src → ReadsAs shifted attrs src x z
  | .nil, shifted, attrs, x, z, h, hfine, hlost => by
    cases h
    intro stop n _ _
    exact ⟨[], .nil, fun p rDir k _ _ _ => rfl⟩
  | .attr a rest, shifted, attrs, x, z, h, hfine, hlost => by
    cases h with
    | attr ha hgap h =>
      cases a with
      | other =>
        exact readsAs_attr ha hgap (.inl (pathAttr_none ha.kind)) (readsAs h hfine hlost.other)
      | path p plain =>
        cases rest with
        | nil => simp [Fine] at hfine
        | attr b rest' =>
          have hlost' : Lost (attrs ++ [.path p plain]) (.attr b rest') := by
            have hfine' := hfine
            rw [Fine, Fine] at hfine'
            exact @Fine.lost _ _ [b] rest' hfine' (by simp)
          refine readsAs_attr ha hgap (.inr ?_) (readsAs h hfine hlost')
          cases h with
          | attr hb _ _ =>
            obtain ⟨x', rfl⟩ := hb.head
            exact introTail_hash hgap
        | modDecl isPub modName rest' =>
          obtain ⟨hkept, habsolute, hfine'⟩ := hfine
          have hpath : path? (attrs ++ [.path p plain]) = some p := by
            rw [path?_append, hlost]
            rfl
          obtain rfl : plain = true := by
            rcases hkept with hkept | ⟨front, q, heq, -⟩
            · rw [hpath] at hkept
              cases hkept
            · have hlast := (List.append_inj' heq rfl).2
              simp only [List.cons.injEq, Attr.path.injEq, and_true] at hlast
              exact hlast.2
          cases h with
          | modDecl hpub hintro hgap' h =>
            exact readsAs_path hlost ha hgap hpub hintro hgap' (fun hs => habsolute hs p hpath)
              (readsAs h hfine' (lost_nil rest'))
        | modDef isPub modName content rest' => simp [Fine, path?_append, path?] at hfine
        | other isPub inside rest' =>
          refine readsAs_attr ha hgap (.inr ?_) (readsAs h hfine trivial)
          cases h with
          | other hpub hother _ _ => exact introTail_other hgap hpub hother
  | .modDecl isPub modName rest, shifted, attrs, x, z, h, hfine, hlost => by
    cases h with
    | modDecl hpub hintro hgap h =>
      have hrest := readsAs h hfine.2.2 (lost_nil rest)
      have hprivate : ReadsAs shifted attrs (.modDecl isPub modName rest) _ z :=
        readsAs_noPath hlost hintro hgap hrest
      exact hprivate.pub hpub fun p => rfl
  | .modDef isPub modName content rest, shifted, attrs, x, z, h, hfine, hlost => by
    cases h with
    | modDef hpub hintro hgap hcontent hgap' h =>
      have hinside := readsAs hcontent hfine.2.1 (lost_nil content)
      have hrest := readsAs h hfine.2.2 (lost_nil rest)
      have hprivate : ReadsAs shifted attrs (.modDef isPub modName content rest) _ z :=
        readsAs_modDef hlost hintro hgap hinside hgap' hcontent.length hrest
      exact hprivate.pub hpub fun p => rfl
  | .other isPub inside rest, shifted, attrs, x, z, h, hfine, hlost => by
    cases h with
    | other hpub hother hgap h =>
      obtain ⟨rfl, hfine'⟩ := hfine
      have hprivate : ReadsAs shifted attrs (.other isPub [] rest) _ z :=
        readsAs_other hother hgap (readsAs h hfine' (lost_nil rest))
      exact hprivate.pub hpub fun p => rfl

/-! ## The view spec of a file -/

/-- The text of a file with `src` in it, behind what can be in front of the items -/
def IsText (src : Source) (content : List Char) : Prop :=
  ∃ x, (optional utf8BOM + optional shebang + eatWhite).run content = some ([], x) ∧
    Written src x []

/-- rs-dep lists the files that rustc looks for, module after module. -/
def ListsReference (crateRoot : Bool) (thisFile : AbsFile) (src : Source) (content : List Char) :
    Prop :=
  modViewSpec crateRoot thisFile content =
    (reference (.ofFile crateRoot thisFile) [] src).map fun files => files.flatMap entry

theorem inner_ofFile (crateRoot : Bool) (file : AbsFile) :
    (Place.ofFile crateRoot file).inner = thisModDir crateRoot file := by
  unfold Place.ofFile thisModDir
  split <;> rfl

/-- What is in front of the items makes none. -/
theorem parseRS_run {depth : Nat} (hfront : (optional utf8BOM + optional shebang + eatWhite).run x =
    some ([], y)) (hitems : (parseUntil (item depth + eatWhite) endOfFile).run y = some (ns, z)) :
    (parseRS depth).run x = some (ns, z) := run_add hfront hitems

/-- What is written of a file whose items are read -/
theorem modViewSpec_eq {crateRoot : Bool} {thisFile : AbsFile} {src : Source} {content : List Char}
    (hfront : (optional utf8BOM + optional shebang + eatWhite).run content = some ([], x))
    (hdir : (thisModDir crateRoot thisFile).isSome)
    (h : ReadsAs (Place.ofFile crateRoot thisFile).relative.isSome [] src x []) :
    modViewSpec crateRoot thisFile content =
      (reference (.ofFile crateRoot thisFile) [] src).map fun files => files.flatMap entry := by
  obtain ⟨rDir, hdir⟩ := Option.isSome_iff_exists.mp hdir
  have hle : x.length ≤ content.length :=
    (optional utf8BOM + optional shebang + eatWhite).shrinks content ([], x) hfront
  have hstop (y : List Char) (hy : y ≠ []) (_ : y.head? ≠ some '}') : endOfFile.run y = none := by
    simp [endOfFile, hy]
  obtain ⟨ns, hsteps, hns⟩ := h endOfFile (content.length + 1) hstop (by omega)
  have hread : (parseRS (content.length + 1)).run content = some (ns, []) :=
    parseRS_run hfront (hsteps.run (by simp [endOfFile]))
  have hspec := hns (.ofFile crateRoot thisFile) rDir content.length rfl
    (by rw [inner_ofFile, hdir]) hle
  rw [← hspec, modViewSpec, hdir]
  simp only [hread, Option.bind_eq_bind, Option.bind_some]
  rfl

/-! ## A path that is lost -/

/-- A source with attributes in front -/
def Source.behind (attrs : List Attr) (src : Source) : Source := attrs.foldr .attr src

theorem reference_behind (p : Place) (src : Source) : ∀ attrs attrs',
    reference p attrs (.behind attrs' src) = reference p (attrs ++ attrs') src
  | attrs, [] => by rw [List.append_nil]; rfl
  | attrs, a :: as => by
    rw [Source.behind, List.foldr_cons, reference, ← Source.behind, reference_behind,
      List.append_assoc]
    rfl

theorem fine_behind (shifted : Bool) (src : Source) : ∀ attrs attrs',
    Fine shifted attrs (.behind attrs' src) ↔ Fine shifted (attrs ++ attrs') src
  | attrs, [] => by rw [List.append_nil]; rfl
  | attrs, a :: as => by
    rw [Source.behind, List.foldr_cons, Fine, ← Source.behind, fine_behind, List.append_assoc]
    rfl

theorem lost_behind {src : Source} {attrs : List Attr} (h : Lost attrs src) : ∀ attrs',
    Lost attrs (.behind attrs' src)
  | [] => h
  | _ :: as => lost_behind h as

/-- A module with no path that counts -/
theorem fine_modDecl {shifted isPub : Bool} {attrs : List Attr} {modName : List Char}
    (h : path? attrs = none) : Fine shifted attrs (.modDecl isPub modName .nil) := by
  refine ⟨.inl h, fun _ path hpath => ?_, rfl⟩
  rw [h] at hpath
  cases hpath

/-- A path with an attribute between it and its module is read as if it were none. -/
theorem readsAs_lost {shifted isPub : Bool} {p modName : List Char} {plain : Bool} {b : Attr}
    {back : List Attr} (hback : path? (b :: back) = none) :
    ∀ {front attrs : List Attr} {x : List Char}, path? front = none → path? attrs = none →
      Written (.behind (front ++ .path p plain :: b :: back) (.modDecl isPub modName .nil)) x z →
      ReadsAs shifted attrs
        (.behind (front ++ .other :: b :: back) (.modDecl isPub modName .nil)) x z
  | [], attrs, x, _, hattrs, h => by
    have hnone : path? (attrs ++ [.other]) = none := by
      rw [path?_append, hattrs]
      rfl
    cases h with
    | attr ha hgap h =>
      have hfine : Fine shifted (attrs ++ [.other])
          (.behind (b :: back) (.modDecl isPub modName .nil)) := by
        rw [fine_behind]
        exact fine_modDecl (by rw [path?_append, hnone, hback]; rfl)
      have hlost : Lost (attrs ++ [.other]) (.modDecl isPub modName .nil) := hnone
      refine readsAs_attr ha hgap (.inr ?_) (readsAs h hfine (lost_behind hlost (b :: back)))
      cases h with
      | attr hb _ _ =>
        obtain ⟨x', rfl⟩ := hb.head
        exact introTail_hash hgap
  | .other :: front, attrs, x, hfront, hattrs, h => by
    have hnone : path? (attrs ++ [.other]) = none := by
      rw [path?_append, hattrs]
      rfl
    cases h with
    | @attr _ _ _ _ y _ ha hgap h =>
      have h : Written (.behind (front ++ .path p plain :: b :: back)
          (.modDecl isPub modName .nil)) y z := h
      exact readsAs_attr ha hgap (.inl (pathAttr_none ha.kind)) (readsAs_lost hback hfront hnone h)

/-- What is written of one file is not what is written of two. -/
theorem entry_ne {f : AbsFile} (h : '\n' ∉ f.str) (f₁ f₂ : AbsFile) :
    entry [f₁, f₂] ≠ entry [f] := by
  intro heq
  have hcount := congrArg (List.count '\n') heq
  have hzero : List.count '\n' f.str = 0 := List.count_eq_zero.mpr h
  simp only [entry, List.flatMap_cons, List.flatMap_nil, List.count_append, List.count_cons,
    List.count_nil, hzero, Hcp.quote] at hcount
  simp at hcount
  omega

/-- What is written of one declared module -/
theorem reference_modDecl (p : Place) (attrs : List Attr) (isPub : Bool) (modName : List Char) :
    (reference p attrs (.modDecl isPub modName .nil)).map (fun files => files.flatMap entry) =
      (p.files (path? attrs) modName).map entry := by
  rw [reference, reference]
  cases p.files (path? attrs) modName <;> simp

/-- The directory of the examples -/
def srcDir : AbsolutePath := ⟨["src".toList], by decide⟩

/-- A module with a path in an inline module, and one behind that -/
def nested : Source :=
  .other false [] (.modDef false "m".toList
    (.attr .other (.attr (.path "y.rs".toList true) (.modDecl true "x".toList .nil)))
    (.modDecl false "z".toList .nil))

def nestedText : List Char :=
  "use a;mod m\x7b#[cfg(a)]#[path=\"y.rs\"]pub mod x;\x7dmod z;".toList

theorem isText_nested : IsText nested nestedText := by
  have hinside : Written (.attr .other (.attr (.path "y.rs".toList true)
      (.modDecl true "x".toList .nil)))
      "#[cfg(a)]#[path=\"y.rs\"]pub mod x;\x7dmod z;".toList "\x7dmod z;".toList :=
    .attr (isAttr_other rfl rfl) rfl (.attr (isAttr_plain rfl rfl (by decide)) rfl
      (.modDecl (.pub rfl rfl) (.intro rfl rfl rfl rfl) rfl .nil))
  have huse : IsOther nestedText
      "mod m\x7b#[cfg(a)]#[path=\"y.rs\"]pub mod x;\x7dmod z;".toList :=
    ⟨⟨[], rfl, by simp⟩, by decide, by decide, rfl, rfl, rfl⟩
  exact ⟨nestedText, rfl, .other .private_ huse rfl (.modDef .private_ (.intro rfl rfl rfl rfl) rfl
    hinside rfl (.modDecl .private_ (.intro rfl rfl rfl rfl) rfl .nil))⟩

/-- A path in front of another attribute -/
def lost : Source :=
  .attr (.path "y.rs".toList true) (.attr .other (.modDecl false "x".toList .nil))

def lostText : List Char := "#[path=\"y.rs\"]#[cfg(a)]mod x;".toList

theorem isText_lost : IsText lost lostText :=
  ⟨lostText, rfl, .attr (isAttr_plain rfl rfl (by decide)) rfl (.attr (isAttr_other rfl rfl) rfl
    (.modDecl .private_ (.intro rfl rfl rfl rfl) rfl .nil))⟩

example : modViewSpec false (srcDir, "f.rs".toList) nestedText = some
    "'/src/f/m/y.rs'\n=''\n'/src/f/z.rs'\n'/src/f/z/mod.rs'\n=''\n".toList := by decide +kernel

/-- A path in any other file is looked for where names are. -/
example : modViewSpec false (srcDir, "f.rs".toList) "#[path=\"y.rs\"]mod x;".toList =
    some "'/src/f/y.rs'\n=''\n".toList := by decide +kernel

end Urnest.RsDep.Mods
