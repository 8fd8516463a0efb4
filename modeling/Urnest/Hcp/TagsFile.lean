import Urnest.Hcp.Shapes
import Urnest.Hcp.Tags
import Urnest.Hcp.Termination
import Urnest.Xju.Path
import Urnest.Xml.TagText

/-!
# Tags files

`augmentRootNamespace` parses a tags file as a whole, and then adds its entries to the root
namespace one after the other. A line number that is out of range fails in the parser, with
nothing added yet. But a file name is split only when its entry's turn has come: where that throws,
the entries before it have been added (`augment_all_or_nothing_iff`).
-/

namespace Urnest.Hcp.Tags

open Lib Lib.Asking Xju Xju.Path

/-! ## The grammar -/

inductive TagsItem where
  | Symbol | ParsedFileName | ParsedHeaderName | ParsedLineNumber | ParsedLocation | ParsedHeader
  | Entry | EndOfFile
  deriving DecidableEq

abbrev TagsPR := Parser Unit TagsItem Empty

namespace TagsPR

def parseLiteral (x : String) : TagsPR := .literal () x

def namedParser (type : TagsItem) (name : String) (x : TagsPR) : TagsPR := .named () type name x

/-- The terms that `operator+` puts together -/
def all (first : TagsPR) (rest : List TagsPR) : TagsPR := .and () first rest

def eatWhite_ : TagsPR := .zeroOrMore () (.oneOfChars () [' ', '\t', '\n', '\r'])

def doubleQuote_ : TagsPR := .oneOfChars () [doubleQuoteChar]

def stringValue : TagsPR := .anyUntil () doubleQuote_

def symbol : TagsPR := namedParser .Symbol "symbol" stringValue

def fileName : TagsPR := namedParser .ParsedFileName "file name" stringValue

def headerName : TagsPR := namedParser .ParsedHeaderName "file name" stringValue

def digit : TagsPR := .charInRange () '0' '9'

def lineNumber : TagsPR :=
  namedParser .ParsedLineNumber "line number" (all digit [.zeroOrMore () digit])

/-- A key of a location or a header, in its quotes -/
def key (x : Char) : TagsPR := parseLiteral (String.ofList [doubleQuoteChar, x, doubleQuoteChar])

def location : TagsPR :=
  namedParser .ParsedLocation "location" (all (parseLiteral "\x7b")
    [eatWhite_, key 'f', eatWhite_, parseLiteral ":", eatWhite_, doubleQuote_, fileName,
      doubleQuote_, eatWhite_, parseLiteral ",", eatWhite_, key 'l', eatWhite_, parseLiteral ":",
      eatWhite_, lineNumber, eatWhite_, parseLiteral "\x7d", eatWhite_])

def header : TagsPR :=
  namedParser .ParsedHeader "header" (all (parseLiteral "\x7b")
    [eatWhite_, key 'h', eatWhite_, parseLiteral ":", eatWhite_, doubleQuote_, headerName,
      doubleQuote_, eatWhite_, parseLiteral "\x7d", eatWhite_])

/-- `listOf` with an opener, where white space is eaten behind it, the separators and the
terminator; the name shows the targets of its parts, too. -/
def listOf (opener x separator terminator : TagsPR) : TagsPR :=
  .anon () "-separated list of" (all opener [eatWhite_, .or () (all terminator [eatWhite_])
    [all x [.specificUntil () (all separator [eatWhite_, x]) (all terminator [eatWhite_]),
      terminator, eatWhite_]]])

def locations : TagsPR :=
  listOf (parseLiteral "[") (.or () location [header]) (parseLiteral ",") (parseLiteral "]")

def entry : TagsPR :=
  namedParser .Entry "entry" (all doubleQuote_
    [symbol, doubleQuote_, eatWhite_, parseLiteral ":", eatWhite_, locations])

def tagsFile : TagsPR :=
  all (listOf (parseLiteral "\x7b") entry (parseLiteral ",") (parseLiteral "\x7d"))
    [.endOfFile () .EndOfFile]

end TagsPR

/-- What the constructor of a `ParsedLineNumber` throws; those of the others throw nothing. The
parsers that are static in parser.cc are not asked. -/
def tagsGrammar (text : List Char) : Grammar Unit TagsItem Empty where
  parserOf := nofun
  c_char := .anyChar ()
  stringLiteral := .anyChar ()
  rawStringLiteral := .anyChar ()
  comments := .anyChar ()
  construct
    | .ParsedLineNumber, first, rest =>
      let value := reconstruct text (.node .ParsedLineNumber first rest)
      if (Xml.stringToUInt value 10).isSome then none
      else some (toString (Xml.strtoul value 10).1 ++
        " is too large (maximum allowed unsigned integer is 4294967295)")
    | _, _, _ => none

/-! ## Reading an entry -/

/-- Why `augmentRootNamespace` ends early. -/
inductive Stop where
  | syntaxError (e : Urnest.Hcp.Exception Unit TagsItem Empty)
  | onlyParsedUntil (position : Nat)
  | fileName (e : Xju.Exception)
  /-- `xju::assert_` has failed. -/
  | notOnlyChild (found : Nat)

def findOnlyChildOfType (type : TagsItem) (parent : Item TagsItem) : Except Stop (Item TagsItem) :=
  match findChildrenOfType type parent with
  | [x] => .ok x
  | xs => .error (.notOnlyChild (min 2 xs.length))

/-- `splitSymbol`, from the last `::` on: `i` is what has been read since, the last one first. -/
def splitFrom (a : List Name) (i : List Char) : List Char → List Name × Name
  | ':' :: ':' :: x => splitFrom (a ++ [i.reverse]) [] x
  | c :: x => splitFrom a (c :: i) x
  | [] => (a, i.reverse)

def splitSymbol : List Char → List Name × Name
  | ':' :: ':' :: x => splitFrom [] [] x
  | x => splitFrom [] [] x

section Augment

variable (text : List Char) (workingDir : AbsolutePath)

def readLocation (x : Item TagsItem) : Except Stop Location := do
  let f ← findOnlyChildOfType .ParsedFileName x
  let l ← findOnlyChildOfType .ParsedLineNumber x
  let fileName ← (Path.split (reconstruct text f) workingDir).mapError .fileName
  return ⟨fileName.1.str, fileName.2, (Xml.stringToUInt (reconstruct text l) 10).getD 0⟩

def readHeader (x : Item TagsItem) : Except Stop Header := do
  return reconstruct text (← findOnlyChildOfType .ParsedHeaderName x)

/-- The locations and headers among the items of an entry -/
def readFoundIn : IRs TagsItem → Except Stop FoundIn
  | [] => .ok ⟨[], []⟩
  | x :: xs =>
    if x.isA .ParsedLocation then do
      let location ← readLocation text workingDir x
      let found ← readFoundIn xs
      return { found with locations := location :: found.locations }
    else if x.isA .ParsedHeader then do
      let header ← readHeader text x
      let found ← readFoundIn xs
      return { found with headers := header :: found.headers }
    else readFoundIn xs

/-- What is added for an entry -/
def readEntry (entry : Item TagsItem) : Except Stop Added := do
  let symbol ← findOnlyChildOfType .Symbol entry
  let found ← readFoundIn text workingDir entry.items
  let ns := splitSymbol (reconstruct text symbol)
  return ⟨ns.1, ns.2, found.locations, found.headers⟩

/-- The loop over the items of the file, and the root as it leaves it -/
def addEntries : IRs TagsItem → Namespace → Except Stop Unit × Namespace
  | [], rootNamespace => (.ok (), rootNamespace)
  | x :: xs, rootNamespace =>
    if x.isA .Entry then
      match readEntry text workingDir x with
      | .error e => (.error e, rootNamespace)
      | .ok a => addEntries xs (rootNamespace.addSymbol a.namespace_ a.symbol a.locations a.headers)
    else addEntries xs rootNamespace

/-- `augmentRootNamespace`, with the result of the parser -/
def augmentRootNamespace (rootNamespace : Namespace) :
    ParseResult Unit TagsItem Empty → Except Stop Unit × Namespace
  | .error e => (.error (.syntaxError e), rootNamespace)
  | .ok (items, end_) =>
    if end_ = text.length then addEntries text workingDir items rootNamespace
    else (.error (.onlyParsedUntil end_), rootNamespace)

end Augment

/-! ## Parsing -/

theorem wellFormed_tagsGrammar (text : List Char) :
    WellFormed (tagsGrammar text) (fun _ => false) (fun _ => 0) 2 where
  nullable_le := nofun
  rank_le := nofun
  parserOf_ends := nofun
  c_char_ends := rfl
  literal_ends p hp := by
    obtain rfl : p = .anyChar () := by simpa [tagsGrammar] using hp
    decide

/-- Parsing a tags file comes to an end. -/
theorem exists_answer_tagsFile (text : List Char) : ∃ r,
    Answers (body (tagsGrammar text) text false) (.parse TagsPR.tagsFile 0) r :=
  exists_answer_of_wellFormed (wellFormed_tagsGrammar text) ⟨by decide +kernel, Nat.zero_le _⟩

/-- Productions that make one item each of some types, and these of checked productions of others -/
def makesEach (types : List (TagsItem × Nat)) : TagsPR → Bool
  | .and _ first rest => types.all fun t => Parser.madeAt t.1 t.2 (first :: rest)
  | _ => false

def makesLocation : TagsPR → Bool := makesEach [(.ParsedFileName, 7), (.ParsedLineNumber, 16)]

def makesHeader : TagsPR → Bool := makesEach [(.ParsedHeaderName, 7)]

def makesEntry (x : TagsPR) : Bool :=
  makesEach [(.Symbol, 1)] x && x.checks .ParsedLocation nofun makesLocation &&
    x.checks .ParsedHeader nofun makesHeader

theorem tagsFile_makesEntry : TagsPR.tagsFile.checks .Entry nofun makesEntry = true := by
  decide +kernel

/-- An item has one of each of the types in it, and what else is checked in the production. -/
theorem findChildrenOfType_of_madeBy {g : Grammar Unit TagsItem Empty} {type : TagsItem}
    {good : TagsPR → Bool} {types : List (TagsItem × Nat)} {y : Item TagsItem}
    (h : MadeBy g type good y) (hgood : ∀ x, good x = true → makesEach types x = true) :
    ∀ t ∈ types, ∃ child, findChildrenOfType t.1 y = [child] := by
  obtain ⟨x, i, xs, j, hx, hderives, rfl⟩ := h
  intro t ht
  have hmakes := hgood x hx
  cases x with
  | and id first rest =>
    have hmade := List.all_eq_true.mp hmakes t ht
    obtain ⟨ys, child, zs, -, -, rfl, -, hone, -⟩ := (Derives.and_iff.mp hderives).of_madeAt hmade
    refine ⟨child, ?_⟩
    have hitems : (Item.composite type i (ys ++ child :: zs)).items = ys ++ child :: zs := by
      cases ys <;> rfl
    rw [findChildrenOfType, hitems, hone]
  | _ => cases hmakes

/-! ## What changes a tree -/

section Map

variable {α : Type} {k : Name} {xs : List (Name × α)}

theorem eq_of_lookup {a b : α} (hkeys : (xs.map Prod.fst).Nodup) (hmem : (k, b) ∈ xs)
    (h : xs.lookup k = some a) : b = a := by
  induction xs with
  | nil => cases hmem
  | cons x xs ih =>
    rw [List.map_cons, List.nodup_cons] at hkeys
    rw [lookup_cons_eq] at h
    rcases List.mem_cons.mp hmem with rfl | hmem
    · rw [if_pos rfl] at h
      exact Option.some.inj h
    · have hne : k ≠ x.1 := fun heq => hkeys.1 (heq ▸ List.mem_map_of_mem hmem)
      rw [if_neg hne] at h
      exact ih hkeys.2 hmem h

theorem keys_insertInto (a : α) :
    ((insertInto k a xs).map Prod.fst).Perm (k :: xs.map Prod.fst) := by
  induction xs with
  | nil => exact .refl _
  | cons x xs ih =>
    rw [insertInto]
    split_ifs
    · exact .refl _
    · exact (ih.cons x.1).trans (.swap ..)

theorem nodup_keys_alter (fresh : α) (f : α → α) (h : (xs.map Prod.fst).Nodup) :
    ((alter k fresh f xs).map Prod.fst).Nodup := by
  rw [alter]
  split_ifs with hsome
  · have hkeys : (xs.map fun x => if x.1 = k then (k, f x.2) else x).map Prod.fst
        = xs.map Prod.fst := by
      rw [List.map_map]
      refine List.map_congr_left fun x _ => ?_
      rw [Function.comp_apply]
      split_ifs with hx
      · exact hx.symm
      · rfl
    rwa [hkeys]
  · refine (keys_insertInto (f fresh)).nodup_iff.mpr (List.nodup_cons.mpr ⟨fun hmem => hsome ?_, h⟩)
    obtain ⟨x, hx, rfl⟩ := List.mem_map.mp hmem
    obtain ⟨a, ha⟩ := exists_lookup hx
    exact Option.isSome_iff_exists.mpr ⟨a, ha⟩

theorem mem_insertInto {a : α} {x : Name × α} (h : x ∈ insertInto k a xs) :
    x = (k, a) ∨ x ∈ xs := by
  induction xs with
  | nil => exact .inl (List.mem_singleton.mp h)
  | cons y ys ih =>
    rw [insertInto] at h
    split_ifs at h
    · exact List.mem_cons.mp h
    · rcases List.mem_cons.mp h with rfl | h
      · exact .inr (.head _)
      · exact (ih h).imp_right (.tail _)

theorem mem_alter {fresh : α} {f : α → α} {x : Name × α} (h : x ∈ alter k fresh f xs) :
    x ∈ xs ∨ x.2 = f fresh ∨ ∃ y ∈ xs, x.2 = f y.2 := by
  rw [alter] at h
  split_ifs at h
  · obtain ⟨y, hy, rfl⟩ := List.mem_map.mp h
    split_ifs
    · exact .inr (.inr ⟨y, hy, rfl⟩)
    · exact .inl hy
  · rcases mem_insertInto h with rfl | h
    · exact .inr (.inl rfl)
    · exact .inl h

/-- A value that stays as it is leaves the map as it is. -/
theorem alter_eq_self {a fresh : α} {f : α → α} (hkeys : (xs.map Prod.fst).Nodup)
    (h : xs.lookup k = some a) (hf : f a = a) : alter k fresh f xs = xs := by
  rw [alter, if_pos (Option.isSome_iff_exists.mpr ⟨a, h⟩)]
  refine (List.map_congr_left fun x hx => ?_).trans (List.map_id xs)
  obtain ⟨k', b⟩ := x
  split_ifs with hk
  · obtain rfl : k' = k := hk
    obtain rfl := eq_of_lookup hkeys hx h
    rw [hf]
    rfl
  · rfl

end Map

namespace Namespace

/-- In a map a key comes once. -/
inductive Keyed : Namespace → Prop where
  | mk {children : List (Name × Namespace)} {symbols : List (Name × FoundIn)} :
    (children.map Prod.fst).Nodup → (symbols.map Prod.fst).Nodup →
      (∀ x ∈ children, Keyed x.2) → Keyed (.mk children symbols)

theorem keyed_empty : Keyed empty := .mk .nil .nil nofun

theorem Keyed.addSymbol {n : Namespace} (h : n.Keyed) (path : List Name) (symbol : Name)
    (locations : List Location) (headers : List Header) :
    (n.addSymbol path symbol locations headers).Keyed := by
  induction path generalizing n with
  | nil =>
    cases h with
    | mk hchildren hsymbols hkeyed => exact .mk hchildren (nodup_keys_alter _ _ hsymbols) hkeyed
  | cons name path ih =>
    cases h with
    | mk hchildren hsymbols hkeyed =>
      refine .mk (nodup_keys_alter _ _ hchildren) hsymbols fun x hx => ?_
      rcases mem_alter hx with hx | hx | ⟨y, hy, hx⟩
      · exact hkeyed x hx
      · rw [hx]
        exact ih keyed_empty
      · rw [hx]
        exact ih (hkeyed y hy)

theorem keyed_grown (calls : List Added) : (grown calls).Keyed := by
  induction calls using List.reverseRecOn with
  | nil => exact keyed_empty
  | append_singleton calls x ih =>
    rw [grown, List.foldl_append]
    exact ih.addSymbol ..

/-- Nothing more for a symbol that is known -/
theorem addSymbol_eq_self {n : Namespace} (h : n.Keyed) {path : List Name} {symbol : Name}
    {found : FoundIn} (hfound : find? path symbol n = some found) :
    n.addSymbol path symbol [] [] = n := by
  induction path generalizing n with
  | nil =>
    cases h with
    | mk hchildren hsymbols hkeyed =>
      have hsame : alter symbol ⟨[], []⟩
          (fun x : FoundIn => ⟨x.locations ++ [], x.headers ++ []⟩) _ = _ :=
        alter_eq_self hsymbols hfound (by simp)
      exact congrArg (mk _) hsame
  | cons name path ih =>
    cases h with
    | @mk children symbols hchildren hsymbols hkeyed =>
      rw [find?] at hfound
      rcases hchild : children.lookup name with _ | child
      · simp [Namespace.children, hchild] at hfound
      · obtain ⟨before, after, heq, -⟩ := List.lookup_eq_some_iff.mp hchild
        have hmem : (name, child) ∈ children := heq ▸ List.mem_append_right _ (.head _)
        have hfound : find? path symbol child = some found := by
          simpa [Namespace.children, hchild] using hfound
        exact congrArg (mk · symbols) (alter_eq_self hchildren hchild (ih (hkeyed _ hmem) hfound))

end Namespace

/-- It is for a symbol that is known, and has nothing that is not. -/
def Added.Nothing (calls : List Added) (a : Added) : Prop :=
  a.locations = [] ∧ a.headers = [] ∧ recorded a.namespace_ a.symbol calls ≠ []

theorem grown_append (calls added : List Added) : grown (calls ++ added) =
    added.foldl (fun n x => n.addSymbol x.namespace_ x.symbol x.locations x.headers)
      (grown calls) :=
  List.foldl_append ..

theorem recorded_append (path : List Name) (symbol : Name) (calls added : List Added) :
    recorded path symbol (calls ++ added) =
      recorded path symbol calls ++ recorded path symbol added :=
  List.filter_append ..

/-- The tree stays as it is exactly if nothing is added. -/
theorem grown_append_eq_iff (calls added : List Added) :
    grown (calls ++ added) = grown calls ↔ ∀ a ∈ added, a.Nothing calls := by
  constructor
  · intro heq a ha
    have hown : a ∈ recorded a.namespace_ a.symbol added :=
      List.mem_filter.mpr ⟨ha, decide_eq_true ⟨rfl, rfl⟩⟩
    have hfind : Namespace.find? a.namespace_ a.symbol (grown (calls ++ added))
        = Namespace.find? a.namespace_ a.symbol (grown calls) := by rw [heq]
    rw [Namespace.find?_grown, Namespace.find?_grown, recorded_append,
      if_neg fun h => List.ne_nil_of_mem hown (List.append_eq_nil_iff.mp h).2] at hfind
    split_ifs at hfind with hknown
    have hgathered := Option.some.inj hfind
    rw [gathered, gathered, FoundIn.mk.injEq, List.flatMap_append, List.flatMap_append,
      List.append_right_eq_self, List.append_right_eq_self] at hgathered
    exact ⟨List.flatMap_eq_nil_iff.mp hgathered.1 a hown,
      List.flatMap_eq_nil_iff.mp hgathered.2 a hown, hknown⟩
  · intro h
    rw [grown_append]
    induction added with
    | nil => rfl
    | cons a added ih =>
      obtain ⟨hlocations, hheaders, hknown⟩ := h a (.head _)
      obtain ⟨found, hfound⟩ : ∃ found,
          Namespace.find? a.namespace_ a.symbol (grown calls) = some found := by
        rw [Namespace.find?_grown, if_neg hknown]
        exact ⟨_, rfl⟩
      rw [List.foldl_cons, hlocations, hheaders,
        Namespace.addSymbol_eq_self (Namespace.keyed_grown calls) hfound]
      exact ih fun b hb => h b (.tail _ hb)

/-! ## What is read of an entry -/

section Reading

variable {text : List Char} {workingDir : AbsolutePath}

/-- The file names of the locations among the items can be split. -/
def NamesSplit (text : List Char) (workingDir : AbsolutePath) (xs : IRs TagsItem) : Prop :=
  ∀ x ∈ xs, x.isA .ParsedLocation = true → ∀ f ∈ findChildrenOfType .ParsedFileName x,
    ∃ p, Path.split (reconstruct text f) workingDir = .ok p

/-- Neither locations nor headers -/
def NoneFound (xs : IRs TagsItem) : Prop :=
  ∀ x ∈ xs, x.isA .ParsedLocation = false ∧ x.isA .ParsedHeader = false

/-- The entry has no locations and no headers, and is for a symbol that is known. -/
def AddsNothing (text : List Char) (calls : List Added) (entry : Item TagsItem) : Prop :=
  NoneFound entry.items ∧
    ∀ s ∈ findChildrenOfType .Symbol entry,
      recorded (splitSymbol (reconstruct text s)).1 (splitSymbol (reconstruct text s)).2 calls ≠ []

/-- An item has the children that are asked for. -/
def HasChild (type : TagsItem) (x : Item TagsItem) : Prop := ∃ y, findChildrenOfType type x = [y]

theorem findOnlyChildOfType_ok {type : TagsItem} {x y : Item TagsItem}
    (h : findChildrenOfType type x = [y]) : findOnlyChildOfType type x = .ok y := by
  rw [findOnlyChildOfType, h]

/-- What an entry's items are like. -/
structure Readable (x : Item TagsItem) : Prop where
  location : x.isA .ParsedLocation = true →
    HasChild .ParsedFileName x ∧ HasChild .ParsedLineNumber x
  header : x.isA .ParsedHeader = true → HasChild .ParsedHeaderName x

/-- A location is read if its file name can be split. -/
theorem readLocation_spec {x f l : Item TagsItem} (hf : findChildrenOfType .ParsedFileName x = [f])
    (hl : findChildrenOfType .ParsedLineNumber x = [l]) :
    (∃ p, Path.split (reconstruct text f) workingDir = .ok p) ∧
      (∃ location, readLocation text workingDir x = .ok location) ∨
    (¬ ∃ p, Path.split (reconstruct text f) workingDir = .ok p) ∧
      ∃ e, readLocation text workingDir x = .error e := by
  have hread : readLocation text workingDir x =
      ((Path.split (reconstruct text f) workingDir).mapError Stop.fileName >>= fun fileName =>
        return ⟨fileName.1.str, fileName.2,
          (Xml.stringToUInt (reconstruct text l) 10).getD 0⟩) := by
    rw [readLocation, findOnlyChildOfType_ok hf, findOnlyChildOfType_ok hl]
    rfl
  rw [hread]
  rcases Path.split (reconstruct text f) workingDir with e | p
  · exact .inr ⟨by rintro ⟨_, ⟨⟩⟩, _, rfl⟩
  · exact .inl ⟨⟨p, rfl⟩, _, rfl⟩

theorem readHeader_ok {x h : Item TagsItem} (hh : findChildrenOfType .ParsedHeaderName x = [h]) :
    readHeader text x = .ok (reconstruct text h) := by
  rw [readHeader, findOnlyChildOfType_ok hh]
  rfl

/-- The items are read if the file names can be split, and nothing is found if there is nothing. -/
theorem readFoundIn_spec {xs : IRs TagsItem} (h : ∀ x ∈ xs, Readable x) :
    NamesSplit text workingDir xs ∧ (∃ found, readFoundIn text workingDir xs = .ok found ∧
      (found.locations = [] ∧ found.headers = [] ↔ NoneFound xs)) ∨
    ¬ NamesSplit text workingDir xs ∧ ∃ e, readFoundIn text workingDir xs = .error e := by
  induction xs with
  | nil =>
    exact .inl ⟨fun _ hx => (nomatch hx), ⟨[], []⟩, rfl,
      iff_of_true ⟨rfl, rfl⟩ fun _ hx => (nomatch hx)⟩
  | cons x xs ih =>
    have hcons : NamesSplit text workingDir (x :: xs) ↔
        NamesSplit text workingDir [x] ∧ NamesSplit text workingDir xs := by
      simp only [NamesSplit, List.forall_mem_cons, List.not_mem_nil, false_imp_iff, implies_true,
        and_true]
    have hnone : NoneFound (x :: xs) ↔
        (x.isA .ParsedLocation = false ∧ x.isA .ParsedHeader = false) ∧ NoneFound xs :=
      List.forall_mem_cons
    replace ih := ih fun y hy => h y (.tail _ hy)
    obtain ⟨hlocation, hheader⟩ := h x (.head _)
    rw [hcons, hnone, readFoundIn]
    by_cases hx : x.isA .ParsedLocation = true
    · obtain ⟨⟨f, hf⟩, l, hl⟩ := hlocation hx
      have hone : NamesSplit text workingDir [x] ↔
          ∃ p, Path.split (reconstruct text f) workingDir = .ok p := by
        simp [NamesSplit, hx, hf]
      rw [if_pos hx, hone, hx]
      rcases readLocation_spec hf hl with ⟨hsplit, location, hread⟩ | ⟨hsplit, e, hread⟩
      · rw [hread]
        rcases ih with ⟨hnames, found, hfound, -⟩ | ⟨hnames, e, he⟩
        · rw [hfound]
          exact .inl ⟨⟨hsplit, hnames⟩, _, rfl, by simp⟩
        · rw [he]
          exact .inr ⟨fun h => hnames h.2, e, rfl⟩
      · rw [hread]
        exact .inr ⟨fun h => hsplit h.1, e, rfl⟩
    · have hone : NamesSplit text workingDir [x] := by simp [NamesSplit, hx]
      rw [if_neg hx, Bool.eq_false_iff.mpr hx, and_iff_right hone]
      by_cases hx' : x.isA .ParsedHeader = true
      · obtain ⟨name, hname⟩ := hheader hx'
        rw [if_pos hx', readHeader_ok hname, hx']
        rcases ih with ⟨hnames, found, hfound, -⟩ | ⟨hnames, e, he⟩
        · rw [hfound]
          exact .inl ⟨hnames, _, rfl, by simp⟩
        · rw [he]
          exact .inr ⟨hnames, e, rfl⟩
      · rw [if_neg hx', Bool.eq_false_iff.mpr hx', and_self, eq_self_iff_true, true_and]
        exact ih

/-- What is added for an entry that can be read -/
theorem readEntry_spec {entry s : Item TagsItem} (h : ∀ x ∈ entry.items, Readable x)
    (hs : findChildrenOfType .Symbol entry = [s]) (calls : List Added) :
    NamesSplit text workingDir entry.items ∧ (∃ a, readEntry text workingDir entry = .ok a ∧
      (a.Nothing calls ↔ AddsNothing text calls entry)) ∨
    ¬ NamesSplit text workingDir entry.items ∧ ∃ e, readEntry text workingDir entry = .error e := by
  have hread : readEntry text workingDir entry =
      (readFoundIn text workingDir entry.items >>= fun found =>
        return ⟨(splitSymbol (reconstruct text s)).1, (splitSymbol (reconstruct text s)).2,
          found.locations, found.headers⟩) := by
    rw [readEntry, findOnlyChildOfType_ok hs]
    rfl
  rw [hread]
  rcases readFoundIn_spec h with ⟨hnames, found, hfound, hnone⟩ | ⟨hnames, e, he⟩
  · refine .inl ⟨hnames, _, by rw [hfound]; rfl, ?_⟩
    rw [Added.Nothing, AddsNothing, hs, List.forall_mem_singleton, ← and_assoc, hnone]
  · exact .inr ⟨hnames, e, by rw [he]; rfl⟩

/-! ## Whole files -/

/-- The entries among the items are read, and this is what is to be added. -/
def ReadAs (text : List Char) (workingDir : AbsolutePath) (xs : IRs TagsItem)
    (added : List Added) : Prop :=
  (xs.filter (Item.isA .Entry)).map (readEntry text workingDir) = added.map .ok

/-- Each of the entries is read, -/
theorem ReadAs.read {xs : IRs TagsItem} {added : List Added} (h : ReadAs text workingDir xs added)
    {x : Item TagsItem} (hx : x ∈ xs) (hentry : x.isA .Entry = true) :
    ∃ a ∈ added, readEntry text workingDir x = .ok a := by
  have hmem : readEntry text workingDir x ∈
      (xs.filter (Item.isA .Entry)).map (readEntry text workingDir) :=
    List.mem_map_of_mem (List.mem_filter.mpr ⟨hx, hentry⟩)
  rw [h] at hmem
  obtain ⟨a, ha, heq⟩ := List.mem_map.mp hmem
  exact ⟨a, ha, heq.symm⟩

/-- and each of what is to be added comes from one. -/
theorem ReadAs.entry {xs : IRs TagsItem} {added : List Added} (h : ReadAs text workingDir xs added)
    {a : Added} (ha : a ∈ added) :
    ∃ x ∈ xs, x.isA .Entry = true ∧ readEntry text workingDir x = .ok a := by
  have hmem : Except.ok a ∈ added.map (Except.ok : Added → Except Stop Added) :=
    List.mem_map_of_mem ha
  rw [← h] at hmem
  obtain ⟨x, hx, hread⟩ := List.mem_map.mp hmem
  obtain ⟨hx, hentry⟩ := List.mem_filter.mp hx
  exact ⟨x, hx, hentry, hread⟩

/-- Either all of the entries are read, or there is a first one that is not. -/
theorem readAs_or (xs : IRs TagsItem) :
    (∃ added, ReadAs text workingDir xs added) ∨
    ∃ before bad after added e, xs = before ++ bad :: after ∧ bad.isA .Entry = true ∧
      readEntry text workingDir bad = .error e ∧ ReadAs text workingDir before added := by
  induction xs with
  | nil => exact .inl ⟨[], rfl⟩
  | cons x xs ih =>
    by_cases hx : x.isA .Entry = true
    · rcases hread : readEntry text workingDir x with e | a
      · exact .inr ⟨[], x, xs, [], e, rfl, hx, hread, rfl⟩
      · have hcons : ∀ {ys added}, ReadAs text workingDir ys added →
            ReadAs text workingDir (x :: ys) (a :: added) := by
          intro ys added hys
          rw [ReadAs, List.filter_cons_of_pos hx, List.map_cons, hread, hys, List.map_cons]
        rcases ih with ⟨added, hadded⟩ | ⟨before, bad, after, added, e, rfl, hbad, he, hadded⟩
        · exact .inl ⟨a :: added, hcons hadded⟩
        · exact .inr ⟨x :: before, bad, after, a :: added, e, rfl, hbad, he, hcons hadded⟩
    · have hcons : ∀ {ys added}, ReadAs text workingDir ys added →
          ReadAs text workingDir (x :: ys) added := by
        intro ys added hys
        rwa [ReadAs, List.filter_cons_of_neg hx]
      rcases ih with ⟨added, hadded⟩ | ⟨before, bad, after, added, e, rfl, hbad, he, hadded⟩
      · exact .inl ⟨added, hcons hadded⟩
      · exact .inr ⟨x :: before, bad, after, added, e, rfl, hbad, he, hcons hadded⟩

/-- The loop adds the entries that it reads. -/
theorem ReadAs.addEntries {before : IRs TagsItem} {added : List Added}
    (h : ReadAs text workingDir before added) (xs : IRs TagsItem) (calls : List Added) :
    addEntries text workingDir (before ++ xs) (grown calls) =
      addEntries text workingDir xs (grown (calls ++ added)) := by
  induction before generalizing calls added with
  | nil =>
    obtain rfl : added = [] := List.map_eq_nil_iff.mp (Eq.symm h)
    rw [List.nil_append, List.append_nil]
  | cons x before ih =>
    rw [List.cons_append, Tags.addEntries]
    by_cases hx : x.isA .Entry = true
    · rw [ReadAs, List.filter_cons_of_pos hx, List.map_cons] at h
      rcases added with _ | ⟨a, added⟩
      · cases h
      obtain ⟨hread, hbefore⟩ := List.cons.inj h
      have hgrown : (grown calls).addSymbol a.namespace_ a.symbol a.locations a.headers
          = grown (calls ++ [a]) := (grown_append calls [a]).symm
      simp only [if_pos hx, hread, hgrown]
      rw [ih hbefore, List.append_assoc]
      rfl
    · rw [ReadAs, List.filter_cons_of_neg hx] at h
      rw [if_neg hx, ih h]

/-- It ends with the first entry that is not read. -/
theorem ReadAs.addEntries_bad {before after : IRs TagsItem} {bad : Item TagsItem}
    {added : List Added} {e : Stop} (h : ReadAs text workingDir before added)
    (hbad : bad.isA .Entry = true) (he : readEntry text workingDir bad = .error e)
    (calls : List Added) : Tags.addEntries text workingDir (before ++ bad :: after) (grown calls) =
      (.error e, grown (calls ++ added)) := by
  rw [h.addEntries, Tags.addEntries, if_pos hbad, he]

end Reading

/-- What the items of a tags file are like -/
theorem readable_of_parsed {text : List Char} {items : IRs TagsItem} {end_ : Nat}
    (h : Derives (tagsGrammar text) (.one TagsPR.tagsFile) 0 items end_) {entry : Item TagsItem}
    (hmem : entry ∈ items) (hentry : entry.isA .Entry = true) :
    HasChild .Symbol entry ∧ ∀ x ∈ entry.items, Readable x := by
  have hentries := Item.mem_outermostOf_of_isA hmem hentry
  have hmade := h.of_checks nofun tagsFile_makesEntry entry hentries
  have hsplit : ∀ x, makesEntry x = true → makesEach [(.Symbol, 1)] x = true ∧
      x.checks .ParsedLocation nofun makesLocation = true ∧
      x.checks .ParsedHeader nofun makesHeader = true := by
    intro x hx
    rw [makesEntry, Bool.and_eq_true, Bool.and_eq_true, and_assoc] at hx
    exact hx
  refine ⟨findChildrenOfType_of_madeBy hmade (fun x hx => (hsplit x hx).1) _ (.head _), ?_⟩
  obtain ⟨p, i, xs, j, hp, hderives, rfl⟩ := hmade
  obtain ⟨-, hlocations, hheaders⟩ := hsplit p hp
  intro x hx
  have hxs : ∀ type, x.isA type = true → x ∈ xs := by
    intro type htype
    cases xs with
    | nil =>
      rw [List.mem_singleton.mp hx] at htype
      cases htype
    | cons first rest => exact hx
  refine ⟨fun hlocation => ?_, fun hheader => ?_⟩
  · have hx := Item.mem_outermostOf_of_isA (hxs _ hlocation) hlocation
    have hmade := hderives.of_checks nofun hlocations x hx
    have hone := findChildrenOfType_of_madeBy hmade fun _ h => h
    exact ⟨hone _ (.head _), hone _ (.tail _ (.head _))⟩
  · have hx := Item.mem_outermostOf_of_isA (hxs _ hheader) hheader
    exact findChildrenOfType_of_madeBy (hderives.of_checks nofun hheaders x hx) (fun _ h => h) _
      (.head _)

/-- The text is parsed to the items, all of it. -/
def Parses (text : List Char) (items : IRs TagsItem) : Prop :=
  Answers (body (tagsGrammar text) text false) (.parse TagsPR.tagsFile 0) (.ok (items, text.length))

/-- It throws, and the root is as it was, or it returns, and every entry has been added. -/
def AllOrNothing (workingDir : AbsolutePath) (calls : List Added) (text : List Char) : Prop :=
  ∃ r, Answers (body (tagsGrammar text) text false) (.parse TagsPR.tagsFile 0) r ∧
    match augmentRootNamespace text workingDir (grown calls) r with
    | (.error _, rootNamespace) => rootNamespace = grown calls
    | (.ok (), rootNamespace) => ∃ items added, r = .ok (items, text.length) ∧
      ReadAs text workingDir items added ∧ rootNamespace = grown (calls ++ added)

/-- Nothing is added for the entries in front of the first one with a file name that cannot be
split. -/
def NothingBefore (workingDir : AbsolutePath) (calls : List Added) (text : List Char) : Prop :=
  ∀ items, Parses text items → ∀ before bad after, items = before ++ bad :: after →
    bad.isA .Entry = true → ¬ NamesSplit text workingDir bad.items →
    (∀ x ∈ before, x.isA .Entry = true → NamesSplit text workingDir x.items) →
      ∀ x ∈ before, x.isA .Entry = true → AddsNothing text calls x

/-- Loading a tags file is all or nothing, exactly if nothing is added for the entries in front of
the first one with a file name that cannot be split. -/
theorem augment_all_or_nothing_iff (workingDir : AbsolutePath) (calls : List Added)
    (text : List Char) :
    AllOrNothing workingDir calls text ↔ NothingBefore workingDir calls text := by
  have hspec : ∀ {items end_}, Answers (body (tagsGrammar text) text false)
      (.parse TagsPR.tagsFile 0) (.ok (items, end_)) → ∀ x ∈ items, x.isA .Entry = true →
      NamesSplit text workingDir x.items ∧ (∃ a, readEntry text workingDir x = .ok a ∧
        (a.Nothing calls ↔ AddsNothing text calls x)) ∨
      ¬ NamesSplit text workingDir x.items ∧ ∃ e, readEntry text workingDir x = .error e := by
    intro items end_ hparse x hx hentry
    obtain ⟨⟨s, hs⟩, hreadable⟩ := readable_of_parsed (Derives.of_answers hparse) hx hentry
    exact readEntry_spec hreadable hs calls
  constructor
  · rintro h items hparse before bad after rfl hbad hrefused hsplit x hx hentry
    replace hspec := hspec hparse
    have hbefore : ∃ added, ReadAs text workingDir before added := by
      rcases readAs_or before with hall | ⟨b, y, b', -, e, rfl, hy, he, -⟩
      · exact hall
      · have hmem : y ∈ b ++ y :: b' := List.mem_append_right _ (.head _)
        rcases hspec y (List.mem_append_left _ hmem) hy with ⟨-, a, ha, -⟩ | ⟨hno, -⟩
        · cases he.symm.trans ha
        · exact absurd (hsplit y hmem hy) hno
    obtain ⟨added, hadded⟩ := hbefore
    obtain ⟨e, he⟩ : ∃ e, readEntry text workingDir bad = .error e :=
      ((hspec bad (List.mem_append_right _ (.head _)) hbad).resolve_left fun hyes =>
        hrefused hyes.1).2
    obtain ⟨r, hr, hroot⟩ := h
    obtain rfl := hr.unique hparse
    rw [augmentRootNamespace, if_pos rfl, hadded.addEntries_bad hbad he] at hroot
    obtain ⟨a, ha, hread⟩ := hadded.read hx hentry
    rcases hspec x (List.mem_append_left _ hx) hentry with ⟨-, b, hb, hiff⟩ | ⟨hno, -⟩
    · obtain rfl := Except.ok.inj (hread.symm.trans hb)
      exact hiff.mp ((grown_append_eq_iff calls added).mp hroot a ha)
    · exact absurd (hsplit x hx hentry) hno
  · intro h
    obtain ⟨r, hr⟩ := exists_answer_tagsFile text
    refine ⟨r, hr, ?_⟩
    rcases r with e | ⟨items, end_⟩
    · rfl
    rw [augmentRootNamespace]
    split_ifs with hend
    swap
    · rfl
    subst hend
    rcases @readAs_or text workingDir items with ⟨added, hadded⟩ |
      ⟨before, bad, after, added, e, rfl, hbad, he, hadded⟩
    · have hrun := hadded.addEntries [] calls
      rw [List.append_nil] at hrun
      rw [hrun]
      exact ⟨items, added, rfl, hadded, rfl⟩
    · rw [hadded.addEntries_bad hbad he]
      replace hspec := hspec hr
      refine (grown_append_eq_iff calls added).mpr fun a ha => ?_
      obtain ⟨x, hx, hentry, hread⟩ := hadded.entry ha
      have hrefused : ¬ NamesSplit text workingDir bad.items := by
        rcases hspec bad (List.mem_append_right _ (.head _)) hbad with ⟨-, b, hb, -⟩ | ⟨hno, -⟩
        · cases he.symm.trans hb
        · exact hno
      have hread_ok : ∀ y ∈ before, y.isA .Entry = true → NamesSplit text workingDir y.items ∧
          ∃ b, readEntry text workingDir y = .ok b ∧
            (b.Nothing calls ↔ AddsNothing text calls y) := by
        intro y hy hyentry
        obtain ⟨b, -, hb⟩ := hadded.read hy hyentry
        refine (hspec y (List.mem_append_left _ hy) hyentry).resolve_right ?_
        rintro ⟨-, e, he⟩
        cases he.symm.trans hb
      obtain ⟨-, b, hb, hiff⟩ := hread_ok x hx hentry
      obtain rfl := Except.ok.inj (hread.symm.trans hb)
      exact hiff.mpr (h _ hr before bad after rfl hbad hrefused
        (fun y hy hyentry => (hread_ok y hy hyentry).1) x hx hentry)

/-- A file whose second entry has a name that leads out of the root directory -/
def badFileName : List Char :=
  "\x7b\"a\":[],\"b\":[\x7b\"f\":\"/../x\",\"l\":1\x7d]\x7d".toList

/-- An exception, with a symbol added -/
def addsAndThrows (symbol : Name) : Except Stop Unit × Namespace → Bool
  | (.error _, rootNamespace) => (rootNamespace.find? [] symbol).isSome
  | (.ok (), _) => false

theorem not_augment_all_or_nothing : ¬ AllOrNothing .root [] badFileName := by
  have hrun : (eval (body (tagsGrammar badFileName) badFileName false) 80
      (.parse TagsPR.tagsFile 0)).any (fun r =>
        addsAndThrows ['a'] (augmentRootNamespace badFileName .root (grown []) r)) = true := by
    decide +kernel
  obtain ⟨r, hr, hadds⟩ := (Option.any_eq_true ..).mp hrun
  rintro ⟨r', hr', hroot⟩
  obtain rfl := hr'.unique ⟨80, hr⟩
  rcases hout : augmentRootNamespace badFileName .root (grown []) r' with ⟨e | _, rootNamespace⟩
  · rw [hout] at hroot hadds
    rw [show rootNamespace = Namespace.empty from hroot, addsAndThrows,
      Namespace.find?_empty] at hadds
    cases hadds
  · rw [hout] at hadds
    cases hadds

end Urnest.Hcp.Tags
