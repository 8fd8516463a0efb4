import Mathlib.Data.List.AList
import Urnest.Xml.TagText

/-!
# Tag openings and their namespaces

`TagText` is a tag opening as it is written: its name, its attributes in the order they stand
in, and whether it ends with `/>`. `TagText.WellFormed` and `TagText.Denotes` say what
Namespaces in XML makes of it, whatever the order; `parseTagOpening` reads the same text and
resolves the names as it goes.

Attributes are read into maps that refuse a second entry of a name. Declarations are not: the
later of two that declare the same prefix in a tag replaces the earlier one, as each of them
replaces the one of the enclosing element.
-/

namespace Urnest.Xml

abbrev URI := List Char
abbrev ExpandedName := URI × NameLocalPart

/-- `std::map` -/
abbrev Map (κ ν : Type) := AList fun _ : κ => ν

abbrev NamespaceDefinitions := Map NamePrefix URI
abbrev Attributes := Map ExpandedName AttributeValue

def xmlns : NCName := ['x', 'm', 'l', 'n', 's']

/-- The prefix that an attribute declares, if it is a declaration -/
def declares (n : UnexpandedName) : Option NamePrefix :=
  if n.1 = [] ∧ n.2 = xmlns then some [] else if n.1 = xmlns then some n.2 else none

/-! ## A tag as it is written -/

/-- The attributes of a tag, in the order they stand in -/
abbrev AttributeTexts := List (UnexpandedName × AttributeValue)

/-- The prefixes that are declared, and what for -/
def AttributeTexts.declarations (xs : AttributeTexts) : List (NamePrefix × URI) :=
  xs.filterMap fun x => (declares x.1).map fun p => (p, x.2)

/-- Those that are no declarations -/
def AttributeTexts.proper (xs : AttributeTexts) : AttributeTexts :=
  xs.filter fun x => declares x.1 = none

structure TagText where
  name : UnexpandedName
  attributes : AttributeTexts
  /-- it ends with `/>` -/
  empty : Bool

/-- The attributes up to the `>` or the `/` -/
def readAttributes (text : Text) : Option (AttributeTexts × Text) :=
  match text with
  | [] => none
  | c :: rest =>
    if c = '>' ∨ c = '/' then some ([], c :: rest)
    else
      match _h : parseAttribute (c :: rest) with
      | none => none
      | some (x, i) => do
        let xs ← readAttributes (skipWhiteSpaceAndComments i)
        return (x :: xs.1, xs.2)
termination_by text.length
decreasing_by
  exact (length_skipWhiteSpaceAndComments i).trans_lt (length_parseAttribute _h)

theorem readAttributes_cons {text rest : Text} {x : UnexpandedName × AttributeValue} {c : Char}
    (hend : c ≠ '>' ∧ c ≠ '/') (h : parseAttribute (c :: text) = some (x, rest)) :
    readAttributes (c :: text) =
      (readAttributes (skipWhiteSpaceAndComments rest)).map fun xs => (x :: xs.1, xs.2) := by
  rw [readAttributes, if_neg (not_or.mpr hend)]
  split
  · rename_i hnone
    cases hnone.symm.trans h
  · rename_i hsome
    obtain ⟨rfl, rfl⟩ := Prod.mk.inj (Option.some.inj (hsome.symm.trans h))
    exact (Option.map_eq_bind ..).symm

/-- What ends a tag: whether it is empty, and what is left. -/
def readTagEnd (skip : Text → Option Text) : Text → Option (Bool × Text)
  | [] => none
  | c :: text => do
    let simpleTag := decide (c = '/')
    let i := if simpleTag then text else c :: text
    let i ← parseLiteral ['>'] (skipWhiteSpaceAndComments i)
    return (simpleTag, ← skip i)

/-- The tag opening that a text begins with. `skip` skips what may follow it. -/
def readTag (skip : Text → Option Text) (text : Text) : Option (TagText × Text) := do
  let i ← parseLiteral ['<'] text
  let x ← parseUnexpandedName i
  let y ← readAttributes (← skip x.2)
  let z ← readTagEnd skip y.2
  return (⟨x.1, y.1, z.1⟩, z.2)

/-! ## What it stands for -/

namespace TagText

variable (namespaces : NamespaceDefinitions) (tag : TagText)

/-- What a prefix stands for in the tag -/
def InScope (p : NamePrefix) (uri : URI) : Prop :=
  (p, uri) ∈ tag.attributes.declarations ∨
    p ∉ tag.attributes.declarations.map Prod.fst ∧ namespaces.lookup p = some uri

/-- The expanded name of an attribute -/
def ExpandsTo (n : UnexpandedName) (e : ExpandedName) : Prop :=
  e.2 = n.2 ∧ if n.1 = [] then e.1 = [] else tag.InScope namespaces n.1 e.1

structure WellFormed : Prop where
  nodup_declarations : (tag.attributes.declarations.map Prod.fst).Nodup
  nodup_attributes : (tag.attributes.proper.map Prod.fst).Nodup
  name_inScope : ∃ uri, tag.InScope namespaces tag.name.1 uri
  expands : ∀ x ∈ tag.attributes.proper, ∃ e, tag.ExpandsTo namespaces x.1 e
  expands_inj : ∀ x ∈ tag.attributes.proper, ∀ y ∈ tag.attributes.proper, ∀ e,
    tag.ExpandsTo namespaces x.1 e → tag.ExpandsTo namespaces y.1 e → x.1 = y.1

end TagText

abbrev Tag := ExpandedName × Attributes
/-- The `Bool` is true iff the tag is empty. -/
abbrev TagOpening := Tag × Bool

/-- What a tag stands for, and the declarations that are in scope within it. -/
structure TagText.Denotes (namespaces : NamespaceDefinitions) (attributeDefaults : Attributes)
    (tag : TagText) (result : TagOpening) (within : NamespaceDefinitions) : Prop where
  name_inScope : tag.InScope namespaces tag.name.1 result.1.1.1
  name_local : result.1.1.2 = tag.name.2
  attributes : ∀ e v, result.1.2.lookup e = some v ↔
    (∃ n, (n, v) ∈ tag.attributes.proper ∧ tag.ExpandsTo namespaces n e) ∨
      (∀ x ∈ tag.attributes.proper, ¬tag.ExpandsTo namespaces x.1 e) ∧
        attributeDefaults.lookup e = some v
  empty : result.2 = tag.empty
  within_scope : ∀ p uri, within.lookup p = some uri ↔ tag.InScope namespaces p uri

/-! ## The code -/

variable {κ ν : Type} [DecidableEq κ]

/-- `insert`, unless there is an entry -/
def insertNew (x : κ × ν) (m : Map κ ν) : Option (Map κ ν) :=
  if x.1 ∈ m then none else some (m.insert x.1 x.2)

def expandName (name : UnexpandedName) (namespaces : NamespaceDefinitions) :
    Option ExpandedName := (namespaces.lookup name.1).map fun uri => (uri, name.2)

/-- What the loop does with an attribute that it has read -/
def addAttribute (s : NamespaceDefinitions × Map UnexpandedName AttributeValue)
    (x : UnexpandedName × AttributeValue) :
    Option (NamespaceDefinitions × Map UnexpandedName AttributeValue) :=
  if x.1.1 = [] ∧ x.1.2 = xmlns then some (s.1.insert [] x.2, s.2)
  else if x.1.1 = xmlns then some (s.1.insert x.1.2 x.2, s.2)
  else (insertNew x s.2).map fun atts => (s.1, atts)

/-- The loop -/
def attributesLoop (text : Text)
    (s : NamespaceDefinitions × Map UnexpandedName AttributeValue) :
    Option ((NamespaceDefinitions × Map UnexpandedName AttributeValue) × Text) :=
  match text with
  | [] => none
  | c :: rest =>
    if c = '>' ∨ c = '/' then some (s, c :: rest)
    else
      match _h : parseAttribute (c :: rest) with
      | none => none
      | some (x, i) => do
        let s ← addAttribute s x
        attributesLoop (skipWhiteSpaceAndComments i) s
termination_by text.length
decreasing_by
  exact (length_skipWhiteSpaceAndComments i).trans_lt (length_parseAttribute _h)

/-- The loop over `atts` -/
def expandAttributes (ans : NamespaceDefinitions) (atts : Map UnexpandedName AttributeValue) :
    Option Attributes :=
  atts.entries.foldlM (fun result x => do
    let n ← expandName x.1 ans
    insertNew (n, x.2) result) ∅

/-- What `std::copy` to an `std::inserter` does -/
def copyDefaults (attributeDefaults result : Attributes) : Attributes :=
  attributeDefaults.entries.foldl (fun result x =>
    if x.1 ∈ result then result else result.insert x.1 x.2) result

def parseAttributes (text : Text) (namespaceDefinitions : NamespaceDefinitions)
    (attributeDefaults : Attributes) : Option (Attributes × NamespaceDefinitions × Text) := do
  let ((ns, atts), i) ← attributesLoop text (namespaceDefinitions, ∅)
  let ans := ns.insert [] []
  let result ← expandAttributes ans atts
  return (copyDefaults attributeDefaults result, ns, i)

/-- The tag, the namespaces as they are augmented, and what is left of the text -/
def parseTagOpening (text : Text) (namespaces : NamespaceDefinitions)
    (attributeDefaults : Attributes) (skip : Text → Option Text) :
    Option (TagOpening × NamespaceDefinitions × Text) := do
  let i ← parseLiteral ['<'] text
  let x ← parseUnexpandedName i
  let (y, namespaces, i) ← parseAttributes (← skip x.2) namespaces attributeDefaults
  let tagName ← expandName x.1 namespaces
  let (simpleTag, i) ← readTagEnd skip i
  return (((tagName, y), simpleTag), namespaces, i)

/-! ## Reading, then resolving -/

/-- What the code makes of a tag once it is read. -/
def resolve (namespaces : NamespaceDefinitions) (attributeDefaults : Attributes)
    (tag : TagText) : Option (TagOpening × NamespaceDefinitions) := do
  let (ns, atts) ← tag.attributes.foldlM addAttribute (namespaces, ∅)
  let result ← expandAttributes (ns.insert [] []) atts
  let tagName ← expandName tag.name ns
  return (((tagName, copyDefaults attributeDefaults result), tag.empty), ns)

theorem attributesLoop_eq (text : Text)
    (s : NamespaceDefinitions × Map UnexpandedName AttributeValue) :
    attributesLoop text s = (readAttributes text).bind fun xs =>
      (xs.1.foldlM addAttribute s).map fun s => (s, xs.2) := by
  fun_induction readAttributes text generalizing s with
  | case1 => rw [attributesLoop]; rfl
  | case2 c rest hend =>
    rw [attributesLoop, if_pos hend]
    rfl
  | case3 c rest hend hnone =>
    rw [attributesLoop, if_neg hend]
    split
    · rfl
    · rename_i h
      cases hnone.symm.trans h
  | case4 c rest hend x i hsome ih =>
    rw [attributesLoop, if_neg hend]
    split
    · rename_i h
      cases hsome.symm.trans h
    · rename_i h
      obtain ⟨rfl, rfl⟩ := Prod.mk.inj (Option.some.inj (hsome.symm.trans h))
      cases hadd : addAttribute s x with
      | none => cases readAttributes (skipWhiteSpaceAndComments i) <;> simp [hadd]
      | some s' =>
        have hs' := ih s'
        cases hread : readAttributes (skipWhiteSpaceAndComments i) <;> simp_all

theorem parseTagOpening_eq (text : Text) (namespaces : NamespaceDefinitions)
    (attributeDefaults : Attributes) (skip : Text → Option Text) :
    parseTagOpening text namespaces attributeDefaults skip =
      (readTag skip text).bind fun x =>
        (resolve namespaces attributeDefaults x.1).map fun y => (y.1, y.2, x.2) := by
  simp only [parseTagOpening, readTag, parseAttributes, attributesLoop_eq, resolve]
  cases parseLiteral ['<'] text with
  | none => rfl
  | some i =>
    cases hname : parseUnexpandedName i with
    | none => simp [hname]
    | some x =>
      cases hskip : skip x.2 with
      | none => simp [hname, hskip]
      | some j =>
        cases hread : readAttributes j with
        | none => simp [hname, hskip, hread]
        | some xs =>
          obtain hfold | ⟨s, hfold⟩ := (xs.1.foldlM addAttribute (namespaces, ∅)).eq_none_or_eq_some
          · cases hend : readTagEnd skip xs.2 <;> simp [hname, hskip, hread, hend, hfold]
          · cases hexpand : expandAttributes (s.1.insert [] []) s.2 <;>
              cases htag : expandName x.1 s.1 <;>
                cases hend : readTagEnd skip xs.2 <;>
                  simp [hname, hskip, hread, hend, hfold, hexpand, htag]

/-! ## Maps -/

theorem foldlM_insertNew_eq_some {xs : List (κ × ν)} {m m' : Map κ ν}
    (h : xs.foldlM (fun m x => insertNew x m) m = some m') :
    (xs.map Prod.fst).Nodup ∧ (∀ x ∈ xs, x.1 ∉ m) ∧
      ∀ k v, m'.lookup k = some v ↔ (k, v) ∈ xs ∨ m.lookup k = some v := by
  induction xs generalizing m with
  | nil =>
    obtain rfl := Option.some.inj h
    exact ⟨.nil, List.forall_mem_nil _, fun k v => (or_iff_right List.not_mem_nil).symm⟩
  | cons x xs ih =>
    rw [List.foldlM_cons, insertNew] at h
    split_ifs at h with hmem
    · cases h
    · obtain ⟨hnodup, hdisjoint, hlookup⟩ := ih h
      have hne : ∀ y ∈ xs, y.1 ≠ x.1 ∧ y.1 ∉ m := fun y hy =>
        not_or.mp (mt (AList.mem_insert m).mpr (hdisjoint y hy))
      refine ⟨List.nodup_cons.mpr ⟨fun hx => ?_, hnodup⟩, ?_, fun k v => ?_⟩
      · obtain ⟨y, hy, heq⟩ := List.mem_map.mp hx
        exact (hne y hy).1 heq
      · exact List.forall_mem_cons.mpr ⟨hmem, fun y hy => (hne y hy).2⟩
      · rw [hlookup]
        obtain rfl | hk := eq_or_ne k x.1
        · have hnone : m.lookup x.1 ≠ some v := fun hv =>
            hmem (AList.lookup_isSome.mp (hv ▸ rfl))
          rw [AList.lookup_insert, or_iff_left hnone, List.mem_cons, or_comm, Prod.ext_iff,
            Option.some_inj, and_iff_right rfl, eq_comm]
        · have hx : (k, v) ≠ x := fun heq => hk (congrArg Prod.fst heq)
          rw [AList.lookup_insert_ne hk, List.mem_cons, or_iff_right hx]

theorem exists_foldlM_insertNew {xs : List (κ × ν)} {m : Map κ ν}
    (hnodup : (xs.map Prod.fst).Nodup) (hdisjoint : ∀ x ∈ xs, x.1 ∉ m) :
    ∃ m', xs.foldlM (fun m x => insertNew x m) m = some m' := by
  induction xs generalizing m with
  | nil => exact ⟨m, rfl⟩
  | cons x xs ih =>
    obtain ⟨hx, hnodup⟩ := List.nodup_cons.mp hnodup
    obtain ⟨hmem, hdisjoint⟩ := List.forall_mem_cons.mp hdisjoint
    rw [List.foldlM_cons, insertNew, if_neg hmem]
    refine ih hnodup fun y hy hin => ?_
    obtain heq | hin := (AList.mem_insert m).mp hin
    · exact hx (heq ▸ List.mem_map_of_mem hy)
    · exact hdisjoint y hy hin

theorem lookup_copyDefaults (attributeDefaults result : Attributes) (e : ExpandedName)
    (v : AttributeValue) : (copyDefaults attributeDefaults result).lookup e = some v ↔
      result.lookup e = some v ∨ e ∉ result ∧ attributeDefaults.lookup e = some v := by
  rw [copyDefaults]
  have hentries (xs : List (Sigma fun _ : ExpandedName => AttributeValue)) (hxs : xs.NodupKeys)
      (m : Attributes) :
      (xs.foldl (fun result x => if x.1 ∈ result then result else result.insert x.1 x.2)
        m).lookup e = some v ↔ m.lookup e = some v ∨ e ∉ m ∧ ⟨e, v⟩ ∈ xs := by
    induction xs generalizing m with
    | nil => simp
    | cons x xs ih =>
      obtain ⟨hx, hxs⟩ := List.nodupKeys_cons.mp hxs
      rw [List.foldl_cons, ih hxs]
      split_ifs with hmem
      · refine or_congr_right (and_congr_right fun he => ?_)
        rw [List.mem_cons, or_iff_right]
        rintro rfl
        exact he hmem
      · obtain rfl | hne := eq_or_ne e x.1
        · have hnone : m.lookup x.1 ≠ some v := fun hv =>
            hmem (AList.lookup_isSome.mp (hv ▸ rfl))
          have hout : ⟨x.1, v⟩ ∉ xs := fun hin =>
            hx (List.mem_map.mpr ⟨⟨x.1, v⟩, hin, rfl⟩)
          rw [AList.lookup_insert, or_iff_right hnone, and_iff_right hmem, List.mem_cons,
            or_iff_left hout, or_iff_left (fun h => h.1 ((AList.mem_insert m).mpr (.inl rfl)))]
          obtain ⟨k, w⟩ := x
          simp [eq_comm]
        · have hx : (⟨e, v⟩ : Sigma fun _ : ExpandedName => AttributeValue) ≠ x :=
            fun heq => hne (congrArg Sigma.fst heq)
          have hin : e ∉ m.insert x.1 x.2 ↔ e ∉ m :=
            not_congr ((AList.mem_insert m).trans (or_iff_right hne))
          rw [AList.lookup_insert_ne hne, hin, List.mem_cons, or_iff_right hx]
  refine (hentries _ attributeDefaults.nodupKeys result).trans ?_
  exact or_congr_right (and_congr_right fun _ => AList.mem_lookup_iff.symm)

end Urnest.Xml
