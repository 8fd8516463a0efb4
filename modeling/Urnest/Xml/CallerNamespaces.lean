import Urnest.Xml.Namespaces

/-!
# The namespaces of the caller

`parseTagOpening` augments a map that is the caller's. `parseAttributes` swaps the augmented map
in as its last step; what can still fail after that is that the element's own prefix is not
declared, and what ends the tag. A tag that fails there has left its declarations in the
caller's map, which is to be as it was whenever a tag fails.
-/

namespace Urnest.Xml

/-! ## The code, with the map after it -/

/-- The caller's map afterwards, and the result unless it throws -/
def parseAttributesInto (text : Text) (namespaceDefinitions : NamespaceDefinitions)
    (attributeDefaults : Attributes) : NamespaceDefinitions × Option (Attributes × Text) :=
  match parseAttributes text namespaceDefinitions attributeDefaults with
  | none => (namespaceDefinitions, none)
  | some (result, ns, i) => (ns, some (result, i))

def parseTagOpeningInto (text : Text) (namespaces : NamespaceDefinitions)
    (attributeDefaults : Attributes) (skip : Text → Option Text) :
    NamespaceDefinitions × Option (TagOpening × Text) :=
  match (do
    let i ← parseLiteral ['<'] text
    let x ← parseUnexpandedName i
    return (x.1, ← skip x.2)) with
  | none => (namespaces, none)
  | some (name, i) =>
    match parseAttributesInto i namespaces attributeDefaults with
    | (namespaces, none) => (namespaces, none)
    | (namespaces, some (y, i)) => (namespaces, do
        let tagName ← expandName name namespaces
        let (simpleTag, i) ← readTagEnd skip i
        return (((tagName, y), simpleTag), i))

theorem parseTagOpening_eq_into (text : Text) (namespaces : NamespaceDefinitions)
    (attributeDefaults : Attributes) (skip : Text → Option Text) :
    parseTagOpening text namespaces attributeDefaults skip =
      (parseTagOpeningInto text namespaces attributeDefaults skip).2.map fun r =>
        (r.1, (parseTagOpeningInto text namespaces attributeDefaults skip).1, r.2) := by
  rw [parseTagOpening, parseTagOpeningInto]
  cases parseLiteral ['<'] text with
  | none => rfl
  | some i =>
    cases hname : parseUnexpandedName i with
    | none => simp [hname]
    | some x =>
      cases hskip : skip x.2 with
      | none => simp [hname, hskip]
      | some j =>
        cases hattributes : parseAttributes j namespaces attributeDefaults with
        | none => simp [hname, hskip, parseAttributesInto, hattributes]
        | some y =>
          cases htag : expandName x.1 y.2.1 <;> cases hend : readTagEnd skip y.2.2 <;>
            simp [hname, hskip, parseAttributesInto, hattributes, htag, hend]

/-! ## Where the map is left as it was -/

/-- A tag up to what ends it: its name, its attributes as they are written, and the text from
the `>` or the `/` on. -/
def readTagStart (skip : Text → Option Text) (text : Text) :
    Option (UnexpandedName × AttributeTexts × Text) := do
  let i ← parseLiteral ['<'] text
  let x ← parseUnexpandedName i
  let y ← readAttributes (← skip x.2)
  return (x.1, y.1, y.2)

/-- What is made of attributes that have been read, and the augmented map -/
def resolveAttributes (namespaces : NamespaceDefinitions) (attributeDefaults : Attributes)
    (xs : AttributeTexts) : Option (Attributes × NamespaceDefinitions) := do
  let (ns, atts) ← xs.foldlM addAttribute (namespaces, ∅)
  let result ← expandAttributes (ns.insert [] []) atts
  return (copyDefaults attributeDefaults result, ns)

/-- No attribute is duplicate or has an undeclared prefix. -/
def Resolves (namespaces : NamespaceDefinitions) (xs : AttributeTexts) : Prop :=
  (resolveAttributes namespaces ∅ xs).isSome

def SameMap (ns ns' : NamespaceDefinitions) : Prop := ∀ p, ns.lookup p = ns'.lookup p

/-- If the tag fails, the map is as it was. If not, it is the old one overridden by the tag's
declarations. -/
def Promised (text : Text) (namespaces : NamespaceDefinitions) (attributeDefaults : Attributes)
    (skip : Text → Option Text) : Prop :=
  match parseTagOpeningInto text namespaces attributeDefaults skip with
  | (after, none) => SameMap after namespaces
  | (after, some (_, rest)) => ∃ tag, readTag skip text = some (tag, rest) ∧
    ∀ p uri, after.lookup p = some uri ↔ tag.lastOnly.InScope namespaces p uri

/-- If the attributes can be read and resolved, and declare anything that changes the map, the
tag does not fail after that: its own prefix is declared, and it ends like a tag. -/
def FailsInTime (text : Text) (namespaces : NamespaceDefinitions) (skip : Text → Option Text) :
    Prop :=
  ∀ name xs i, readTagStart skip text = some (name, xs, i) → Resolves namespaces xs →
    SameMap (augment namespaces xs.declarations) namespaces ∨
      (expandName name (augment namespaces xs.declarations)).isSome ∧ (readTagEnd skip i).isSome

section

variable {namespaces : NamespaceDefinitions} {attributeDefaults : Attributes}

theorem parseAttributes_eq_resolve (text : Text) :
    parseAttributes text namespaces attributeDefaults = (readAttributes text).bind fun xs =>
      (resolveAttributes namespaces attributeDefaults xs.1).map fun y => (y.1, y.2, xs.2) := by
  rw [parseAttributes, attributesLoop_eq]
  cases readAttributes text with
  | none => rfl
  | some xs =>
    obtain hfold | ⟨s, hfold⟩ := (xs.1.foldlM addAttribute (namespaces, ∅)).eq_none_or_eq_some
    · simp [resolveAttributes, hfold]
    · cases hexpand : expandAttributes (s.1.insert [] []) s.2 <;>
        simp [resolveAttributes, hfold, hexpand]

theorem snd_of_resolveAttributes {xs : AttributeTexts} {y : Attributes × NamespaceDefinitions}
    (h : resolveAttributes namespaces attributeDefaults xs = some y) :
    y.2 = augment namespaces xs.declarations := by
  rw [resolveAttributes, foldlM_addAttribute] at h
  obtain ⟨s, hs, h⟩ := Option.bind_eq_some_iff.mp h
  obtain ⟨atts, -, rfl⟩ := Option.map_eq_some_iff.mp hs
  obtain ⟨result, -, h⟩ := Option.bind_eq_some_iff.mp h
  rw [← Option.some.inj h]

/-- Whether attributes resolve does not depend on the defaults. -/
theorem isSome_resolveAttributes (xs : AttributeTexts) :
    (resolveAttributes namespaces attributeDefaults xs).isSome ↔ Resolves namespaces xs := by
  rw [Resolves, resolveAttributes, resolveAttributes]
  obtain hfold | ⟨s, hfold⟩ := (xs.foldlM addAttribute (namespaces, ∅)).eq_none_or_eq_some
  · simp [hfold]
  · cases hexpand : expandAttributes (s.1.insert [] []) s.2 <;> simp [hfold, hexpand]

/-- The map is changed when the attributes have been resolved. -/
theorem parseTagOpeningInto_eq (text : Text) (skip : Text → Option Text) :
    parseTagOpeningInto text namespaces attributeDefaults skip =
      match readTagStart skip text with
      | none => (namespaces, none)
      | some (name, xs, i) =>
        match resolveAttributes namespaces attributeDefaults xs with
        | none => (namespaces, none)
        | some (y, ns) => (ns, do
            let tagName ← expandName name ns
            let (simpleTag, i) ← readTagEnd skip i
            return (((tagName, y), simpleTag), i)) := by
  rw [parseTagOpeningInto, readTagStart]
  cases parseLiteral ['<'] text with
  | none => rfl
  | some i =>
    cases hname : parseUnexpandedName i with
    | none => simp [hname]
    | some x =>
      cases hskip : skip x.2 with
      | none => simp [hname, hskip]
      | some j =>
        cases hread : readAttributes j with
        | none => simp [hname, hskip, parseAttributesInto, parseAttributes_eq_resolve, hread]
        | some xs =>
          cases hresolve : resolveAttributes namespaces attributeDefaults xs.1 <;>
            simp [hname, hskip, parseAttributesInto, parseAttributes_eq_resolve, hread, hresolve]

theorem readTag_eq (skip : Text → Option Text) (text : Text) :
    readTag skip text = (readTagStart skip text).bind fun y =>
      (readTagEnd skip y.2.2).map fun z => (⟨y.1, y.2.1, z.1⟩, z.2) := by
  rw [readTag, readTagStart]
  cases parseLiteral ['<'] text with
  | none => rfl
  | some i =>
    cases hname : parseUnexpandedName i with
    | none => simp [hname]
    | some x =>
      cases hskip : skip x.2 with
      | none => simp [hname, hskip]
      | some j =>
        cases hread : readAttributes j with
        | none => simp [hname, hskip, hread]
        | some xs => cases hend : readTagEnd skip xs.2 <;> simp [hname, hskip, hread, hend]

end

/-- The promise is kept if and only if nothing fails after the attributes have changed the map. -/
theorem promised_iff (text : Text) (namespaces : NamespaceDefinitions)
    (attributeDefaults : Attributes) (skip : Text → Option Text) :
    Promised text namespaces attributeDefaults skip ↔ FailsInTime text namespaces skip := by
  rw [Promised, FailsInTime, parseTagOpeningInto_eq]
  cases hstart : readTagStart skip text with
  | none => exact iff_of_true (fun _ => rfl) fun _ _ _ h => nomatch h
  | some start =>
    obtain ⟨name, xs, i⟩ := start
    have honly (P : UnexpandedName → AttributeTexts → Text → Prop) :
        (∀ name' xs' i', some (name, xs, i) = some (name', xs', i') → P name' xs' i') ↔
          P name xs i := by
      refine ⟨fun h => h name xs i rfl, fun h name' xs' i' heq => ?_⟩
      cases heq
      exact h
    rw [honly fun name xs i => Resolves namespaces xs →
      SameMap (augment namespaces xs.declarations) namespaces ∨
        (expandName name (augment namespaces xs.declarations)).isSome ∧ (readTagEnd skip i).isSome,
      ← @isSome_resolveAttributes namespaces attributeDefaults]
    cases hresolve : resolveAttributes namespaces attributeDefaults xs with
    | none => simp [hresolve, SameMap]
    | some y =>
      obtain ⟨result, ns⟩ := y
      obtain rfl : ns = augment namespaces xs.declarations := snd_of_resolveAttributes hresolve
      cases htag : expandName name (augment namespaces xs.declarations) with
      | none => simp [hresolve, htag]
      | some tagName =>
        cases hend : readTagEnd skip i with
        | none => simp [hresolve, htag, hend]
        | some z =>
          have htagRead : readTag skip text = some (⟨name, xs, z.1⟩, z.2) := by
            rw [readTag_eq, hstart, Option.bind_some, hend]
            rfl
          refine iff_of_true ?_ fun _ => .inr ⟨rfl, rfl⟩
          simp only [hresolve, Option.bind_eq_bind, htag, hend, Option.bind_some, pure]
          exact ⟨_, htagRead, lookup_augment namespaces ⟨name, xs, z.1⟩⟩

/-- `<T xmlns="a"/`, where nothing is in scope yet -/
theorem not_promised : ¬∀ text namespaces attributeDefaults skip,
    Promised text namespaces attributeDefaults skip := by
  intro h
  let skip := fun text => some (skipWhiteSpaceAndComments text)
  let xs : AttributeTexts := [(([], xmlns), ['a'])]
  have hread : readAttributes "xmlns=\"a\"/".toList = some (xs, ['/']) := by
    have ha : parseAttribute "xmlns=\"a\"/".toList = some ((([], xmlns), ['a']), ['/']) :=
      parseAttribute_of_plain rfl (List.forall_mem_singleton.mpr ⟨by decide, by decide⟩)
    refine (readAttributes_cons (by decide) ha).trans ?_
    rw [skipWhiteSpaceAndComments_of_head (by decide) (by decide), readAttributes,
      if_pos (.inr rfl)]
    rfl
  have hskip : skip " xmlns=\"a\"/".toList = some "xmlns=\"a\"/".toList :=
    congrArg some (skipWhiteSpaceAndComments_space (by decide) (by decide) (by decide))
  have hstart : readTagStart skip "<T xmlns=\"a\"/".toList = some (([], ['T']), xs, ['/']) := by
    rw [readTagStart]
    refine Option.bind_eq_some_iff.mpr ⟨"T xmlns=\"a\"/".toList, rfl, ?_⟩
    refine Option.bind_eq_some_iff.mpr ⟨(([], ['T']), " xmlns=\"a\"/".toList), rfl, ?_⟩
    refine Option.bind_eq_some_iff.mpr ⟨_, hskip, ?_⟩
    exact Option.bind_eq_some_iff.mpr ⟨_, hread, rfl⟩
  have hend : readTagEnd skip ['/'] = none := by
    have hnil : skipWhiteSpaceAndComments [] = [] := by rw [skipWhiteSpaceAndComments]; rfl
    simp [readTagEnd, hnil, parseLiteral]
  have hkept := h "<T xmlns=\"a\"/".toList ∅ ∅ skip
  have hsome : (resolveAttributes ∅ ∅ xs).isSome := by decide
  obtain ⟨⟨result, ns⟩, hresolve⟩ := Option.isSome_iff_exists.mp hsome
  obtain rfl : ns = augment ∅ xs.declarations := snd_of_resolveAttributes hresolve
  rw [Promised, parseTagOpeningInto_eq, hstart] at hkept
  simp only [hresolve, hend] at hkept
  exact absurd (hkept []) (by decide)

end Urnest.Xml
