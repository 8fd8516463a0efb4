import Mathlib
import Urnest.Xml.TagOpening

/-!
# Where tag openings follow Namespaces in XML

`lastOnly` is a tag without those declarations that a later one of the tag replaces. What the
code makes of a tag is what `lastOnly` denotes, so that it is right just where no prefix is
declared twice, or where the tag is to be rejected on other grounds.
-/

namespace Urnest.Xml

/-! ## Declarations -/

/-- Without the declarations that a later one replaces -/
def AttributeTexts.lastOnly : AttributeTexts → AttributeTexts
  | [] => []
  | x :: xs =>
    if (declares x.1).isSome ∧ ∃ y ∈ xs, declares y.1 = declares x.1 then lastOnly xs
    else x :: lastOnly xs

def TagText.lastOnly (tag : TagText) : TagText :=
  { tag with attributes := tag.attributes.lastOnly }

namespace AttributeTexts

variable {x : UnexpandedName × AttributeValue} {xs : AttributeTexts}

theorem declarations_cons_of_none (h : declares x.1 = none) :
    declarations (x :: xs) = declarations xs := List.filterMap_cons_none (by rw [h]; rfl)

theorem declarations_cons_of_some {p : NamePrefix} (h : declares x.1 = some p) :
    declarations (x :: xs) = (p, x.2) :: declarations xs :=
  List.filterMap_cons_some (by rw [h]; rfl)

theorem proper_cons_of_none (h : declares x.1 = none) : proper (x :: xs) = x :: proper xs :=
  List.filter_cons_of_pos (decide_eq_true h)

theorem proper_cons_of_some {p : NamePrefix} (h : declares x.1 = some p) :
    proper (x :: xs) = proper xs := List.filter_cons_of_neg (by simp [h])

theorem mem_keys_declarations {p : NamePrefix} :
    p ∈ (declarations xs).map Prod.fst ↔ ∃ y ∈ xs, declares y.1 = some p := by
  have hy (y : UnexpandedName × AttributeValue) : ((declares y.1).map fun p => (p, y.2)).map
      Prod.fst = some p ↔ declares y.1 = some p := by cases declares y.1 <;> simp
  rw [declarations, List.map_filterMap, List.mem_filterMap]
  exact exists_congr fun y => and_congr_right fun _ => hy y

theorem lastOnly_cons_of_none (h : declares x.1 = none) :
    lastOnly (x :: xs) = x :: lastOnly xs := if_neg (by simp [h])

theorem lastOnly_cons_of_mem {p : NamePrefix} (h : declares x.1 = some p)
    (hp : p ∈ (declarations xs).map Prod.fst) : lastOnly (x :: xs) = lastOnly xs :=
  if_pos ⟨by rw [h]; rfl, h ▸ mem_keys_declarations.mp hp⟩

theorem lastOnly_cons_of_notMem {p : NamePrefix} (h : declares x.1 = some p)
    (hp : p ∉ (declarations xs).map Prod.fst) : lastOnly (x :: xs) = x :: lastOnly xs :=
  if_neg fun hx => hp (mem_keys_declarations.mpr (h ▸ hx.2))

theorem proper_lastOnly (xs : AttributeTexts) : proper (lastOnly xs) = proper xs := by
  induction xs with
  | nil => rfl
  | cons x xs ih =>
    cases h : declares x.1 with
    | none => rw [lastOnly_cons_of_none h, proper_cons_of_none h, proper_cons_of_none h, ih]
    | some p =>
      by_cases hp : p ∈ (declarations xs).map Prod.fst
      · rw [lastOnly_cons_of_mem h hp, ih, proper_cons_of_some h]
      · rw [lastOnly_cons_of_notMem h hp, proper_cons_of_some h, ih, proper_cons_of_some h]

theorem mem_keys_lastOnly {p : NamePrefix} :
    p ∈ (declarations (lastOnly xs)).map Prod.fst ↔ p ∈ (declarations xs).map Prod.fst := by
  induction xs with
  | nil => rfl
  | cons x xs ih =>
    cases h : declares x.1 with
    | none =>
      rw [lastOnly_cons_of_none h, declarations_cons_of_none h, declarations_cons_of_none h, ih]
    | some q =>
      by_cases hq : q ∈ (declarations xs).map Prod.fst
      · rw [lastOnly_cons_of_mem h hq, ih, declarations_cons_of_some h, List.map_cons,
          List.mem_cons, or_iff_right_of_imp]
        rintro rfl
        exact hq
      · rw [lastOnly_cons_of_notMem h hq, declarations_cons_of_some h,
          declarations_cons_of_some h, List.map_cons, List.map_cons, List.mem_cons,
          List.mem_cons, ih]

theorem nodup_lastOnly (xs : AttributeTexts) :
    ((declarations (lastOnly xs)).map Prod.fst).Nodup := by
  induction xs with
  | nil => exact .nil
  | cons x xs ih =>
    cases h : declares x.1 with
    | none => rwa [lastOnly_cons_of_none h, declarations_cons_of_none h]
    | some p =>
      by_cases hp : p ∈ (declarations xs).map Prod.fst
      · rwa [lastOnly_cons_of_mem h hp]
      · rw [lastOnly_cons_of_notMem h hp, declarations_cons_of_some h]
        exact List.nodup_cons.mpr ⟨mt mem_keys_lastOnly.mp hp, ih⟩

theorem lastOnly_eq (h : ((declarations xs).map Prod.fst).Nodup) : lastOnly xs = xs := by
  induction xs with
  | nil => rfl
  | cons x xs ih =>
    cases hx : declares x.1 with
    | none =>
      rw [declarations_cons_of_none hx] at h
      rw [lastOnly_cons_of_none hx, ih h]
    | some p =>
      rw [declarations_cons_of_some hx] at h
      obtain ⟨hp, h⟩ := List.nodup_cons.mp h
      rw [lastOnly_cons_of_notMem hx hp, ih h]

end AttributeTexts

/-- The declarations of a tag, put over those in scope one after the other -/
def augment (ns : NamespaceDefinitions) (declarations : List (NamePrefix × URI)) :
    NamespaceDefinitions := declarations.foldl (fun ns x => ns.insert x.1 x.2) ns

open AttributeTexts in
theorem lookup_augment (ns : NamespaceDefinitions) (tag : TagText) (p : NamePrefix) (uri : URI) :
    (augment ns tag.attributes.declarations).lookup p = some uri ↔
      tag.lastOnly.InScope ns p uri := by
  obtain ⟨name, xs, empty⟩ := tag
  change _ ↔ (p, uri) ∈ declarations (lastOnly xs) ∨
    p ∉ (declarations (lastOnly xs)).map Prod.fst ∧ ns.lookup p = some uri
  rw [augment]
  induction xs generalizing ns with
  | nil => exact ((or_iff_right List.not_mem_nil).trans (and_iff_right List.not_mem_nil)).symm
  | cons x xs ih =>
    cases h : declares x.1 with
    | none =>
      rw [lastOnly_cons_of_none h, declarations_cons_of_none h, declarations_cons_of_none h, ih]
    | some q =>
      rw [declarations_cons_of_some h, List.foldl_cons, ih]
      by_cases hq : q ∈ (declarations xs).map Prod.fst
      · rw [lastOnly_cons_of_mem h hq]
        refine or_congr_right (and_congr_right fun hp => ?_)
        have hne : p ≠ q := fun heq => hp (mem_keys_lastOnly.mpr (heq ▸ hq))
        rw [AList.lookup_insert_ne hne]
      · have hq' := mt mem_keys_lastOnly.mp hq
        rw [lastOnly_cons_of_notMem h hq, declarations_cons_of_some h, List.map_cons,
          List.mem_cons, List.mem_cons]
        obtain rfl | hne := eq_or_ne p q
        · have hout : (p, uri) ∉ declarations (lastOnly xs) := fun hin =>
            hq' (List.mem_map_of_mem hin)
          rw [AList.lookup_insert, or_iff_right hout, and_iff_right hq', or_iff_left hout,
            or_iff_left (fun hp => hp.1 (.inl rfl)), Prod.mk.injEq, and_iff_right rfl,
            Option.some_inj, eq_comm]
        · have hx : (p, uri) ≠ (q, x.2) := fun heq => hne (congrArg Prod.fst heq)
          rw [AList.lookup_insert_ne hne, or_iff_right hx, or_iff_right hne]

/-! ## Adding the attributes, then expanding them -/

section

variable {s : NamespaceDefinitions × Map UnexpandedName AttributeValue}
  {x : UnexpandedName × AttributeValue}

theorem addAttribute_of_some {p : NamePrefix} (h : declares x.1 = some p) :
    addAttribute s x = some (s.1.insert p x.2, s.2) := by
  rw [declares] at h
  rw [addAttribute]
  split_ifs at h ⊢ <;> rw [Option.some.inj h]

theorem addAttribute_of_none (h : declares x.1 = none) :
    addAttribute s x = (insertNew x s.2).map fun atts => (s.1, atts) := by
  rw [declares] at h
  rw [addAttribute]
  split_ifs at h ⊢
  rfl

theorem foldlM_addAttribute (xs : AttributeTexts) :
    xs.foldlM addAttribute s = (xs.proper.foldlM (fun m x => insertNew x m) s.2).map fun atts =>
      (augment s.1 xs.declarations, atts) := by
  induction xs generalizing s with
  | nil => rfl
  | cons x xs ih =>
    cases h : declares x.1 with
    | none =>
      rw [AttributeTexts.proper_cons_of_none h, AttributeTexts.declarations_cons_of_none h,
        List.foldlM_cons, List.foldlM_cons, addAttribute_of_none h]
      cases hnew : insertNew x s.2 with
      | none => rfl
      | some atts => exact ih
    | some p =>
      rw [AttributeTexts.proper_cons_of_some h, AttributeTexts.declarations_cons_of_some h,
        List.foldlM_cons, addAttribute_of_some h]
      exact ih

end

theorem expandName_eq_some {n : UnexpandedName} {ns : NamespaceDefinitions} {e : ExpandedName} :
    expandName n ns = some e ↔ e.2 = n.2 ∧ ns.lookup n.1 = some e.1 := by
  rw [expandName, Option.map_eq_some_iff]
  refine ⟨?_, fun h => ⟨e.1, h.2, Prod.ext rfl h.1.symm⟩⟩
  rintro ⟨uri, huri, rfl⟩
  exact ⟨rfl, huri⟩

theorem expandName_ans_eq_some {ns : NamespaceDefinitions} {tag : TagText} {n : UnexpandedName}
    {e : ExpandedName} :
    expandName n ((augment ns tag.attributes.declarations).insert [] []) = some e ↔
      tag.lastOnly.ExpandsTo ns n e := by
  rw [expandName_eq_some, TagText.ExpandsTo]
  refine and_congr_right fun _ => ?_
  split_ifs with hn
  · rw [hn, AList.lookup_insert, Option.some_inj, eq_comm]
  · rw [AList.lookup_insert_ne hn, lookup_augment]

section

variable {ans : NamespaceDefinitions} {atts : Map UnexpandedName AttributeValue}

theorem expandAttributes_eq
    (h : ∀ x ∈ atts.entries, ∃ e, expandName x.1 ans = some e) :
    expandAttributes ans atts =
      (atts.entries.map fun x => ((expandName x.1 ans).getD ([], []), x.2)).foldlM
        (fun m x => insertNew x m) ∅ := by
  rw [expandAttributes]
  generalize (∅ : Attributes) = result
  generalize atts.entries = xs at h ⊢
  induction xs generalizing result with
  | nil => rfl
  | cons x xs ih =>
    obtain ⟨⟨e, he⟩, h⟩ := List.forall_mem_cons.mp h
    rw [List.foldlM_cons, List.map_cons, List.foldlM_cons, he]
    exact congrArg _ (funext fun result => ih result h)

theorem exists_expandName {result : Attributes} (h : expandAttributes ans atts = some result) :
    ∀ x ∈ atts.entries, ∃ e, expandName x.1 ans = some e := by
  rw [expandAttributes] at h
  generalize (∅ : Attributes) = start at h
  generalize atts.entries = xs at h ⊢
  induction xs generalizing start with
  | nil => exact List.forall_mem_nil _
  | cons x xs ih =>
    rw [List.foldlM_cons] at h
    obtain ⟨m, hm, h⟩ := Option.bind_eq_some_iff.mp h
    obtain ⟨e, he, -⟩ := Option.bind_eq_some_iff.mp hm
    exact List.forall_mem_cons.mpr ⟨⟨e, he⟩, ih m h⟩

end

/-! ## What the code makes of a tag -/

section

variable {ns : NamespaceDefinitions} {attributeDefaults : Attributes} {tag : TagText}

theorem mem_entries {κ ν : Type} [DecidableEq κ] {m : Map κ ν} {x : Sigma fun _ : κ => ν} :
    x ∈ m.entries ↔ m.lookup x.1 = some x.2 := AList.mem_lookup_iff.symm

theorem lookup_of_foldlM {κ ν : Type} [DecidableEq κ] {xs : List (κ × ν)} {m : Map κ ν}
    (h : xs.foldlM (fun m x => insertNew x m) ∅ = some m) (k : κ) (v : ν) :
    m.lookup k = some v ↔ (k, v) ∈ xs := by
  refine ((foldlM_insertNew_eq_some h).2.2 k v).trans (or_iff_left ?_)
  rw [AList.lookup_empty]
  exact (nomatch ·)

variable (attributeDefaults) in
theorem resolve_of_wellFormed (h : tag.lastOnly.WellFormed ns) :
    ∃ result within, resolve ns attributeDefaults tag = some (result, within) ∧
      tag.lastOnly.Denotes ns attributeDefaults result within := by
  have hproper : tag.lastOnly.attributes.proper = tag.attributes.proper :=
    AttributeTexts.proper_lastOnly _
  obtain ⟨atts, hatts⟩ := exists_foldlM_insertNew (m := ∅) (hproper ▸ h.nodup_attributes)
    fun x _ => AList.notMem_empty x.1
  have hlookup := lookup_of_foldlM hatts
  have hmem {x : Sigma fun _ : UnexpandedName => AttributeValue} (hx : x ∈ atts.entries) :
      (x.1, x.2) ∈ tag.lastOnly.attributes.proper :=
    hproper ▸ (hlookup x.1 x.2).mp (mem_entries.mp hx)
  -- each name has an expansion, and two names have two
  let ans := (augment ns tag.attributes.declarations).insert [] []
  have hexpands : ∀ x ∈ atts.entries, ∃ e, expandName x.1 ans = some e := fun x hx =>
    (h.expands _ (hmem hx)).imp fun e he => expandName_ans_eq_some.mpr he
  have hnodup : ((atts.entries.map fun x =>
      ((expandName x.1 ans).getD ([], []), x.2)).map Prod.fst).Nodup := by
    rw [List.map_map]
    refine List.Nodup.map_on (fun x hx y hy heq => ?_) atts.nodupKeys.nodup
    obtain ⟨e, he⟩ := hexpands x hx
    obtain ⟨e', he'⟩ := hexpands y hy
    simp only [Function.comp, he, he', Option.getD_some] at heq
    have hname := h.expands_inj _ (hmem hx) _ (hmem hy) e (expandName_ans_eq_some.mp he)
      (expandName_ans_eq_some.mp (heq ▸ he'))
    exact atts.nodupKeys.eq_of_fst_eq hx hy hname
  obtain ⟨result, hresult⟩ := exists_foldlM_insertNew (m := ∅) hnodup
    fun x _ => AList.notMem_empty x.1
  obtain ⟨uri, huri⟩ := h.name_inScope
  have htag : expandName tag.name (augment ns tag.attributes.declarations) =
      some (uri, tag.name.2) :=
    expandName_eq_some.mpr ⟨rfl, (lookup_augment ns tag _ _).mpr huri⟩
  refine ⟨(((uri, tag.name.2), copyDefaults attributeDefaults result), tag.empty),
    augment ns tag.attributes.declarations, ?_, huri, rfl, fun e v => ?_, rfl,
    lookup_augment ns tag⟩
  · rw [resolve, foldlM_addAttribute, hatts]
    simp only [Option.map_some, Option.bind_eq_bind, Option.bind_some]
    rw [expandAttributes_eq hexpands, hresult, Option.bind_some, htag]
    rfl
  · have hread (v : AttributeValue) : result.lookup e = some v ↔
        ∃ n, (n, v) ∈ tag.lastOnly.attributes.proper ∧ tag.lastOnly.ExpandsTo ns n e := by
      rw [lookup_of_foldlM hresult, List.mem_map]
      constructor
      · rintro ⟨x, hx, heq⟩
        obtain ⟨e', he'⟩ := hexpands x hx
        rw [he', Option.getD_some] at heq
        obtain ⟨rfl, rfl⟩ := Prod.mk.inj heq
        exact ⟨x.1, hmem hx, expandName_ans_eq_some.mp he'⟩
      · rintro ⟨n, hn, hexpand⟩
        have hn' : ⟨n, v⟩ ∈ atts.entries := mem_entries.mpr ((hlookup n v).mpr (hproper ▸ hn))
        refine ⟨⟨n, v⟩, hn', ?_⟩
        rw [expandName_ans_eq_some.mpr hexpand, Option.getD_some]
    have hnotMem : e ∉ result ↔
        ∀ x ∈ tag.lastOnly.attributes.proper, ¬tag.lastOnly.ExpandsTo ns x.1 e := by
      rw [← AList.lookup_eq_none, Option.eq_none_iff_forall_ne_some]
      refine ⟨fun hne x hx hexpand => hne x.2 ((hread x.2).mpr ⟨x.1, hx, hexpand⟩), ?_⟩
      intro hall v hv
      obtain ⟨n, hn, hexpand⟩ := (hread v).mp hv
      exact hall _ hn hexpand
    rw [lookup_copyDefaults, hread, hnotMem]

theorem wellFormed_of_resolve {x : TagOpening × NamespaceDefinitions}
    (h : resolve ns attributeDefaults tag = some x) : tag.lastOnly.WellFormed ns := by
  have hproper : tag.lastOnly.attributes.proper = tag.attributes.proper :=
    AttributeTexts.proper_lastOnly _
  rw [resolve, foldlM_addAttribute] at h
  obtain ⟨s, hs, h⟩ := Option.bind_eq_some_iff.mp h
  obtain ⟨atts, hatts, rfl⟩ := Option.map_eq_some_iff.mp hs
  obtain ⟨result, hresult, h⟩ := Option.bind_eq_some_iff.mp h
  obtain ⟨tagName, htag, -⟩ := Option.bind_eq_some_iff.mp h
  have hexpands := exists_expandName hresult
  rw [expandAttributes_eq hexpands] at hresult
  have hnodup := (foldlM_insertNew_eq_some hresult).1
  rw [List.map_map] at hnodup
  have hentry {n : UnexpandedName} {v : AttributeValue}
      (hn : (n, v) ∈ tag.lastOnly.attributes.proper) : ⟨n, v⟩ ∈ atts.entries :=
    mem_entries.mpr ((lookup_of_foldlM hatts n v).mpr (hproper ▸ hn))
  refine ⟨AttributeTexts.nodup_lastOnly _, hproper ▸ (foldlM_insertNew_eq_some hatts).1, ?_, ?_, ?_⟩
  · exact ⟨_, (lookup_augment ns tag _ _).mp (expandName_eq_some.mp htag).2⟩
  · intro x hx
    exact (hexpands _ (hentry hx)).imp fun e he => expandName_ans_eq_some.mp he
  · intro x hx y hy e he he'
    have heq := List.inj_on_of_nodup_map hnodup (hentry hx) (hentry hy)
    rw [Function.comp, Function.comp, expandName_ans_eq_some.mpr he,
      expandName_ans_eq_some.mpr he'] at heq
    exact congrArg Sigma.fst (heq rfl)

end

/-! ## Where it is right -/

/-- A text that begins with no tag opening is refused, and so is a tag that is not well formed;
of any other tag the code makes what it stands for. -/
def FollowsNamespaces (text : Text) (namespaces : NamespaceDefinitions)
    (attributeDefaults : Attributes) (skip : Text → Option Text) : Prop :=
  match readTag skip text with
  | none => parseTagOpening text namespaces attributeDefaults skip = none
  | some (tag, rest) =>
    (tag.WellFormed namespaces → ∃ result within,
      parseTagOpening text namespaces attributeDefaults skip = some (result, within, rest) ∧
        tag.Denotes namespaces attributeDefaults result within) ∧
    (¬tag.WellFormed namespaces →
      parseTagOpening text namespaces attributeDefaults skip = none)

theorem followsNamespaces_iff (text : Text) (namespaces : NamespaceDefinitions)
    (attributeDefaults : Attributes) (skip : Text → Option Text) :
    FollowsNamespaces text namespaces attributeDefaults skip ↔
      ∀ tag rest, readTag skip text = some (tag, rest) →
        (tag.attributes.declarations.map Prod.fst).Nodup ∨ ¬tag.lastOnly.WellFormed namespaces := by
  rw [FollowsNamespaces, parseTagOpening_eq]
  cases hread : readTag skip text with
  | none => exact iff_of_true rfl fun _ _ h => nomatch h
  | some x =>
    obtain ⟨tag, rest⟩ := x
    have hlast (h : tag.WellFormed namespaces) : tag.lastOnly = tag := by
      rw [TagText.lastOnly, AttributeTexts.lastOnly_eq h.nodup_declarations]
    refine ⟨fun ⟨_, hrejects⟩ tag' rest' heq => ?_, fun h => ?_⟩
    · obtain ⟨rfl, rfl⟩ := Prod.mk.inj (Option.some.inj heq)
      refine or_iff_not_imp_left.mpr fun hdup hwell => ?_
      obtain ⟨result, within, hresolve, -⟩ :=
        resolve_of_wellFormed attributeDefaults hwell
      have hnone := hrejects fun h => hdup h.nodup_declarations
      rw [Option.bind_some, hresolve] at hnone
      cases hnone
    · refine ⟨fun hwell => ?_, fun hwell => ?_⟩
      · obtain ⟨result, within, hresolve, hdenotes⟩ :=
          resolve_of_wellFormed attributeDefaults ((hlast hwell).symm ▸ hwell)
        refine ⟨result, within, ?_, hlast hwell ▸ hdenotes⟩
        rw [Option.bind_some, hresolve]
        rfl
      · rw [Option.bind_some, Option.map_eq_none_iff, Option.eq_none_iff_forall_ne_some]
        intro x hx
        have hwell' := wellFormed_of_resolve hx
        obtain hnodup | hnot := h tag rest rfl
        · rw [TagText.lastOnly, AttributeTexts.lastOnly_eq hnodup] at hwell'
          exact hwell hwell'
        · exact hnot hwell'

/-- `<T xmlns="a" xmlns="b"/>`, where nothing is in scope yet -/
theorem not_followsNamespaces : ¬∀ text namespaces attributeDefaults skip,
    FollowsNamespaces text namespaces attributeDefaults skip := by
  intro h
  let skip := fun text => some (skipWhiteSpaceAndComments text)
  let tag : TagText := ⟨([], ['T']), [(([], xmlns), ['a']), (([], xmlns), ['b'])], true⟩
  have hread : readTag skip "<T xmlns=\"a\" xmlns=\"b\"/>".toList = some (tag, []) := by
    have ha : parseAttribute "xmlns=\"a\" xmlns=\"b\"/>".toList =
        some ((([], xmlns), ['a']), " xmlns=\"b\"/>".toList) :=
      parseAttribute_of_plain rfl (List.forall_mem_singleton.mpr ⟨by decide, by decide⟩)
    have hb : parseAttribute "xmlns=\"b\"/>".toList = some ((([], xmlns), ['b']), ['/', '>']) :=
      parseAttribute_of_plain rfl (List.forall_mem_singleton.mpr ⟨by decide, by decide⟩)
    have hskip : skipWhiteSpaceAndComments " xmlns=\"b\"/>".toList = "xmlns=\"b\"/>".toList :=
      skipWhiteSpaceAndComments_space (by decide) (by decide) (by decide)
    have hend : skipWhiteSpaceAndComments ['/', '>'] = ['/', '>'] :=
      skipWhiteSpaceAndComments_of_head (by decide) (by decide)
    have hattributes : readAttributes "xmlns=\"a\" xmlns=\"b\"/>".toList =
        some (tag.attributes, ['/', '>']) := by
      refine (readAttributes_cons (by decide) ha).trans ?_
      rw [hskip]
      refine congrArg _ (readAttributes_cons (by decide) hb) |>.trans ?_
      rw [hend, readAttributes, if_pos (.inr rfl)]
      rfl
    have hfirst : skipWhiteSpaceAndComments " xmlns=\"a\" xmlns=\"b\"/>".toList =
        "xmlns=\"a\" xmlns=\"b\"/>".toList :=
      skipWhiteSpaceAndComments_space (by decide) (by decide) (by decide)
    have hlast : readTagEnd skip ['/', '>'] = some (true, []) := by
      have hbracket : skipWhiteSpaceAndComments ['>'] = ['>'] :=
        skipWhiteSpaceAndComments_of_head (by decide) (by decide)
      have hnil : skip [] = some [] := congrArg some (by rw [skipWhiteSpaceAndComments]; rfl)
      simp [readTagEnd, hbracket, parseLiteral, hnil]
    rw [readTag]
    refine Option.bind_eq_some_iff.mpr ⟨"T xmlns=\"a\" xmlns=\"b\"/>".toList, rfl, ?_⟩
    refine Option.bind_eq_some_iff.mpr
      ⟨(([], ['T']), " xmlns=\"a\" xmlns=\"b\"/>".toList), rfl, ?_⟩
    refine Option.bind_eq_some_iff.mpr ⟨_, congrArg some hfirst, ?_⟩
    refine Option.bind_eq_some_iff.mpr ⟨_, hattributes, ?_⟩
    exact Option.bind_eq_some_iff.mpr ⟨_, hlast, rfl⟩
  have hrejects := h "<T xmlns=\"a\" xmlns=\"b\"/>".toList ∅ ∅ skip
  rw [FollowsNamespaces, hread] at hrejects
  have hdup : ¬tag.WellFormed ∅ := fun hwell => absurd hwell.nodup_declarations (by decide)
  have hnone := hrejects.2 hdup
  rw [parseTagOpening_eq, hread] at hnone
  have hresolve : (resolve ∅ ∅ tag).isSome := by decide
  rw [Option.bind_some, Option.map_eq_none_iff] at hnone
  rw [hnone] at hresolve
  cases hresolve

end Urnest.Xml
