import Urnest.JsonCodec.Agreement

/-!
# What is missing, and what the validators do

Every default that a reading finds missing is for a property that is not there
(`Reading.FindsMissing`), and so `applyDefaults` adds it, unless it is named `__proto__`.
-/

namespace Urnest.JsonCodec

variable {Number : Type} {host : Host Number}

/-! ## Each default is for a property that is missing -/

namespace Reading

def FindsMissing (r : Reading Number) : Prop :=
  ∀ x ds, r.missing x = some ds → ∀ d ∈ ds, Missing x d

theorem mem_joined {ms : List (Option (Defaults Number))} {ds : Defaults Number}
    {d : Default Number} (h : joined ms = some ds) (hd : d ∈ ds) :
    ∃ m ∈ ms, ∃ ds', m = some ds' ∧ d ∈ ds' := by
  induction ms generalizing ds with
  | nil =>
    cases h
    cases hd
  | cons m ms ih =>
    obtain ⟨front, rfl, h⟩ := Option.bind_eq_some_iff.mp h
    obtain ⟨back, hback, rfl⟩ := Option.map_eq_some_iff.mp h
    obtain hd | hd := List.mem_append.mp hd
    · exact ⟨_, List.mem_cons_self, front, rfl, hd⟩
    · obtain ⟨m, hm, hds⟩ := ih hback hd
      exact ⟨m, List.mem_cons_of_mem _ hm, hds⟩

theorem mem_under {step : Step} {m : Option (Defaults Number)} {ds : Defaults Number}
    {d : Default Number} (h : m.map (under step) = some ds) (hd : d ∈ ds) :
    ∃ ds', m = some ds' ∧ ∃ d' ∈ ds', d = { d' with path := step :: d'.path } := by
  obtain ⟨ds', rfl, rfl⟩ := Option.map_eq_some_iff.mp h
  obtain ⟨d', hd', rfl⟩ := List.mem_map.mp hd
  exact ⟨ds', rfl, d', hd', rfl⟩

theorem findsMissing_of (p : Value Number → Bool) : (Reading.of p).FindsMissing := by
  intro x ds h d hd
  change (if p x then _ else _) = _ at h
  split_ifs at h
  cases h
  cases hd

theorem findsMissing_bytes : (bytes host).FindsMissing := by
  intro x ds h d hd
  cases x with
  | array xs =>
    change (if _ then _ else _) = _ at h
    split_ifs at h
    cases h
    cases hd
  | _ => cases h

/-- The parts of an array, with the readings for them -/
theorem missing_of_parts {xs : List (Value Number)}
    {parts : List ((Reading Number × Value Number) × Nat)}
    (hparts : ∀ part ∈ parts, part.1.1.FindsMissing ∧ xs[part.2]? = some part.1.2)
    {ds : Defaults Number} (h : joined (parts.map missingAt) = some ds) {d : Default Number}
    (hd : d ∈ ds) : Missing (.array xs) d := by
  obtain ⟨m, hm, ds', rfl, hd⟩ := mem_joined h hd
  obtain ⟨part, hpart, hmissing⟩ := List.mem_map.mp hm
  obtain ⟨ds'', hds'', d', hd', rfl⟩ := mem_under hmissing hd
  obtain ⟨hfinds, hx⟩ := hparts part hpart
  exact .item hx (hfinds _ _ hds'' d' hd')

theorem findsMissing_list {item : Reading Number} (h : item.FindsMissing) :
    (list item).FindsMissing := by
  intro x ds hds d hd
  cases x with
  | array xs =>
    have hparts : ∀ part ∈ xs.zipIdx.map fun x => ((item, x.1), x.2),
        part.1.1.FindsMissing ∧ xs[part.2]? = some part.1.2 := by
      intro part hpart
      obtain ⟨x, hx, rfl⟩ := List.mem_map.mp hpart
      exact ⟨h, List.mem_zipIdx_iff_getElem?.mp hx⟩
    exact missing_of_parts hparts (by rw [List.map_map]; exact hds) hd
  | _ => cases hds

theorem findsMissing_tuple {items : List (Reading Number)} (h : ∀ r ∈ items, r.FindsMissing) :
    (tuple items).FindsMissing := by
  rw [tuple.eq_def]
  split
  · exact findsMissing_list (h _ (List.mem_singleton_self _))
  · intro x ds hds d hd
    cases x with
    | array xs =>
      change (if _ then _ else _) = _ at hds
      split_ifs at hds
      refine missing_of_parts (fun part hpart => ?_) hds hd
      obtain ⟨⟨r, x⟩, i⟩ := part
      have hzip := List.mem_zipIdx_iff_getElem?.mp hpart
      obtain ⟨hr, hx⟩ := List.getElem?_zip_eq_some.mp hzip
      exact ⟨h r (List.mem_of_getElem? hr), hx⟩
    | _ => cases hds

theorem findsMissing_union {rs : List (Reading Number)} (h : ∀ r ∈ rs, r.FindsMissing) :
    (union rs).FindsMissing := by
  intro x ds hds
  obtain ⟨r, hr, hmissing⟩ := List.exists_of_findSome?_eq_some hds
  exact h r hr x ds hmissing

theorem findsMissing_dict (key : KeyReading) {value : Reading Number} (h : value.FindsMissing) :
    (dict key value).FindsMissing := by
  intro x ds hds d hd
  cases x with
  | object properties =>
    obtain ⟨m, hm, ds', rfl, hd⟩ := mem_joined hds hd
    obtain ⟨x, hx, hmissing⟩ := List.mem_map.mp hm
    rw [missingProperty] at hmissing
    split_ifs at hmissing
    obtain ⟨ds'', hds'', d', hd', rfl⟩ := mem_under hmissing hd
    exact .property hx (h _ _ hds'' d' hd')
  | _ => cases hds

theorem findsMissing_class {items : List (Property (Reading Number) Number)}
    (h : ∀ item ∈ items, item.2.1.FindsMissing) : (class_ items).FindsMissing := by
  intro x ds hds d hd
  cases x with
  | object properties =>
    obtain ⟨m, hm, ds', rfl, hd⟩ := mem_joined hds hd
    obtain ⟨item, hitem, hmissing⟩ := List.mem_map.mp hm
    rw [missingItem] at hmissing
    cases hlookup : properties.lookup item.1 with
    | some x =>
      rw [hlookup] at hmissing
      obtain ⟨ds'', hds'', d', hd', rfl⟩ := mem_under hmissing hd
      obtain ⟨front, back, heq, -⟩ := List.lookup_eq_some_iff.mp hlookup
      have hx : (item.1, x) ∈ properties := heq ▸ List.mem_append_right _ List.mem_cons_self
      exact .property hx (h item hitem _ _ hds'' d' hd')
    | none =>
      rw [hlookup] at hmissing
      obtain ⟨defaultValue, -, rfl⟩ := Option.map_eq_some_iff.mp hmissing
      rw [List.mem_singleton.mp hd]
      refine .here fun hmem => ?_
      have hsome := isSome_lookup properties item.1
      rw [hlookup, decide_eq_true hmem] at hsome
      cases hsome
  | _ => cases hds

end Reading

mutual

theorem Validator.findsMissing : (t : Validator Number) → (t.reading host).FindsMissing
  | .string | .stringPattern _ | .float | .int | .bool | .null | .literal _ | .any | .anyList
  | .anyDict => Reading.findsMissing_of _
  | .list itemType => Reading.findsMissing_list itemType.findsMissing
  | .bytes => Reading.findsMissing_bytes
  | .union alternatives => Reading.findsMissing_union (readings_findsMissing alternatives)
  | .dict _ value => Reading.findsMissing_dict _ value.findsMissing
  | .tuple items => Reading.findsMissing_tuple (readings_findsMissing items)
  | .class_ _ items => Reading.findsMissing_class (propertyReadings_findsMissing items)

theorem readings_findsMissing :
    (ts : List (Validator Number)) → ∀ r ∈ readings host ts, r.FindsMissing
  | [] => fun _ h => nomatch h
  | t :: ts => List.forall_mem_cons.mpr ⟨t.findsMissing, readings_findsMissing ts⟩

theorem propertyReadings_findsMissing :
    (items : List (String × Validator Number × Option (Value Number))) →
      ∀ item ∈ propertyReadings host items, item.2.1.FindsMissing
  | [] => fun _ h => nomatch h
  | (_, t, _) :: items =>
    List.forall_mem_cons.mpr ⟨t.findsMissing, propertyReadings_findsMissing items⟩

end

/-! ## What the two make of a value -/

/-- `isInstance` returns, and false just where `asInstance` throws; where they accept the value
both return the same defaults, which are those that are missing from it, and applying them adds
them. -/
structure Reading.Holds (r : Reading Number) (x : Value Number) : Prop where
  returns : ∃ y, r.isInstance x = .ok y
  rejects : r.isInstance x = .ok none ↔ ∃ e, r.asInstance x = .error e
  applies : ∀ ds, r.isInstance x = .ok (some ds) ∨ r.asInstance x = .ok ds →
    r.isInstance x = .ok (some ds) ∧ r.asInstance x = .ok ds ∧ r.missing x = some ds ∧
      (∀ d ∈ ds, Missing x d) ∧ applyDefaults ds x = added ds x

theorem assign_eq_add {d : Default Number} (h : d.propertyName ≠ "__proto__") :
    d.assign = d.add := by
  funext properties
  rw [Default.assign, if_neg h, Default.add]

theorem applyDefaults_eq_added {ds : Defaults Number}
    (h : ∀ d ∈ ds, d.propertyName ≠ "__proto__") (x : Value Number) :
    applyDefaults ds x = added ds x := by
  rw [applyDefaults, added]
  induction ds generalizing x with
  | nil => rfl
  | cons d ds ih =>
    obtain ⟨hd, hds⟩ := List.forall_mem_cons.mp h
    rw [List.foldl_cons, List.foldl_cons, assign_eq_add hd, ih hds]

/-- Where the validator meets nothing in the value that misleads it, and no default that is
missing is named `__proto__` -/
theorem holds_of_met {t : Validator Number} {x : Value Number} (hmet : (t.reading host).Met x)
    (hproto : ∀ ds, (t.reading host).missing x = some ds →
      ∀ d ∈ ds, d.propertyName ≠ "__proto__") : (t.reading host).Holds x := by
  have hagrees := t.sound x hmet
  have hfinds : ∀ ds, _ → ∀ d ∈ ds, Missing x d := (t.findsMissing : (t.reading host).FindsMissing) x
  generalize hr : (t.reading host).isInstance x = r at hagrees
  generalize hs : (t.reading host).asInstance x = s at hagrees
  generalize hm : (t.reading host).missing x = m at hagrees hproto hfinds
  cases hagrees with
  | accepted ds =>
    refine ⟨⟨_, hr⟩, ?_, fun ds' h => ?_⟩
    · rw [hr, hs]
      exact iff_of_false (nomatch ·) fun ⟨_, h⟩ => nomatch h
    · have heq : ds' = ds := by
        rw [hr, hs] at h
        obtain h | h := h <;> cases h <;> rfl
      subst heq
      exact ⟨hr, hs, hm, hfinds _ rfl, applyDefaults_eq_added (hproto _ rfl) x⟩
  | rejected e =>
    refine ⟨⟨_, hr⟩, ?_, fun ds' h => ?_⟩
    · exact iff_of_true hr ⟨e, hs⟩
    · rw [hr, hs] at h
      obtain h | h := h <;> cases h

/-- A host whose numbers are integers -/
def integers : Host Int where
  isWhole _ := true
  outOfByte x := x < 0 || 255 < x
  same x y := x = y
  isNaN _ := false
  parseFloat x := (x.toInt?).getD 0
  parse x := x.toInt?.map .number
  isWhole_of_isNaN _ h := nomatch h

/-- A class whose property `a` has a default, at an object without it -/
theorem holds_of_met_default :
    ((Validator.class_ "C" [("a", .int, some (.number 0))]).reading integers).Holds
      (.object []) := by
  have hmet : ((Validator.class_ "C" [("a", .int, some (.number 0))]).reading integers).Met
      (.object []) := by
    simp [Validator.reading, propertyReadings, Reading.class_, Along]
  refine holds_of_met hmet ?_
  rintro ds ⟨⟩ d hd
  rw [List.mem_singleton.mp hd]
  decide

/-- The dictionaries of strings, at an object with a property `hasOwnProperty` -/
theorem not_holds : ¬∀ (Number : Type) (host : Host Number) (t : Validator Number)
    (x : Value Number), (t.reading host).Holds x := by
  intro h
  obtain ⟨y, hy⟩ := (h Int integers (.dict .string .string)
    (.object [("hasOwnProperty", .string "")])).returns
  cases hy

end Urnest.JsonCodec
