import Mathlib
import Urnest.JsonCodec.Readings

/-!
# Where the validators agree

One lemma for each combinator: where what it is built from agrees with what is missing, so does
what is built (`Reading.Sound`). Every validator is then sound, by induction on how it is built.
-/

namespace Urnest.JsonCodec

variable {Number : Type} {host : Host Number}

/-! ## Keys -/

inductive KeyAgrees : Bool → Result Unit → Prop where
  | accepted : KeyAgrees true (.ok ())
  | rejected (e : Thrown) : KeyAgrees false (.error e)

theorem KeyAgrees.inContext {b : Bool} {f : AsKey} {x : String} (h : KeyAgrees b (f x)) :
    KeyAgrees b (inContext f x) := by
  rw [JsonCodec.inContext]
  generalize f x = r at h
  cases h with
  | accepted => exact .accepted
  | rejected => exact .rejected _

theorem keyAgrees_if (b : Bool) : KeyAgrees b (if b then .ok () else .error .error) := by
  cases b with
  | false => exact .rejected _
  | true => exact .accepted

def KeyReading.Sound (r : KeyReading) : Prop := ∀ x, r.Met x → KeyAgrees (r.isKey x) (r.asKey x)

theorem KeyReading.Sound.of_inContext {r : KeyReading} {f : AsKey} (hr : r.asKey = inContext f)
    (h : ∀ x, r.Met x → KeyAgrees (r.isKey x) (f x)) : r.Sound :=
  fun x hmet => hr ▸ (h x hmet).inContext

theorem assertEqual_eq_identical {y literalValue : Value Number}
    (h : isArray literalValue = false ∧ isNonArrayObject literalValue = false) :
    assertEqual host y literalValue = identical host y literalValue := by
  cases literalValue with
  | array | object => simp [isArray, isNonArrayObject] at h
  | _ => cases y <;> rw [assertEqual, identical] <;> simp

theorem identical_of_nested {y literalValue : Value Number}
    (h : isArray literalValue ∨ isNonArrayObject literalValue) :
    identical host y literalValue = false := by
  cases literalValue with
  | array | object => cases y <;> rfl
  | _ => simp [isArray, isNonArrayObject] at h

theorem keyAgrees_parsed {x : String} {literalValue : Value Number} (hparsed : ∀ y,
    host.parse x = some y → assertEqual host y literalValue = identical host y literalValue) :
    KeyAgrees
      (match host.parse x with
        | none => false
        | some y => identical host y literalValue)
      (match host.parse x with
        | none => .error .error
        | some y => if assertEqual host y literalValue then .ok () else .error .error) := by
  cases hy : host.parse x with
  | none => exact .rejected _
  | some y =>
    simp only [hparsed y hy]
    exact keyAgrees_if _

theorem KeyReading.sound_literal (literalValue : Value Number) :
    (KeyReading.literal host literalValue).Sound := by
  refine .of_inContext rfl fun x hmet => ?_
  have hparsed : ∀ y, host.parse x = some y →
      assertEqual host y literalValue = identical host y literalValue := by
    intro y hy
    by_cases hnested : isArray literalValue ∨ isNonArrayObject literalValue
    · rw [hmet hnested y hy, identical_of_nested hnested]
    · rw [not_or, Bool.not_eq_true, Bool.not_eq_true] at hnested
      exact assertEqual_eq_identical hnested
  cases literalValue with
  | string literal =>
    have hagrees := keyAgrees_if (decide (x = literal))
    rwa [← assertEqual.eq_6 host x literal] at hagrees
  | _ => exact keyAgrees_parsed hparsed

theorem KeyReading.sound_union {rs : List KeyReading} (h : ∀ r ∈ rs, r.Sound) :
    (KeyReading.union rs).Sound := by
  refine .of_inContext rfl fun x hmet => ?_
  change MetUntil x rs at hmet
  change KeyAgrees ((rs.map isKey).any _) _
  induction rs with
  | nil => exact .rejected _
  | cons r rs ih =>
    obtain ⟨hr, hrs⟩ := List.forall_mem_cons.mp h
    have hagrees := hr x hmet.1
    rw [List.map_cons, List.map_cons, List.any_cons, List.foldr_cons]
    cases hkey : r.isKey x with
    | true =>
      rw [hkey] at hagrees
      generalize r.asKey x = s at hagrees
      cases hagrees
      exact .accepted
    | false =>
      rw [hkey] at hagrees
      have hrest := ih hrs (hmet.2 hkey)
      generalize r.asKey x = s at hagrees
      cases hagrees
      exact hrest

mutual

theorem Key.sound : (key : Key Number) → (key.reading host).Sound
  | .string => .of_inContext rfl fun _ _ => .accepted
  | .stringPattern pattern => .of_inContext rfl fun x _ => keyAgrees_if (pattern x)
  | .float => by
    refine .of_inContext rfl fun x _ => ?_
    change KeyAgrees (!host.isNaN (host.parseFloat x)) _
    cases host.isNaN (host.parseFloat x) with
    | false => exact .accepted
    | true => exact .rejected _
  | .int => by
    refine .of_inContext rfl fun x _ => ?_
    change KeyAgrees (host.isWhole (host.parseFloat x)) _
    have hnan := host.isWhole_of_isNaN (host.parseFloat x)
    dsimp only
    split_ifs with hisNaN hwhole
    · rw [hnan hisNaN]
      exact .rejected _
    · rw [Bool.not_eq_true'] at hwhole
      rw [hwhole]
      exact .rejected _
    · rw [Bool.not_eq_true', Bool.not_eq_false] at hwhole
      rw [hwhole]
      exact .accepted
  | .bool => by
    refine .of_inContext rfl fun x _ => ?_
    have hagrees := keyAgrees_if (x = "true" || x = "false")
    by_cases h : x = "true" <;> by_cases h' : x = "false" <;> simp_all [Key.reading, isKeyOfBool]
  | .null => by
    refine .of_inContext rfl fun x _ => ?_
    have hagrees := keyAgrees_if (decide (x = "null"))
    by_cases h : x = "null" <;> simp_all [Key.reading, isKeyOfNull]
  | .literal literalValue => KeyReading.sound_literal literalValue
  | .union alternatives => KeyReading.sound_union (keyReadings_sound alternatives)

theorem keyReadings_sound : (keys : List (Key Number)) → ∀ r ∈ keyReadings host keys, r.Sound
  | [] => fun _ h => nomatch h
  | key :: keys => List.forall_mem_cons.mpr ⟨key.sound, keyReadings_sound keys⟩

end

/-! ## Values -/

/-- The two results, where `missing` is what is to come of it -/
inductive Agrees : Result (Option (Defaults Number)) → Result (Defaults Number) →
    Option (Defaults Number) → Prop where
  | accepted (ds : Defaults Number) : Agrees (.ok (some ds)) (.ok ds) (some ds)
  | rejected (e : Thrown) : Agrees (.ok none) (.error e) none

namespace Agrees

variable {α : Type} {r : Result (Option (Defaults Number))} {s : Result (Defaults Number)}
  {m : Option (Defaults Number)}

theorem inContext {f : α → Result (Defaults Number)} {x : α} (h : Agrees r (f x) m) :
    Agrees r (inContext f x) m := by
  rw [JsonCodec.inContext]
  generalize f x = s at h
  cases h with
  | accepted => exact .accepted _
  | rejected => exact .rejected _

theorem within {f : IsInstance Number} {g : AsInstance Number} {x : Value Number}
    (h : Agrees (f x) (g x) m) (step : Step) :
    Agrees (isAt step f x) (asAt step g x) (m.map (under step)) := by
  rw [isAt, asAt]
  generalize f x = r at h
  generalize g x = s at h
  cases h with
  | accepted => exact .accepted _
  | rejected => exact .rejected _

theorem cons {rs : List (Result (Option (Defaults Number)))} {ss : List (Result (Defaults Number))}
    {ms : List (Option (Defaults Number))} (h : Agrees r s m)
    (hrest : m.isSome → Agrees (isEach rs) (asEach ss) (joined ms)) :
    Agrees (isEach (r :: rs)) (asEach (s :: ss)) (joined (m :: ms)) := by
  rw [isEach, asEach, joined]
  cases h with
  | rejected => exact .rejected _
  | accepted ds =>
    have hrest := hrest rfl
    generalize isEach rs = r at hrest
    generalize asEach ss = s at hrest
    generalize joined ms = m at hrest
    cases hrest with
    | accepted => exact .accepted _
    | rejected => exact .rejected _

/-- A loop agrees where each of its turns does, up to the one that ends it. -/
theorem each {met : α → Prop} {missing : α → Option (Defaults Number)}
    {f : α → Result (Option (Defaults Number))} {g : α → Result (Defaults Number)} {xs : List α}
    (h : ∀ x ∈ xs, met x → Agrees (f x) (g x) (missing x)) (hmet : Along met missing xs) :
    Agrees (isEach (xs.map f)) (asEach (xs.map g)) (joined (xs.map missing)) := by
  induction xs with
  | nil => exact .accepted _
  | cons x xs ih =>
    obtain ⟨hx, hxs⟩ := List.forall_mem_cons.mp h
    exact (hx hmet.1).cons fun hsome => ih hxs (hmet.2 hsome)

end Agrees

namespace Reading

def Sound (r : Reading Number) : Prop :=
  ∀ x, r.Met x → Agrees (r.isInstance x) (r.asInstance x) (r.missing x)

theorem Sound.of_inContext {r : Reading Number} {f : AsInstance Number}
    (hr : r.asInstance = inContext f)
    (h : ∀ x, r.Met x → Agrees (r.isInstance x) (f x) (r.missing x)) : r.Sound :=
  fun x hmet => hr ▸ (h x hmet).inContext

theorem sound_of (p : Value Number → Bool) : (Reading.of p).Sound := by
  refine .of_inContext rfl fun x _ => ?_
  change Agrees (isInstanceIf p x) _ (if p x then _ else _)
  rw [isInstanceIf]
  split_ifs
  · exact .accepted _
  · exact .rejected _

theorem sound_list {item : Reading Number} (h : item.Sound) : (list item).Sound := by
  refine .of_inContext rfl fun x hmet => ?_
  cases x with
  | array xs => exact Agrees.each (fun x _ hx => ((h _ hx).within _).inContext) hmet
  | _ => exact .rejected _

theorem sound_union {rs : List (Reading Number)} (h : ∀ r ∈ rs, r.Sound) : (union rs).Sound := by
  refine .of_inContext rfl fun x hmet => ?_
  change MetUntil x rs at hmet
  change Agrees (isInstanceOfUnion (rs.map isInstance) x) _ (rs.findSome? _)
  rw [isInstanceOfUnion]
  induction rs with
  | nil => exact .rejected _
  | cons r rs ih =>
    obtain ⟨hr, hrs⟩ := List.forall_mem_cons.mp h
    have hagrees := hr x hmet.1
    have hrest := fun hnone => ih hrs (hmet.2 hnone)
    rw [List.map_cons, List.map_cons, List.foldr_cons, List.foldr_cons, List.findSome?_cons]
    generalize r.isInstance x = a at hagrees
    generalize r.asInstance x = b at hagrees
    generalize r.missing x = m at hagrees hrest
    cases hagrees with
    | accepted ds => exact .accepted ds
    | rejected e => exact hrest rfl

theorem isInstanceOfTuple_eq {items : List (IsInstance Number)} (h : ∀ item, items ≠ [item]) :
    isInstanceOfTuple items = fun
      | .array xs =>
        if xs.length ≠ items.length then .ok none
        else isEach ((items.zip xs).zipIdx.map fun x => isAt (.item x.2) x.1.1 x.1.2)
      | _ => .ok none := isInstanceOfTuple.eq_2 items h

theorem asInstanceOfTuple_eq {items : List (AsInstance Number)} (h : ∀ item, items ≠ [item]) :
    asInstanceOfTuple items = inContext fun
      | .array xs =>
        if xs.length ≠ items.length then .error .error
        else asEach ((items.zip xs).zipIdx.map fun x => inContext (asAt (.item x.2) x.1.1) x.1.2)
      | _ => .error .error := asInstanceOfTuple.eq_2 items h

theorem sound_tuple {items : List (Reading Number)} (h : ∀ r ∈ items, r.Sound) :
    (tuple items).Sound := by
  rw [tuple.eq_def]
  split
  · rename_i item
    exact sound_list (h _ (List.mem_singleton_self item))
  · rename_i hne
    refine .of_inContext (asInstanceOfTuple_eq (by simpa using hne)) fun x hmet => ?_
    cases x with
    | array xs =>
      change Agrees (isInstanceOfTuple (items.map isInstance) (.array xs)) _ (if _ then _ else _)
      rw [isInstanceOfTuple_eq (by simpa using hne)]
      dsimp only
      rw [List.length_map, List.length_map]
      split_ifs with hlength
      · exact .rejected _
      · rw [List.zip_map_left, List.zip_map_left, List.zipIdx_map, List.zipIdx_map,
          List.map_map, List.map_map]
        refine Agrees.each (fun x hx hx' => ?_) (hmet (not_not.mp hlength))
        have hmem := (List.of_mem_zip (List.fst_mem_of_mem_zipIdx hx)).1
        exact ((h _ hmem _ hx').within _).inContext
    | _ =>
      change Agrees (isInstanceOfTuple (items.map isInstance) _) _ none
      rw [isInstanceOfTuple_eq (by simpa using hne)]
      exact .rejected _

theorem hasOwnProperty_eq {properties : Properties Number} {name : String}
    (h : "hasOwnProperty" ∉ properties.map Prod.fst) :
    hasOwnProperty properties name = .ok (decide (name ∈ properties.map Prod.fst)) := if_neg h

theorem isSome_lookup (properties : Properties Number) (name : String) :
    (properties.lookup name).isSome = decide (name ∈ properties.map Prod.fst) := by
  rw [Bool.eq_iff_iff, decide_eq_true_iff, List.lookup_isSome_iff, List.mem_map]
  exact exists_congr fun x => and_congr_right fun _ => beq_iff_eq.trans eq_comm

theorem sound_dict {key : KeyReading} {value : Reading Number} (hkey : key.Sound)
    (hvalue : value.Sound) : (dict key value).Sound := by
  refine .of_inContext rfl fun x hmet => ?_
  cases x with
  | object properties =>
    obtain ⟨hown, halong⟩ := hmet
    refine Agrees.each (fun x hx hx' => .inContext ?_) halong
    rw [hasOwnProperty_eq hown, decide_eq_true (List.mem_map_of_mem hx), missingProperty]
    have hagrees := hkey x.1 hx'.1
    cases hisKey : key.isKey x.1 with
    | true =>
      rw [hisKey] at hagrees
      generalize key.asKey x.1 = s at hagrees
      cases hagrees
      exact (hvalue _ (hx'.2 hisKey)).within _
    | false =>
      rw [hisKey] at hagrees
      generalize key.asKey x.1 = s at hagrees
      cases hagrees
      exact .rejected _
  | _ => exact .rejected _

theorem sound_class {items : List (Property (Reading Number) Number)}
    (h : ∀ item ∈ items, item.2.1.Sound) : (class_ items).Sound := by
  refine .of_inContext rfl fun x hmet => ?_
  cases x with
  | object properties =>
    obtain ⟨hown, halong⟩ := hmet
    change Agrees (isEach ((items.map _).map _)) (asEach ((items.map _).map _)) _
    rw [List.map_map, List.map_map]
    refine Agrees.each (fun item hitem hmet' => .inContext ?_) halong
    have hmem : hasOwnProperty properties item.1 = _ :=
      hasOwnProperty_eq (hown (List.ne_nil_of_mem hitem))
    rw [missingItem]
    simp only [Function.comp]
    rw [hmem, ← isSome_lookup]
    cases hlookup : properties.lookup item.1 with
    | some x => exact (h item hitem x (hmet' x hlookup)).within _
    | none =>
      cases item.2.2 with
      | some defaultValue => exact .accepted _
      | none => exact .rejected _
  | _ => exact .rejected _

theorem along_of_forall {α : Type} {met : α → Prop} {missing : α → Option (Defaults Number)}
    {xs : List α} (h : ∀ x, met x) : Along met missing xs := by
  induction xs with
  | nil => trivial
  | cons x xs ih => exact ⟨h x, fun _ => ih⟩

theorem joined_of (p : Value Number → Bool) (xs : List (Value Number)) (k : Nat) :
    joined ((xs.zipIdx k).map fun x => missingAt ((Reading.of p, x.1), x.2)) =
      if xs.all p then some applyNoDefaults else none := by
  induction xs generalizing k with
  | nil => rfl
  | cons x xs ih =>
    rw [List.zipIdx_cons, List.map_cons, joined, ih, List.all_cons]
    change ((if p x then _ else _ : Option (Defaults Number)).map _).bind _ = _
    cases p x <;> cases xs.all p <;> rfl

theorem isInstanceOfBytes_array (xs : List (Value Number)) :
    isInstanceOfBytes host (.array xs) = .ok
      (if xs.all (isNumber fun x => host.isWhole x && !host.outOfByte x) then some applyNoDefaults
      else none) := by
  rw [isInstanceOfBytes]
  induction xs with
  | nil => rfl
  | cons x xs ih =>
    rw [List.map_cons, isEach, ih, List.all_cons, isInstanceOfInt, isInstanceIf]
    generalize xs.all (isNumber fun x => host.isWhole x && !host.outOfByte x) = b
    cases x with
    | number n =>
      rcases hwhole : host.isWhole n <;> rcases hout : host.outOfByte n <;> cases b <;>
        simp [isNumber, hwhole, hout, applyNoDefaults, bind, Except.bind, pure, Except.pure]
    | _ => rfl

theorem all_inByte (xs : List (Value Number)) :
    xs.all (isNumber fun x => host.isWhole x && !host.outOfByte x) =
      (xs.all (isNumber host.isWhole) && !xs.any (isNumber host.outOfByte)) := by
  induction xs with
  | nil => rfl
  | cons x xs ih =>
    rw [List.all_cons, List.all_cons, List.any_cons, ih]
    cases x with
    | number n =>
      simp only [isNumber]
      cases host.isWhole n <;> cases host.outOfByte n <;> simp
    | _ => rfl

theorem sound_bytes : (bytes host).Sound := by
  refine .of_inContext rfl fun x _ => ?_
  cases x with
  | array xs =>
    change Agrees (isInstanceOfBytes host (.array xs)) _ (if _ then _ else _)
    have hints := sound_list (sound_of (isNumber host.isWhole)) (.array xs)
      (along_of_forall fun _ => trivial)
    change Agrees _ (asInstanceOfList (asInstanceOfInt host) (.array xs)) (joined _) at hints
    rw [joined_of] at hints
    rw [isInstanceOfBytes_array, all_inByte]
    generalize asInstanceOfList (asInstanceOfInt host) (.array xs) = s at hints ⊢
    generalize (list (Reading.of (isNumber host.isWhole))).isInstance (.array xs) = r at hints
    cases hall : xs.all (isNumber host.isWhole) with
    | false =>
      rw [hall] at hints
      cases hints
      exact .rejected _
    | true =>
      rw [hall] at hints
      cases hints
      change Agrees _ (if _ then _ else _) _
      cases xs.any (isNumber host.outOfByte) with
      | false => exact .accepted _
      | true => exact .rejected _
  | _ => exact .rejected _

end Reading

mutual

theorem Validator.sound : (t : Validator Number) → (t.reading host).Sound
  | .string | .stringPattern _ | .float | .int | .bool | .null | .literal _ | .any | .anyList
  | .anyDict => Reading.sound_of _
  | .list itemType => Reading.sound_list itemType.sound
  | .bytes => Reading.sound_bytes
  | .union alternatives => Reading.sound_union (readings_sound alternatives)
  | .dict key value => Reading.sound_dict key.sound value.sound
  | .tuple items => Reading.sound_tuple (readings_sound items)
  | .class_ _ items => Reading.sound_class (propertyReadings_sound items)

theorem readings_sound : (ts : List (Validator Number)) → ∀ r ∈ readings host ts, r.Sound
  | [] => fun _ h => nomatch h
  | t :: ts => List.forall_mem_cons.mpr ⟨t.sound, readings_sound ts⟩

theorem propertyReadings_sound :
    (items : List (String × Validator Number × Option (Value Number))) →
      ∀ item ∈ propertyReadings host items, item.2.1.Sound
  | [] => fun _ h => nomatch h
  | (_, t, _) :: items => List.forall_mem_cons.mpr ⟨t.sound, propertyReadings_sound items⟩

end

end Urnest.JsonCodec
