import Mathlib
import Urnest.Lib.Terminated
import Urnest.Utf8.Utf8String

/-!
# Comparing JSON

`operator<` of Element.hcp is virtual: elements of different classes are told apart by the names
of these (`typeName`), and each class has a comparison of its own for the rest. An array's loop
asks for `==` where it wants `<`, and an object's finds a member before another one when either
the key or the value is.
-/

namespace Urnest.Json.Ordering

open Utf8

/-- The classes of elements, but for where they come from -/
inductive Kind where
  | null_
  | true_
  | false_
  | string
  | number
  | array
  | object
  deriving DecidableEq

/-- A class; what `parse` makes is of a subclass of its own. -/
structure ElementType where
  kind : Kind
  parsed : Bool
  deriving DecidableEq

/-- `typeid(..).name()`, as it is mangled; the subclasses are in an unnamed namespace. -/
def typeName : ElementType → String
  | ⟨.null_, false⟩ => "N3xju4json4NullE"
  | ⟨.true_, false⟩ => "N3xju4json4TrueE"
  | ⟨.false_, false⟩ => "N3xju4json5FalseE"
  | ⟨.string, false⟩ => "N3xju4json6StringE"
  | ⟨.number, false⟩ => "N3xju4json6NumberE"
  | ⟨.array, false⟩ => "N3xju4json5ArrayE"
  | ⟨.object, false⟩ => "N3xju4json6ObjectE"
  | ⟨.null_, true⟩ => "N3xju4json12_GLOBAL__N_110ParsedNullE"
  | ⟨.true_, true⟩ => "N3xju4json12_GLOBAL__N_110ParsedTrueE"
  | ⟨.false_, true⟩ => "N3xju4json12_GLOBAL__N_111ParsedFalseE"
  | ⟨.string, true⟩ => "N3xju4json12_GLOBAL__N_112ParsedStringE"
  | ⟨.number, true⟩ => "N3xju4json12_GLOBAL__N_112ParsedNumberE"
  | ⟨.array, true⟩ => "N3xju4json12_GLOBAL__N_111ParsedArrayE"
  | ⟨.object, true⟩ => "N3xju4json12_GLOBAL__N_112ParsedObjectE"

/-- What a `std::string` is compared by -/
def codes (x : List Char) : List Nat := x.map Char.toNat

/-- What a `Utf8String` is compared by -/
def codesOf (x : Utf8String) : List Nat := x.value.map UInt8.toNat

def typeKey (t : ElementType) : List Nat := codes (typeName t).toList

/-- An element. What a subclass keeps besides, the place in the text, is not compared. -/
inductive Element where
  | null_ (parsed : Bool)
  | true_ (parsed : Bool)
  | false_ (parsed : Bool)
  | string (parsed : Bool) (value_ : Utf8String)
  | number (parsed : Bool) (value_ : List Char)
  | array (parsed : Bool) (value_ : List Element)
  /-- the members, in the order of the map -/
  | object (parsed : Bool) (value_ : List (Utf8String × Element))

namespace Element

/-! ## The code -/

def type : Element → ElementType
  | null_ parsed => ⟨.null_, parsed⟩
  | true_ parsed => ⟨.true_, parsed⟩
  | false_ parsed => ⟨.false_, parsed⟩
  | string parsed _ => ⟨.string, parsed⟩
  | number parsed _ => ⟨.number, parsed⟩
  | array parsed _ => ⟨.array, parsed⟩
  | object parsed _ => ⟨.object, parsed⟩

mutual

/-- `lessThan` of each class, and `operator<` -/
def lessThan (x y : Element) : Bool :=
  if x.type ≠ y.type then decide (typeKey x.type < typeKey y.type)
  else
    match x, y with
    | string _ a, string _ b => decide (codesOf a < codesOf b)
    | number _ a, number _ b => decide (codes a < codes b)
    | array _ a, array _ b => arrayLess a b
    | object _ a, object _ b => objectLess a b
    -- the others have no value
    | _, _ => false
termination_by (sizeOf x + sizeOf y, 0)

/-- `operator!=` -/
def notEqual (x y : Element) : Bool := lessThan y x || lessThan x y
termination_by (sizeOf x + sizeOf y, 1)
decreasing_by
  · rw [Nat.add_comm (sizeOf y)]
    exact .right _ (Nat.lt_succ_self 0)
  · exact .right _ (Nat.lt_succ_self 0)

/-- `operator==` -/
def equal (x y : Element) : Bool := !notEqual y x
termination_by (sizeOf x + sizeOf y, 2)
decreasing_by
  rw [Nat.add_comm (sizeOf y)]
  exact .right _ (Nat.lt_succ_self 1)

/-- `seq_less` as `Array::lessThan` calls it -/
def arrayLess : List Element → List Element → Bool
  | [], [] => false
  | [], _ :: _ => true
  | _ :: _, [] => false
  | x :: xs, y :: ys =>
    if equal x y then true
    else if equal y x then false
    else arrayLess xs ys
termination_by xs ys => (sizeOf xs + sizeOf ys, 0)

/-- `seq_less` as `Object::lessThan` calls it -/
def objectLess : List (Utf8String × Element) → List (Utf8String × Element) → Bool
  | [], [] => false
  | [], _ :: _ => true
  | _ :: _, [] => false
  | (k, x) :: xs, (l, y) :: ys =>
    if decide (codesOf k < codesOf l) || lessThan x y then true
    else if decide (codesOf l < codesOf k) || lessThan y x then false
    else objectLess xs ys
termination_by xs ys => (sizeOf xs + sizeOf ys, 0)

end

/-- `operator>` -/
def greater (x y : Element) : Bool := lessThan y x

/-- `operator<=` -/
def lessOrEqual (x y : Element) : Bool := !lessThan y x

/-- `operator>=` -/
def greaterOrEqual (x y : Element) : Bool := !greater y x

/-! ## The order that is meant -/

mutual

/-- What an element has besides its class: of arrays and objects, one element after the other,
of members first the key -/
def contents : Element → List Nat
  | null_ _ | true_ _ | false_ _ => []
  | string _ value_ => Lib.terminated (codesOf value_)
  | number _ value_ => Lib.terminated (codes value_)
  | array _ value_ => contentsAll value_
  | object _ value_ => contentsMembers value_

def contentsAll : List Element → List Nat
  | [] => [0]
  | x :: xs => 1 :: (Lib.terminated (typeKey x.type) ++ (x.contents ++ contentsAll xs))

def contentsMembers : List (Utf8String × Element) → List Nat
  | [] => [0]
  | (k, x) :: xs => 1 :: (Lib.terminated (codesOf k) ++
      (Lib.terminated (typeKey x.type) ++ (x.contents ++ contentsMembers xs)))

end

/-- All of an element, in the order in which it is to be compared -/
def key (x : Element) : List Nat := Lib.terminated (typeKey x.type) ++ x.contents

/-- What is asked of the operators -/
structure Ordered (x y z : Element) : Prop where
  irrefl : lessThan x x = false
  trans : lessThan x y = true → lessThan y z = true → lessThan x z = true
  equal_iff : equal x y = true ↔ x = y
  notEqual_iff : notEqual x y = true ↔ x ≠ y
  greater_iff : greater x y = true ↔ lessThan y x = true
  lessOrEqual_iff : lessOrEqual x y = true ↔ lessThan x y = true ∨ x = y
  greaterOrEqual_iff : greaterOrEqual x y = true ↔ lessThan y x = true ∨ x = y

/-- Elements, with all that is inside of them -/
structure Family where
  Mem : Element → Prop
  elements : ∀ parsed xs, Mem (array parsed xs) → ∀ x ∈ xs, Mem x
  members : ∀ parsed xs, Mem (object parsed xs) → ∀ m ∈ xs, Mem m.2

/-- All there are -/
def Family.all : Family := ⟨fun _ => True, fun _ _ _ _ _ => trivial, fun _ _ _ _ _ => trivial⟩

def Family.Ordered (S : Family) : Prop :=
  ∀ x y z, S.Mem x → S.Mem y → S.Mem z → Element.Ordered x y z

/-- The first members that are not the same: the key is above the other one, and the value
below. -/
def Crossed (xs ys : List (Utf8String × Element)) : Prop :=
  ∃ front k x xs' l y ys', xs = front ++ (k, x) :: xs' ∧ ys = front ++ (l, y) :: ys' ∧
    codesOf l < codesOf k ∧ key x < key y

/-! ## Keys -/

def elementTypes : List ElementType :=
  [Kind.null_, .true_, .false_, .string, .number, .array, .object].flatMap fun kind =>
    [⟨kind, false⟩, ⟨kind, true⟩]

theorem typeKey_injective : Function.Injective typeKey := by
  have hmem : ∀ t : ElementType, t ∈ elementTypes := by
    rintro ⟨kind, parsed⟩
    cases kind <;> cases parsed <;> decide
  have hnodup : (elementTypes.map typeKey).Nodup := by decide +kernel
  exact fun t u h => List.inj_on_of_nodup_map hnodup (hmem t) (hmem u) h

theorem codes_injective : Function.Injective codes :=
  List.map_injective_iff.mpr fun _ _ h => Char.ext (UInt32.toNat.inj h)

theorem codesOf_injective : Function.Injective codesOf := by
  intro x y h
  have hvalue : x.value = y.value :=
    List.map_injective_iff.mpr (fun _ _ hbc => UInt8.toNat.inj hbc) h
  have hsize : x.size = y.size := by
    have hx := x.validate_value
    rw [hvalue, y.validate_value] at hx
    exact (Prod.mk.inj (Except.ok.inj hx)).2.symm
  cases x
  cases y
  cases hvalue
  cases hsize
  rfl

mutual

/-- An element can be told from what is behind it. -/
theorem eq_of_contents_append : (x y : Element) → x.type = y.type → (r s : List Nat) →
    x.contents ++ r = y.contents ++ s → x = y ∧ r = s
  | null_ _, y, htype, r, s, h => by
    cases y <;> cases htype
    exact ⟨rfl, h⟩
  | true_ _, y, htype, r, s, h => by
    cases y <;> cases htype
    exact ⟨rfl, h⟩
  | false_ _, y, htype, r, s, h => by
    cases y <;> cases htype
    exact ⟨rfl, h⟩
  | string _ a, y, htype, r, s, h => by
    cases y <;> cases htype
    rw [contents, contents] at h
    obtain ⟨hab, hrs⟩ := Lib.eq_of_terminated_append h
    exact ⟨by rw [codesOf_injective hab], hrs⟩
  | number _ a, y, htype, r, s, h => by
    cases y <;> cases htype
    rw [contents, contents] at h
    obtain ⟨hab, hrs⟩ := Lib.eq_of_terminated_append h
    exact ⟨by rw [codes_injective hab], hrs⟩
  | array _ xs, y, htype, r, s, h => by
    cases y <;> cases htype
    rw [contents, contents] at h
    obtain ⟨hab, hrs⟩ := eq_of_contentsAll_append xs _ r s h
    exact ⟨by rw [hab], hrs⟩
  | object _ xs, y, htype, r, s, h => by
    cases y <;> cases htype
    rw [contents, contents] at h
    obtain ⟨hab, hrs⟩ := eq_of_contentsMembers_append xs _ r s h
    exact ⟨by rw [hab], hrs⟩

theorem eq_of_contentsAll_append : (xs ys : List Element) → (r s : List Nat) →
    contentsAll xs ++ r = contentsAll ys ++ s → xs = ys ∧ r = s
  | [], [], r, s, h => ⟨rfl, (List.cons.inj h).2⟩
  | [], y :: ys, r, s, h => by
    rw [contentsAll, contentsAll] at h
    cases h
  | x :: xs, [], r, s, h => by
    rw [contentsAll, contentsAll] at h
    cases h
  | x :: xs, y :: ys, r, s, h => by
    rw [contentsAll, contentsAll] at h
    simp only [List.cons_append, List.append_assoc, List.cons.injEq, true_and] at h
    obtain ⟨htype, hx⟩ := Lib.eq_of_terminated_append h
    obtain ⟨hxy, hxs⟩ := eq_of_contents_append x y (typeKey_injective htype) _ _ hx
    obtain ⟨hall, hrs⟩ := eq_of_contentsAll_append xs ys r s hxs
    exact ⟨by rw [hxy, hall], hrs⟩

theorem eq_of_contentsMembers_append : (xs ys : List (Utf8String × Element)) →
    (r s : List Nat) → contentsMembers xs ++ r = contentsMembers ys ++ s → xs = ys ∧ r = s
  | [], [], r, s, h => ⟨rfl, (List.cons.inj h).2⟩
  | [], (l, y) :: ys, r, s, h => by
    rw [contentsMembers, contentsMembers] at h
    cases h
  | (k, x) :: xs, [], r, s, h => by
    rw [contentsMembers, contentsMembers] at h
    cases h
  | (k, x) :: xs, (l, y) :: ys, r, s, h => by
    rw [contentsMembers, contentsMembers] at h
    simp only [List.cons_append, List.append_assoc, List.cons.injEq, true_and] at h
    obtain ⟨hkey, hmember⟩ := Lib.eq_of_terminated_append h
    obtain ⟨htype, hx⟩ := Lib.eq_of_terminated_append hmember
    obtain ⟨hxy, hxs⟩ := eq_of_contents_append x y (typeKey_injective htype) _ _ hx
    obtain ⟨hall, hrs⟩ := eq_of_contentsMembers_append xs ys r s hxs
    exact ⟨by rw [codesOf_injective hkey, hxy, hall], hrs⟩

end

theorem eq_of_key_append {x y : Element} {r s : List Nat} (h : x.key ++ r = y.key ++ s) :
    x = y ∧ r = s := by
  rw [key, key, List.append_assoc, List.append_assoc] at h
  obtain ⟨htype, h⟩ := Lib.eq_of_terminated_append h
  exact eq_of_contents_append x y (typeKey_injective htype) r s h

theorem key_injective : Function.Injective key := fun _ _ h =>
  (eq_of_key_append (congrArg (· ++ []) h)).1

theorem key_append_lt_iff (x y : Element) (r s : List Nat) :
    x.key ++ r < y.key ++ s ↔ x.key < y.key ∨ x = y ∧ r < s := by
  have hstarts : ∀ {x y : Element}, x.key <+: y.key → x = y := by
    rintro x y ⟨rest, hrest⟩
    exact (eq_of_key_append (hrest.trans (List.append_nil _).symm)).1
  rw [Lib.append_lt_append_iff r s (fun h => congrArg key (hstarts h))
    fun h => (congrArg key (hstarts h)).symm, key_injective.eq_iff]

/-- Elements of different classes -/
theorem key_lt_of_type_ne {x y : Element} (h : x.type ≠ y.type) :
    x.key < y.key ↔ typeKey x.type < typeKey y.type := by
  rw [key, key, Lib.terminated_append_lt_iff]
  exact or_iff_left fun hboth => h (typeKey_injective hboth.1)

/-- Elements of one class -/
theorem key_lt_of_type_eq {x y : Element} (h : x.type = y.type) :
    x.key < y.key ↔ x.contents < y.contents := by
  rw [key, key, Lib.terminated_append_lt_iff, h]
  simp

theorem terminated_lt_iff (u v : List Nat) : Lib.terminated u < Lib.terminated v ↔ u < v := by
  have h := Lib.terminated_append_lt_iff u v [] []
  simpa using h

theorem contentsMembers_lt_iff {k l : Utf8String} {x y : Element}
    {xs ys : List (Utf8String × Element)} :
    contentsMembers ((k, x) :: xs) < contentsMembers ((l, y) :: ys) ↔
      codesOf k < codesOf l ∨ k = l ∧
        (x.key < y.key ∨ x = y ∧ contentsMembers xs < contentsMembers ys) := by
  have hkey (z : Element) (zs : List (Utf8String × Element)) :
      Lib.terminated (typeKey z.type) ++ (z.contents ++ contentsMembers zs) =
        z.key ++ contentsMembers zs := by
    rw [key, List.append_assoc]
  rw [contentsMembers, contentsMembers, hkey, hkey, List.cons_lt_cons_iff,
    Lib.terminated_append_lt_iff, key_append_lt_iff, codesOf_injective.eq_iff]
  simp

/-! ## Objects -/

theorem crossed_cons_iff {k l : Utf8String} {x y : Element}
    {xs ys : List (Utf8String × Element)} : Crossed ((k, x) :: xs) ((l, y) :: ys) ↔
      codesOf l < codesOf k ∧ x.key < y.key ∨ k = l ∧ x = y ∧ Crossed xs ys := by
  constructor
  · rintro ⟨front, k', x', xs', l', y', ys', hxs, hys, hkey, hvalue⟩
    cases front with
    | nil =>
      cases hxs
      cases hys
      exact .inl ⟨hkey, hvalue⟩
    | cons m front =>
      cases hxs
      cases hys
      exact .inr ⟨rfl, rfl, front, k', x', xs', l', y', ys', rfl, rfl, hkey, hvalue⟩
  · rintro (⟨hkey, hvalue⟩ | ⟨rfl, rfl, front, k', x', xs', l', y', ys', rfl, rfl, h⟩)
    · exact ⟨[], k, x, xs, l, y, ys, rfl, rfl, hkey, hvalue⟩
    · exact ⟨(k, x) :: front, k', x', xs', l', y', ys', rfl, rfl, h⟩

theorem Crossed.ne_nil {xs ys : List (Utf8String × Element)} (h : Crossed xs ys) :
    xs ≠ [] ∧ ys ≠ [] := by
  obtain ⟨front, k, x, xs', l, y, ys', rfl, rfl, -⟩ := h
  exact ⟨by simp, by simp⟩

/-- The one whose key is above is meant to come second. -/
theorem Crossed.contentsMembers_lt {xs ys : List (Utf8String × Element)} (h : Crossed xs ys) :
    contentsMembers ys < contentsMembers xs := by
  obtain ⟨front, k, x, xs', l, y, ys', rfl, rfl, hkey, -⟩ := h
  induction front with
  | nil => exact contentsMembers_lt_iff.mpr (.inl hkey)
  | cons m front ih => exact contentsMembers_lt_iff.mpr (.inr ⟨rfl, .inr ⟨rfl, ih⟩⟩)

/-- The values of members are compared as they are meant to be, either way. -/
def Compares (xs ys : List (Utf8String × Element)) : Prop :=
  ∀ m ∈ xs, ∀ n ∈ ys, (lessThan m.2 n.2 = true ↔ m.2.key < n.2.key) ∧
    (lessThan n.2 m.2 = true ↔ n.2.key < m.2.key)

theorem objectLess_iff {xs ys : List (Utf8String × Element)} (h : Compares xs ys) :
    objectLess xs ys = true ↔ contentsMembers xs < contentsMembers ys ∨ Crossed xs ys := by
  induction xs generalizing ys with
  | nil =>
    have hnot (ys : List (Utf8String × Element)) : ¬ Crossed [] ys := fun hcrossed =>
      hcrossed.ne_nil.1 rfl
    cases ys with
    | nil => simp [objectLess, hnot]
    | cons n ys => simp [objectLess, contentsMembers, List.cons_lt_cons_iff]
  | cons m xs ih =>
    cases ys with
    | nil =>
      have hnot : ¬ Crossed (m :: xs) [] := fun hcrossed => hcrossed.ne_nil.2 rfl
      simp [objectLess, contentsMembers, List.cons_lt_cons_iff, hnot, -not_lt]
    | cons n ys =>
      obtain ⟨k, x⟩ := m
      obtain ⟨l, y⟩ := n
      obtain ⟨hxy, hyx⟩ := h (k, x) List.mem_cons_self (l, y) List.mem_cons_self
      have ih := ih fun m hm n hn => h m (.tail _ hm) n (.tail _ hn)
      rw [objectLess, contentsMembers_lt_iff, crossed_cons_iff]
      simp only [Bool.or_eq_true, decide_eq_true_eq, hxy, hyx]
      rcases lt_trichotomy (codesOf k) (codesOf l) with hkl | hkl | hkl
      · simp [hkl]
      · obtain rfl := codesOf_injective hkl
        rcases lt_trichotomy x.key y.key with hlt | heq | hlt
        · simp [hlt]
        · obtain rfl := key_injective heq
          simp [ih]
        · have hne : x ≠ y := fun heq => lt_irrefl _ (heq ▸ hlt)
          simp [hlt, hlt.not_gt, hne]
      · have hne : k ≠ l := fun heq => lt_irrefl _ (heq ▸ hkl)
        by_cases hlt : x.key < y.key <;> simp [hkl, hkl.not_gt, hne, hlt]

theorem lessThan_number (p : Bool) (a b : List Char) :
    lessThan (number p a) (number p b) = decide (codes a < codes b) := by
  rw [lessThan.eq_def, if_neg (by simp [type])]

theorem lessThan_array (p : Bool) (xs ys : List Element) :
    lessThan (array p xs) (array p ys) = arrayLess xs ys := by
  rw [lessThan.eq_def, if_neg (by simp [type])]

theorem lessThan_object (p : Bool) (xs ys : List (Utf8String × Element)) :
    lessThan (object p xs) (object p ys) = objectLess xs ys := by
  rw [lessThan.eq_def, if_neg (by simp [type])]

/-! ## Families -/

theorem Compares.of_lt {n : Nat} {S : Family} {p : Bool} {xs ys : List (Utf8String × Element)}
    (hx : S.Mem (object p xs)) (hy : S.Mem (object p ys))
    (hn : sizeOf xs + sizeOf ys < n)
    (h : ∀ m < n, ∀ x y, S.Mem x → S.Mem y → sizeOf x + sizeOf y = m →
      (lessThan x y = true ↔ x.key < y.key)) : Compares xs ys := by
  rintro ⟨k, x⟩ hm ⟨l, y⟩ hn'
  have hmem := S.members p xs hx (k, x) hm
  have hmem' := S.members p ys hy (l, y) hn'
  have hsize : sizeOf x + sizeOf y < n := by
    have hle := List.sizeOf_lt_of_mem hm
    have hle' := List.sizeOf_lt_of_mem hn'
    simp only [Prod.mk.sizeOf_spec] at hle hle'
    omega
  exact ⟨h _ hsize x y hmem hmem' rfl, h _ (by omega) y x hmem' hmem rfl⟩

/-- Where arrays are empty and no members crossed, `operator<` is what is meant. -/
theorem lessThan_iff (S : Family) (hempty : ∀ p xs, S.Mem (array p xs) → xs = [])
    (hcrossed : ∀ p xs ys, S.Mem (object p xs) → S.Mem (object p ys) → Compares xs ys →
      ¬ Crossed xs ys) (x y : Element) (hx : S.Mem x) (hy : S.Mem y) :
    lessThan x y = true ↔ x.key < y.key := by
  induction hsize : sizeOf x + sizeOf y using Nat.strong_induction_on generalizing x y with
  | _ n ih =>
    by_cases htype : x.type = y.type
    · rw [lessThan.eq_def, if_neg (not_not_intro htype), key_lt_of_type_eq htype]
      cases x with
      | null_ p => cases y <;> cases htype; simp [contents]
      | true_ p => cases y <;> cases htype; simp [contents]
      | false_ p => cases y <;> cases htype; simp [contents]
      | string p a => cases y <;> cases htype; simp [contents, terminated_lt_iff]
      | number p a => cases y <;> cases htype; simp [contents, terminated_lt_iff]
      | array p xs =>
        cases y <;> cases htype
        cases hempty _ _ hx
        cases hempty _ _ hy
        simp [arrayLess, contents]
      | object p xs =>
        cases y <;> cases htype
        rename_i ys
        simp only [object.sizeOf_spec] at hsize
        have hcompares : Compares xs ys := .of_lt hx hy (by omega) fun m hm x y hx hy =>
          ih m hm x y hx hy
        rw [contents, contents]
        exact (objectLess_iff hcompares).trans
          (or_iff_left (hcrossed p xs ys hx hy hcompares))
    · rw [lessThan.eq_def, if_pos htype, key_lt_of_type_ne htype, decide_eq_true_eq]

/-- An element of an array is the same as itself. -/
theorem Family.Ordered.empty {S : Family} (h : S.Ordered) (p : Bool) (xs : List Element)
    (hxs : S.Mem (array p xs)) : xs = [] := by
  cases xs with
  | nil => rfl
  | cons x xs =>
    have hx := S.elements p _ hxs x List.mem_cons_self
    have hequal : equal x x = true := (h x x x hx hx hx).equal_iff.mpr rfl
    have hless : lessThan (array p (x :: xs)) (array p (x :: xs)) = true := by
      rw [lessThan_array, arrayLess, if_pos hequal]
    rw [(h _ _ _ hxs hxs hxs).irrefl] at hless
    cases hless

/-- Of crossed members either object would be below the other one. -/
theorem Family.Ordered.not_crossed {S : Family} (h : S.Ordered) (p : Bool)
    (xs ys : List (Utf8String × Element)) (hxs : S.Mem (object p xs)) (hys : S.Mem (object p ys))
    (hcompares : Compares xs ys) : ¬ Crossed xs ys := by
  intro hcrossed
  have hback : Compares ys xs := fun m hm n hn => (hcompares n hn m hm).symm
  have hxy := (objectLess_iff hcompares).mpr (.inr hcrossed)
  have hyx := (objectLess_iff hback).mpr (.inl hcrossed.contentsMembers_lt)
  rw [← lessThan_object p] at hxy hyx
  have hxx := (h _ _ _ hxs hys hxs).trans hxy hyx
  rw [(h _ _ _ hxs hxs hxs).irrefl] at hxx
  cases hxx

theorem ordered_of_lessThan_iff {x y z : Element}
    (hxx : lessThan x x = true ↔ x.key < x.key) (hxy : lessThan x y = true ↔ x.key < y.key)
    (hyx : lessThan y x = true ↔ y.key < x.key) (hyz : lessThan y z = true ↔ y.key < z.key)
    (hxz : lessThan x z = true ↔ x.key < z.key) : Ordered x y z := by
  have hequal : equal x y = true ↔ x = y := by
    rw [equal, notEqual, Bool.not_eq_true', Bool.or_eq_false_iff, ← Bool.not_eq_true,
      ← Bool.not_eq_true, hxy, hyx, not_lt, not_lt, ← key_injective.eq_iff]
    exact and_comm.trans le_antisymm_iff.symm
  have hle : (!lessThan y x) = true ↔ lessThan x y = true ∨ x = y := by
    rw [Bool.not_eq_true', ← Bool.not_eq_true, hyx, hxy, not_lt, le_iff_lt_or_eq,
      key_injective.eq_iff]
  have hge : (!lessThan x y) = true ↔ lessThan y x = true ∨ x = y := by
    rw [Bool.not_eq_true', ← Bool.not_eq_true, hyx, hxy, not_lt, le_iff_lt_or_eq,
      key_injective.eq_iff, eq_comm]
  refine ⟨?_, fun h h' => ?_, hequal, ?_, Iff.rfl, hle, hge⟩
  · rw [← Bool.not_eq_true, hxx]
    exact lt_irrefl _
  · exact hxz.mpr ((hxy.mp h).trans (hyz.mp h'))
  · rw [← not_iff_not, not_not, ← hequal, equal, notEqual, notEqual, Bool.or_comm,
      Bool.not_eq_true, Bool.not_eq_true']

/-- The elements of a family are ordered when it has no arrays but empty ones, and no two objects
with crossed members. -/
theorem ordered_iff (S : Family) : S.Ordered ↔
    (∀ p xs, S.Mem (array p xs) → xs = []) ∧
      ∀ p xs ys, S.Mem (object p xs) → S.Mem (object p ys) → ¬ Crossed xs ys := by
  constructor
  · intro h
    have hless := lessThan_iff S h.empty h.not_crossed
    refine ⟨h.empty, fun p xs ys hxs hys => h.not_crossed p xs ys hxs hys ?_⟩
    intro m hm n hn
    have hmem := S.members p xs hxs m hm
    have hmem' := S.members p ys hys n hn
    exact ⟨hless _ _ hmem hmem', hless _ _ hmem' hmem⟩
  · rintro ⟨hempty, hcrossed⟩ x y z hx hy hz
    have hless := lessThan_iff S hempty fun p xs ys hxs hys _ => hcrossed p xs ys hxs hys
    exact ordered_of_lessThan_iff (hless x x hx hx) (hless x y hx hy) (hless y x hy hx)
      (hless y z hy hz) (hless x z hx hz)

/-- `[1]` -/
def one : Element := array false [number false ['1']]

def keyA : Utf8String := .ofCharacters (.single (show encodeCodePoint 0x61 = .ok [0x61] from rfl))

def keyB : Utf8String := .ofCharacters (.single (show encodeCodePoint 0x62 = .ok [0x62] from rfl))

/-- `{"a":2}` -/
def twoAtA : Element := object false [(keyA, number false ['2'])]

/-- `{"b":1}` -/
def oneAtB : Element := object false [(keyB, number false ['1'])]

/-- An array of a number is below itself, and each of two objects is below the other. -/
theorem not_ordered :
    ¬ Ordered one one one ∧ ¬ Ordered twoAtA oneAtB twoAtA ∧ ¬ Family.all.Ordered := by
  have hone : lessThan one one = true := by
    simp [one, lessThan_array, arrayLess, equal, notEqual, lessThan_number]
  have hboth : lessThan twoAtA oneAtB = true ∧ lessThan oneAtB twoAtA = true ∧
      lessThan twoAtA twoAtA = false := by
    simp only [twoAtA, oneAtB, lessThan_object, objectLess, lessThan_number]
    decide
  have hnot : ¬ Ordered one one one := fun h => Bool.eq_false_iff.mp h.irrefl hone
  refine ⟨hnot, fun h => ?_, fun h => hnot (h one one one trivial trivial trivial)⟩
  exact Bool.eq_false_iff.mp hboth.2.2 (h.trans hboth.1 hboth.2.1)

end Element

end Urnest.Json.Ordering
