import Mathlib
import Urnest.TypeCode.RoundTrip

/-!
# Comparing type codes

operator== dispatches on the class of its left operand, where a reference passes the question on to
what it refers to; the classes then look for one of their own on the right, where a reference is
none. operator< has what both operands refer to before it looks at anything. So the order is one of
what is referred to, whatever the type codes (`less_of_hasKey`), but no reference is equal to itself
(`not_equal_reference`): equality goes with the order just where there are no references
(`consistent_iff`).
-/

namespace Urnest.TypeCode

/-- A type code, with what the references in it refer to. -/
structure Placed where
  target : Nat → Option Code
  code : Code

namespace Placed

def IsReference (a : Placed) : Prop := ∃ j, a.code = .reference j

/-- What a reference refers to. -/
def Refers (a b : Placed) : Prop := ∃ j c, a.code = .reference j ∧ a.target j = some c ∧
  b = ⟨a.target, c⟩

/-- `derefed`, with at most so many references on the way. -/
def derefed : Nat → Placed → Option Placed
  | 0, _ => none
  | n + 1, ⟨target, .reference j⟩ => (target j).bind fun c => derefed n ⟨target, c⟩
  | _ + 1, a => some a

end Placed

/-- The class that `typeid` has of a type code. -/
def Code.kind : Code → Kind
  | .leaf l => l.key.kind
  | .repeated r _ _ => .repeated r
  | .aggregate a _ _ _ => .aggregate a
  | .union _ _ _ _ _ => .union
  | .reference _ => .reference

def lessString (s t : CString) : Bool := compare s.octets t.octets == .lt

/-- `lessThan` of a class without type codes in it. -/
def Leaf.lessThan : Leaf → Leaf → Bool
  | .string m, .string n => m < n
  | .enum s _ _, .enum t _ _ => lessString s t
  | .ior s _, .ior t _ => lessString s t
  | _, _ => false

section
variable (classes : Kind → Kind → Ordering)

/-- operator<: the order of classes, and within a class its `lessThan`. -/
def less : Nat → Placed → Placed → Option Bool
  | 0, _, _ => none
  | n + 1, a, b => do
    let a ← a.derefed (n + 1)
    let b ← b.derefed (n + 1)
    match classes a.code.kind b.code.kind with
    | .lt => some true
    | .gt => some false
    | .eq =>
      match a.code, b.code with
      | .leaf l, .leaf l' => some (l.lessThan l')
      | .repeated _ item bound, .repeated _ item' bound' => do
        if ← less n ⟨a.target, item⟩ ⟨b.target, item'⟩ then some true
        else if ← less n ⟨b.target, item'⟩ ⟨a.target, item⟩ then some false
        else some (bound < bound')
      | .aggregate _ repoId _ _, .aggregate _ repoId' _ _ => some (lessString repoId repoId')
      | .union repoId _ _ _ _, .union repoId' _ _ _ _ => some (lessString repoId repoId')
      -- `xju::assert_equal(typeid(*this), typeid(b))`
      | _, _ => none

end

/-- From some number of calls on that is what is returned. -/
def Returns (f : Nat → Option Bool) (r : Bool) : Prop := ∃ N, ∀ n ≥ N, f n = some r

def Equal (a b : Placed) : Prop :=
  Returns (fun n => equals n a.target b.target a.code b.code) true

def Less (classes : Kind → Kind → Ordering) (a b : Placed) : Prop :=
  Returns (fun n => less classes n a b) true

/-! ## What is reachable -/

def Members.types : Members → List Code
  | .nil => []
  | .cons _ _ type rest => type :: rest.types

/-- The type codes in type codes, and those that they refer to. -/
inductive Reachable (roots : Set Placed) : Placed → Prop
  | root {a} (ha : a ∈ roots) : Reachable roots a
  | item {target r item bound} (h : Reachable roots ⟨target, .repeated r item bound⟩) :
    Reachable roots ⟨target, item⟩
  | member {target a repoId name members type}
    (h : Reachable roots ⟨target, .aggregate a repoId name members⟩)
    (htype : type ∈ members.types) : Reachable roots ⟨target, type⟩
  | descriminant {target repoId name descriminant cases d}
    (h : Reachable roots ⟨target, .union repoId name descriminant cases d⟩) :
    Reachable roots ⟨target, descriminant⟩
  | case {target repoId name descriminant cases d type}
    (h : Reachable roots ⟨target, .union repoId name descriminant cases d⟩)
    (htype : type ∈ cases.types) : Reachable roots ⟨target, type⟩
  | referred {a b} (h : Reachable roots a) (hab : a.Refers b) : Reachable roots b

/-! ## What comparisons are to be -/

/-- Comparisons of type codes return; equality is an equivalence that has references equal to what
they refer to, the order is a strict weak order, and what is equal is what neither is less. -/
structure Consistent (classes : Kind → Kind → Ordering) (S : Set Placed) : Prop where
  equals_returns : ∀ a ∈ S, ∀ b ∈ S,
    ∃ r, Returns (fun n => equals n a.target b.target a.code b.code) r
  less_returns : ∀ a ∈ S, ∀ b ∈ S, ∃ r, Returns (fun n => less classes n a b) r
  equal_refl : ∀ a ∈ S, Equal a a
  equal_symm : ∀ a ∈ S, ∀ b ∈ S, Equal a b → Equal b a
  equal_trans : ∀ a ∈ S, ∀ b ∈ S, ∀ c ∈ S, Equal a b → Equal b c → Equal a c
  reference : ∀ a ∈ S, ∀ b ∈ S, a.Refers b → Equal a b ∧ Equal b a
  less_irrefl : ∀ a ∈ S, ¬Less classes a a
  less_trans : ∀ a ∈ S, ∀ b ∈ S, ∀ c ∈ S, Less classes a b → Less classes b c → Less classes a c
  incomparable_trans : ∀ a ∈ S, ∀ b ∈ S, ∀ c ∈ S, ¬Less classes a b → ¬Less classes b a →
    ¬Less classes b c → ¬Less classes c b → ¬Less classes a c ∧ ¬Less classes c a
  equal_iff : ∀ a ∈ S, ∀ b ∈ S, Equal a b ↔ ¬Less classes a b ∧ ¬Less classes b a

/-! ## Keys are ordered -/

section
variable {classes : Kind → Kind → Ordering} [Std.TransCmp classes] [Std.LawfulEqCmp classes]

omit [Std.TransCmp classes] in
theorem classes_eq_iff (k k' : Kind) : classes k k' = .eq ↔ k = k' :=
  ⟨Std.LawfulEqCmp.eq_of_compare, fun h => h ▸ Std.ReflCmp.compare_self⟩

omit [Std.LawfulEqCmp classes] in
theorem Key.compare_swap : ∀ a b : Key, a.compare classes b = (b.compare classes a).swap
  | .repeated r i m, b => by
    have hswap : classes (.repeated r) b.kind = (classes b.kind (.repeated r)).swap :=
      Std.OrientedCmp.eq_swap
    cases b with
    | repeated r' i' m' =>
      simp only [Key.compare, Key.kind] at hswap ⊢
      rw [hswap, Key.compare_swap i i', Std.OrientedOrd.eq_swap (a := m), Ordering.swap_then,
        Ordering.swap_then]
    | _ =>
      simp only [Key.compare, Key.kind] at hswap ⊢
      rw [hswap, Ordering.swap_then]
      rfl
  | .void, b | .any, b | .basic _, b | .string _, b | .aggregate _ _, b | .union _, b | .enum _, b
  | .ior _, b => by
    cases b <;> simp only [Key.compare, Key.kind, Ordering.swap_then] <;>
      rw [← @Std.OrientedCmp.eq_swap _ classes _] <;> congr 1 <;>
      first | rfl | exact Std.OrientedOrd.eq_swap

/-- What is compared of keys of one class. -/
def Key.within (classes : Kind → Kind → Ordering) : Key → Key → Ordering
  | .repeated _ i m, .repeated _ j n => (i.compare classes j).then (Ord.compare m n)
  | .string m, .string n => Ord.compare m n
  | .aggregate _ s, .aggregate _ t | .union s, .union t | .enum s, .enum t | .ior s, .ior t =>
    Ord.compare s.octets t.octets
  | _, _ => .eq

omit [Std.TransCmp classes] [Std.LawfulEqCmp classes] in
theorem Key.compare_eq_then (a b : Key) :
    a.compare classes b = (classes a.kind b.kind).then (a.within classes b) := by
  cases a with
  | repeated r i m => cases b <;> rfl
  | _ => cases b <;> rfl

omit [Std.TransCmp classes] in
theorem Key.compare_lt_iff (a b : Key) : a.compare classes b = .lt ↔
    classes a.kind b.kind = .lt ∨ a.kind = b.kind ∧ a.within classes b = .lt := by
  rw [Key.compare_eq_then, Ordering.then_eq_lt, classes_eq_iff]

omit [Std.TransCmp classes] [Std.LawfulEqCmp classes] in
theorem compare_lt_trans {α : Type} [Ord α] [Std.TransOrd α] {a b c : α}
    (hab : compare a b = .lt) (hbc : compare b c = .lt) : compare a c = .lt :=
  Std.TransCmp.lt_trans hab hbc

theorem Key.within_trans : ∀ {a b c : Key}, a.kind = b.kind → b.kind = c.kind →
    a.within classes b = .lt → b.within classes c = .lt → a.within classes c = .lt
  | .repeated r i m, b, c, hkind, hkind', hab, hbc => by
    cases b with
    | repeated r' j n =>
      cases c with
      | repeated r'' k l =>
        have htrans : i.compare classes j = .lt → j.compare classes k = .lt →
            i.compare classes k = .lt := by
          intro hij hjk
          rw [Key.compare_lt_iff] at hij hjk ⊢
          rcases hij with hij | ⟨hij, hij'⟩
          · rcases hjk with hjk | ⟨hjk, -⟩
            · exact .inl (Std.TransCmp.lt_trans hij hjk)
            · exact .inl (hjk ▸ hij)
          · rcases hjk with hjk | ⟨hjk, hjk'⟩
            · exact .inl (hij ▸ hjk)
            · exact .inr ⟨hij.trans hjk, Key.within_trans hij hjk hij' hjk'⟩
        simp only [Key.within, Ordering.then_eq_lt, Key.compare_eq_iff classes_eq_iff] at hab hbc ⊢
        rcases hab with hab | ⟨rfl, hab⟩
        · rcases hbc with hbc | ⟨rfl, -⟩
          · exact .inl (htrans hab hbc)
          · exact .inl hab
        · rcases hbc with hbc | ⟨rfl, hbc⟩
          · exact .inl hbc
          · exact .inr ⟨rfl, compare_lt_trans hab hbc⟩
      | _ => cases hkind'
    | _ => cases hkind
  | .void, b, c, hkind, hkind', hab, hbc | .any, b, c, hkind, hkind', hab, hbc
  | .basic _, b, c, hkind, hkind', hab, hbc => by
    cases b <;> cases hkind <;> cases hab
  | .string _, b, c, hkind, hkind', hab, hbc | .aggregate _ _, b, c, hkind, hkind', hab, hbc
  | .union _, b, c, hkind, hkind', hab, hbc | .enum _, b, c, hkind, hkind', hab, hbc
  | .ior _, b, c, hkind, hkind', hab, hbc => by
    cases b <;> cases hkind <;> cases c <;> cases hkind' <;>
      exact compare_lt_trans hab hbc

theorem Key.compare_trans {a b c : Key} (hab : a.compare classes b = .lt)
    (hbc : b.compare classes c = .lt) : a.compare classes c = .lt := by
  rw [Key.compare_lt_iff] at hab hbc ⊢
  rcases hab with hab | ⟨hab, hab'⟩
  · rcases hbc with hbc | ⟨hbc, -⟩
    · exact .inl (Std.TransCmp.lt_trans hab hbc)
    · exact .inl (hbc ▸ hab)
  · rcases hbc with hbc | ⟨hbc, hbc'⟩
    · exact .inl (hab ▸ hbc)
    · exact .inr ⟨hab.trans hbc, Key.within_trans hab hbc hab' hbc'⟩

end

/-! ## The order is that of keys -/

/-- The key of what a type code, or what it refers to, is. -/
inductive HasKey : Placed → Key → Prop
  | leaf {target l} : HasKey ⟨target, .leaf l⟩ l.key
  | repeated {target r item bound k} (h : HasKey ⟨target, item⟩ k) :
    HasKey ⟨target, .repeated r item bound⟩ (.repeated r k bound)
  | aggregate {target a repoId name members} :
    HasKey ⟨target, .aggregate a repoId name members⟩ (.aggregate a repoId)
  | union {target repoId name descriminant cases d} :
    HasKey ⟨target, .union repoId name descriminant cases d⟩ (.union repoId)
  | reference {target j c k} (hj : target j = some c) (h : HasKey ⟨target, c⟩ k) :
    HasKey ⟨target, .reference j⟩ k

/-- There is something that is referred to in the end, and it has the key. -/
theorem HasKey.derefed {a : Placed} {k : Key} (h : HasKey a k) :
    ∃ N b, (∀ n ≥ N, a.derefed n = some b) ∧ HasKey b k ∧ b.code.kind = k.kind := by
  have hself : ∀ {a : Placed} {k : Key}, HasKey a k → a.code.kind = k.kind →
      (∀ j, a.code ≠ .reference j) →
      ∃ N b, (∀ n ≥ N, a.derefed n = some b) ∧ HasKey b k ∧ b.code.kind = k.kind := by
    intro a k ha hkind hne
    refine ⟨1, a, fun n hn => ?_, ha, hkind⟩
    obtain ⟨n, rfl⟩ := Nat.exists_eq_succ_of_ne_zero (Nat.ne_zero_of_lt hn)
    obtain ⟨target, code⟩ := a
    cases code with
    | reference j => exact absurd rfl (hne j)
    | _ => rfl
  induction h with
  | leaf => exact hself .leaf rfl (by simp)
  | repeated h ih => exact hself (.repeated h) rfl (by simp)
  | aggregate => exact hself .aggregate rfl (by simp)
  | union => exact hself .union rfl (by simp)
  | reference hj h ih =>
    obtain ⟨N, b, hderefed, hb⟩ := ih
    refine ⟨N + 1, b, fun n hn => ?_, hb⟩
    obtain ⟨n, rfl⟩ := Nat.exists_eq_succ_of_ne_zero (Nat.ne_zero_of_lt hn)
    rw [Placed.derefed, hj]
    exact hderefed n (by omega)

section
variable {classes : Kind → Kind → Ordering} [Std.TransCmp classes] [Std.LawfulEqCmp classes]

/-- operator<, of what is referred to. -/
def lessThan (classes : Kind → Kind → Ordering) (n : Nat) (a b : Placed) : Option Bool :=
  match classes a.code.kind b.code.kind with
  | .lt => some true
  | .gt => some false
  | .eq =>
    match a.code, b.code with
    | .leaf l, .leaf l' => some (l.lessThan l')
    | .repeated _ item bound, .repeated _ item' bound' => do
      if ← less classes n ⟨a.target, item⟩ ⟨b.target, item'⟩ then some true
      else if ← less classes n ⟨b.target, item'⟩ ⟨a.target, item⟩ then some false
      else some (bound < bound')
    | .aggregate _ repoId _ _, .aggregate _ repoId' _ _ => some (lessString repoId repoId')
    | .union repoId _ _ _ _, .union repoId' _ _ _ _ => some (lessString repoId repoId')
    | _, _ => none

omit [Std.TransCmp classes] [Std.LawfulEqCmp classes] in
theorem less_succ {n : Nat} {a b a' b' : Placed} (ha : a.derefed (n + 1) = some a')
    (hb : b.derefed (n + 1) = some b') :
    less classes (n + 1) a b = lessThan classes n a' b' := by
  rw [less, ha, hb]
  rfl

omit [Std.TransCmp classes] in
theorem Key.compare_of_kind_eq {k l : Key} (h : k.kind = l.kind) :
    k.compare classes l = k.within classes l := by
  have heq : classes k.kind l.kind = .eq := (classes_eq_iff _ _).mpr h
  rw [Key.compare_eq_then, heq]
  rfl

theorem Key.kind_ne_reference (k : Key) : k.kind ≠ .reference := by cases k <;> simp [Key.kind]

theorem Leaf.kind_ne (l : Leaf) : (∀ r, l.key.kind ≠ .repeated r) ∧
    (∀ a, l.key.kind ≠ .aggregate a) ∧ l.key.kind ≠ .union := by
  cases l <;> simp [Leaf.key, Key.kind]

theorem lessThan_eq_compare (m n : UInt32) : decide (m < n) = (compare m n == .lt) := by
  by_cases h : m < n
  · simp [compare, compareOfLessAndEq, h]
  · by_cases heq : m = n
    · simp [compare, compareOfLessAndEq, heq]
    · simp [compare, compareOfLessAndEq, h, heq]

omit [Std.TransCmp classes] in
theorem Leaf.lessThan_eq {l l' : Leaf} (h : l.key.kind = l'.key.kind) :
    l.lessThan l' = (l.key.compare classes l'.key == .lt) := by
  rw [Key.compare_of_kind_eq h]
  cases l <;> cases l' <;> cases h <;> first | rfl | exact lessThan_eq_compare _ _

/-- Within a class, where items are compared as their keys are. -/
theorem lessThan_of_hasKey {k l : Key} {a b : Placed} (ha : HasKey a k) (hb : HasKey b l)
    (hakind : a.code.kind = k.kind) (hbkind : b.code.kind = l.kind)
    (hitem : ∀ r i m, k = .repeated r i m → ∀ {a b : Placed} {j : Key}, HasKey a i → HasKey b j →
      ∃ N, ∀ n ≥ N, less classes n a b = some (i.compare classes j == .lt) ∧
        less classes n b a = some (j.compare classes i == .lt)) :
    ∃ N, ∀ n ≥ N, lessThan classes n a b = some (k.compare classes l == .lt) ∧
      lessThan classes n b a = some (l.compare classes k == .lt) := by
  have hswap : classes l.kind k.kind = (classes k.kind l.kind).swap := Std.OrientedCmp.eq_swap
  by_cases hkind : k.kind = l.kind
  · have heq : classes k.kind l.kind = .eq := (classes_eq_iff _ _).mpr hkind
    have heq' : classes l.kind k.kind = .eq := (classes_eq_iff _ _).mpr hkind.symm
    simp only [lessThan, hakind, hbkind, heq, heq']
    have hcompare : k.compare classes l = k.within classes l := Key.compare_of_kind_eq hkind
    have hcompare' : l.compare classes k = l.within classes k := Key.compare_of_kind_eq hkind.symm
    cases ha with
    | reference => exact absurd hakind (Key.kind_ne_reference k).symm
    | @leaf target l₁ =>
      cases hb with
      | reference => exact absurd hbkind (Key.kind_ne_reference l).symm
      | leaf =>
        refine ⟨0, fun n _ => ⟨?_, ?_⟩⟩
        · exact congrArg some (Leaf.lessThan_eq hkind)
        · exact congrArg some (Leaf.lessThan_eq hkind.symm)
      | repeated => exact absurd hkind (l₁.kind_ne.1 _)
      | aggregate => exact absurd hkind (l₁.kind_ne.2.1 _)
      | union => exact absurd hkind l₁.kind_ne.2.2
    | @repeated target r item bound i hi =>
      cases hb with
      | reference => exact absurd hbkind (Key.kind_ne_reference l).symm
      | @leaf target' l₂ => exact absurd hkind.symm (l₂.kind_ne.1 _)
      | aggregate => cases hkind
      | union => cases hkind
      | @repeated target' r' item' bound' j hj =>
        obtain ⟨N, hN⟩ := hitem r i bound rfl hi hj
        refine ⟨N, fun n hn => ?_⟩
        obtain ⟨hless, hless'⟩ := hN n hn
        have hbound : (compare bound' bound) = (compare bound bound').swap :=
          Std.OrientedOrd.eq_swap
        have hback : j.compare classes i = (i.compare classes j).swap := Key.compare_swap j i
        rw [hcompare, hcompare', Key.within, Key.within]
        simp only [hless, hless', hback, Option.bind_eq_bind, Option.bind_some,
          lessThan_eq_compare, hbound]
        cases i.compare classes j <;> exact ⟨rfl, rfl⟩
    | aggregate =>
      cases hb with
      | reference => exact absurd hbkind (Key.kind_ne_reference l).symm
      | @leaf target' l₂ => exact absurd hkind.symm (l₂.kind_ne.2.1 _)
      | repeated => cases hkind
      | union => cases hkind
      | aggregate =>
        rw [hcompare, hcompare']
        exact ⟨0, fun n _ => ⟨rfl, rfl⟩⟩
    | union =>
      cases hb with
      | reference => exact absurd hbkind (Key.kind_ne_reference l).symm
      | @leaf target' l₂ => exact absurd hkind.symm l₂.kind_ne.2.2
      | repeated => cases hkind
      | aggregate => cases hkind
      | union =>
        rw [hcompare, hcompare']
        exact ⟨0, fun n _ => ⟨rfl, rfl⟩⟩
  · have hne : classes k.kind l.kind ≠ .eq := fun h => hkind ((classes_eq_iff _ _).mp h)
    refine ⟨0, fun n _ => ?_⟩
    rw [lessThan, lessThan, hakind, hbkind, Key.compare_eq_then, Key.compare_eq_then, hswap]
    cases hclasses : classes k.kind l.kind with
    | eq => exact absurd hclasses hne
    | lt => exact ⟨rfl, rfl⟩
    | gt => exact ⟨rfl, rfl⟩

/-- Whatever is compared, and in whatever order, it is by keys. -/
theorem less_of_hasKey : ∀ (k : Key) {a b : Placed} {l : Key}, HasKey a k → HasKey b l →
    ∃ N, ∀ n ≥ N, less classes n a b = some (k.compare classes l == .lt) ∧
      less classes n b a = some (l.compare classes k == .lt) := by
  intro k
  have hstep : ∀ k : Key, (∀ r i m, k = .repeated r i m → ∀ {a b : Placed} {j : Key},
      HasKey a i → HasKey b j → ∃ N, ∀ n ≥ N,
        less classes n a b = some (i.compare classes j == .lt) ∧
        less classes n b a = some (j.compare classes i == .lt)) →
      ∀ {a b : Placed} {l : Key}, HasKey a k → HasKey b l → ∃ N, ∀ n ≥ N,
        less classes n a b = some (k.compare classes l == .lt) ∧
        less classes n b a = some (l.compare classes k == .lt) := by
    intro k hitem a b l ha hb
    obtain ⟨N, a', hderefed, ha', hakind⟩ := ha.derefed
    obtain ⟨M, b', hderefed', hb', hbkind⟩ := hb.derefed
    obtain ⟨L, hL⟩ := lessThan_of_hasKey ha' hb' hakind hbkind hitem
    refine ⟨N + M + L + 1, fun n hn => ?_⟩
    obtain ⟨n, rfl⟩ := Nat.exists_eq_succ_of_ne_zero (Nat.ne_zero_of_lt hn)
    have ha := hderefed (n + 1) (by omega)
    have hb := hderefed' (n + 1) (by omega)
    rw [less_succ ha hb, less_succ hb ha]
    exact hL n (by omega)
  induction k with
  | repeated r i m ih =>
    intro a b l ha hb
    refine hstep _ (fun r' i' m' heq => ?_) ha hb
    cases heq
    exact ih
  | _ =>
    intro a b l ha hb
    refine hstep _ (fun r i m heq => ?_) ha hb
    cases heq

/-! ## Equality without references -/

omit [Std.TransCmp classes] [Std.LawfulEqCmp classes] in
theorem hasKey_of_key (target : Nat → Option Code) : ∀ {c : Code} {k : Key},
    c.key [] = some k → HasKey ⟨target, c⟩ k
  | .leaf l, k, h => by
    cases h
    exact .leaf
  | .repeated r item bound, k, h => by
    obtain ⟨i, hi, rfl⟩ := Option.map_eq_some_iff.mp h
    exact .repeated (hasKey_of_key target hi)
  | .aggregate a repoId name members, k, h => by
    cases h
    exact .aggregate
  | .union repoId name descriminant cases d, k, h => by
    cases h
    exact .union
  | .reference j, k, h => (nomatch h)

omit [Std.TransCmp classes] [Std.LawfulEqCmp classes] in
/-- Where there are no references, equality is that of keys, whichever operand is where. -/
theorem equals_of_key : ∀ {c c' : Code} {k l : Key}, c.key [] = some k → c'.key [] = some l →
    ∃ N, ∀ n ≥ N, ∀ x? y?, equals n x? y? c c' = some (decide (k = l)) ∧
      equals n x? y? c' c = some (decide (l = k))
  | .repeated r item bound, c', k, l, h, h' => by
    obtain ⟨i, hi, rfl⟩ := Option.map_eq_some_iff.mp h
    cases c' with
    | reference j => exact (nomatch h')
    | repeated r' item' bound' =>
      obtain ⟨j, hj, rfl⟩ := Option.map_eq_some_iff.mp h'
      obtain ⟨N, hN⟩ := equals_of_key hi hj
      refine ⟨N + 1, fun n hn x? y? => ?_⟩
      obtain ⟨n, rfl⟩ := Nat.exists_eq_succ_of_ne_zero (Nat.ne_zero_of_lt hn)
      obtain ⟨hitem, hitem'⟩ := hN n (by omega) y? x?
      rw [equals, equals, hitem, hitem']
      by_cases hsame : r = r' ∧ bound = bound'
      · obtain ⟨rfl, rfl⟩ := hsame
        simp [eq_comm]
      · have hsame' : ¬(r' = r ∧ bound' = bound) := fun h => hsame ⟨h.1.symm, h.2.symm⟩
        rw [if_neg hsame, if_neg hsame']
        simp only [Key.repeated.injEq]
        constructor <;> congr 1 <;> symm <;> rw [decide_eq_false_iff_not] <;> tauto
    | leaf l' =>
      cases h'
      refine ⟨1, fun n hn x? y? => ?_⟩
      obtain ⟨n, rfl⟩ := Nat.exists_eq_succ_of_ne_zero (Nat.ne_zero_of_lt hn)
      cases l' <;> simp [equals, Leaf.key]
    | _ =>
      cases h'
      refine ⟨1, fun n hn x? y? => ?_⟩
      obtain ⟨n, rfl⟩ := Nat.exists_eq_succ_of_ne_zero (Nat.ne_zero_of_lt hn)
      simp [equals]
  | .leaf l₁, c', k, l, h, h' => by
    cases h
    refine ⟨1, fun n hn x? y? => ?_⟩
    obtain ⟨n, rfl⟩ := Nat.exists_eq_succ_of_ne_zero (Nat.ne_zero_of_lt hn)
    cases c' with
    | reference j => exact (nomatch h')
    | leaf l₂ =>
      cases h'
      simp [equals, Leaf.equals]
    | repeated r' item' bound' =>
      obtain ⟨j, hj, rfl⟩ := Option.map_eq_some_iff.mp h'
      cases l₁ <;> simp [equals, Leaf.key]
    | _ =>
      cases h'
      cases l₁ <;> simp [equals, Leaf.key]
  | .aggregate a repoId name members, c', k, l, h, h'
  | .union repoId name descriminant cases d, c', k, l, h, h' => by
    cases h
    refine ⟨1, fun n hn x? y? => ?_⟩
    obtain ⟨n, rfl⟩ := Nat.exists_eq_succ_of_ne_zero (Nat.ne_zero_of_lt hn)
    cases c' with
    | reference j => exact (nomatch h')
    | leaf l₂ =>
      cases h'
      cases l₂ <;> simp [equals, Leaf.key]
    | repeated r' item' bound' =>
      obtain ⟨j, hj, rfl⟩ := Option.map_eq_some_iff.mp h'
      simp [equals]
    | _ =>
      cases h'
      simp [equals]
  | .reference j, c', k, l, h, h' => (nomatch h)

/-! ## References -/

/-- No class finds one of its own in a reference. -/
theorem equals_reference (x? y? : Nat → Option Code) (i j : Nat) (n : Nat) :
    equals n x? y? (.reference i) (.reference j) ≠ some true := by
  induction n generalizing i with
  | zero => exact fun h => (by cases h)
  | succ n ih =>
    rw [equals]
    intro h
    obtain ⟨c, -, hc⟩ := Option.bind_eq_some_iff.mp h
    cases n with
    | zero => cases hc
    | succ n =>
      cases c with
      | reference i' => exact ih i' hc
      | _ => simp [equals] at hc

theorem not_equal_reference {a : Placed} (ha : a.IsReference) : ¬Equal a a := by
  obtain ⟨j, hj⟩ := ha
  rintro ⟨N, hN⟩
  have h := hN N le_rfl
  dsimp only at h
  rw [hj] at h
  exact equals_reference _ _ j j N h

/-! ## When comparisons are consistent -/

omit [Std.TransCmp classes] [Std.LawfulEqCmp classes] in
theorem Returns.unique {f : Nat → Option Bool} {r r' : Bool} (h : Returns f r)
    (h' : Returns f r') : r = r' := by
  obtain ⟨N, hN⟩ := h
  obtain ⟨M, hM⟩ := h'
  have heq := hN (max N M) (le_max_left N M)
  rw [hM (max N M) (le_max_right N M)] at heq
  exact (Option.some.inj heq).symm

omit [Std.TransCmp classes] [Std.LawfulEqCmp classes] in
/-- A type code has a key where none that is reachable is a reference. -/
theorem exists_key {roots : Set Placed} (hnone : ∀ a, Reachable roots a → ¬a.IsReference)
    {target : Nat → Option Code} : ∀ {c : Code}, Reachable roots ⟨target, c⟩ →
      ∃ k, c.key [] = some k
  | .leaf l, _ => ⟨l.key, rfl⟩
  | .repeated r item bound, h => by
    obtain ⟨k, hk⟩ := exists_key hnone (c := item) (.item h)
    exact ⟨.repeated r k bound, by rw [Code.key, hk]; rfl⟩
  | .aggregate a repoId _ _, _ => ⟨.aggregate a repoId, rfl⟩
  | .union repoId _ _ _ _, _ => ⟨.union repoId, rfl⟩
  | .reference j, h => absurd ⟨j, rfl⟩ (hnone _ h)

omit [Std.TransCmp classes] [Std.LawfulEqCmp classes] in
theorem equals_returns {a b : Placed} {k l : Key} (ha : a.code.key [] = some k)
    (hb : b.code.key [] = some l) :
    Returns (fun n => equals n a.target b.target a.code b.code) (decide (k = l)) := by
  obtain ⟨N, hN⟩ := equals_of_key ha hb
  exact ⟨N, fun n hn => (hN n hn a.target b.target).1⟩

theorem less_returns {a b : Placed} {k l : Key} (ha : a.code.key [] = some k)
    (hb : b.code.key [] = some l) :
    Returns (fun n => less classes n a b) (k.compare classes l == .lt) := by
  obtain ⟨N, hN⟩ := @less_of_hasKey classes _ _ k _ _ _ (hasKey_of_key a.target ha)
    (hasKey_of_key b.target hb)
  exact ⟨N, fun n hn => (hN n hn).1⟩

omit [Std.TransCmp classes] [Std.LawfulEqCmp classes] in
theorem equal_iff_key {a b : Placed} {k l : Key} (ha : a.code.key [] = some k)
    (hb : b.code.key [] = some l) : Equal a b ↔ k = l := by
  constructor
  · intro h
    exact of_decide_eq_true ((equals_returns ha hb).unique h)
  · rintro rfl
    simpa [Equal] using equals_returns ha hb

theorem less_iff_key {a b : Placed} {k l : Key} (ha : a.code.key [] = some k)
    (hb : b.code.key [] = some l) : Less classes a b ↔ k.compare classes l = .lt := by
  constructor
  · intro h
    exact beq_iff_eq.mp ((less_returns ha hb).unique h)
  · intro h
    simpa [Less, h] using @less_returns classes _ _ a b k l ha hb

theorem Key.not_lt_iff (k l : Key) :
    (¬k.compare classes l = .lt ∧ ¬l.compare classes k = .lt) ↔ k = l := by
  rw [← Key.compare_eq_iff (@classes_eq_iff classes _) k l, @Key.compare_swap classes _ l k]
  cases k.compare classes l <;> simp

variable (classes) in
/-- Comparisons of the type codes reachable from some are consistent just if none of them is a
reference. -/
theorem consistent_iff (roots : Set Placed) :
    Consistent classes {a | Reachable roots a} ↔ ∀ a, Reachable roots a → ¬a.IsReference := by
  constructor
  · intro h a ha hreference
    exact not_equal_reference hreference (h.equal_refl a ha)
  · intro hnone
    have hkey : ∀ a, Reachable roots a → ∃ k, a.code.key [] = some k :=
      fun a ha => exists_key hnone ha
    have : Inhabited Key := ⟨.void⟩
    choose! key hkey using hkey
    have hequal : ∀ {a b}, Reachable roots a → Reachable roots b → (Equal a b ↔ key a = key b) :=
      fun ha hb => equal_iff_key (hkey _ ha) (hkey _ hb)
    have hless : ∀ {a b}, Reachable roots a → Reachable roots b →
        (Less classes a b ↔ (key a).compare classes (key b) = .lt) :=
      fun ha hb => less_iff_key (hkey _ ha) (hkey _ hb)
    constructor
    · intro a ha b hb
      exact ⟨_, equals_returns (hkey a ha) (hkey b hb)⟩
    · intro a ha b hb
      exact ⟨_, less_returns (hkey a ha) (hkey b hb)⟩
    · intro a ha
      exact (hequal ha ha).mpr rfl
    · intro a ha b hb h
      exact (hequal hb ha).mpr ((hequal ha hb).mp h).symm
    · intro a ha b hb c hc h h'
      exact (hequal ha hc).mpr (((hequal ha hb).mp h).trans ((hequal hb hc).mp h'))
    · rintro a ha b hb ⟨j, c, hj, -⟩
      exact absurd ⟨j, hj⟩ (hnone a ha)
    · intro a ha h
      have hlt := (hless ha ha).mp h
      rw [(Key.compare_eq_iff classes_eq_iff _ _).mpr rfl] at hlt
      cases hlt
    · intro a ha b hb c hc h h'
      exact (hless ha hc).mpr (Key.compare_trans ((hless ha hb).mp h) ((hless hb hc).mp h'))
    · intro a ha b hb c hc
      rw [hless ha hb, hless hb ha, hless hb hc, hless hc hb, hless ha hc, hless hc ha]
      intro hab hba hbc hcb
      rw [Key.not_lt_iff, (Key.not_lt_iff _ _).mp ⟨hab, hba⟩, (Key.not_lt_iff _ _).mp ⟨hbc, hcb⟩]
    · intro a ha b hb
      rw [hequal ha hb, hless ha hb, hless hb ha, Key.not_lt_iff]

end

/-! ## Two types -/

/-- An order that classes might have -/
def byNumber : Kind → Kind → Ordering := compareOn Kind.number

instance : Std.TransCmp byNumber := inferInstanceAs (Std.TransCmp (compareOn Kind.number))

theorem Kind.number_inj {k k' : Kind} (h : k.number = k'.number) : k = k' := by
  have hk := congrArg Kind.ofNumber h
  simpa [Kind.ofNumber_number] using hk

instance : Std.LawfulEqCmp byNumber where
  eq_of_compare h := Kind.number_inj (Nat.compare_eq_eq.mp h)

/-- A type code made by createTypeCodeOf, whose references refer within it. -/
def Placed.whole (c : Code) : Placed := ⟨fun j => c.nodes[j]?, c⟩

theorem reachable_pair {a : Placed} (h : Reachable {.whole pair} a) :
    a.code = pair ∨ a.code = .leaf (.basic .long) := by
  induction h with
  | root ha => exact .inl (ha ▸ rfl)
  | member _ htype ih =>
    rcases ih with ih | ih
    · cases ih
      simpa [Members.types] using Or.inr htype
    · cases ih
  | referred _ hab ih =>
    obtain ⟨j, c, hj, -⟩ := hab
    rcases ih with ih | ih
    · cases hj.symm.trans ih
    · cases hj.symm.trans ih
  | item _ ih | descriminant _ ih | case _ _ ih =>
    rcases ih with ih | ih
    · cases ih
    · cases ih

/-- There are no references in a type that is not recursive. -/
theorem consistent_pair : Consistent byNumber {a | Reachable {.whole pair} a} :=
  (consistent_iff byNumber {.whole pair}).mpr fun a ha hreference => by
    obtain ⟨j, hj⟩ := hreference
    rcases reachable_pair ha with h | h
    · cases hj.symm.trans h
    · cases hj.symm.trans h

/-- The children of a tree are a sequence of references to it, and none is equal to itself. -/
theorem not_consistent_tree : Created treeTypes (.generated 0) tree ∧
    ¬Consistent byNumber {a | Reachable {.whole tree} a} := by
  refine ⟨tree_created, fun h => ?_⟩
  have htree : Reachable {.whole tree} (.whole tree) := .root rfl
  have hchildren : Reachable {.whole tree} ⟨_, .repeated .sequence (.reference 0) 0⟩ :=
    .member htree (by simp [Members.types])
  exact not_equal_reference ⟨0, rfl⟩ (h.equal_refl _ hchildren.item)

end Urnest.TypeCode
