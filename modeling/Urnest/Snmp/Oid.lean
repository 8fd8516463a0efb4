import Mathlib.Data.List.Lex
import Mathlib.Data.UInt
import Mathlib.Order.Basic

/-!
# Object identifiers

An `Oid` is a sequence of 32-bit components, compared lexicographically as the
vectors of the source are. The order is lifted from lists of naturals, where it is
the one Mathlib knows.

The identifiers that another one contains, its subtree, come one after the other in
that order, right after it (`contains_of_between`).
-/

namespace Urnest.Snmp

/-- An SNMP object identifier. -/
structure Oid where
  /-- `.1.3.6` is `[1, 3, 6]` -/
  components : List UInt32
  deriving DecidableEq, Repr

namespace Oid

/-- The components as naturals, which is what the order compares. -/
def key (x : Oid) : List Nat := x.components.map UInt32.toNat

theorem key_injective : Function.Injective key := by
  intro x y h
  have hcomponents := (List.map_injective_iff.mpr fun _ _ => UInt32.toNat.inj) h
  cases x
  cases y
  cases hcomponents
  rfl

/-- Lexicographic order on the components. -/
instance : LinearOrder Oid := LinearOrder.lift' key key_injective

theorem lt_def {x y : Oid} : x < y ↔ x.key < y.key := Iff.rfl

theorem le_def {x y : Oid} : x ≤ y ↔ x.key ≤ y.key := Iff.rfl

/-- `x` is a prefix of `y` or is `y`. -/
def contains (x y : Oid) : Bool := x.components.isPrefixOf y.components

theorem contains_iff {x y : Oid} : x.contains y = true ↔ x.components <+: y.components :=
  List.isPrefixOf_iff_prefix

theorem contains_iff_key {x y : Oid} : x.contains y = true ↔ x.key <+: y.key := by
  rw [contains_iff]
  constructor
  · exact fun h => h.map _
  · rintro ⟨t, ht⟩
    refine List.prefix_iff_eq_take.mpr ?_
    have htake : x.key = (y.components.take x.components.length).map UInt32.toNat := by
      rw [List.map_take, ← List.length_map (f := UInt32.toNat)]
      exact List.prefix_iff_eq_take.mp ⟨t, ht⟩
    exact List.map_injective_iff.mpr (fun _ _ => UInt32.toNat.inj) htake

@[simp] theorem contains_self (x : Oid) : x.contains x = true :=
  contains_iff.mpr List.prefix_rfl

/-! ## Subtrees -/

theorem prefix_of_between {p y z : List Nat} (hz : p <+: z) (hpy : p ≤ y) (hyz : y ≤ z) :
    p <+: y := by
  induction p generalizing y z with
  | nil => exact List.nil_prefix
  | cons a p ih =>
    obtain ⟨t, rfl⟩ := hz
    cases y with
    | nil => exact absurd hpy (not_le.mpr List.Lex.nil)
    | cons b y =>
      rcases lt_trichotomy a b with hab | rfl | hba
      · exact absurd hyz (not_le.mpr (List.Lex.rel hab))
      · refine List.cons_prefix_cons.mpr ⟨rfl, ih ⟨t, rfl⟩ ?_ ?_⟩
        · exact not_lt.mp fun h => not_lt.mpr hpy (List.Lex.cons h)
        · exact not_lt.mp fun h => not_lt.mpr hyz (List.Lex.cons h)
      · exact absurd hpy (not_le.mpr (List.Lex.rel hba))

theorem lt_of_prefix {p z : List Nat} (h : p <+: z) (hne : z ≠ p) : p < z := by
  induction p generalizing z with
  | nil =>
    cases z with
    | nil => exact absurd rfl hne
    | cons c z => exact List.Lex.nil
  | cons a p ih =>
    obtain ⟨t, rfl⟩ := h
    exact List.Lex.cons (ih ⟨t, rfl⟩ fun heq => hne (congrArg (a :: ·) heq))

theorem contains_of_between {c x y : Oid} (hx : c.contains x = true) (hcy : c ≤ y)
    (hyx : y ≤ x) : c.contains y = true :=
  contains_iff_key.mpr (prefix_of_between (contains_iff_key.mp hx) hcy hyx)

theorem lt_of_contains {c x : Oid} (h : c.contains x = true) (hne : x ≠ c) : c < x :=
  lt_of_prefix (contains_iff_key.mp h) fun hkey => hne (key_injective hkey)

end Oid

end Urnest.Snmp
