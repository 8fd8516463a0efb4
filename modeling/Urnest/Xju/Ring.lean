import Mathlib.Data.Finset.Erase
import Mathlib.Data.Finset.Insert
import Mathlib.Logic.Equiv.Basic

/-!
# Rings

The elements of the rings are addresses, and their links the two functions `p` and `n`. Each
operation writes four pointers, one after the other, and the later writes read what the earlier
ones have left (`splice`, `cut`).

Over the elements that are alive `p` and `n` are each other's inverse (`IsRings`). What an
operation does to them is to compose `n` with a transposition and `p` with the same one
(`IsRings.compose`), whichever of its elements are neighbours, the same, or in other rings:
from this the rings stay rings.
-/

namespace Urnest.Xju.Ring

open Function (update update_self update_of_ne)
open Equiv (swap)

variable {ι : Type} [DecidableEq ι]

/-! ## The operations -/

/-- The links of all elements, and those that are constructed and not yet destroyed -/
structure Memory (ι : Type) where
  p : ι → ι
  n : ι → ι
  live : Finset ι

namespace Memory

variable (m : Memory ι)

def setP (x y : ι) : Memory ι := { m with p := update m.p x y }

def setN (x y : ι) : Memory ι := { m with n := update m.n x y }

def atomic (x : ι) : Bool := m.n x = x

/-- `Ring(T)` and the copy constructor -/
def construct (x : ι) : Memory ι where
  p := update m.p x x
  n := update m.n x x
  live := insert x m.live

def splice (this ring : ι) : Memory ι :=
  let m := m.setP (m.n this) (m.p ring)
  let m := m.setN (m.p ring) (m.n this)
  let m := m.setN this ring
  m.setP ring this

def cut (this other : ι) : Memory ι :=
  let m := m.setN (m.p this) (m.n other)
  let m := m.setP (m.n other) (m.p this)
  let m := m.setP this other
  m.setN other this

/-- `cut()` -/
def cutThis (this : ι) : Memory ι := m.cut this this

def swapWithNext (this : ι) : Memory ι :=
  let t := m.n this
  (m.cut this this).splice t this

/-- `~Ring` -/
def destroy (this : ι) : Memory ι :=
  { m.cut this this with live := m.live.erase this }

end Memory

inductive Operation (ι : Type) where
  | construct (this : ι)
  | splice (this ring : ι)
  | cut (this other : ι)
  | cutThis (this : ι)
  | swapWithNext (this : ι)
  | destroy (this : ι)

/-- The elements that the operation is applied to are alive; storage that an element is
constructed in holds none. -/
def Operation.Valid (live : Finset ι) : Operation ι → Prop
  | construct this => this ∉ live
  | splice this ring => this ∈ live ∧ ring ∈ live
  | cut this other => this ∈ live ∧ other ∈ live
  | cutThis this | swapWithNext this | destroy this => this ∈ live

instance (live : Finset ι) : (op : Operation ι) → Decidable (op.Valid live)
  | .construct _ => inferInstanceAs (Decidable (_ ∉ live))
  | .splice .. | .cut .. => inferInstanceAs (Decidable (_ ∈ live ∧ _ ∈ live))
  | .cutThis _ | .swapWithNext _ | .destroy _ => inferInstanceAs (Decidable (_ ∈ live))

def Memory.apply (m : Memory ι) : Operation ι → Memory ι
  | .construct this => m.construct this
  | .splice this ring => m.splice this ring
  | .cut this other => m.cut this other
  | .cutThis this => m.cutThis this
  | .swapWithNext this => m.swapWithNext this
  | .destroy this => m.destroy this

/-- What sequences of operations lead to from a memory without elements. -/
inductive Reached : Memory ι → Prop where
  | empty (p n : ι → ι) : Reached ⟨p, n, ∅⟩
  | apply {m : Memory ι} (op : Operation ι) :
    Reached m → op.Valid m.live → Reached (m.apply op)

/-! ## Transpositions -/

/-- `next` and `prev` are each other's inverse over the elements that are alive, and lead to
such elements only. -/
structure IsRings (m : Memory ι) : Prop where
  n_mem : ∀ x ∈ m.live, m.n x ∈ m.live
  p_mem : ∀ x ∈ m.live, m.p x ∈ m.live
  p_n : ∀ x ∈ m.live, m.p (m.n x) = x
  n_p : ∀ x ∈ m.live, m.n (m.p x) = x

omit [DecidableEq ι] in
theorem IsRings.empty (p n : ι → ι) : IsRings ⟨p, n, ∅⟩ where
  n_mem := fun x hx => absurd hx (Finset.notMem_empty x)
  p_mem := fun x hx => absurd hx (Finset.notMem_empty x)
  p_n := fun x hx => absurd hx (Finset.notMem_empty x)
  n_p := fun x hx => absurd hx (Finset.notMem_empty x)

theorem swap_mem {live : Finset ι} {a b x : ι} (ha : a ∈ live) (hb : b ∈ live) (hx : x ∈ live) :
    swap a b x ∈ live := by
  rw [Equiv.swap_apply_def]
  split_ifs
  exacts [hb, ha, hx]

/-- The one memory is the other with its links composed with a transposition. -/
structure Composed (m m' : Memory ι) (a b : ι) : Prop where
  live : m'.live = m.live
  n : ∀ x ∈ m.live, m'.n x = m.n (swap a b x)
  p : ∀ x ∈ m.live, m'.p x = swap a b (m.p x)

namespace IsRings

variable {m m' : Memory ι} {x y a b : ι}

omit [DecidableEq ι] in
theorem n_eq_iff (h : IsRings m) (hx : x ∈ m.live) (hy : y ∈ m.live) : m.n x = y ↔ x = m.p y := by
  constructor
  · rintro rfl
    exact (h.p_n x hx).symm
  · rintro rfl
    exact h.n_p y hy

/-- Rings composed with a transposition are rings. -/
theorem compose (h : IsRings m) (ha : a ∈ m.live) (hb : b ∈ m.live) (hc : Composed m m' a b) :
    IsRings m' := by
  obtain ⟨hlive, hn, hp⟩ := hc
  refine ⟨?_, ?_, ?_, ?_⟩ <;> rw [hlive] <;> intro x hx
  · rw [hn x hx]
    exact h.n_mem _ (swap_mem ha hb hx)
  · rw [hp x hx]
    exact swap_mem ha hb (h.p_mem x hx)
  · have hswap := swap_mem ha hb hx
    rw [hn x hx, hp _ (h.n_mem _ hswap), h.p_n _ hswap, Equiv.swap_apply_self]
  · rw [hp x hx, hn _ (swap_mem ha hb (h.p_mem x hx)), Equiv.swap_apply_self, h.n_p x hx]

theorem splice_composed (h : IsRings m) (hx : x ∈ m.live) (hy : y ∈ m.live) :
    Composed m (m.splice x y) x (m.p y) where
  live := rfl
  n z hz := by
    have hpy := h.p_mem y hy
    simp only [Memory.splice, Memory.setN, Memory.setP, Function.update_apply,
      Equiv.swap_apply_def]
    have hnpy := h.n_p y hy
    have := h.n_eq_iff hx hy
    grind
  p z hz := by
    have hnx := h.p_n x hx
    have hz' := h.n_p z hz
    have hy' := h.n_p y hy
    simp only [Memory.splice, Memory.setN, Memory.setP, Function.update_apply,
      Equiv.swap_apply_def]
    grind

theorem cut_composed (h : IsRings m) (hx : x ∈ m.live) (hy : y ∈ m.live) :
    Composed m (m.cut x y) (m.p x) y where
  live := rfl
  n z hz := by
    have hnpx := h.n_p x hx
    simp only [Memory.cut, Memory.setN, Memory.setP, Function.update_apply, Equiv.swap_apply_def]
    grind
  p z hz := by
    have hny := h.p_n y hy
    have hz' := h.n_p z hz
    have hx' := h.n_p x hx
    simp only [Memory.cut, Memory.setN, Memory.setP, Function.update_apply, Equiv.swap_apply_def]
    grind

theorem construct (h : IsRings m) (hx : x ∉ m.live) : IsRings (m.construct x) := by
  have hne : ∀ z ∈ m.live, z ≠ x := fun z hz heq => hx (heq ▸ hz)
  have hn : ∀ z ∈ m.live, update m.n x x z = m.n z := fun z hz => update_of_ne (hne z hz) ..
  have hp : ∀ z ∈ m.live, update m.p x x z = m.p z := fun z hz => update_of_ne (hne z hz) ..
  refine ⟨?_, ?_, ?_, ?_⟩ <;> intro z hz <;> obtain rfl | hz := Finset.mem_insert.mp hz <;>
    simp only [Memory.construct, update_self]
  · exact Finset.mem_insert_self ..
  · rw [hn z hz]
    exact Finset.mem_insert_of_mem (h.n_mem z hz)
  · exact Finset.mem_insert_self ..
  · rw [hp z hz]
    exact Finset.mem_insert_of_mem (h.p_mem z hz)
  · rw [hn z hz, hp _ (h.n_mem z hz), h.p_n z hz]
  · rw [hp z hz, hn _ (h.p_mem z hz), h.n_p z hz]

theorem splice (h : IsRings m) (hx : x ∈ m.live) (hy : y ∈ m.live) : IsRings (m.splice x y) :=
  h.compose hx (h.p_mem y hy) (h.splice_composed hx hy)

theorem cut (h : IsRings m) (hx : x ∈ m.live) (hy : y ∈ m.live) : IsRings (m.cut x y) :=
  h.compose (h.p_mem x hx) hy (h.cut_composed hx hy)

theorem swapWithNext (h : IsRings m) (hx : x ∈ m.live) : IsRings (m.swapWithNext x) :=
  (h.cut hx hx).splice (h.n_mem x hx) hx

/-- What is in a ring of its own is led to from nowhere else. -/
theorem erase (h : IsRings m) (hx : m.n x = x) : IsRings { m with live := m.live.erase x } := by
  refine ⟨?_, ?_, ?_, ?_⟩ <;> intro z hz <;> obtain ⟨hne, hz⟩ := Finset.mem_erase.mp hz
  · refine Finset.mem_erase.mpr ⟨fun heq => hne ?_, h.n_mem z hz⟩
    rw [← h.p_n z hz, ← h.p_n x (heq ▸ h.n_mem z hz), hx]
    exact congrArg m.p heq
  · refine Finset.mem_erase.mpr ⟨fun heq => hne ?_, h.p_mem z hz⟩
    rw [← h.n_p z hz, ← hx]
    exact congrArg m.n heq
  · exact h.p_n z hz
  · exact h.n_p z hz

/-- The four links that a transposition changes -/
theorem links (h : IsRings m) (hc : Composed m m' a b) (ha : a ∈ m.live) (hb : b ∈ m.live) :
    m'.n a = m.n b ∧ m'.n b = m.n a ∧ m'.p (m.n a) = b ∧ m'.p (m.n b) = a := by
  refine ⟨?_, ?_, ?_, ?_⟩
  · rw [hc.n a ha, Equiv.swap_apply_left]
  · rw [hc.n b hb, Equiv.swap_apply_right]
  · rw [hc.p _ (h.n_mem a ha), h.p_n a ha, Equiv.swap_apply_left]
  · rw [hc.p _ (h.n_mem b hb), h.p_n b hb, Equiv.swap_apply_right]

theorem splice_links (h : IsRings m) (hx : x ∈ m.live) (hy : y ∈ m.live) :
    (m.splice x y).n x = y ∧ (m.splice x y).p y = x ∧ (m.splice x y).n (m.p y) = m.n x ∧
      (m.splice x y).p (m.n x) = m.p y := by
  obtain ⟨hnx, hnpy, hpnx, hpy⟩ := h.links (h.splice_composed hx hy) hx (h.p_mem y hy)
  rw [h.n_p y hy] at hnx hpy
  exact ⟨hnx, hpy, hnpy, hpnx⟩

theorem cut_links (h : IsRings m) (hx : x ∈ m.live) (hy : y ∈ m.live) :
    (m.cut x y).n (m.p x) = m.n y ∧ (m.cut x y).p (m.n y) = m.p x ∧ (m.cut x y).p x = y ∧
      (m.cut x y).n y = x := by
  obtain ⟨hnpx, hny, hpx, hpny⟩ := h.links (h.cut_composed hx hy) (h.p_mem x hx) hy
  rw [h.n_p x hx] at hny hpx
  exact ⟨hnpx, hpny, hpx, hny⟩

/-- Cut an element out, and what comes behind it in before it: two transpositions -/
theorem n_swapWithNext (h : IsRings m) (hx : x ∈ m.live) {z : ι} (hz : z ∈ m.live) :
    (m.swapWithNext x).n z = m.n (swap (m.p x) x (swap (m.n x) x z)) := by
  have hcut := h.cut_composed hx hx
  have hpx : (m.cut x x).p x = x := (h.cut_links hx hx).2.2.1
  have hsplice := (h.cut hx hx).splice_composed (h.n_mem x hx) hx
  rw [hpx] at hsplice
  exact (hsplice.n z hz).trans (hcut.n _ (swap_mem (h.n_mem x hx) hx hz))

theorem p_swapWithNext (h : IsRings m) (hx : x ∈ m.live) {z : ι} (hz : z ∈ m.live) :
    (m.swapWithNext x).p z = swap (m.n x) x (swap (m.p x) x (m.p z)) := by
  have hcut := h.cut_composed hx hx
  have hpx : (m.cut x x).p x = x := (h.cut_links hx hx).2.2.1
  have hsplice := (h.cut hx hx).splice_composed (h.n_mem x hx) hx
  rw [hpx] at hsplice
  exact (hsplice.p z hz).trans (congrArg _ (hcut.p z hz))

end IsRings

/-! ## What is documented -/

/-- The element is in a ring with two others or more. -/
def ThreeOrMore (m : Memory ι) (x : ι) : Prop := m.n x ≠ x ∧ m.n (m.n x) ≠ x

/-- The element is in a ring with exactly one other. -/
def Two (m : Memory ι) (x : ι) : Prop := m.n x ≠ x ∧ m.n (m.n x) = x

/-- The rings afterwards are those before but that `x` stands where `y` stood, and `y` where `x`
stood. -/
def Exchanged (m m' : Memory ι) (x y : ι) : Prop :=
  ∀ z ∈ m.live, m'.n z = swap x y (m.n (swap x y z)) ∧ m'.p z = swap x y (m.p (swap x y z))

/-- The postconditions on `next` and `prev`, from the state before and the state after -/
def Documented (m m' : Memory ι) : Operation ι → Prop
  | .construct this =>
    m'.n this = this ∧ ∀ ring ∈ m.live, m'.n ring = m.n ring ∧ m'.p ring = m.p ring
  | .splice this ring =>
    m'.n this = ring ∧ m'.p ring = this ∧ m'.n (m.p ring) = m.n this ∧
      m'.p (m.n this) = m.p ring
  | .cut this other =>
    m'.n (m.p this) = m.n other ∧ m'.p (m.n other) = m.p this ∧ m'.p this = other ∧
      m'.n other = this
  | .cutThis this =>
    m'.n (m.p this) = m.n this ∧ m'.p (m.n this) = m.p this ∧ m'.p this = this ∧
      m'.n this = this
  | .swapWithNext this => m'.p this = m.n this ∧ m'.n this = m.n (m.n this)
  | .destroy this => m'.n this = this

/-- The same, but that after `swapWithNext` in a ring of two the other element is next. -/
def Amended (m m' : Memory ι) : Operation ι → Prop
  | .swapWithNext this =>
    m'.p this = m.n this ∧ (¬Two m this → m'.n this = m.n (m.n this)) ∧
      (Two m this → m'.n this = m.n this)
  | op => Documented m m' op

namespace IsRings

variable {m : Memory ι} {x : ι}

theorem swapWithNext_amended (h : IsRings m) (hx : x ∈ m.live) :
    Amended m (m.swapWithNext x) (.swapWithNext x) := by
  have hnx := h.n_mem x hx
  have hback := h.p_n _ hnx
  have hforth := h.n_p x hx
  refine ⟨?_, fun htwo => ?_, fun htwo => ?_⟩
  · rw [h.p_swapWithNext hx hx, Equiv.swap_apply_left, Equiv.swap_apply_right]
  all_goals
    rw [h.n_swapWithNext hx hx, Equiv.swap_apply_right]
    simp only [Two, Equiv.swap_apply_def] at htwo ⊢
    grind

theorem exchanged (h : IsRings m) (hx : x ∈ m.live) (hthree : ThreeOrMore m x) :
    Exchanged m (m.swapWithNext x) x (m.n x) := by
  intro z hz
  obtain ⟨hne, hne'⟩ := hthree
  have hpn := h.p_n
  have hnp := h.n_p
  have hnm := h.n_mem
  have hpm := h.p_mem
  constructor
  · rw [h.n_swapWithNext hx hz]
    simp only [Equiv.swap_apply_def]
    grind
  · rw [h.p_swapWithNext hx hz]
    simp only [Equiv.swap_apply_def]
    grind

theorem apply (h : IsRings m) {op : Operation ι} (hop : op.Valid m.live) :
    IsRings (m.apply op) := by
  cases op with
  | construct this => exact h.construct hop
  | splice this ring => exact h.splice hop.1 hop.2
  | cut this other => exact h.cut hop.1 hop.2
  | cutThis this => exact h.cut hop hop
  | swapWithNext this => exact h.swapWithNext hop
  | destroy this => exact (h.cut hop hop).erase (h.cut_links hop hop).2.2.2

theorem amended (h : IsRings m) {op : Operation ι} (hop : op.Valid m.live) :
    Amended m (m.apply op) op := by
  cases op with
  | construct this =>
    refine ⟨update_self .., fun ring hring => ?_⟩
    have hne : ring ≠ this := fun heq => hop (heq ▸ hring)
    exact ⟨update_of_ne hne .., update_of_ne hne ..⟩
  | splice this ring => exact h.splice_links hop.1 hop.2
  | cut this other => exact h.cut_links hop.1 hop.2
  | cutThis this => exact h.cut_links hop hop
  | swapWithNext this => exact h.swapWithNext_amended hop
  | destroy this => exact (h.cut_links hop hop).2.2.2

end IsRings

theorem Reached.isRings {m : Memory ι} (h : Reached m) : IsRings m := by
  induction h with
  | empty p n => exact .empty p n
  | apply op _ hop ih => exact ih.apply hop

/-- Rings stay rings: `next` and `prev` are each other's inverse over the elements alive, and
lead to no other; each operation does what is documented of it, but for `swapWithNext` in a ring
of two, which leaves that as it is; and `swapWithNext` in a larger ring exchanges the element
with the next. -/
theorem rings_stay_rings {m : Memory ι} (h : Reached m) :
    IsRings m ∧ ∀ op : Operation ι, op.Valid m.live →
      IsRings (m.apply op) ∧ Amended m (m.apply op) op ∧
        ∀ this, op = .swapWithNext this → ThreeOrMore m this →
          Exchanged m (m.apply op) this (m.n this) := by
  refine ⟨h.isRings, fun op hop => ⟨h.isRings.apply hop, h.isRings.amended hop, ?_⟩⟩
  rintro this rfl hthree
  exact h.isRings.exchanged hop hthree

/-- Two elements, the one in front of the other -/
def pair : Memory Nat :=
  (((⟨id, id, ∅⟩ : Memory Nat).apply (.construct 0)).apply (.construct 1)).apply (.splice 0 1)

theorem pair_reached : Reached pair :=
  .apply _ (.apply _ (.apply _ (.empty id id) (by decide)) (by decide)) (by decide)

theorem rings_stay_rings_pair :
    IsRings pair ∧ ∀ op : Operation Nat, op.Valid pair.live →
      IsRings (pair.apply op) ∧ Amended pair (pair.apply op) op ∧
        ∀ this, op = .swapWithNext this → ThreeOrMore pair this →
          Exchanged pair (pair.apply op) this (pair.n this) :=
  rings_stay_rings pair_reached

/-- In a ring of two the element stays in front of the other, and the element behind that is the
element itself. -/
theorem swapWithNext_pair_not_documented :
    ¬∀ m : Memory Nat, Reached m → ∀ op : Operation Nat, op.Valid m.live →
      Documented m (m.apply op) op := by
  intro h
  obtain ⟨-, hnext⟩ := h pair pair_reached (.swapWithNext 0) (by decide)
  revert hnext
  decide

end Urnest.Xju.Ring
