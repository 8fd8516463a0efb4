import Mathlib
import Urnest.Lib.Throwing

/-!
# Slices of a text

The `&str` of ruf_parser2, which is where it starts and its characters, and the slicing of
all_of.rs. Rust cuts a `&str` at a byte, and panics where that is inside of a character.

Where one text begins, or ends, another (`Str.Begins`, `Str.Ends`), what is cut off are
whole characters (`after_of_begins`, `upTo_of_ends`, `through_of_begins`).
-/

namespace Urnest.RufParser

inductive Panic where
  /-- an index that is out of bounds, or inside of a character -/
  | index
  | assertion
  | neverReached
  | unwrap
  deriving DecidableEq, Repr

/-- How a run may end without a result -/
inductive Stop where
  | panic (why : Panic)
  | outOfFuel
  deriving DecidableEq, Repr

abbrev Result := Except Stop

/-! ## Text -/

def byteLen (chars : List Char) : Nat := (chars.map Char.utf8Size).sum

/-- What is before byte `n`, and what is from there on -/
def splitBytes : List Char → Nat → Option (List Char × List Char)
  | chars, 0 => some ([], chars)
  | [], _ + 1 => none
  | c :: chars, n + 1 =>
    if c.utf8Size ≤ n + 1 then
      (splitBytes chars (n + 1 - c.utf8Size)).map fun x => (c :: x.1, x.2)
    else none

/-- A `&str`; the addresses are counted from the start of the text that is parsed -/
structure Str where
  ptr : Nat
  chars : List Char
  deriving DecidableEq, Repr

namespace Str

def len (x : Str) : Nat := byteLen x.chars

/-- `&x[0..n]` -/
def sliceTo (x : Str) (n : Nat) : Result Str :=
  match splitBytes x.chars n with
  | some (front, _) => .ok ⟨x.ptr, front⟩
  | none => .error (.panic .index)

/-- `&x[n..]` -/
def sliceFrom (x : Str) (n : Nat) : Result Str :=
  match splitBytes x.chars n with
  | some (_, back) => .ok ⟨x.ptr + n, back⟩
  | none => .error (.panic .index)

/-- `all_of(x).after(y)` -/
def after (x y : Str) : Result Str :=
  if x.ptr = y.ptr ∧ y.len ≤ x.len then x.sliceFrom y.len else .error (.panic .assertion)

/-- `all_of(x).up_to(y)` -/
def upTo (x y : Str) : Result Str :=
  if y.len ≤ x.len ∧ x.ptr ≤ y.ptr then x.sliceTo (x.len - y.len) else .error (.panic .assertion)

/-- `all_of(x).through(y)` -/
def through (x y : Str) : Result Str :=
  if x.ptr ≤ y.ptr + y.len ∧ y.ptr + y.len - x.ptr ≤ x.len then x.sliceTo (y.ptr + y.len - x.ptr)
  else .error (.panic .assertion)

/-- `m` begins `x`. -/
def Begins (m x : Str) : Prop := m.ptr = x.ptr ∧ m.chars <+: x.chars

/-- `r` ends `x`. -/
def Ends (r x : Str) : Prop := ∃ front, x.chars = front ++ r.chars ∧ r.ptr = x.ptr + byteLen front

end Str

/-! ## Cutting at characters -/

@[simp] theorem byteLen_nil : byteLen [] = 0 := rfl

@[simp] theorem byteLen_cons (c : Char) (chars : List Char) :
    byteLen (c :: chars) = c.utf8Size + byteLen chars := rfl

@[simp] theorem byteLen_append (xs ys : List Char) : byteLen (xs ++ ys) = byteLen xs + byteLen ys := by
  simp [byteLen]

theorem splitBytes_append (xs ys : List Char) : splitBytes (xs ++ ys) (byteLen xs) = some (xs, ys) := by
  induction xs with
  | nil => cases ys <;> rfl
  | cons c xs ih =>
    have hpos := c.utf8Size_pos
    obtain ⟨n, hn⟩ := Nat.exists_eq_add_of_lt (show 0 < byteLen (c :: xs) by simp; omega)
    rw [Nat.zero_add] at hn
    have hrest : n + 1 - c.utf8Size = byteLen xs := by
      rw [byteLen_cons] at hn
      omega
    rw [hn, List.cons_append, splitBytes, if_pos (by rw [byteLen_cons] at hn; omega), hrest, ih]
    rfl

namespace Str

variable {x y z m r : Str}

theorem sliceTo_zero (x : Str) : x.sliceTo 0 = .ok ⟨x.ptr, []⟩ := by
  obtain ⟨ptr, chars⟩ := x
  cases chars <;> rfl

theorem begins_nil (x : Str) : Begins ⟨x.ptr, []⟩ x := ⟨rfl, List.nil_prefix⟩

theorem Begins.refl (x : Str) : Begins x x := ⟨rfl, List.prefix_refl _⟩

theorem Ends.refl (x : Str) : Ends x x := ⟨[], rfl, rfl⟩

theorem Ends.trans (h : Ends x y) (h' : Ends y z) : Ends x z := by
  obtain ⟨front, hx, hxptr⟩ := h
  obtain ⟨front', hy, hyptr⟩ := h'
  exact ⟨front' ++ front, by rw [hy, hx, List.append_assoc], by rw [hxptr, hyptr, byteLen_append]; omega⟩

theorem Ends.len (h : Ends r x) : x.ptr + x.len = r.ptr + r.len := by
  obtain ⟨front, hx, hptr⟩ := h
  rw [Str.len, hx, byteLen_append, hptr, Str.len]
  omega

theorem Ends.length_le (h : Ends r x) : r.chars.length ≤ x.chars.length := by
  obtain ⟨front, hx, -⟩ := h
  rw [hx, List.length_append]
  omega

/-- Of the same text, what starts at the same place is the same. -/
theorem Ends.eq (h : Ends x z) (h' : Ends y z) (hptr : x.ptr = y.ptr) : x = y := by
  obtain ⟨front, hx, hxptr⟩ := h
  obtain ⟨front', hy, hyptr⟩ := h'
  have hsplit := splitBytes_append front x.chars
  have hfront : byteLen front = byteLen front' := by omega
  rw [← hx, hy, hfront, splitBytes_append] at hsplit
  obtain ⟨-, hchars⟩ := Prod.mk.inj (Option.some.inj hsplit)
  cases x
  cases y
  cases hptr
  cases hchars
  rfl

/-- Behind what begins a text is what ends it. -/
theorem after_of_begins (h : Begins m x) :
    ∃ r, x.after m = .ok r ∧ Ends r x ∧ r.ptr = x.ptr + m.len ∧ x.chars = m.chars ++ r.chars := by
  obtain ⟨hptr, rest, hrest⟩ := h
  refine ⟨⟨x.ptr + m.len, rest⟩, ?_, ⟨m.chars, hrest.symm, rfl⟩, rfl, hrest.symm⟩
  have hle : m.len ≤ x.len := by
    rw [Str.len, Str.len, ← hrest, byteLen_append]
    omega
  rw [after, if_pos ⟨hptr.symm, hle⟩, sliceFrom, ← hrest, Str.len, splitBytes_append]

theorem upTo_of_ends (h : Ends r x) :
    ∃ m, x.upTo r = .ok m ∧ Begins m x ∧ x.chars = m.chars ++ r.chars := by
  obtain ⟨front, hx, hptr⟩ := h
  refine ⟨⟨x.ptr, front⟩, ?_, ⟨rfl, r.chars, hx.symm⟩, hx⟩
  have hlen : x.len = byteLen front + r.len := by rw [Str.len, hx, byteLen_append, Str.len]
  rw [upTo, if_pos ⟨by omega, by omega⟩, sliceTo, hx, hlen, Nat.add_sub_cancel, splitBytes_append]

/-- Through the end of what begins an end of the text -/
theorem through_of_begins (h : Ends r x) (hm : Begins m r) :
    ∃ t, x.through m = .ok t ∧ Begins t x ∧ (t.chars = [] → m.chars = [] ∧ r.chars = x.chars) := by
  obtain ⟨front, hx, hptr⟩ := h
  obtain ⟨hmptr, rest, hrest⟩ := hm
  refine ⟨⟨x.ptr, front ++ m.chars⟩, ?_, ⟨rfl, rest, ?_⟩, ?_⟩
  · have hend : m.ptr + m.len - x.ptr = byteLen (front ++ m.chars) := by
      rw [byteLen_append, Str.len]
      omega
    have hlen : x.len = byteLen (front ++ m.chars) + byteLen rest := by
      rw [Str.len, hx, ← hrest, byteLen_append, byteLen_append, byteLen_append]
      omega
    rw [through, if_pos ⟨by omega, by omega⟩, sliceTo, hend, hx, ← hrest, ← List.append_assoc,
      splitBytes_append]
  · rw [List.append_assoc, hrest, hx]
  · intro hnil
    obtain ⟨hfront, hmnil⟩ := List.append_eq_nil_iff.mp hnil
    exact ⟨hmnil, by rw [hx, hfront, List.nil_append]⟩

end Str

end Urnest.RufParser
