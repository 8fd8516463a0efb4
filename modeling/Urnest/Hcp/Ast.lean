import Mathlib.Data.List.Basic
import Mathlib.Tactic.Common

/-!
# Syntax trees of a text

A position (`I`) is the number of characters in front of it (`offset_`), so that it means
something in one text only, and so does an item: it is a range of the text, with a range for
each of its children. `Tiles` says that items lie side by side without a gap, all the way down. Then
their texts put together are the text that they lie on (`Tiles.reconstruct_eq`).
-/

namespace Urnest.Hcp

/-- `column_` of an iterator that started at the beginning of the text: from one, behind each
end of line. -/
def column (text : List Char) : Nat → Nat
  | 0 => 1
  | i + 1 => if text[i]? = some '\n' then 1 else column text i + 1

/-- `Item`, or one of its subclasses: which one is `type`. An item with children has at
least one. -/
inductive Item (τ : Type) where
  | leaf (begin_ end_ : Nat)
  | node (type : τ) (first : Item τ) (rest : List (Item τ))

/-- `IRs` -/
abbrev IRs (τ : Type) := List (Item τ)

variable {τ : Type}

namespace Item

def begin : Item τ → Nat
  | leaf b _ => b
  | node _ first _ => first.begin

mutual

def end_ : Item τ → Nat
  | leaf _ e => e
  | node _ first rest => endOfLast rest first.end_

/-- `items.back()->end()`, if there are any. -/
def endOfLast : List (Item τ) → Nat → Nat
  | [], e => e
  | x :: xs, _ => endOfLast xs x.end_

end

end Item

/-- `std::string(i.x_, j.x_)` -/
def slice (text : List Char) (i j : Nat) : List Char := (text.drop i).take (j - i)

def reconstruct (text : List Char) (x : Item τ) : List Char := slice text x.begin x.end_

/-- `reconstruct` of several items -/
def reconstructAll (text : List Char) (xs : IRs τ) : List Char := xs.flatMap (reconstruct text)

/-! ## Searching -/

mutual

/-- The item, if it is of the type, or else what is found in it. -/
def Item.outmost (isA : τ → Bool) : Item τ → IRs τ
  | .leaf _ _ => []
  | .node type first rest =>
    if isA type then [.node type first rest] else first.outmost isA ++ findAll isA rest

/-- What is found in items, in their order. -/
def findAll (isA : τ → Bool) : IRs τ → IRs τ
  | [] => []
  | x :: xs => x.outmost isA ++ findAll isA xs

end

mutual

theorem sizeOf_le_of_mem_outmost [SizeOf τ] {isA : τ → Bool} {y : Item τ} :
    ∀ {x : Item τ}, y ∈ x.outmost isA → sizeOf y ≤ sizeOf x
  | .leaf _ _, h => by simp [Item.outmost] at h
  | .node type first rest, h => by
    rw [Item.outmost] at h
    split_ifs at h
    · exact Nat.le_of_eq (congrArg sizeOf (List.mem_singleton.mp h))
    · rw [Item.node.sizeOf_spec]
      rcases List.mem_append.mp h with h | h
      · have hle := sizeOf_le_of_mem_outmost h
        omega
      · have hlt := sizeOf_lt_of_mem_findAll h
        omega

theorem sizeOf_lt_of_mem_findAll [SizeOf τ] {isA : τ → Bool} {y : Item τ} :
    ∀ {xs : IRs τ}, y ∈ findAll isA xs → sizeOf y < sizeOf xs
  | [], h => by simp [findAll] at h
  | x :: xs, h => by
    rw [findAll] at h
    rw [List.cons.sizeOf_spec]
    rcases List.mem_append.mp h with h | h
    · have hle := sizeOf_le_of_mem_outmost h
      omega
    · have hlt := sizeOf_lt_of_mem_findAll h
      omega

end

/-- `findChildrenOfType` of a class that may have subclasses: does not search in what it
finds. -/
def Item.findChildren (isA : τ → Bool) : Item τ → IRs τ
  | leaf _ _ => []
  | node _ first rest => findAll isA (first :: rest)

theorem sizeOf_lt_of_mem_findChildren [SizeOf τ] {isA : τ → Bool} {x y : Item τ} (h : y ∈ x.findChildren isA) :
    sizeOf y < sizeOf x := by
  cases x with
  | leaf b e => cases h
  | node type first rest =>
    have hlt := sizeOf_lt_of_mem_findAll h
    rw [List.cons.sizeOf_spec] at hlt
    rw [Item.node.sizeOf_spec]
    omega

theorem findAll_append (isA : τ → Bool) (xs ys : IRs τ) :
    findAll isA (xs ++ ys) = findAll isA xs ++ findAll isA ys := by
  induction xs with
  | nil => rfl
  | cons x xs ih =>
    rw [List.cons_append, findAll, findAll, ih, List.append_assoc]

/-- The items lie side by side from the first position to the second, and so do the children
of each. -/
inductive Tiles : Nat → IRs τ → Nat → Prop where
  | nil (i : Nat) : Tiles i [] i
  | leaf {i k j : Nat} {xs : IRs τ} : i ≤ k → Tiles k xs j → Tiles i (.leaf i k :: xs) j
  | node {i k j : Nat} {type : τ} {first : Item τ} {rest xs : IRs τ} :
    Tiles i (first :: rest) k → Tiles k xs j → Tiles i (.node type first rest :: xs) j

namespace Tiles

theorem le {i j : Nat} {xs : IRs τ} (h : Tiles i xs j) : i ≤ j := by
  induction h with
  | nil i => exact Nat.le_refl i
  | leaf hle _ ih => exact Nat.le_trans hle ih
  | node _ _ ihinner ih => exact Nat.le_trans ihinner ih

theorem append {i k j : Nat} {xs ys : IRs τ} (hx : Tiles i xs k) (hy : Tiles k ys j) :
    Tiles i (xs ++ ys) j := by
  induction hx with
  | nil i => exact hy
  | leaf hle _ ih => exact .leaf hle (ih hy)
  | node hinner _ _ ih => exact .node hinner (ih hy)

/-- One item from one position to another. -/
theorem single {i j : Nat} (h : i ≤ j) : Tiles i [(.leaf i j : Item τ)] j := .leaf h (.nil j)

/-- Where the items begin and end. -/
theorem ends {i j : Nat} {x : Item τ} {xs : IRs τ} (h : Tiles i (x :: xs) j) :
    x.begin = i ∧ Tiles i [x] x.end_ ∧ Tiles x.end_ xs j := by
  generalize hys : x :: xs = ys at h
  induction h generalizing x xs with
  | nil i => cases hys
  | @leaf i k j zs hle htail _ =>
    cases hys
    exact ⟨rfl, .leaf hle (.nil k), htail⟩
  | @node i k j type first rest zs hinner htail ihinner _ =>
    cases hys
    obtain ⟨hbegin, -, hrest⟩ := ihinner rfl
    -- the last of the children is where the node ends
    have hlast : ∀ {m e : Nat} {zs : IRs τ}, Tiles m zs e → Item.endOfLast zs m = e := by
      intro m e zs hzs
      induction hzs with
      | nil i => rfl
      | leaf _ _ ih => exact ih
      | @node i k j type first rest zs _ _ ihinner ih =>
        rw [Item.endOfLast, Item.end_]
        rw [Item.endOfLast] at ihinner
        rw [ihinner, ih]
    have hend : (Item.node type first rest).end_ = k := hlast hrest
    exact ⟨hbegin, hend ▸ .node hinner (.nil k), hend ▸ htail⟩

theorem begin_eq {i j : Nat} {x : Item τ} {xs : IRs τ} (h : Tiles i (x :: xs) j) : x.begin = i :=
  h.ends.1

/-- Each item begins where the one before it ends. -/
theorem tail {i j : Nat} {x : Item τ} {xs : IRs τ} (h : Tiles i (x :: xs) j) : Tiles x.end_ xs j :=
  h.ends.2.2

/-- The last one ends where they all do. -/
theorem end_eq {i j : Nat} {x : Item τ} (h : Tiles i [x] j) : x.end_ = j := by
  have htail := h.tail
  generalize hxs : ([] : IRs τ) = xs at htail
  cases htail with
  | nil => rfl
  | leaf => cases hxs
  | node => cases hxs

/-- So do the children of an item. -/
theorem children {i j : Nat} {type : τ} {first : Item τ} {rest xs : IRs τ}
    (h : Tiles i (.node type first rest :: xs) j) :
    Tiles i (first :: rest) (Item.node type first rest).end_ := by
  have hnode := h.ends.2.1
  generalize (Item.node type first rest).end_ = k at hnode
  cases hnode with
  | node hinner htail =>
    cases htail
    exact hinner

theorem slice_append (text : List Char) {i k j : Nat} (hik : i ≤ k) (hkj : k ≤ j) :
    slice text i k ++ slice text k j = slice text i j := by
  obtain ⟨m, rfl⟩ := Nat.exists_eq_add_of_le hik
  obtain ⟨n, rfl⟩ := Nat.exists_eq_add_of_le hkj
  have hlength : i + m + n - i = m + n := by omega
  rw [slice, slice, slice, hlength, Nat.add_sub_cancel_left, Nat.add_sub_cancel_left,
    List.take_add, List.drop_drop]

/-- Nothing of the text is lost, and nothing comes twice. -/
theorem reconstruct_eq (text : List Char) {i j : Nat} {xs : IRs τ} (h : Tiles i xs j) :
    reconstructAll text xs = slice text i j := by
  induction xs generalizing i with
  | nil =>
    cases h
    rw [slice, Nat.sub_self]
    rfl
  | cons x xs ih =>
    obtain ⟨hbegin, hx, hxs⟩ := h.ends
    rw [reconstructAll, List.flatMap_cons, ← reconstructAll, ih hxs, reconstruct, hbegin]
    exact slice_append text hx.le hxs.le

end Tiles

end Urnest.Hcp
