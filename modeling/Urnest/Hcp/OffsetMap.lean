import Urnest.Hcp.Streams
import Urnest.Lib.Ordered

/-!
# From an output back to its source

`hcp-map-to-source` looks an offset up in the map that a stream has made: the last entry that is
not above it says where the bytes from there on were copied from.

A stream makes an entry where a copy does not go on from the last one. Nothing that is written
later comes before an entry, so what the map says of the bytes already written stays as it was. But
there is one entry for an output offset: after an empty range from elsewhere, a range from
elsewhere again finds the entry there.
-/

namespace Urnest.Hcp.Split

open Lib

/-! ## `hcp-map-to-source` -/

/-- The source offset that the last entry not above an output offset gives for it -/
def lookupIn (offsetMap : List (Int × Int)) (offset : Int) : Option Int :=
  (offsetMap.takeWhile fun p => p.1 ≤ offset).getLast?.map fun p => offset - p.1 + p.2

/-- The pairs of a map, and an entry before all of them; there is none for what is before that. -/
def mapToSource (offsetPairs : List (Int × Int)) (offset : Int) : Option Int :=
  lookupIn (OrderedBy.ofList ((-1, -1) :: offsetPairs) : OrderedBy Prod.fst).toList offset

/-- The pairs that are written of a stream's map -/
def OStream.offsetPairs (o : OStream) : List (Int × Int) :=
  o.sourceOffsetMap.reverse.map fun p => ((p.1 : Int), (p.2 : Int))

/-! ## Copying -/

/-- What a stream is given: text of its own, or a range of the source. -/
inductive Piece (text : List Char) where
  | text (x : List Char)
  | range (begin_ end_ : Nat) (le : begin_ ≤ end_) (le_length : end_ ≤ text.length)

variable {text : List Char}

def OStream.copyPiece (o : OStream) : Piece text → Result OStream
  | .text x => .ok (o.write x)
  | .range begin_ end_ _ _ => o.copy text begin_ end_

def OStream.copyPieces (o : OStream) : List (Piece text) → Result OStream
  | [] => .ok o
  | x :: xs => do
    let o ← o.copyPiece x
    copyPieces o xs

/-- Where each byte that is written comes from in the source, if it does -/
def Piece.origins : Piece text → List (Option Nat)
  | .text x => List.replicate x.length none
  | .range begin_ end_ _ _ => (List.range' begin_ (end_ - begin_)).map some

/-- No assertion fires, and every byte from the source is found there. -/
def Traceable (xs : List (Piece text)) : Prop :=
  ∃ o, (OStream.opened []).copyPieces xs = .ok o ∧
    ∀ (k source : Nat), (xs.flatMap Piece.origins)[k]? = some (some source) →
      mapToSource o.offsetPairs k = some (source : Int)

/-- No range from elsewhere comes where an empty one from elsewhere has just been copied.
`position` is where the last range and the text since have ended. -/
def NeverTwiceElsewhere (position : Nat) (jumped : Bool) : List (Piece text) → Prop
  | [] => True
  | .text x :: xs => NeverTwiceElsewhere (position + x.length) (jumped && x.isEmpty) xs
  | .range begin_ end_ _ _ :: xs =>
    (begin_ ≠ position → jumped = false) ∧
      NeverTwiceElsewhere end_ (begin_ == end_ && (jumped || begin_ != position)) xs

/-! ## The map -/

theorem lookupIn_append {xs ys : List (Int × Int)} {k : Int} (h : ∀ y ∈ ys, k < y.1) :
    lookupIn (xs ++ ys) k = lookupIn xs k := by
  have hys : ys.takeWhile (fun p => p.1 ≤ k) = [] := by
    cases ys with
    | nil => rfl
    | cons y ys =>
      have hy := h y (List.mem_cons_self ..)
      rw [List.takeWhile_cons_of_neg]
      simpa using hy
  rw [lookupIn, lookupIn, List.takeWhile_append, hys, List.append_nil]
  split_ifs with hall
  · rw [(List.takeWhile_prefix _).eq_of_length hall]
  · rfl

theorem lookupIn_last {xs : List (Int × Int)} {y : Int × Int} {k : Int}
    (h : ∀ x ∈ xs ++ [y], x.1 ≤ k) : lookupIn (xs ++ [y]) k = some (k - y.1 + y.2) := by
  rw [lookupIn, List.takeWhile_eq_self_iff.mpr (by simpa using h), List.getLast?_concat,
    Option.map_some]

namespace OStream

/-- The entries are in the order they were made. -/
def Sorted (o : OStream) : Prop := o.sourceOffsetMap.Pairwise fun p q => q.1 < p.1

variable {o : OStream} {b e k : Nat}

theorem Sane.all_le (h : o.Sane) (hsorted : o.Sorted) :
    ∀ p ∈ o.sourceOffsetMap, p.1 ≤ o.outputOffset := by
  obtain ⟨s, outputOffset, map⟩ := o
  cases map with
  | nil => exact fun p hp => nomatch hp
  | cons q map =>
    have hhead : q.1 ≤ outputOffset := h q rfl
    intro p hp
    rcases List.mem_cons.mp hp with rfl | hp
    · exact hhead
    · exact ((List.pairwise_cons.mp hsorted).1 p hp).le.trans hhead

theorem mem_offsetPairs {p : Int × Int} :
    p ∈ o.offsetPairs ↔ ∃ q ∈ o.sourceOffsetMap, ((q.1 : Int), (q.2 : Int)) = p := by
  rw [offsetPairs, List.mem_map]
  simp only [List.mem_reverse]

/-- What is written next is looked up where it is copied from. -/
theorem Sane.lookupIn_next (h : o.Sane) (hsorted : o.Sorted) (j : Nat) :
    lookupIn ((-1, -1) :: o.offsetPairs) (o.outputOffset + j : Nat)
      = some ((o.mappedOffset + j : Nat) : Int) := by
  have hle : ∀ p ∈ (-1, -1) :: o.offsetPairs, p.1 ≤ ((o.outputOffset + j : Nat) : Int) := by
    intro p hp
    rcases List.mem_cons.mp hp with rfl | hp
    · dsimp only
      omega
    · obtain ⟨q, hq, rfl⟩ := mem_offsetPairs.mp hp
      have hq := h.all_le hsorted q hq
      dsimp only
      omega
  obtain ⟨s, outputOffset, map⟩ := o
  cases map with
  | nil =>
    rw [mappedOffset]
    refine (@lookupIn_last [] _ _ hle).trans (congrArg some ?_)
    dsimp only
    omega
  | cons q map =>
    have hq : q.1 ≤ outputOffset := h q rfl
    have hpairs : offsetPairs ⟨s, outputOffset, q :: map⟩
        = offsetPairs ⟨s, outputOffset, map⟩ ++ [((q.1 : Int), (q.2 : Int))] := by
      simp [offsetPairs]
    rw [hpairs, ← List.cons_append] at hle ⊢
    refine (lookupIn_last hle).trans (congrArg some ?_)
    simp only [mappedOffset]
    omega

/-- An entry for what is written next does not change what is found for what has been. -/
theorem Loose.insert_spec (h : o.Loose) (hsorted : o.Sorted) (b : Nat) :
    (o.insert b).Sorted ∧ (o.insert b).outputOffset = o.outputOffset ∧
      ∀ k < o.outputOffset, lookupIn ((-1, -1) :: (o.insert b).offsetPairs) k
        = lookupIn ((-1, -1) :: o.offsetPairs) k := by
  have hall := h.sane.all_le hsorted
  obtain ⟨s, outputOffset, map⟩ := o
  have hinsert : OStream.insert ⟨s, outputOffset, map⟩ b
      = ⟨s, outputOffset, (outputOffset, b) :: map⟩ := by
    cases map with
    | nil => rfl
    | cons q map => exact if_neg (Nat.ne_of_lt (h q rfl))
  rw [hinsert]
  refine ⟨List.pairwise_cons.mpr ⟨fun p hp => ?_, hsorted⟩, rfl, fun k hk => ?_⟩
  · cases map with
    | nil => cases hp
    | cons q map =>
      have hq : q.1 < outputOffset := h q rfl
      rcases List.mem_cons.mp hp with rfl | hp
      · exact hq
      · exact ((List.pairwise_cons.mp hsorted).1 p hp).trans hq
  · have hpairs : offsetPairs ⟨s, outputOffset, (outputOffset, b) :: map⟩
        = offsetPairs ⟨s, outputOffset, map⟩ ++ [((outputOffset : Int), (b : Int))] := by
      simp [offsetPairs]
    rw [hpairs, ← List.cons_append]
    refine lookupIn_append fun y hy => ?_
    rw [List.mem_singleton.mp hy]
    exact Int.ofNat_lt.mpr hk

end OStream

/-! ## Runs -/

/-- What has been written can be traced, and where the stream is. -/
structure Traced (o : OStream) (origins : List (Option Nat)) (position : Nat) (jumped : Bool) :
    Prop where
  sane : o.Sane
  mapped : o.mappedOffset = position
  jumped : jumped = false ↔ o.Loose
  length : o.outputOffset = origins.length
  sorted : o.Sorted
  found : ∀ (k source : Nat), origins[k]? = some (some source) →
    lookupIn ((-1, -1) :: o.offsetPairs) k = some (source : Int)

variable {o : OStream} {origins : List (Option Nat)} {position : Nat} {jumped : Bool}

theorem Traced.write (h : Traced o origins position jumped) (x : List Char) :
    Traced (o.write x) (origins ++ List.replicate x.length none) (position + x.length)
      (jumped && x.isEmpty) where
  sane := h.sane.write x
  mapped := by rw [h.sane.mappedOffset_write, h.mapped]
  jumped := by
    cases x with
    | nil => simpa [OStream.loose_write_nil] using h.jumped
    | cons c x => simpa using h.sane.loose_write (List.cons_ne_nil c x)
  length := by
    rw [List.length_append, List.length_replicate, ← h.length]
    rfl
  sorted := h.sorted
  found := by
    intro k source hk
    rw [List.getElem?_append] at hk
    split_ifs at hk with hlt
    · exact h.found k source hk
    · rw [List.getElem?_replicate] at hk
      split_ifs at hk
      cases hk

/-- A range that is written where the stream is mapped to can be traced. -/
theorem found_range {b n : Nat} (hsane : o.Sane) (hsorted : o.Sorted) (hmapped : o.mappedOffset = b)
    (hlength : o.outputOffset = origins.length)
    (hfound : ∀ (k source : Nat), origins[k]? = some (some source) →
      lookupIn ((-1, -1) :: o.offsetPairs) k = some (source : Int)) (k source : Nat)
    (hk : (origins ++ (List.range' b n).map some)[k]? = some (some source)) :
    lookupIn ((-1, -1) :: o.offsetPairs) k = some (source : Int) := by
  rw [List.getElem?_append] at hk
  split_ifs at hk with hlt
  · exact hfound k source hk
  · have hnext := hsane.lookupIn_next hsorted (k - origins.length)
    rw [hmapped, hlength, Nat.add_sub_cancel' (Nat.le_of_not_lt hlt)] at hnext
    rw [hnext]
    obtain ⟨source', hsource', heq⟩ : ∃ s', (List.range' b n)[k - origins.length]? = some s' ∧
        some s' = some source := by
      rw [List.getElem?_map] at hk
      exact Option.map_eq_some_iff.mp hk
    obtain rfl := Option.some.inj heq
    obtain ⟨hrange, hvalue⟩ := List.getElem?_eq_some_iff.mp hsource'
    rw [List.getElem_range', Nat.one_mul] at hvalue
    rw [hvalue]

theorem Traced.copy {b e : Nat} (h : Traced o origins position jumped) (hle : b ≤ e)
    (hlen : e ≤ text.length) (hfree : b ≠ position → jumped = false) :
    ∃ o', o.copy text b e = .ok o' ∧
      Traced o' (origins ++ (List.range' b (e - b)).map some) e
        (b == e && (jumped || b != position)) := by
  have hslice := OStream.length_slice (b := b) hlen
  have hjumped : ∀ o', OStream.Copied o b e o' →
      ((b == e && (jumped || b != position)) = false ↔ o'.Loose) := by
    intro o' hcopied
    rw [hcopied.loose_iff, ← h.jumped, h.mapped]
    by_cases hbe : b = e
    · by_cases hb : b = position
      · subst hb
        simp [hbe]
      · have he : ¬ e = position := fun heq => hb (hbe.trans heq)
        have he' : ¬ position = e := fun heq => he heq.symm
        simp [hbe, he, he']
    · have hlt : b < e := Nat.lt_of_le_of_ne hle hbe
      simp [hbe, hlt]
  by_cases hb : b = position
  · have hmapped : o.mappedOffset = b := h.mapped.trans hb.symm
    obtain ⟨o', hcopy, hcopied⟩ := OStream.Ready.copy ⟨h.sane, .inl hmapped⟩ hle hlen
    refine ⟨o', hcopy, hcopied.sane, hcopied.mapped, hjumped o' hcopied, ?_, ?_, ?_⟩
    all_goals
      obtain rfl : o.write (slice text b e) = o' :=
        Except.ok.inj ((OStream.copy_aligned text e hmapped).symm.trans hcopy)
    · rw [List.length_append, List.length_map, List.length_range', ← h.length, ← hslice]
      rfl
    · exact h.sorted
    · exact found_range (o := o) h.sane h.sorted hmapped h.length h.found
  · have hloose := h.jumped.mp (hfree hb)
    have hne : o.mappedOffset ≠ b := fun heq => hb (heq.symm.trans h.mapped)
    obtain ⟨o', hcopy, hcopied⟩ := (hloose.ready b).copy hle hlen
    obtain ⟨hsane, -, hmapped⟩ := hloose.insert b
    obtain ⟨hsorted, hoffset, hfound⟩ := hloose.insert_spec h.sorted b
    refine ⟨o', hcopy, hcopied.sane, hcopied.mapped, hjumped o' hcopied, ?_, ?_, ?_⟩
    all_goals
      obtain rfl : (o.insert b).write (slice text b e) = o' :=
        Except.ok.inj ((hloose.copy text e hne).symm.trans hcopy)
    · rw [List.length_append, List.length_map, List.length_range', ← h.length, ← hslice, ← hoffset]
      rfl
    · exact hsorted
    · refine found_range (o := o.insert b) hsane hsorted hmapped (hoffset.trans h.length)
        fun k source hk => ?_
      have hlt : k < o.outputOffset := by
        rw [h.length]
        exact (List.getElem?_eq_some_iff.mp hk).1
      rw [hfound k hlt]
      exact h.found k source hk

theorem copyPieces_cons {o o' : OStream} {x : Piece text} (h : o.copyPiece x = .ok o')
    (xs : List (Piece text)) : o.copyPieces (x :: xs) = o'.copyPieces xs := by
  rw [OStream.copyPieces, h]
  rfl

/-- Along a run everything stays traceable, and a run that breaks the condition stops. -/
theorem Traced.copyPieces (xs : List (Piece text)) (h : Traced o origins position jumped) :
    (NeverTwiceElsewhere position jumped xs ∧ ∃ o' position' jumped', o.copyPieces xs = .ok o' ∧
      Traced o' (origins ++ xs.flatMap Piece.origins) position' jumped') ∨
    ¬ NeverTwiceElsewhere position jumped xs ∧ ∃ a, o.copyPieces xs = .error a := by
  induction xs generalizing o origins position jumped with
  | nil => exact .inl ⟨trivial, o, position, jumped, rfl, by simpa using h⟩
  | cons x xs ih =>
    rw [List.flatMap_cons, ← List.append_assoc]
    cases x with
    | text x => exact ih (h.write x)
    | range b e hle hlen =>
      by_cases hfree : b ≠ position → jumped = false
      · obtain ⟨o', hcopy, htraced⟩ := h.copy hle hlen hfree
        rw [copyPieces_cons (x := .range b e hle hlen) hcopy, NeverTwiceElsewhere,
          and_iff_right hfree]
        exact ih htraced
      · obtain ⟨hb, hjumped⟩ := Classical.not_imp.mp hfree
        have hloose : ¬ o.Loose := fun hl => hjumped (h.jumped.mpr hl)
        have hne : o.mappedOffset ≠ b := fun heq => hb (heq.symm.trans h.mapped)
        obtain ⟨a, ha⟩ := h.sane.copy_error text e hloose hne
        refine .inr ⟨fun hnever => hfree hnever.1, a, ?_⟩
        rw [OStream.copyPieces, OStream.copyPiece, ha]
        rfl

theorem traced_opened : Traced (OStream.opened []) [] 0 false where
  sane := fun _ hp => nomatch hp
  mapped := rfl
  jumped := iff_of_true rfl fun _ hp => nomatch hp
  length := rfl
  sorted := .nil
  found := fun _ _ hk => nomatch hk

/-- The pairs come in order, behind the one that is there already. -/
theorem mapToSource_eq (h : o.Sorted) (k : Int) :
    mapToSource o.offsetPairs k = lookupIn ((-1, -1) :: o.offsetPairs) k := by
  rw [mapToSource, OrderedBy.toList_ofList]
  refine List.pairwise_cons.mpr ⟨fun p hp => ?_, ?_⟩
  · obtain ⟨q, -, rfl⟩ := OStream.mem_offsetPairs.mp hp
    dsimp only
    omega
  · rw [OStream.offsetPairs, List.pairwise_map, List.pairwise_reverse]
    exact h.imp fun hlt => Int.ofNat_lt.mpr hlt

/-- What is copied is found where it was copied from, exactly if no range from elsewhere comes
right behind an empty one from elsewhere. -/
theorem traceable_iff (xs : List (Piece text)) :
    Traceable xs ↔ NeverTwiceElsewhere 0 false xs := by
  rcases traced_opened.copyPieces xs with ⟨hnever, o, _, _, hrun, htraced⟩ | ⟨hnever, a, hrun⟩
  · refine iff_of_true ⟨o, hrun, fun k source hk => ?_⟩ hnever
    rw [mapToSource_eq htraced.sorted]
    exact htraced.found k source hk
  · refine iff_of_false ?_ hnever
    rintro ⟨o, ho, -⟩
    exact nomatch hrun.symm.trans ho

/-- An empty range from elsewhere, and a range from elsewhere again -/
def emptyThenBack : List (Piece "abc".toList) :=
  [.range 2 2 (by decide) (by decide), .range 1 2 (by decide) (by decide)]

theorem not_traceable : ¬ Traceable emptyThenBack := by
  rintro ⟨o, ho, -⟩
  have herror : (OStream.opened []).copyPieces emptyThenBack = .error (.mappedOffset 2 1) := rfl
  exact nomatch herror.symm.trans ho

end Urnest.Hcp.Split
