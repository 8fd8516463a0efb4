import Urnest.Hcp.Directive
import Urnest.Hcp.Shapes

/-!
# Commenting out throw clauses

hcp-remove-throw-clauses writes the text of a file with each of its non-empty throw clauses between
`/*` and `*/`. A comment in the clause would end there too early, and so `blankCcomments` makes
the delimiters of comments in it blank. It looks for `/*`, and then for `*/`, whatever the text
between them is. But a `*/` may come where none is open: in a line comment, or behind a pointer. The
comment ends there (`only_comments_out_iff`).
-/

namespace Urnest.Hcp.RemoveThrowClauses

open Lib Cpp Split Parsing

variable {text : List Char}

/-! ## The tool -/

/-- `blankCcomments`, outside or inside of a comment -/
def blankFrom : Bool → List Char → List Char
  | false, '/' :: '*' :: x => ' ' :: ' ' :: blankFrom true x
  | true, '*' :: '/' :: x => ' ' :: ' ' :: blankFrom false x
  | inside, c :: x => c :: blankFrom inside x
  | _, [] => []

def blankCcomments (s : List Char) : List Char := blankFrom false s

/-- What is written: text of the source, or a clause in a comment -/
inductive Written where
  | source (x : List Char)
  | comment (tls : List Char)

def Written.output : Written → List Char
  | source x => x
  | comment tls => ['/', '*'] ++ blankCcomments tls ++ ['*', '/']

/-- The loop of `main` over the throw lists, from `i` on -/
def writeFrom (text : List Char) (i end_ : Nat) : IRs ItemType → Result (List Written)
  | [] => .ok [.source (slice text i end_)]
  | tl :: throwLists => do
    let tw ← findOnlyChildOfType .ThrowListTrailingWhite tl
    let rest ← writeFrom text tw.begin end_ throwLists
    return .source (slice text i tl.begin) :: .comment (slice text tl.begin tw.begin) :: rest

/-- `main`, of the items of the root -/
def main (text : List Char) (root : IRs ItemType) : Result (List Written) :=
  writeFrom text ((root.map Item.begin).headD 0) (Item.endOfLast root text.length)
    (Item.outermostOf .ThrowList root)

/-! ## What it is for -/

/-- The text is parsed to the root's items. -/
def ParsesTo (text : List Char) (root : IRs ItemType) : Prop :=
  Answers (body grammar text false) (.parse file 0) (.ok (root, text.length))

/-- The range of a throw clause, without the white space behind it -/
def clauseOf (tl : Item ItemType) : Nat × Nat :=
  (tl.begin, ((tl.items.getLast?).map Item.begin).getD tl.end_)

def clauses (root : IRs ItemType) : List (Nat × Nat) :=
  (Item.outermostOf .ThrowList root).map clauseOf

/-- The text less some ranges of it -/
def without (ranges : List (Nat × Nat)) (text : List Char) : List Char :=
  ((List.range text.length).filter fun k => ¬ ∃ r ∈ ranges, r.1 ≤ k ∧ k < r.2).filterMap (text[·]?)

/-- What is left of the output without the comments -/
def uncommented (ws : List Written) : List Char :=
  ws.flatMap fun
    | .source x => x
    | .comment _ => []

/-- Each comment ends where its `*/` has been written: there is none before. -/
def Closed : List Written → Prop
  | [] => True
  | .source _ :: ws => Closed ws
  | .comment tls :: ws =>
    search AtStarSlash (blankCcomments tls ++ ['*', '/'] ++ ws.flatMap Written.output)
      = some (['*', '/'] ++ ws.flatMap Written.output) ∧ Closed ws

/-- What is in the comments -/
def commented (ws : List Written) : List (List Char) :=
  ws.filterMap fun
    | .source _ => none
    | .comment tls => some tls

/-- Each clause is in a comment of its own, which ends behind it, and the rest of the text is as it
was. -/
def OnlyCommentsOut (text : List Char) : Prop :=
  ∀ root, ParsesTo text root → ∃ ws, main text root = .ok ws ∧ Closed ws ∧
    commented ws = (clauses root).map (fun r => slice text r.1 r.2) ∧
    uncommented ws = without (clauses root) text

/-- A `*/` outside of a comment, the `/` of which does not open one -/
def looseFrom : Bool → List Char → Bool
  | false, '/' :: '*' :: x => looseFrom true x
  | true, '*' :: '/' :: x => looseFrom false x
  | false, '*' :: '/' :: x => x.head? ≠ some '*' || looseFrom false ('/' :: x)
  | inside, _ :: x => looseFrom inside x
  | _, [] => false

def HasLooseEnd (tls : List Char) : Prop := looseFrom false tls = true

/-- In no throw clause a `*/` comes that ends no comment. -/
def NoLooseEnds (text : List Char) : Prop :=
  ∀ root, ParsesTo text root → ∀ r ∈ clauses root, ¬ HasLooseEnd (slice text r.1 r.2)

/-! ## Blanking -/

theorem blankFrom_other {inside : Bool} {c : Char} {x : List Char}
    (hopen : inside = false → c = '/' → x.head? ≠ some '*')
    (hclose : inside = true → c = '*' → x.head? ≠ some '/') :
    blankFrom inside (c :: x) = c :: blankFrom inside x := by
  rw [blankFrom]
  · rintro y rfl rfl rfl
    exact hopen rfl rfl rfl
  · rintro y rfl rfl rfl
    exact hclose rfl rfl rfl

/-- A `/` comes first only if it did, and opens nothing. -/
theorem blankFrom_slash {inside : Bool} {x y : List Char}
    (h : (blankFrom inside x ++ '*' :: y).head? = some '/') :
    ∃ x', x = '/' :: x' ∧ (inside = false → x'.head? ≠ some '*') := by
  rcases x with _ | ⟨c, x⟩
  · rw [blankFrom] at h
    cases h
  by_cases hopen : inside = false ∧ c = '/' ∧ x.head? = some '*'
  · obtain ⟨rfl, rfl, hx⟩ := hopen
    obtain ⟨x, rfl⟩ := List.head?_eq_some_iff.mp hx
    rw [blankFrom] at h
    cases h
  by_cases hclose : inside = true ∧ c = '*' ∧ x.head? = some '/'
  · obtain ⟨rfl, rfl, hx⟩ := hclose
    obtain ⟨x, rfl⟩ := List.head?_eq_some_iff.mp hx
    rw [blankFrom] at h
    cases h
  rw [blankFrom_other (fun hi hc hx => hopen ⟨hi, hc, hx⟩) fun hi hc hx => hclose ⟨hi, hc, hx⟩] at h
  obtain rfl : c = '/' := Option.some.inj h
  exact ⟨x, rfl, fun hi hx => hopen ⟨hi, rfl, hx⟩⟩

theorem search_skip {c : Char} {y : List Char} (h : c = '*' → y.head? ≠ some '/') :
    search AtStarSlash (c :: y) = search AtStarSlash y := by
  rw [search, if_neg]
  rintro ⟨rest, hrest⟩
  cases hrest
  exact h rfl rfl

theorem search_blank (y : List Char) : search AtStarSlash (' ' :: y) = search AtStarSlash y :=
  search_skip fun h => absurd h (by decide)

/-- The first `*/` is the one that has been added, exactly if none comes outside of a comment. -/
theorem closed_iff (inside : Bool) (x rest : List Char) :
    search AtStarSlash (blankFrom inside x ++ '*' :: '/' :: rest) = some ('*' :: '/' :: rest) ↔
      looseFrom inside x = false := by
  fun_induction looseFrom inside x with
  | case1 x ih =>
    rw [blankFrom, List.cons_append, List.cons_append, search_blank, search_blank]
    exact ih
  | case2 x ih =>
    rw [blankFrom, List.cons_append, List.cons_append, search_blank, search_blank]
    exact ih
  | case3 x ih =>
    have hstar : blankFrom false ('*' :: '/' :: x) = '*' :: blankFrom false ('/' :: x) :=
      blankFrom_other (fun _ h => absurd h (by decide)) nofun
    rw [hstar, List.cons_append]
    by_cases hx : x.head? = some '*'
    · rw [search_skip, ih]
      · simp [hx]
      · intro _ hslash
        obtain ⟨x', heq, hopen⟩ := blankFrom_slash hslash
        cases heq
        exact hopen rfl hx
    -- the two characters are there, and are found
    · have hslash : blankFrom false ('/' :: x) = '/' :: blankFrom false x :=
        blankFrom_other (fun _ _ => hx) nofun
      rw [hslash, List.cons_append, search_of_pos ⟨_, rfl⟩]
      refine iff_of_false (fun h => ?_) (by simp [hx])
      have hlength := congrArg List.length (Option.some.inj h)
      simp only [List.length_cons, List.length_append] at hlength
      omega
  | case4 inside c x hopen hclose hloose ih =>
    rw [blankFrom_other, List.cons_append, search_skip]
    · exact ih
    · rintro rfl hslash
      obtain ⟨x', rfl, -⟩ := blankFrom_slash hslash
      cases inside with
      | false => exact hloose x' rfl rfl rfl
      | true => exact hclose x' rfl rfl rfl
    · rintro rfl rfl hx
      obtain ⟨x, rfl⟩ := List.head?_eq_some_iff.mp hx
      exact hopen x rfl rfl rfl
    · rintro rfl rfl hx
      obtain ⟨x, rfl⟩ := List.head?_eq_some_iff.mp hx
      exact hclose x rfl rfl rfl
  | case5 inside =>
    rw [blankFrom, List.nil_append, search_of_pos ⟨rest, rfl⟩]
    exact iff_of_true rfl rfl

/-! ## The clauses -/

/-- The production of throw lists: the white space comes last. -/
def makesThrowList : PR → Bool
  | .and _ first rest =>
    rest.length == 5 && Parser.madeAt .ThrowListTrailingWhite 5 (first :: rest)
  | _ => false

theorem file_makesThrowList : file.checks .ThrowList (fun _ => true) makesThrowList = true := by
  decide +kernel

theorem grammar_makesThrowList (name : Rule) :
    (grammar.parserOf name).checks .ThrowList (fun _ => true) makesThrowList = true := by
  cases name <;> decide +kernel

/-- Each throw list has its white space at its end, and no other in it. -/
theorem throwList_whitespace {root : IRs ItemType} {j : Nat}
    (h : Derives grammar (.one file) 0 root j) {tl : Item ItemType}
    (htl : tl ∈ Item.outermostOf .ThrowList root) :
    ∃ before tw, tl.items = before ++ [tw] ∧
      findChildrenOfType .ThrowListTrailingWhite tl = [tw] := by
  obtain ⟨x, i, xs, k, hgood, hx, rfl⟩ :=
    h.of_checks (fun name _ => grammar_makesThrowList name) file_makesThrowList tl htl
  obtain ⟨before, tw, hxs, htw⟩ : ∃ before tw, xs = before ++ [tw] ∧
      Item.outermostOf .ThrowListTrailingWhite xs = [tw] := by
    cases x with
    | and id first rest =>
      rw [makesThrowList, Bool.and_eq_true, beq_iff_eq] at hgood
      obtain ⟨before, tw, after, k, l, rfl, -, htw, -, hafter⟩ :=
        (Derives.and_iff.mp hx).of_madeAt hgood.2
      have hlast : (first :: rest).drop 6 = [] :=
        List.drop_eq_nil_of_le (Nat.le_of_eq (congrArg (· + 1) hgood.1))
      rw [hlast] at hafter
      obtain ⟨rfl, -⟩ := Derives.all_nil_iff.mp hafter
      exact ⟨before, tw, rfl, htw⟩
    | _ => cases hgood
  have hitems : (Item.composite .ThrowList i xs).items = xs := by
    cases xs with
    | nil => cases before <;> cases hxs
    | cons first rest => rfl
  refine ⟨before, tw, hitems.trans hxs, ?_⟩
  rw [findChildrenOfType, hitems, htw]

/-! ## Ranges in order -/

/-- Ranges one behind the other -/
def InOrder (i : Nat) : List (Nat × Nat) → Nat → Prop
  | [], j => i ≤ j
  | r :: rs, j => i ≤ r.1 ∧ r.1 ≤ r.2 ∧ InOrder r.2 rs j

theorem InOrder.le {i j : Nat} {rs : List (Nat × Nat)} (h : InOrder i rs j) : i ≤ j := by
  induction rs generalizing i with
  | nil => exact h
  | cons r rs ih => exact h.1.trans (h.2.1.trans (ih h.2.2))

theorem InOrder.mono {i i' j : Nat} {rs : List (Nat × Nat)} (hle : i ≤ i') (h : InOrder i' rs j) :
    InOrder i rs j := by
  cases rs with
  | nil => exact hle.trans h
  | cons r rs => exact ⟨hle.trans h.1, h.2⟩

theorem InOrder.append {i j k : Nat} {rs rs' : List (Nat × Nat)} (h : InOrder i rs k)
    (h' : InOrder k rs' j) : InOrder i (rs ++ rs') j := by
  induction rs generalizing i with
  | nil => exact h'.mono h
  | cons r rs ih => exact ⟨h.1, h.2.1, ih h.2.2⟩

/-- None of the ranges begins before the first. -/
theorem InOrder.le_of_mem {i j : Nat} {rs : List (Nat × Nat)} (h : InOrder i rs j) :
    ∀ r ∈ rs, i ≤ r.1 := by
  induction rs generalizing i with
  | nil => exact nofun
  | cons r rs ih =>
    intro q hq
    rcases List.mem_cons.mp hq with rfl | hq
    · exact h.1
    · exact h.1.trans (h.2.1.trans (ih h.2.2 q hq))

/-- A range of an item that begins where it does -/
def FrontOf (f : Item ItemType → Nat × Nat) (y : Item ItemType) : Prop :=
  (f y).1 = y.begin ∧ (f y).1 ≤ (f y).2 ∧ (f y).2 ≤ y.end_

mutual

theorem inOrder_outermost {type : ItemType} {f : Item ItemType → Nat × Nat} {x : Item ItemType}
    {i j : Nat} (h : Tiles i [x] j) (hf : ∀ y ∈ x.outermost type, FrontOf f y) :
    InOrder i ((x.outermost type).map f) j := by
  cases x with
  | leaf b e => exact h.le
  | node t first rest =>
    rw [Item.outermost] at hf ⊢
    split_ifs at hf ⊢
    · obtain ⟨hbegin, hle, hend⟩ := hf _ (.head _)
      rw [h.begin_eq] at hbegin
      rw [h.end_eq] at hend
      exact ⟨hbegin.ge, hle, hend⟩
    · have hchildren := h.children
      rw [h.end_eq] at hchildren
      obtain ⟨-, hfirst, hrest⟩ := hchildren.ends
      rw [List.map_append]
      exact (inOrder_outermost hfirst fun y hy => hf y (List.mem_append_left _ hy)).append
        (inOrder_outermostOf hrest fun y hy => hf y (List.mem_append_right _ hy))

theorem inOrder_outermostOf {type : ItemType} {f : Item ItemType → Nat × Nat}
    {xs : List (Item ItemType)} {i j : Nat} (h : Tiles i xs j)
    (hf : ∀ y ∈ Item.outermostOf type xs, FrontOf f y) :
    InOrder i ((Item.outermostOf type xs).map f) j := by
  cases xs with
  | nil => exact h.le
  | cons x xs =>
    obtain ⟨-, hx, hxs⟩ := h.ends
    rw [Item.outermostOf, List.map_append]
    exact (inOrder_outermost hx fun y hy => hf y (List.mem_append_left _ hy)).append
      (inOrder_outermostOf hxs fun y hy => hf y (List.mem_append_right _ hy))

end

theorem take_drop_eq (i n : Nat) :
    (text.drop i).take n = (List.range' i n).filterMap (text[·]?) := by
  induction n generalizing i with
  | zero => rw [List.take_zero, List.range'_zero, List.filterMap_nil]
  | succ n ih =>
    rw [List.range'_succ]
    by_cases hi : i < text.length
    · rw [List.drop_eq_getElem_cons hi, List.take_succ_cons, ih,
        List.filterMap_cons_some (List.getElem?_eq_getElem hi)]
    · have hle := Nat.le_of_not_lt hi
      rw [List.filterMap_cons_none (List.getElem?_eq_none hle), ← ih,
        List.drop_eq_nil_of_le hle, List.drop_eq_nil_of_le (hle.trans (Nat.le_succ i)),
        List.take_nil, List.take_nil]

theorem slice_eq (i j : Nat) :
    slice text i j = (List.range' i (j - i)).filterMap (text[·]?) := take_drop_eq i (j - i)

/-- What is in none of the ranges, from one offset to another -/
def withoutFrom (text : List Char) (rs : List (Nat × Nat)) (i j : Nat) : List Char :=
  ((List.range' i (j - i)).filter fun k => ¬ ∃ r ∈ rs, r.1 ≤ k ∧ k < r.2).filterMap (text[·]?)

theorem withoutFrom_append {rs : List (Nat × Nat)} {i j k : Nat} (hij : i ≤ j) (hjk : j ≤ k) :
    withoutFrom text rs i k = withoutFrom text rs i j ++ withoutFrom text rs j k := by
  have hrange : List.range' i (k - i) = List.range' i (j - i) ++ List.range' j (k - j) := by
    have happend := @List.range'_append_1 i (j - i) (k - j)
    rw [Nat.add_sub_cancel' hij] at happend
    rw [happend]
    congr 1
    omega
  rw [withoutFrom, hrange, List.filter_append, List.filterMap_append]
  rfl

/-- In front of all ranges nothing is left out. -/
theorem withoutFrom_front {rs : List (Nat × Nat)} {i j : Nat} (h : ∀ r ∈ rs, j ≤ r.1) :
    withoutFrom text rs i j = slice text i j := by
  rw [withoutFrom, slice_eq, List.filter_eq_self.mpr]
  intro k hk
  have hkj : k < i + (j - i) := (List.mem_range'_1.mp hk).2
  have hik : i ≤ k := (List.mem_range'_1.mp hk).1
  refine decide_eq_true ?_
  rintro ⟨r, hr, hle, -⟩
  have hjr := h r hr
  omega

/-- A range is left out itself. -/
theorem withoutFrom_range {rs : List (Nat × Nat)} {r : Nat × Nat} (h : r ∈ rs) :
    withoutFrom text rs r.1 r.2 = [] := by
  rw [withoutFrom, List.filter_eq_nil_iff.mpr, List.filterMap_nil]
  intro k hk
  obtain ⟨hle, hlt⟩ := List.mem_range'_1.mp hk
  have hkr : k < r.2 := by omega
  simpa using ⟨r.1, r.2, h, hle, hkr⟩

/-- What is behind a range is not in it. -/
theorem withoutFrom_behind {rs : List (Nat × Nat)} {r : Nat × Nat} (j : Nat) :
    withoutFrom text (r :: rs) r.2 j = withoutFrom text rs r.2 j := by
  rw [withoutFrom, withoutFrom]
  congr 1
  refine List.filter_congr fun k hk => ?_
  have hle : r.2 ≤ k := (List.mem_range'_1.mp hk).1
  have hiff : (∃ q ∈ r :: rs, q.1 ≤ k ∧ k < q.2) ↔ ∃ q ∈ rs, q.1 ≤ k ∧ k < q.2 := by
    rw [List.exists_mem_cons_iff, or_iff_right]
    exact fun hr => absurd hr.2 (Nat.not_lt.mpr hle)
  simp only [hiff]

/-! ## The output -/

/-- What is written for clauses with these ranges -/
def stitch (text : List Char) (i end_ : Nat) : List (Nat × Nat) → List Written
  | [] => [.source (slice text i end_)]
  | r :: rs =>
    .source (slice text i r.1) :: .comment (slice text r.1 r.2) :: stitch text r.2 end_ rs

theorem clauseOf_eq {tl tw : Item ItemType} {before : IRs ItemType}
    (h : tl.items = before ++ [tw]) : clauseOf tl = (tl.begin, tw.begin) := by
  rw [clauseOf, h, List.getLast?_concat]
  rfl

theorem writeFrom_eq (i end_ : Nat) (throwLists : IRs ItemType)
    (h : ∀ tl ∈ throwLists, ∃ before tw, tl.items = before ++ [tw] ∧
      findChildrenOfType .ThrowListTrailingWhite tl = [tw]) :
    writeFrom text i end_ throwLists = .ok (stitch text i end_ (throwLists.map clauseOf)) := by
  induction throwLists generalizing i with
  | nil => rfl
  | cons tl throwLists ih =>
    obtain ⟨before, tw, hitems, htw⟩ := h tl (.head _)
    rw [writeFrom, findOnlyChildOfType, htw, List.map_cons, stitch, clauseOf_eq hitems]
    change (writeFrom text tw.begin end_ throwLists >>= _) = _
    rw [ih _ fun tl' htl' => h tl' (.tail _ htl')]
    rfl

theorem commented_stitch (i end_ : Nat) (rs : List (Nat × Nat)) :
    commented (stitch text i end_ rs) = rs.map fun r => slice text r.1 r.2 := by
  induction rs generalizing i with
  | nil => rfl
  | cons r rs ih => exact congrArg (slice text r.1 r.2 :: ·) (ih r.2)

theorem uncommented_stitch {i end_ : Nat} {rs : List (Nat × Nat)} (h : InOrder i rs end_) :
    uncommented (stitch text i end_ rs) = withoutFrom text rs i end_ := by
  induction rs generalizing i with
  | nil =>
    rw [withoutFrom_front fun r hr => absurd hr List.not_mem_nil]
    exact List.append_nil _
  | cons r rs ih =>
    obtain ⟨hle, hr, hrest⟩ := h
    have hfront : ∀ q ∈ r :: rs, r.1 ≤ q.1 :=
      List.forall_mem_cons.mpr ⟨le_rfl, fun q hq => hr.trans (hrest.le_of_mem q hq)⟩
    have hend := hr.trans hrest.le
    calc uncommented (stitch text i end_ (r :: rs))
        = slice text i r.1 ++ withoutFrom text rs r.2 end_ :=
          congrArg (slice text i r.1 ++ ·) (ih hrest)
      _ = withoutFrom text (r :: rs) i r.1 ++ (withoutFrom text (r :: rs) r.1 r.2 ++
            withoutFrom text (r :: rs) r.2 end_) := by
          rw [withoutFrom_front hfront, withoutFrom_range (.head _), withoutFrom_behind,
            List.nil_append]
      _ = withoutFrom text (r :: rs) i end_ := by
          rw [← withoutFrom_append hr hrest.le, ← withoutFrom_append hle hend]

theorem closed_stitch (i end_ : Nat) (rs : List (Nat × Nat)) :
    Closed (stitch text i end_ rs) ↔ ∀ r ∈ rs, ¬ HasLooseEnd (slice text r.1 r.2) := by
  induction rs generalizing i with
  | nil => exact iff_of_true trivial fun r hr => nomatch hr
  | cons r rs ih =>
    rw [stitch, Closed, Closed, ih, List.forall_mem_cons, List.append_assoc]
    refine and_congr ?_ Iff.rfl
    rw [HasLooseEnd, Bool.not_eq_true]
    exact closed_iff false _ _

/-- The whole text is written, with its clauses in comments. -/
theorem main_eq {root : IRs ItemType} (h : ParsesTo text root) :
    main text root = .ok (stitch text 0 text.length (clauses root)) ∧
      InOrder 0 (clauses root) text.length := by
  have hderives : Derives grammar (.one file) 0 root text.length := Derives.of_answers h
  have htiles := hderives.tiles
  have hshape : ∀ tl ∈ Item.outermostOf .ThrowList root, ∃ before tw, tl.items = before ++ [tw] ∧
      findChildrenOfType .ThrowListTrailingWhite tl = [tw] :=
    fun tl htl => throwList_whitespace hderives htl
  constructor
  · rw [main, writeFrom_eq _ _ _ hshape]
    cases hderives with
    | leaf hspan => cases hspan
    | named =>
      rw [List.map_singleton, List.headD_cons, htiles.begin_eq, Item.endOfLast, Item.endOfLast,
        htiles.end_eq]
      rfl
  · refine inOrder_outermostOf htiles fun tl htl => ?_
    obtain ⟨before, tw, hitems, htw⟩ := hshape tl htl
    obtain ⟨-, -, hnode⟩ := Item.mem_outermostOf htiles htl
    have htl : Tiles tl.begin tl.items tl.end_ := by
      cases tl with
      | leaf b e => cases before <;> cases hitems
      | node t first rest => exact hnode.children
    obtain ⟨hbegin, hend, hwhite⟩ := Item.mem_outermostOf htl (htw ▸ List.mem_singleton_self tw)
    rw [FrontOf, clauseOf_eq hitems]
    exact ⟨rfl, hbegin, hwhite.le.trans hend⟩

/-- The tool only comments out, exactly if in no throw clause a `*/` comes that ends no comment. -/
theorem only_comments_out_iff (text : List Char) : OnlyCommentsOut text ↔ NoLooseEnds text := by
  constructor
  · intro h root hroot
    obtain ⟨ws, hws, hclosed, -⟩ := h root hroot
    obtain ⟨hmain, -⟩ := main_eq hroot
    obtain rfl := Except.ok.inj (hmain.symm.trans hws)
    exact (closed_stitch ..).mp hclosed
  · intro h root hroot
    obtain ⟨hmain, horder⟩ := main_eq hroot
    refine ⟨_, hmain, (closed_stitch ..).mpr (h root hroot), commented_stitch .., ?_⟩
    rw [uncommented_stitch horder, withoutFrom, Nat.sub_zero, ← List.range_eq_range']
    rfl

/-- A line comment in a throw clause, with the end of a comment in it -/
def endInLineComment : List Char := "f()throw(A// */\n);".toList

/-- A result of the parser is the whole text, with such a clause. -/
def readsLooseEnd (text : List Char) : ParseResult Unit ItemType Rule → Bool
  | .ok (root, end_) => end_ == text.length &&
    (clauses root).any fun r => looseFrom false (slice text r.1 r.2)
  | .error _ => false

theorem not_only_comments_out : ¬ OnlyCommentsOut endInLineComment := by
  have hrun : (eval (body grammar endInLineComment false) 100 (.parse file 0)).any
      (readsLooseEnd endInLineComment) = true := by decide +kernel
  obtain ⟨result, hresult, hloose⟩ := (Option.any_eq_true ..).mp hrun
  rcases result with e | ⟨root, end_⟩
  · cases hloose
  rw [readsLooseEnd, Bool.and_eq_true, beq_iff_eq, List.any_eq_true] at hloose
  obtain ⟨rfl, r, hr, hend⟩ := hloose
  have hroot : ParsesTo endInLineComment root := ⟨100, hresult⟩
  intro h
  obtain ⟨ws, hws, hclosed, -⟩ := h root hroot
  obtain rfl := Except.ok.inj ((main_eq hroot).1.symm.trans hws)
  exact (closed_stitch ..).mp hclosed r hr hend

end Urnest.Hcp.RemoveThrowClauses
