import Urnest.Hcp.Derivation
import Urnest.Hcp.Streams

/-!
# The shapes of trees

What the derivations of the productions look like: `derives_or` takes a production apart. Where all productions of a type pass a check, the items of the type in a tree
are made by such a production (`Derives.of_checks`), and what is nowhere in a production is nowhere
in its trees either (`outermostOf_eq_nil`); of several in a row the one that makes a `T` makes the
only one (`Derives.of_madeAt`). The checks are evaluated.
-/

namespace Urnest.Hcp

variable {ι τ ν : Type} {g : Grammar ι τ ν} {i j : Nat} {xs : IRs τ}

/-! ## What is in an item -/

section Items

variable [DecidableEq τ] {type : τ}

theorem Item.outermostOf_append (type : τ) (xs ys : IRs τ) :
    outermostOf type (xs ++ ys) = outermostOf type xs ++ outermostOf type ys := by
  induction xs with
  | nil => rfl
  | cons x xs ih => rw [List.cons_append, outermostOf, outermostOf, ih, List.append_assoc]

mutual

/-- What is in an item is inside of it. -/
theorem Item.mem_outermost {x y : Item τ} {i j : Nat} (h : Tiles i [x] j)
    (hy : y ∈ x.outermost type) : i ≤ y.begin ∧ y.end_ ≤ j ∧ Tiles y.begin [y] y.end_ := by
  cases x with
  | leaf b e => cases hy
  | node t first rest =>
    rw [outermost] at hy
    split_ifs at hy
    · rw [List.mem_singleton.mp hy, h.end_eq, h.begin_eq]
      exact ⟨Nat.le_refl i, Nat.le_refl j, h⟩
    · have hchildren := h.children
      rw [h.end_eq] at hchildren
      obtain ⟨-, hfirst, hrest⟩ := hchildren.ends
      rcases List.mem_append.mp hy with hy | hy
      · obtain ⟨hb, he, ht⟩ := mem_outermost hfirst hy
        exact ⟨hb, he.trans hrest.le, ht⟩
      · obtain ⟨hb, he, ht⟩ := mem_outermostOf hrest hy
        exact ⟨hfirst.le.trans hb, he, ht⟩

theorem Item.mem_outermostOf {xs : List (Item τ)} {y : Item τ} {i j : Nat} (h : Tiles i xs j)
    (hy : y ∈ outermostOf type xs) : i ≤ y.begin ∧ y.end_ ≤ j ∧ Tiles y.begin [y] y.end_ := by
  cases xs with
  | nil => cases hy
  | cons x xs =>
    obtain ⟨-, hx, hxs⟩ := h.ends
    rcases List.mem_append.mp hy with hy | hy
    · obtain ⟨hb, he, ht⟩ := mem_outermost hx hy
      exact ⟨hb, he.trans hxs.le, ht⟩
    · obtain ⟨hb, he, ht⟩ := mem_outermostOf hxs hy
      exact ⟨hx.le.trans hb, he, ht⟩

end

theorem Item.outermost_of_isA {y : Item τ} (h : y.isA type = true) : y.outermost type = [y] := by
  cases y with
  | leaf b e => cases h
  | node t first rest => rw [outermost, if_pos (of_decide_eq_true h)]

theorem Item.outermostOf_eq_flatMap (xs : IRs τ) :
    outermostOf type xs = xs.flatMap (outermost type) := by
  induction xs with
  | nil => rfl
  | cons x xs ih => rw [outermostOf, ih, List.flatMap_cons]

/-- A `T` among the items is found. -/
theorem Item.mem_outermostOf_of_isA {xs : IRs τ} {y : Item τ} (hy : y ∈ xs)
    (h : y.isA type = true) : y ∈ outermostOf type xs := by
  rw [outermostOf_eq_flatMap, List.mem_flatMap]
  exact ⟨y, hy, outermost_of_isA h ▸ List.mem_singleton_self y⟩

end Items

/-! ## Checks of a production -/

namespace Parser

variable [DecidableEq τ] (type : τ) (refs : ν → Bool) (good : Parser ι τ ν → Bool)

mutual

/-- What makes an item of the type in the parser is `good`. -/
def checks : Parser ι τ ν → Bool
  | anyChar _ | oneOfChars _ _ | anyCharExcept _ _ | charInRange _ _ _ | identifier _ | hash _
  | literal _ _ | rawString _ _ | not _ _ | anyUntil _ _ | balanced _ _ _ => true
  | endOfFile _ t => t ≠ type
  | optional _ x | zeroOrMore _ x | nToM _ _ _ x | anon _ _ x | wrapped _ _ x => x.checks
  | and _ first rest | or _ first rest => first.checks && allCheck rest
  | specificUntil _ match_ _ => match_.checks
  | nonEmptyListOf _ x moreIndicator => x.checks && moreIndicator.checks
  | named _ t _ x => (t ≠ type || good x) && x.checks
  | reference _ _ name => refs name

def allCheck : List (Parser ι τ ν) → Bool
  | [] => true
  | x :: xs => x.checks && allCheck xs

end

variable {type refs good}

theorem checks_of_mem {p : Parser ι τ ν} {ps : List (Parser ι τ ν)}
    (h : allCheck type refs good ps = true) (hp : p ∈ ps) : p.checks type refs good = true := by
  induction ps with
  | nil => cases hp
  | cons q ps ih =>
    rw [allCheck, Bool.and_eq_true] at h
    rcases List.mem_cons.mp hp with rfl | hp
    · exact h.1
    · exact ih h.2 hp

end Parser

section Checks

variable [DecidableEq τ] {type : τ} {refs : ν → Bool} {good : Parser ι τ ν → Bool}

def Goal.Checks (type : τ) (refs : ν → Bool) (good : Parser ι τ ν → Bool) : Goal ι τ ν → Prop
  | .one p | .many p => p.checks type refs good = true
  | .all ps => Parser.allCheck type refs good ps = true

/-- An item of the type, made of what a `good` parser reads -/
def MadeBy (g : Grammar ι τ ν) (type : τ) (good : Parser ι τ ν → Bool) (y : Item τ) : Prop :=
  ∃ x i xs j, good x = true ∧ Derives g (.one x) i xs j ∧ y = .composite type i xs

/-- What a check says of the items that are derived. -/
theorem Derives.of_checks
    (hrefs : ∀ name, refs name = true → (g.parserOf name).checks type refs good = true)
    {goal : Goal ι τ ν} (h : Derives g goal i xs j) (hchecks : goal.Checks type refs good) :
    ∀ y ∈ Item.outermostOf type xs, MadeBy g type good y := by
  have happend : ∀ {xs ys : IRs τ}, (∀ y ∈ Item.outermostOf type xs, MadeBy g type good y) →
      (∀ y ∈ Item.outermostOf type ys, MadeBy g type good y) →
        ∀ y ∈ Item.outermostOf type (xs ++ ys), MadeBy g type good y := by
    intro xs ys hxs hys y hy
    rw [Item.outermostOf_append] at hy
    exact (List.mem_append.mp hy).elim (hxs y) (hys y)
  induction h with
  | leaf hspan => exact fun y hy => nomatch hy
  | endOfFile id t i =>
    have hne : t ≠ type := by simpa [Goal.Checks, Parser.checks] using hchecks
    intro y hy
    simp [Item.outermostOf, Item.outermost, if_neg hne] at hy
  | nothing id x i => exact fun y hy => nomatch hy
  | optional id _ ih => exact ih hchecks
  | zeroOrMore id _ ih => exact ih hchecks
  | and id _ ih => exact ih hchecks
  | or id hp _ ih =>
    have hall : Parser.allCheck type refs good (_ :: _) = true := hchecks
    exact ih (Parser.checks_of_mem hall hp)
  | not id x i => exact fun y hy => nomatch hy
  | specificUntil id _ ih => exact ih hchecks
  | zeroToM id _ _ ih => exact ih hchecks
  | nToM id n m _ _ ih ih' => exact happend (ih hchecks) (ih' hchecks)
  | last id x _ ih => exact ih (Bool.and_eq_true_iff.mp hchecks).1
  | more id _ _ ih ih' =>
    obtain ⟨hx, hmore⟩ := Bool.and_eq_true_iff.mp hchecks
    refine happend (ih ?_) (ih' hchecks)
    simp only [Goal.Checks, Parser.allCheck, hx, hmore, Bool.and_self]
  -- The only place where an item of the type comes in: the check wants it good.
  | @named id t name x i j xs hx ih =>
    simp only [Goal.Checks, Parser.checks, Bool.and_eq_true, Bool.or_eq_true,
      decide_eq_true_eq] at hchecks
    obtain ⟨htype, hchecks⟩ := hchecks
    intro y hy
    have hnode : ∀ first rest, Item.composite t i xs = .node t first rest →
        (∀ y ∈ Item.outermostOf type (first :: rest), MadeBy g type good y) →
          MadeBy g type good y := by
      intro first rest heq hinner
      rw [Item.outermostOf, heq, Item.outermost, Item.outermostOf, List.append_nil] at hy
      split_ifs at hy with hsame
      · have hgood := htype.resolve_left fun hne => hne hsame
        rw [List.mem_singleton.mp hy, ← heq, hsame]
        exact ⟨x, i, xs, j, hgood, hx, rfl⟩
      · exact hinner y hy
    cases xs with
    | nil => exact hnode _ _ rfl fun y hy => nomatch hy
    | cons first rest => exact hnode first rest rfl (ih hchecks)
  | anon id name _ ih => exact ih hchecks
  | wrapped id target _ ih => exact ih hchecks
  | reference id target _ ih => exact ih (hrefs _ hchecks)
  | allNil i => exact fun y hy => nomatch hy
  | allCons _ _ ih ih' =>
    obtain ⟨hp, hps⟩ := Bool.and_eq_true_iff.mp hchecks
    exact happend (ih hp) (ih' hps)
  | manyNil p i => exact fun y hy => nomatch hy
  | manyCons _ _ ih ih' => exact happend (ih hchecks) (ih' hchecks)

/-- No `T` is in a parser, that refers to no other. -/
def Parser.avoids (type : τ) (p : Parser ι τ ν) : Bool :=
  p.checks type (fun _ => false) (fun _ => false)

theorem outermostOf_eq_nil {p : Parser ι τ ν} (h : Derives g (.one p) i xs j)
    (hp : p.avoids type = true) : Item.outermostOf type xs = [] := by
  refine List.eq_nil_iff_forall_not_mem.mpr fun y hy => ?_
  have hrefs : ∀ name, false = true →
      (g.parserOf name).checks type (fun _ => false) (fun _ => false) = true := nofun
  obtain ⟨x, i, ys, j, hgood, -⟩ := h.of_checks hrefs hp y hy
  exact absurd hgood Bool.false_ne_true

theorem outermostOf_all_eq_nil {ps : List (Parser ι τ ν)} (h : Derives g (.all ps) i xs j)
    (hps : ps.all (Parser.avoids type) = true) : Item.outermostOf type xs = [] := by
  induction ps generalizing i xs with
  | nil => rw [(Derives.all_nil_iff.mp h).1, Item.outermostOf]
  | cons p ps ih =>
    rw [List.all_cons, Bool.and_eq_true] at hps
    obtain ⟨ys, zs, k, rfl, hp, hrest⟩ := Derives.all_cons_iff.mp h
    rw [Item.outermostOf_append, outermostOf_eq_nil hp hps.1, ih hrest hps.2, List.append_nil]

/-- Does the parser make a `T`? -/
def Parser.makes (type : τ) : Parser ι τ ν → Bool
  | .named _ t _ _ => t = type
  | _ => false

theorem isA_of_makes {p : Parser ι τ ν} (h : Derives g (.one p) i xs j)
    (hp : p.makes type = true) : ∃ y, xs = [y] ∧ y.isA type = true := by
  cases p with
  | named id t name x =>
    obtain rfl : t = type := of_decide_eq_true hp
    cases h with
    | leaf hspan => cases hspan
    | @named _ _ _ _ _ _ ws hws =>
      refine ⟨_, rfl, ?_⟩
      cases ws <;> exact decide_eq_true rfl
  | _ => cases hp

/-- Of several parsers one makes a `T`, and no other. -/
def Parser.madeAt (type : τ) (n : Nat) (ps : List (Parser ι τ ν)) : Bool :=
  (ps.take n).all (Parser.avoids type) && (ps[n]?).any (Parser.makes type) &&
    (ps.drop (n + 1)).all (Parser.avoids type)

theorem Derives.of_madeAt {ps : List (Parser ι τ ν)} {n : Nat} (h : Derives g (.all ps) i xs j)
    (hps : Parser.madeAt type n ps = true) :
    ∃ ys y zs k l, xs = ys ++ y :: zs ∧ y.isA type = true ∧ Item.outermostOf type xs = [y] ∧
      Derives g (.all (ps.take n)) i ys k ∧ Derives g (.all (ps.drop (n + 1))) l zs j := by
  rw [Parser.madeAt, Bool.and_eq_true, Bool.and_eq_true, Option.any_eq_true] at hps
  obtain ⟨⟨hbefore, p, hp, hmakes⟩, hafter⟩ := hps
  obtain ⟨hn, rfl⟩ := List.getElem?_eq_some_iff.mp hp
  have hsplit : ps = ps.take n ++ ps[n] :: ps.drop (n + 1) := by
    rw [← List.drop_eq_getElem_cons hn, List.take_append_drop]
  rw [hsplit] at h
  obtain ⟨ys, _, k, rfl, hys, hrest⟩ := Derives.all_append_iff.mp h
  obtain ⟨_, zs, l, rfl, hy, hzs⟩ := Derives.all_cons_iff.mp hrest
  obtain ⟨y, rfl, hisA⟩ := isA_of_makes hy hmakes
  refine ⟨ys, y, zs, k, l, rfl, hisA, ?_, hys, hzs⟩
  rw [Item.outermostOf_append, outermostOf_all_eq_nil hys hbefore, List.nil_append,
    List.singleton_append, Item.outermostOf, Item.outermost_of_isA hisA,
    outermostOf_all_eq_nil hzs hafter]
  rfl

end Checks

/-! ## How many there are -/

namespace Parser

variable [DecidableEq τ] (target stop : τ)

mutual

/-- How many `T`s the parser makes that are not inside of an item where the search stops, if that is
a fixed number. -/
def counts : Parser ι τ ν → Option Nat
  | anyChar _ | oneOfChars _ _ | anyCharExcept _ _ | charInRange _ _ _ | identifier _ | hash _
  | literal _ _ | rawString _ _ | not _ _ | anyUntil _ _ | balanced _ _ _ => some 0
  | endOfFile _ t => some (if t = target then 1 else 0)
  | optional _ x | zeroOrMore _ x | nToM _ _ _ x | specificUntil _ x _ =>
    if counts x = some 0 then some 0 else none
  | anon _ _ x | wrapped _ _ x => counts x
  | and _ first rest => do return (← counts first) + (← countsAll rest)
  | or _ first rest => (counts first).filter fun n => countsSame n rest
  | nonEmptyListOf _ x moreIndicator =>
    if counts x = some 0 ∧ counts moreIndicator = some 0 then some 0 else none
  | named _ t _ x => if t = target then some 1 else if t = stop then some 0 else counts x
  | reference _ _ _ => none

def countsAll : List (Parser ι τ ν) → Option Nat
  | [] => some 0
  | x :: xs => do return (← counts x) + (← countsAll xs)

def countsSame (n : Nat) : List (Parser ι τ ν) → Bool
  | [] => true
  | x :: xs => counts x = some n && countsSame n xs

end

variable {target stop}

theorem counts_of_mem {n : Nat} {p : Parser ι τ ν} {ps : List (Parser ι τ ν)}
    (h : countsSame target stop n ps = true) (hp : p ∈ ps) : counts target stop p = some n := by
  induction ps with
  | nil => cases hp
  | cons q ps ih =>
    rw [countsSame, Bool.and_eq_true, decide_eq_true_eq] at h
    rcases List.mem_cons.mp hp with rfl | hp
    · exact h.1
    · exact ih h.2 hp

end Parser

mutual

/-- What is found is of the type. -/
theorem Item.type_of_mem_outmost {isA : τ → Bool} {x y : Item τ} (h : y ∈ x.outmost isA) :
    ∃ t first rest, y = .node t first rest ∧ isA t = true := by
  cases x with
  | leaf b e => cases h
  | node t first rest =>
    rw [Item.outmost] at h
    split_ifs at h with ht
    · exact ⟨t, first, rest, List.mem_singleton.mp h, ht⟩
    · exact (List.mem_append.mp h).elim Item.type_of_mem_outmost Item.type_of_mem_findAll

theorem Item.type_of_mem_findAll {isA : τ → Bool} {xs : List (Item τ)} {y : Item τ}
    (h : y ∈ findAll isA xs) : ∃ t first rest, y = .node t first rest ∧ isA t = true := by
  cases xs with
  | nil => cases h
  | cons x xs =>
    exact (List.mem_append.mp h).elim Item.type_of_mem_outmost Item.type_of_mem_findAll

end

section Counts

variable [DecidableEq τ] {target stop : τ}

/-- The `T`s that are not inside of an item where the search stops -/
def outside (target stop : τ) (xs : IRs τ) : IRs τ :=
  (findAll (fun t => t = target || t = stop) xs).filter (Item.isA target)

theorem outside_append (xs ys : IRs τ) :
    outside target stop (xs ++ ys) = outside target stop xs ++ outside target stop ys := by
  rw [outside, findAll_append, List.filter_append]
  rfl

theorem outside_node {t : τ} {first : Item τ} {rest : IRs τ} :
    outside target stop [.node t first rest] =
      if t = target then [.node t first rest] else if t = stop then []
      else outside target stop (first :: rest) := by
  rw [outside, findAll, Item.outmost, findAll, List.append_nil]
  by_cases htarget : t = target
  · simp [htarget, Item.isA]
  · by_cases hstop : t = stop
    · simp [hstop, Item.isA, hstop ▸ htarget]
    · simp [htarget, hstop, outside, findAll]

mutual

/-- What is in the items where the search stops, and they themselves, is all there is. -/
theorem Item.outermost_eq (stop : τ) (x : Item τ) : x.outermost target =
    (x.outmost fun t => t = target || t = stop).flatMap (Item.outermost target) := by
  cases x with
  | leaf b e => rfl
  | node t first rest =>
    rw [Item.outmost]
    by_cases hfound : t = target ∨ t = stop
    · rw [if_pos (by simpa using hfound), List.flatMap_singleton]
    · rw [if_neg (by simpa using hfound), List.flatMap_append, ← Item.outermost_eq stop first,
        ← Item.outermostOf_eq stop rest, Item.outermost,
        if_neg fun htarget => hfound (.inl htarget)]

theorem Item.outermostOf_eq (stop : τ) (xs : List (Item τ)) : Item.outermostOf target xs =
    (findAll (fun t => t = target || t = stop) xs).flatMap (Item.outermost target) := by
  cases xs with
  | nil => rfl
  | cons x xs =>
    rw [Item.outermostOf, findAll, List.flatMap_append, ← Item.outermost_eq stop x,
      ← Item.outermostOf_eq stop xs]

end

def Goal.Counts (target stop : τ) (n : Nat) : Goal ι τ ν → Prop
  | .one p => p.counts target stop = some n
  | .all ps => Parser.countsAll target stop ps = some n
  | .many p => p.counts target stop = some 0 ∧ n = 0

theorem Derives.of_counts {goal : Goal ι τ ν} (h : Derives g goal i xs j) {n : Nat}
    (hn : goal.Counts target stop n) : (outside target stop xs).length = n := by
  -- what is repeated makes none
  have hzero : ∀ {p : Parser ι τ ν} {n}, (if p.counts target stop = some 0 then some 0 else none)
      = some n → p.counts target stop = some 0 ∧ n = 0 := by
    intro p n h
    split_ifs at h with hp
    exact ⟨hp, (Option.some.inj h).symm⟩
  have hboth : ∀ {id : ι} {p q : Parser ι τ ν} {n},
      (Goal.one (.nonEmptyListOf id p q)).Counts target stop n →
      n = 0 ∧ (Goal.one p).Counts target stop 0 ∧ (Goal.all [p, q]).Counts target stop 0 := by
    intro id p q n h
    rw [Goal.Counts, Parser.counts] at h
    split_ifs at h with hpq
    refine ⟨(Option.some.inj h).symm, hpq.1, ?_⟩
    rw [Goal.Counts, Parser.countsAll, Parser.countsAll, Parser.countsAll, hpq.1, hpq.2]
    rfl
  induction h generalizing n with
  | @leaf p i j hspan =>
    have hp : p.counts target stop = some 0 := by
      cases p <;> first | rfl | cases hspan
    exact Option.some.inj (hp.symm.trans hn)
  | endOfFile id t i =>
    rw [← Option.some.inj hn, outside_node]
    split_ifs <;> rfl
  | nothing id x i => exact (hzero hn).2.symm
  | optional id _ ih =>
    obtain ⟨hp, rfl⟩ := hzero hn
    exact ih hp
  | zeroOrMore id _ ih => exact ih (hzero hn)
  | and id _ ih => exact ih hn
  | @or id p first rest i j xs hp _ ih =>
    obtain ⟨hfirst, hrest⟩ := Option.filter_eq_some_iff.mp hn
    rcases List.mem_cons.mp hp with heq | hp
    · exact ih (heq ▸ hfirst)
    · exact ih (Parser.counts_of_mem hrest hp)
  | not id x i => exact Option.some.inj hn
  | specificUntil id _ ih => exact ih (hzero hn)
  | zeroToM id _ _ ih => exact ih (hzero hn)
  | nToM id k m _ _ ih ih' =>
    obtain ⟨hp, rfl⟩ := hzero hn
    rw [outside_append, List.length_append, ih hp, ih' ⟨hp, rfl⟩]
  | last id x _ ih =>
    obtain ⟨rfl, hx, -⟩ := hboth hn
    exact ih hx
  | more id _ _ ih ih' =>
    obtain ⟨rfl, -, hall⟩ := hboth hn
    rw [outside_append, List.length_append, ih hall, ih' hn]
  | @named id t name x i j xs hx ih =>
    have hnode : ∀ first rest, Item.composite t i xs = .node t first rest →
        (∀ {n}, x.counts target stop = some n →
          (outside target stop (first :: rest)).length = n) →
        (outside target stop [Item.composite t i xs]).length = n := by
      intro first rest heq hinner
      rw [heq, outside_node]
      rw [Goal.Counts, Parser.counts] at hn
      split_ifs at hn ⊢ with htarget hstop
      · exact Option.some.inj hn
      · exact Option.some.inj hn
      · exact hinner hn
    cases xs with
    | nil => exact hnode _ _ rfl fun hx => ih hx
    | cons first rest => exact hnode first rest rfl fun hx => ih hx
  | anon id name _ ih => exact ih hn
  | wrapped id target _ ih => exact ih hn
  | reference id target _ ih => cases hn
  | allNil i => exact Option.some.inj hn
  | allCons _ _ ih ih' =>
    rw [Goal.Counts, Parser.countsAll] at hn
    obtain ⟨k, hk, hn⟩ := Option.bind_eq_some_iff.mp hn
    obtain ⟨l, hl, hn⟩ := Option.bind_eq_some_iff.mp hn
    rw [outside_append, List.length_append, ih hk, ih' hl]
    exact Option.some.inj hn
  | manyNil p i => exact hn.2.symm
  | manyCons _ _ ih ih' =>
    obtain ⟨hp, rfl⟩ := hn
    rw [outside_append, List.length_append, ih hp, ih' ⟨hp, rfl⟩]

end Counts

/-! ## Taking productions apart -/

namespace Cpp

variable {a b : PR} {xs : IRs ItemType}

theorem derives_andTerms {p : PR} :
    Derives grammar (.all (andTerms p)) i xs j ↔ Derives grammar (.one p) i xs j := by
  have hone : ∀ p : PR, Derives grammar (.all [p]) i xs j ↔ Derives grammar (.one p) i xs j := by
    intro p
    rw [Derives.all_cons_iff]
    constructor
    · rintro ⟨ys, zs, k, rfl, hp, hnil⟩
      obtain ⟨rfl, rfl⟩ := Derives.all_nil_iff.mp hnil
      rwa [List.append_nil]
    · exact fun h => ⟨xs, [], j, (List.append_nil _).symm, h, .allNil j⟩
  cases p with
  | and id first rest => exact Derives.and_iff.symm
  | _ => exact hone _

theorem derives_orTerms {p : PR} :
    (∃ q ∈ orTerms p, Derives grammar (.one q) i xs j) ↔ Derives grammar (.one p) i xs j := by
  cases p with
  | or id first rest => exact Derives.or_iff.symm
  | _ => simp [orTerms]

/-- One or the other. -/
theorem derives_or : Derives grammar (.one (a ||| b)) i xs j ↔
    Derives grammar (.one a) i xs j ∨ Derives grammar (.one b) i xs j := by
  have hterms : Derives grammar (.one (a ||| b)) i xs j ↔
      ∃ q ∈ orTerms a ++ orTerms b, Derives grammar (.one q) i xs j := by
    cases a <;> exact Derives.or_iff
  rw [hterms, ← derives_orTerms (p := a), ← derives_orTerms (p := b)]
  simp only [List.mem_append, or_and_right, exists_or]

end Cpp

end Urnest.Hcp
