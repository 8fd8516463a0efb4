import Urnest.Hcp.Shapes
import Urnest.Lib.Lexicographic
import Urnest.Lib.Throwing

/-!
# The operators that are generated

For a `friend bool operator<` that a class declares, hcp-split generates a body that compares the
members one after the other, and the other operators from it. What is compared is whatever variable
definitions are somewhere in the class, so the members of a class inside of it come in, too, and
`friend X;`, which is parsed as a variable `X`. And where a function pointer's parameters have
names, an assertion fails.

Whatever members they are, the operators are those of one lexicographic order.
-/

namespace Urnest.Hcp.Split

open Lib Cpp

/-! ## What the bodies do -/

inductive Operand where
  | x
  | y

/-- `if (left.member < right.member) return result;` -/
structure Test where
  left : Operand
  right : Operand
  member : List Char
  result : Bool

def Test.text (t : Test) : List Char :=
  (match t.left with
    | .x => "  if (x.".toList
    | .y => "  if (y.".toList) ++ t.member ++
  (match t.right with
    | .x => " < x.".toList
    | .y => " < y.".toList) ++ t.member ++
  (match t.result with
    | true => ") return true;\n".toList
    | false => ") return false;\n".toList)

/-- The tests of `operator<` -/
def lessTests (names : List (List Char)) : List Test :=
  names.flatMap fun v => [⟨.x, .y, v, true⟩, ⟨.y, .x, v, false⟩]

/-- An expression over `x` and `y` -/
inductive Expr where
  | less (left right : Operand)
  | greater (left right : Operand)
  | or (left right : Expr)
  | not (operand : Expr)

def Operand.text : Operand → List Char
  | x => ['x']
  | y => ['y']

def Expr.text : Expr → List Char
  | less a b => a.text ++ '<' :: b.text
  | greater a b => a.text ++ '>' :: b.text
  | or a b => a.text ++ "||".toList ++ b.text
  | not a => "!(".toList ++ a.text ++ [')']

/-- What the other operators return -/
def derivedExprs : List (String × Expr) :=
  [(">", .less .y .x), ("!=", .or (.less .y .x) (.less .x .y)),
    ("==", .not (.or (.less .y .x) (.less .x .y))), ("<=", .not (.greater .x .y)),
    (">=", .not (.less .x .y))]

/-- The bodies that are generated are the text of the tests and of the expressions. -/
def IsTextOfTests (names : List (List Char)) : Prop :=
  operatorLessBody names = "\n\x7b\n".toList ++ (lessTests names).flatMap Test.text ++
    "  return false;\n\x7d\n".toList ∧
  derivedOperators.map (fun o => (o.1, o.2.toList)) = derivedExprs.map fun o => (o.1, o.2.text)

theorem isTextOfTests (names : List (List Char)) : IsTextOfTests names := by
  have htests : ∀ v : List Char, [Test.mk .x .y v true, ⟨.y, .x, v, false⟩].flatMap Test.text =
      "  if (x.".toList ++ v ++ " < y.".toList ++ v ++ ") return true;\n".toList ++
      "  if (y.".toList ++ v ++ " < x.".toList ++ v ++ ") return false;\n".toList := by
    intro v
    simp only [List.flatMap_cons, List.flatMap_nil, Test.text, List.append_assoc, List.append_nil]
  refine ⟨?_, by decide⟩
  rw [operatorLessBody, lessTests, List.flatMap_assoc]
  simp only [htests]

section Meaning

variable {Obj : Type} (x y : Obj)

def Operand.value : Operand → Obj
  | .x => x
  | .y => y

/-- What the body returns, with the `<` of each member -/
def runTests (less : List Char → Obj → Obj → Bool) : List Test → Bool
  | [] => false
  | t :: ts =>
    if less t.member (t.left.value x y) (t.right.value x y) then t.result else runTests less ts

/-- What an expression comes to, with the `operator<` and the `operator>` of the class -/
def Expr.eval (lt gt : Obj → Obj → Bool) : Expr → Bool
  | .less a b => lt (a.value x y) (b.value x y)
  | .greater a b => gt (a.value x y) (b.value x y)
  | .or a b => a.eval lt gt || b.eval lt gt
  | .not a => !a.eval lt gt

end Meaning

theorem runTests_eq {Obj : Type} (less : List Char → Obj → Obj → Bool) (names : List (List Char))
    (x y : Obj) : runTests x y less (lessTests names) = lexLess (names.map less) x y := by
  induction names with
  | nil => rfl
  | cons v names ih =>
    rw [List.map_cons, lexLess, ← ih]
    rfl

/-- The six operators are those of one order. -/
structure Consistent {Obj : Type} (lt gt ne eq le ge : Obj → Obj → Bool) : Prop where
  weak : StrictWeak lt
  gt_iff : ∀ x y, gt x y = true ↔ lt y x = true
  eq_iff : ∀ x y, eq x y = true ↔ lt x y = false ∧ lt y x = false
  ne_iff : ∀ x y, ne x y = true ↔ eq x y = false
  le_iff : ∀ x y, le x y = true ↔ lt x y = true ∨ eq x y = true
  ge_iff : ∀ x y, ge x y = true ↔ gt x y = true ∨ eq x y = true

/-- The operators that are generated for the members are consistent, and the first member that is
not equivalent decides. -/
def OrdersBy (names : List (List Char)) : Prop :=
  ∀ (Obj : Type) (less : List Char → Obj → Obj → Bool), (∀ v ∈ names, StrictWeak (less v)) →
    let lt : Obj → Obj → Bool := fun x y => runTests x y less (lessTests names)
    let gt : Obj → Obj → Bool := fun x y => (Expr.less .y .x).eval x y lt lt
    let derived : String → Obj → Obj → Bool := fun op x y =>
      (derivedExprs.lookup op).any fun e => e.eval x y lt gt
    Consistent lt (derived ">") (derived "!=") (derived "==") (derived "<=") (derived ">=") ∧
      ∀ x y, lt x y = true ↔ ∃ before v after, names = before ++ v :: after ∧
        (∀ w ∈ before, less w x y = false ∧ less w y x = false) ∧ less v x y = true

theorem ordersBy (names : List (List Char)) : OrdersBy names := by
  intro Obj less hless lt gt derived
  have hlt : lt = lexLess (names.map less) := by
    funext x y
    exact runTests_eq less names x y
  have hweak : StrictWeak lt := by
    rw [hlt]
    exact strictWeak_lexLess (List.forall_mem_map.mpr hless)
  obtain ⟨hasymm, -⟩ := strictWeak_iff.mp hweak
  refine ⟨⟨hweak, ?_, ?_, ?_, ?_, ?_⟩, fun x y => ?_⟩
  · exact fun x y => Iff.rfl
  · intro x y
    change (!(lt y x || lt x y)) = true ↔ _
    simp [and_comm]
  · intro x y
    change (lt y x || lt x y) = true ↔ (!(lt y x || lt x y)) = false
    by_cases hyx : lt y x = true <;> simp [hyx]
  · intro x y
    change (!lt y x) = true ↔ lt x y = true ∨ (!(lt y x || lt x y)) = true
    by_cases hxy : lt x y = true
    · simp [hxy, hasymm x y hxy]
    · simp [hxy]
  · intro x y
    change (!lt x y) = true ↔ lt y x = true ∨ (!(lt y x || lt x y)) = true
    by_cases hyx : lt y x = true
    · simp [hyx, hasymm y x hyx]
    · simp [hyx]
  · rw [hlt, lexLess_iff]
    constructor
    · rintro ⟨before, k, after, heq, hbefore, hk⟩
      obtain ⟨names₁, rest, rfl, rfl, hrest⟩ := List.map_eq_append_iff.mp heq
      obtain ⟨v, names₂, rfl, rfl, rfl⟩ := List.map_eq_cons_iff.mp hrest
      exact ⟨names₁, v, names₂, rfl, fun w hw => hbefore _ (List.mem_map_of_mem hw), hk⟩
    · rintro ⟨before, v, after, rfl, hbefore, hv⟩
      refine ⟨before.map less, less v, after.map less, by simp, ?_, hv⟩
      exact List.forall_mem_map.mpr hbefore

/-! ## The members -/

section Members

variable (text : List Char)

/-- The items that `genClass` and `genTemplateClass` go through -/
def members (x : Item ItemType) : IRs ItemType :=
  (x.items.filter (Item.isA .ClassMembers)).flatMap Item.items

/-- `friend X;`, which is parsed as a variable `X` of a type `friend` -/
def isFriendDecl (v : Item ItemType) : Bool :=
  match findChildrenOfType .ScopedName v with
  | [] => false
  | type :: _ => (reconstruct text type).takeWhile isIdentifierContChar = "friend".toList

/-- A non-static data member -/
def isDataMember (m : Item ItemType) : Bool := m.isA .GlobalVarDef && !isFriendDecl text m

/-- The name that is declared: one that is not in a parameter -/
def declaredNames (v : Item ItemType) : IRs ItemType := outside .VarName .Param v.items

/-- The names of the class's own data members, as they are declared -/
def memberNames (x : Item ItemType) : List (List Char) :=
  ((members x).filter (isDataMember text)).flatMap fun v =>
    (declaredNames v).map (reconstruct text)

/-- A declaration that operators are generated for -/
def IsLessDecl (x m : Item ItemType) : Prop :=
  m ∈ members x ∧ m.isA .FunctionDecl = true ∧
    isFriendOperatorLessDecl text m (getClassName text x) = true

/-- What is generated for it, with the names of the members -/
def Writes (x m : Item ItemType) (names : List (List Char)) : Prop :=
  (x.isA .ClassDef = true → ∀ scope o h, o.h.copy text m.begin m.end_ = .ok h →
    genClassMember text scope x m o = .ok ⟨h.write (friendDecls (getClassName text x)),
      o.c.write (operatorDefs (joinScope text scope) names)⟩) ∧
  (x.isA .TemplateClassDef = true → ∀ o, genTemplateClassMember text x m o =
    .ok { o with h := o.h.write (templateOperatorDefs (getClassName text x) names) })

/-- A class that has been parsed somewhere in the text -/
def IsClass (x : Item ItemType) : Prop :=
  ∃ i j, Answers (body grammar text false) (.parse class_def i) (.ok ([x], j))

/-- The operators compare the class's own data members, in their order. -/
def ComparesOwnMembers (x : Item ItemType) : Prop :=
  IsClass text x → ∀ m, IsLessDecl text x m → ∃ names, getMemberVarNames text x = .ok names ∧
    Writes text x m names ∧ IsTextOfTests names ∧ OrdersBy names ∧ names = memberNames text x

/-- There is a variable in the class only where it is a data member of its own, and no parameter
in such a member has a name. -/
def OnlyOwnNames (x : Item ItemType) : Prop :=
  (∀ m ∈ members x, isDataMember text m = false → m.outermost .GlobalVarDef = []) ∧
    ∀ v ∈ members x, isDataMember text v = true → ∀ p ∈ outside .Param .VarName v.items,
      findChildrenOfType .VarName p = []

end Members

/-! ## What is collected -/

section Collecting

variable {β : Type} {p : β → Bool} {f : β → List β} {l : List β}

theorem length_filter_le (hf : ∀ y ∈ l, p y = true → f y = [y]) :
    (l.filter p).length ≤ (l.flatMap f).length := by
  induction l with
  | nil => exact Nat.le_refl 0
  | cons y l ih =>
    replace ih := ih fun z hz => hf z (.tail _ hz)
    rw [List.flatMap_cons, List.length_append]
    rcases hp : p y with _ | _
    · rw [List.filter_cons_of_neg (by simp [hp])]
      exact ih.trans (Nat.le_add_left ..)
    · rw [List.filter_cons_of_pos hp, hf y (.head _) hp, List.length_cons, Nat.add_comm]
      exact Nat.add_le_add_left ih 1

/-- What is collected is what is wanted exactly if nothing else adds to it. -/
theorem length_flatMap_eq_iff (hf : ∀ y ∈ l, p y = true → f y = [y]) :
    (l.flatMap f).length = (l.filter p).length ↔ ∀ y ∈ l, p y = false → f y = [] := by
  induction l with
  | nil => exact iff_of_true rfl fun y hy => absurd hy List.not_mem_nil
  | cons y l ih =>
    have htail : ∀ z ∈ l, p z = true → f z = [z] := fun z hz => hf z (.tail _ hz)
    have hle := length_filter_le htail
    rw [List.forall_mem_cons, ← ih htail, List.flatMap_cons, List.length_append]
    rcases hp : p y with _ | _
    · rw [List.filter_cons_of_neg (by simp [hp]), ← List.length_eq_zero_iff]
      simp only [true_imp_iff]
      omega
    · rw [List.filter_cons_of_pos hp, hf y (.head _) hp, List.length_singleton, List.length_cons]
      simp only [Bool.true_eq_false, false_imp_iff, true_and]
      omega

theorem length_flatMap_one {γ : Type} {f : β → List γ} (h : ∀ y ∈ l, (f y).length = 1) :
    (l.flatMap f).length = l.length := by
  induction l with
  | nil => rfl
  | cons y l ih =>
    rw [List.flatMap_cons, List.length_append, h y (.head _), ih fun z hz => h z (.tail _ hz),
      List.length_cons, Nat.add_comm]

theorem map_eq_flatMap {ε γ : Type} {f : β → Except ε γ} {f' : β → List γ}
    (h : ∀ y ∈ l, ∃ c, f y = .ok c ∧ f' y = [c]) : l.map f = (l.flatMap f').map .ok := by
  induction l with
  | nil => rfl
  | cons y l ih =>
    obtain ⟨c, hc, hc'⟩ := h y (.head _)
    rw [List.map_cons, List.flatMap_cons, hc, hc', ih fun z hz => h z (.tail _ hz)]
    rfl

theorem flatMap_eq_filter (hf : ∀ y ∈ l, p y = true → f y = [y])
    (h : ∀ y ∈ l, p y = false → f y = []) : l.flatMap f = l.filter p := by
  induction l with
  | nil => rfl
  | cons y l ih =>
    rw [List.flatMap_cons, ih (fun z hz => hf z (.tail _ hz)) fun z hz => h z (.tail _ hz)]
    rcases hp : p y with _ | _
    · rw [h y (.head _) hp, List.filter_cons_of_neg (by simp [hp])]
      rfl
    · rw [hf y (.head _) hp, List.filter_cons_of_pos hp]
      rfl

end Collecting

theorem mapM_eq_ok {ε β γ : Type} {f : β → Except ε γ} {xs : List β} {ys : List γ} :
    xs.mapM f = .ok ys ↔ xs.map f = ys.map .ok := by
  induction xs generalizing ys with
  | nil =>
    rw [List.mapM_nil, List.map_nil]
    cases ys with
    | nil => exact iff_of_true rfl rfl
    | cons y ys => exact iff_of_false (fun h => nomatch h) (fun h => nomatch h)
  | cons x xs ih =>
    rw [List.mapM_cons, Lib.bind_eq_ok, List.map_cons]
    simp only [Lib.bind_eq_ok, ih]
    constructor
    · rintro ⟨y, hy, ys', hys', heq⟩
      obtain rfl := Except.ok.inj heq
      rw [hy, hys', List.map_cons]
    · intro h
      rcases ys with _ | ⟨y, ys⟩
      · cases h
      · obtain ⟨hy, hys⟩ := List.cons.inj h
        exact ⟨y, hy, ys, hys, rfl⟩

/-! ## The shape of a class -/

section Shape

variable {text : List Char} {x : Item ItemType}

/-- A variable definition declares one name. -/
def declaresOne (p : PR) : Bool := p.counts .VarName .Param == some 1

theorem grammar_declaresOne (name : Rule) :
    (grammar.parserOf name).checks .GlobalVarDef (fun _ => true) declaresOne = true := by
  cases name <;> decide +kernel

/-- The body of a class: the members come once, and there is no variable beside them. -/
def membersAt (n : Nat) (ps : List PR) : Bool :=
  Parser.madeAt .ClassMembers n ps && (ps.take n).all (Parser.avoids .GlobalVarDef) &&
    (ps.drop (n + 1)).all (Parser.avoids .GlobalVarDef)

theorem findChildren_of_membersAt {t : ItemType} {p : PR} {n i j : Nat} {xs : IRs ItemType}
    (hp : membersAt n (andTerms p) = true) (h : Derives grammar (.one p) i xs j) :
    findChildrenOfType .GlobalVarDef (.composite t i xs) =
      (members (.composite t i xs)).flatMap (Item.outermost .GlobalVarDef) := by
  rw [membersAt, Bool.and_eq_true, Bool.and_eq_true] at hp
  obtain ⟨⟨hmade, hbefore⟩, hafter⟩ := hp
  obtain ⟨ys, cm, zs, k, l, rfl, hcm, hone, hys, hzs⟩ := (derives_andTerms.mpr h).of_madeAt hmade
  have hitems : (Item.composite t i (ys ++ cm :: zs)).items = ys ++ cm :: zs := by
    cases ys <;> rfl
  rw [Item.outermostOf_append, Item.outermostOf, Item.outermost_of_isA hcm] at hone
  have hlength := congrArg List.length hone
  simp only [List.length_append, List.length_cons, List.length_nil] at hlength
  have hnone : ∀ {ws : IRs ItemType}, (Item.outermostOf .ClassMembers ws).length = 0 →
      ws.filter (Item.isA .ClassMembers) = [] := by
    intro ws hws
    refine List.filter_eq_nil_iff.mpr fun w hw hisA => ?_
    rw [List.length_eq_zero_iff] at hws
    exact List.ne_nil_of_mem (Item.mem_outermostOf_of_isA hw hisA) hws
  have hmembers : members (.composite t i (ys ++ cm :: zs)) = cm.items := by
    rw [members, hitems, List.filter_append, List.filter_cons_of_pos hcm, hnone (by omega),
      hnone (by omega)]
    exact List.append_nil _
  have hinner : cm.outermost .GlobalVarDef = Item.outermostOf .GlobalVarDef cm.items := by
    cases cm with
    | leaf b e => cases hcm
    | node t first rest =>
      obtain rfl : t = .ClassMembers := of_decide_eq_true hcm
      rfl
  rw [findChildrenOfType, hitems, hmembers, Item.outermostOf_append, Item.outermostOf,
    outermostOf_all_eq_nil hys hbefore, outermostOf_all_eq_nil hzs hafter, hinner,
    ← Item.outermostOf_eq_flatMap]
  simp

/-- The variables in a class are those in its members, and each declares one name. -/
theorem IsClass.spec (h : IsClass text x) :
    findChildrenOfType .GlobalVarDef x = (members x).flatMap (Item.outermost .GlobalVarDef) ∧
      ∀ v ∈ findChildrenOfType .GlobalVarDef x, (declaredNames v).length = 1 := by
  obtain ⟨i, j, hparse⟩ := h
  have hderives : Derives grammar (.one class_def) i [x] j := Derives.of_answers hparse
  have hshape : ∃ t xs, x = .composite t i xs ∧ t ≠ .GlobalVarDef ∧
      findChildrenOfType .GlobalVarDef x = (members x).flatMap (Item.outermost .GlobalVarDef) := by
    have hor : Derives grammar (.one (named .TemplateClassDef "template class definition"
        (template_preamble + classBody) ||| named .ClassDef "non-template class definition"
          classBody)) i [x] j := by
      cases hderives with
      | leaf hspan => cases hspan
      | wrapped _ _ h => exact h
    rcases derives_or.mp hor with h | h
    · cases h with
      | leaf hspan => cases hspan
      | named _ _ _ h =>
        exact ⟨_, _, rfl, by decide, findChildren_of_membersAt (n := 11) (by decide +kernel) h⟩
    · cases h with
      | leaf hspan => cases hspan
      | named _ _ _ h =>
        exact ⟨_, _, rfl, by decide, findChildren_of_membersAt (n := 10) (by decide +kernel) h⟩
  obtain ⟨t, xs, rfl, hne, hfind⟩ := hshape
  refine ⟨hfind, fun v hv => ?_⟩
  have hmem : v ∈ Item.outermostOf .GlobalVarDef [Item.composite t i xs] := by
    rw [Item.outermostOf, Item.outermostOf, List.append_nil]
    cases xs with
    | nil => exact absurd hv List.not_mem_nil
    | cons first rest => rwa [Item.composite, Item.outermost, if_neg hne]
  obtain ⟨p, k, ws, l, hgood, hws, rfl⟩ := hderives.of_checks
    (fun name _ => grammar_declaresOne name) (grammar_declaresOne .class_def) v hmem
  have hcount := hws.of_counts (beq_iff_eq.mp hgood)
  cases ws with
  | nil => cases hcount
  | cons first rest => exact hcount

theorem findOnlyChildOfType_iff {type : ItemType} {v name : Item ItemType} :
    findOnlyChildOfType type v = .ok name ↔ findChildrenOfType type v = [name] := by
  rw [findOnlyChildOfType]
  rcases findChildrenOfType type v with _ | ⟨y, _ | ⟨z, zs⟩⟩
  · exact iff_of_false (fun h => nomatch h) (fun h => nomatch h)
  · exact ⟨fun h => by cases h; rfl, fun h => by cases h; rfl⟩
  · exact iff_of_false (fun h => nomatch h) (fun h => nomatch h)

/-- What is not a name itself, where the search stops, is a parameter. -/
theorem params_iff {v : Item ItemType} :
    (∀ p ∈ outside .Param .VarName v.items, findChildrenOfType .VarName p = []) ↔
      ∀ y ∈ findAll (fun t => t = .VarName || t = .Param) v.items, y.isA .VarName = false →
        y.outermost .VarName = [] := by
  have hsame : (fun t : ItemType => decide (t = .Param) || decide (t = .VarName)) =
      fun t => decide (t = .VarName) || decide (t = .Param) := funext fun t => Bool.or_comm ..
  have hparam : ∀ y ∈ findAll (fun t => decide (t = .VarName) || decide (t = .Param)) v.items,
      (y.isA .Param = true ↔ y.isA .VarName = false) ∧
        (y.isA .Param = true → findChildrenOfType .VarName y = y.outermost .VarName) := by
    intro y hy
    obtain ⟨t, first, rest, rfl, ht⟩ := Item.type_of_mem_findAll hy
    rw [Bool.or_eq_true, decide_eq_true_eq, decide_eq_true_eq] at ht
    rcases ht with rfl | rfl
    · have hnot : ¬ (Item.node ItemType.VarName first rest).isA .Param = true := by
        simp [Item.isA]
      exact ⟨iff_of_false hnot (by simp [Item.isA]), fun h => absurd h hnot⟩
    · exact ⟨iff_of_true (by simp [Item.isA]) (by simp [Item.isA]), fun _ => rfl⟩
  rw [outside, hsame]
  simp only [List.mem_filter, and_imp]
  refine forall_congr' fun y => forall_congr' fun hy => ?_
  obtain ⟨hisA, hfind⟩ := hparam y hy
  rw [← hisA]
  exact forall_congr' fun h => by rw [hfind h]

/-- There is no other name in a variable definition than the declared one, exactly if its parameters
have none. -/
theorem findNames_eq_iff {v : Item ItemType} (h : (declaredNames v).length = 1) :
    (findChildrenOfType .VarName v).length = 1 ↔
      ∀ p ∈ outside .Param .VarName v.items, findChildrenOfType .VarName p = [] := by
  have hfind : findChildrenOfType .VarName v = _ := Item.outermostOf_eq .Param v.items
  have hname : ∀ y ∈ findAll (fun t => t = .VarName || t = .Param) v.items,
      y.isA .VarName = true → y.outermost .VarName = [y] := fun y _ => Item.outermost_of_isA
  rw [params_iff, ← length_flatMap_eq_iff hname, ← hfind, ← h]
  rfl

/-- The name that is found is the declared one. -/
theorem findOnlyName_iff {v : Item ItemType} (h : (declaredNames v).length = 1)
    {name : Item ItemType} : findOnlyChildOfType .VarName v = .ok name ↔
      (findChildrenOfType .VarName v).length = 1 ∧ declaredNames v = [name] := by
  have hfind : findChildrenOfType .VarName v = _ := Item.outermostOf_eq .Param v.items
  have hname : ∀ y ∈ findAll (fun t => t = .VarName || t = .Param) v.items,
      y.isA .VarName = true → y.outermost .VarName = [y] := fun y _ => Item.outermost_of_isA
  have hlist : (findChildrenOfType .VarName v).length = 1 →
      findChildrenOfType .VarName v = declaredNames v := by
    intro hlength
    have hparams := params_iff.mp ((findNames_eq_iff h).mp hlength)
    rw [hfind]
    exact flatMap_eq_filter hname hparams
  rw [findOnlyChildOfType_iff]
  constructor
  · intro heq
    have hlength : (findChildrenOfType .VarName v).length = 1 := by rw [heq]; rfl
    exact ⟨hlength, hlist hlength ▸ heq⟩
  · rintro ⟨hlength, heq⟩
    exact (hlist hlength).trans heq

theorem writes_of_names {m : Item ItemType} {names : List (List Char)} (hm : IsLessDecl text x m)
    (hnames : getMemberVarNames text x = .ok names) : Writes text x m names := by
  obtain ⟨-, htype, hless⟩ := hm
  refine ⟨fun _ scope o h hcopy => ?_, fun _ o => ?_⟩
  · rcases m with _ | ⟨t, first, rest⟩
    · cases htype
    obtain rfl : t = .FunctionDecl := of_decide_eq_true htype
    simp only [genClassMember, if_pos hless, hnames, copyToHeader, hcopy]
    rfl
  · rw [genTemplateClassMember, htype, hless, hnames]
    rfl

end Shape

/-- A class with a member that is a class with a variable -/
def innerVariable : List Char :=
  "struct A\x7bstruct B\x7bint c;\x7d;friend bool operator<(A x,A y);\x7d;".toList

/-- A result of the parser is such a class, and other names are collected than those of its
members. -/
def comparesOthers (text : List Char) : ParseResult Unit ItemType Rule → Bool
  | .ok ([x], _) => (members x).any fun m => m.isA .FunctionDecl &&
      isFriendOperatorLessDecl text m (getClassName text x) &&
      getMemberVarNames text x != .ok (memberNames text x)
  | _ => false

end Urnest.Hcp.Split
