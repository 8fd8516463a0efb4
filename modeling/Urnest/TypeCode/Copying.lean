import Urnest.TypeCode.Values

/-!
# Copying values

That `copyValue` agrees with the static codecs is an induction on what the codecs marshal.
Type codes and C++ types are kept together by `At`: a type code that createTypeCodeOf has
made for a type, somewhere inside a whole one, with those of the types it is enclosed by at
the numbers that references have.
-/

namespace Urnest.TypeCode

open Lib

variable {types : Declarations} {orb : Orb} {reported : Nat → List UInt8} {host : Bool}
  {target : Nat → Option Code}

/-! ## Where type codes are -/

/-- `target` has all of a type code, from the number `i` on. -/
def Holds (target : Nat → Option Code) (i : Nat) (nodes : List Code) : Prop :=
  ∀ k x, nodes[k]? = some x → target (i + k) = some x

theorem Holds.append {i : Nat} {xs ys : List Code} (h : Holds target i (xs ++ ys)) :
    Holds target i xs ∧ Holds target (i + xs.length) ys := by
  constructor
  · intro k x hx
    exact h k x (by rw [List.getElem?_append_left (List.getElem?_eq_some_iff.mp hx).1, hx])
  · intro k x hx
    have := h (xs.length + k) x (by rw [List.getElem?_append_right (by omega)]; simpa using hx)
    rwa [← Nat.add_assoc] at this

theorem Holds.tail {i : Nat} {x : Code} {xs : List Code} (h : Holds target i (x :: xs)) :
    Holds target (i + 1) xs := by
  have happend : Holds target i ([x] ++ xs) := h
  exact happend.append.2

/-- The types being created, with their numbers, and what each of them becomes -/
inductive Within (types : Declarations) (target : Nat → Option Code) :
    List (CxxType × Nat) → Prop
  | nil : Within types target []
  | cons {index : List (CxxType × Nat)} {t : CxxType} {i n i' : Nat} {c : Code}
      (h : Within types target index) (hnone : index.lookup t = none)
      (hwidth : t.width types.declared = none)
      (hc : createTypeCodeOf types n t index i = some (c, i'))
      (hholds : Holds target i c.nodes) : Within types target ((t, i) :: index)

/-- A type code that is made for a type -/
inductive At (types : Declarations) (target : Nat → Option Code) (t : CxxType) (c : Code) : Prop
  | intro {index : List (CxxType × Nat)} {n i i' : Nat} (h : Within types target index)
      (hc : createTypeCodeOf types n t index i = some (c, i')) (hholds : Holds target i c.nodes)

theorem head_nodes (c : Code) : c.nodes[0]? = some c := by
  cases c <;> simp [Code.nodes]

theorem Within.width {index : List (CxxType × Nat)} (h : Within types target index) :
    ∀ t j, index.lookup t = some j →
      j ∈ index.map Prod.snd ∧ t.width types.declared = none := by
  induction h with
  | nil => simp
  | cons h hnone hwidth hc hholds ih =>
    intro t j hj
    rcases lookup_entered hj with ⟨rfl, rfl⟩ | hj
    · exact ⟨by simp, hwidth⟩
    · exact ⟨List.mem_cons_of_mem _ (ih t j hj).1, (ih t j hj).2⟩

/-- What a reference is to is a type code that is made for the type, and not a reference. -/
theorem Within.lookup {index : List (CxxType × Nat)} (h : Within types target index) :
    ∀ {t j}, index.lookup t = some j → ∃ index' n c i', Within types target index' ∧
      index'.lookup t = none ∧ createTypeCodeOf types n t index' j = some (c, i') ∧
        Holds target j c.nodes := by
  induction h with
  | nil => simp
  | cons h hnone hwidth hc hholds ih =>
    intro t j hj
    rcases lookup_entered hj with ⟨rfl, rfl⟩ | hj
    · exact ⟨_, _, _, _, h, hnone, hc, hholds⟩
    · exact ih hj

theorem Within.length {index : List (CxxType × Nat)} (h : Within types target index)
    {n : Nat} {t : CxxType} {i : Nat} {c : Code} {i' : Nat}
    (hc : createTypeCodeOf types n t index i = some (c, i')) : i' = i + c.nodes.length :=
  (createTypeCodeOf_formed n _ hc h.width).1

/-- Cases or members with the type codes that are made for their types -/
inductive Each (P : CxxType → Code → Prop) : List Case → Members → Prop
  | nil : Each P [] .nil
  | cons {c : Case} {cs : List Case} {type : Code} {rest : Members} (h : P c.type type)
      (hs : Each P cs rest) : Each P (c :: cs) (.cons c.label c.name type rest)

theorem each_createMembers {create : CxxType → Nat → Option (Code × Nat)}
    (hcreate : ∀ t i c i', create t i = some (c, i') → i' = i + c.nodes.length ∧
      (Holds target i c.nodes → At types target t c)) :
    ∀ {cases : List Case} {i : Nat} {ms : Members} {i' : Nat},
      createMembers create cases i = some (ms, i') → Holds target i ms.nodes →
        Each (At types target) cases ms
  | [], i, ms, i', h, _ => by
    simp only [createMembers, Option.some.injEq, Prod.mk.injEq] at h
    obtain ⟨rfl, rfl⟩ := h
    exact .nil
  | c :: cs, i, ms, i', h, hholds => by
    simp only [createMembers, Option.bind_eq_bind, Option.bind_eq_some_iff, Option.some.injEq,
      Prod.mk.injEq] at h
    obtain ⟨⟨type, k⟩, htype, ⟨rest, k'⟩, hrest, rfl, rfl⟩ := h
    obtain ⟨rfl, hat⟩ := hcreate _ _ _ _ htype
    obtain ⟨hfirst, hthen⟩ := Holds.append hholds
    exact .cons (hat hfirst) (each_createMembers hcreate hrest hthen)

/-- What is made for a type that is not being created: its parts are made for the parts of
the type. -/
inductive Made (types : Declarations) (P : CxxType → Code → Prop) : CxxType → Code → Prop
  | void : Made types P .void (.leaf .void)
  | basic (b : Basic) : Made types P (.basic b) (.leaf (.basic b))
  | string : Made types P .string (.leaf (.string 0))
  | any : Made types P .any (.leaf .any)
  | ior (repoId name : CString) : Made types P (.ior repoId name) (.leaf (.ior repoId name))
  | vector {t : CxxType} {item : Code} (h : P t item) :
      Made types P (.vector t) (.repeated .sequence item 0)
  | array {t : CxxType} {item : Code} (n : UInt32) (h : P t item) :
      Made types P (.array t n) (.repeated .array item n)
  | enum {id : Nat} {repoId name : CString} {values : List CString}
      (hdeclared : types.declared id = some (.enum repoId name values)) :
      Made types P (.generated id) (.leaf (.enum repoId name values))
  | aggregate {id : Nat} {a : Aggregate} {repoId name : CString}
      {members : List (CString × CxxType)} {ms : Members}
      (hdeclared : types.declared id = some (.aggregate a repoId name members))
      (h : Each P (members.map fun m => ⟨[], m.1, m.2⟩) ms) :
      Made types P (.generated id) (.aggregate a repoId name ms)
  | union {id : Nat} {repoId name : CString} {t : CxxType} {descriminant : Code}
      {cases : List Case} {ms : Members} {d : Option UInt32}
      (hdeclared : types.declared id = some (.union repoId name t cases d))
      (h : P t descriminant) (hs : Each P cases ms) :
      Made types P (.generated id) (.union repoId name descriminant ms d)

theorem made_of_create {index : List (CxxType × Nat)} (h : Within types target index) {n : Nat}
    {t : CxxType} {i : Nat} {c : Code} {i' : Nat} (hnone : index.lookup t = none)
    (hc : createTypeCodeOf types n t index i = some (c, i')) (hholds : Holds target i c.nodes) :
    Made types (At types target) t c := by
  cases n with
  | zero => simp [createTypeCodeOf] at hc
  | succ n =>
    have hinner (hwidth : t.width types.declared = none) :
        Within types target ((t, i) :: index) := .cons h hnone hwidth hc hholds
    have hcreate (hwidth : t.width types.declared = none) := fun t' k c k'
        (hc : createTypeCodeOf types n t' ((t, i) :: index) k = some (c, k')) =>
      And.intro ((hinner hwidth).length hc) fun hholds => At.intro (hinner hwidth) hc hholds
    rw [createTypeCodeOf] at hc
    simp only [hnone] at hc
    cases t with
    | void | basic | string | any | ior =>
      simp only [Option.some.injEq, Prod.mk.injEq] at hc
      obtain ⟨rfl, rfl⟩ := hc
      constructor
    | vector t =>
      simp only [Option.bind_eq_bind, Option.bind_eq_some_iff, Option.some.injEq,
        Prod.mk.injEq] at hc
      obtain ⟨⟨item, k⟩, hitem, rfl, rfl⟩ := hc
      exact .vector ((hcreate rfl _ _ _ _ hitem).2 (Holds.tail hholds))
    | array t size =>
      simp only [Option.bind_eq_bind, Option.bind_eq_some_iff, Option.some.injEq,
        Prod.mk.injEq] at hc
      obtain ⟨⟨item, k⟩, hitem, rfl, rfl⟩ := hc
      exact .array size ((hcreate rfl _ _ _ _ hitem).2 (Holds.tail hholds))
    | generated id =>
      cases hdeclared : types.declared id with
      | none => simp [hdeclared] at hc
      | some declaration =>
        cases declaration with
        | enum repoId name values =>
          simp only [hdeclared, Option.some.injEq, Prod.mk.injEq] at hc
          obtain ⟨rfl, rfl⟩ := hc
          exact .enum hdeclared
        | aggregate a repoId name members =>
          simp only [hdeclared, Option.bind_eq_bind, Option.bind_eq_some_iff,
            Option.some.injEq, Prod.mk.injEq] at hc
          obtain ⟨⟨ms, k⟩, hms, rfl, rfl⟩ := hc
          have hwidth : (CxxType.generated id).width types.declared = none := by
            simp [CxxType.width, hdeclared]
          exact .aggregate hdeclared
            (each_createMembers (hcreate hwidth) hms (Holds.tail hholds))
        | union repoId name t' cases d =>
          simp only [hdeclared, Option.bind_eq_bind, Option.bind_eq_some_iff,
            Option.some.injEq, Prod.mk.injEq] at hc
          obtain ⟨⟨descriminant, k⟩, hd, ⟨ms, k'⟩, hms, rfl, rfl⟩ := hc
          have hwidth : (CxxType.generated id).width types.declared = none := by
            simp [CxxType.width, hdeclared]
          obtain ⟨rfl, hat⟩ := hcreate hwidth _ _ _ _ hd
          obtain ⟨hfirst, hthen⟩ := Holds.append (Holds.tail hholds)
          exact .union hdeclared (hat hfirst) (each_createMembers (hcreate hwidth) hms hthen)

/-- A type code that is made for a type is what createTypeCodeOf makes of the type, or a
reference to that. -/
theorem At.made {t : CxxType} {c : Code} (h : At types target t c) :
    ∃ c', Made types (At types target) t c' ∧
      (c = c' ∨ ∃ j, c = .reference j ∧ target j = some c') := by
  obtain @⟨index, n, i, i', h, hc, hholds⟩ := h
  cases hlookup : index.lookup t with
  | none => exact ⟨c, made_of_create h hlookup hc hholds, .inl rfl⟩
  | some j =>
    obtain ⟨index', n', c', k, h', hnone, hc', hholds'⟩ := h.lookup hlookup
    refine ⟨c', made_of_create h' hnone hc' hholds', .inr ⟨j, ?_, ?_⟩⟩
    · cases n with
      | zero => simp [createTypeCodeOf] at hc
      | succ n =>
        simp only [createTypeCodeOf, hlookup, Option.some.injEq, Prod.mk.injEq] at hc
        exact hc.1.symm
    · exact hholds' 0 c' (head_nodes c')

/-- The whole type code of a type -/
theorem at_created {t : CxxType} {c : Code} (h : Created types t c)
    (hat : ∀ j, target j = c.nodes[j]?) : At types target t c := by
  obtain ⟨n, i, h⟩ := h
  exact .intro .nil h fun k x hx => by rw [Nat.zero_add, hat, hx]

/-! ## What is copied -/

/-- All of some type codes, one after the other -/
def EachCopiesWithin (orb : Orb) (host : Bool) (target : Nat → Option Code) (n : Nat)
    (cs : List Code) (w : Writer) : Prop :=
  ∀ (p : Nat) (rest out : List UInt8), p + (w p).length < 2 ^ 31 →
    copyEach (copyValue orb host n target) cs ⟨host, p, w p ++ rest⟩ out =
      some (⟨host, p + (w p).length, rest⟩, out ++ w out.length)

theorem eachCopies_nil (n : Nat) : EachCopiesWithin orb host target n [] fun _ => [] := by
  intro p rest out _
  simp [copyEach]

theorem EachCopiesWithin.cons {n : Nat} {c : Code} {cs : List Code} {w ws : Writer}
    (h : CopiesWithin orb host target n c w) (hs : EachCopiesWithin orb host target n cs ws) :
    EachCopiesWithin orb host target n (c :: cs) (w.andThen ws) := by
  intro p rest out hfits
  rw [length_andThen] at hfits
  rw [copyEach, andThen_apply, List.append_assoc, h p _ out (by omega)]
  simp only [Option.bind_eq_bind, Option.bind_some]
  rw [hs _ rest _ (by omega)]
  simp only [andThen_apply, List.length_append, List.append_assoc, Nat.add_assoc]

/-- Copying through a reference takes a call more. -/
theorem copiesExactly_resolved {c c' : Code} {w : Writer}
    (hc : c = c' ∨ ∃ j, c = .reference j ∧ target j = some c') :
    CopiesExactly orb host target c w ↔ CopiesExactly orb host target c' w := by
  rcases hc with rfl | ⟨j, rfl, hj⟩
  · rfl
  · have hstep (n p : Nat) (rest out : List UInt8) :
        copyValue orb host (n + 1) target (.reference j) ⟨host, p, w p ++ rest⟩ out =
          copyValue orb host n target c' ⟨host, p, w p ++ rest⟩ out := by
      rw [copyValue, hj]
      rfl
    constructor
    · rintro ⟨N, hN⟩
      refine ⟨N, fun n hn p rest out hfits => ?_⟩
      rw [← hstep]
      exact hN (n + 1) (by omega) p rest out hfits
    · rintro ⟨N, hN⟩
      refine ⟨N + 1, fun n hn p rest out hfits => ?_⟩
      obtain ⟨n, rfl⟩ : ∃ k, n = k + 1 := ⟨n - 1, by omega⟩
      rw [hstep]
      exact hN n (by omega) p rest out hfits

/-! ## Type codes -/

/-- What a type code is marshalled to, wherever it can be, is what is unmarshalled. -/
theorem eq_encode {t : CxxType} {c : Code} (hc : Created types t c) {w : Writer}
    (h : ∀ out, ∃ index, c.marshal host 0 [] 0 ⟨out, []⟩ = some ⟨out ++ w out.length, index⟩) :
    w = c.encode recorded host 0 0 [] := by
  obtain ⟨n, i, hc⟩ := hc
  obtain ⟨-, hformed, -⟩ := createTypeCodeOf_formed n [] hc (by simp)
  have hkeys := createTypeCodeOf_keys n [] hc (by simp)
  funext p
  obtain ⟨index, hmarshal⟩ := h (List.replicate p 0)
  have hadds := c.marshal_adds hmarshal
  have hnodup := hadds.2 List.nodup_nil
  rw [hadds.1, show (Written.mk (List.replicate p 0) []).keys = [] from rfl,
    List.nil_append] at hnodup
  obtain ⟨new, hwritten, -⟩ := c.marshals 0 ⟨List.replicate p 0, []⟩
    (show Known [] [] [] by simp [Known]) (show InScope [] [] by simp [InScope]) hformed
    hnodup hkeys
  rw [hmarshal] at hwritten
  have := List.append_cancel_left (congrArg Written.out (Option.some.inj hwritten))
  rwa [List.length_replicate] at this

theorem copyTypeCode_eq {t : CxxType} {c : Code} (hc : Created types t c) {w : Writer}
    (h : ∀ out, ∃ index, c.marshal host 0 [] 0 ⟨out, []⟩ = some ⟨out ++ w out.length, index⟩)
    {n : Nat} (hn : c.nodes.length ≤ n) (p : Nat) (rest out : List UInt8)
    (hfits : p + (w p).length < 2 ^ 31) :
    ∃ ix, copyTypeCode host n ⟨host, p, w p ++ rest⟩ out =
        some (c, ix, ⟨host, p + (w p).length, rest⟩, out ++ w out.length) ∧
      ∀ j, ix.at? j = c.nodes[j]? := by
  have hw := eq_encode hc h
  obtain ⟨m, i, hc⟩ := hc
  obtain ⟨-, hformed, -⟩ := createTypeCodeOf_formed m [] hc (by simp)
  obtain ⟨index, hmarshal⟩ := h out
  rw [hw] at hfits hmarshal ⊢
  obtain ⟨ix, hread, hat⟩ := unmarshalFrom_encode hformed hn hfits rest
  refine ⟨ix, ?_, hat⟩
  rw [copyTypeCode, hread]
  simp only [hmarshal, Option.map_some]

/-! ## Octets and strings -/

theorem copyOctets_eq {octets : List UInt8} {size : Nat} (hsize : octets.length = size)
    {held : List UInt8 → List UInt8} (hheld : held octets = octets) (alignment p : Nat)
    (rest out : List UInt8) :
    copyOctets host alignment size held ⟨host, p, aligned alignment octets p ++ rest⟩ out =
      some (⟨host, p + (aligned alignment octets p).length, rest⟩,
        out ++ aligned alignment octets out.length) := by
  rw [copyOctets, take_aligned hsize]
  simp only [Option.bind_eq_bind, Option.bind_some, reorder, if_true, hheld]

theorem length_lt_of_fits {s : CString} {p : Nat}
    (h : p + (marshalString host s p).length < 2 ^ 31) : s.octets.length + 1 < 2 ^ 32 := by
  have := length_lt_marshalString host s p
  omega

/-! ## Unions -/

theorem Each.made {P : CxxType → Code → Prop} {cases : List Case} {ms : Members}
    (h : Each P cases ms) : List.Forall₂ P (cases.map Case.type) ms.types := by
  induction h with
  | nil => exact .nil
  | cons h hs ih => exact .cons h ih

theorem Each.nth {P : CxxType → Code → Prop} {cases : List Case} {ms : Members}
    (h : Each P cases ms) : ∀ k : Nat,
    (∃ c type, cases[k]? = some c ∧ ms.types[k]? = some type ∧ P c.type type) ∨
      cases[k]? = none ∧ ms.types[k]? = none := by
  induction h with
  | nil => exact fun k => .inr ⟨rfl, rfl⟩
  | @cons c cs type rest h hs ih =>
    intro k
    cases k with
    | zero => exact .inl ⟨c, type, rfl, rfl, h⟩
    | succ k => exact ih k

/-- The loop finds the type code of the case that a label is of. -/
theorem Each.caseOf {P : CxxType → Code → Prop} {cases : List Case} {ms : Members}
    (h : Each P cases ms) (d : Option UInt32) (label : List UInt8) : ∀ k,
    (∃ c type, TypeCode.caseOf d label k cases = some c ∧
      ms.caseOf d label k = some type ∧ P c.type type) ∨
      TypeCode.caseOf d label k cases = none ∧ ms.caseOf d label k = none := by
  induction h with
  | nil => exact fun k => .inr ⟨rfl, rfl⟩
  | @cons c cs type rest h hs ih =>
    intro k
    simp only [TypeCode.caseOf, Members.caseOf]
    split
    · exact ih (k + 1)
    · split
      · exact .inl ⟨c, type, rfl, rfl, h⟩
      · exact ih (k + 1)

/-- Without a default that gets lost, the member that is copied is that which is marshalled. -/
theorem Each.selected {P : CxxType → Code → Prop} {id : Nat} {repoId name : CString}
    {t : CxxType} {cases : List Case} {ms : Members} {d : Option UInt32}
    (h : Each P cases ms)
    (hdeclared : types.declared id = some (.union repoId name t cases d)) {label : List UInt8}
    (hkept : ¬DefaultLost types reported id label) :
    List.Forall₂ P (caseTypes types (reported id) t cases d label)
      (ms.selected d label).toList := by
  rw [caseTypes, Members.selected]
  rcases h.caseOf d label 0 with ⟨c, type, hc, htype, hP⟩ | ⟨hnone, hnone'⟩
  · rw [hc, htype]
    exact .cons hP .nil
  · rw [hnone, hnone']
    simp only [Option.orElse_none]
    cases d with
    | none => split <;> exact .nil
    | some d =>
      rw [if_neg fun hlost => hkept ⟨_, _, _, _, _, hdeclared, hlost.1, hlost.2, hnone⟩]
      simp only [Option.bind_some]
      rcases h.nth d.toNat with ⟨c, type, hc, htype, hP⟩ | ⟨hc, htype⟩
      · rw [hc, htype]
        exact .cons hP .nil
      · rw [hc, htype]
        exact .nil

/-! ## Every value -/

theorem copiesExactly_leaf {l : Leaf} {w : Writer}
    (h : ∃ N, ∀ n ≥ N, CopiesWithin orb host target (n + 1) (.leaf l) w) :
    CopiesExactly orb host target (.leaf l) w := by
  obtain ⟨N, hN⟩ := h
  refine ⟨N + 1, fun n hn => ?_⟩
  obtain ⟨n, rfl⟩ : ∃ k, n = k + 1 := ⟨n - 1, by omega⟩
  exact hN n (by omega)

theorem forall₂_replicate {P : CxxType → Code → Prop} {t : CxxType} {c : Code} (h : P t c) :
    ∀ n, List.Forall₂ P (List.replicate n t) (List.replicate n c)
  | 0 => .nil
  | n + 1 => .cons h (forall₂_replicate h n)

/-- A label stands in its stream as it is. -/
theorem Marshals.label {t : CxxType} {label : List UInt8} {w : Writer}
    (h : Marshals orb types reported host t (.octets label) w) : ∃ a, w = aligned a label := by
  cases h <;> exact ⟨_, rfl⟩

theorem aligned_zero (a : Nat) (octets : List UInt8) : aligned a octets 0 = octets := by
  simp [aligned, padding]

mutual

/-- By induction on what its codec marshals, a value is copied exactly where the default of
no union in it gets lost. -/
theorem Marshals.copies (horb : orb.ReadsBack) : ∀ {t : CxxType} {v : Value orb} {w : Writer},
    Marshals orb types reported host t v w →
    (∀ u ∈ v.unions, ¬DefaultLost types reported u.1 u.2) →
    ∀ {target : Nat → Option Code} {c : Code}, At types target t c →
      CopiesExactly orb host target c w
  | _, _, _, .void, hkept, target, c, hat => by
    obtain ⟨c', hmade, hc⟩ := hat.made
    cases hmade
    refine (copiesExactly_resolved hc).mpr (copiesExactly_leaf ⟨0, fun n _ p rest out _ => ?_⟩)
    simp [copyValue]
  | _, _, _, .basic b hb hsize hheld, hkept, target, c, hat => by
    obtain ⟨c', hmade, hc⟩ := hat.made
    cases hmade
    refine (copiesExactly_resolved hc).mpr (copiesExactly_leaf ⟨0, fun n _ p rest out _ => ?_⟩)
    simp only [copyValue, if_neg hb]
    exact copyOctets_eq hsize hheld _ p rest out
  | _, _, _, .string s, hkept, target, c, hat => by
    obtain ⟨c', hmade, hc⟩ := hat.made
    cases hmade
    refine (copiesExactly_resolved hc).mpr (copiesExactly_leaf ⟨0, fun n _ p rest out hfits => ?_⟩)
    simp only [copyValue, read_string (length_lt_of_fits hfits), Option.bind_eq_bind,
      Option.bind_some]
  | _, _, _, .typeCode (c := x) ht h, hkept, target, c, hat => by
    obtain ⟨c', hmade, hc⟩ := hat.made
    cases hmade
    refine (copiesExactly_resolved hc).mpr (copiesExactly_leaf ⟨x.nodes.length,
      fun n hn p rest out hfits => ?_⟩)
    obtain ⟨ix, heq, -⟩ := copyTypeCode_eq ht h hn p rest out hfits
    simp only [copyValue, if_true, heq, Option.map_some]
  | _, _, _, .ior repoId name s profiles, hkept, target, c, hat => by
    obtain ⟨c', hmade, hc⟩ := hat.made
    cases hmade
    refine (copiesExactly_resolved hc).mpr (copiesExactly_leaf ⟨0, fun n _ p rest out hfits => ?_⟩)
    have hs : p + (marshalString host s p).length < 2 ^ 31 := by
      rw [length_andThen] at hfits
      omega
    simp only [copyValue, andThen_apply, List.append_assoc, read_string (length_lt_of_fits hs),
      Option.bind_eq_bind, Option.bind_some, horb host profiles, List.length_append,
      Nat.add_assoc]
  | _, _, _, .any (c := x) ht h hv, hkept, target, c, hat => by
    obtain ⟨c', hmade, hc⟩ := hat.made
    cases hmade
    obtain ⟨N, hN⟩ := Marshals.copies horb hv hkept (at_created ht fun _ => rfl)
    refine (copiesExactly_resolved hc).mpr (copiesExactly_leaf ⟨max N x.nodes.length,
      fun n hn p rest out hfits => ?_⟩)
    rw [length_andThen] at hfits
    simp only [copyValue, andThen_apply, List.append_assoc]
    obtain ⟨ix, heq, hix⟩ := copyTypeCode_eq ht h (n := n) (by omega) p _ out (by omega)
    rw [heq]
    simp only [Option.bind_eq_bind, Option.bind_some]
    rw [show ix.at? = (x.nodes[·]?) from funext hix, hN n (by omega) _ rest _ (by omega)]
    simp only [List.length_append, List.append_assoc, Nat.add_assoc]
  | _, _, _, .vector hsize hvs, hkept, target, c, hat => by
    obtain ⟨c', hmade, hc⟩ := hat.made
    cases hmade with
    | vector hitem =>
      obtain ⟨N, hN⟩ := MarshalsEach.copies horb hvs hkept (forall₂_replicate hitem _)
      refine (copiesExactly_resolved hc).mpr ⟨N + 1, fun n hn p rest out hfits => ?_⟩
      obtain ⟨n, rfl⟩ : ∃ k, n = k + 1 := ⟨n - 1, by omega⟩
      rw [length_andThen] at hfits
      simp only [copyValue, andThen_apply, List.append_assoc, read_uLong hsize,
        Option.bind_eq_bind, Option.bind_some]
      rw [hN n (by omega) _ rest _ (by omega)]
      simp only [List.length_append, List.append_assoc, Nat.add_assoc]
  | _, _, _, .array hvs, hkept, target, c, hat => by
    obtain ⟨c', hmade, hc⟩ := hat.made
    cases hmade with
    | array size hitem =>
      obtain ⟨N, hN⟩ := MarshalsEach.copies horb hvs hkept (forall₂_replicate hitem _)
      refine (copiesExactly_resolved hc).mpr ⟨N + 1, fun n hn p rest out hfits => ?_⟩
      obtain ⟨n, rfl⟩ : ∃ k, n = k + 1 := ⟨n - 1, by omega⟩
      exact hN n (by omega) p rest out hfits
  | _, _, _, .enum hdeclared hk, hkept, target, c, hat => by
    obtain ⟨c', hmade, hc⟩ := hat.made
    cases hmade with
    | enum hdeclared' =>
      refine (copiesExactly_resolved hc).mpr (copiesExactly_leaf ⟨0, fun n _ p rest out _ => ?_⟩)
      exact copyOctets_eq (by rw [length_inOrder, length_toBytes]) rfl 4 p rest out
    | aggregate hdeclared' => cases hdeclared.symm.trans hdeclared'
    | union hdeclared' => cases hdeclared.symm.trans hdeclared'
  | _, _, _, .aggregate hdeclared hvs, hkept, target, c, hat => by
    obtain ⟨c', hmade, hc⟩ := hat.made
    cases hmade with
    | enum hdeclared' => cases hdeclared.symm.trans hdeclared'
    | union hdeclared' => cases hdeclared.symm.trans hdeclared'
    | aggregate hdeclared' hms =>
      cases hdeclared.symm.trans hdeclared'
      have hmembers := hms.made
      rw [List.map_map] at hmembers
      obtain ⟨N, hN⟩ := MarshalsEach.copies horb hvs hkept hmembers
      refine (copiesExactly_resolved hc).mpr ⟨N + 1, fun n hn p rest out hfits => ?_⟩
      obtain ⟨n, rfl⟩ : ∃ k, n = k + 1 := ⟨n - 1, by omega⟩
      exact hN n (by omega) p rest out hfits
  | _, _, _, .union hdeclared hlabel hvs, hkept, target, c, hat => by
    obtain ⟨c', hmade, hc⟩ := hat.made
    cases hmade with
    | enum hdeclared' => cases hdeclared.symm.trans hdeclared'
    | aggregate hdeclared' => cases hdeclared.symm.trans hdeclared'
    | union hdeclared' hd hms =>
      cases hdeclared.symm.trans hdeclared'
      rw [Value.unions, List.forall_mem_cons] at hkept
      obtain ⟨N, hN⟩ := Marshals.copies horb hlabel (by simp [Value.unions]) hd
      obtain ⟨M, hM⟩ := MarshalsEach.copies horb hvs hkept.2 (hms.selected hdeclared hkept.1)
      refine (copiesExactly_resolved hc).mpr ⟨max N M + 1, fun n hn p rest out hfits => ?_⟩
      obtain ⟨n, rfl⟩ : ∃ k, n = k + 1 := ⟨n - 1, by omega⟩
      rw [length_andThen] at hfits
      obtain ⟨a, rfl⟩ := hlabel.label
      have hzero := aligned_zero a
      have hcopy := hN n (by omega) 0 [] out (by
        rw [length_aligned] at hfits
        rw [hzero]
        omega)
      rw [List.append_nil, hzero] at hcopy
      rw [copyValue, andThen_apply, List.append_assoc, hN n (by omega) p _ [] (by omega)]
      simp only [Option.bind_eq_bind, Option.bind_some, List.nil_append, List.length_nil, hzero,
        hcopy]
      rw [hM n (by omega) _ rest _ (by omega)]
      simp only [andThen_apply, List.length_append, List.append_assoc, Nat.add_assoc]

theorem MarshalsEach.copies (horb : orb.ReadsBack) : ∀ {ts : List CxxType}
    {vs : List (Value orb)} {w : Writer}, MarshalsEach orb types reported host ts vs w →
    (∀ u ∈ unionsIn vs, ¬DefaultLost types reported u.1 u.2) →
    ∀ {target : Nat → Option Code} {cs : List Code}, List.Forall₂ (At types target) ts cs →
      ∃ N, ∀ n ≥ N, EachCopiesWithin orb host target n cs w
  | _, _, _, .nil, hkept, target, cs, hats => by
    cases hats
    exact ⟨0, fun n _ => eachCopies_nil n⟩
  | _, _, _, .cons hv hvs, hkept, target, cs, hats => by
    cases hats with
    | cons hat hats =>
      obtain ⟨N, hN⟩ := Marshals.copies horb hv (fun u hu => hkept u (by simp [unionsIn, hu])) hat
      obtain ⟨M, hM⟩ := MarshalsEach.copies horb hvs
        (fun u hu => hkept u (by simp [unionsIn, hu])) hats
      exact ⟨max N M, fun n hn => EachCopiesWithin.cons (hN n (by omega)) (hM n (by omega))⟩

end

/-! ## A default that gets lost -/

theorem take_nil {width n : Nat} (hn : n ≠ 0) (p : Nat) :
    (Input.mk host p []).take width n = none := by
  rw [Input.take, if_pos (by simp; omega)]

theorem uLong_nil (p : Nat) : (Input.mk host p []).uLong = none := by
  rw [Input.uLong, take_nil (by decide)]
  rfl

theorem string_nil (p : Nat) : (Input.mk host p []).string = none := by
  rw [Input.string, uLong_nil]
  rfl

theorem copyTypeCode_nil (n p : Nat) (out : List UInt8) :
    copyTypeCode host n ⟨host, p, []⟩ out = none := by
  cases n with
  | zero => rfl
  | succ n =>
    have hthrown : unmarshalTypeCodeFrom host (n + 1) 0 ⟨host, p, []⟩ ⟨[], []⟩ =
        .error (.thrown ⟨[] ++ [((0 + p) % 2 ^ 32, none)], []⟩) := by
      rw [unmarshalTypeCodeFrom]
      simp only [uLong_nil]
      rfl
    rw [copyTypeCode, unmarshalFrom, hthrown]
    by_cases hresolves : (Index.mk ([] ++ [((0 + p) % 2 ^ 32, none)]) []).resolves
    · simp only [if_pos hresolves]
    · simp only [if_neg hresolves]

theorem copyOctets_nil {alignment size : Nat} (hsize : size ≠ 0)
    (held : List UInt8 → List UInt8) (p : Nat) (out : List UInt8) :
    copyOctets host alignment size held ⟨host, p, []⟩ out = none := by
  rw [copyOctets, take_nil hsize]
  rfl

theorem copyValue_nil_of_made {t : CxxType} (h : ∀ {c : Code}, Made types (At types target) t c →
    ∀ (n p : Nat) (out : List UInt8),
      copyValue orb host (n + 1) target c ⟨host, p, []⟩ out = none) {c : Code}
    (hat : At types target t c) (n p : Nat) (out : List UInt8) :
    copyValue orb host n target c ⟨host, p, []⟩ out = none := by
  obtain ⟨c', hc', hc⟩ := hat.made
  cases n with
  | zero => rfl
  | succ n =>
    rcases hc with rfl | ⟨j, rfl, hj⟩
    · exact h hc' n p out
    · rw [copyValue, hj]
      cases n with
      | zero => rfl
      | succ n => exact h hc' n p out

/-- What takes octets is not copied where there are none. -/
theorem copyValue_nil {t : CxxType} (h : TakesOctets types t) :
    ∀ {c : Code}, At types target t c → ∀ (n p : Nat) (out : List UInt8),
      copyValue orb host n target c ⟨host, p, []⟩ out = none := by
  induction h with
  | basic b =>
    refine copyValue_nil_of_made fun hmade n p out => ?_
    cases hmade
    by_cases hb : b = .typeCode
    · simp only [copyValue, if_pos hb, copyTypeCode_nil, Option.map_none]
    · simp only [copyValue, if_neg hb]
      exact copyOctets_nil (by cases b <;> simp [Basic.size] at hb ⊢) _ p out
  | string | any | ior =>
    refine copyValue_nil_of_made fun hmade n p out => ?_
    cases hmade
    simp [copyValue, copyTypeCode_nil, string_nil]
  | vector =>
    refine copyValue_nil_of_made fun hmade n p out => ?_
    cases hmade
    simp [copyValue, uLong_nil]
  | array hn _ ih =>
    refine copyValue_nil_of_made fun hmade n p out => ?_
    cases hmade with
    | array size hitem =>
      obtain ⟨k, hk⟩ := Nat.exists_eq_succ_of_ne_zero hn
      simp only [copyValue, hk, List.replicate_succ, copyEach, ih hitem, Option.bind_eq_bind,
        Option.bind_none]
  | enum hdeclared =>
    refine copyValue_nil_of_made fun hmade n p out => ?_
    cases hmade with
    | enum hdeclared' => exact copyOctets_nil (by decide) _ p out
    | aggregate hdeclared' => cases hdeclared.symm.trans hdeclared'
    | union hdeclared' => cases hdeclared.symm.trans hdeclared'
  | aggregate hdeclared _ ih =>
    refine copyValue_nil_of_made fun hmade n p out => ?_
    cases hmade with
    | enum hdeclared' => cases hdeclared.symm.trans hdeclared'
    | union hdeclared' => cases hdeclared.symm.trans hdeclared'
    | aggregate hdeclared' hms =>
      cases hdeclared.symm.trans hdeclared'
      cases hms with
      | cons hm _ =>
        simp only [copyValue, Members.types, copyEach, ih hm, Option.bind_eq_bind,
          Option.bind_none]
  | union hdeclared _ ih =>
    refine copyValue_nil_of_made fun hmade n p out => ?_
    cases hmade with
    | enum hdeclared' => cases hdeclared.symm.trans hdeclared'
    | aggregate hdeclared' => cases hdeclared.symm.trans hdeclared'
    | union hdeclared' hd =>
      cases hdeclared.symm.trans hdeclared'
      simp only [copyValue, ih hd, Option.bind_eq_bind, Option.bind_none]

/-- An enumerator has four octets. -/
theorem Marshals.enumerator {t : CxxType} {label : List UInt8} {w : Writer}
    (h : Marshals orb types reported host t (.octets label) w) (ht : t.isEnum types = true) :
    w = aligned 4 label ∧ label.length = 4 := by
  cases h with
  | basic => simp [CxxType.isEnum] at ht
  | enum => exact ⟨rfl, by rw [length_inOrder, length_toBytes]⟩

/-- A union that has lost its default is not copied without what comes after it. -/
theorem not_copiesExactly_of_lost (horb : orb.ReadsBack) {t' : CxxType} {id : Nat}
    {label : List UInt8} {vs : List (Value orb)} {w : Writer}
    (hv : Marshals orb types reported host t' (.union id label vs) w)
    (hlost : DefaultLost types reported id label)
    (hoctets : ∀ repoId name t cases d, types.declared id = some (.union repoId name t cases d) →
      ∀ c ∈ cases, TakesOctets types c.type) {c : Code}
    (hat : At types target t' c) : ¬CopiesExactly orb host target c w := by
  obtain ⟨repoId, name, t, cases, d, hdeclared, henum, hreported, hnone⟩ := hlost
  obtain ⟨c', hmade, hc⟩ := hat.made
  rw [copiesExactly_resolved hc]
  cases hv with
  | union hdeclared' hlabel hvs =>
    cases hdeclared.symm.trans hdeclared'
    rw [caseTypes, hnone] at hvs
    simp only [henum, hreported, ne_eq, not_false_eq_true, and_self, if_true] at hvs
    cases hvs
    obtain ⟨rfl, hfour⟩ := hlabel.enumerator henum
    cases hmade with
    | enum hdeclared' => cases hdeclared.symm.trans hdeclared'
    | aggregate hdeclared' => cases hdeclared.symm.trans hdeclared'
    | @union _ _ _ _ descriminant _ ms _ hdeclared' hd hms =>
      cases hdeclared.symm.trans hdeclared'
      obtain ⟨N, hN⟩ := Marshals.copies horb hlabel (by simp [Value.unions]) hd
      have hselected : ∃ type, ms.selected (some d) label = some type ∧
          ∃ x ∈ cases, At types target x.type type := by
        rw [Members.selected]
        rcases hms.caseOf (some d) label 0 with ⟨x, type, hx, -, -⟩ | ⟨-, hnone'⟩
        · cases hnone.symm.trans hx
        · have hlt := types.default hdeclared d rfl
          rw [hnone', Option.orElse_none, Option.bind_some]
          rcases hms.nth d.toNat with ⟨x, type, hx, htype, hP⟩ | ⟨hnone, -⟩
          · exact ⟨type, htype, x, List.mem_of_getElem? hx, hP⟩
          · exact absurd (List.getElem?_eq_none_iff.mp hnone) (by omega)
      obtain ⟨type, htype, x, hx, hat⟩ := hselected
      rintro ⟨M, hM⟩
      have hcopied := hM (max N M + 1) (by omega) 0 [] []
        (by simp [aligned_zero, andThen_apply, hfour])
      have hlabelled := hN (max N M) (by omega) 0 [] [] (by simp [aligned_zero, hfour])
      simp only [andThen_apply, aligned_zero, List.append_nil, List.length_nil, List.nil_append,
        Nat.zero_add] at hcopied hlabelled
      simp only [copyValue, hlabelled, Option.bind_eq_bind, Option.bind_some, htype,
        Option.toList_some, copyEach, copyValue_nil (hoctets _ _ _ _ _ hdeclared x hx) hat]
        at hcopied
      cases hcopied

/-- A value in which no union loses its default is copied exactly, by the type code that
createTypeCodeOf makes for its type. A union that loses its default is not, as in IDL every
member takes octets. -/
theorem copyValue_exact (orb : Orb) (horb : orb.ReadsBack) (types : Declarations)
    (reported : Nat → List UInt8) (host : Bool) {t : CxxType} {c : Code} (hc : Created types t c)
    {v : Value orb} {w : Writer} (hv : Marshals orb types reported host t v w) :
    ((∀ u ∈ v.unions, ¬DefaultLost types reported u.1 u.2) →
      CopiesExactly orb host (c.nodes[·]?) c w) ∧
    ∀ id label vs, v = .union id label vs → DefaultLost types reported id label →
      (∀ repoId name t cases d, types.declared id = some (.union repoId name t cases d) →
        ∀ c ∈ cases, TakesOctets types c.type) →
      ¬CopiesExactly orb host (c.nodes[·]?) c w := by
  have hat : At types (c.nodes[·]?) t c := at_created hc fun _ => rfl
  constructor
  · intro hkept
    exact hv.copies horb hkept hat
  · rintro id label vs rfl hlost hoctets
    exact not_copiesExactly_of_lost horb hv hlost hoctets hat

/-! ## A union of four letters -/

/-- References to no object, which have no profiles -/
def nilOnly : Orb where
  Profiles := Unit
  write little _ := uLong little 0
  read i := i.uLong.bind fun (n, i) => if n = 0 then some ((), i) else none

theorem nilOnly_readsBack : nilOnly.ReadsBack := by
  intro little x p rest
  simp only [nilOnly]
  rw [read_uLong (by decide)]
  rfl

def letter (x : UInt8) (h : 0 ∉ [x] := by decide) : CString := ⟨[x], h⟩

/-- enum E {A,B,C,D}; union U switch(E) {case A: long a; default: long d;}; -/
def letterTypes : Declarations where
  declared
    | 0 => some (.enum (letter 69) (letter 69) [letter 65, letter 66, letter 67, letter 68])
    | 1 => some (.union (letter 85) (letter 85) (.generated 0)
      [⟨[0, 0, 0, 0], letter 97, .basic .long⟩, ⟨[0, 0, 0, 0], letter 100, .basic .long⟩] (some 1))
    | _ => none
  labels := by
    intro id repoId name t cases d h
    split at h <;> cases h
    exact ⟨4, rfl, by simp⟩
  default := by
    intro id repoId name t cases d h
    split at h <;> cases h
    simp

/-- Of B, C and D the front end reports B as the label of the default. -/
def letterReported (_ : Nat) : List UInt8 := [1, 0, 0, 0]

def letterUnion : Code :=
  .union (letter 85) (letter 85)
    (.leaf (.enum (letter 69) (letter 69) [letter 65, letter 66, letter 67, letter 68]))
    (.cons [0, 0, 0, 0] (letter 97) (.leaf (.basic .long))
      (.cons [0, 0, 0, 0] (letter 100) (.leaf (.basic .long)) .nil)) (some 1)

theorem letterUnion_created : Created letterTypes (.generated 1) letterUnion := ⟨3, 4, rfl⟩

/-- With B there is the default's member, as it should be. -/
theorem copyValue_exact_reported :
    CopiesExactly nilOnly true (letterUnion.nodes[·]?) letterUnion
      ((aligned 4 [1, 0, 0, 0]).andThen ((aligned 4 [7, 0, 0, 0]).andThen fun _ => [])) := by
  have hv : Marshals nilOnly letterTypes letterReported true (.generated 1)
      (.union 1 [1, 0, 0, 0] [.octets [7, 0, 0, 0]]) _ :=
    .union rfl (.enum (k := 1) rfl (by decide)) (.cons (.basic .long nofun rfl rfl) .nil)
  refine (copyValue_exact nilOnly nilOnly_readsBack letterTypes letterReported true
    letterUnion_created hv).1 ?_
  rintro u hu ⟨repoId, name, t, cases, d, h, -, hne, -⟩
  simp only [Value.unions, unionsIn, List.append_nil, List.mem_singleton] at hu
  subst hu
  exact hne rfl

/-- With C there is none, and copying goes on with what comes next. -/
theorem not_copiesExactly_third :
    ∃ w, Created letterTypes (.generated 1) letterUnion ∧
      Marshals nilOnly letterTypes letterReported true (.generated 1) (.union 1 [2, 0, 0, 0] []) w ∧
        ¬CopiesExactly nilOnly true (letterUnion.nodes[·]?) letterUnion w := by
  have hv : Marshals nilOnly letterTypes letterReported true (.generated 1)
      (.union 1 [2, 0, 0, 0] []) _ := .union rfl (.enum (k := 2) rfl (by decide)) .nil
  refine ⟨_, letterUnion_created, hv, ?_⟩
  refine not_copiesExactly_of_lost nilOnly_readsBack hv ⟨_, _, _, _, _, rfl, rfl, by decide, rfl⟩ ?_
    (at_created letterUnion_created fun _ => rfl)
  rintro repoId name t cases d h c hc
  cases h
  simp only [List.mem_cons, List.not_mem_nil, or_false] at hc
  rcases hc with rfl | rfl <;> exact .basic .long

end Urnest.TypeCode
