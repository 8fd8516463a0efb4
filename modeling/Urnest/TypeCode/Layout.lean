import Urnest.TypeCode.Codes

/-!
# The layout of type codes

`Code.encode` is what the CORBA specification says a type code is in a stream: its kind,
what follows it, in an encapsulation where there are parameters, and for a type that encloses
it an indirection to where that begins. Where a type begins is for `mark` to say, given where
the stream stood before it: for the specification its kind is what begins it, which is aligned
(`kindAt`), whereas the index of `marshal` has where the stream stood (`recorded`).

`marshal` goes through exactly where no two types are the same key of its index
(`Code.keys`), and then writes what `encode recorded` is.
-/

namespace Urnest.TypeCode

open Lib

/-! ## Streams -/

variable {little : Bool}

@[simp] theorem length_aligned (width : Nat) (octets : List UInt8) (p : Nat) :
    (aligned width octets p).length = padding width p + octets.length := by
  simp [aligned]

@[simp] theorem length_inOrder (octets : List UInt8) :
    (inOrder little octets).length = octets.length := by
  cases little <;> simp [inOrder]

@[simp] theorem length_uLong (little : Bool) (x p : Nat) :
    (uLong little x p).length = padding 4 p + 4 := by
  simp [uLong]

theorem padding_add_mod (p : Nat) : (p + padding 4 p) % 4 = 0 := by
  simp only [padding]
  omega

theorem padding_of_mod {p : Nat} (h : p % 4 = 0) : padding 4 p = 0 := by
  simp only [padding]
  omega

theorem padding_lt (p : Nat) : padding 4 p < 4 := Nat.mod_lt _ (by decide)

theorem andThen_apply (a b : Writer) (p : Nat) :
    a.andThen b p = a p ++ b (p + (a p).length) := rfl

theorem andThen_assoc (a b c : Writer) : (a.andThen b).andThen c = a.andThen (b.andThen c) := by
  funext p
  simp [andThen_apply, Nat.add_assoc]

@[simp] theorem put_out (s : Written) (w : Writer) : (s.put w).out = s.out ++ w s.out.length := rfl

@[simp] theorem put_index (s : Written) (w : Writer) : (s.put w).index = s.index := rfl

theorem put_put (s : Written) (a b : Writer) : (s.put a).put b = s.put (a.andThen b) := by
  simp [Written.put, andThen_apply]

/-- More in the index -/
def Written.add (s : Written) (new : List (Key × Nat)) : Written := ⟨s.out, s.index ++ new⟩

@[simp] theorem add_out (s : Written) (new : List (Key × Nat)) : (s.add new).out = s.out := rfl

@[simp] theorem add_index (s : Written) (new : List (Key × Nat)) :
    (s.add new).index = s.index ++ new := rfl

theorem add_nil (s : Written) : s.add [] = s := by
  rw [Written.add, List.append_nil]

theorem add_put (s : Written) (new : List (Key × Nat)) (w : Writer) :
    (s.add new).put w = (s.put w).add new := rfl

theorem add_add (s : Written) (new new' : List (Key × Nat)) :
    (s.add new).add new' = s.add (new ++ new') := by
  rw [Written.add, Written.add, Written.add, List.append_assoc]

/-! ## What the specification says -/

def Leaf.encode (little : Bool) : Leaf → Writer
  | .void => uLong little Kind.void.number
  | .any => uLong little Kind.any.number
  | .basic b => uLong little (Kind.basic b).number
  | .string maxSize =>
    (uLong little Kind.string.number).andThen (uLong little maxSize.toNat)
  | .enum repoId name values =>
    (uLong little Kind.enum.number).andThen (encapsulation little
      ((((marshalString little repoId).andThen (marshalString little name)).andThen
        (uLong little values.length)).andThen (marshalStrings little values)))
  | .ior repoId name =>
    (uLong little Kind.objRef.number).andThen (encapsulation little
      ((marshalString little repoId).andThen (marshalString little name)))

/-- `base` of the encapsulation behind a kind that is marshalled at `p` -/
def bodyBase (base p : Nat) : Nat := innerBase base (p + (padding 4 p + 4))

mutual

/-- The type code with the number `i`, in a stream that is `base` further than its own
positions say. `starts` are where the enclosing ones begin. -/
def Code.encode (mark : Nat → Nat) (little : Bool) :
    Code → Nat → Nat → List (Nat × Nat) → Writer
  | .leaf l, _, _, _ => l.encode little
  | .reference j, _, base, starts =>
    (uLong little 0xffffffff).andThen fun p =>
      uLong little (sub32 ((starts.lookup j).getD 0) (base + p)) p
  | .repeated r item bound, i, base, starts => fun p =>
    (uLong little (Kind.repeated r).number).andThen (encapsulation little
      ((item.encode mark little (i + 1) (bodyBase base p)
        ((i, mark (base + p)) :: starts)).andThen (uLong little bound.toNat))) p
  | .aggregate a repoId name members, i, base, starts => fun p =>
    (uLong little (Kind.aggregate a).number).andThen (encapsulation little
      ((((marshalString little repoId).andThen (marshalString little name)).andThen
        (uLong little members.length)).andThen
          (members.encode mark little 0 (i + 1) (bodyBase base p)
            ((i, mark (base + p)) :: starts)))) p
  | .union repoId name descriminant cases d, i, base, starts => fun p =>
    (uLong little Kind.union.number).andThen (encapsulation little
      ((((((marshalString little repoId).andThen (marshalString little name)).andThen
        (descriminant.encode mark little (i + 1) (bodyBase base p)
          ((i, mark (base + p)) :: starts))).andThen
        (uLong little ((d.map UInt32.toNat).getD 0xffffffff))).andThen
        (uLong little cases.length)).andThen
          (cases.encode mark little (descriminant.width.getD 0)
            (i + 1 + descriminant.nodes.length) (bodyBase base p)
            ((i, mark (base + p)) :: starts)))) p

def Members.encode (mark : Nat → Nat) (little : Bool) (width : Nat) :
    Members → Nat → Nat → List (Nat × Nat) → Writer
  | .nil, _, _, _ => fun _ => []
  | .cons label name type rest, i, base, starts =>
    (((aligned width label).andThen (marshalString little name)).andThen
      (type.encode mark little i base starts)).andThen
        (rest.encode mark little width (i + type.nodes.length) base starts)

end

/-- Where a type's kind is -/
def kindAt (p : Nat) : Nat := p + padding 4 p

/-- What the index has -/
def recorded (p : Nat) : Nat := p % 2 ^ 32

/-! ## Keys -/

mutual

/-- The keys of the types in a type code, references left out. Behind a key that cannot be
found nothing is looked at. -/
def Code.keys : Code → List (Nat × Key) → Nat → List (Option Key)
  | .reference _, _, _ => []
  | .leaf l, _, _ => [some l.key]
  | .repeated r item bound, enclosing, i =>
    match Code.key enclosing (.repeated r item bound) with
    | none => [none]
    | some k => some k :: item.keys ((i, k) :: enclosing) (i + 1)
  | .aggregate a repoId _ members, enclosing, i =>
    some (.aggregate a repoId) :: members.keys ((i, .aggregate a repoId) :: enclosing) (i + 1)
  | .union repoId _ descriminant cases _, enclosing, i =>
    some (.union repoId) :: (descriminant.keys ((i, .union repoId) :: enclosing) (i + 1) ++
      cases.keys ((i, .union repoId) :: enclosing) (i + 1 + descriminant.nodes.length))

def Members.keys : Members → List (Nat × Key) → Nat → List (Option Key)
  | .nil, _, _ => []
  | .cons _ _ type rest, enclosing, i =>
    type.keys enclosing i ++ rest.keys enclosing (i + type.nodes.length)

end

/-- The keys that are in an index -/
def Written.keys (s : Written) : List (Option Key) := s.index.map fun e => some e.1

@[simp] theorem put_keys (s : Written) (w : Writer) : (s.put w).keys = s.keys := rfl

theorem find_eq_none {index : List (Key × Nat)} {k : Key} (h : find index k = none) :
    some k ∉ index.map fun e => some e.1 := by
  intro hk
  obtain ⟨e, he, hek⟩ := List.mem_map.mp hk
  rw [find, List.lookup_eq_none_iff] at h
  have := h e he
  simp_all

theorem find_of_notMem {index : List (Key × Nat)} {k : Key}
    (h : some k ∉ index.map fun e => some e.1) : find index k = none := by
  rw [find, List.lookup_eq_none_iff]
  intro e he
  have : e.1 ≠ k := by
    rintro rfl
    exact h (List.mem_map_of_mem he)
  simpa using fun hk => this hk.symm

theorem find_append_some {index new : List (Key × Nat)} {k : Key} {p : Nat}
    (h : find index k = some p) : find (index ++ new) k = some p := by
  rw [find] at h ⊢
  rw [List.lookup_append, h]
  rfl

theorem find_concat {index : List (Key × Nat)} {k : Key} (h : find index k = none) (p : Nat) :
    find (index ++ [(k, p)]) k = some p := by
  rw [find] at h ⊢
  rw [List.lookup_append, h]
  simp

/-- What `enter` does to the index -/
theorem enter_eq_some {k : Key} {base : Nat} {s s' : Written} (h : enter k base s = some s') :
    find s.index k = none ∧ s' = ⟨s.out, s.index ++ [(k, currentPosition base s.out)]⟩ := by
  rw [enter] at h
  split_ifs at h with hfind
  exact ⟨by simpa using hfind, (Option.some.inj h).symm⟩

theorem enter_keys {k : Key} {base : Nat} {s s' : Written} (h : enter k base s = some s') :
    s'.keys = s.keys ++ [some k] ∧ (s.keys.Nodup → s'.keys.Nodup) := by
  obtain ⟨hnone, rfl⟩ := enter_eq_some h
  have hkeys : (⟨s.out, s.index ++ [(k, currentPosition base s.out)]⟩ : Written).keys =
      s.keys ++ [some k] := by
    simp [Written.keys]
  refine ⟨hkeys, fun hs => ?_⟩
  rw [hkeys]
  exact List.Nodup.append hs (List.nodup_singleton _)
    (List.disjoint_singleton.mpr (find_eq_none hnone))

theorem close_keys {base : Nat} {s es s' : Written} (h : close little base s es = some s') :
    s'.keys = es.keys := by
  rw [close] at h
  split_ifs at h
  rw [← Option.some.inj h]
  rfl

theorem copyLabel_keys {width : Nat} {label : List UInt8} {s s' : Written}
    (h : copyLabel width label s = some s') : s'.keys = s.keys := by
  rw [copyLabel] at h
  split_ifs at h
  rw [← Option.some.inj h]
  rfl

theorem Leaf.marshal_keys {l : Leaf} {base : Nat} {s s' : Written}
    (h : l.marshal_ little base s = some s') : s'.keys = s.keys := by
  cases l <;> simp only [Leaf.marshal_] at h
  case enum => rw [close_keys h]; simp only [Written.keys, put_index]
  case ior => rw [close_keys h]; simp only [Written.keys, put_index]
  all_goals
    rw [← Option.some.inj h]
    simp only [put_keys]

/-- What adds keys to an index, no key twice -/
def Adds (s s' : Written) (keys : List (Option Key)) : Prop :=
  s'.keys = s.keys ++ keys ∧ (s.keys.Nodup → s'.keys.Nodup)

theorem Adds.refl (s : Written) : Adds s s [] := ⟨by simp, id⟩

theorem Adds.trans {s₁ s₂ s₃ : Written} {ks ks' : List (Option Key)} (h : Adds s₁ s₂ ks)
    (h' : Adds s₂ s₃ ks') : Adds s₁ s₃ (ks ++ ks') :=
  ⟨by rw [h'.1, h.1, List.append_assoc], h'.2 ∘ h.2⟩

/-- The stream has no part in it. -/
theorem Adds.congr {s₁ s₂ t₁ t₂ : Written} {ks : List (Option Key)} (h : Adds s₁ s₂ ks)
    (h₁ : t₁.keys = s₁.keys) (h₂ : t₂.keys = s₂.keys) : Adds t₁ t₂ ks := by
  rw [Adds, h₁, h₂]
  exact h

theorem adds_enter {k : Key} {base : Nat} {s s' : Written} (h : enter k base s = some s') :
    Adds s s' [some k] := enter_keys h

mutual

/-- What is marshalled adds its keys to the index. -/
theorem Code.marshal_adds : ∀ (c : Code) {i : Nat} {enclosing : List (Nat × Key)} {base : Nat}
    {s s' : Written}, c.marshal little i enclosing base s = some s' →
    Adds s s' (c.keys enclosing i)
  | .reference j, i, enclosing, base, s, s', h => by
    simp only [Code.marshal, Option.bind_eq_bind, Option.bind_eq_some_iff,
      Option.some.injEq] at h
    obtain ⟨k, hk, p, hp, rfl⟩ := h
    exact (Adds.refl s).congr rfl (by simp)
  | .leaf l, i, enclosing, base, s, s', h => by
    simp only [Code.marshal, Option.bind_eq_bind, Option.bind_eq_some_iff] at h
    obtain ⟨s₁, hs₁, h⟩ := h
    exact (adds_enter hs₁).congr rfl (Leaf.marshal_keys h)
  | .repeated r item bound, i, enclosing, base, s, s', h => by
    simp only [Code.marshal, Option.bind_eq_bind, Option.bind_eq_some_iff] at h
    obtain ⟨k, hk, s₁, hs₁, es, hes, h⟩ := h
    rw [Code.keys, hk]
    refine (adds_enter hs₁).trans ((item.marshal_adds hes).congr ?_ ?_)
    · simp [Written.keys]
    · rw [close_keys h, put_keys]
  | .aggregate a repoId name members, i, enclosing, base, s, s', h => by
    simp only [Code.marshal, Option.bind_eq_bind, Option.bind_eq_some_iff] at h
    obtain ⟨s₁, hs₁, es, hes, h⟩ := h
    rw [Code.keys]
    refine (adds_enter hs₁).trans ((members.marshal_adds hes).congr ?_ (close_keys h))
    simp [Written.keys]
  | .union repoId name descriminant cases d, i, enclosing, base, s, s', h => by
    simp only [Code.marshal, Option.bind_eq_bind, Option.bind_eq_some_iff] at h
    obtain ⟨s₁, hs₁, es, hes, width, hwidth, es', hes', h⟩ := h
    rw [Code.keys]
    refine (adds_enter hs₁).trans (Adds.congr ((descriminant.marshal_adds hes).trans
      ((cases.marshal_adds hes').congr ?_ rfl)) ?_ (close_keys h))
    · simp only [put_keys]
    · simp [Written.keys]

theorem Members.marshal_adds : ∀ (ms : Members) {width i : Nat} {enclosing : List (Nat × Key)}
    {base : Nat} {s s' : Written}, ms.marshal little width i enclosing base s = some s' →
    Adds s s' (ms.keys enclosing i)
  | .nil, width, i, enclosing, base, s, s', h => by
    rw [← Option.some.inj h]
    exact Adds.refl s
  | .cons label name type rest, width, i, enclosing, base, s, s', h => by
    simp only [Members.marshal, Option.bind_eq_bind, Option.bind_eq_some_iff] at h
    obtain ⟨s₁, hs₁, s₂, hs₂, h⟩ := h
    exact ((type.marshal_adds hs₂).congr (by rw [put_keys, copyLabel_keys hs₁]) rfl).trans
      (rest.marshal_adds h)

end

/-! ## marshal writes the layout -/

mutual

/-- References are to enclosing types, and labels have the width of their descriminant. -/
def Code.Formed : Code → Nat → List Nat → Prop
  | .leaf _, _, _ => True
  | .reference j, _, scope => j ∈ scope
  | .repeated _ item _, i, scope => item.Formed (i + 1) (i :: scope)
  | .aggregate _ _ _ members, i, scope => members.Formed 0 (i + 1) (i :: scope)
  | .union _ _ descriminant cases d, i, scope =>
    descriminant.Formed (i + 1) (i :: scope) ∧
      (∃ width, descriminant.width = some width ∧
        cases.Formed width (i + 1 + descriminant.nodes.length) (i :: scope)) ∧
      ∀ n ∈ d, n.toNat < cases.length

def Members.Formed : Members → Nat → Nat → List Nat → Prop
  | .nil, _, _, _ => True
  | .cons label _ type rest, width, i, scope =>
    label.length = width ∧ type.Formed i scope ∧
      rest.Formed width (i + type.nodes.length) scope

end

/-- The index has each enclosing type where it begins. -/
def Known (enclosing : List (Nat × Key)) (starts : List (Nat × Nat))
    (index : List (Key × Nat)) : Prop :=
  ∀ j k, enclosing.lookup j = some k → ∃ p, starts.lookup j = some p ∧ find index k = some p

theorem Known.enter {enclosing : List (Nat × Key)} {starts : List (Nat × Nat)}
    {index : List (Key × Nat)} (h : Known enclosing starts index) {k : Key}
    (hk : find index k = none) (i p : Nat) :
    Known ((i, k) :: enclosing) ((i, p) :: starts) (index ++ [(k, p)]) := by
  intro j k' hj
  rw [List.lookup_cons] at hj ⊢
  cases hji : j == i with
  | true =>
    simp only [hji, Option.some.injEq] at hj ⊢
    exact ⟨p, rfl, hj ▸ find_concat hk p⟩
  | false =>
    simp only [hji] at hj ⊢
    obtain ⟨q, hq, hfind⟩ := h j k' hj
    exact ⟨q, hq, find_append_some hfind⟩

theorem Known.append {enclosing : List (Nat × Key)} {starts : List (Nat × Nat)}
    {index : List (Key × Nat)} (h : Known enclosing starts index) (new : List (Key × Nat)) :
    Known enclosing starts (index ++ new) := fun j k hj =>
  let ⟨q, hq, hfind⟩ := h j k hj
  ⟨q, hq, find_append_some hfind⟩

/-- Those in scope are known. -/
def InScope (scope : List Nat) (enclosing : List (Nat × Key)) : Prop :=
  ∀ j ∈ scope, ∃ k, enclosing.lookup j = some k

theorem InScope.cons {scope : List Nat} {enclosing : List (Nat × Key)}
    (h : InScope scope enclosing) (i : Nat) (k : Key) :
    InScope (i :: scope) ((i, k) :: enclosing) := by
  intro j hj
  rw [List.lookup_cons]
  cases hji : j == i with
  | true => exact ⟨k, rfl⟩
  | false =>
    have hne : j ≠ i := by simpa using hji
    obtain ⟨k', hk'⟩ := h j ((List.mem_cons.mp hj).resolve_left hne)
    exact ⟨k', hk'⟩

theorem length_put_uLong_mod (little : Bool) (s : Written) (x : Nat) :
    (s.put (uLong little x)).out.length % 4 = 0 := by
  have := padding_add_mod s.out.length
  simp only [put_out, List.length_append, length_uLong]
  omega

/-- The assertion of `close` holds where it follows a kind. -/
theorem close_eq {base : Nat} {s : Written} (hs : s.out.length % 4 = 0) (body : Writer)
    (index new : List (Key × Nat)) :
    close little base s (((Written.mk [byteOrder little] index).put body).add new) =
      some (((Written.mk s.out index).put (encapsulation little body)).add new) := by
  rw [close, if_pos]
  · rfl
  · simp only [currentPosition, innerBase, put_out, andThen_apply, List.length_append,
      length_uLong, padding_of_mod hs]
    congr 1
    omega

theorem close_leaf {base : Nat} {s : Written} (hs : s.out.length % 4 = 0) (body : Writer) :
    close little base s ((Written.mk [byteOrder little] s.index).put body) =
      some (s.put (encapsulation little body)) := by
  rw [← add_nil ((Written.mk _ _).put body), close_eq hs, add_nil]

theorem enter_eq {k : Key} {s : Written} (base : Nat) (h : some k ∉ s.keys) :
    enter k base s = some (s.add [(k, recorded (base + s.out.length))]) := by
  rw [enter, find_of_notMem h]
  rfl

theorem copyLabel_eq {width : Nat} {label : List UInt8} (s : Written)
    (h : label.length = width) : copyLabel width label s = some (s.put (aligned width label)) := by
  rw [copyLabel, if_neg (by omega), ← h, List.take_length]

theorem Leaf.marshal_eq (l : Leaf) (base : Nat) (s : Written) :
    l.marshal_ little base s = some (s.put (l.encode little)) := by
  have hmod := length_put_uLong_mod little s
  cases l with
  | void | any | basic => rfl
  | string => rw [Leaf.marshal_, put_put]; rfl
  | enum repoId name values =>
    simp only [Leaf.marshal_, put_put]
    rw [close_leaf (hmod _), put_put]
    rfl
  | ior repoId name =>
    simp only [Leaf.marshal_, put_put]
    rw [close_leaf (hmod _), put_put]
    rfl

theorem sub32_mod (a b : Nat) : sub32 a (b % 2 ^ 32) = sub32 a b := by
  rw [sub32, sub32, Nat.mod_mod]

/-- What a key that is entered leaves to be entered -/
theorem nodup_enter {ks ks' : List (Option Key)} {k : Option Key}
    (h : (ks ++ k :: ks').Nodup) : k ∉ ks ∧ ((ks ++ [k]) ++ ks').Nodup := by
  rw [List.append_assoc]
  refine ⟨fun hk => ?_, h⟩
  exact (List.nodup_append.mp h).2.2 k hk k List.mem_cons_self rfl

/-- Where the stream of an encapsulation begins, behind a kind -/
theorem innerBase_kind (base x : Nat) (s : Written) :
    innerBase base (s.put (uLong little x)).out.length = bodyBase base s.out.length := by
  simp [bodyBase]

/-- A writer is asked at the end of what is written. -/
theorem put_congr {s : Written} {w w' : Writer} (h : w s.out.length = w' s.out.length) :
    s.put w = s.put w' := by
  rw [Written.put, Written.put, h]

/-- A kind, and an encapsulation, of what is entered -/
theorem entered_eq (s : Written) (k : Key) (p : Nat) {x : Nat} {body : Writer}
    (new : List (Key × Nat)) :
    ((Written.mk ((s.put (uLong little x)).add [(k, p)]).out (s.index ++ [(k, p)])).put
      (encapsulation little body)).add new =
      (s.put ((uLong little x).andThen (encapsulation little body))).add ((k, p) :: new) := by
  simp [Written.put, Written.add, andThen_apply]

/-- A type code of which no two types have the same key is marshalled as it should be, but
for where types are said to begin. -/
def Code.Marshals (little : Bool) (c : Code) : Prop :=
  ∀ {i : Nat} {enclosing : List (Nat × Key)} {starts : List (Nat × Nat)} {scope : List Nat}
    (base : Nat) (s : Written),
    Known enclosing starts s.index → InScope scope enclosing → c.Formed i scope →
    (s.keys ++ c.keys enclosing i).Nodup → none ∉ c.keys enclosing i →
    ∃ new, c.marshal little i enclosing base s =
        some ((s.put (c.encode recorded little i base starts)).add new) ∧
      new.map (fun e => some e.1) = c.keys enclosing i

def Members.Marshals (little : Bool) (ms : Members) : Prop :=
  ∀ {width i : Nat} {enclosing : List (Nat × Key)} {starts : List (Nat × Nat)}
    {scope : List Nat} (base : Nat) (s : Written),
    Known enclosing starts s.index → InScope scope enclosing → ms.Formed width i scope →
    (s.keys ++ ms.keys enclosing i).Nodup → none ∉ ms.keys enclosing i →
    ∃ new, ms.marshal little width i enclosing base s =
        some ((s.put (ms.encode recorded little width i base starts)).add new) ∧
      new.map (fun e => some e.1) = ms.keys enclosing i

theorem marshals_reference (j : Nat) : (Code.reference j).Marshals little := by
  intro i enclosing starts scope base s hknown hscope hformed _ _
  obtain ⟨k, hk⟩ := hscope j hformed
  obtain ⟨p, hp, hfind⟩ := hknown j k hk
  refine ⟨[], ?_, rfl⟩
  simp only [Code.marshal, hk, hfind, Option.bind_eq_bind, Option.bind_some, put_put]
  simp [Written.put, Written.add, Code.encode, andThen_apply, hp, currentPosition]
  congr 1
  exact sub32_mod _ _

theorem marshals_leaf (l : Leaf) : (Code.leaf l).Marshals little := by
  intro i enclosing starts scope base s _ _ _ hnodup _
  rw [Code.keys] at hnodup
  refine ⟨[(l.key, recorded (base + s.out.length))], ?_, by rw [Code.keys]; rfl⟩
  simp only [Code.marshal, enter_eq base (nodup_enter hnodup).1, Option.bind_eq_bind,
    Option.bind_some, Leaf.marshal_eq]
  rfl

theorem marshals_repeated (r : Repeated) {item : Code} (bound : UInt32)
    (h : item.Marshals little) : (Code.repeated r item bound).Marshals little := by
  intro i enclosing starts scope base s hknown hscope hformed hnodup hnone
  rw [Code.keys] at hnodup hnone ⊢
  cases hk : Code.key enclosing (.repeated r item bound) with
  | none => simp [hk] at hnone
  | some k =>
    simp only [hk] at hnodup hnone ⊢
    obtain ⟨hfresh, hnodup⟩ := nodup_enter hnodup
    obtain ⟨new, hitem, hnew⟩ := h (bodyBase base s.out.length)
      (⟨[byteOrder little], s.index ++ [(k, recorded (base + s.out.length))]⟩)
      (hknown.enter (find_of_notMem hfresh) i _) (hscope.cons i k) hformed
      (by simpa [Written.keys] using hnodup) (fun h => hnone (List.mem_cons_of_mem _ h))
    refine ⟨(k, recorded (base + s.out.length)) :: new, ?_, by rw [List.map_cons, hnew]⟩
    simp only [Code.marshal, hk, enter_eq base hfresh, Option.bind_eq_bind, Option.bind_some,
      innerBase_kind, put_index, add_index, add_out, hitem, add_put, put_put]
    rw [close_eq (s := (s.put (uLong little _)).add _) (length_put_uLong_mod little s _)]
    exact congrArg some (entered_eq s k _ new)

theorem marshals_aggregate (a : Aggregate) (repoId name : CString) {members : Members}
    (h : members.Marshals little) : (Code.aggregate a repoId name members).Marshals little := by
  intro i enclosing starts scope base s hknown hscope hformed hnodup hnone
  rw [Code.keys] at hnodup hnone ⊢
  obtain ⟨hfresh, hnodup⟩ := nodup_enter hnodup
  obtain ⟨new, hmembers, hnew⟩ := h (bodyBase base s.out.length)
    ((Written.mk [byteOrder little]
      (s.index ++ [(.aggregate a repoId, recorded (base + s.out.length))])).put
        (((marshalString little repoId).andThen (marshalString little name)).andThen
          (uLong little members.length)))
    (hknown.enter (find_of_notMem hfresh) i _) (hscope.cons i _) hformed
    (by simpa [Written.keys] using hnodup) (fun h => hnone (List.mem_cons_of_mem _ h))
  refine ⟨(.aggregate a repoId, recorded (base + s.out.length)) :: new, ?_,
    by rw [List.map_cons, hnew]⟩
  simp only [Code.marshal, enter_eq base hfresh, Option.bind_eq_bind, Option.bind_some,
    innerBase_kind, put_index, add_index, add_out, add_put, put_put, hmembers]
  rw [close_eq (s := (s.put (uLong little _)).add _) (length_put_uLong_mod little s _)]
  exact congrArg some (entered_eq s _ _ new)

theorem marshals_union (repoId name : CString) {descriminant : Code} {cases : Members}
    (d : Option UInt32) (h : descriminant.Marshals little) (h' : cases.Marshals little) :
    (Code.union repoId name descriminant cases d).Marshals little := by
  intro i enclosing starts scope base s hknown hscope hformed hnodup hnone
  obtain ⟨hdescriminant, ⟨width, hwidth, hcases⟩, -⟩ := hformed
  rw [Code.keys] at hnodup hnone ⊢
  obtain ⟨hfresh, hnodup⟩ := nodup_enter hnodup
  rw [← List.append_assoc] at hnodup
  have hknown := hknown.enter (find_of_notMem hfresh) i (recorded (base + s.out.length))
  obtain ⟨new, hmarshal, hnew⟩ := h (bodyBase base s.out.length)
    ((Written.mk [byteOrder little]
      (s.index ++ [(.union repoId, recorded (base + s.out.length))])).put
        ((marshalString little repoId).andThen (marshalString little name)))
    hknown (hscope.cons i _) hdescriminant
    (by simpa [Written.keys] using (List.nodup_append.mp hnodup).1)
    (fun h => hnone (List.mem_cons_of_mem _ (List.mem_append_left _ h)))
  obtain ⟨new', hmarshal', hnew'⟩ := h' (bodyBase base s.out.length)
    (((Written.mk [byteOrder little]
      (s.index ++ [(.union repoId, recorded (base + s.out.length))])).put
        (((((marshalString little repoId).andThen (marshalString little name)).andThen
          (descriminant.encode recorded little (i + 1) (bodyBase base s.out.length)
            ((i, recorded (base + s.out.length)) :: starts))).andThen
          (uLong little ((d.map UInt32.toNat).getD 0xffffffff))).andThen
          (uLong little cases.length))).add new)
    (hknown.append new) (hscope.cons i _) hcases
    (by simpa [Written.keys, hnew] using hnodup)
    (fun h => hnone (List.mem_cons_of_mem _ (List.mem_append_right _ h)))
  refine ⟨(.union repoId, recorded (base + s.out.length)) :: (new ++ new'), ?_,
    by rw [List.map_cons, List.map_append, hnew, hnew']⟩
  simp only [add_put, put_put, andThen_assoc] at hmarshal hmarshal'
  simp only [Code.marshal, enter_eq base hfresh, Option.bind_eq_bind, Option.bind_some,
    innerBase_kind, put_index, add_index, add_out, add_put, put_put, andThen_assoc, hmarshal,
    hwidth, hmarshal', add_add]
  rw [close_eq (s := (s.put (uLong little _)).add _) (length_put_uLong_mod little s _)]
  refine congrArg some ((entered_eq s _ _ _).trans ?_)
  simp only [Code.encode, hwidth, Option.getD_some, andThen_assoc]
  exact congrArg (Written.add · _) (put_congr rfl)

theorem marshals_nil : Members.nil.Marshals little := by
  intro width i enclosing starts scope base s _ _ _ _ _
  exact ⟨[], by simp [Members.marshal, Members.encode, Written.put, Written.add], rfl⟩

theorem marshals_cons (label : List UInt8) (name : CString) {type : Code} {rest : Members}
    (h : type.Marshals little) (h' : rest.Marshals little) :
    (Members.cons label name type rest).Marshals little := by
  intro width i enclosing starts scope base s hknown hscope hformed hnodup hnone
  obtain ⟨hlabel, htype, hrest⟩ := hformed
  rw [Members.keys] at hnodup hnone ⊢
  rw [← List.append_assoc] at hnodup
  obtain ⟨new, hmarshal, hnew⟩ := h (base)
    (s.put ((aligned width label).andThen (marshalString little name)))
    hknown hscope htype (List.nodup_append.mp hnodup).1
    (fun h => hnone (List.mem_append_left _ h))
  obtain ⟨new', hmarshal', hnew'⟩ := h' (base)
    ((s.put (((aligned width label).andThen (marshalString little name)).andThen
      (type.encode recorded little i base starts))).add new)
    (hknown.append new) hscope hrest
    (by simpa [Written.keys, hnew] using hnodup) (fun h => hnone (List.mem_append_right _ h))
  refine ⟨new ++ new', ?_, by rw [List.map_append, hnew, hnew']⟩
  simp only [Members.marshal, copyLabel_eq s hlabel, Option.bind_eq_bind, Option.bind_some,
    put_put, hmarshal, hmarshal', add_put, add_add]
  rfl

mutual

theorem Code.marshals : ∀ c : Code, c.Marshals little
  | .leaf l => marshals_leaf l
  | .reference j => marshals_reference j
  | .repeated r item bound => marshals_repeated r bound item.marshals
  | .aggregate a repoId name members => marshals_aggregate a repoId name members.marshals
  | .union repoId name descriminant cases d =>
    marshals_union repoId name d descriminant.marshals cases.marshals

theorem Members.marshals : ∀ ms : Members, ms.Marshals little
  | .nil => marshals_nil
  | .cons label name type rest => marshals_cons label name type.marshals rest.marshals

end

end Urnest.TypeCode
