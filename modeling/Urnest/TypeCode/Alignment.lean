import Urnest.TypeCode.ReadBack

/-!
# Where types begin

`marshal` notes where a type begins before its kind is aligned, so an indirection it writes
leads to octets of padding unless there are none. `Code.Aligned` says where that is: a type
that has references to it may be all of the type code, at a multiple of 4, or a member, a
case or a descriminant, of which the name before it ends at a multiple of 4, but never the
item of a sequence, which follows the octet of the byte order.
-/

namespace Urnest.TypeCode

open Lib

variable {little : Bool}

/-! ## Octets -/

theorem andThen_eq_iff {a a' b b' : Writer} {p : Nat} (h : (a p).length = (a' p).length) :
    a.andThen b p = a'.andThen b' p ↔
      a p = a' p ∧ b (p + (a p).length) = b' (p + (a p).length) := by
  rw [andThen_apply, andThen_apply, ← h]
  exact ⟨fun heq => List.append_inj heq h, fun ⟨ha, hb⟩ => congrArg₂ (· ++ ·) ha hb⟩

theorem encapsulation_eq_iff {body body' : Writer} (p : Nat)
    (h : (body 1).length = (body' 1).length) :
    encapsulation little body p = encapsulation little body' p ↔ body 1 = body' 1 := by
  have hlen : (encapsulated little body).length = (encapsulated little body').length := by
    rw [length_encapsulated, length_encapsulated, h]
  rw [encapsulation, encapsulation, hlen, andThen_eq_iff rfl]
  simp [encapsulated]

theorem uLong_inj {x y p : Nat} (hx : x < 2 ^ 32) (hy : y < 2 ^ 32) :
    uLong little x p = uLong little y p ↔ x = y := by
  refine ⟨fun h => ?_, fun h => by rw [h]⟩
  have hread : (Input.mk little p (uLong little x p ++ [])).uLong = _ := read_uLong hx p []
  rw [h, read_uLong hy] at hread
  exact (Prod.mk.inj (Option.some.inj hread)).1.symm

theorem sub32_inj {a a' b : Nat} (ha : a < 2 ^ 32) (ha' : a' < 2 ^ 32) :
    sub32 a b = sub32 a' b ↔ a = a' := by
  simp only [sub32]
  omega

/-! ## Lengths -/

mutual

/-- How long a type code is does not depend on what its indirections lead to. -/
theorem Code.length_encode (little : Bool) (mark mark' : Nat → Nat) : ∀ (c : Code)
    (i base base' p : Nat) (starts starts' : List (Nat × Nat)),
    (c.encode mark little i base starts p).length =
      (c.encode mark' little i base' starts' p).length
  | .leaf l, i, base, base', p, starts, starts' => rfl
  | .reference j, i, base, base', p, starts, starts' => by
    simp only [Code.encode, length_andThen, length_uLong]
  | .repeated r item bound, i, base, base', p, starts, starts' => by
    simp only [Code.encode, length_andThen, length_encapsulation]
    rw [item.length_encode little mark mark']
  | .aggregate a repoId name members, i, base, base', p, starts, starts' => by
    simp only [Code.encode, length_andThen, length_encapsulation]
    rw [members.length_encode little mark mark']
  | .union repoId name descriminant cases d, i, base, base', p, starts, starts' => by
    simp only [Code.encode, length_andThen, length_encapsulation]
    rw [descriminant.length_encode little mark mark', cases.length_encode little mark mark']

theorem Members.length_encode (little : Bool) (mark mark' : Nat → Nat) : ∀ (ms : Members)
    (width i base base' p : Nat) (starts starts' : List (Nat × Nat)),
    (ms.encode mark little width i base starts p).length =
      (ms.encode mark' little width i base' starts' p).length
  | .nil, width, i, base, base', p, starts, starts' => rfl
  | .cons label name type rest, width, i, base, base', p, starts, starts' => by
    simp only [Members.encode, length_andThen]
    rw [type.length_encode little mark mark', rest.length_encode little mark mark']

end

/-! ## Alignment -/

mutual

/-- The numbers that the references have -/
def Code.references : Code → List Nat
  | .leaf _ => []
  | .reference j => [j]
  | .repeated _ item _ => item.references
  | .aggregate _ _ _ members => members.references
  | .union _ _ descriminant cases _ => descriminant.references ++ cases.references

def Members.references : Members → List Nat
  | .nil => []
  | .cons _ _ type rest => type.references ++ rest.references

end

/-- How far behind a multiple of 4 the stream is after a name -/
def nameEnd (name : CString) : Nat := (name.octets.length + 1) % 4

mutual

/-- Every type that a reference leads to begins at a multiple of 4. The type code has the
number `i`, and begins `r` behind one. -/
def Code.Aligned : Code → Nat → Nat → Prop
  | .leaf _, _, _ => True
  | .reference _, _, _ => True
  | .repeated _ item _, i, r => (i ∈ item.references → r = 0) ∧ item.Aligned (i + 1) 1
  | .aggregate _ _ _ members, i, r =>
    (i ∈ members.references → r = 0) ∧ members.Aligned (i + 1)
  | .union _ name descriminant cases _, i, r =>
    (i ∈ descriminant.references ++ cases.references → r = 0) ∧
      descriminant.Aligned (i + 1) (nameEnd name) ∧
        cases.Aligned (i + 1 + descriminant.nodes.length)

def Members.Aligned : Members → Nat → Prop
  | .nil, _ => True
  | .cons _ name type rest, i =>
    type.Aligned i (nameEnd name) ∧ rest.Aligned (i + type.nodes.length)

end

theorem marshalString_mod (little : Bool) (s : CString) (p : Nat) :
    (p + (marshalString little s p).length) % 4 = nameEnd s := by
  have := padding_add_mod p
  simp only [marshalString, length_andThen, length_uLong, List.length_append,
    List.length_singleton, nameEnd]
  omega

theorem recorded_eq_kindAt {p : Nat} (h : p < 2 ^ 31) : recorded p = kindAt p ↔ p % 4 = 0 := by
  rw [recorded_eq h]
  simp only [kindAt, padding]
  omega

/-- What is in scope begins somewhere, both as recorded and by its kind. -/
def Begun (scope : List Nat) (i : Nat) (starts starts' : List (Nat × Nat)) : Prop :=
  ∀ j ∈ scope, j < i ∧ ∃ q q', starts.lookup j = some q ∧ starts'.lookup j = some q' ∧
    q < 2 ^ 32 ∧ q' < 2 ^ 32

theorem Begun.later {scope : List Nat} {i i' : Nat} {starts starts' : List (Nat × Nat)}
    (h : Begun scope i starts starts') (hi : i ≤ i') : Begun scope i' starts starts' :=
  fun j hj => ⟨Nat.lt_of_lt_of_le (h j hj).1 hi, (h j hj).2⟩

theorem Begun.cons {scope : List Nat} {i : Nat} {starts starts' : List (Nat × Nat)}
    (h : Begun scope i starts starts') {p : Nat} (hp : p < 2 ^ 31) :
    Begun (i :: scope) (i + 1) ((i, recorded p) :: starts) ((i, kindAt p) :: starts') := by
  have hkind := padding_lt p
  intro j hj
  rcases List.mem_cons.mp hj with rfl | hj
  · refine ⟨Nat.lt_succ_self _, recorded p, kindAt p, by simp, by simp, ?_, ?_⟩
    · exact Nat.mod_lt _ (by decide)
    · simp only [kindAt]
      omega
  · obtain ⟨hlt, q, q', hq, hq', hbounds⟩ := h j hj
    have hne : (j == i) = false := by simpa using Nat.ne_of_lt hlt
    exact ⟨by omega, q, q', by rw [List.lookup_cons, hne]; exact hq,
      by rw [List.lookup_cons, hne]; exact hq', hbounds⟩

/-- The references in scope lead to the same positions. -/
def Agree (references scope : List Nat) (starts starts' : List (Nat × Nat)) : Prop :=
  ∀ j ∈ references, j ∈ scope → starts.lookup j = starts'.lookup j

theorem agree_append {rs rs' scope : List Nat} {starts starts' : List (Nat × Nat)} :
    Agree (rs ++ rs') scope starts starts' ↔
      Agree rs scope starts starts' ∧ Agree rs' scope starts starts' := by
  simp only [Agree, List.mem_append, or_imp, forall_and]

/-- A type in scope adds that it is where its kind is. -/
theorem agree_cons {rs scope : List Nat} {i p : Nat} {starts starts' : List (Nat × Nat)}
    (hscope : ∀ j ∈ scope, j < i) (hp : p < 2 ^ 31) :
    Agree rs (i :: scope) ((i, recorded p) :: starts) ((i, kindAt p) :: starts') ↔
      (i ∈ rs → p % 4 = 0) ∧ Agree rs scope starts starts' := by
  have hmark := recorded_eq_kindAt hp
  constructor
  · intro h
    refine ⟨fun hi => ?_, fun j hj hjs => ?_⟩
    · have := h i hi List.mem_cons_self
      simp only [List.lookup_cons, beq_self_eq_true, Option.some.injEq] at this
      exact hmark.mp this
    · have := h j hj (List.mem_cons_of_mem _ hjs)
      have hne : (j == i) = false := by simpa using Nat.ne_of_lt (hscope j hjs)
      simpa only [List.lookup_cons, hne] using this
  · rintro ⟨hi, h⟩ j hj hjs
    simp only [List.lookup_cons]
    cases hji : j == i with
    | true =>
      have : j = i := by simpa using hji
      rw [hmark.mpr (hi (this ▸ hj))]
    | false =>
      have hne : j ≠ i := by simpa using hji
      exact h j hj ((List.mem_cons.mp hjs).resolve_left hne)

theorem bodyBase_mod {base : Nat} (h : base % 4 = 0) (p : Nat) : bodyBase base p % 4 = 0 := by
  have := padding_add_mod p
  simp only [bodyBase, innerBase]
  omega

/-- The indirections are right just where the types they lead to are aligned. -/
def Code.RightIff (little : Bool) (c : Code) : Prop :=
  ∀ {i base p : Nat} {scope : List Nat} {starts starts' : List (Nat × Nat)}, base % 4 = 0 →
    Begun scope i starts starts' → c.Formed i scope →
    base + p + (c.encode recorded little i base starts p).length < 2 ^ 31 →
    (c.encode recorded little i base starts p = c.encode kindAt little i base starts' p ↔
      Agree c.references scope starts starts' ∧ c.Aligned i ((base + p) % 4))

def Members.RightIff (little : Bool) (ms : Members) : Prop :=
  ∀ {width i base p : Nat} {scope : List Nat} {starts starts' : List (Nat × Nat)},
    base % 4 = 0 → Begun scope i starts starts' → ms.Formed width i scope →
    base + p + (ms.encode recorded little width i base starts p).length < 2 ^ 31 →
    (ms.encode recorded little width i base starts p =
        ms.encode kindAt little width i base starts' p ↔
      Agree ms.references scope starts starts' ∧ ms.Aligned i)

theorem rightIff_leaf (l : Leaf) : (Code.leaf l).RightIff little := by
  intro i base p scope starts starts' _ _ _ _
  simp [Code.encode, Code.references, Code.Aligned, Agree]

theorem rightIff_reference (j : Nat) : (Code.reference j).RightIff little := by
  intro i base p scope starts starts' _ hbegun hformed _
  obtain ⟨-, q, q', hq, hq', hlt, hlt'⟩ := hbegun j hformed
  simp only [Code.encode]
  rw [andThen_eq_iff rfl, uLong_inj (sub32_lt _ _) (sub32_lt _ _), hq, hq', Option.getD_some,
    Option.getD_some, sub32_inj hlt hlt']
  simp only [true_and, Agree, Code.references, List.mem_singleton, Code.Aligned, and_true,
    forall_eq, hq, hq', Option.some.injEq]
  exact ⟨fun h _ => h, fun h => h hformed⟩

theorem rightIff_repeated (r : Repeated) {item : Code} (bound : UInt32)
    (h : item.RightIff little) : (Code.repeated r item bound).RightIff little := by
  intro i base p scope starts starts' hbase hbegun hformed hfits
  have hkind := length_uLong little (Kind.repeated r).number p
  have hbody : bodyBase base p = base + (p + (padding 4 p + 4)) + 4 := rfl
  have hmod := bodyBase_mod hbase p
  simp only [Code.encode, length_andThen, length_encapsulation, hkind] at hfits ⊢
  have hlen := item.length_encode little recorded kindAt (i + 1) (bodyBase base p)
    (bodyBase base p) 1 ((i, recorded (base + p)) :: starts) ((i, kindAt (base + p)) :: starts')
  rw [andThen_eq_iff rfl,
    encapsulation_eq_iff _ (by simp only [length_andThen, hlen, length_uLong]),
    andThen_eq_iff hlen, h hmod (hbegun.cons (by omega)) hformed (by omega),
    agree_cons (fun j hj => (hbegun j hj).1) (by omega), Code.Aligned, Code.references,
    show (bodyBase base p + 1) % 4 = 1 by omega]
  simp only [true_and, and_true]
  exact ⟨fun ⟨⟨h₁, h₂⟩, h₃⟩ => ⟨h₂, h₁, h₃⟩, fun ⟨h₂, h₁, h₃⟩ => ⟨⟨h₁, h₂⟩, h₃⟩⟩

theorem rightIff_aggregate (a : Aggregate) (repoId name : CString) {members : Members}
    (h : members.RightIff little) : (Code.aggregate a repoId name members).RightIff little := by
  intro i base p scope starts starts' hbase hbegun hformed hfits
  have hkind := length_uLong little (Kind.aggregate a).number p
  have hbody : bodyBase base p = base + (p + (padding 4 p + 4)) + 4 := rfl
  have hmod := bodyBase_mod hbase p
  simp only [Code.encode, andThen_assoc, length_andThen, length_encapsulation, hkind]
    at hfits ⊢
  generalize hq : 1 + (marshalString little repoId 1).length +
    (marshalString little name (1 + (marshalString little repoId 1).length)).length = q
    at hfits
  have hlen := members.length_encode little recorded kindAt 0 (i + 1) (bodyBase base p)
    (bodyBase base p) (q + (uLong little members.length q).length)
    ((i, recorded (base + p)) :: starts) ((i, kindAt (base + p)) :: starts')
  rw [andThen_eq_iff rfl, encapsulation_eq_iff _ (by simp only [length_andThen, hq, hlen]),
    andThen_eq_iff rfl, andThen_eq_iff rfl, andThen_eq_iff rfl, hq,
    h hmod (hbegun.cons (by omega)) hformed (by omega),
    agree_cons (fun j hj => (hbegun j hj).1) (by omega), Code.Aligned, Code.references]
  simp only [true_and]
  exact ⟨fun ⟨⟨h₁, h₂⟩, h₃⟩ => ⟨h₂, h₁, h₃⟩, fun ⟨h₂, h₁, h₃⟩ => ⟨⟨h₁, h₂⟩, h₃⟩⟩

theorem rightIff_union (repoId name : CString) {descriminant : Code} {cases : Members}
    (d : Option UInt32) (h : descriminant.RightIff little) (h' : cases.RightIff little) :
    (Code.union repoId name descriminant cases d).RightIff little := by
  intro i base p scope starts starts' hbase hbegun hformed hfits
  obtain ⟨hdescriminant, ⟨width, hwidth, hcases⟩, -⟩ := hformed
  have hkind := length_uLong little Kind.union.number p
  have hbody : bodyBase base p = base + (p + (padding 4 p + 4)) + 4 := rfl
  have hmod := bodyBase_mod hbase p
  simp only [Code.encode, andThen_assoc, length_andThen, length_encapsulation, hkind, hwidth,
    Option.getD_some] at hfits ⊢
  have hname := marshalString_mod little name
    (1 + (marshalString little repoId 1).length)
  generalize hq : 1 + (marshalString little repoId 1).length +
    (marshalString little name (1 + (marshalString little repoId 1).length)).length = q
    at hfits hname
  have hlen := descriminant.length_encode little recorded kindAt (i + 1) (bodyBase base p)
    (bodyBase base p) q ((i, recorded (base + p)) :: starts)
    ((i, kindAt (base + p)) :: starts')
  generalize hq' : q + (descriminant.encode recorded little (i + 1) (bodyBase base p)
    ((i, recorded (base + p)) :: starts) q).length = q' at hfits
  have hlen' := cases.length_encode little recorded kindAt width
    (i + 1 + descriminant.nodes.length) (bodyBase base p) (bodyBase base p)
    (q' + (uLong little ((d.map UInt32.toNat).getD 0xffffffff) q').length +
      (uLong little cases.length (q' + (uLong little
        ((d.map UInt32.toNat).getD 0xffffffff) q').length)).length)
    ((i, recorded (base + p)) :: starts) ((i, kindAt (base + p)) :: starts')
  have hbegun' := hbegun.cons (p := base + p) (by omega)
  rw [andThen_eq_iff rfl, encapsulation_eq_iff _
      (by simp only [length_andThen, hq, ← hlen, hq', hlen']),
    andThen_eq_iff rfl, andThen_eq_iff rfl, hq, andThen_eq_iff hlen, hq', andThen_eq_iff rfl,
    andThen_eq_iff rfl, h hmod hbegun' hdescriminant (by omega),
    h' hmod (hbegun'.later (by omega)) hcases (by omega),
    agree_cons (fun j hj => (hbegun j hj).1) (by omega),
    agree_cons (fun j hj => (hbegun j hj).1) (by omega), Code.Aligned, Code.references,
    agree_append, show (bodyBase base p + q) % 4 = nameEnd name by omega]
  simp only [true_and, List.mem_append, or_imp]
  exact ⟨fun ⟨⟨⟨h₁, h₂⟩, h₃⟩, ⟨h₄, h₅⟩, h₆⟩ => ⟨⟨h₂, h₅⟩, ⟨h₁, h₄⟩, h₃, h₆⟩,
    fun ⟨⟨h₂, h₅⟩, ⟨h₁, h₄⟩, h₃, h₆⟩ => ⟨⟨⟨h₁, h₂⟩, h₃⟩, ⟨h₄, h₅⟩, h₆⟩⟩

theorem rightIff_nil : Members.nil.RightIff little := by
  intro width i base p scope starts starts' _ _ _ _
  simp [Members.encode, Members.references, Members.Aligned, Agree]

theorem rightIff_cons (label : List UInt8) (name : CString) {type : Code} {rest : Members}
    (h : type.RightIff little) (h' : rest.RightIff little) :
    (Members.cons label name type rest).RightIff little := by
  intro width i base p scope starts starts' hbase hbegun hformed hfits
  obtain ⟨-, htype, hrest⟩ := hformed
  simp only [Members.encode, andThen_assoc, length_andThen] at hfits ⊢
  have hname := marshalString_mod little name
    (p + (aligned width label p).length)
  generalize hq : p + (aligned width label p).length +
    (marshalString little name (p + (aligned width label p).length)).length = q
    at hfits hname
  have hlen := type.length_encode little recorded kindAt i base base q starts starts'
  rw [andThen_eq_iff rfl, andThen_eq_iff rfl, hq, andThen_eq_iff hlen,
    h hbase hbegun htype (by omega),
    h' hbase (hbegun.later (by omega)) hrest (by omega), Members.Aligned,
    Members.references, agree_append, show (base + q) % 4 = nameEnd name by omega]
  simp only [true_and]
  exact ⟨fun ⟨⟨h₁, h₂⟩, h₃, h₄⟩ => ⟨⟨h₁, h₃⟩, h₂, h₄⟩,
    fun ⟨⟨h₁, h₃⟩, h₂, h₄⟩ => ⟨⟨h₁, h₂⟩, h₃, h₄⟩⟩

mutual

theorem Code.rightIff : ∀ c : Code, c.RightIff little
  | .leaf l => rightIff_leaf l
  | .reference j => rightIff_reference j
  | .repeated r item bound => rightIff_repeated r bound item.rightIff
  | .aggregate a repoId name members => rightIff_aggregate a repoId name members.rightIff
  | .union repoId name descriminant cases d =>
    rightIff_union repoId name d descriminant.rightIff cases.rightIff

theorem Members.rightIff : ∀ ms : Members, ms.RightIff little
  | .nil => rightIff_nil
  | .cons label name type rest => rightIff_cons label name type.rightIff rest.rightIff

end

end Urnest.TypeCode
