import Urnest.TypeCode.Layout
import Urnest.TypeCode.Reading

/-!
# Reading back what is marshalled

Where a type code is laid out with indirections to where the index of `marshal` says that
types begin, it is read as it was: the index of the reader has the same positions, one entry
for each type and each reference (`Code.nodes`), in ascending order (`Ascending`), so what an
offset leads to is the entry with the number of the type meant.
-/

namespace Urnest.TypeCode

open Lib

variable {little : Bool}

/-! ## Input -/

@[simp] theorem ok_bind {α β : Type} (a : α) (f : α → Except Stop β) :
    (Except.ok a >>= f) = f a := rfl

@[simp] theorem orThrow_some {α : Type} (ix : Index) (a : α) :
    orThrow ix (some a) = .ok a := rfl

@[simp] theorem length_andThen (a b : Writer) (p : Nat) :
    (a.andThen b p).length = (a p).length + (b (p + (a p).length)).length := by
  simp [andThen_apply]

theorem take_aligned {octets : List UInt8} {n : Nat} (h : octets.length = n) (width p : Nat)
    (rest : List UInt8) :
    (Input.mk little p (aligned width octets p ++ rest)).take width n =
      some (octets, ⟨little, p + (aligned width octets p).length, rest⟩) := by
  subst h
  have hpad : (List.replicate (padding width p) (0 : UInt8)).length = padding width p :=
    List.length_replicate
  rw [Input.take, if_neg (by simp [aligned])]
  simp only [aligned, List.append_assoc, List.length_append, hpad]
  rw [List.drop_left' hpad, List.take_left' rfl, ← List.append_assoc,
    List.drop_left' (by simp)]

/-- Octets that are not aligned -/
theorem take_octets {octets : List UInt8} {n : Nat} (h : octets.length = n) (p : Nat)
    (rest : List UInt8) :
    (Input.mk little p (octets ++ rest)).take 1 n =
      some (octets, ⟨little, p + octets.length, rest⟩) := by
  have hpad : padding 1 p = 0 := by simp [padding, Nat.mod_one]
  have : (Input.mk little p (aligned 1 octets p ++ rest)).take 1 n = _ := take_aligned h 1 p rest
  rwa [length_aligned, aligned, hpad, List.replicate_zero, List.nil_append, Nat.zero_add] at this

theorem inOrder_inOrder (octets : List UInt8) :
    inOrder little (inOrder little octets) = octets := by
  cases little <;> simp [inOrder]

theorem read_uLong {x : Nat} (hx : x < 2 ^ 32) (p : Nat) (rest : List UInt8) :
    (Input.mk little p (uLong little x p ++ rest)).uLong =
      some (x, ⟨little, p + (uLong little x p).length, rest⟩) := by
  have hlen : (inOrder little (toBytes 4 x)).length = 4 := by
    rw [length_inOrder, length_toBytes]
  rw [Input.uLong, uLong, take_aligned hlen, Option.map_some]
  simp only [inOrder_inOrder]
  rw [ofBytes_toBytes_of_lt (by simpa using hx)]

theorem read_string {s : CString} (hs : s.octets.length + 1 < 2 ^ 32) (p : Nat)
    (rest : List UInt8) :
    (Input.mk little p (marshalString little s p ++ rest)).string =
      some (s, ⟨little, p + (marshalString little s p).length, rest⟩) := by
  have htake : s.octets.takeWhile (fun b => decide (b ≠ 0)) = s.octets := by
    rw [List.takeWhile_eq_self_iff]
    intro b hb
    have hne : b ≠ 0 := fun h => s.nul (h ▸ hb)
    simpa using hne
  rw [Input.string, marshalString, andThen_apply, List.append_assoc, read_uLong hs]
  simp only [Option.bind_eq_bind, Option.bind_some, Nat.add_one_ne_zero, if_false]
  rw [take_octets (by simp)]
  simp only [Option.bind_some, List.dropLast_concat, Input.cString, htake, List.length_append,
    Nat.add_assoc]

theorem read_strings : ∀ (ss : List CString) (p : Nat) (rest : List UInt8),
    (marshalStrings little ss p).length < 2 ^ 32 →
    (Input.mk little p (marshalStrings little ss p ++ rest)).strings ss.length =
      some (ss, ⟨little, p + (marshalStrings little ss p).length, rest⟩)
  | [], p, rest, _ => rfl
  | s :: ss, p, rest, h => by
    rw [marshalStrings, length_andThen] at h
    have hs : s.octets.length + 1 < 2 ^ 32 := by
      simp only [marshalString, length_andThen, List.length_append, List.length_singleton] at h
      omega
    rw [marshalStrings, andThen_apply, List.append_assoc, List.length_cons, Input.strings,
      read_string hs]
    simp only [Option.bind_eq_bind, Option.bind_some]
    rw [read_strings ss _ _ (by omega)]
    simp only [Option.bind_some, List.length_append, Nat.add_assoc]

theorem length_le_marshalStrings (little : Bool) : ∀ (ss : List CString) (p : Nat),
    ss.length ≤ (marshalStrings little ss p).length
  | [], p => Nat.le_refl _
  | s :: ss, p => by
    have := length_le_marshalStrings little ss (p + (marshalString little s p).length)
    simp only [marshalStrings, length_andThen, marshalString, List.length_append,
      List.length_cons] at this ⊢
    omega

theorem length_encapsulated (body : Writer) :
    (encapsulated little body).length = (body 1).length + 1 := rfl

theorem length_encapsulation (body : Writer) (p : Nat) :
    (encapsulation little body p).length = padding 4 p + 4 + ((body 1).length + 1) := by
  rw [encapsulation, length_andThen, length_uLong, length_encapsulated]

theorem read_encapsulation {body : Writer} (h : (body 1).length + 1 < 2 ^ 32) (p : Nat)
    (rest : List UInt8) :
    (Input.mk little p (encapsulation little body p ++ rest)).encapsulation =
      some (⟨little, 1, body 1⟩,
        ⟨little, p + (encapsulation little body p).length, rest⟩) := by
  have horder : decide (byteOrder little ≠ 0) = little := by
    cases little <;> rfl
  rw [Input.encapsulation, encapsulation, andThen_apply, List.append_assoc,
    read_uLong (by rwa [length_encapsulated])]
  simp only [Option.bind_eq_bind, Option.bind_some]
  rw [take_octets rfl]
  simp only [Option.bind_some, encapsulated, horder, List.length_append, Nat.add_assoc]

theorem Kind.ofNumber_number (k : Kind) : Kind.ofNumber k.number = some k := by
  cases k with
  | basic b => cases b <;> rfl
  | repeated r => cases r <;> rfl
  | aggregate a => cases a <;> rfl
  | _ => rfl

theorem Kind.number_lt (k : Kind) : k.number < 2 ^ 32 := by
  cases k with
  | basic b => cases b <;> decide
  | repeated r => cases r <;> decide
  | aggregate a => cases a <;> decide
  | _ => decide

/-! ## The index -/

/-- Ascending positions, all before `bound` -/
def Ascending (ps : List Nat) (bound : Nat) : Prop :=
  ps.Pairwise (· < ·) ∧ ∀ p ∈ ps, p < bound

theorem Ascending.mono {ps : List Nat} {b b' : Nat} (h : Ascending ps b) (hb : b ≤ b') :
    Ascending ps b' :=
  ⟨h.1, fun p hp => Nat.lt_of_lt_of_le (h.2 p hp) hb⟩

theorem Ascending.concat {ps : List Nat} {b b' : Nat} (h : Ascending ps b) (hb : b < b') :
    Ascending (ps ++ [b]) b' := by
  refine ⟨List.pairwise_append.mpr ⟨h.1, List.pairwise_singleton _ _, ?_⟩, ?_⟩
  · intro p hp q hq
    rw [List.mem_singleton.mp hq]
    exact h.2 p hp
  · intro p hp
    rcases List.mem_append.mp hp with hp | hp
    · exact Nat.lt_trans (h.2 p hp) hb
    · rwa [List.mem_singleton.mp hp]

/-- A position that is there is found. -/
theorem lowerBound_eq {entries : List (Nat × Option Code)}
    (h : (entries.map Prod.fst).Pairwise (· < ·)) {j : Nat} {e : Nat × Option Code}
    (he : entries[j]? = some e) : lowerBound entries e.1 = j := by
  obtain ⟨hj, rfl⟩ := List.getElem?_eq_some_iff.mp he
  rw [lowerBound, List.findIdx_eq hj]
  refine ⟨by simp, fun k hk => ?_⟩
  have := List.pairwise_iff_getElem.mp h k j (by simp; omega) (by simpa using hj) hk
  simpa using this

/-- The entries are in order, and there are references to entries only. -/
structure Index.Sound (ix : Index) (bound : Nat) : Prop where
  ascending : Ascending (ix.entries.map Prod.fst) bound
  referred : ∀ j ∈ ix.referred, j < ix.entries.length

theorem Index.Sound.mono {ix : Index} {b b' : Nat} (h : ix.Sound b) (hb : b ≤ b') :
    ix.Sound b' :=
  ⟨h.ascending.mono hb, h.referred⟩

/-- The entry of a type that begins after all of them -/
theorem Index.Sound.push {ix : Index} {b b' q : Nat} (h : ix.Sound b) (hq : q = b) (hb : b < b')
    (c : Option Code) : (Index.mk (ix.entries ++ [(q, c)]) ix.referred).Sound b' := by
  subst hq
  refine ⟨?_, fun j hj => ?_⟩
  · rw [List.map_append]
    exact h.ascending.concat hb
  · rw [List.length_append]
    exact Nat.lt_add_right _ (h.referred j hj)

theorem Index.Sound.refer {ix : Index} {b j : Nat} (h : ix.Sound b)
    (hj : j < ix.entries.length) : (Index.mk ix.entries (j :: ix.referred)).Sound b :=
  ⟨h.ascending, List.forall_mem_cons.mpr ⟨hj, h.referred⟩⟩

/-- What an entry points to does not matter for the order. -/
theorem Index.Sound.set {entries new : List (Nat × Option Code)} {referred : List Nat}
    {q b b' : Nat} {c c' : Option Code}
    (h : (Index.mk (entries ++ [(q, c)] ++ new) referred).Sound b) (hb : b ≤ b') :
    (Index.mk (entries ++ (q, c') :: new) referred).Sound b' := by
  obtain ⟨hasc, hreferred⟩ := h.mono hb
  exact ⟨by simpa using hasc, fun j hj => by simpa using hreferred j hj⟩

/-- Each type in scope has its entry. -/
def Entered (scope : List Nat) (starts : List (Nat × Nat)) (ix : Index) : Prop :=
  ∀ j ∈ scope, ∃ e, ix.entries[j]? = some e ∧ starts.lookup j = some e.1

theorem Entered.append {scope : List Nat} {starts : List (Nat × Nat)} {ix : Index}
    (h : Entered scope starts ix) (new : List (Nat × Option Code)) (referred : List Nat) :
    Entered scope starts ⟨ix.entries ++ new, referred⟩ := by
  intro j hj
  obtain ⟨e, he, hstart⟩ := h j hj
  have hlt := (List.getElem?_eq_some_iff.mp he).1
  exact ⟨e, by rw [List.getElem?_append_left hlt]; exact he, hstart⟩

/-- The type that is read next comes into scope. -/
theorem Entered.cons {scope : List Nat} {starts : List (Nat × Nat)} {ix : Index}
    (h : Entered scope starts ix) (p : Nat) (c : Option Code) (referred : List Nat) :
    Entered (ix.entries.length :: scope) ((ix.entries.length, p) :: starts)
      ⟨ix.entries ++ [(p, c)], referred⟩ := by
  intro j hj
  rw [List.lookup_cons]
  cases hji : j == ix.entries.length with
  | true =>
    have hj : j = ix.entries.length := by simpa using hji
    subst hj
    exact ⟨(p, c), by simp, rfl⟩
  | false =>
    have hne : j ≠ ix.entries.length := by simpa using hji
    exact (h.append [(p, c)] referred) j ((List.mem_cons.mp hj).resolve_left hne)

/-! ## Types -/

/-- What is read behind a kind is the type code of the entry that was made before. -/
theorem unmarshal_of_body {k : Kind} (body : Writer) {c : Code} {n base p : Nat}
    {rest : List UInt8} {ix : Index} {i' : Input} (new : List (Nat × Option Code))
    {referred : List Nat}
    (h : unmarshalTypeCodeFrom_ little (unmarshalTypeCodeFrom little n) base k
      ⟨little, p + (uLong little k.number p).length,
        body (p + (uLong little k.number p).length) ++ rest⟩
      ⟨ix.entries ++ [(recorded (base + p), none)], ix.referred⟩ =
        .ok (c, i', ⟨ix.entries ++ [(recorded (base + p), none)] ++ new, referred⟩)) :
    unmarshalTypeCodeFrom little (n + 1) base
      ⟨little, p, (uLong little k.number).andThen body p ++ rest⟩ ix =
        .ok (c, i', ⟨ix.entries ++ (recorded (base + p), some c) :: new, referred⟩) := by
  rw [unmarshalTypeCodeFrom, andThen_apply, List.append_assoc, read_uLong k.number_lt]
  simp only [orThrow_some, ok_bind, Kind.ofNumber_number]
  rw [show (base + p) % 2 ^ 32 = recorded (base + p) from rfl, h]
  simp only [ok_bind, List.append_assoc, List.singleton_append]
  rw [List.set_append_right _ _ (Nat.le_refl _), Nat.sub_self, List.set_cons_zero]

def Leaf.kind : Leaf → Kind
  | .void => .void
  | .any => .any
  | .basic b => .basic b
  | .string _ => .string
  | .enum _ _ _ => .enum
  | .ior _ _ => .objRef

/-- What is behind the kind of a leaf -/
def Leaf.body (little : Bool) : Leaf → Writer
  | .void | .any | .basic _ => fun _ => []
  | .string maxSize => uLong little maxSize.toNat
  | .enum repoId name values => encapsulation little
      ((marshalString little repoId).andThen ((marshalString little name).andThen
        ((uLong little values.length).andThen (marshalStrings little values))))
  | .ior repoId name => encapsulation little
      ((marshalString little repoId).andThen (marshalString little name))

theorem Leaf.encode_eq (l : Leaf) :
    l.encode little = (uLong little l.kind.number).andThen (l.body little) := by
  funext p
  cases l <;> simp [Leaf.encode, Leaf.kind, Leaf.body, andThen_apply, andThen_assoc]

theorem length_lt_marshalString (little : Bool) (s : CString) (p : Nat) :
    s.octets.length + 4 < (marshalString little s p).length := by
  simp only [marshalString, length_andThen, length_uLong, List.length_append,
    List.length_singleton]
  omega

theorem Leaf.read_body (l : Leaf) {read : Nat → Input → Index → Except Stop (Code × Input × Index)}
    {base p : Nat} (h : (l.body little p).length < 2 ^ 31) (rest : List UInt8) (ix : Index) :
    unmarshalTypeCodeFrom_ little read base l.kind ⟨little, p, l.body little p ++ rest⟩ ix =
      .ok (.leaf l, ⟨little, p + (l.body little p).length, rest⟩, ix) := by
  cases l with
  | void => rfl
  | any => rfl
  | basic b => rfl
  | string maxSize =>
    simp only [Leaf.kind, Leaf.body, unmarshalTypeCodeFrom_]
    rw [read_uLong maxSize.toNat_lt]
    simp only [orThrow_some, ok_bind, UInt32.ofNat_toNat]
  | enum repoId name values =>
    simp only [Leaf.body, length_encapsulation, length_andThen] at h
    simp only [Leaf.kind, Leaf.body, unmarshalTypeCodeFrom_]
    rw [read_encapsulation (by simp only [length_andThen]; omega)]
    simp only [orThrow_some, ok_bind]
    rw [andThen_apply, andThen_apply, andThen_apply]
    have hrepoId := length_lt_marshalString little repoId 1
    rw [read_string (by omega)]
    simp only [orThrow_some, ok_bind]
    generalize 1 + (marshalString little repoId 1).length = q at h ⊢
    have hname := length_lt_marshalString little name q
    rw [read_string (by omega)]
    simp only [orThrow_some, ok_bind]
    generalize q + (marshalString little name q).length = r at h ⊢
    have hvalues := length_le_marshalStrings little values
      (r + (uLong little values.length r).length)
    rw [read_uLong (by omega)]
    simp only [orThrow_some, ok_bind]
    rw [← List.append_nil (marshalStrings little values _), read_strings values _ _ (by omega)]
    simp only [orThrow_some, ok_bind]
  | ior repoId name =>
    simp only [Leaf.body, length_encapsulation, length_andThen] at h
    have hrepoId := length_lt_marshalString little repoId 1
    have hname := length_lt_marshalString little name
      (1 + (marshalString little repoId 1).length)
    simp only [Leaf.kind, Leaf.body, unmarshalTypeCodeFrom_]
    rw [read_encapsulation (by simp only [length_andThen]; omega)]
    simp only [orThrow_some, ok_bind, andThen_apply]
    rw [read_string (by omega)]
    simp only [orThrow_some, ok_bind]
    rw [← List.append_nil (marshalString little name _), read_string (by omega)]
    simp only [orThrow_some, ok_bind]

theorem nodes_pos (c : Code) : 0 < c.nodes.length := by
  cases c <;> simp [Code.nodes]

theorem recorded_eq {p : Nat} (h : p < 2 ^ 31) : recorded p = p := Nat.mod_eq_of_lt (by omega)

/-- An offset leads back from where it is. -/
theorem offset_leads {q : Nat} (hq : q < 2 ^ 31) (b : Nat) :
    ((b + 4) % 2 ^ 32 + sub32 q b + (2 ^ 32 - 4)) % 2 ^ 32 = q := by
  simp only [sub32]
  omega

theorem sub32_lt (a b : Nat) : sub32 a b < 2 ^ 32 := Nat.mod_lt _ (by decide)

/-- The reference read has the number of the entry that the indirection leads to. -/
theorem read_reference (little : Bool)
    (read : Nat → Input → Index → Except Stop (Code × Input × Index)) (base : Nat)
    {q j : Nat} {e : Nat × Option Code} (ix : Index) (hq : q % 4 = 0)
    (hasc : (ix.entries.map Prod.fst).Pairwise (· < ·)) (hj : ix.entries[j]? = some e)
    (he : e.1 < 2 ^ 31) (rest : List UInt8) :
    unmarshalTypeCodeFrom_ little read base .reference
      ⟨little, q, uLong little (sub32 e.1 (base + q)) q ++ rest⟩ ix =
        .ok (.reference j, ⟨little, q + (uLong little (sub32 e.1 (base + q)) q).length, rest⟩,
          ⟨ix.entries, j :: ix.referred⟩) := by
  have hleads := offset_leads he (base + q)
  simp only [unmarshalTypeCodeFrom_]
  rw [read_uLong (sub32_lt _ _)]
  simp only [orThrow_some, ok_bind, length_uLong, padding_of_mod hq, Nat.zero_add]
  rw [← Nat.add_assoc base q 4, hleads, lowerBound_eq hasc hj, hj, Option.map_some,
    if_pos rfl]

theorem length_le_encode (little : Bool) (mark : Nat → Nat) : ∀ (ms : Members)
    (width i base : Nat) (starts : List (Nat × Nat)) (p : Nat),
    ms.length ≤ (ms.encode mark little width i base starts p).length
  | .nil, width, i, base, starts, p => Nat.le_refl _
  | .cons label name type rest, width, i, base, starts, p => by
    simp only [Members.length, Members.encode, length_andThen]
    generalize hq : p + ((aligned width label p).length + _ + _) = q
    have := length_le_encode little mark rest width (i + type.nodes.length) base starts q
    have hname := length_lt_marshalString little name
      (p + (aligned width label p).length)
    omega

/-- Behind a kind -/
theorem kind_mod (p : Nat) : (p + (padding 4 p + 4)) % 4 = 0 := by
  have := padding_add_mod p
  omega

theorem default_lt (d : Option UInt32) : (d.map UInt32.toNat).getD 0xffffffff < 2 ^ 32 := by
  cases d with
  | none => decide
  | some n => exact n.toNat_lt

/-- The index of the default case, which is -1 where there is none -/
theorem read_default {d : Option UInt32} (h : ∀ n ∈ d, n.toNat < 2 ^ 31) :
    (if (d.map UInt32.toNat).getD 0xffffffff < 2 ^ 31 then
      some (UInt32.ofNat ((d.map UInt32.toNat).getD 0xffffffff)) else none) = d := by
  cases d with
  | none => rfl
  | some n =>
    simp only [Option.map_some, Option.getD_some, UInt32.ofNat_toNat]
    rw [if_pos (h n rfl)]

/-- A type code is read where it was marshalled, and so is an entry for each of its types. -/
def Code.ReadsBack (little : Bool) (c : Code) : Prop :=
  ∀ {n : Nat} (base p : Nat) (starts : List (Nat × Nat)) {scope : List Nat} (ix : Index)
    (rest : List UInt8), c.nodes.length ≤ n → ix.Sound (base + p) →
    Entered scope starts ix → c.Formed ix.entries.length scope →
    base + p + (c.encode recorded little ix.entries.length base starts p).length < 2 ^ 31 →
    ∃ new referred,
      unmarshalTypeCodeFrom little n base
        ⟨little, p, c.encode recorded little ix.entries.length base starts p ++ rest⟩ ix =
        .ok (c, ⟨little, p + (c.encode recorded little ix.entries.length base starts p).length,
          rest⟩, ⟨ix.entries ++ new, referred⟩) ∧
      new.map Prod.snd = c.nodes.map some ∧
      (Index.mk (ix.entries ++ new) referred).Sound
        (base + p + (c.encode recorded little ix.entries.length base starts p).length)

/-- Members are, by the loop that counts them. -/
def Members.ReadsBack (little : Bool) (ms : Members) : Prop :=
  ∀ {n : Nat} (width base p : Nat) (starts : List (Nat × Nat)) {scope : List Nat} (ix : Index)
    (rest : List UInt8), ms.nodes.length ≤ n → ix.Sound (base + p) →
    Entered scope starts ix → ms.Formed width ix.entries.length scope →
    base + p + (ms.encode recorded little width ix.entries.length base starts p).length <
      2 ^ 31 →
    ∃ new referred,
      readMembers little width (unmarshalTypeCodeFrom little n base) ms.length
        ⟨little, p, ms.encode recorded little width ix.entries.length base starts p ++ rest⟩
          ix =
        .ok (ms, ⟨little,
          p + (ms.encode recorded little width ix.entries.length base starts p).length, rest⟩,
          ⟨ix.entries ++ new, referred⟩) ∧
      new.map Prod.snd = ms.nodes.map some ∧
      (Index.mk (ix.entries ++ new) referred).Sound
        (base + p + (ms.encode recorded little width ix.entries.length base starts p).length)

/-- There is a call to read it in. -/
theorem exists_succ {c : Code} {n : Nat} (h : c.nodes.length ≤ n) : ∃ k, n = k + 1 :=
  Nat.exists_eq_succ_of_ne_zero (Nat.ne_of_gt (Nat.lt_of_lt_of_le (nodes_pos c) h))

theorem readsBack_leaf (l : Leaf) : (Code.leaf l).ReadsBack little := by
  intro n base p starts scope ix rest hn hasc hentered hformed hfits
  obtain ⟨n, rfl⟩ := exists_succ hn
  have hkind := length_uLong little l.kind.number p
  simp only [Code.encode, l.encode_eq, length_andThen] at hfits ⊢
  refine ⟨[(recorded (base + p), some (.leaf l))], ix.referred, ?_, by simp [Code.nodes], ?_⟩
  · rw [unmarshal_of_body _ []
      ((l.read_body (by omega) _ _).trans (by rw [List.append_nil])), Nat.add_assoc]
  · exact hasc.push (recorded_eq (by omega)) (by omega) _

theorem readsBack_reference (j : Nat) : (Code.reference j).ReadsBack little := by
  intro n base p starts scope ix rest hn hasc hentered hformed hfits
  obtain ⟨n, rfl⟩ := exists_succ hn
  obtain ⟨e, he, hstart⟩ := hentered j hformed
  have hlt := (List.getElem?_eq_some_iff.mp he).1
  have hbefore := hasc.ascending.2 e.1 (List.mem_map_of_mem (List.mem_of_getElem? he))
  have hkind := length_uLong little Kind.reference.number p
  simp only [Code.encode, length_andThen, hstart, Option.getD_some] at hfits ⊢
  rw [show 0xffffffff = Kind.reference.number from rfl] at hfits ⊢
  have hmod := padding_add_mod p
  have hread := read_reference little (unmarshalTypeCodeFrom little n) base
    (q := p + (uLong little Kind.reference.number p).length) (j := j) (e := e)
    ⟨ix.entries ++ [(recorded (base + p), none)], ix.referred⟩ (by omega)
    (hasc.push (recorded_eq (by omega)) (Nat.lt_succ_self _) none).ascending.1
    (by rw [List.getElem?_append_left hlt, he]) (by omega) rest
  refine ⟨[(recorded (base + p), some (.reference j))], j :: ix.referred, ?_,
    by simp [Code.nodes], ?_⟩
  · refine (unmarshal_of_body (fun p => uLong little (sub32 e.1 (base + p)) p) []
      (hread.trans (by rw [List.append_nil]))).trans ?_
    rw [Nat.add_assoc]
  · refine (hasc.push (recorded_eq (by omega)) (by omega) (some (.reference j))).refer ?_
    rw [List.length_append]
    exact Nat.lt_add_right _ hlt

theorem readsBack_repeated (r : Repeated) {item : Code} (bound : UInt32)
    (h : item.ReadsBack little) : (Code.repeated r item bound).ReadsBack little := by
  intro n base p starts scope ix rest hn hasc hentered hformed hfits
  obtain ⟨n, rfl⟩ := exists_succ hn
  have hkind := length_uLong little (Kind.repeated r).number p
  have hmod := padding_of_mod (kind_mod p)
  have hbase : bodyBase base p = base + (p + (padding 4 p + 4)) + 4 := rfl
  simp only [Code.encode, length_andThen, length_encapsulation, hkind, hmod] at hfits ⊢
  obtain ⟨new, referred, hitem, hnodes, hasc'⟩ := h (n := n)
    (bodyBase base p) 1 ((ix.entries.length, recorded (base + p)) :: starts)
    ⟨ix.entries ++ [(recorded (base + p), none)], ix.referred⟩
    (uLong little bound.toNat (1 + (item.encode recorded little (ix.entries.length + 1)
      (bodyBase base p) ((ix.entries.length, recorded (base + p)) :: starts) 1).length))
    (by simp only [Code.nodes, List.length_cons] at hn; omega)
    (hasc.push (recorded_eq (by omega)) (by omega) none)
    (hentered.cons _ _ _)
    (by simpa [Code.Formed] using hformed)
    (by simp only [List.length_append, List.length_singleton]; omega)
  simp only [List.length_append, List.length_singleton] at hitem hasc'
  refine ⟨(recorded (base + p), some (.repeated r item bound)) :: new, referred, ?_,
    by simp [Code.nodes, hnodes], hasc'.set (by omega)⟩
  refine unmarshal_of_body _ new ?_
  simp only [unmarshalTypeCodeFrom_, hkind]
  rw [read_encapsulation (by simp only [length_andThen]; omega)]
  simp only [orThrow_some, ok_bind, andThen_apply]
  rw [show innerBase base (p + (padding 4 p + 4)) = bodyBase base p from rfl, hitem]
  simp only [ok_bind]
  rw [← List.append_nil (uLong little bound.toNat _), read_uLong bound.toNat_lt]
  simp only [orThrow_some, ok_bind, UInt32.ofNat_toNat, length_encapsulation, length_andThen,
    hmod, Nat.add_assoc, List.append_assoc, List.append_nil]

theorem readsBack_aggregate (a : Aggregate) (repoId name : CString) {members : Members}
    (h : members.ReadsBack little) : (Code.aggregate a repoId name members).ReadsBack little := by
  intro n base p starts scope ix rest hn hasc hentered hformed hfits
  obtain ⟨n, rfl⟩ := exists_succ hn
  have hkind := length_uLong little (Kind.aggregate a).number p
  have hmod := padding_of_mod (kind_mod p)
  have hbase : bodyBase base p = base + (p + (padding 4 p + 4)) + 4 := rfl
  simp only [Code.encode, andThen_assoc, length_andThen, length_encapsulation, hkind, hmod]
    at hfits ⊢
  -- where the name, the number of members and the members are
  obtain ⟨q₁, hq₁⟩ : ∃ q, q = 1 + (marshalString little repoId 1).length := ⟨_, rfl⟩
  obtain ⟨q₂, hq₂⟩ : ∃ q, q = q₁ + (marshalString little name q₁).length := ⟨_, rfl⟩
  obtain ⟨q₃, hq₃⟩ : ∃ q, q = q₂ + (uLong little members.length q₂).length := ⟨_, rfl⟩
  have hrepoId := length_lt_marshalString little repoId 1
  have hname := length_lt_marshalString little name q₁
  rw [← hq₁, ← hq₂, ← hq₃] at hfits ⊢
  have hcount := length_le_encode little recorded members 0 (ix.entries.length + 1)
    (bodyBase base p) ((ix.entries.length, recorded (base + p)) :: starts) q₃
  obtain ⟨new, referred, hmembers, hnodes, hasc'⟩ := h (n := n)
    0 (bodyBase base p) q₃ ((ix.entries.length, recorded (base + p)) :: starts)
    ⟨ix.entries ++ [(recorded (base + p), none)], ix.referred⟩ []
    (by simp only [Code.nodes, List.length_cons] at hn; omega)
    (hasc.push (recorded_eq (by omega)) (by omega) none)
    (hentered.cons _ _ _)
    (by simpa [Code.Formed] using hformed)
    (by simp only [List.length_append, List.length_singleton]; omega)
  simp only [List.length_append, List.length_singleton, List.append_nil] at hmembers hasc'
  refine ⟨(recorded (base + p), some (.aggregate a repoId name members)) :: new, referred, ?_,
    by simp [Code.nodes, hnodes], hasc'.set (by omega)⟩
  refine unmarshal_of_body _ new ?_
  simp only [unmarshalTypeCodeFrom_, hkind]
  rw [read_encapsulation (by simp only [length_andThen, ← hq₁, ← hq₂, ← hq₃]; omega)]
  simp only [orThrow_some, ok_bind, andThen_apply]
  rw [read_string (by omega), ← hq₁]
  simp only [orThrow_some, ok_bind]
  rw [read_string (by omega), ← hq₂]
  simp only [orThrow_some, ok_bind]
  rw [read_uLong (by omega), ← hq₃]
  simp only [orThrow_some, ok_bind]
  rw [show innerBase base (p + (padding 4 p + 4)) = bodyBase base p from rfl, hmembers]
  simp only [ok_bind, length_encapsulation, length_andThen, hmod, ← hq₁, ← hq₂, ← hq₃,
    Nat.add_assoc, List.append_assoc]

theorem readsBack_union (repoId name : CString) {descriminant : Code} {cases : Members}
    (d : Option UInt32) (h : descriminant.ReadsBack little) (h' : cases.ReadsBack little) :
    (Code.union repoId name descriminant cases d).ReadsBack little := by
  intro n base p starts scope ix rest hn hasc hentered hformed hfits
  obtain ⟨n, rfl⟩ := exists_succ hn
  obtain ⟨hdescriminant, ⟨width, hwidth, hcases⟩, hdefault⟩ := hformed
  have hkind := length_uLong little Kind.union.number p
  have hmod := padding_of_mod (kind_mod p)
  have hbase : bodyBase base p = base + (p + (padding 4 p + 4)) + 4 := rfl
  simp only [Code.encode, andThen_assoc, length_andThen, length_encapsulation, hkind, hmod,
    hwidth, Option.getD_some] at hfits ⊢
  -- where the name, the descriminant, the default, the number of cases and the cases are
  obtain ⟨q₁, hq₁⟩ : ∃ q, q = 1 + (marshalString little repoId 1).length := ⟨_, rfl⟩
  obtain ⟨q₂, hq₂⟩ : ∃ q, q = q₁ + (marshalString little name q₁).length := ⟨_, rfl⟩
  obtain ⟨q₃, hq₃⟩ : ∃ q, q = q₂ + (descriminant.encode recorded little
    (ix.entries.length + 1) (bodyBase base p)
    ((ix.entries.length, recorded (base + p)) :: starts) q₂).length := ⟨_, rfl⟩
  obtain ⟨q₄, hq₄⟩ : ∃ q, q = q₃ + (uLong little ((d.map UInt32.toNat).getD 0xffffffff)
    q₃).length := ⟨_, rfl⟩
  obtain ⟨q₅, hq₅⟩ : ∃ q, q = q₄ + (uLong little cases.length q₄).length := ⟨_, rfl⟩
  have hrepoId := length_lt_marshalString little repoId 1
  have hname := length_lt_marshalString little name q₁
  rw [← hq₁, ← hq₂, ← hq₃, ← hq₄, ← hq₅] at hfits ⊢
  have hcount := length_le_encode little recorded cases width
    (ix.entries.length + 1 + descriminant.nodes.length) (bodyBase base p)
    ((ix.entries.length, recorded (base + p)) :: starts) q₅
  simp only [Code.nodes, List.length_cons, List.length_append] at hn
  obtain ⟨new, referred, hread, hnodes, hasc₁⟩ := h (n := n)
    (bodyBase base p) q₂ ((ix.entries.length, recorded (base + p)) :: starts)
    ⟨ix.entries ++ [(recorded (base + p), none)], ix.referred⟩
    (uLong little ((d.map UInt32.toNat).getD 0xffffffff) q₃ ++
      (uLong little cases.length q₄ ++
        cases.encode recorded little width
          (ix.entries.length + 1 + descriminant.nodes.length) (bodyBase base p)
          ((ix.entries.length, recorded (base + p)) :: starts) q₅))
    (by omega)
    (hasc.push (recorded_eq (by omega)) (by omega) none)
    (hentered.cons _ _ _)
    (by simpa using hdescriminant)
    (by simp only [List.length_append, List.length_singleton]; omega)
  simp only [List.length_append, List.length_singleton] at hread hasc₁
  rw [← hq₃] at hread
  have hlength : (ix.entries ++ [(recorded (base + p), none)] ++ new).length =
      ix.entries.length + 1 + descriminant.nodes.length := by
    have := congrArg List.length hnodes
    simp only [List.length_map] at this
    rw [List.length_append, List.length_append, this, List.length_singleton]
  obtain ⟨new', referred', hread', hnodes', hasc₂⟩ := h' (n := n)
    width (bodyBase base p) q₅ ((ix.entries.length, recorded (base + p)) :: starts)
    ⟨ix.entries ++ [(recorded (base + p), none)] ++ new, referred⟩ [] (by omega)
    (hasc₁.mono (by omega))
    ((hentered.cons _ _ ix.referred).append _ _) (by rw [hlength]; exact hcases)
    (by rw [hlength]; omega)
  rw [hlength, List.append_nil] at hread'
  rw [hlength, List.append_assoc _ new] at hasc₂
  refine ⟨(recorded (base + p), some (.union repoId name descriminant cases d)) ::
    (new ++ new'), referred', ?_, by simp [Code.nodes, hnodes, hnodes'],
    hasc₂.set (by omega)⟩
  refine unmarshal_of_body _ (new ++ new') ?_
  simp only [unmarshalTypeCodeFrom_, hkind]
  rw [read_encapsulation (by
    simp only [length_andThen, ← hq₁, ← hq₂, ← hq₃, ← hq₄, ← hq₅]
    omega)]
  simp only [orThrow_some, ok_bind, andThen_apply]
  rw [read_string (by omega), ← hq₁]
  simp only [orThrow_some, ok_bind]
  rw [read_string (by omega), ← hq₂]
  simp only [orThrow_some, ok_bind]
  rw [show innerBase base (p + (padding 4 p + 4)) = bodyBase base p from rfl, ← hq₃, ← hq₄,
    ← hq₅, hread]
  simp only [ok_bind]
  rw [read_uLong (default_lt d), ← hq₄]
  simp only [orThrow_some, ok_bind]
  rw [read_uLong (by omega), ← hq₅]
  simp only [orThrow_some, ok_bind, hwidth]
  rw [hread']
  simp only [ok_bind]
  rw [read_default fun n hn => Nat.lt_trans (hdefault n hn) (by omega)]
  simp only [length_encapsulation, length_andThen, hmod, ← hq₁, ← hq₂, ← hq₃, ← hq₄, ← hq₅,
    Nat.add_assoc, List.append_assoc]

theorem readsBack_nil : Members.nil.ReadsBack little := by
  intro n width base p starts scope ix rest _ hasc _ _ _
  exact ⟨[], ix.referred, by simp [readMembers, Members.length, Members.encode], rfl, by
    simpa [Members.encode] using hasc⟩

theorem readsBack_cons (label : List UInt8) (name : CString) {type : Code} {more : Members}
    (h : type.ReadsBack little) (h' : more.ReadsBack little) :
    (Members.cons label name type more).ReadsBack little := by
  intro n width base p starts scope ix rest hn hasc hentered hformed hfits
  obtain ⟨hlabel, htype, hmore⟩ := hformed
  simp only [Members.encode, andThen_assoc, length_andThen] at hfits ⊢
  -- where the name, the type and the members behind it are
  obtain ⟨q₁, hq₁⟩ : ∃ q, q = p + (aligned width label p).length := ⟨_, rfl⟩
  obtain ⟨q₂, hq₂⟩ : ∃ q, q = q₁ + (marshalString little name q₁).length := ⟨_, rfl⟩
  obtain ⟨q₃, hq₃⟩ : ∃ q, q = q₂ +
    (type.encode recorded little ix.entries.length base starts q₂).length := ⟨_, rfl⟩
  have hname := length_lt_marshalString little name q₁
  rw [← hq₁, ← hq₂, ← hq₃] at hfits ⊢
  simp only [Members.nodes, List.length_append] at hn
  obtain ⟨new, referred, htype', hnodes, hasc⟩ := h (n := n) base q₂ starts ix
    (more.encode recorded little width (ix.entries.length + type.nodes.length) base starts q₃ ++
      rest)
    (by omega) (hasc.mono (by omega)) hentered htype (by omega)
  have hlength : (ix.entries ++ new).length = ix.entries.length + type.nodes.length := by
    have := congrArg List.length hnodes
    simp only [List.length_map] at this
    rw [List.length_append, this]
  obtain ⟨new', referred', hmore', hnodes', hasc'⟩ := h' (n := n)
    width base q₃ starts ⟨ix.entries ++ new, referred⟩ rest (by omega) (hasc.mono (by omega))
    (hentered.append _ _) (by rw [hlength]; exact hmore) (by rw [hlength]; omega)
  rw [hlength] at hmore' hasc'
  refine ⟨new ++ new', referred', ?_, by simp [Members.nodes, hnodes, hnodes'], ?_⟩
  · simp only [readMembers, readLabel, Members.length, andThen_apply, List.append_assoc]
    rw [take_aligned hlabel, ← hq₁]
    simp only [Option.map_some, orThrow_some, ok_bind, if_true]
    rw [read_string (by omega), ← hq₂]
    simp only [orThrow_some, ok_bind]
    rw [← hq₃, htype']
    simp only [ok_bind]
    rw [← hq₃, hmore']
    simp only [ok_bind, List.append_assoc]
    simp [hq₁, hq₂, hq₃, Nat.add_assoc]
  · rw [← List.append_assoc]
    exact hasc'.mono (by omega)

mutual

theorem Code.readsBack : ∀ c : Code, c.ReadsBack little
  | .leaf l => readsBack_leaf l
  | .reference j => readsBack_reference j
  | .repeated r item bound => readsBack_repeated r bound item.readsBack
  | .aggregate a repoId name members => readsBack_aggregate a repoId name members.readsBack
  | .union repoId name descriminant cases d =>
    readsBack_union repoId name d descriminant.readsBack cases.readsBack

theorem Members.readsBack : ∀ ms : Members, ms.ReadsBack little
  | .nil => readsBack_nil
  | .cons label name type more => readsBack_cons label name type.readsBack more.readsBack

end

end Urnest.TypeCode
